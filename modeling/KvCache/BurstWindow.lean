import Mathlib.Data.List.DropRight
import KvCache.PersistentKvStore

/-! The burst window over whole runs. Its scan stops at the first expired timestamp; the
clock does not run backwards, so what lies behind that one has expired as well. -/
namespace KvCache

/-- A call on the window, with the clock reading it takes. -/
inductive WindowCall where
  | addOp (now : Time)
  | clear
  | count (now : Time)
  | isExceeded (now : Time)
  deriving DecidableEq, Repr

namespace WindowCall

def reading : WindowCall → Option Time
  | addOp now | count now | isExceeded now => some now
  | clear => none

def next (w : SlidingWindow) : WindowCall → SlidingWindow
  | addOp now => w.addOp now
  | clear => w.clear
  | count _ | isExceeded _ => w

def stamp : WindowCall → Option Time
  | addOp now => some now
  | _ => none

/-- The timestamps of the `AddOp` calls since the last `Clear`. -/
def sinceClear (calls : List WindowCall) : List Time :=
  (calls.rtakeWhile fun c => decide (c ≠ clear)).filterMap stamp

end WindowCall

namespace SlidingWindow

/-- On timestamps from the newest to the oldest the scan misses nothing. -/
theorem scan_eq_countP (cutoff : Time) (newest : List Time)
    (descending : newest.Pairwise (· ≥ ·)) :
    scan cutoff newest = newest.countP fun t => decide (cutoff ≤ t) := by
  induction newest with
  | nil => rfl
  | cons t older ih =>
    obtain ⟨behind,descending⟩ := List.pairwise_cons.mp descending
    rw [scan,List.countP_cons]
    by_cases expired : t < cutoff
    · have none : older.countP (fun t => decide (cutoff ≤ t)) = 0 := by
        refine List.countP_eq_zero.mpr fun x member => ?_
        have older : x ≤ t := behind x member
        simp only [decide_eq_true_eq]
        exact Int.not_le.mpr (Int.lt_of_le_of_lt older expired)
      simp [expired,none]
    · simp [expired,ih descending,Int.not_lt.mp expired]

theorem cast_of_small (n : Nat) (small : n < 2 ^ 31) : (n : Int).bmod (2 ^ 32) = n :=
  Int.bmod_eq_of_le (by omega) (by omega)

theorem isExceeded_iff (w : SlidingWindow) (now : Time) (small : w.count now < 2 ^ 31) :
    w.isExceeded now = true ↔ w.maxOps < w.count now := by
  have cast := cast_of_small (w.count now) small
  exact decide_eq_true_iff.trans (by rw [cast])

theorem timestamps_after (maxOps : Int) (windowSize : Time) (calls : List WindowCall) :
    calls.foldl WindowCall.next ⟨maxOps,windowSize,[]⟩ =
      ⟨maxOps,windowSize,WindowCall.sinceClear calls⟩ := by
  induction calls using List.reverseRecOn with
  | nil => rfl
  | append_singleton calls call ih =>
    rw [List.foldl_append,ih]
    cases call <;> simp [WindowCall.next,WindowCall.sinceClear,addOp,clear,WindowCall.stamp]

theorem sinceClear_sublist (calls : List WindowCall) :
    (WindowCall.sinceClear calls).Sublist (calls.filterMap WindowCall.reading) := by
  have stamps (calls : List WindowCall) :
      (calls.filterMap WindowCall.stamp).Sublist (calls.filterMap WindowCall.reading) := by
    induction calls with
    | nil => exact .slnil
    | cons call calls ih =>
      cases call with
      | addOp now => exact ih.cons_cons now
      | clear => exact ih
      | count now | isExceeded now => exact ih.cons now
  exact (stamps _).trans ((List.rtakeWhile_suffix _ calls).sublist.filterMap _)

/-- The early exit is exact. After any calls with a clock that does not run backwards,
`Count` is the number of all timestamps since the last `Clear` that have not expired, and
`IsExceeded` compares that number. -/
theorem count_exact (maxOps : Int) (windowSize : Time) (calls : List WindowCall) (now : Time)
    (forward : (calls.filterMap WindowCall.reading ++ [now]).Pairwise (· ≤ ·)) :
    let w := calls.foldl WindowCall.next ⟨maxOps,windowSize,[]⟩
    let live := (WindowCall.sinceClear calls).countP fun t => decide (now - windowSize ≤ t)
    w.count now = live ∧ (live < 2 ^ 31 → (w.isExceeded now = true ↔ maxOps < live)) := by
  intro w live
  have held : w = ⟨maxOps,windowSize,WindowCall.sinceClear calls⟩ :=
    timestamps_after maxOps windowSize calls
  have ascending : (WindowCall.sinceClear calls).Pairwise (· ≤ ·) :=
    (List.pairwise_append.mp forward).1.sublist (sinceClear_sublist calls)
  have counted : w.count now = live := by
    rw [held,count,scan_eq_countP _ _ (List.pairwise_reverse.mpr ascending),List.countP_reverse]
  have limit : w.maxOps = maxOps := by rw [held]
  refine ⟨counted,fun small => ?_⟩
  rw [isExceeded_iff w now (counted ▸ small),counted,limit]

/-- Two operations, a question, a third operation; the first one has expired. -/
theorem count_exact_expired :
    let w := [WindowCall.addOp 0,.addOp 50,.count 60,.addOp 120].foldl WindowCall.next ⟨1,100,[]⟩
    w.count 130 = 2 ∧ w.isExceeded 130 = true := by
  have exact := count_exact 1 100 [.addOp 0,.addOp 50,.count 60,.addOp 120] 130 (by decide)
  exact ⟨exact.1,(exact.2 (by decide)).mpr (by decide)⟩

end SlidingWindow

end KvCache
