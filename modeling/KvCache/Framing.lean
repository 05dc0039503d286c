import Mathlib.Data.List.Basic
import Mathlib.Data.List.Flatten

/-! Self-delimiting codes. A frame decodes in front of any continuation and none of its
strict prefixes decodes, which is all that reading a cut or a chunked stream needs: the
frames obtained are exactly those that lie wholly inside the symbols seen so far. -/
namespace KvCache

structure Framing (α β : Type) where
  encode : α → List β
  Valid : α → Prop
  decode : List β → Option (α × List β)
  decode_nil : decode [] = none
  decode_encode : ∀ x rest, Valid x → decode (encode x ++ rest) = some (x,rest)
  decode_strict : ∀ x part, Valid x → part <+: encode x → part ≠ encode x → decode part = none

namespace Framing

variable {α β : Type} (f : Framing α β)

def stream (xs : List α) : List β := xs.flatMap f.encode

/-- Decode until no frame is found; `none` when the fuel ends first. -/
def drain : Nat → List β → Option (List α × List β)
  | 0, _ => none
  | fuel + 1, symbols =>
    match f.decode symbols with
    | none => some ([],symbols)
    | some (x,rest) => (drain fuel rest).map fun r => (x :: r.1,r.2)

/-- The number of leading frames that lie wholly inside the first `n` symbols. -/
def completed : List α → Nat → Nat
  | [], _ => 0
  | x :: xs, n =>
    if (f.encode x).length ≤ n then completed xs (n - (f.encode x).length) + 1 else 0

/-- The symbols of the frame that is still open after `n` symbols. -/
def pending (xs : List α) (n : Nat) : List β :=
  ((f.stream xs).take n).drop (f.stream (xs.take (f.completed xs n))).length

@[simp] theorem stream_nil : f.stream [] = [] := rfl

@[simp] theorem stream_cons (x : α) (xs : List α) :
    f.stream (x :: xs) = f.encode x ++ f.stream xs := by
  simp [stream]

@[simp] theorem stream_append (xs ys : List α) :
    f.stream (xs ++ ys) = f.stream xs ++ f.stream ys := by
  simp [stream]

theorem stream_take_drop (xs : List α) (k : Nat) :
    f.stream (xs.take k) ++ f.stream (xs.drop k) = f.stream xs := by
  rw [← stream_append,List.take_append_drop]

theorem encode_pos (x : α) (valid : f.Valid x) : 0 < (f.encode x).length := by
  rw [List.length_pos_iff]
  intro empty
  have found := f.decode_encode x [] valid
  simp [empty,f.decode_nil] at found

theorem length_le_stream (xs : List α) (valid : ∀ x ∈ xs, f.Valid x) :
    xs.length ≤ (f.stream xs).length := by
  induction xs with
  | nil => simp
  | cons x xs ih =>
    have head := f.encode_pos x (valid x List.mem_cons_self)
    have tail := ih fun y member => valid y (List.mem_cons_of_mem x member)
    simp only [List.length_cons,stream_cons,List.length_append]
    omega

theorem encode_unique (x y : α) (a b : List β) (validX : f.Valid x) (validY : f.Valid y)
    (same : f.encode x ++ a = f.encode y ++ b) : x = y ∧ a = b := by
  have found := f.decode_encode x a validX
  rw [same,f.decode_encode y b validY] at found
  simpa [eq_comm] using found

/-- Symbols split in one way only into frames and a rest without a frame in front. -/
theorem stream_unique (xs ys : List α) (a b : List β) (validX : ∀ x ∈ xs, f.Valid x)
    (validY : ∀ y ∈ ys, f.Valid y) (noneA : f.decode a = none) (noneB : f.decode b = none)
    (same : f.stream xs ++ a = f.stream ys ++ b) : xs = ys ∧ a = b := by
  induction xs generalizing ys with
  | nil =>
    cases ys with
    | nil => exact ⟨rfl,same⟩
    | cons y ys =>
      have found := f.decode_encode y (f.stream ys ++ b) (validY y List.mem_cons_self)
      rw [stream_nil,List.nil_append,stream_cons,List.append_assoc] at same
      rw [← same,noneA] at found
      cases found
  | cons x xs ih =>
    have headX := validX x List.mem_cons_self
    cases ys with
    | nil =>
      have found := f.decode_encode x (f.stream xs ++ a) headX
      rw [stream_nil,List.nil_append,stream_cons,List.append_assoc] at same
      rw [same,noneB] at found
      cases found
    | cons y ys =>
      rw [stream_cons,stream_cons,List.append_assoc,List.append_assoc] at same
      obtain ⟨rfl,rest⟩ := f.encode_unique x y _ _ headX (validY y List.mem_cons_self) same
      obtain ⟨rfl,rfl⟩ := ih ys (fun z member => validX z (List.mem_cons_of_mem x member))
        (fun z member => validY z (List.mem_cons_of_mem x member)) rest
      exact ⟨rfl,rfl⟩

theorem encode_length_le_stream (x : α) (xs : List α) (member : x ∈ xs) :
    (f.encode x).length ≤ (f.stream xs).length := by
  induction xs with
  | nil => cases member
  | cons y xs ih =>
    rw [stream_cons,List.length_append]
    rcases List.mem_cons.mp member with rfl | later
    · omega
    · have := ih later
      omega

theorem completed_le_length (xs : List α) (n : Nat) : f.completed xs n ≤ xs.length := by
  induction xs generalizing n with
  | nil => simp [completed]
  | cons x xs ih =>
    simp only [completed,List.length_cons]
    split
    · exact Nat.add_le_add_right (ih _) 1
    · exact Nat.zero_le _

theorem completed_fits (xs : List α) (n : Nat) :
    (f.stream (xs.take (f.completed xs n))).length ≤ n := by
  induction xs generalizing n with
  | nil => simp [completed]
  | cons x xs ih =>
    simp only [completed]
    split
    next fits =>
      have rest := ih (n - (f.encode x).length)
      simp only [List.take_succ_cons,stream_cons,List.length_append]
      omega
    next => simp

theorem le_completed (xs : List α) (n k : Nat) (inside : k ≤ xs.length)
    (fits : (f.stream (xs.take k)).length ≤ n) : k ≤ f.completed xs n := by
  induction xs generalizing n k with
  | nil => simpa [completed] using inside
  | cons x xs ih =>
    cases k with
    | zero => exact Nat.zero_le _
    | succ k =>
      simp only [List.take_succ_cons,stream_cons,List.length_append,List.length_cons] at fits inside
      have rest := ih (n - (f.encode x).length) k (by omega) (by omega)
      simp only [completed,if_pos (show (f.encode x).length ≤ n by omega)]
      omega

theorem fits_iff_le_completed (xs : List α) (n k : Nat) (inside : k ≤ xs.length) :
    (f.stream (xs.take k)).length ≤ n ↔ k ≤ f.completed xs n := by
  refine ⟨f.le_completed xs n k inside,fun le => Nat.le_trans ?_ (f.completed_fits xs n)⟩
  have split := congrArg List.length (f.stream_take_drop (xs.take (f.completed xs n)) k)
  rw [List.take_take,Nat.min_eq_left le,List.length_append] at split
  omega

theorem completed_mono (xs : List α) (n m : Nat) (le : n ≤ m) :
    f.completed xs n ≤ f.completed xs m :=
  f.le_completed xs m _ (f.completed_le_length xs n) (Nat.le_trans (f.completed_fits xs n) le)

theorem completed_stream (xs : List α) : f.completed xs (f.stream xs).length = xs.length :=
  Nat.le_antisymm (f.completed_le_length xs _)
    (f.le_completed xs _ _ (Nat.le_refl _) (by simp))

theorem completed_le_seen (xs : List α) (valid : ∀ x ∈ xs, f.Valid x) (n : Nat) :
    f.completed xs n ≤ ((f.stream xs).take n).length := by
  have fits := f.completed_fits xs n
  have whole := congrArg List.length (f.stream_take_drop xs (f.completed xs n))
  have count := f.length_le_stream (xs.take (f.completed xs n))
    fun x member => valid x (List.mem_of_mem_take member)
  rw [List.length_take,Nat.min_eq_left (f.completed_le_length xs n)] at count
  rw [List.length_append] at whole
  rw [List.length_take]
  omega

theorem completed_zero (xs : List α) (valid : ∀ x ∈ xs, f.Valid x) : f.completed xs 0 = 0 :=
  Nat.le_zero.mp (by simpa using f.completed_le_seen xs valid 0)

@[simp] theorem pending_zero (xs : List α) : f.pending xs 0 = [] := by
  simp [pending]

@[simp] theorem pending_stream (xs : List α) : f.pending xs (f.stream xs).length = [] := by
  simp [pending,completed_stream]

theorem completed_drop (xs : List α) (n k : Nat) (done : k ≤ f.completed xs n) :
    f.completed (xs.drop k) (n - (f.stream (xs.take k)).length) + k = f.completed xs n := by
  induction k generalizing xs n with
  | zero => simp
  | succ k ih =>
    cases xs with
    | nil => simp [completed] at done
    | cons x xs =>
      simp only [completed] at done ⊢
      split at done
      next fits =>
        have rest := ih xs (n - (f.encode x).length) (by omega)
        simp only [List.drop_succ_cons,List.take_succ_cons,stream_cons,List.length_append,
          ← Nat.sub_sub] at rest ⊢
        rw [if_pos fits]
        omega
      next => omega

theorem pending_cons_of_le (x : α) (xs : List α) (n : Nat) (fits : (f.encode x).length ≤ n) :
    f.pending (x :: xs) n = f.pending xs (n - (f.encode x).length) := by
  have split : ((f.stream (x :: xs)).take n) =
      f.encode x ++ (f.stream xs).take (n - (f.encode x).length) := by
    rw [stream_cons,List.take_append,List.take_of_length_le fits]
  simp only [pending,completed,if_pos fits,List.take_succ_cons,split]
  rw [stream_cons,List.length_append,List.drop_append,List.drop_of_length_le (by omega)]
  simp

theorem pending_cons_of_lt (x : α) (xs : List α) (n : Nat) (short : n < (f.encode x).length) :
    f.pending (x :: xs) n = (f.encode x).take n := by
  simp only [pending,completed,if_neg (Nat.not_le.mpr short),List.take_zero,stream_nil,
    List.length_nil,List.drop_zero,stream_cons]
  rw [List.take_append_of_le_length (Nat.le_of_lt short)]

theorem pending_drop (xs : List α) (n k : Nat) (done : k ≤ f.completed xs n) :
    f.pending (xs.drop k) (n - (f.stream (xs.take k)).length) = f.pending xs n := by
  induction k generalizing xs n with
  | zero => simp
  | succ k ih =>
    cases xs with
    | nil => simp [completed] at done
    | cons x xs =>
      simp only [completed] at done
      split at done
      next fits =>
        rw [f.pending_cons_of_le x xs n fits,← ih xs (n - (f.encode x).length) (by omega)]
        simp [Nat.sub_sub]
      next => omega

theorem drain_nil_iff (fuel : Nat) (symbols last : List β) :
    f.drain (fuel + 1) symbols = some ([],last) ↔ f.decode symbols = none ∧ last = symbols := by
  rw [drain]
  cases f.decode symbols with
  | none => simp [eq_comm]
  | some found => simp

theorem drain_cons_iff (fuel : Nat) (symbols last : List β) (x : α) (xs : List α) :
    f.drain (fuel + 1) symbols = some (x :: xs,last) ↔
      ∃ rest, f.decode symbols = some (x,rest) ∧ f.drain fuel rest = some (xs,last) := by
  rw [drain]
  rcases f.decode symbols with _ | ⟨y,rest⟩
  · simp
  · by_cases same : y = x <;> simp [same]

/-- A stream cut anywhere drains to its completed frames and the symbols left of the
frame the cut falls into. -/
theorem drain_take (xs : List α) (valid : ∀ x ∈ xs, f.Valid x) (n fuel : Nat)
    (enough : f.completed xs n < fuel) :
    f.drain fuel ((f.stream xs).take n) = some (xs.take (f.completed xs n),f.pending xs n) := by
  induction xs generalizing n fuel with
  | nil =>
    obtain ⟨fuel,rfl⟩ := Nat.exists_eq_add_one_of_ne_zero (Nat.ne_of_gt enough)
    simp [drain,f.decode_nil,completed,pending]
  | cons x xs ih =>
    obtain ⟨fuel,rfl⟩ := Nat.exists_eq_add_one_of_ne_zero (Nat.ne_of_gt (Nat.zero_lt_of_lt enough))
    have head := valid x List.mem_cons_self
    -- the cut falls behind the first frame, or into it
    by_cases fits : (f.encode x).length ≤ n
    · have whole : (f.stream (x :: xs)).take n =
          f.encode x ++ (f.stream xs).take (n - (f.encode x).length) := by
        rw [stream_cons,List.take_append,List.take_of_length_le fits]
      simp only [completed,if_pos fits] at enough ⊢
      have rest := ih (fun y member => valid y (List.mem_cons_of_mem x member))
        (n - (f.encode x).length) fuel (by omega)
      rw [whole,drain,f.decode_encode x _ head]
      simp [rest,f.pending_cons_of_le x xs n fits]
    · have short : n < (f.encode x).length := Nat.not_le.mp fits
      have part : (f.stream (x :: xs)).take n = (f.encode x).take n := by
        rw [stream_cons,List.take_append_of_le_length (Nat.le_of_lt short)]
      have strict : (f.encode x).take n ≠ f.encode x := by
        intro same
        have lengths := congrArg List.length same
        simp at lengths
        omega
      rw [part,drain,f.decode_strict x _ head (List.take_prefix n _) strict]
      simp [completed,if_neg fits,f.pending_cons_of_lt x xs n short]

theorem drain_pending (xs : List α) (valid : ∀ x ∈ xs, f.Valid x) (n fuel : Nat)
    (chunk : List β) (next : chunk <+: (f.stream xs).drop n) (inside : n ≤ (f.stream xs).length)
    (enough : xs.length < fuel) :
    f.drain fuel (f.pending xs n ++ chunk) =
      some ((xs.take (f.completed xs (n + chunk.length))).drop (f.completed xs n),
        f.pending xs (n + chunk.length)) := by
  have mono := f.completed_mono xs n (n + chunk.length) (by omega)
  have fits := f.completed_fits xs n
  have counted := f.completed_drop xs (n + chunk.length) (f.completed xs n) mono
  have joined : f.pending xs n ++ chunk =
      (f.stream (xs.drop (f.completed xs n))).take
        (n + chunk.length - (f.stream (xs.take (f.completed xs n))).length) := by
    have seen : (f.stream xs).take n ++ chunk = (f.stream xs).take (n + chunk.length) := by
      rw [List.take_add,List.prefix_iff_eq_take.mp next,List.length_take]
      simp [List.length_drop]
    have whole : (f.stream xs).drop (f.stream (xs.take (f.completed xs n))).length =
        f.stream (xs.drop (f.completed xs n)) := by
      conv => lhs; rw [← f.stream_take_drop xs (f.completed xs n)]
      rw [List.drop_left]
    have reach : (f.stream (xs.take (f.completed xs n))).length ≤ ((f.stream xs).take n).length := by
      rw [List.length_take]; omega
    rw [pending,← List.drop_append_of_le_length reach,seen,List.drop_take,whole]
  rw [joined,f.drain_take _ (fun x member => valid x (List.mem_of_mem_drop member))]
  · rw [f.pending_drop xs _ _ mono,List.drop_take,← counted,Nat.add_sub_cancel]
  · have := f.completed_le_length xs (n + chunk.length)
    omega

/-- Chunks are appended to the symbols left over, and each is drained before the next.
The frames are kept apart by the chunk that completed them. -/
def feed (fuel : Nat) : List β → List (List β) → Option (List (List α) × List β)
  | buffer, [] => some ([],buffer)
  | buffer, chunk :: chunks => do
    let (xs,rest) ← f.drain fuel (buffer ++ chunk)
    let (later,last) ← feed fuel rest chunks
    return (xs :: later,last)

/-- Feeding on from `n` symbols: what has been obtained after any of the chunks is what
the symbols up to there complete. -/
theorem feed_from (xs : List α) (valid : ∀ x ∈ xs, f.Valid x) (fuel : Nat)
    (enough : xs.length < fuel) (chunks : List (List β)) (n : Nat)
    (inside : n ≤ (f.stream xs).length) (next : chunks.flatten <+: (f.stream xs).drop n) :
    ∃ outs, f.feed fuel (f.pending xs n) chunks =
        some (outs,f.pending xs (n + chunks.flatten.length)) ∧ outs.length = chunks.length ∧
      ∀ i ≤ chunks.length, xs.take (f.completed xs n) ++ (outs.take i).flatten =
        xs.take (f.completed xs (n + (chunks.take i).flatten.length)) := by
  induction chunks generalizing n with
  | nil => exact ⟨[],by simp [feed],rfl,by simp⟩
  | cons chunk chunks ih =>
    rw [List.flatten_cons] at next
    have first : chunk <+: (f.stream xs).drop n := (List.prefix_append ..).trans next
    have room : n + chunk.length ≤ (f.stream xs).length := by
      have := first.length_le
      rw [List.length_drop] at this
      omega
    have later : chunks.flatten <+: (f.stream xs).drop (n + chunk.length) := by
      obtain ⟨rest,whole⟩ := next
      refine ⟨rest,?_⟩
      rw [← List.drop_drop,← whole,List.append_assoc,List.drop_left]
    obtain ⟨outs,run,count,progress⟩ := ih (n + chunk.length) room later
    have drained := f.drain_pending xs valid n fuel chunk first inside enough
    refine ⟨(xs.take (f.completed xs (n + chunk.length))).drop (f.completed xs n) :: outs,?_,
      by simp [count],?_⟩
    · simp [feed,drained,run,Nat.add_assoc]
    · intro i bound
      cases i with
      | zero => simp
      | succ i =>
        have mono := f.completed_mono xs n (n + chunk.length) (by omega)
        have step : xs.take (f.completed xs n) ++
            (xs.take (f.completed xs (n + chunk.length))).drop (f.completed xs n) =
              xs.take (f.completed xs (n + chunk.length)) := by
          conv => rhs; rw [← List.take_append_drop (f.completed xs n) (xs.take _)]
          rw [List.take_take,Nat.min_eq_left mono]
        have after := progress i (by simpa using bound)
        simp only [List.take_succ_cons,List.flatten_cons,List.length_append,← List.append_assoc,
          step,← Nat.add_assoc]
        exact after

end Framing

end KvCache
