import Mathlib.Data.List.Basic

/-! A file whose changes reach the disk later than its users see them. The changes since the last
flush are kept in order, and a flush puts all of them on the disk. What a power loss leaves of them
is up to the system below: it is a relation here, with what is asked of it as a named hypothesis.
The users work in operations, each of which makes several changes. -/
namespace KvCache.WriteBack

variable {σ δ ι : Type}

structure Cached (σ δ : Type) where
  disk : σ
  pending : List δ
  deriving DecidableEq, Repr

namespace Cached

variable (apply : σ → δ → σ)

def view (c : Cached σ δ) : σ := c.pending.foldl apply c.disk

def write (c : Cached σ δ) (changes : List δ) : Cached σ δ :=
  { c with pending := c.pending ++ changes }

def flush (c : Cached σ δ) : Cached σ δ := ⟨c.view apply,[]⟩

/-- The disk with the first changes made to it. -/
def Front (c : Cached σ δ) (s : σ) : Prop := ∃ k, s = (c.pending.take k).foldl apply c.disk

/-- Changes reach the disk in the order in which they were made; `leaves` says what a power loss
may leave of a file. -/
def Ordered (leaves : Cached σ δ → σ → Prop) : Prop := ∀ c s, leaves c s → c.Front apply s

theorem Front.of_part {apply : σ → δ → σ} {c : Cached σ δ} {s : σ} (part whole : List δ)
    (begins : part <+: whole) (front : (c.write part).Front apply s) :
    (c.write whole).Front apply s := by
  obtain ⟨rest,rfl⟩ := begins
  obtain ⟨k,rfl⟩ := front
  by_cases inside : k ≤ (c.pending ++ part).length
  · refine ⟨k,?_⟩
    rw [write,write,← List.append_assoc,List.take_append_of_le_length inside]
  · refine ⟨(c.pending ++ part).length,?_⟩
    rw [write,write,← List.append_assoc,List.take_left' rfl,
      List.take_of_length_le (Nat.le_of_not_le inside)]

end Cached

theorem take_flatMap (changes : ι → List δ) (ops : List ι) (k : Nat) :
    ∃ i part, i ≤ ops.length ∧ (ops.flatMap changes).take k = (ops.take i).flatMap changes ++ part ∧
      (part = [] ∨ ∃ op, ops[i]? = some op ∧ part <+: changes op ∧ part ≠ changes op) := by
  induction ops generalizing k with
  | nil => exact ⟨0,[],Nat.le_refl _,by simp,.inl rfl⟩
  | cons op ops ih =>
    rw [List.flatMap_cons]
    by_cases inside : k < (changes op).length
    · refine ⟨0,(changes op).take k,Nat.zero_le _,?_,.inr ⟨op,rfl,List.take_prefix _ _,?_⟩⟩
      · rw [List.take_append_of_le_length (Nat.le_of_lt inside)]
        rfl
      · intro same
        have length := congrArg List.length same
        rw [List.length_take] at length
        omega
    · obtain ⟨i,part,bound,cut,next⟩ := ih (k - (changes op).length)
      refine ⟨i + 1,part,Nat.succ_le_succ bound,?_,next⟩
      rw [List.take_append,List.take_of_length_le (Nat.le_of_not_lt inside),cut]
      simp

/-- The operations that have been made; the first `settled` of them are on the disk. -/
structure Tracks (apply : σ → δ → σ) (changes : ι → List δ) (start : σ) (ops : List ι) (settled : Nat)
    (c : Cached σ δ) : Prop where
  bound : settled ≤ ops.length
  disk : c.disk = ((ops.take settled).flatMap changes).foldl apply start
  pending : c.pending = (ops.drop settled).flatMap changes

namespace Tracks

variable {apply : σ → δ → σ} {changes : ι → List δ} {start : σ} {ops : List ι} {settled : Nat}
  {c : Cached σ δ}

theorem empty (start : σ) : Tracks apply changes start [] 0 ⟨start,[]⟩ :=
  ⟨Nat.le_refl _,rfl,rfl⟩

theorem view (tracks : Tracks apply changes start ops settled c) :
    c.view apply = (ops.flatMap changes).foldl apply start := by
  rw [Cached.view,tracks.disk,tracks.pending,← List.foldl_append,← List.flatMap_append,
    List.take_append_drop]

theorem write (tracks : Tracks apply changes start ops settled c) (more : List ι) :
    Tracks apply changes start (ops ++ more) settled (c.write (more.flatMap changes)) where
  bound := by
    have bound := tracks.bound
    rw [List.length_append]
    omega
  disk := by
    rw [List.take_append_of_le_length tracks.bound]
    exact tracks.disk
  pending := by
    rw [List.drop_append_of_le_length tracks.bound,List.flatMap_append,Cached.write,tracks.pending]

theorem flush (tracks : Tracks apply changes start ops settled c) :
    Tracks apply changes start ops ops.length (c.flush apply) where
  bound := Nat.le_refl _
  disk := by
    rw [List.take_length]
    exact tracks.view
  pending := by simp [Cached.flush]

/-- The first changes are those of some operations, the settled ones among them, and perhaps a
part of the next. -/
theorem front (tracks : Tracks apply changes start ops settled c) {s : σ} (left : c.Front apply s) :
    ∃ j part, settled ≤ j ∧ j ≤ ops.length ∧
      s = part.foldl apply (((ops.take j).flatMap changes).foldl apply start) ∧
      (part = [] ∨ ∃ op, ops[j]? = some op ∧ part <+: changes op ∧ part ≠ changes op) := by
  obtain ⟨k,rfl⟩ := left
  obtain ⟨i,part,bound,cut,next⟩ := take_flatMap changes (ops.drop settled) k
  refine ⟨settled + i,part,Nat.le_add_right _ _,?_,?_,?_⟩
  · have inside := tracks.bound
    rw [List.length_drop] at bound
    omega
  · rw [tracks.pending,cut,tracks.disk,List.take_add,List.flatMap_append,List.foldl_append,
      List.foldl_append]
  · simpa [List.getElem?_drop] using next

end Tracks
end KvCache.WriteBack
