import Mathlib.Data.List.Basic
import Mathlib.Data.List.Flatten

/-! Reading a stream as it arrives. A reader takes one item at a time off the front of the
symbols it holds. Where what it takes does not depend on what has not arrived yet, the items
do not depend on how the stream is cut into chunks, whatever the stream. -/
namespace KvCache.Incremental

variable {α β : Type} (next : List β → Option (α × List β))

/-- Take items until none is found; `none` when the fuel ends first. -/
def drain : Nat → List β → Option (List α × List β)
  | 0, _ => none
  | fuel + 1, symbols =>
    match next symbols with
    | none => some ([],symbols)
    | some (x,rest) => (drain fuel rest).map fun r => (x :: r.1,r.2)

def tried : Nat → List β → List (List β)
  | 0, _ => []
  | fuel + 1, symbols =>
    symbols :: match next symbols with
      | none => []
      | some (_,rest) => tried fuel rest

/-- Chunks are appended to the symbols held, and each is drained before the next. -/
def feed (fuel : Nat) : List β → List (List β) → Option (List (List α) × List β)
  | held, [] => some ([],held)
  | held, chunk :: chunks => do
    let (xs,rest) ← drain next fuel (held ++ chunk)
    let (later,last) ← feed fuel rest chunks
    return (xs :: later,last)

def triedFed (fuel : Nat) : List β → List (List β) → List (List β)
  | _, [] => []
  | held, chunk :: chunks =>
    tried next fuel (held ++ chunk) ++
      match drain next fuel (held ++ chunk) with
      | none => []
      | some (_,rest) => triedFed fuel rest chunks

/-- What is taken here is shorter than what is held, and is taken whatever arrives later. -/
def Steady (symbols : List β) : Prop :=
  ∀ x rest, next symbols = some (x,rest) →
    rest.length < symbols.length ∧ ∀ more, next (symbols ++ more) = some (x,rest ++ more)

/-- These items can be taken one after the other, and leave the last symbols. -/
inductive Takes : List β → List α → List β → Prop
  | done {symbols : List β} : Takes symbols [] symbols
  | step {symbols rest last : List β} {x : α} {xs : List α} :
      next symbols = some (x,rest) → Takes rest xs last → Takes symbols (x :: xs) last

variable {next}

theorem Takes.append {symbols middle last : List β} {xs ys : List α}
    (first : Takes next symbols xs middle) (second : Takes next middle ys last) :
    Takes next symbols (xs ++ ys) last := by
  induction first with
  | done => exact second
  | step taken _ ih => exact .step taken (ih second)

theorem Takes.unique {symbols a b : List β} {xs ys : List α} (first : Takes next symbols xs a)
    (second : Takes next symbols ys b) (endA : next a = none) (endB : next b = none) :
    xs = ys ∧ a = b := by
  induction first generalizing ys with
  | done =>
    cases second with
    | done => exact ⟨rfl,rfl⟩
    | step taken _ => simp [endA] at taken
  | step taken _ ih =>
    cases second with
    | done => simp [endB] at taken
    | step same later =>
      cases taken.symm.trans same
      obtain ⟨rfl,rfl⟩ := ih later endA
      exact ⟨rfl,rfl⟩

theorem drain_end (fuel : Nat) (symbols last : List β) (xs : List α)
    (drained : drain next fuel symbols = some (xs,last)) : next last = none := by
  induction fuel generalizing symbols xs with
  | zero => cases drained
  | succ fuel ih =>
    rw [drain] at drained
    split at drained
    next none => cases drained; exact none
    next x rest _ =>
      obtain ⟨⟨ys,end'⟩,later,shape⟩ := Option.map_eq_some_iff.mp drained
      cases shape
      exact ih rest ys later

theorem drain_takes (fuel : Nat) (symbols last : List β) (xs : List α)
    (drained : drain next fuel symbols = some (xs,last))
    (steady : ∀ b ∈ tried next fuel symbols, Steady next b) (more : List β) :
    Takes next (symbols ++ more) xs (last ++ more) := by
  induction fuel generalizing symbols xs with
  | zero => cases drained
  | succ fuel ih =>
    rw [drain] at drained
    rw [tried] at steady
    split at drained
    next => cases drained; exact .done
    next x rest taken =>
      obtain ⟨⟨ys,end'⟩,later,shape⟩ := Option.map_eq_some_iff.mp drained
      cases shape
      simp only [taken] at steady
      refine .step ((steady symbols List.mem_cons_self x rest taken).2 more) ?_
      exact ih rest ys later fun b member => steady b (List.mem_cons_of_mem symbols member)

theorem drain_total (fuel : Nat) (symbols : List β) (enough : symbols.length < fuel)
    (steady : ∀ b ∈ tried next fuel symbols, Steady next b) :
    ∃ xs last, drain next fuel symbols = some (xs,last) ∧ last.length ≤ symbols.length := by
  induction fuel generalizing symbols with
  | zero => cases enough
  | succ fuel ih =>
    rw [tried] at steady
    rw [drain]
    cases taken : next symbols with
    | none => exact ⟨[],symbols,rfl,Nat.le_refl _⟩
    | some found =>
      obtain ⟨x,rest⟩ := found
      simp only [taken] at steady
      have shorter := (steady symbols List.mem_cons_self x rest taken).1
      obtain ⟨xs,last,drained,le⟩ := ih rest (by omega)
        fun b member => steady b (List.mem_cons_of_mem symbols member)
      exact ⟨x :: xs,last,by simp [drained],by omega⟩

/-- Feeding chunks ends, and takes what can be taken from the whole stream at once. -/
theorem feed_takes (fuel : Nat) (chunks : List (List β)) (held : List β)
    (enough : (held ++ chunks.flatten).length < fuel) (stopped : next held = none)
    (steady : ∀ b ∈ triedFed next fuel held chunks, Steady next b) :
    ∃ outs last, feed next fuel held chunks = some (outs,last) ∧
      Takes next (held ++ chunks.flatten) outs.flatten last ∧ next last = none := by
  induction chunks generalizing held with
  | nil => exact ⟨[],held,rfl,by simpa using .done,stopped⟩
  | cons chunk chunks ih =>
    rw [triedFed] at steady
    have now : ∀ b ∈ tried next fuel (held ++ chunk), Steady next b := fun b member =>
      steady b (List.mem_append_left _ member)
    rw [List.flatten_cons,← List.append_assoc] at enough ⊢
    rw [List.length_append] at enough
    obtain ⟨xs,rest,drained,le⟩ := drain_total fuel (held ++ chunk) (by omega) now
    simp only [drained] at steady
    obtain ⟨outs,last,fed,takes,ended⟩ := ih rest (by rw [List.length_append]; omega)
      (drain_end fuel _ rest xs drained) fun b member => steady b (List.mem_append_right _ member)
    refine ⟨xs :: outs,last,by simp [feed,drained,fed],?_,ended⟩
    exact (drain_takes fuel _ rest xs drained now chunks.flatten).append takes

theorem feed_agrees (fuel : Nat) (first second : List (List β))
    (same : first.flatten = second.flatten) (enough : first.flatten.length < fuel)
    (empty : next [] = none) (steadyFirst : ∀ b ∈ triedFed next fuel [] first, Steady next b)
    (steadySecond : ∀ b ∈ triedFed next fuel [] second, Steady next b) :
    ∃ outs outs' last, feed next fuel [] first = some (outs,last) ∧
      feed next fuel [] second = some (outs',last) ∧ outs.flatten = outs'.flatten := by
  obtain ⟨outs,last,fed,takes,ended⟩ := feed_takes fuel first [] (by simpa using enough) empty
    steadyFirst
  obtain ⟨outs',last',fed',takes',ended'⟩ := feed_takes fuel second [] (by simpa [← same] using enough)
    empty steadySecond
  rw [← same] at takes'
  obtain ⟨items,rfl⟩ := takes.unique takes' ended ended'
  exact ⟨outs,outs',last,fed,fed',items⟩

end KvCache.Incremental
