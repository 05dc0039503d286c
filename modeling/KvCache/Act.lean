import Mathlib.Logic.Basic

/-! Stateful calls that may fail. A call keeps the changes it made before it failed, which
is what an exception does to the objects and files it leaves behind. -/
namespace KvCache

/-- The ways a call can end other than by returning: undefined behaviour, a standard
exception, or a loop that has not ended within the given fuel. -/
inductive Fault where
  | outOfBounds
  | signedOverflow
  | runtimeError (what : String)
  | invalidArgument
  | outOfRange
  | outOfFuel
  deriving DecidableEq, Repr

/-- The faults that are exceptions; after the others nothing is known of the program. -/
def Fault.isException : Fault → Bool
  | runtimeError _ | invalidArgument | outOfRange => true
  | outOfBounds | signedOverflow | outOfFuel => false

def Fault.isRuntimeError : Fault → Bool
  | runtimeError _ => true
  | _ => false

theorem Fault.bind_ok_iff {α β : Type} (x : Except Fault α) (f : α → Except Fault β) (b : β) :
    (x >>= f) = .ok b ↔ ∃ a, x = .ok a ∧ f a = .ok b := by
  cases x with
  | ok a => simp [bind,Except.bind]
  | error e => simp [bind,Except.bind]

abbrev Act (σ : Type) := EStateM Fault σ

namespace Act

variable {σ τ α β : Type}

@[simp] theorem pure_apply (a : α) (s : σ) : (pure a : Act σ α) s = .ok a s := rfl

@[simp] theorem bind_apply (x : Act σ α) (f : α → Act σ β) (s : σ) :
    (x >>= f) s = match x s with
      | .ok a s' => f a s'
      | .error e s' => .error e s' := by
  change EStateM.bind x f s = _
  unfold EStateM.bind
  cases x s <;> rfl

@[simp] theorem map_apply (f : α → β) (x : Act σ α) (s : σ) :
    (f <$> x) s = match x s with
      | .ok a s' => .ok (f a) s'
      | .error e s' => .error e s' := by
  change EStateM.map f x s = _
  unfold EStateM.map
  cases x s <;> rfl

@[simp] theorem get_apply (s : σ) : (get : Act σ σ) s = .ok s s := rfl

@[simp] theorem set_apply (s s' : σ) : (set s' : Act σ PUnit) s = .ok () s' := rfl

@[simp] theorem modify_apply (f : σ → σ) (s : σ) : (modify f : Act σ PUnit) s = .ok () (f s) := rfl

@[simp] theorem throw_apply (e : Fault) (s : σ) : (throw e : Act σ α) s = .error e s := rfl

@[simp] theorem ofExcept_ok (a : α) (s : σ) : (ofExcept (.ok a) : Act σ α) s = .ok a s := rfl

@[simp] theorem ofExcept_error (e : Fault) (s : σ) :
    (ofExcept (.error e) : Act σ α) s = .error e s := rfl

@[simp] theorem ite_apply (c : Prop) [Decidable c] (x y : Act σ α) (s : σ) :
    (if c then x else y) s = if c then x s else y s := by
  split <;> rfl

/-- The state a call returns in. -/
def final : EStateM.Result Fault σ α → Option σ
  | .ok _ s => some s
  | .error _ _ => none

/-- The state a call leaves behind, whether it returns or throws. -/
def leaves : EStateM.Result Fault σ α → σ
  | .ok _ s => s
  | .error _ s => s

/-- Whether a call returns. -/
def returns : EStateM.Result Fault σ α → Bool
  | .ok _ _ => true
  | .error _ _ => false

/-- A call on a part of the state. -/
def zoom (part : σ → τ) (replace : τ → σ → σ) (x : Act τ α) : Act σ α := fun s =>
  match x (part s) with
  | .ok a t => .ok a (replace t s)
  | .error e t => .error e (replace t s)

theorem zoom_ok (part : σ → τ) (replace : τ → σ → σ) (x : Act τ α) (s : σ) (a : α) (t : τ)
    (run : x (part s) = .ok a t) : zoom part replace x s = .ok a (replace t s) := by
  simp [zoom,run]

/-- The faults of a call are among these, from whatever state it starts. -/
def FailsWith (faults : Fault → Prop) (x : Act σ α) : Prop :=
  ∀ s e s', x s = .error e s' → faults e

section

variable {faults : Fault → Prop}

theorem failsWith_mono {more : Fault → Prop} {x : Act σ α} (fails : FailsWith faults x)
    (within : ∀ e, faults e → more e) : FailsWith more x :=
  fun s e s' failed => within e (fails s e s' failed)

theorem failsWith_pure (a : α) : FailsWith faults (pure a : Act σ α) := by
  intro s e s' failed
  cases failed

theorem failsWith_get : FailsWith faults (get : Act σ σ) := by
  intro s e s' failed
  cases failed

theorem failsWith_modify (f : σ → σ) : FailsWith faults (modify f : Act σ PUnit) := by
  intro s e s' failed
  cases failed

theorem failsWith_throw (e : Fault) (among : faults e) : FailsWith faults (throw e : Act σ α) := by
  intro s e' s' failed
  cases failed
  exact among

theorem failsWith_ofExcept (x : Except Fault α) (among : ∀ e, x = .error e → faults e) :
    FailsWith faults (ofExcept x : Act σ α) := by
  intro s e s' failed
  cases x with
  | ok a => cases failed
  | error e' =>
    cases failed
    exact among e rfl

theorem failsWith_bind {x : Act σ α} {f : α → Act σ β} (first : FailsWith faults x)
    (second : ∀ a, FailsWith faults (f a)) : FailsWith faults (x >>= f) := by
  intro s e s' failed
  rw [bind_apply] at failed
  split at failed
  next a m _ => exact second a m e s' failed
  next e' m run =>
    cases failed
    exact first s e s' run

theorem failsWith_ite (c : Prop) [Decidable c] {x y : Act σ α} (yes : FailsWith faults x)
    (no : FailsWith faults y) : FailsWith faults (if c then x else y) := by
  split
  · exact yes
  · exact no

theorem failsWith_zoom (part : σ → τ) (replace : τ → σ → σ) {x : Act τ α}
    (inner : FailsWith faults x) : FailsWith faults (zoom part replace x) := by
  intro s e s' failed
  unfold zoom at failed
  split at failed
  · cases failed
  next e' t run =>
    cases failed
    exact inner _ e t run

end

/-- The property survives the call, whether it returns or throws. -/
def Preserves (property : σ → Prop) (x : Act σ α) : Prop := ∀ s, property s → property (leaves (x s))

section

variable {property : σ → Prop}

theorem preserves_pure (a : α) : Preserves property (pure a : Act σ α) := fun _ holds => holds

theorem preserves_get : Preserves property (get : Act σ σ) := fun _ holds => holds

theorem preserves_ofExcept (x : Except Fault α) : Preserves property (ofExcept x : Act σ α) := by
  intro s holds
  cases x <;> exact holds

theorem preserves_bind {x : Act σ α} {f : α → Act σ β} (first : Preserves property x)
    (second : ∀ a, Preserves property (f a)) : Preserves property (x >>= f) := by
  intro s holds
  have middle := first s holds
  rw [bind_apply]
  cases ran : x s with
  | ok a m =>
    rw [ran] at middle
    exact second a m middle
  | error e m =>
    rw [ran] at middle
    exact middle

theorem preserves_ite (c : Prop) [Decidable c] {x y : Act σ α} (yes : Preserves property x)
    (no : Preserves property y) : Preserves property (if c then x else y) := by
  split
  · exact yes
  · exact no

end

end Act

end KvCache
