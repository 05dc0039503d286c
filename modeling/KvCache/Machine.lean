import Mathlib.Algebra.BigOperators.Group.Finset.Basic

/-! Runs of a step function over labels. A step is partial; what is nondeterministic in
the system (schedules, clocks, answers of the surroundings) is part of the label. -/
namespace KvCache.Machine

variable {σ ℓ : Type} (step : σ → ℓ → Option σ)

def run : σ → List ℓ → Option σ
  | s, [] => some s
  | s, l :: ls => (step s l).bind fun s' => run s' ls

/-- The run goes through, and the property holds at its start and after each of its steps. -/
def Throughout (property : σ → Prop) : σ → List ℓ → Prop
  | s, [] => property s
  | s, l :: ls => property s ∧ ∃ s', step s l = some s' ∧ Throughout property s' ls

/-- Each step is taken where the guard admits it. -/
def Guarded (guard : σ → ℓ → Prop) : σ → List ℓ → Prop
  | _, [] => True
  | s, l :: ls => guard s l ∧ ∀ s', step s l = some s' → Guarded guard s' ls

/-- Guards that can be evaluated can be evaluated along a run. -/
instance decidableGuarded (guard : σ → ℓ → Prop) [decide : ∀ s l, Decidable (guard s l)] :
    (s : σ) → (ls : List ℓ) → Decidable (Guarded step guard s ls)
  | _, [] => .isTrue trivial
  | s, l :: ls =>
    match decide s l, next : step s l with
    | .isFalse outside, _ => .isFalse fun guarded => outside guarded.1
    | .isTrue inside, none => .isTrue ⟨inside,fun s' taken => by simp [next] at taken⟩
    | .isTrue inside, some m =>
      match decidableGuarded guard m ls with
      | .isTrue later => .isTrue ⟨inside,fun s' taken => by
          cases next.symm.trans taken
          exact later⟩
      | .isFalse not => .isFalse fun guarded => not (guarded.2 m next)

theorem run_cons_iff (s t : σ) (l : ℓ) (ls : List ℓ) :
    run step s (l :: ls) = some t ↔ ∃ m, step s l = some m ∧ run step m ls = some t := by
  simp [run,Option.bind_eq_some_iff]

theorem run_singleton (s : σ) (l : ℓ) : run step s [l] = step s l := by
  simp [run]

theorem run_append (s t u : σ) (first second : List ℓ) (ran : run step s first = some t)
    (later : run step t second = some u) : run step s (first ++ second) = some u := by
  induction first generalizing s with
  | nil => cases ran; exact later
  | cons l first ih =>
    obtain ⟨m,taken,ran⟩ := (run_cons_iff step s t l first).mp ran
    exact (run_cons_iff step s u l _).mpr ⟨m,taken,ih m ran⟩

theorem guarded_cons_iff (guard : σ → ℓ → Prop) (s m : σ) (l : ℓ) (ls : List ℓ)
    (taken : step s l = some m) :
    Guarded step guard s (l :: ls) ↔ guard s l ∧ Guarded step guard m ls := by
  refine and_congr_right fun _ => ⟨fun all => all m taken,fun later m' same => ?_⟩
  cases taken.symm.trans same
  exact later

theorem guarded_split (guard : σ → ℓ → Prop) (s t : σ) (first second : List ℓ)
    (guarded : Guarded step guard s (first ++ second)) (ran : run step s first = some t) :
    Guarded step guard s first ∧ Guarded step guard t second := by
  induction first generalizing s with
  | nil =>
    cases ran
    exact ⟨trivial,guarded⟩
  | cons l ls ih =>
    obtain ⟨m,taken,later⟩ := (run_cons_iff step s t l ls).mp ran
    have split := ih m (guarded.2 m taken) later
    exact ⟨(guarded_cons_iff step guard s m l ls taken).mpr ⟨guarded.1,split.1⟩,split.2⟩

theorem guarded_of_forall (guard : σ → ℓ → Prop) (s : σ) (ls : List ℓ)
    (all : ∀ l ∈ ls, ∀ s, guard s l) : Guarded step guard s ls := by
  induction ls generalizing s with
  | nil => trivial
  | cons l ls ih =>
    exact ⟨all l List.mem_cons_self s,fun m _ =>
      ih m fun x member => all x (List.mem_cons_of_mem l member)⟩

theorem invariant_of_guarded (guard : σ → ℓ → Prop) (admitted : ℓ → Prop) (invariant : σ → Prop)
    (preserved : ∀ s l s', invariant s → admitted l → guard s l → step s l = some s' → invariant s')
    (s t : σ) (ls : List ℓ) (start : invariant s) (labels : ∀ l ∈ ls, admitted l)
    (guarded : Guarded step guard s ls) (ran : run step s ls = some t) : invariant t := by
  induction ls generalizing s with
  | nil => cases ran; exact start
  | cons l ls ih =>
    obtain ⟨m,taken,ran⟩ := (run_cons_iff step s t l ls).mp ran
    exact ih m (preserved s l m start (labels l List.mem_cons_self) guarded.1 taken)
      (fun x member => labels x (List.mem_cons_of_mem l member)) (guarded.2 m taken) ran

theorem invariant_of_run (admitted : ℓ → Prop) (invariant : σ → Prop)
    (preserved : ∀ s l s', invariant s → admitted l → step s l = some s' → invariant s')
    (s t : σ) (ls : List ℓ) (start : invariant s) (labels : ∀ l ∈ ls, admitted l)
    (ran : run step s ls = some t) : invariant t :=
  invariant_of_guarded step (fun _ _ => True) admitted invariant
    (fun s l s' inv label _ taken => preserved s l s' inv label taken) s t ls start labels
    (guarded_of_forall step _ s ls fun _ _ _ => trivial) ran

/-- Exact guards. Where a guarded step that is taken keeps the invariant, the invariant
gives the property, and an unguarded step loses the property, a run that goes through has the
property throughout exactly when it is guarded. -/
theorem throughout_iff_guarded_of_run (guard : σ → ℓ → Prop) (invariant property : σ → Prop)
    (admitted : ℓ → Prop) (holds : ∀ s, invariant s → property s)
    (kept : ∀ s l s', invariant s → admitted l → guard s l → step s l = some s' → invariant s')
    (lost : ∀ s l s', invariant s → admitted l → ¬guard s l → step s l = some s' →
      ¬property s')
    (s t : σ) (ls : List ℓ) (start : invariant s) (labels : ∀ l ∈ ls, admitted l)
    (ran : run step s ls = some t) :
    Throughout step property s ls ↔ Guarded step guard s ls := by
  induction ls generalizing s with
  | nil => exact ⟨fun _ => trivial,fun _ => holds s start⟩
  | cons l ls ih =>
    obtain ⟨m,taken,ran⟩ := (run_cons_iff step s t l ls).mp ran
    have head := labels l List.mem_cons_self
    have rest (next : invariant m) :=
      ih m next (fun x member => labels x (List.mem_cons_of_mem l member)) ran
    constructor
    · rintro ⟨_,s',same,later⟩
      cases taken.symm.trans same
      -- the property after the step is the first thing the rest of the run asks for
      have first : property m := by
        cases ls with
        | nil => exact later
        | cons _ _ => exact later.1
      have inside : guard s l := Classical.byContradiction fun outside =>
        lost s l m start head outside taken first
      refine ⟨inside,fun s' same => ?_⟩
      cases taken.symm.trans same
      exact (rest (kept s l m start head inside taken)).mp later
    · rintro ⟨inside,later⟩
      have next := kept s l m start head inside taken
      exact ⟨holds s start,m,taken,(rest next).mpr (later m taken)⟩

theorem run_of_throughout (property : σ → Prop) (s : σ) (ls : List ℓ)
    (through : Throughout step property s ls) : ∃ t, run step s ls = some t := by
  induction ls generalizing s with
  | nil => exact ⟨s,rfl⟩
  | cons l ls ih =>
    obtain ⟨_,m,taken,later⟩ := through
    obtain ⟨t,ran⟩ := ih m later
    exact ⟨t,(run_cons_iff step s t l ls).mpr ⟨m,taken,ran⟩⟩

theorem run_of_guarded (guard : σ → ℓ → Prop) (invariant : σ → Prop) (admitted : ℓ → Prop)
    (kept : ∀ s l, invariant s → admitted l → guard s l →
      ∃ s', step s l = some s' ∧ invariant s')
    (s : σ) (ls : List ℓ) (start : invariant s) (labels : ∀ l ∈ ls, admitted l)
    (guarded : Guarded step guard s ls) : ∃ t, run step s ls = some t := by
  induction ls generalizing s with
  | nil => exact ⟨s,rfl⟩
  | cons l ls ih =>
    obtain ⟨m,taken,next⟩ := kept s l start (labels l List.mem_cons_self) guarded.1
    obtain ⟨t,ran⟩ := ih m next (fun x member => labels x (List.mem_cons_of_mem l member))
      (guarded.2 m taken)
    exact ⟨t,(run_cons_iff step s t l ls).mpr ⟨m,taken,ran⟩⟩

theorem throughout_iff_guarded (guard : σ → ℓ → Prop) (invariant property : σ → Prop)
    (admitted : ℓ → Prop) (holds : ∀ s, invariant s → property s)
    (kept : ∀ s l, invariant s → admitted l → guard s l →
      ∃ s', step s l = some s' ∧ invariant s')
    (lost : ∀ s l s', invariant s → admitted l → ¬guard s l → step s l = some s' →
      ¬property s')
    (s : σ) (ls : List ℓ) (start : invariant s) (labels : ∀ l ∈ ls, admitted l) :
    Throughout step property s ls ↔ Guarded step guard s ls := by
  have taken (s : σ) (l : ℓ) (s' : σ) (inv : invariant s) (label : admitted l)
      (inside : guard s l) (next : step s l = some s') : invariant s' := by
    obtain ⟨m,same,kept⟩ := kept s l inv label inside
    cases next.symm.trans same
    exact kept
  have same (t : σ) := throughout_iff_guarded_of_run step guard invariant property admitted holds
    taken lost s t ls start labels
  constructor
  · intro through
    obtain ⟨t,ran⟩ := run_of_throughout step property s ls through
    exact (same t ran).mp through
  · intro guarded
    obtain ⟨t,ran⟩ := run_of_guarded step guard invariant admitted kept s ls start labels guarded
    exact (same t ran).mpr guarded

theorem throughout_of_invariant (invariant property : σ → Prop) (admitted : ℓ → Prop)
    (holds : ∀ s, invariant s → property s)
    (kept : ∀ s l, invariant s → admitted l → ∃ s', step s l = some s' ∧ invariant s')
    (s : σ) (ls : List ℓ) (start : invariant s) (labels : ∀ l ∈ ls, admitted l) :
    Throughout step property s ls := by
  refine (throughout_iff_guarded step (fun _ _ => True) invariant property admitted holds
    (fun s l inv admitted _ => kept s l inv admitted) (fun _ _ _ _ _ outside => ?_) s ls start
    labels).mpr (guarded_of_forall step _ s ls fun _ _ _ => trivial)
  exact absurd trivial outside

/-- Whichever guarded steps are taken, the goal is reached: until then there is a step to take,
and the steps come to an end. -/
inductive Inevitable (guard : σ → ℓ → Prop) (goal : σ → Prop) : σ → Prop
  | reached (s : σ) (done : goal s) : Inevitable guard goal s
  | later (s : σ) (possible : ∃ l s', guard s l ∧ step s l = some s')
      (all : ∀ l s', guard s l → step s l = some s' → Inevitable guard goal s') :
      Inevitable guard goal s

/-- A goal is inevitable if nothing else stops the system and every step makes something smaller. -/
theorem inevitable_of_measure {α : Type} (lt : α → α → Prop) (wellFounded : WellFounded lt)
    (measure : σ → α) (guard : σ → ℓ → Prop) (goal invariant : σ → Prop)
    (kept : ∀ s l s', invariant s → guard s l → step s l = some s' → invariant s')
    (decreases : ∀ s l s', invariant s → guard s l → step s l = some s' →
      lt (measure s') (measure s))
    (progress : ∀ s, invariant s → ¬goal s → ∃ l s', guard s l ∧ step s l = some s')
    (s : σ) (start : invariant s) : Inevitable step guard goal s := by
  induction s using (InvImage.wf measure wellFounded).induction with
  | h s ih =>
    by_cases done : goal s
    · exact .reached s done
    · apply Inevitable.later s (progress s start done)
      intro l s' inside taken
      exact ih s' (decreases s l s' start inside taken) (kept s l s' start inside taken)

theorem sum_changed {ι : Type} [DecidableEq ι] (set : Finset ι) (i : ι) (member : i ∈ set)
    (before after : ι → Nat) (others : ∀ j, j ≠ i → after j = before j) :
    (∑ j ∈ set, after j) + before i = (∑ j ∈ set, before j) + after i := by
  have rest : ∑ j ∈ set.erase i, after j = ∑ j ∈ set.erase i, before j :=
    Finset.sum_congr rfl fun j inside => others j (Finset.ne_of_mem_erase inside)
  rw [← Finset.add_sum_erase set after member,← Finset.add_sum_erase set before member,rest]
  omega

end KvCache.Machine
