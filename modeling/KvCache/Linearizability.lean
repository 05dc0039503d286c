import Mathlib.Data.List.Nodup
import Mathlib.Logic.Function.Basic
import KvCache.Machine

/-! Linearizability of an object that many callers use at once: there is one order of the calls
in which a sequential object gives the same results, and which keeps two calls in their order
where the first returned before the second began. An object whose calls take effect in one step
between their beginning and their end is linearizable, also if all its callers are lost now and
then; a system is shown to be so by a simulation of it by that object. -/
namespace KvCache.Linearizability

variable {κ ι Op Result State : Type}

/-- What a caller sees of a call: that it begins, and the result it ends with. -/
inductive Event (ι Op Result : Type) where
  | invoke (id : ι) (op : Op)
  | respond (id : ι) (result : Result)
  deriving DecidableEq, Repr

def Event.invoked : Event ι Op Result → Option ι
  | invoke id _ => some id
  | respond _ _ => none

/-- A call at its place in a sequential order. -/
structure Entry (ι Op Result : Type) where
  id : ι
  op : Op
  result : Result
  deriving DecidableEq, Repr

/-- The list can be cut between the one and the other. -/
def Before {α : Type} (a b : α) (l : List α) : Prop :=
  ∃ first second, l = first ++ second ∧ a ∈ first ∧ b ∈ second

namespace Before

variable {α : Type} {a b : α} {l : List α}

theorem concat (before : Before a b l) (x : α) : Before a b (l ++ [x]) := by
  obtain ⟨first,second,rfl,left,right⟩ := before
  exact ⟨first,second ++ [x],List.append_assoc ..,left,List.mem_append_left _ right⟩

theorem last (member : a ∈ l) (x : α) : Before a x (l ++ [x]) :=
  ⟨l,[x],rfl,member,List.mem_singleton_self x⟩

theorem of_concat {x : α} (before : Before a b (l ++ [x])) (other : b ≠ x) : Before a b l := by
  obtain ⟨first,second,cut,left,right⟩ := before
  rcases List.eq_nil_or_concat' second with rfl | ⟨front,y,rfl⟩
  · cases right
  rw [← List.append_assoc] at cut
  obtain ⟨rfl,same⟩ := List.append_inj' cut rfl
  cases same
  refine ⟨first,front,rfl,left,?_⟩
  exact (List.mem_append.mp right).resolve_right fun isLast => other (List.mem_singleton.mp isLast)

end Before

section
variable (answer : State → Op → Result × State)

/-- The results are those that the sequential object gives in this order. -/
def Legal : State → List (Entry ι Op Result) → Prop
  | _, [] => True
  | s, e :: order => (answer s e.op).1 = e.result ∧ Legal (answer s e.op).2 order

def after (s : State) (order : List (Entry ι Op Result)) : State :=
  order.foldl (fun s e => (answer s e.op).2) s

theorem legal_concat (s : State) (order : List (Entry ι Op Result)) (e : Entry ι Op Result)
    (legal : Legal answer s order) (result : (answer (after answer s order) e.op).1 = e.result) :
    Legal answer s (order ++ [e]) := by
  induction order generalizing s with
  | nil => exact ⟨result,trivial⟩
  | cons d order ih => exact ⟨legal.1,ih _ legal.2 result⟩

theorem after_concat (s : State) (order : List (Entry ι Op Result)) (e : Entry ι Op Result) :
    after answer s (order ++ [e]) = (answer (after answer s order) e.op).2 := by
  simp [after]

/-- The order explains the history. Calls that have not returned may stand in it or not. -/
structure Linearization (start : State) (history : List (Event ι Op Result))
    (order : List (Entry ι Op Result)) : Prop where
  /-- No two calls have one identity. -/
  distinct : (history.filterMap Event.invoked).Nodup
  legal : Legal answer start order
  once : (order.map Entry.id).Nodup
  invoked : ∀ e ∈ order, .invoke e.id e.op ∈ history
  answered : ∀ id result, .respond id result ∈ history → ∃ op, ⟨id,op,result⟩ ∈ order
  realTime : ∀ a ∈ order, ∀ b ∈ order,
    (∃ result, Before (.respond a.id result) (.invoke b.id b.op) history) → Before a b order

def Linearizable (start : State) (history : List (Event ι Op Result)) : Prop :=
  ∃ order, Linearization answer start history order

end

namespace Linearization

variable {answer : State → Op → Result × State} {start : State}
  {history : List (Event ι Op Result)} {order : List (Entry ι Op Result)}

theorem empty (answer : State → Op → Result × State) (start : State) :
    Linearization answer start ([] : List (Event ι Op Result)) [] where
  distinct := .nil
  legal := trivial
  once := .nil
  invoked := by simp
  answered := by simp
  realTime := by simp

theorem invoke (linear : Linearization answer start history order) (id : ι) (op : Op)
    (fresh : ∀ op, .invoke id op ∉ history) :
    Linearization answer start (history ++ [.invoke id op]) order where
  distinct := by
    rw [List.filterMap_append]
    refine List.Nodup.append linear.distinct (List.nodup_singleton id) ?_
    intro i seen new
    cases List.mem_singleton.mp new
    obtain ⟨event,member,isInvoke⟩ := List.mem_filterMap.mp seen
    cases event with
    | invoke i op => cases isInvoke; exact fresh op member
    | respond i result => cases isInvoke
  legal := linear.legal
  once := linear.once
  invoked := fun e member => List.mem_append_left _ (linear.invoked e member)
  answered := by
    intro i result responded
    apply linear.answered i result
    simpa using responded
  realTime := by
    rintro a memberA b memberB ⟨result,before⟩
    apply linear.realTime a memberA b memberB
    refine ⟨result,before.of_concat fun same => ?_⟩
    cases same
    exact fresh b.op (linear.invoked b memberB)

theorem respond (linear : Linearization answer start history order) (e : Entry ι Op Result)
    (member : e ∈ order) :
    Linearization answer start (history ++ [.respond e.id e.result]) order where
  distinct := by
    have same : (history ++ [Event.respond e.id e.result]).filterMap Event.invoked =
        history.filterMap Event.invoked := by
      rw [List.filterMap_append]
      exact List.append_nil _
    rw [same]
    exact linear.distinct
  legal := linear.legal
  once := linear.once
  invoked := fun e member => List.mem_append_left _ (linear.invoked e member)
  answered := by
    intro id result responded
    rcases List.mem_append.mp responded with old | new
    · exact linear.answered id result old
    · cases List.mem_singleton.mp new
      exact ⟨e.op,member⟩
  realTime := by
    rintro a memberA b memberB ⟨result,before⟩
    exact linear.realTime a memberA b memberB ⟨result,before.of_concat nofun⟩

theorem commit (linear : Linearization answer start history order) (e : Entry ι Op Result)
    (invoked : .invoke e.id e.op ∈ history) (new : e.id ∉ order.map Entry.id)
    (result : (answer (after answer start order) e.op).1 = e.result) :
    Linearization answer start history (order ++ [e]) where
  distinct := linear.distinct
  legal := legal_concat answer start order e linear.legal result
  once := by
    rw [List.map_append]
    refine List.Nodup.append linear.once (List.nodup_singleton e.id) ?_
    intro i old isNew
    cases List.mem_singleton.mp isNew
    exact new old
  invoked := by
    intro d member
    rcases List.mem_append.mp member with old | last
    · exact linear.invoked d old
    · cases List.mem_singleton.mp last
      exact invoked
  answered := by
    intro id result responded
    obtain ⟨op,member⟩ := linear.answered id result responded
    exact ⟨op,List.mem_append_left _ member⟩
  realTime := by
    rintro a memberA b memberB ⟨result,before⟩
    have returned : .respond a.id result ∈ history := by
      obtain ⟨first,second,rfl,left,_⟩ := before
      exact List.mem_append_left _ left
    -- what has returned stands in the old order, so it is not the new call
    obtain ⟨op,old⟩ := linear.answered a.id result returned
    have oldA : a ∈ order := by
      refine (List.mem_append.mp memberA).resolve_right fun isNew => ?_
      cases List.mem_singleton.mp isNew
      exact new (List.mem_map.mpr ⟨_,old,rfl⟩)
    rcases List.mem_append.mp memberB with oldB | newB
    · exact (linear.realTime a oldA b oldB ⟨result,before⟩).concat e
    · cases List.mem_singleton.mp newB
      exact Before.last oldA e

end Linearization

/-- Where a caller is: outside a call, in a call that has not taken effect, or in one that has. -/
inductive CallState (Op Result : Type) where
  | idle
  | called (op : Op)
  | committed (op : Op) (result : Result)
  deriving DecidableEq, Repr

def CallState.isIdle : CallState Op Result → Bool
  | idle => true
  | called _ | committed _ _ => false

/-- The sequential object with its callers; a call is identified by its caller and the number of
calls that this caller has made before. -/
structure Atomic (κ Op Result State : Type) where
  state : State
  phase : κ → CallState Op Result
  count : κ → Nat
  history : List (Event (κ × Nat) Op Result)

inductive Move (κ Op : Type) where
  | invoke (c : κ) (op : Op)
  | commit (c : κ)
  | respond (c : κ)
  /-- The calls under way never return, whether they have taken effect or not. -/
  | crash
  deriving DecidableEq, Repr

namespace Atomic

variable [DecidableEq κ] (answer : State → Op → Result × State)

def start (state : State) : Atomic κ Op Result State := ⟨state,fun _ => .idle,fun _ => 0,[]⟩

def step (s : Atomic κ Op Result State) : Move κ Op → Option (Atomic κ Op Result State)
  | .invoke c op =>
    match s.phase c with
    | .idle => some { s with phase := Function.update s.phase c (.called op)
                             history := s.history ++ [.invoke (c,s.count c) op] }
    | _ => none
  | .commit c =>
    match s.phase c with
    | .called op => some { s with
        state := (answer s.state op).2
        phase := Function.update s.phase c (.committed op (answer s.state op).1) }
    | _ => none
  | .respond c =>
    match s.phase c with
    | .committed _ result => some { s with
        phase := Function.update s.phase c .idle
        count := Function.update s.count c (s.count c + 1)
        history := s.history ++ [.respond (c,s.count c) result] }
    | _ => none
  | .crash => some { s with
      phase := fun _ => .idle
      count := fun c => if (s.phase c).isIdle then s.count c else s.count c + 1 }

/-- What the history and the order say of a caller that has made so many calls before. -/
def Stands (history : List (Event (κ × Nat) Op Result)) (order : List (Entry (κ × Nat) Op Result))
    (c : κ) (made : Nat) : CallState Op Result → Prop
  | .idle => ∀ k op, made ≤ k → .invoke (c,k) op ∉ history
  | .called op => .invoke (c,made) op ∈ history ∧ (c,made) ∉ order.map Entry.id ∧
      ∀ k op, made < k → .invoke (c,k) op ∉ history
  | .committed op result => ⟨(c,made),op,result⟩ ∈ order ∧
      ∀ k op, made < k → .invoke (c,k) op ∉ history

omit [DecidableEq κ] in
theorem Stands.frame {history history' : List (Event (κ × Nat) Op Result)}
    {order added : List (Entry (κ × Nat) Op Result)} {c : κ} {made : Nat}
    {phase : CallState Op Result} (stands : Stands history order c made phase)
    (invokes : ∀ k op, .invoke (c,k) op ∈ history' ↔ .invoke (c,k) op ∈ history)
    (others : ∀ e ∈ added, e.id.1 ≠ c) : Stands history' (order ++ added) c made phase := by
  cases phase with
  | idle => exact fun k op later => (invokes k op).not.mpr (stands k op later)
  | called op =>
    obtain ⟨invoked,new,later⟩ := stands
    refine ⟨(invokes made op).mpr invoked,fun member => ?_,
      fun k op behind => (invokes k op).not.mpr (later k op behind)⟩
    rw [List.map_append] at member
    rcases List.mem_append.mp member with old | isAdded
    · exact new old
    · obtain ⟨e,inAdded,named⟩ := List.mem_map.mp isAdded
      exact others e inAdded (congrArg Prod.fst named)
  | committed op result =>
    exact ⟨List.mem_append_left _ stands.1,
      fun k op behind => (invokes k op).not.mpr (stands.2 k op behind)⟩

/-- The order in which the calls have taken effect. -/
structure Serialized (init : State) (s : Atomic κ Op Result State)
    (order : List (Entry (κ × Nat) Op Result)) : Prop where
  linear : Linearization answer init s.history order
  state : after answer init order = s.state
  callers : ∀ c, Stands s.history order c (s.count c) (s.phase c)

variable {answer} {init : State} {s t : Atomic κ Op Result State}
  {order : List (Entry (κ × Nat) Op Result)}

omit [DecidableEq κ] in
theorem serialized_start (init : State) :
    Serialized answer init (start init : Atomic κ Op Result State) [] where
  linear := .empty answer init
  state := rfl
  callers := fun _ _ _ _ => List.not_mem_nil

theorem Serialized.invoke (serialized : Serialized answer init s order) (c : κ) (op : Op)
    (idle : s.phase c = .idle) :
    Serialized answer init { s with phase := Function.update s.phase c (.called op)
                                    history := s.history ++ [.invoke (c,s.count c) op] } order := by
  have fresh := serialized.callers c
  rw [idle] at fresh
  constructor
  · exact serialized.linear.invoke _ op fun op => fresh _ op (Nat.le_refl _)
  · exact serialized.state
  intro d
  by_cases same : d = c
  · subst same
    simp only [Function.update_self]
    refine ⟨by simp,fun member => ?_,fun k op' behind member => ?_⟩
    · obtain ⟨e,inOrder,named⟩ := List.mem_map.mp member
      apply fresh _ e.op (Nat.le_refl _)
      rw [← named]
      exact serialized.linear.invoked e inOrder
    · rcases List.mem_append.mp member with old | new
      · exact fresh k op' (Nat.le_of_lt behind) old
      · cases List.mem_singleton.mp new
        exact Nat.lt_irrefl _ behind
  · simp only [Function.update_of_ne same]
    have frame : Stands (s.history ++ [.invoke (c,s.count c) op]) (order ++ []) d (s.count d)
        (s.phase d) := (serialized.callers d).frame (by simp [same]) (by simp)
    rwa [List.append_nil] at frame

theorem Serialized.commit (serialized : Serialized answer init s order) (c : κ) (op : Op)
    (called : s.phase c = .called op) :
    Serialized answer init { s with
        state := (answer s.state op).2
        phase := Function.update s.phase c (.committed op (answer s.state op).1) }
      (order ++ [⟨(c,s.count c),op,(answer s.state op).1⟩]) := by
  have stands := serialized.callers c
  rw [called] at stands
  obtain ⟨invoked,new,later⟩ := stands
  constructor
  · apply serialized.linear.commit _ invoked new
    rw [serialized.state]
  · rw [after_concat,serialized.state]
  intro d
  by_cases same : d = c
  · subst same
    simp only [Function.update_self]
    exact ⟨List.mem_append_right _ (List.mem_singleton_self _),later⟩
  · simp only [Function.update_of_ne same]
    apply (serialized.callers d).frame (fun _ _ => Iff.rfl)
    intro e member
    cases List.mem_singleton.mp member
    exact Ne.symm same

theorem Serialized.respond (serialized : Serialized answer init s order) (c : κ) (op : Op)
    (result : Result) (committed : s.phase c = .committed op result) :
    Serialized answer init { s with
        phase := Function.update s.phase c .idle
        count := Function.update s.count c (s.count c + 1)
        history := s.history ++ [.respond (c,s.count c) result] } order := by
  have stands := serialized.callers c
  rw [committed] at stands
  obtain ⟨member,later⟩ := stands
  constructor
  · exact serialized.linear.respond _ member
  · exact serialized.state
  intro d
  by_cases same : d = c
  · subst same
    simp only [Function.update_self]
    intro k op' behind isIn
    exact later k op' behind (by simpa using isIn)
  · simp only [Function.update_of_ne same]
    have frame : Stands (s.history ++ [.respond (c,s.count c) result]) (order ++ []) d (s.count d)
        (s.phase d) := (serialized.callers d).frame (by simp) (by simp)
    rwa [List.append_nil] at frame

omit [DecidableEq κ] in
theorem Serialized.crash (serialized : Serialized answer init s order) :
    Serialized answer init { s with
        phase := fun _ => .idle
        count := fun c => if (s.phase c).isIdle then s.count c else s.count c + 1 } order where
  linear := serialized.linear
  state := serialized.state
  callers := by
    intro c k op behind
    have stands := serialized.callers c
    cases phase : s.phase c with
    | idle =>
      rw [phase] at stands
      exact stands k op (by simpa [phase,CallState.isIdle] using behind)
    | called _ =>
      rw [phase] at stands
      exact stands.2.2 k op (Nat.lt_of_succ_le (by simpa [phase,CallState.isIdle] using behind))
    | committed _ _ =>
      rw [phase] at stands
      exact stands.2 k op (Nat.lt_of_succ_le (by simpa [phase,CallState.isIdle] using behind))

theorem Serialized.step (serialized : Serialized answer init s order) (move : Move κ Op)
    (taken : s.step answer move = some t) : ∃ order, Serialized answer init t order := by
  cases move with
  | invoke c op =>
    cases phase : s.phase c with
    | idle =>
      simp only [Atomic.step,phase,Option.some.injEq] at taken
      subst taken
      exact ⟨order,serialized.invoke c op phase⟩
    | called op' => simp [Atomic.step,phase] at taken
    | committed op' result => simp [Atomic.step,phase] at taken
  | commit c =>
    cases phase : s.phase c with
    | called op =>
      simp only [Atomic.step,phase,Option.some.injEq] at taken
      subst taken
      exact ⟨_,serialized.commit c op phase⟩
    | idle => simp [Atomic.step,phase] at taken
    | committed op' result => simp [Atomic.step,phase] at taken
  | respond c =>
    cases phase : s.phase c with
    | committed op result =>
      simp only [Atomic.step,phase,Option.some.injEq] at taken
      subst taken
      exact ⟨order,serialized.respond c op result phase⟩
    | idle => simp [Atomic.step,phase] at taken
    | called op' => simp [Atomic.step,phase] at taken
  | crash =>
    cases taken
    exact ⟨order,serialized.crash⟩

/-- A call that takes effect just before the callers are lost. -/
theorem run_commit_crash (answer : State → Op → Result × State) (s : Atomic κ Op Result State) (c : κ)
    (op : Op) (called : s.phase c = .called op) :
    Machine.run (step answer) s [.commit c,.crash] = some ⟨(answer s.state op).2,fun _ => .idle,
      fun d => if (s.phase d).isIdle then s.count d else s.count d + 1,s.history⟩ := by
  have busy (d : κ) : (Function.update s.phase c (.committed op (answer s.state op).1) d).isIdle =
      (s.phase d).isIdle := by
    by_cases same : d = c
    · simp [same,called,CallState.isIdle]
    · rw [Function.update_of_ne same]
  simp [Machine.run,step,called,busy]

/-- Calls that take effect in one step are linearizable, in the order of these steps. -/
theorem linearizable_of_run (init : State) (moves : List (Move κ Op))
    (ran : Machine.run (step answer) (start init) moves = some t) :
    Linearizable answer init t.history := by
  obtain ⟨order,serialized⟩ := Machine.invariant_of_run (step answer) (fun _ => True)
    (fun t => ∃ order, Serialized answer init t order)
    (fun s move t ⟨_,serialized⟩ _ taken => serialized.step move taken)
    (start init) t moves ⟨[],serialized_start init⟩ (fun _ _ => trivial) ran
  exact ⟨order,serialized.linear⟩

/-- Simulation. A system is linearizable if each of its steps is some moves of the object. -/
theorem linearizable_of_simulation {σ ℓ : Type} (sys : σ → ℓ → Option σ)
    (history : σ → List (Event (κ × Nat) Op Result)) (guard : σ → ℓ → Prop) (admitted : ℓ → Prop)
    (related : σ → Atomic κ Op Result State → Prop)
    (seen : ∀ s a, related s a → history s = a.history)
    (simulates : ∀ s a l s', related s a → admitted l → guard s l → sys s l = some s' →
      ∃ moves a', Machine.run (step answer) a moves = some a' ∧ related s' a')
    (init : State) (s t : σ) (ls : List ℓ) (begins : related s (start init))
    (labels : ∀ l ∈ ls, admitted l) (guarded : Machine.Guarded sys guard s ls)
    (ran : Machine.run sys s ls = some t) : Linearizable answer init (history t) := by
  obtain ⟨moves,a,made,ends⟩ := Machine.invariant_of_guarded sys guard admitted
    (fun s => ∃ moves a, Machine.run (step answer) (start init) moves = some a ∧ related s a)
    (by
      rintro s l s' ⟨moves,a,made,rel⟩ label inside taken
      obtain ⟨more,a',later,rel'⟩ := simulates s a l s' rel label inside taken
      exact ⟨moves ++ more,a',Machine.run_append (step answer) _ a a' moves more made later,rel'⟩)
    s t ls ⟨[],start init,rfl,begins⟩ labels guarded ran
  rw [seen t a ends]
  exact linearizable_of_run init moves made

end Atomic
end KvCache.Linearizability
