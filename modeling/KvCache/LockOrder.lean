import Mathlib.Data.Fintype.Basic
import Mathlib.Data.Finset.Max
import KvCache.Machine

/-! Threads that hold locks in scopes. A scope takes its lock where it is entered and gives
it back where it is left, by its end or by an exception. Locks are shared or exclusive. When
every scope asks for a lock that ranks above those around it, some thread can always go on. -/
namespace KvCache.LockOrder

inductive Mode where
  | shared
  | exclusive
  deriving DecidableEq, Repr

def Mode.conflicts : Mode → Mode → Bool
  | .shared, .shared => false
  | _, _ => true

theorem Mode.conflicts_comm (a b : Mode) : a.conflicts b = b.conflicts a := by
  cases a <;> cases b <;> rfl

/-- Code, as far as its locks go. -/
inductive Code (L : Type) where
  /-- Anything that takes no lock; it may throw. -/
  | work
  | seq (first second : Code L)
  /-- A branch whose condition is left open. -/
  | choice (left right : Code L)
  /-- A loop whose condition is left open. -/
  | loop (body : Code L)
  | scope (lock : L) (mode : Mode) (body : Code L)
  /-- An exception of the body ends here. -/
  | attempt (body : Code L)
  deriving DecidableEq, Repr

namespace Code

variable {L : Type}

def anyOf : List (Code L) → Code L
  | [] => .work
  | c :: cs => .choice c (anyOf cs)

/-- The codes one after the other, each with its exceptions caught. -/
def inTurn : List (Code L) → Code L
  | [] => .work
  | c :: cs => .seq (.attempt c) (inTurn cs)

end Code

/-- What is left to do on a thread's stack. -/
inductive Frame (L : Type) where
  | code (c : Code L)
  | guard (lock : L) (mode : Mode)
  | handler
  deriving DecidableEq, Repr

structure Thread (L : Type) where
  /-- An exception is on its way to its handler. -/
  unwinding : Bool
  stack : List (Frame L)
  deriving DecidableEq, Repr

namespace Thread

variable {L : Type}

def start (c : Code L) : Thread L := ⟨false,[.code c]⟩

def Finished (t : Thread L) : Prop := t.stack = []

instance [DecidableEq L] (t : Thread L) : Decidable t.Finished :=
  inferInstanceAs (Decidable (t.stack = []))

def wants (t : Thread L) : Option (L × Mode) :=
  match t.unwinding, t.stack with
  | false, .code (.scope lock mode _) :: _ => some (lock,mode)
  | _, _ => none

/-- The step of the thread itself; `pick` decides what the code leaves open. -/
def advance (t : Thread L) (pick : Bool) : Option (Thread L) :=
  match t.unwinding, t.stack with
  | _, [] => none
  | false, .code .work :: rest => some ⟨pick,rest⟩
  | false, .code (.seq first second) :: rest => some ⟨false,.code first :: .code second :: rest⟩
  | false, .code (.choice left right) :: rest =>
    some ⟨false,.code (if pick then left else right) :: rest⟩
  | false, .code (.loop body) :: rest =>
    some ⟨false,if pick then .code body :: .code (.loop body) :: rest else rest⟩
  | false, .code (.scope lock mode body) :: rest =>
    some ⟨false,.code body :: .guard lock mode :: rest⟩
  | false, .code (.attempt body) :: rest => some ⟨false,.code body :: .handler :: rest⟩
  | false, .guard _ _ :: rest => some ⟨false,rest⟩
  | false, .handler :: rest => some ⟨false,rest⟩
  | true, .code _ :: rest => some ⟨true,rest⟩
  | true, .guard _ _ :: rest => some ⟨true,rest⟩
  | true, .handler :: rest => some ⟨false,rest⟩

theorem advance_unfinished (t : Thread L) (pick : Bool) (unfinished : ¬t.Finished) :
    ∃ t', t.advance pick = some t' := by
  obtain ⟨unwinding,stack⟩ := t
  cases stack with
  | nil => exact absurd rfl unfinished
  | cons frame rest =>
    cases unwinding <;> cases frame with
    | code c => cases c <;> exact ⟨_,rfl⟩
    | guard _ _ | handler => exact ⟨_,rfl⟩

theorem unfinished_of_wants (t : Thread L) (request : L × Mode) (wants : t.wants = some request) :
    ¬t.Finished := by
  obtain ⟨unwinding,stack⟩ := t
  rintro rfl
  cases unwinding <;> cases wants

theorem advance_unwinding (frame : Frame L) (rest : List (Frame L)) (t' : Thread L) (pick : Bool)
    (taken : advance ⟨true,frame :: rest⟩ pick = some t') : t'.stack = rest := by
  cases frame with
  | code c => cases c <;> (cases taken; rfl)
  | guard _ _ | handler => cases taken; rfl

theorem advance_guards (t t' : Thread L) (pick : Bool) (taken : t.advance pick = some t')
    (lock : L) (mode : Mode) (held : .guard lock mode ∈ t'.stack) :
    .guard lock mode ∈ t.stack ∨ t.wants = some (lock,mode) := by
  obtain ⟨unwinding,stack⟩ := t
  cases stack with
  | nil => cases unwinding <;> cases taken
  | cons frame rest =>
    cases unwinding with
    | true =>
      rw [advance_unwinding frame rest t' pick taken] at held
      exact .inl (List.mem_cons_of_mem _ held)
    | false =>
      cases frame with
      | guard _ _ | handler =>
        cases taken
        exact .inl (List.mem_cons_of_mem _ held)
      | code c =>
        cases c with
        | scope taking takingMode _ =>
          cases taken
          simp only [List.mem_cons,reduceCtorEq,Frame.guard.injEq,false_or] at held
          rcases held with ⟨rfl,rfl⟩ | below
          · exact .inr rfl
          · exact .inl (List.mem_cons_of_mem _ below)
        | work | seq | choice | loop | attempt =>
          cases taken
          cases pick <;> simp_all

end Thread

section Rank

variable {L : Type} (rank : L → Nat)

/-- The code takes locks of the least rank or above, and in a scope only locks of a rank
above that of the scope. -/
def Code.Ordered : Nat → Code L → Prop
  | _, .work => True
  | least, .seq first second => first.Ordered least ∧ second.Ordered least
  | least, .choice left right => left.Ordered least ∧ right.Ordered least
  | least, .loop body => body.Ordered least
  | least, .scope lock _ body => least ≤ rank lock ∧ body.Ordered (rank lock + 1)
  | least, .attempt body => body.Ordered least

theorem Code.anyOf_ordered (least : Nat) (cs : List (Code L))
    (ordered : ∀ c ∈ cs, c.Ordered rank least) : (anyOf cs).Ordered rank least := by
  induction cs with
  | nil => trivial
  | cons c cs ih =>
    exact ⟨ordered c List.mem_cons_self,ih fun x member => ordered x (List.mem_cons_of_mem c member)⟩

theorem Code.inTurn_ordered (least : Nat) (cs : List (Code L))
    (ordered : ∀ c ∈ cs, c.Ordered rank least) : (inTurn cs).Ordered rank least := by
  induction cs with
  | nil => trivial
  | cons c cs ih =>
    exact ⟨ordered c List.mem_cons_self,ih fun x member => ordered x (List.mem_cons_of_mem c member)⟩

/-- The least rank a lock may have that is taken on top of the stack. -/
def floor : List (Frame L) → Nat
  | [] => 0
  | .guard lock _ :: _ => rank lock + 1
  | .code _ :: rest => floor rest
  | .handler :: rest => floor rest

def OrderedStack : List (Frame L) → Prop
  | [] => True
  | .code c :: rest => c.Ordered rank (floor rank rest) ∧ OrderedStack rest
  | .guard lock _ :: rest => floor rank rest ≤ rank lock ∧ OrderedStack rest
  | .handler :: rest => OrderedStack rest

theorem guard_below_floor (stack : List (Frame L)) (ordered : OrderedStack rank stack)
    (lock : L) (mode : Mode) (held : .guard lock mode ∈ stack) : rank lock < floor rank stack := by
  induction stack with
  | nil => cases held
  | cons frame rest ih =>
    cases frame with
    | code c => exact ih ordered.2 (by simpa using held)
    | handler => exact ih ordered (by simpa using held)
    | guard top _ =>
      rcases List.mem_cons.mp held with same | below
      · cases same
        exact Nat.lt_succ_self _
      · exact Nat.lt_succ_of_lt (Nat.lt_of_lt_of_le (ih ordered.2 below) ordered.1)

/-- The lock a thread asks for ranks above all it holds. -/
theorem wants_above (t : Thread L) (ordered : OrderedStack rank t.stack) (lock held : L)
    (mode heldMode : Mode) (wants : t.wants = some (lock,mode))
    (holds : .guard held heldMode ∈ t.stack) : rank held < rank lock := by
  obtain ⟨unwinding,stack⟩ := t
  simp only [Thread.wants] at wants
  split at wants
  · cases wants
    simp only [OrderedStack,Code.Ordered] at ordered
    have below := guard_below_floor rank _ ordered.2 held heldMode (by simpa using holds)
    exact Nat.lt_of_lt_of_le below ordered.1.1
  · cases wants

theorem OrderedStack.tail (frame : Frame L) (rest : List (Frame L))
    (ordered : OrderedStack rank (frame :: rest)) : OrderedStack rank rest := by
  cases frame with
  | code | guard => exact ordered.2
  | handler => exact ordered

theorem advance_ordered (t t' : Thread L) (pick : Bool) (ordered : OrderedStack rank t.stack)
    (taken : t.advance pick = some t') : OrderedStack rank t'.stack := by
  obtain ⟨unwinding,stack⟩ := t
  cases stack with
  | nil => cases unwinding <;> cases taken
  | cons frame rest =>
    have below : OrderedStack rank rest := OrderedStack.tail rank frame rest ordered
    cases unwinding with
    | true =>
      rw [Thread.advance_unwinding frame rest t' pick taken]
      exact below
    | false =>
      cases frame with
      | guard | handler =>
        cases taken
        exact below
      | code c =>
        have top : c.Ordered rank (floor rank rest) := ordered.1
        cases c <;> cases taken <;> cases pick <;>
          simp_all [OrderedStack,Code.Ordered,floor]

def wantedRank (t : Thread L) : Nat := (t.wants.map fun w => rank w.1).getD 0

theorem start_ordered (c : Code L) (ordered : c.Ordered rank 0) :
    OrderedStack rank (Thread.start c).stack :=
  ⟨ordered,trivial⟩

end Rank

/-- The frame keeps the lock from being taken in the given mode. -/
def Frame.blocks {L : Type} [DecidableEq L] (lock : L) (mode : Mode) : Frame L → Bool
  | .guard held heldMode => decide (held = lock) && heldMode.conflicts mode
  | .code _ | .handler => false

section System

variable {L τ : Type} [DecidableEq L] [Fintype τ] [DecidableEq τ]

/-- No guard on any stack, that of the asking thread included, is in the way. With
`writersFirst` a lock is not shared while a thread asks for it exclusively. -/
def Granted (writersFirst : Bool) (s : τ → Thread L) (lock : L) (mode : Mode) : Prop :=
  (∀ i, ∀ frame ∈ (s i).stack, frame.blocks lock mode = false) ∧
    (writersFirst = true → mode = .shared → ∀ i, (s i).wants ≠ some (lock,.exclusive))

instance (writersFirst : Bool) (s : τ → Thread L) (lock : L) (mode : Mode) :
    Decidable (Granted writersFirst s lock mode) :=
  inferInstanceAs (Decidable (_ ∧ _))

def step (writersFirst : Bool) (s : τ → Thread L) (label : τ × Bool) : Option (τ → Thread L) :=
  let next := ((s label.1).advance label.2).map (Function.update s label.1)
  match (s label.1).wants with
  | none => next
  | some (lock,mode) => if Granted writersFirst s lock mode then next else none

theorem step_cases (writersFirst : Bool) (s s' : τ → Thread L) (i : τ) (pick : Bool)
    (taken : step writersFirst s (i,pick) = some s') :
    ∃ t, (s i).advance pick = some t ∧ s' = Function.update s i t ∧
      ∀ lock mode, (s i).wants = some (lock,mode) → Granted writersFirst s lock mode := by
  cases wants : (s i).wants with
  | none =>
    simp only [step,wants,Option.map_eq_some_iff] at taken
    obtain ⟨t,advanced,rfl⟩ := taken
    exact ⟨t,advanced,rfl,fun _ _ wanted => by cases wanted⟩
  | some request =>
    simp only [step,wants,Option.ite_none_right_eq_some,Option.map_eq_some_iff] at taken
    obtain ⟨granted,t,advanced,rfl⟩ := taken
    refine ⟨t,advanced,rfl,fun lock mode wanted => ?_⟩
    cases wanted
    exact granted

theorem refused_of_stuck (writersFirst : Bool) (s : τ → Thread L) (i : τ)
    (unfinished : ¬(s i).Finished) (stuck : ∀ label, step writersFirst s label = none) :
    ∃ lock mode, (s i).wants = some (lock,mode) ∧ ¬Granted writersFirst s lock mode := by
  obtain ⟨t,advanced⟩ := (s i).advance_unfinished true unfinished
  have still := stuck (i,true)
  cases wants : (s i).wants with
  | none => simp [step,wants,advanced] at still
  | some request =>
    refine ⟨request.1,request.2,rfl,fun granted => ?_⟩
    simp [step,wants,granted,advanced] at still

theorem guard_of_refused (writersFirst : Bool) (s : τ → Thread L) (lock : L) (mode : Mode)
    (stuck : ∀ label, step writersFirst s label = none)
    (refused : ¬Granted writersFirst s lock mode) :
    ∃ i held, .guard lock held ∈ (s i).stack := by
  have of_frame (mode : Mode)
      (taken : ¬∀ i, ∀ frame ∈ (s i).stack, frame.blocks lock mode = false) :
      ∃ i held, .guard lock held ∈ (s i).stack := by
    simp only [not_forall,Bool.not_eq_false] at taken
    obtain ⟨i,frame,member,blocks⟩ := taken
    cases frame with
    | code | handler => cases blocks
    | guard other held =>
      simp only [Frame.blocks,Bool.and_eq_true,decide_eq_true_eq] at blocks
      exact ⟨i,held,blocks.1 ▸ member⟩
  by_cases taken : ∀ i, ∀ frame ∈ (s i).stack, frame.blocks lock mode = false
  · -- refused for a writer, which is refused itself, and not for another writer
    obtain ⟨writer,wants⟩ : ∃ i, (s i).wants = some (lock,.exclusive) := by
      by_contra none
      exact refused ⟨taken,fun _ _ i wants => none ⟨i,wants⟩⟩
    obtain ⟨_,_,same,refused⟩ := refused_of_stuck writersFirst s writer
      ((s writer).unfinished_of_wants _ wants) stuck
    cases wants.symm.trans same
    exact of_frame .exclusive fun free => refused ⟨free,fun _ shared => by cases shared⟩
  · exact of_frame mode taken

/-- Progress. Where every stack is ordered, a state in which some thread has not finished
has a thread that can step. -/
theorem progress (writersFirst : Bool) (rank : L → Nat) (s : τ → Thread L)
    (ordered : ∀ i, OrderedStack rank (s i).stack) (i : τ) (unfinished : ¬(s i).Finished) :
    ∃ label s', step writersFirst s label = some s' := by
  by_contra none
  have stuck (label : τ × Bool) : step writersFirst s label = .none :=
    Option.eq_none_iff_forall_ne_some.mpr fun s' taken => none ⟨label,s',taken⟩
  -- of the threads that wait, one waits for a lock of the highest rank
  have waiting : (Finset.univ.filter fun i => (s i).wants.isSome = true).Nonempty := by
    obtain ⟨lock,mode,wants,_⟩ := refused_of_stuck writersFirst s i unfinished stuck
    exact ⟨i,by simp [wants]⟩
  obtain ⟨highest,member,most⟩ := Finset.exists_max_image _ (fun i => wantedRank rank (s i)) waiting
  have unfinished : ¬(s highest).Finished := by
    simp only [Finset.mem_filter,Finset.mem_univ,true_and] at member
    obtain ⟨request,wants⟩ := Option.isSome_iff_exists.mp member
    exact (s highest).unfinished_of_wants request wants
  obtain ⟨lock,mode,wants,refused⟩ := refused_of_stuck writersFirst s highest unfinished stuck
  -- its holder waits for a lock of a higher rank still
  obtain ⟨holder,held,guard⟩ := guard_of_refused writersFirst s lock mode stuck refused
  have holding : ¬(s holder).Finished := fun finished => by
    rw [Thread.Finished] at finished
    rw [finished] at guard
    cases guard
  obtain ⟨next,nextMode,wantsNext,_⟩ := refused_of_stuck writersFirst s holder holding stuck
  have above := wants_above rank (s holder) (ordered holder) next lock nextMode held wantsNext guard
  have atMost := most holder (by simp [wantsNext])
  simp only [wantedRank,wants,wantsNext,Option.map_some,Option.getD_some] at atMost
  omega

theorem step_ordered (writersFirst : Bool) (rank : L → Nat) (s s' : τ → Thread L)
    (label : τ × Bool) (ordered : ∀ i, OrderedStack rank (s i).stack)
    (taken : step writersFirst s label = some s') : ∀ i, OrderedStack rank (s' i).stack := by
  obtain ⟨t,advanced,rfl,_⟩ := step_cases writersFirst s s' label.1 label.2 taken
  intro i
  by_cases same : i = label.1
  · subst same
    rw [Function.update_self]
    exact advance_ordered rank (s label.1) t label.2 (ordered label.1) advanced
  · rw [Function.update_of_ne same]
    exact ordered i

theorem run_invariant (writersFirst : Bool) (invariant : (τ → Thread L) → Prop)
    (kept : ∀ s label s', invariant s → step writersFirst s label = some s' → invariant s')
    (labels : List (τ × Bool)) (s s' : τ → Thread L) (start : invariant s)
    (ran : Machine.run (step writersFirst) s labels = some s') : invariant s' :=
  Machine.invariant_of_run (step writersFirst) (fun _ => True) invariant
    (fun s label s' before _ taken => kept s label s' before taken) s s' labels start
    (fun _ _ => trivial) ran

/-- Progress of ordered code. However the threads interleave, some thread can step until
all have finished. -/
theorem run_progress (writersFirst : Bool) (rank : L → Nat) (code : τ → Code L)
    (ordered : ∀ i, (code i).Ordered rank 0) (labels : List (τ × Bool)) (s : τ → Thread L)
    (ran : Machine.run (step writersFirst) (fun i => Thread.start (code i)) labels = some s)
    (i : τ) (unfinished : ¬(s i).Finished) : ∃ label s', step writersFirst s label = some s' := by
  have kept : ∀ i, OrderedStack rank (s i).stack :=
    run_invariant writersFirst (fun s => ∀ i, OrderedStack rank (s i).stack)
      (fun s label s' before taken => step_ordered writersFirst rank s s' label before taken)
      labels _ s (fun i => start_ordered rank (code i) (ordered i)) ran
  exact progress writersFirst rank s kept i unfinished

/-- No two threads hold one lock in modes that conflict. -/
def Exclusive (s : τ → Thread L) : Prop :=
  ∀ i j, i ≠ j → ∀ lock mode other, .guard lock mode ∈ (s i).stack →
    .guard lock other ∈ (s j).stack → mode.conflicts other = false

theorem step_exclusive (writersFirst : Bool) (s s' : τ → Thread L) (label : τ × Bool)
    (exclusive : Exclusive s) (taken : step writersFirst s label = some s') : Exclusive s' := by
  obtain ⟨t,advanced,rfl,granted⟩ := step_cases writersFirst s s' label.1 label.2 taken
  -- a guard of the stepping thread is an old one, or its lock has just been granted
  have against (j : τ) (different : j ≠ label.1) (lock : L) (mode other : Mode)
      (mine : .guard lock mode ∈ t.stack) (theirs : .guard lock other ∈ (s j).stack) :
      other.conflicts mode = false := by
    rcases Thread.advance_guards _ t label.2 advanced lock mode mine with old | wants
    · exact exclusive j label.1 different lock other mode theirs old
    · simpa [Frame.blocks] using (granted lock mode wants).1 j _ theirs
  intro i j different lock mode other first second
  by_cases mine : i = label.1
  · subst mine
    rw [Function.update_self] at first
    rw [Function.update_of_ne (Ne.symm different)] at second
    rw [Mode.conflicts_comm]
    exact against j (Ne.symm different) lock mode other first second
  · rw [Function.update_of_ne mine] at first
    by_cases theirs : j = label.1
    · subst theirs
      rw [Function.update_self] at second
      exact against i mine lock other mode second first
    · rw [Function.update_of_ne theirs] at second
      exact exclusive i j different lock mode other first second

theorem run_exclusive (writersFirst : Bool) (code : τ → Code L) (labels : List (τ × Bool))
    (s : τ → Thread L)
    (ran : Machine.run (step writersFirst) (fun i => Thread.start (code i)) labels = some s) :
    Exclusive s := by
  refine run_invariant writersFirst Exclusive (fun s label s' exclusive taken =>
    step_exclusive writersFirst s s' label exclusive taken) labels _ s ?_ ran
  intro i j _ lock mode other first
  simp [Thread.start] at first

end System

end KvCache.LockOrder
