import Mathlib.Algebra.BigOperators.Group.Finset.Piecewise
import Mathlib.Data.Fintype.BigOperators
import KvCache.Machine

/-! The thread pool between its users, its workers and its destructor. The destructor clears
`running_` without the lock, and each worker asks for it at two places with two conditions: to
stay in its loop, and to give up the wait for a task. -/
namespace KvCache

/-- Where a worker stands in its loop. -/
inductive WorkerPos where
  | testing
  | locking
  /-- With the lock, in front of the predicate. -/
  | checking
  /-- With the lock: the predicate was false, and the wait has not begun. -/
  | blocking
  /-- On the condition variable, with no notification. -/
  | blocked
  /-- Notified, and without the lock. -/
  | waking
  /-- With the lock: the predicate was true. -/
  | deciding
  | working (task : Nat)
  | returned
  deriving DecidableEq, Repr

namespace WorkerPos

def holds : WorkerPos → Bool
  | checking | blocking | deciding => true
  | _ => false

/-- Past the test of the loop, and no task taken yet. -/
def inside : WorkerPos → Bool
  | locking | checking | blocking | blocked | waking | deciding => true
  | testing | working _ | returned => false

def task : WorkerPos → Multiset Nat
  | working task => {task}
  | _ => 0

end WorkerPos

/-- Where the destructor stands; `joining k` has seen `k` workers return. -/
inductive DestructorPos where
  | unstarted
  | cleared
  | joining (joined : Nat)
  deriving DecidableEq, Repr

/-- A task is known by the number of its `Submit`. -/
structure ThreadPool (n : Nat) where
  running : Bool
  mutex : Option (Fin n)
  tasks : List Nat
  workers : Fin n → WorkerPos
  destructor : DestructorPos
  submitted : Nat
  /-- The `Submit`s that have released the lock and not called `notify_one`. -/
  notices : Nat
  executed : List Nat
  deriving DecidableEq

/-- The section of `Submit` under the lock, its `notify_one` with the worker that is woken, the
next step of a worker, or the next step of the destructor. -/
inductive Turn (n : Nat) where
  | submit
  | notifyOne (woken : Option (Fin n))
  | worker (i : Fin n)
  | destroy
  deriving DecidableEq, Repr

namespace ThreadPool

variable {n : Nat}

def start (n : Nat) : ThreadPool n := ⟨true,none,[],fun _ => .testing,.unstarted,0,0,[]⟩

def place (s : ThreadPool n) (i : Fin n) (position : WorkerPos) : ThreadPool n :=
  { s with workers := Function.update s.workers i position }

def submit (s : ThreadPool n) : Option (ThreadPool n) :=
  if s.destructor = .unstarted ∧ s.mutex = none ∧ s.running then
    some { s with tasks := s.tasks ++ [s.submitted], submitted := s.submitted + 1,
                  notices := s.notices + 1 }
  else none

def notifyOne (s : ThreadPool n) (woken : Option (Fin n)) : Option (ThreadPool n) :=
  if s.notices = 0 then none
  else match woken with
    | none =>
      if ∀ i, s.workers i ≠ .blocked then some { s with notices := s.notices - 1 } else none
    | some i =>
      if s.workers i = .blocked then some { s.place i .waking with notices := s.notices - 1 }
      else none

def notified : WorkerPos → WorkerPos
  | .blocked => .waking
  | position => position

def stepWorker (s : ThreadPool n) (i : Fin n) : Option (ThreadPool n) :=
  match s.workers i with
  | .testing => some (s.place i (if s.running then .locking else .returned))
  | .locking | .waking =>
    if s.mutex = none then some { s.place i .checking with mutex := some i } else none
  | .checking =>
    some (s.place i (if s.tasks ≠ [] ∨ s.running = false then .deciding else .blocking))
  | .blocking => some { s.place i .blocked with mutex := none }
  | .blocked => none
  | .deciding =>
    if s.running = false ∧ s.tasks = [] then some { s.place i .returned with mutex := none }
    else match s.tasks with
      -- the front of an empty queue
      | [] => none
      | task :: rest => some { s.place i (.working task) with mutex := none, tasks := rest }
  | .working task => some { s.place i .testing with executed := s.executed ++ [task] }
  | .returned => none

/-- Every `Submit` has returned when the destructor starts. -/
def stepDestructor (s : ThreadPool n) : Option (ThreadPool n) :=
  match s.destructor with
  | .unstarted =>
    if s.notices = 0 then some { s with running := false, destructor := .cleared } else none
  | .cleared =>
    some { s with workers := fun i => notified (s.workers i), destructor := .joining 0 }
  | .joining k =>
    if inRange : k < n then
      if s.workers ⟨k,inRange⟩ = .returned then some { s with destructor := .joining (k + 1) }
      else none
    else none

def step (s : ThreadPool n) : Turn n → Option (ThreadPool n)
  | .submit => s.submit
  | .notifyOne woken => s.notifyOne woken
  | .worker i => s.stepWorker i
  | .destroy => s.stepDestructor

inductive Worked (s : ThreadPool n) (i : Fin n) : ThreadPool n → Prop
  | enters : s.workers i = .testing → s.running = true → Worked s i (s.place i .locking)
  | leaves : s.workers i = .testing → s.running = false → Worked s i (s.place i .returned)
  | locks : s.workers i = .locking ∨ s.workers i = .waking → s.mutex = none →
      Worked s i { s.place i .checking with mutex := some i }
  | finds : s.workers i = .checking → s.tasks ≠ [] ∨ s.running = false →
      Worked s i (s.place i .deciding)
  | misses : s.workers i = .checking → s.tasks = [] → s.running = true →
      Worked s i (s.place i .blocking)
  | blocks : s.workers i = .blocking → Worked s i { s.place i .blocked with mutex := none }
  | stops : s.workers i = .deciding → s.running = false → s.tasks = [] →
      Worked s i { s.place i .returned with mutex := none }
  | pops (task : Nat) (rest : List Nat) : s.workers i = .deciding → s.tasks = task :: rest →
      Worked s i { s.place i (.working task) with mutex := none, tasks := rest }
  | finishes (task : Nat) : s.workers i = .working task →
      Worked s i { s.place i .testing with executed := s.executed ++ [task] }

theorem worked_of_step (s t : ThreadPool n) (i : Fin n) (taken : s.stepWorker i = some t) :
    Worked s i t := by
  unfold stepWorker at taken
  cases position : s.workers i with
  | testing =>
    simp only [position,Option.some.injEq] at taken
    subst taken
    cases running : s.running with
    | true => exact .enters position running
    | false => exact .leaves position running
  | locking =>
    simp only [position,Option.ite_none_right_eq_some,Option.some.injEq] at taken
    obtain ⟨free,rfl⟩ := taken
    exact .locks (.inl position) free
  | waking =>
    simp only [position,Option.ite_none_right_eq_some,Option.some.injEq] at taken
    obtain ⟨free,rfl⟩ := taken
    exact .locks (.inr position) free
  | checking =>
    simp only [position,Option.some.injEq] at taken
    subst taken
    by_cases ready : s.tasks ≠ [] ∨ s.running = false
    · rw [if_pos ready]
      exact .finds position ready
    · rw [if_neg ready]
      obtain ⟨empty,running⟩ := not_or.mp ready
      exact .misses position (not_not.mp empty) (Bool.eq_true_of_not_eq_false running)
  | blocking =>
    simp only [position,Option.some.injEq] at taken
    subst taken
    exact .blocks position
  | deciding =>
    simp only [position] at taken
    by_cases ended : s.running = false ∧ s.tasks = []
    · rw [if_pos ended,Option.some.injEq] at taken
      subst taken
      exact .stops position ended.1 ended.2
    · rw [if_neg ended] at taken
      cases tasks : s.tasks with
      | nil => simp [tasks] at taken
      | cons task rest =>
        simp only [tasks,Option.some.injEq] at taken
        subst taken
        exact .pops task rest position tasks
  | working task =>
    simp only [position,Option.some.injEq] at taken
    subst taken
    exact .finishes task position
  | blocked | returned => simp [position] at taken

theorem Worked.frame {s t : ThreadPool n} {i : Fin n} (worked : Worked s i t) :
    t.running = s.running ∧ t.destructor = s.destructor ∧ t.notices = s.notices ∧
      ∀ j, j ≠ i → t.workers j = s.workers j := by
  cases worked <;>
    exact ⟨rfl,rfl,rfl,fun j other => Function.update_of_ne other _ _⟩

theorem Worked.unreturned {s t : ThreadPool n} {i : Fin n} (worked : Worked s i t) :
    s.workers i ≠ .returned := by
  intro returned
  cases worked <;> simp_all

inductive Took (s : ThreadPool n) : Turn n → ThreadPool n → Prop
  | submits : s.destructor = .unstarted → s.mutex = none → s.running = true →
      Took s .submit { s with tasks := s.tasks ++ [s.submitted], submitted := s.submitted + 1,
                              notices := s.notices + 1 }
  | wakesNone : (∀ i, s.workers i ≠ .blocked) →
      Took s (.notifyOne none) { s with notices := s.notices - 1 }
  | wakes (i : Fin n) : s.notices ≠ 0 → s.workers i = .blocked →
      Took s (.notifyOne (some i)) { s.place i .waking with notices := s.notices - 1 }
  | works (i : Fin n) (t : ThreadPool n) : Worked s i t → Took s (.worker i) t
  | clears : s.destructor = .unstarted → s.notices = 0 →
      Took s .destroy { s with running := false, destructor := .cleared }
  | wakesAll : s.destructor = .cleared →
      Took s .destroy
        { s with workers := fun i => notified (s.workers i), destructor := .joining 0 }
  | joins (i : Fin n) : s.destructor = .joining i → s.workers i = .returned →
      Took s .destroy { s with destructor := .joining (i + 1) }

theorem took_of_step (s t : ThreadPool n) (turn : Turn n) (taken : s.step turn = some t) :
    Took s turn t := by
  cases turn with
  | submit =>
    simp only [step,submit,Option.ite_none_right_eq_some,Option.some.injEq] at taken
    obtain ⟨⟨unstarted,free,running⟩,rfl⟩ := taken
    exact .submits unstarted free running
  | notifyOne woken =>
    simp only [step,notifyOne,Option.ite_none_left_eq_some] at taken
    obtain ⟨noticed,taken⟩ := taken
    cases woken with
    | none =>
      simp only [Option.ite_none_right_eq_some,Option.some.injEq] at taken
      obtain ⟨none,rfl⟩ := taken
      exact .wakesNone none
    | some i =>
      simp only [Option.ite_none_right_eq_some,Option.some.injEq] at taken
      obtain ⟨blocked,rfl⟩ := taken
      exact .wakes i noticed blocked
  | worker i => exact .works i t (worked_of_step s t i taken)
  | destroy =>
    simp only [step,stepDestructor] at taken
    cases position : s.destructor with
    | unstarted =>
      simp only [position,Option.ite_none_right_eq_some,Option.some.injEq] at taken
      obtain ⟨returned,rfl⟩ := taken
      exact .clears position returned
    | cleared =>
      simp only [position,Option.some.injEq] at taken
      subst taken
      exact .wakesAll position
    | joining k =>
      simp only [position,Option.dite_none_right_eq_some,Option.ite_none_right_eq_some,
        Option.some.injEq] at taken
      obtain ⟨inRange,returned,rfl⟩ := taken
      exact .joins ⟨k,inRange⟩ position returned

theorem sum_place {M : Type} [AddCommMonoid M] (f : WorkerPos → M) (s : ThreadPool n) (i : Fin n)
    (position : WorkerPos) :
    (∑ j, f ((s.place i position).workers j)) + f (s.workers i) =
      (∑ j, f (s.workers j)) + f position := by
  have moved : (fun j => f ((s.place i position).workers j)) =
      Function.update (fun j => f (s.workers j)) i (f position) :=
    (Function.comp_update f s.workers i position)
  rw [moved,Finset.sum_update_of_mem (Finset.mem_univ i),
    Finset.sum_eq_add_sum_sdiff_singleton_of_mem (Finset.mem_univ i) fun j => f (s.workers j)]
  ac_rfl

/-- Every task submitted is executed, at a worker or queued, and once. -/
def Accounted (s : ThreadPool n) : Prop :=
  (s.executed : Multiset Nat) + (∑ i, (s.workers i).task) + (s.tasks : Multiset Nat) =
    Multiset.range s.submitted

theorem start_accounted : (start n).Accounted := by
  simp [Accounted,start,WorkerPos.task]

theorem Accounted.place {s t : ThreadPool n} (accounted : s.Accounted) (i : Fin n)
    (position : WorkerPos) (workers : t.workers = (s.place i position).workers)
    (submitted : t.submitted = s.submitted)
    (same : (t.executed : Multiset Nat) + position.task + (t.tasks : Multiset Nat) =
      (s.executed : Multiset Nat) + (s.workers i).task + (s.tasks : Multiset Nat)) :
    t.Accounted := by
  have moved := sum_place WorkerPos.task s i position
  unfold Accounted at accounted ⊢
  rw [workers,submitted]
  refine add_right_cancel (b := (s.workers i).task) ?_
  calc (t.executed : Multiset Nat) + (∑ j, ((s.place i position).workers j).task) +
        (t.tasks : Multiset Nat) + (s.workers i).task
      = (t.executed : Multiset Nat) + ((∑ j, ((s.place i position).workers j).task) +
          (s.workers i).task) + (t.tasks : Multiset Nat) := by ac_rfl
    _ = ((t.executed : Multiset Nat) + position.task + (t.tasks : Multiset Nat)) +
          ∑ j, (s.workers j).task := by rw [moved]; ac_rfl
    _ = ((s.executed : Multiset Nat) + (∑ j, (s.workers j).task) + (s.tasks : Multiset Nat)) +
          (s.workers i).task := by rw [same]; ac_rfl
    _ = Multiset.range s.submitted + (s.workers i).task := by rw [accounted]

theorem Accounted.worked {s t : ThreadPool n} (accounted : s.Accounted) (i : Fin n)
    (worked : Worked s i t) : t.Accounted := by
  cases worked with
  | enters position | leaves position | finds position | misses position | blocks position
  | stops position =>
    exact accounted.place i _ rfl rfl (by rw [position]; rfl)
  | locks position =>
    refine accounted.place i .checking rfl rfl ?_
    rcases position with position | position <;> rw [position] <;> rfl
  | pops task rest position queue =>
    refine accounted.place i (.working task) rfl rfl ?_
    rw [position,queue]
    simp [ThreadPool.place,WorkerPos.task,add_assoc]
  | finishes task position =>
    refine accounted.place i .testing rfl rfl ?_
    rw [position]
    simp [ThreadPool.place,WorkerPos.task,add_assoc,← Multiset.coe_add]

theorem notified_task (position : WorkerPos) : (notified position).task = position.task := by
  cases position <;> rfl

theorem notified_inside (position : WorkerPos) : (notified position).inside = position.inside := by
  cases position <;> rfl

theorem Accounted.step {s t : ThreadPool n} (accounted : s.Accounted) (turn : Turn n)
    (taken : s.step turn = some t) : t.Accounted := by
  cases took_of_step s t turn taken with
  | submits =>
    unfold Accounted at accounted ⊢
    simp only
    rw [← Multiset.coe_add,← add_assoc,accounted,Multiset.range_succ,Multiset.coe_singleton,
      add_comm,Multiset.singleton_add]
  | wakes i _ blocked => exact accounted.place i .waking rfl rfl (by rw [blocked]; rfl)
  | works i _ worked => exact accounted.worked i worked
  | wakesAll =>
    unfold Accounted at accounted ⊢
    simpa only [notified_task] using accounted
  | wakesNone | clears | joins => exact accounted

/-- `running_` is set until the destructor starts, every `Submit` has returned by then, and the
workers joined have returned. -/
structure Orderly (s : ThreadPool n) : Prop where
  running : s.running = true ↔ s.destructor = .unstarted
  quiet : s.destructor ≠ .unstarted → s.notices = 0
  joined : ∀ k, s.destructor = .joining k → ∀ i : Fin n, i.val < k → s.workers i = .returned

theorem start_orderly : (start n).Orderly :=
  ⟨by simp [start],fun started => absurd rfl started,fun k joining => by cases joining⟩

theorem Orderly.stopped {s : ThreadPool n} (orderly : s.Orderly)
    (started : s.destructor ≠ .unstarted) : s.running = false :=
  Bool.eq_false_iff.mpr fun running => started (orderly.running.mp running)

theorem Orderly.step {s t : ThreadPool n} (orderly : s.Orderly) (turn : Turn n)
    (taken : s.step turn = some t) : t.Orderly := by
  obtain ⟨running,quiet,joined⟩ := orderly
  cases took_of_step s t turn taken with
  | submits unstarted => exact ⟨running,fun started => absurd unstarted started,joined⟩
  | wakesNone =>
    exact ⟨running,fun started => by simp [quiet started],joined⟩
  | wakes i noticed blocked =>
    refine ⟨running,fun started => absurd (quiet started) noticed,fun k joining j earlier => ?_⟩
    have started : s.destructor ≠ .unstarted := fun unstarted => by
      cases unstarted.symm.trans joining
    exact absurd (quiet started) noticed
  | works i _ worked =>
    obtain ⟨sameRunning,sameDestructor,sameNotices,others⟩ := worked.frame
    refine ⟨?_,?_,fun k joining j earlier => ?_⟩
    · rw [sameRunning,sameDestructor]
      exact running
    · rw [sameDestructor,sameNotices]
      exact quiet
    · have returned := joined k (sameDestructor ▸ joining) j earlier
      have other : j ≠ i := by
        rintro rfl
        exact worked.unreturned returned
      exact (others j other).trans returned
  | clears _ none => exact ⟨by simp,fun _ => none,fun k joining => by cases joining⟩
  | wakesAll position =>
    refine ⟨?_,fun _ => quiet (by simp [position]),fun k joining i earlier => ?_⟩
    · rw [running,position]
      simp
    · cases joining
      exact absurd earlier (Nat.not_lt_zero _)
  | joins i position returned =>
    refine ⟨?_,fun _ => quiet (by simp [position]),fun k joining j earlier => ?_⟩
    · rw [running,position]
      simp
    · cases joining
      rcases Nat.lt_succ_iff_lt_or_eq.mp earlier with before | same
      · exact joined i position j before
      · exact Fin.ext same ▸ returned

/-- The number of workers that will look at the queue before they test `running_`. -/
def inside (s : ThreadPool n) : Nat := ∑ i, (s.workers i).inside.toNat

/-- As many workers will look at the queue as there are tasks in it. -/
def Covered (s : ThreadPool n) : Prop := s.tasks.length ≤ s.inside

instance (s : ThreadPool n) : Decidable s.Covered := inferInstanceAs (Decidable (_ ≤ _))

theorem inside_place (s t : ThreadPool n) (i : Fin n) (position : WorkerPos)
    (workers : t.workers = (s.place i position).workers) :
    t.inside + (s.workers i).inside.toNat = s.inside + position.inside.toNat := by
  unfold inside
  rw [workers]
  exact sum_place (fun position => position.inside.toNat) s i position

theorem Covered.place_iff {s t : ThreadPool n} (i : Fin n) (position : WorkerPos)
    (workers : t.workers = (s.place i position).workers) (tasks : t.tasks = s.tasks)
    (same : (s.workers i).inside = position.inside) : t.Covered ↔ s.Covered := by
  have moved := inside_place s t i position workers
  rw [same] at moved
  unfold Covered
  rw [tasks,Nat.add_right_cancel moved]

theorem Covered.worked_iff {s t : ThreadPool n} {i : Fin n} (worked : Worked s i t)
    (stopped : s.running = false) : t.Covered ↔ s.Covered := by
  cases worked with
  | enters _ running | misses _ _ running => simp [stopped] at running
  | leaves position | finds position | blocks position | finishes _ position =>
    exact Covered.place_iff i _ rfl rfl (by rw [position]; rfl)
  | locks position =>
    refine Covered.place_iff i .checking rfl rfl ?_
    rcases position with position | position <;> rw [position] <;> rfl
  | stops position _ empty => simp [Covered,place,empty]
  | pops task rest position queue =>
    have moved := inside_place s { s.place i (.working task) with mutex := none, tasks := rest } i
      (.working task) rfl
    have length : s.tasks.length = rest.length + 1 := by rw [queue]; rfl
    simp only [position,WorkerPos.inside,Bool.toNat_true,Bool.toNat_false] at moved
    simp only [Covered]
    omega

/-- Nothing that happens once the destructor has started changes whether the queue is covered. -/
theorem Covered.step_iff {s t : ThreadPool n} (orderly : s.Orderly) (turn : Turn n)
    (started : s.destructor ≠ .unstarted) (taken : s.step turn = some t) :
    t.destructor ≠ .unstarted ∧ (t.Covered ↔ s.Covered) := by
  cases took_of_step s t turn taken with
  | submits unstarted | clears unstarted => exact absurd unstarted started
  | wakesNone => exact ⟨started,Iff.rfl⟩
  | wakes i _ blocked =>
    exact ⟨started,Covered.place_iff i .waking rfl rfl (by rw [blocked]; rfl)⟩
  | works i _ worked =>
    exact ⟨worked.frame.2.1 ▸ started,Covered.worked_iff worked (orderly.stopped started)⟩
  | wakesAll => exact ⟨by simp,by simp [Covered,inside,notified_inside]⟩
  | joins => exact ⟨by simp,Iff.rfl⟩

/-- The destructor finds as many workers at the queue as there are tasks in it. -/
def StopsCovered (s : ThreadPool n) : Turn n → Prop
  | .destroy => s.destructor = .unstarted → s.Covered
  | .submit | .notifyOne _ | .worker _ => True

instance (s : ThreadPool n) : DecidablePred s.StopsCovered
  | .destroy => inferInstanceAs (Decidable (_ → _))
  | .submit | .notifyOne _ | .worker _ => .isTrue trivial

theorem covered_of_started (s t : ThreadPool n) (turns : List (Turn n)) (orderly : s.Orderly)
    (started : s.destructor ≠ .unstarted) (ran : Machine.run step s turns = some t) :
    Machine.Guarded step StopsCovered s turns ∧ (t.Covered ↔ s.Covered) := by
  induction turns generalizing s with
  | nil => cases ran; exact ⟨trivial,Iff.rfl⟩
  | cons turn turns ih =>
    obtain ⟨m,taken,ran⟩ := (Machine.run_cons_iff step s t turn turns).mp ran
    obtain ⟨later,same⟩ := Covered.step_iff orderly turn started taken
    obtain ⟨guarded,covered⟩ := ih m (orderly.step turn taken) later ran
    have inside : s.StopsCovered turn := by
      cases turn with
      | destroy => exact fun unstarted => absurd unstarted started
      | submit | notifyOne | worker => trivial
    exact ⟨(Machine.guarded_cons_iff step _ s m turn turns taken).mpr ⟨inside,guarded⟩,
      covered.trans same⟩

theorem guarded_iff_covered (s t : ThreadPool n) (turns : List (Turn n)) (orderly : s.Orderly)
    (unstarted : s.destructor = .unstarted) (started : t.destructor ≠ .unstarted)
    (ran : Machine.run step s turns = some t) :
    Machine.Guarded step StopsCovered s turns ↔ t.Covered := by
  induction turns generalizing s with
  | nil => cases ran; exact absurd unstarted started
  | cons turn turns ih =>
    obtain ⟨m,taken,rest⟩ := (Machine.run_cons_iff step s t turn turns).mp ran
    have next := orderly.step turn taken
    rw [Machine.guarded_cons_iff step _ s m turn turns taken]
    cases took_of_step s m turn taken with
    | submits | wakesNone | wakes =>
      rw [ih _ next unstarted rest]
      exact and_iff_right trivial
    | works i _ worked =>
      rw [ih m next (worked.frame.2.1.trans unstarted) rest]
      exact and_iff_right trivial
    | clears =>
      -- the step keeps the queue and the workers
      obtain ⟨guarded,covered⟩ := covered_of_started _ t turns next (by simp) rest
      rw [covered]
      exact ⟨fun both => both.1 unstarted,fun now => ⟨fun _ => now,guarded⟩⟩
    | wakesAll position | joins _ position => cases unstarted.symm.trans position

theorem accounted_of_run (turns : List (Turn n)) (t : ThreadPool n)
    (ran : Machine.run step (start n) turns = some t) : t.Accounted ∧ t.Orderly :=
  Machine.invariant_of_run step (fun _ => True) (fun s => s.Accounted ∧ s.Orderly)
    (fun _ turn _ both _ taken => ⟨both.1.step turn taken,both.2.step turn taken⟩)
    (start n) t turns ⟨start_accounted,start_orderly⟩ (fun _ _ => trivial) ran

theorem Accounted.count_le {s : ThreadPool n} (accounted : s.Accounted) (task : Nat) :
    s.executed.count task ≤ 1 := by
  have total : (s.executed : Multiset Nat) ≤ Multiset.range s.submitted := by
    rw [← accounted,add_assoc]
    exact Multiset.le_add_right _ _
  have once := Multiset.nodup_iff_count_le_one.mp (Multiset.nodup_range s.submitted) task
  rw [← Multiset.coe_count]
  exact (Multiset.count_le_of_le task total).trans once

/-- When all workers have returned, what is not queued is executed. -/
theorem Accounted.executed_eq {s : ThreadPool n} (accounted : s.Accounted)
    (returned : ∀ i, s.workers i = .returned) (empty : s.tasks = []) :
    (s.executed : Multiset Nat) = Multiset.range s.submitted := by
  unfold Accounted at accounted
  simpa [returned,empty,WorkerPos.task] using accounted

/-- Every task is executed exactly once, and none is left, exactly when the destructor starts
with no more tasks in the queue than workers that will still look at it. In no run is a task
executed twice. -/
theorem tasks_executed_iff (turns : List (Turn n)) (t : ThreadPool n)
    (ran : Machine.run step (start n) turns = some t) :
    (∀ task, t.executed.count task ≤ 1) ∧
    (t.destructor = .joining n →
      ((t.tasks = [] ∧ ∀ task < t.submitted, t.executed.count task = 1) ↔
        Machine.Guarded step StopsCovered (start n) turns)) := by
  obtain ⟨accounted,orderly⟩ := accounted_of_run turns t ran
  refine ⟨accounted.count_le,fun ended => ?_⟩
  have returned (i : Fin n) : t.workers i = .returned := orderly.joined n ended i i.isLt
  have none : t.inside = 0 := by simp [inside,returned,WorkerPos.inside]
  rw [guarded_iff_covered (start n) t turns start_orderly rfl (by simp [ended]) ran,Covered,none,
    Nat.le_zero,List.length_eq_zero_iff]
  refine ⟨fun both => both.1,fun empty => ⟨empty,fun task submitted => ?_⟩⟩
  have counted := congrArg (Multiset.count task) (accounted.executed_eq returned empty)
  rw [Multiset.coe_count] at counted
  rw [counted]
  exact Multiset.count_eq_one_of_mem (Multiset.nodup_range _) (Multiset.mem_range.mpr submitted)

/-- One worker that takes its task before the destructor starts. -/
theorem tasks_executed_iff_taken :
    ∃ t, Machine.run step (start 1)
        [.submit,.notifyOne none,.worker 0,.worker 0,.worker 0,.worker 0,.destroy,.destroy,.worker 0,
         .worker 0,.destroy] = some t ∧
      t.tasks = [] ∧ ∀ task < t.submitted, t.executed.count task = 1 :=
  ⟨_,rfl,((tasks_executed_iff
    [.submit,.notifyOne none,.worker 0,.worker 0,.worker 0,.worker 0,.destroy,.destroy,.worker 0,
     .worker 0,.destroy] _ rfl).2 (by decide)).mpr (by decide)⟩

/-- One worker that is busy with its first task when the destructor starts: the second task is
left in the queue. -/
theorem task_left_behind :
    ∃ t, Machine.run step (start 1)
        [.submit,.notifyOne none,.worker 0,.worker 0,.worker 0,.worker 0,.submit,.notifyOne none,
         .destroy,.destroy,.worker 0,.worker 0,.destroy] = some t ∧
      t.destructor = .joining 1 ∧ t.submitted = 2 ∧ t.tasks = [1] ∧ t.executed = [0] :=
  ⟨_,rfl,by decide,by decide,by decide,by decide⟩

/-- A worker in a section under the lock owns it, and one whose predicate was true finds a task
or stops. -/
structure Exclusive (s : ThreadPool n) : Prop where
  owner : ∀ i, (s.workers i).holds = true → s.mutex = some i
  fed : ∀ i, s.workers i = .deciding → s.tasks ≠ [] ∨ s.running = false

theorem start_exclusive : (start n).Exclusive :=
  ⟨fun _ holds => (by cases holds),fun _ deciding => by cases deciding⟩

theorem workers_of_place (s t : ThreadPool n) (i : Fin n) (position : WorkerPos)
    (workers : t.workers = (s.place i position).workers) (j : Fin n) :
    j = i ∧ t.workers j = position ∨ j ≠ i ∧ t.workers j = s.workers j := by
  rw [workers]
  by_cases same : j = i
  · subst same
    exact .inl ⟨rfl,Function.update_self ..⟩
  · exact .inr ⟨same,Function.update_of_ne same ..⟩

theorem Exclusive.place {s t : ThreadPool n} (exclusive : s.Exclusive) (i : Fin n)
    (position : WorkerPos) (workers : t.workers = (s.place i position).workers)
    (mutex : t.mutex = s.mutex) (tasks : t.tasks = s.tasks) (running : t.running = s.running)
    (held : position.holds = true → (s.workers i).holds = true)
    (fed : position = .deciding → s.tasks ≠ [] ∨ s.running = false) : t.Exclusive := by
  have moved := workers_of_place s t i position workers
  refine ⟨fun j holds => ?_,fun j deciding => ?_⟩
  · rw [mutex]
    rcases moved j with ⟨rfl,now⟩ | ⟨-,same⟩
    · exact exclusive.owner j (held (now ▸ holds))
    · exact exclusive.owner j (same ▸ holds)
  · rw [tasks,running]
    rcases moved j with ⟨rfl,now⟩ | ⟨-,same⟩
    · exact fed (now.symm.trans deciding)
    · exact exclusive.fed j (same.symm.trans deciding)

theorem Exclusive.alone {s t : ThreadPool n} (exclusive : s.Exclusive) (i : Fin n)
    (position : WorkerPos) (workers : t.workers = (s.place i position).workers)
    (only : s.mutex = none ∨ s.mutex = some i) (owner : position.holds = true → t.mutex = some i)
    (notDeciding : position ≠ .deciding) : t.Exclusive := by
  have moved := workers_of_place s t i position workers
  have others (j : Fin n) (other : j ≠ i) : (s.workers j).holds ≠ true := by
    intro holds
    have owns := exclusive.owner j holds
    rcases only with free | mine
    · cases free.symm.trans owns
    · exact other (Option.some.inj (owns.symm.trans mine))
  refine ⟨fun j holds => ?_,fun j deciding => ?_⟩
  · rcases moved j with ⟨rfl,now⟩ | ⟨other,same⟩
    · exact owner (now ▸ holds)
    · exact absurd (same ▸ holds) (others j other)
  · rcases moved j with ⟨rfl,now⟩ | ⟨other,same⟩
    · exact absurd (now.symm.trans deciding) notDeciding
    · refine absurd ?_ (others j other)
      rw [← same,deciding]
      rfl

theorem Exclusive.worked {s t : ThreadPool n} (exclusive : s.Exclusive) (i : Fin n)
    (worked : Worked s i t) : t.Exclusive := by
  cases worked with
  | enters | leaves | finishes =>
    exact exclusive.place i _ rfl rfl rfl rfl (fun holds => by cases holds) (fun same => by cases same)
  | finds position ready =>
    exact exclusive.place i _ rfl rfl rfl rfl (fun _ => by rw [position]; rfl) (fun _ => ready)
  | misses position =>
    exact exclusive.place i _ rfl rfl rfl rfl (fun _ => by rw [position]; rfl)
      (fun same => by cases same)
  | locks _ free => exact exclusive.alone i .checking rfl (.inl free) (fun _ => rfl) (by simp)
  | blocks position | stops position | pops _ _ position =>
    have mine := exclusive.owner i (by rw [position]; rfl)
    exact exclusive.alone i _ rfl (.inr mine) (fun holds => by cases holds) (by simp)

theorem notified_holds (position : WorkerPos) : (notified position).holds = position.holds := by
  cases position <;> rfl

theorem Exclusive.step {s t : ThreadPool n} (exclusive : s.Exclusive) (turn : Turn n)
    (taken : s.step turn = some t) : t.Exclusive := by
  cases took_of_step s t turn taken with
  | submits => exact ⟨exclusive.owner,fun _ _ => .inl (by simp)⟩
  | wakesNone | joins => exact ⟨exclusive.owner,exclusive.fed⟩
  | wakes i =>
    exact exclusive.place i .waking rfl rfl rfl rfl (fun holds => by cases holds)
      (fun same => by cases same)
  | works i _ worked => exact exclusive.worked i worked
  | clears => exact ⟨exclusive.owner,fun _ _ => .inr rfl⟩
  | wakesAll =>
    refine ⟨fun i holds => ?_,fun i deciding => ?_⟩
    · rw [notified_holds] at holds
      exact exclusive.owner i holds
    · refine exclusive.fed i ?_
      cases position : s.workers i <;> simp_all [notified]

/-- The front of an empty queue is never asked for: a worker whose predicate was true goes
on, in every state of every run. -/
theorem deciding_goes_on (turns : List (Turn n)) (t : ThreadPool n)
    (ran : Machine.run step (start n) turns = some t) (i : Fin n)
    (deciding : t.workers i = .deciding) : ∃ u, t.step (.worker i) = some u := by
  have exclusive := Machine.invariant_of_run step (fun _ => True) Exclusive
    (fun _ turn _ exclusive _ taken => exclusive.step turn taken) (start n) t turns
    start_exclusive (fun _ _ => trivial) ran
  rw [ThreadPool.step,stepWorker,deciding]
  cases queue : t.tasks with
  | nil =>
    have stopped := (exclusive.fed i deciding).resolve_left (not_not.mpr queue)
    exact ⟨_,if_pos ⟨stopped,rfl⟩⟩
  | cons task rest => exact ⟨_,if_neg (by simp)⟩

/-- The destructor has called `notify_all`, and a worker is blocked that it did not wake. -/
def Lost (s : ThreadPool n) : Prop :=
  s.destructor ≠ .unstarted ∧ s.destructor ≠ .cleared ∧ ∃ i, s.workers i = .blocked

instance (s : ThreadPool n) : Decidable s.Lost := inferInstanceAs (Decidable (_ ∧ _ ∧ _))

/-- A wake-up is lost, or the next step of some worker loses one. -/
def Losing (s : ThreadPool n) : Prop :=
  s.Lost ∨ ∃ i t, s.step (.worker i) = some t ∧ t.Lost

/-- A lost wake-up stays lost, since nothing notifies after the destructor. -/
theorem Lost.step {s t : ThreadPool n} (lost : s.Lost) (orderly : s.Orderly) (turn : Turn n)
    (taken : s.step turn = some t) : t.Lost := by
  obtain ⟨started,passed,i,blocked⟩ := lost
  cases took_of_step s t turn taken with
  | submits unstarted | clears unstarted => exact absurd unstarted started
  | wakesNone => exact ⟨started,passed,i,blocked⟩
  | wakes j noticed => exact absurd (orderly.quiet started) noticed
  | works j _ worked =>
    obtain ⟨-,same,-,others⟩ := worked.frame
    have other : i ≠ j := by
      rintro rfl
      cases worked <;> simp_all
    exact ⟨same ▸ started,same ▸ passed,i,(others i other).trans blocked⟩
  | wakesAll cleared => exact absurd cleared passed
  | joins => exact ⟨by simp,by simp,i,blocked⟩

theorem Lost.never_returns {s t : ThreadPool n} (lost : s.Lost) (orderly : s.Orderly)
    (turns : List (Turn n)) (ran : Machine.run ThreadPool.step s turns = some t) :
    t.destructor ≠ .joining n := by
  obtain ⟨lost,orderly⟩ := Machine.invariant_of_run ThreadPool.step (fun _ => True)
    (fun s => s.Lost ∧ s.Orderly)
    (fun _ turn _ both _ taken => ⟨both.1.step both.2 turn taken,both.2.step turn taken⟩)
    s t turns ⟨lost,orderly⟩ (fun _ _ => trivial) ran
  obtain ⟨-,-,i,blocked⟩ := lost
  intro ended
  cases blocked.symm.trans (orderly.joined n ended i i.isLt)

/-- Once `notify_all` has been called no worker is blocked, or about to be. -/
structure Awake (s : ThreadPool n) : Prop where
  orderly : s.Orderly
  awake : s.destructor ≠ .unstarted → s.destructor ≠ .cleared →
    ∀ i, s.workers i ≠ .blocked ∧ s.workers i ≠ .blocking

/-- `notify_all` is called while no worker stands between its predicate and its wait. -/
def NotifiesWaiting (s : ThreadPool n) : Turn n → Prop
  | .destroy => s.destructor = .cleared → ∀ i, s.workers i ≠ .blocking
  | .submit | .notifyOne _ | .worker _ => True

instance (s : ThreadPool n) : DecidablePred s.NotifiesWaiting
  | .destroy => inferInstanceAs (Decidable (_ → _))
  | .submit | .notifyOne _ | .worker _ => .isTrue trivial

theorem start_awake : (start n).Awake := ⟨start_orderly,fun started => absurd rfl started⟩

theorem Awake.step {s t : ThreadPool n} (awake : s.Awake) (turn : Turn n)
    (guarded : s.NotifiesWaiting turn) (taken : s.step turn = some t) : t.Awake := by
  refine ⟨awake.orderly.step turn taken,?_⟩
  cases took_of_step s t turn taken with
  | submits unstarted => exact fun started => absurd unstarted started
  | wakesNone => exact awake.awake
  | wakes i noticed => exact fun started => absurd (awake.orderly.quiet started) noticed
  | works i _ worked =>
    obtain ⟨-,same,-,others⟩ := worked.frame
    rw [same]
    intro started passed j
    have before := awake.awake started passed
    have stopped := awake.orderly.stopped started
    by_cases other : j = i
    · subst other
      -- `running_` is cleared, so the predicate is true
      cases worked with
      | misses _ _ running => simp [stopped] at running
      | blocks position => exact absurd position (before j).2
      | enters | leaves | locks | finds | stops | pops | finishes => simp [place]
    · rw [others j other]
      exact before j
  | clears => exact fun _ passed => absurd rfl passed
  | wakesAll cleared =>
    intro _ _ i
    have waiting := guarded cleared i
    cases position : s.workers i <;> simp_all [notified]
  | joins i position =>
    intro _ _
    exact awake.awake (by simp [position]) (by simp [position])

theorem Awake.not_losing {s : ThreadPool n} (awake : s.Awake) : ¬s.Losing := by
  rintro (⟨started,passed,i,blocked⟩ | ⟨i,t,taken,started,passed,j,blocked⟩)
  · exact (awake.awake started passed i).1 blocked
  · exact ((awake.step (.worker i) trivial taken).awake started passed j).1 blocked

theorem stepWorker_blocking (s : ThreadPool n) (i : Fin n) (position : s.workers i = .blocking) :
    s.step (.worker i) = some { s.place i .blocked with mutex := none } := by
  simp only [step,stepWorker,position]

theorem losing_of_blocking (s t : ThreadPool n) (turn : Turn n)
    (outside : ¬s.NotifiesWaiting turn) (taken : s.step turn = some t) : t.Losing := by
  cases turn with
  | submit | notifyOne | worker => exact absurd trivial outside
  | destroy =>
    simp only [NotifiesWaiting,not_forall,not_not] at outside
    obtain ⟨cleared,i,position⟩ := outside
    simp only [step,stepDestructor,cleared,Option.some.injEq] at taken
    subst taken
    have still : notified (s.workers i) = .blocking := by rw [position]; rfl
    exact .inr ⟨i,_,stepWorker_blocking _ i still,by simp [place],by simp [place],i,by simp [place]⟩

/-- No wake-up is lost at any point of a run exactly when `notify_all` is never called while a
worker stands between its predicate and its wait. -/
theorem no_lost_wakeup_iff (turns : List (Turn n)) (t : ThreadPool n)
    (ran : Machine.run step (start n) turns = some t) :
    Machine.Throughout step (fun s => ¬s.Losing) (start n) turns ↔
      Machine.Guarded step NotifiesWaiting (start n) turns :=
  Machine.throughout_iff_guarded_of_run step NotifiesWaiting Awake (fun s => ¬s.Losing)
    (fun _ => True) (fun _ awake => awake.not_losing)
    (fun _ turn _ awake _ guarded taken => awake.step turn guarded taken)
    (fun s turn t _ _ outside taken safe => safe (losing_of_blocking s t turn outside taken))
    (start n) t turns start_awake (fun _ _ => trivial) ran

/-- A worker that is blocked when the destructor starts is woken. -/
theorem no_lost_wakeup_iff_blocked :
    Machine.Throughout step (fun s => ¬s.Losing) (start 1)
      [.worker 0,.worker 0,.worker 0,.worker 0,.destroy,.destroy] :=
  (no_lost_wakeup_iff _ _ rfl).mpr (by decide)

/-- A worker finds the queue empty and `running_` set, the destructor clears it and notifies, and
only then the worker blocks. -/
theorem wakeup_lost :
    ∃ t, Machine.run step (start 1)
        [.worker 0,.worker 0,.worker 0,.destroy,.destroy,.worker 0] = some t ∧ t.Lost :=
  ⟨_,rfl,by decide⟩

end ThreadPool

end KvCache
