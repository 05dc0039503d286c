import KvCache.Wal
import KvCache.Machine

/-! The WAL object between its caller and the thread that `Init` starts for the policy
EVERYSEC. Both take `mutex_`; the caller also waits for the thread to return. `Shutdown` and
the destructor wait before they lock, `Init` waits while it holds the lock. -/
namespace KvCache

/-- Where the thread stands in `SyncLoop`; `absent` is a thread object that is not joinable. -/
inductive SyncPos where
  | absent
  | testing
  | lockingConfig
  | readingConfig
  | sleeping
  | lockingSync
  | syncing
  | finished
  deriving DecidableEq, Repr

namespace SyncPos

def waits : SyncPos → Bool
  | lockingConfig | lockingSync => true
  | _ => false

def holds : SyncPos → Bool
  | readingConfig | syncing => true
  | _ => false

/-- The thread has found `running_` set and has not come back to test it. -/
def inLoop : SyncPos → Bool
  | lockingConfig | readingConfig | sleeping | lockingSync | syncing => true
  | _ => false

end SyncPos

inductive Leaving where
  | shutdown
  | destructor
  deriving DecidableEq, Repr

/-- Where the caller stands in its call. -/
inductive CallerPos where
  | idle
  | initLocking (policy : FsyncPolicy)
  | initLocked (policy : FsyncPolicy)
  | initStopping (policy : FsyncPolicy)
  | initStopped (policy : FsyncPolicy)
  | initJoining (policy : FsyncPolicy)
  | initClosing (policy : FsyncPolicy)
  | initOpening (policy : FsyncPolicy)
  | initStarting
  | appendLocking
  | appending
  | stopping (leaving : Leaving)
  | stopped (leaving : Leaving)
  | joining (leaving : Leaving)
  | shutdownLocking
  | shutdownLocked
  | unlocking
  | destroyed
  deriving DecidableEq, Repr

namespace CallerPos

def holds : CallerPos → Bool
  | initLocked _ | initStopping _ | initStopped _ | initJoining _ | initClosing _ | initOpening _
  | initStarting | appending | shutdownLocked | unlocking => true
  | _ => false

/-- The caller waits for the thread to return. -/
def joins : CallerPos → Bool
  | initJoining _ | joining _ => true
  | _ => false

/-- `Init` is about to look at the thread. -/
def atJoin : CallerPos → Bool
  | initStopped _ => true
  | _ => false

/-- `Init` has cleared `running_` and has not closed the file. -/
def stopsLocked : CallerPos → Bool
  | initStopped _ | initJoining _ => true
  | _ => false

end CallerPos

inductive Owner where
  | caller
  | sync
  deriving DecidableEq, Repr

structure WalThreads where
  /-- The owner of `mutex_`. -/
  mutex : Option Owner
  running : Bool
  isOpen : Bool
  enabled : Bool
  policy : FsyncPolicy
  caller : CallerPos
  thread : SyncPos
  deriving DecidableEq, Repr

inductive Request where
  | init (policy : FsyncPolicy)
  | append
  | sync
  | shutdown
  | destructor
  deriving DecidableEq, Repr

/-- The next call, the next step of the caller with the answer of `TryOpen` for the step
that opens the file, or the next step of the thread. -/
inductive Move where
  | begin (request : Request)
  | caller (opens : Bool)
  | sync
  deriving DecidableEq, Repr

namespace WalThreads

def start : WalThreads := ⟨none,false,false,false,.EVERYSEC,.idle,.absent⟩

def begin (s : WalThreads) : Request → WalThreads
  | .init policy => { s with caller := .initLocking policy }
  | .append => { s with caller := .appendLocking }
  -- `Sync` takes no lock
  | .sync => s
  | .shutdown => { s with caller := .stopping .shutdown }
  | .destructor => { s with caller := .stopping .destructor }

def lock (s : WalThreads) (next : CallerPos) : Option WalThreads :=
  if s.mutex = none then some { s with mutex := some .caller, caller := next } else none

def join (s : WalThreads) (next : CallerPos) : Option WalThreads :=
  if s.thread = .finished then some { s with thread := .absent, caller := next } else none

def stepCaller (s : WalThreads) (opens : Bool) : Option WalThreads :=
  match s.caller with
  | .idle => none
  | .initLocking policy => s.lock (.initLocked policy)
  | .initLocked policy =>
    some { s with caller := if s.isOpen then .initStopping policy else .initOpening policy }
  | .initStopping policy => some { s with running := false, caller := .initStopped policy }
  | .initStopped policy =>
    some { s with caller := if s.thread = .absent then .initClosing policy else .initJoining policy }
  | .initJoining policy => s.join (.initClosing policy)
  | .initClosing policy => some { s with isOpen := false, caller := .initOpening policy }
  | .initOpening policy =>
    some { s with policy := policy, enabled := opens, isOpen := opens, caller := .initStarting }
  | .initStarting =>
    if s.enabled ∧ s.policy = .EVERYSEC then
      -- a joinable thread must not be assigned to
      if s.thread = .absent then
        some { s with running := true, thread := .testing, caller := .unlocking }
      else none
    else some { s with caller := .unlocking }
  | .appendLocking => s.lock .appending
  -- the record is written, or the write throws; the lock is released either way
  | .appending => some { s with caller := .unlocking }
  | .stopping leaving => some { s with running := false, caller := .stopped leaving }
  | .stopped leaving =>
    if s.thread = .absent then
      some { s with caller := if leaving = .shutdown then .shutdownLocking else .destroyed }
    else some { s with caller := .joining leaving }
  | .joining leaving => s.join (if leaving = .shutdown then .shutdownLocking else .destroyed)
  | .shutdownLocking => s.lock .shutdownLocked
  | .shutdownLocked => some { s with isOpen := false, enabled := false, caller := .unlocking }
  | .unlocking => some { s with mutex := none, caller := .idle }
  | .destroyed => none

def stepSync (s : WalThreads) : Option WalThreads :=
  match s.thread with
  | .absent => none
  | .testing => some { s with thread := if s.running then .lockingConfig else .finished }
  | .lockingConfig =>
    if s.mutex = none then some { s with mutex := some .sync, thread := .readingConfig } else none
  | .readingConfig => some { s with mutex := none, thread := .sleeping }
  | .sleeping => some { s with thread := .lockingSync }
  | .lockingSync =>
    if s.mutex = none then some { s with mutex := some .sync, thread := .syncing } else none
  | .syncing => some { s with mutex := none, thread := .testing }
  | .finished => none

def step (s : WalThreads) : Move → Option WalThreads
  | .begin request => if s.caller = .idle then some (s.begin request) else none
  | .caller opens => s.stepCaller opens
  | .sync => s.stepSync

/-- The caller holds `mutex_` and waits for the thread, which waits for `mutex_`. -/
def Deadlocked (s : WalThreads) : Prop :=
  s.mutex = some .caller ∧ s.caller.joins = true ∧ s.thread.waits = true

instance (s : WalThreads) : Decidable s.Deadlocked := inferInstanceAs (Decidable (_ ∧ _ ∧ _))

theorem deadlocked_stuck (s : WalThreads) (deadlocked : s.Deadlocked) (move : Move) :
    s.step move = none := by
  obtain ⟨held,joins,waits⟩ := deadlocked
  have busy : s.caller ≠ .idle := by
    intro idle
    rw [idle] at joins
    cases joins
  have unreturned : s.thread ≠ .finished := by
    intro finished
    rw [finished] at waits
    cases waits
  cases move with
  | begin request => simp [step,busy]
  | caller opens =>
    cases position : s.caller <;> simp [position,CallerPos.joins] at joins <;>
      simp [step,stepCaller,position,join,unreturned]
  | sync =>
    cases position : s.thread <;> simp [position,SyncPos.waits] at waits <;>
      simp [step,stepSync,position,held]

/-- Who holds `mutex_`, and what `Init` finds when it waits for the thread. -/
structure Orderly (s : WalThreads) : Prop where
  callerHolds : s.mutex = some .caller ↔ s.caller.holds = true
  syncHolds : s.mutex = some .sync ↔ s.thread.holds = true
  stopped : s.caller.stopsLocked = true → s.running = false
  outside : ∀ policy, s.caller = .initJoining policy → s.thread.inLoop = false

theorem start_orderly : start.Orderly := by
  constructor <;> simp [start,CallerPos.holds,SyncPos.holds,CallerPos.stopsLocked]

theorem Orderly.not_deadlocked (s : WalThreads) (orderly : s.Orderly) : ¬s.Deadlocked := by
  rintro ⟨held,joins,waits⟩
  have holds := orderly.callerHolds.mp held
  cases position : s.caller <;> simp [position,CallerPos.joins,CallerPos.holds] at joins holds
  -- of the joining callers only `Init` holds the lock
  have outside := orderly.outside _ position
  cases thread : s.thread <;> simp [thread,SyncPos.waits,SyncPos.inLoop] at waits outside

/-- A step that leaves the lock alone, and that is not on the way to the join of `Init`. -/
theorem Orderly.pass (s t : WalThreads) (orderly : s.Orderly) (mutex : t.mutex = s.mutex)
    (thread : t.thread.holds = s.thread.holds) (holds : t.caller.holds = s.caller.holds)
    (unstopped : t.caller.stopsLocked = false) : t.Orderly := by
  refine ⟨?_,?_,fun stops => ?_,fun policy joining => ?_⟩
  · rw [mutex,holds]
    exact orderly.callerHolds
  · rw [mutex,thread]
    exact orderly.syncHolds
  · cases unstopped.symm.trans stops
  · rw [joining] at unstopped
    cases unstopped

theorem begin_orderly (s : WalThreads) (request : Request) (orderly : s.Orderly)
    (idle : s.caller = .idle) : (s.begin request).Orderly := by
  cases request with
  | sync => exact orderly
  | init | append | shutdown | destructor =>
    exact orderly.pass _ _ rfl rfl (by rw [idle]; rfl) rfl

theorem stepSync_orderly (s t : WalThreads) (orderly : s.Orderly)
    (taken : s.stepSync = some t) : t.Orderly := by
  obtain ⟨callerHolds,syncHolds,stopped,outside⟩ := orderly
  rw [stepSync] at taken
  cases position : s.thread with
  | absent | finished => simp [position] at taken
  | testing =>
    simp only [position,Option.some.injEq] at taken
    subst taken
    -- `running_` is cleared before `Init` joins, so the thread then returns
    have returns (policy : FsyncPolicy) (joining : s.caller = .initJoining policy) :
        s.running = false := stopped (by rw [joining]; rfl)
    constructor <;> grind [SyncPos.holds,SyncPos.inLoop]
  | lockingConfig | lockingSync =>
    simp only [position,Option.ite_none_right_eq_some,Option.some.injEq] at taken
    obtain ⟨free,rfl⟩ := taken
    constructor <;> grind [SyncPos.holds,SyncPos.inLoop]
  | readingConfig | sleeping | syncing =>
    simp only [position,Option.some.injEq] at taken
    subst taken
    constructor <;> grind [SyncPos.holds,SyncPos.inLoop]

/-- `Init` comes to its join while the thread is outside its loop. -/
def StopsOutside (s : WalThreads) : Move → Prop
  | .caller _ => s.caller.atJoin = true → s.thread.inLoop = false
  | .begin _ | .sync => True

instance (s : WalThreads) : DecidablePred s.StopsOutside
  | .caller _ => inferInstanceAs (Decidable (_ → _))
  | .begin _ | .sync => .isTrue trivial

theorem lock_orderly (s t : WalThreads) (next : CallerPos) (orderly : s.Orderly)
    (holds : next.holds = true) (unstopped : next.stopsLocked = false)
    (taken : s.lock next = some t) : t.Orderly := by
  simp only [lock,Option.ite_none_right_eq_some,Option.some.injEq] at taken
  obtain ⟨free,rfl⟩ := taken
  have syncHolds := orderly.syncHolds
  constructor <;> grind [CallerPos.stopsLocked]

theorem join_orderly (s t : WalThreads) (next : CallerPos) (orderly : s.Orderly)
    (holds : next.holds = s.caller.holds) (unstopped : next.stopsLocked = false)
    (taken : s.join next = some t) : t.Orderly := by
  simp only [join,Option.ite_none_right_eq_some,Option.some.injEq] at taken
  obtain ⟨returned,rfl⟩ := taken
  exact orderly.pass _ _ rfl (by rw [returned]; rfl) holds unstopped

theorem stop_orderly (s t : WalThreads) (opens : Bool) (policy : FsyncPolicy) (orderly : s.Orderly)
    (inside : s.caller.atJoin = true → s.thread.inLoop = false)
    (position : s.caller = .initStopping policy ∨ s.caller = .initStopped policy)
    (taken : s.stepCaller opens = some t) : t.Orderly := by
  have ⟨callerHolds,syncHolds,stopped,_⟩ := orderly
  rcases position with position | position
  · simp only [stepCaller,position,Option.some.injEq] at taken
    subst taken
    rw [position] at callerHolds
    exact ⟨callerHolds,syncHolds,fun _ => rfl,fun _ joining => by cases joining⟩
  · simp only [stepCaller,position,Option.some.injEq] at taken
    subst taken
    rw [position] at callerHolds stopped inside
    by_cases absent : s.thread = .absent
    · rw [if_pos absent]
      exact orderly.pass _ _ rfl rfl (by rw [position]; rfl) rfl
    · rw [if_neg absent]
      exact ⟨callerHolds,syncHolds,fun _ => stopped rfl,fun _ _ => inside rfl⟩

theorem stepCaller_orderly (s t : WalThreads) (opens : Bool) (orderly : s.Orderly)
    (inside : s.StopsOutside (.caller opens)) (taken : s.stepCaller opens = some t) :
    t.Orderly := by
  cases position : s.caller with
  | idle | destroyed => simp [stepCaller,position] at taken
  | initLocking policy | appendLocking | shutdownLocking =>
    simp only [stepCaller,position] at taken
    exact lock_orderly s t _ orderly rfl rfl taken
  | initStopping policy => exact stop_orderly s t opens policy orderly inside (.inl position) taken
  | initStopped policy => exact stop_orderly s t opens policy orderly inside (.inr position) taken
  | initJoining policy =>
    simp only [stepCaller,position] at taken
    exact join_orderly s t _ orderly (by rw [position]; rfl) rfl taken
  | joining leaving =>
    simp only [stepCaller,position] at taken
    cases leaving <;> exact join_orderly s t _ orderly (by rw [position]; rfl) rfl taken
  | initLocked policy =>
    simp only [stepCaller,position,Option.some.injEq] at taken
    subst taken
    refine orderly.pass _ _ rfl rfl ?_ ?_ <;> cases s.isOpen <;> simp [position] <;> rfl
  | initStarting =>
    simp only [stepCaller,position] at taken
    split at taken
    · simp only [Option.ite_none_right_eq_some,Option.some.injEq] at taken
      obtain ⟨absent,rfl⟩ := taken
      exact orderly.pass _ _ rfl (by rw [absent]; rfl) (by rw [position]; rfl) rfl
    · cases taken
      exact orderly.pass _ _ rfl rfl (by rw [position]; rfl) rfl
  | stopped leaving =>
    simp only [stepCaller,position] at taken
    split at taken
    · cases taken
      cases leaving <;> exact orderly.pass _ _ rfl rfl (by rw [position]; rfl) rfl
    · cases taken
      exact orderly.pass _ _ rfl rfl (by rw [position]; rfl) rfl
  | initClosing policy | initOpening policy | appending | stopping leaving | shutdownLocked =>
    simp only [stepCaller,position,Option.some.injEq] at taken
    subst taken
    exact orderly.pass _ _ rfl rfl (by rw [position]; rfl) rfl
  | unlocking =>
    simp only [stepCaller,position,Option.some.injEq] at taken
    subst taken
    have held : s.mutex = some .caller := orderly.callerHolds.mpr (by rw [position]; rfl)
    have unheld := orderly.syncHolds
    rw [held] at unheld
    refine ⟨by simp [CallerPos.holds],by simpa using unheld,fun stops => ?_,fun _ joining => ?_⟩
    · cases stops
    · cases joining

theorem step_orderly (s t : WalThreads) (move : Move) (orderly : s.Orderly)
    (inside : s.StopsOutside move) (taken : s.step move = some t) : t.Orderly := by
  cases move with
  | begin request =>
    simp only [step,Option.ite_none_right_eq_some,Option.some.injEq] at taken
    obtain ⟨idle,rfl⟩ := taken
    exact begin_orderly s request orderly idle
  | caller opens => exact stepCaller_orderly s t opens orderly inside taken
  | sync => exact stepSync_orderly s t orderly taken

/-- Neither this state nor the one the thread goes to next is a deadlock. -/
def DeadlockFree (s : WalThreads) : Prop :=
  ¬s.Deadlocked ∧ ∀ t, s.step .sync = some t → ¬t.Deadlocked

theorem Orderly.deadlockFree (s : WalThreads) (orderly : s.Orderly) : s.DeadlockFree :=
  ⟨orderly.not_deadlocked,fun t taken =>
    Orderly.not_deadlocked t (stepSync_orderly s t orderly taken)⟩

/-- A join that `Init` begins while the thread is in its loop never returns: the thread is at
one of its two locks or comes to the second one. -/
theorem stopped_inside_deadlocks (s t : WalThreads) (move : Move) (orderly : s.Orderly)
    (inside : ¬s.StopsOutside move) (taken : s.step move = some t) : ¬t.DeadlockFree := by
  cases move with
  | begin request => exact absurd trivial inside
  | sync => exact absurd trivial inside
  | caller opens =>
    simp only [StopsOutside,Classical.not_imp,Bool.not_eq_false] at inside
    obtain ⟨atJoin,inLoop⟩ := inside
    obtain ⟨policy,position⟩ : ∃ policy, s.caller = .initStopped policy := by
      cases position : s.caller <;> simp [position,CallerPos.atJoin] at atJoin
      exact ⟨_,rfl⟩
    have held : s.mutex = some .caller := orderly.callerHolds.mpr (by rw [position]; rfl)
    have unheld : s.thread.holds = false := by
      refine Bool.eq_false_iff.mpr fun holds => ?_
      rw [orderly.syncHolds.mpr holds] at held
      cases held
    have present : s.thread ≠ .absent := by
      intro absent
      rw [absent] at inLoop
      cases inLoop
    simp only [step,stepCaller,position,present,↓reduceIte,Option.some.injEq] at taken
    subst taken
    rintro ⟨now,next⟩
    cases thread : s.thread <;> simp [thread,SyncPos.inLoop,SyncPos.holds] at inLoop unheld
    · exact now ⟨held,rfl,by simp [thread,SyncPos.waits]⟩
    · refine next { s with caller := .initJoining policy, thread := .lockingSync } ?_ ⟨held,rfl,rfl⟩
      simp [step,stepSync,thread]
    · exact now ⟨held,rfl,by simp [thread,SyncPos.waits]⟩

/-- Joining under the lock. However the calls and the thread interleave, the caller and
the thread block each other exactly when some `Init` begins its join while the thread is in
its loop. -/
theorem deadlock_free_iff (moves : List Move) (s : WalThreads)
    (ran : Machine.run step start moves = some s) :
    Machine.Throughout step DeadlockFree start moves ↔
      Machine.Guarded step StopsOutside start moves :=
  Machine.throughout_iff_guarded_of_run step StopsOutside Orderly DeadlockFree (fun _ => True)
    Orderly.deadlockFree (fun s move t orderly _ inside taken =>
      step_orderly s t move orderly inside taken)
    (fun s move t orderly _ inside taken => stopped_inside_deadlocks s t move orderly inside taken)
    start s moves start_orderly (fun _ _ => trivial) ran

/-- The first `Init`, whose thread has not tested `running_` yet, and a second `Init`. -/
def reopened : List Move :=
  .begin (.init .EVERYSEC) :: List.replicate 5 (.caller true) ++
    .begin (.init .EVERYSEC) :: List.replicate 4 (.caller true) ++
    .sync :: List.replicate 5 (.caller true)

theorem deadlock_free_reopened :
    (Machine.run step start reopened).isSome ∧
      Machine.Throughout step DeadlockFree start reopened :=
  ⟨by decide,(deadlock_free_iff reopened _ rfl).mpr (by decide)⟩

/-- The thread of the first `Init` sleeps; the second `Init` waits for it under the lock, and
the thread wakes up and wants the lock. -/
def reopenedAsleep : List Move :=
  .begin (.init .EVERYSEC) :: List.replicate 5 (.caller true) ++
    [.sync,.sync,.sync] ++ .begin (.init .EVERYSEC) :: List.replicate 4 (.caller true) ++ [.sync]

theorem reopened_asleep_deadlocks :
    ∃ s, Machine.run step start reopenedAsleep = some s ∧ s.Deadlocked ∧
      ∀ move, s.step move = none := by
  have deadlocked : Deadlocked
      ⟨some .caller,false,true,true,.EVERYSEC,.initJoining .EVERYSEC,.lockingSync⟩ := by decide
  exact ⟨_,by decide,deadlocked,deadlocked_stuck _ deadlocked⟩

end WalThreads

end KvCache
