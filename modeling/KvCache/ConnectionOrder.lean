import KvCache.ConnectionIsolation

/-! The order of a connection's bytes through the pool. Tasks are popped in the order of
their chunks, but a worker feeds its chunk, and sends its replies, some time after the pop:
the order is kept as long as a connection's next task is popped only after the last one has
been sent. -/
namespace KvCache

/-- All replies of the connection alone are sent, or with the callback that is under way. -/
def Lossless (visits : List Visit) : Prop :=
  ∃ solo, Machine.run Solo.step .fresh visits = some solo ∧
    (isolated visits).2.flatten = solo.sent ++ (solo.callback.getD []).flatten

theorem Lossless.feed {visits : List Visit} (lossless : Lossless visits) (data : Bytes)
    (between : ∀ solo, Machine.run Solo.step .fresh visits = some solo → solo.callback = none) :
    Lossless (visits ++ [.feed data]) := by
  obtain ⟨solo,ran,kept⟩ := lossless
  have outside := between solo ran
  refine ⟨solo.feed data,Machine.run_append _ _ _ _ _ _ ran ?_,?_⟩
  · simp [Machine.run_singleton,Solo.step,outside]
  · simpa [isolated_append,isolatedStep,Solo.feed,outside] using kept

theorem Lossless.pass {visits : List Visit} (lossless : Lossless visits) (store : PersistentKvStore)
    (env : Env) (result : List Bytes)
    (inside : ∀ solo, Machine.run Solo.step .fresh visits = some solo → solo.callback = some result)
    (returns : Act.returns (Session.answer env ⟨(isolated visits).1,store⟩) = true) :
    Lossless (visits ++ [.pass store env]) := by
  obtain ⟨solo,ran,kept⟩ := lossless
  have callback := inside solo ran
  have reader : solo.reader = (isolated visits).1 := Solo.reader_of_run .fresh solo visits [] ran
  refine ⟨solo.pass result store env,Machine.run_append _ _ _ _ _ _ ran ?_,?_⟩
  · simp [Machine.run_singleton,Solo.step,callback]
  · rw [isolated_append,isolatedStep,Solo.pass,reader]
    simp only [callback,Option.getD_some] at kept
    split
    next bytes session ran => simp [kept]
    next session ran => simp [kept]
    next fault session ran => simp [ran,Act.returns] at returns

namespace Reactor

variable {ω : Type} [DecidableEq ω]

/-- No callback is left by an exception. -/
def Returns (s : Reactor ω) : Event ω → Prop
  | .pass w env => ∀ task ∈ (s.worker w).task,
      Act.returns (Session.answer env (s.server.session task.connection.fd)) = true
  | _ => True

def TakesTurns (s : Reactor ω) (event : Event ω) : Prop := s.KeepsApart event ∧ s.Returns event

instance (s : Reactor ω) : (event : Event ω) → Decidable (s.Returns event)
  | .pass w env => inferInstanceAs (Decidable (∀ task ∈ (s.worker w).task,
      Act.returns (Session.answer env (s.server.session task.connection.fd)) = true))
  | .accept _ | .data _ _ | .close _ | .pop _ | .enter _ | .send _ _ => .isTrue trivial

instance [Fintype ω] (s : Reactor ω) (event : Event ω) : Decidable (s.TakesTurns event) :=
  inferInstanceAs (Decidable (_ ∧ _))

/-- Connections are kept apart, and no reply is lost with an exception. -/
structure Orderly (s : Reactor ω) : Prop where
  inTurn : s.InTurn
  lossless : ∀ c, Lossless (s.visits c)

omit [DecidableEq ω] in
theorem InTurn.callback {s : Reactor ω} (inTurn : s.InTurn) {w : ω} {task : Task}
    (has : (s.worker w).task = some task) {solo : Solo}
    (ran : Machine.run Solo.step .fresh (s.visits task.connection) = some solo) :
    solo.callback = (s.worker w).callback := by
  have on : (s.worker w).IsOn task.connection := by simp [Worker.IsOn,has]
  obtain ⟨-,solo',ran',follows⟩ := inTurn.balanced _ _ (.inl ⟨w,rfl,on⟩)
  cases ran.symm.trans ran'
  exact follows.callback

omit [DecidableEq ω] in
theorem Orderly.visited {s : Reactor ω} (orderly : s.Orderly) (c : Connection) (v : Visit)
    (lossless : Lossless (s.visits c ++ [v])) (d : Connection) :
    Lossless (Function.update s.visits c (s.visits c ++ [v]) d) := by
  by_cases same : d = c
  · subst same
    simpa using lossless
  · simpa [same] using orderly.lossless d

theorem Took.orderly {s s' : Reactor ω} {event : Event ω} (took : Took s event s')
    (turns : s.TakesTurns event) (orderly : s.Orderly) : s'.Orderly := by
  have inTurn := orderly.inTurn
  refine ⟨took.inTurn turns.1 inTurn,?_⟩
  -- a pass of a worker on its connection
  have passed (w : ω) (env : Env) (task : Task) (result : List Bytes)
      (serving : s.worker w = .serving task result) (returns : s.Returns (.pass w env)) :
      Lossless (s.visits task.connection ++ [.pass s.server.store env]) := by
    have has : (s.worker w).task = some task := by rw [serving]; rfl
    apply (orderly.lossless _).pass _ _ result
    · intro solo ran
      rw [inTurn.callback has ran,serving]
      rfl
    · have returned := returns task has
      rwa [KvServer.session,inTurn.faithful.readers,← inTurn.owned task (.inr ⟨w,has⟩)] at returned
  cases took with
  | accept fd closed => exact orderly.lossless
  | data fd bytes isOpen => exact orderly.lossless
  | close fd => exact orderly.lossless
  | pop w task tasks idle front => exact orderly.lossless
  | enter w task popped free =>
    apply orderly.visited
    apply (orderly.lossless _).feed
    intro solo ran
    rw [inTurn.callback (by rw [popped]; rfl) ran,popped]
    rfl
  | answered w env task result bytes session serving ran =>
    exact orderly.visited _ _ (passed w env task result serving turns.2)
  | waits w env task result session serving ran =>
    exact orderly.visited _ _ (passed w env task result serving turns.2)
  | threw w env task result fault session serving ran =>
    exact orderly.visited _ _ (passed w env task result serving turns.2)
  | send w room task result replying => exact orderly.lossless

omit [DecidableEq ω] in
theorem Orderly.front {s : Reactor ω} (orderly : s.Orderly) (c : Connection) :
    fedTo (s.visits c) <+: s.received c ∧ s.sentTo c <+: (isolated (s.visits c)).2.flatten := by
  obtain ⟨holder,held⟩ := s.heldBy_someone c
  obtain ⟨chunks,solo,ran,follows⟩ := orderly.inTurn.balanced c holder held
  obtain ⟨solo',ran',kept⟩ := orderly.lossless c
  cases ran.symm.trans ran'
  constructor
  · refine ⟨holder.unfed ++ s.queuedFor c,?_⟩
    rw [← List.append_assoc]
    exact chunks.symm
  · rw [kept]
    exact follows.front.trans (List.prefix_append ..)

end Reactor

end KvCache
