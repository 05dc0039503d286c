import KvCache.CallOrder
import KvCache.CrashPoints

/-! The clients of a server that is killed and started again, any number of times. A kill comes
between two moves, or within the call to the store that a worker makes, after any of its steps on
the files. The calls it cuts off have no answer: the `false`, nothing or 0 that the client returns
for them when its connection ends is not one. -/
namespace KvCache

def Command.mutation? (cmd : Command) : Option Mutation :=
  match cmd.type, cmd.args with
  | .SET, key :: value :: _ => some (.set key value)
  | .DEL, key :: _ => some (.delete key)
  | _, _ => none

/-- The change that the next pass over the reader makes to the store. -/
def RespReader.mutation? (reader : RespReader) : Option Mutation :=
  match reader.tryParse with
  | .ok (.OK cmd) _ => cmd.mutation?
  | _ => none

theorem execute_store (env : Env) (cmd : Command) (store store' : PersistentKvStore)
    (response : Response) (ran : execute env cmd store = .ok response store') :
    match cmd.mutation? with
    | some m => m.run env store = .ok () store'
    | none => store' = store := by
  obtain ⟨type,args,error⟩ := cmd
  cases type with
  | SET =>
    cases args with
    | nil => simp [execute,stringAt] at ran
    | cons key args =>
    cases args with
    | nil => simp [execute,stringAt] at ran
    | cons value rest =>
      simp only [execute,stringAt,Act.bind_apply,List.getElem?_cons_zero,List.getElem?_cons_succ,
        Act.ofExcept_ok] at ran
      simp only [Command.mutation?,Mutation.run]
      split at ran
      next done => cases ran; exact done
      next => cases ran
  | DEL =>
    cases args with
    | nil => simp [execute,stringAt] at ran
    | cons key rest =>
      simp only [execute,stringAt,Act.bind_apply,List.getElem?_cons_zero,Act.ofExcept_ok] at ran
      simp only [Command.mutation?,Mutation.run,Act.bind_apply]
      split at ran
      next done => cases ran; rfl
      next => cases ran
  | GET =>
    cases args with
    | nil => simp [execute,stringAt] at ran
    | cons key rest =>
      simp only [execute,stringAt,Act.bind_apply,List.getElem?_cons_zero,Act.ofExcept_ok,
        Act.get_apply] at ran
      cases found : KvStore.get store.data key with
      | some value | none =>
        rw [found] at ran
        cases ran
        rfl
  | EXISTS =>
    cases args with
    | nil => simp [execute,stringAt] at ran
    | cons key rest =>
      simp only [execute,stringAt,Act.bind_apply,List.getElem?_cons_zero,Act.ofExcept_ok,
        Act.get_apply,Act.ite_apply] at ran
      split at ran
      all_goals
        cases ran
        rfl
  | KEYS | UNKNOWN =>
    simp only [execute,Act.bind_apply,Act.get_apply] at ran
    cases ran
    rfl

theorem Session.answer_store (env : Env) (session session' : Session) (reply : Option Bytes)
    (ran : Session.answer env session = .ok reply session') :
    match session.reader.mutation? with
    | some m => reply ≠ none ∧ m.run env session.store = .ok () session'.store
    | none => session'.store = session.store := by
  obtain ⟨reader,store⟩ := session
  simp only [answer,onReader,Act.bind_apply,Act.zoom] at ran
  simp only [RespReader.mutation?]
  cases parsed : reader.tryParse with
  | error e r =>
    rw [parsed] at ran
    cases ran
  | ok result r =>
    rw [parsed] at ran
    cases result with
    | PARTIAL | PROTOCOL_ERROR =>
      cases ran
      rfl
    | OK cmd =>
      by_cases unknown : cmd.type = .UNKNOWN
      · have none : cmd.mutation? = none := by simp [Command.mutation?,unknown]
        simp only [none]
        simp only [unknown,Act.ite_apply,if_true] at ran
        split at ran
        all_goals
          cases ran
          rfl
      · simp only [unknown,Act.ite_apply,if_false,onStore,Act.bind_apply,Act.zoom] at ran
        split at ran
        next response s' done =>
          cases ran
          split at done
          next response store' executed =>
            cases done
            have changed := execute_store env cmd store store' _ executed
            cases made : cmd.mutation? with
            | none => simpa [made] using changed
            | some m => simpa [made] using changed
          next => cases done
        next => cases ran

namespace Network

open Linearizability (Atomic Linearizable CallState)
open StoreFiles (Mirror)

variable {ω : Type} [DecidableEq ω]

def store (s : Network ω) : PersistentKvStore := s.reactor.server.store

def writes (s : Network ω) (w : ω) : Option Mutation :=
  match s.reactor.worker w with
  | .serving task _ => (s.reactor.server.reader task.connection.fd).mutation?
  | _ => none

inductive Occurrence (ω : Type) where
  | turn (turn : Turn ω)
  | kill (io : Io)
  | killWithin (w : ω) (env : Env) (after : Nat) (io : Io)

def lifeEvent (s : Network ω) : Occurrence ω → Option LifeEvent
  | .turn (.server (.pass w env)) => (s.writes w).map fun m => .call ⟨.mutation m,env⟩
  | .turn _ => none
  | .kill io => some (.kill (.ofOp .forceSnapshot) 0 io)
  | .killWithin w env after io => (s.writes w).map fun m => .kill ⟨.mutation m,env⟩ after io

/-- A new process on the files of the old one. Nothing of the connections is left. -/
def restart (s : Network ω) (store : PersistentKvStore) : Network ω :=
  { boot store with
    count := fun fd => if (s.call fd).isNone then s.count fd else s.count fd + 1
    history := s.history }

def occur (s : Network ω) : Occurrence ω → Option (Network ω)
  | .turn turn => step s turn
  | .kill io => do
    let store ← LifeEvent.step s.store (.kill (.ofOp .forceSnapshot) 0 io)
    return s.restart store
  | .killWithin w env after io => do
    let m ← s.writes w
    let store ← LifeEvent.step s.store (.kill ⟨.mutation m,env⟩ after io)
    return s.restart store

def Occurrence.Admitted : Occurrence ω → Prop
  | .turn move => move.Admitted
  | .kill io => io.Succeeds
  | .killWithin _ env _ io => env.io.Succeeds ∧ io.Succeeds

/-- The chunks of a connection are taken in turn, the keys can be counted, and what is written
can be recovered. -/
def Survives (s : Network ω) (o : Occurrence ω) : Prop :=
  (match o with
    | .turn turn => s.InTurn turn
    | .kill _ => True
    | .killWithin _ _ _ _ => s.Countable) ∧
  ∀ e ∈ s.lifeEvent o, e.op.Small ∧ e.Survivable s.store

section

variable {s s' : Network ω} {a : Atomic Fd ClientOp ClientReply PlainMap} {log : List Mutation}
  {map : PlainMap}

omit [DecidableEq ω] in
theorem Simulates.call_isNone (sim : s.Simulates a) (fd : Fd) :
    (s.call fd).isNone = (a.phase fd).isIdle := by
  obtain ⟨holder,held⟩ := s.reactor.heldBy_someone (s.reactor.current fd)
  have stage := sim.stages fd holder held
  unfold At at stage
  cases phase : a.phase fd with
  | idle =>
    rw [phase] at stage
    simp [stage.1,CallState.isIdle]
  | called op =>
    rw [phase] at stage
    simp [stage.1,CallState.isIdle]
  | committed op reply =>
    rw [phase] at stage
    obtain ⟨_,_,_,_,_,_,_,_,_,call,_⟩ := stage
    simp [call,CallState.isIdle]

omit [DecidableEq ω] in
theorem Simulates.restart (sim : s.Simulates a) (store : PersistentKvStore)
    (holds : Holds store map) (short : ShortValues map) :
    (s.restart store).Simulates ⟨map,fun _ => .idle,
      fun fd => if (a.phase fd).isIdle then a.count fd else a.count fd + 1,a.history⟩ := by
  have fresh : (boot store : Network ω).Simulates (.start map) := simulates_boot store map holds short
  refine { fresh with history := sim.history, count := ?_ }
  funext fd
  simp only [Network.restart,sim.call_isNone fd,sim.count]

theorem took_store {r r' : Reactor ω} {event : Reactor.Event ω} (took : Reactor.Took r event r')
    (other : ∀ w env, event ≠ .pass w env) : r'.server.store = r.server.store := by
  cases took with
  | answered w env | waits w env | threw w env => exact absurd rfl (other w env)
  | accept | data | close | pop | enter | send => rfl

theorem step_store (turn : Turn ω) (taken : step s turn = some s')
    (other : ∀ w env, turn ≠ .server (.pass w env)) : s'.store = s.store := by
  rcases server_of_step turn taken with same | ⟨event,rfl,took⟩
  · rw [store,same,store]
  · exact took_store took fun w env same => other w env (by rw [same])

omit [DecidableEq ω] in
theorem Simulates.next_answer (sim : s.Simulates a) (w : ω) (task : Task) (result : List Bytes)
    (serving : s.reactor.worker w = .serving task result) (env : Env) (succeeds : env.io.Succeeds)
    (few : s.Countable) :
    let session := s.reactor.server.session task.connection.fd
    Session.answer env session = .ok none session ∨
      ∃ fd op bytes session', a.phase fd = .called op ∧ op.command.WellFormed ∧
        Session.answer env session = .ok (some bytes) session' ∧
        Holds session'.store (op.answer a.state).2 := by
  obtain ⟨fd,named,-,stage,-,-⟩ := sim.holder w _ task serving rfl
  rw [(congrArg Connection.fd named : task.connection.fd = fd)]
  rcases stage.answer (sim.filled_for _) sim.holds sim.short (sim.countable few) env succeeds
    with ⟨waits,-⟩ | ⟨op,store,calling,wellFormed,-,answers,holds,-⟩
  · exact .inl waits
  · exact .inr ⟨fd,op,_,_,calling,wellFormed,answers,op.plainAnswer_map a.state ▸ holds⟩

theorem Simulates.pass_store (sim : s.Simulates a) (w : ω) (env : Env) (succeeds : env.io.Succeeds)
    (few : s.Countable) (taken : Network.step s (.server (.pass w env)) = some s') :
    match s.writes w with
    | some m => m.run env s.store = .ok () s'.store
    | none => s'.store = s.store := by
  obtain ⟨r,ran,rfl⟩ := Option.map_eq_some_iff.mp taken
  cases Reactor.took_of_step _ _ _ ran with
  | answered w env task result bytes session serving answered =>
    have changed := Session.answer_store env _ _ _ answered
    simp only [writes,serving]
    cases made : (s.reactor.server.reader task.connection.fd).mutation? with
    | none =>
      simp only [KvServer.session,made] at changed
      exact changed
    | some m =>
      simp only [KvServer.session,made] at changed
      exact changed.2
  | waits w env task result session serving waited =>
    have changed := Session.answer_store env _ _ _ waited
    simp only [writes,serving]
    cases made : (s.reactor.server.reader task.connection.fd).mutation? with
    | none =>
      simp only [KvServer.session,made] at changed
      exact changed
    | some m => simp [KvServer.session,made] at changed
  | threw w env task result fault session serving threw =>
    rcases sim.next_answer w task result serving env succeeds few with
      waits | ⟨_,_,_,_,_,_,answers,_⟩
    · cases threw.symm.trans waits
    · cases threw.symm.trans answers

omit [DecidableEq ω] in
/-- A pass writes as the operation of the store does, and the files go on holding the map. -/
theorem mirror_ran (mirror : Mirror s.store log map) (m : Mutation) (env : Env)
    (succeeds : env.io.Succeeds) (small : m.Small)
    (survivable : (LifeEvent.call ⟨.mutation m,env⟩).Survivable s.store) (store : PersistentKvStore)
    (ran : m.run env s.store = .ok () store) :
    ∃ log, Mirror store log (Update.apply map m.update) := by
  obtain ⟨store',taken,mirrored⟩ := LifeEvent.mirror_step mirror (.call ⟨.mutation m,env⟩)
    ⟨succeeds,by simpa [LifeEvent.op,StoreOp.Small,StoreOp.mutations] using small⟩ survivable
  have same : some store = some store' :=
    (StoreCall.step_of_run ⟨.mutation m,env⟩ s.store store ran).symm.trans taken
  cases same
  exact ⟨_,mirrored⟩

omit [DecidableEq ω] in
theorem Simulates.writes_called (sim : s.Simulates a) (w : ω) (m : Mutation)
    (writing : s.writes w = some m) (env : Env) (succeeds : env.io.Succeeds) (few : s.Countable)
    (ready : ∃ content, s.store.wal.Ready content) :
    ∃ fd op, a.phase fd = .called op ∧ op.command.WellFormed ∧
      (op.answer a.state).2 = Update.apply a.state m.update := by
  cases serving : s.reactor.worker w with
  | idle | popped _ | replying _ _ => simp [writes,serving] at writing
  | serving task result =>
    simp only [writes,serving] at writing
    rcases sim.next_answer w task result serving env succeeds few with
      waits | ⟨fd,op,bytes,session,called,wellFormed,answers,holds⟩
    · have changed := Session.answer_store env _ _ _ waits
      simp [KvServer.session,writing] at changed
    · have changed := Session.answer_store env _ _ _ answers
      simp only [KvServer.session,writing] at changed
      obtain ⟨content,ready⟩ := ready
      obtain ⟨store,taken,data,-⟩ := StoreCall.step_ready ⟨.mutation m,env⟩ succeeds s.store content ready
      have same : some session.store = some store :=
        (StoreCall.step_of_run ⟨.mutation m,env⟩ s.store _ changed.2).symm.trans taken
      cases same
      refine ⟨fd,op,called,wellFormed,?_⟩
      rw [← holds.map,data,StoreOp.applyTo,Mutation.applyTo_toFinmap]
      exact congrArg (Update.apply · m.update) sim.holds.map

/-- The clients' calls as those of one map, and the map on the disk. -/
def Durable (s : Network ω) (a : Atomic Fd ClientOp ClientReply PlainMap) : Prop :=
  s.Simulates a ∧ ∃ log, Mirror s.store log a.state

theorem Durable.turn (durable : s.Durable a) (turn : Turn ω) (admitted : turn.Admitted)
    (survives : s.Survives (.turn turn)) (taken : step s turn = some s') :
    ∃ moves a', Machine.run (Atomic.step ClientOp.answer) a moves = some a' ∧ s'.Durable a' := by
  obtain ⟨sim,log,mirror⟩ := durable
  obtain ⟨inTurn,safe⟩ := survives
  obtain ⟨moves,a',moved,sim'⟩ := sim.step turn s' admitted inTurn taken
  refine ⟨moves,a',moved,sim',?_⟩
  have kept (same : s'.store = s.store) : ∃ log, Mirror s'.store log a'.state := by
    have map : a.state = a'.state := by
      rw [← sim.holds.map,← sim'.holds.map]
      exact congrArg (fun store => store.data.toFinmap) same.symm
    exact ⟨log,same ▸ map ▸ mirror⟩
  by_cases passes : ∃ w env, turn = .server (.pass w env)
  · obtain ⟨w,env,rfl⟩ := passes
    have changed := sim.pass_store w env admitted inTurn taken
    cases writing : s.writes w with
    | none =>
      rw [writing] at changed
      exact kept changed
    | some m =>
      rw [writing] at changed
      obtain ⟨small,survivable⟩ := safe (.call ⟨.mutation m,env⟩) (by simp [lifeEvent,writing])
      obtain ⟨log',mirrored⟩ := mirror_ran mirror m env admitted
        (small m (by simp [LifeEvent.op,StoreOp.mutations])) survivable _ changed
      have map : Update.apply a.state m.update = a'.state := by
        rw [← mirrored.current,← sim'.holds.map]
        rfl
      exact ⟨log',map ▸ mirrored⟩
  · exact kept (step_store turn taken fun w env same => passes ⟨w,env,same⟩)

omit [DecidableEq ω] in
theorem Durable.restart (durable : s.Durable a) (store : PersistentKvStore)
    (mirror : Mirror store log map) (short : ShortValues map) :
    (s.restart store).Durable ⟨map,fun _ => .idle,
      fun fd => if (a.phase fd).isIdle then a.count fd else a.count fd + 1,a.history⟩ :=
  ⟨durable.1.restart store ⟨⟨_,mirror.ready⟩,mirror.current⟩ short,log,mirror⟩

theorem Durable.kill (durable : s.Durable a) (io : Io) (succeeds : io.Succeeds)
    (survives : s.Survives (.kill io)) (taken : s.occur (.kill io) = some s') :
    ∃ moves a', Machine.run (Atomic.step ClientOp.answer) a moves = some a' ∧ s'.Durable a' := by
  obtain ⟨log,mirror⟩ := durable.2
  obtain ⟨small,survivable⟩ := survives.2 _ rfl
  obtain ⟨store,recovered,mirrored⟩ :=
    LifeEvent.mirror_step mirror (.kill (.ofOp .forceSnapshot) 0 io)
      ⟨⟨Io.faultless_succeeds,succeeds⟩,small⟩ survivable
  have restarted : s.occur (.kill io) = some (s.restart store) := by simp [occur,recovered]
  cases taken.symm.trans restarted
  refine ⟨[.crash],_,rfl,durable.restart store mirrored ?_⟩
  simpa [LifeEvent.kept,StoreCall.keptUpTo,StoreCall.ofOp,StoreOp.mutations] using durable.1.short

theorem Durable.killWithin (durable : s.Durable a) (w : ω) (env : Env) (after : Nat) (io : Io)
    (succeeds : env.io.Succeeds) (reopens : io.Succeeds)
    (survives : s.Survives (.killWithin w env after io))
    (taken : s.occur (.killWithin w env after io) = some s') :
    ∃ moves a', Machine.run (Atomic.step ClientOp.answer) a moves = some a' ∧ s'.Durable a' := by
  obtain ⟨sim,log,mirror⟩ := durable
  obtain ⟨few,safe⟩ := survives
  cases writing : s.writes w with
  | none => simp [occur,writing] at taken
  | some m =>
    obtain ⟨small,survivable⟩ := safe (.kill ⟨.mutation m,env⟩ after io) (by simp [lifeEvent,writing])
    obtain ⟨store,recovered,mirrored⟩ :=
      LifeEvent.mirror_step mirror (.kill ⟨.mutation m,env⟩ after io)
        ⟨⟨succeeds,reopens⟩,small⟩ survivable
    have restarted : s.occur (.killWithin w env after io) = some (s.restart store) := by
      simp [occur,writing,recovered]
    cases taken.symm.trans restarted
    obtain ⟨fd,op,called,wellFormed,map⟩ := sim.writes_called w m writing env succeeds few
      ⟨_,mirror.ready⟩
    by_cases written : (StoreCall.record ⟨.mutation m,env⟩).length ≤ after
    · -- the call has taken effect, although its client never hears of it
      rw [LifeEvent.kept,StoreCall.keptUpTo,if_pos written] at mirrored
      have same : Update.replay a.state ([m].map Mutation.update) = (op.answer a.state).2 := map.symm
      rw [StoreOp.mutations,same] at mirrored
      exact ⟨[.commit fd,.crash],_,Atomic.run_commit_crash ClientOp.answer a fd op called,
        Durable.restart ⟨sim,log,mirror⟩ store mirrored (op.answer_short _ sim.short wellFormed)⟩
    · rw [LifeEvent.kept,StoreCall.keptUpTo,if_neg written] at mirrored
      exact ⟨[.crash],_,rfl,Durable.restart ⟨sim,log,mirror⟩ store mirrored sim.short⟩

theorem Durable.occur (durable : s.Durable a) (o : Occurrence ω) (admitted : o.Admitted)
    (survives : s.Survives o) (taken : s.occur o = some s') :
    ∃ moves a', Machine.run (Atomic.step ClientOp.answer) a moves = some a' ∧ s'.Durable a' := by
  cases o with
  | turn turn => exact durable.turn turn admitted survives taken
  | kill io => exact durable.kill io admitted survives taken
  | killWithin w env after io =>
    exact durable.killWithin w env after io admitted.1 admitted.2 survives taken

end

instance (op : StoreOp) : Decidable op.Small :=
  inferInstanceAs (Decidable (∀ m ∈ op.mutations, m.record.Small))

instance [Fintype ω] (s : Network ω) : (o : Occurrence ω) → Decidable (s.Survives o)
  | .turn turn => inferInstanceAs (Decidable (s.InTurn turn ∧ ∀ e ∈ s.lifeEvent (.turn turn), _))
  | .kill io => inferInstanceAs (Decidable (True ∧ ∀ e ∈ s.lifeEvent (.kill io), _))
  | .killWithin w env after io =>
    inferInstanceAs (Decidable (_ < _ ∧ ∀ e ∈ s.lifeEvent (.killWithin w env after io), _))

end Network

end KvCache
