import KvCache.ConcurrentStore
import KvCache.Linearizability

/-! The calls that threads make on one `PersistentKvStore`. Readers hold the shared lock while they
look at the map; a mutation logs, changes the map, counts and perhaps dumps in separate critical
sections, and other threads work in between. Whatever the sections do to the files, and whichever
calls throw, in memory each call is one step. -/
namespace KvCache

open Linearizability (Event CallState Atomic Linearizable)

inductive StoreRequest where
  | mutate (m : Mutation)
  | get (key : Bytes)
  | existsKey (key : Bytes)
  | allKeys
  | size
  | forceSnapshot
  deriving DecidableEq, Repr

/-- What they return; the order of `AllKeys` is that of the hash table and is left open. -/
inductive StoreReply where
  | done
  | flag (yes : Bool)
  | value (found : Option Bytes)
  | keys (all : Finset Bytes)
  | size (n : Nat)
  deriving DecidableEq

namespace StoreRequest

/-- What the call returns when it looks at the map, by the source's own functions. -/
def reply (data : KvMap) : StoreRequest → StoreReply
  | mutate (.set _ _) => .done
  | mutate (.delete key) => .flag (KvStore.delete data key).1
  | get key => .value (KvStore.get data key)
  | existsKey key => .flag (KvStore.existsKey data key)
  | allKeys => .keys (KvStore.allKeys data).toFinset
  | size => .size (KvStore.size data)
  | forceSnapshot => .done

def answer (map : PlainMap) : StoreRequest → StoreReply × PlainMap
  | mutate (.set key value) => (.done,map.insert key value)
  | mutate (.delete key) => (.flag (decide (key ∈ map)),map.erase key)
  | get key => (.value (map.lookup key),map)
  | existsKey key => (.flag (decide (key ∈ map)),map)
  | allKeys => (.keys map.keys,map)
  | size => (.size map.keys.card,map)
  | forceSnapshot => (.done,map)

def isRead : StoreRequest → Bool
  | get _ | existsKey _ | allKeys | size => true
  | mutate _ | forceSnapshot => false

theorem reply_eq (data : KvMap) (request : StoreRequest) :
    request.reply data = (request.answer data.toFinmap).1 := by
  have present (key : Bytes) : (data.lookup key).isSome = decide (key ∈ data.toFinmap) := by
    rw [Bool.eq_iff_iff,decide_eq_true_iff,← Finmap.lookup_isSome,KvStore.toFinmap_lookup]
  cases request with
  | mutate m =>
    cases m with
    | set key value => rfl
    | delete key => exact congrArg StoreReply.flag (present key)
  | get key => exact congrArg StoreReply.value (KvStore.toFinmap_lookup data key).symm
  | existsKey key => exact congrArg StoreReply.flag (present key)
  | allKeys =>
    apply congrArg StoreReply.keys
    ext key
    simp [KvStore.allKeys,Finmap.mem_keys,AList.mem_keys]
  | size =>
    apply congrArg StoreReply.size
    simp [KvStore.size,Finmap.keys,List.keys]
  | forceSnapshot => rfl

theorem mutate_answer (data : KvMap) (m : Mutation) :
    (m.applyTo data).toFinmap = ((mutate m).answer data.toFinmap).2 := by
  cases m with
  | set key value => exact (Finmap.insert_toFinmap key value data).symm
  | delete key => exact (Finmap.erase_toFinmap key data).symm

theorem answer_kept (map : PlainMap) (request : StoreRequest) (other : ∀ m, request ≠ .mutate m) :
    (request.answer map).2 = map := by
  cases request with
  | mutate m => exact absurd rfl (other m)
  | get _ | existsKey _ | allKeys | size | forceSnapshot => rfl

end StoreRequest

/-- The store with its threads. A thread whose call has thrown is done; if its caller goes on, it
does so as another thread. -/
structure StoreThreads (τ : Type) where
  core : ConcurrentStore τ
  call : τ → Option StoreRequest
  /-- What the call is going to return, once it has looked at the map. -/
  result : τ → Option StoreReply
  thrown : τ → Bool
  count : τ → Nat
  history : List (Event (τ × Nat) StoreRequest StoreReply)

namespace StoreThreads

variable {τ : Type} [DecidableEq τ]

def start (store : PersistentKvStore) : StoreThreads τ :=
  ⟨⟨store,fun _ => .idle,[],[]⟩,fun _ => none,fun _ => none,fun _ => false,fun _ => 0,[]⟩

inductive Turn (τ : Type) where
  | call (t : τ) (request : StoreRequest)
  | runs (t : τ) (sec : ConcurrentStore.Section)
  | read (t : τ)
  | snapshot (t : τ) (env : Env)
  | throws (t : τ) (env : Env)
  | ret (t : τ)

def setResult (s : StoreThreads τ) (t : τ) (reply : StoreReply) : StoreThreads τ :=
  { s with result := Function.update s.result t (some reply) }

def throwing (s : StoreThreads τ) (t : τ) (store : PersistentKvStore) : StoreThreads τ :=
  { s with core := { s.core with store := store }, thrown := Function.update s.thrown t true }

/-- A section of a mutation; its `update` fixes what the call returns. -/
def runSection (s : StoreThreads τ) (t : τ) (m : Mutation) (sec : ConcurrentStore.Section) :
    Option (StoreThreads τ) :=
  match sec, s.result t with
  | .append m' io, none =>
    if m' = m then (ConcurrentStore.step s.core (t,.append m' io)).map fun core => { s with core := core }
    else none
  | .update, none =>
    (ConcurrentStore.step s.core (t,.update)).map fun core =>
      { s with core := core }.setResult t ((StoreRequest.mutate m).reply s.core.store.data)
  | .ret, _ => none
  | sec, some _ => (ConcurrentStore.step s.core (t,sec)).map fun core => { s with core := core }
  | _, _ => none

/-- The section of a call that throws. -/
def runThrowing (s : StoreThreads τ) (t : τ) (env : Env) : Option (StoreThreads τ) :=
  match s.call t, s.core.phase t, s.result t with
  | some (.mutate m), .idle, none =>
    match PersistentKvStore.onWal (Wal.append env.io.wal m.record) s.core.store with
    | .error _ store => some (s.throwing t store)
    | .ok _ _ => none
  | some (.mutate _), .triggered _, some _ | some .forceSnapshot, .idle, none =>
    match PersistentKvStore.createSnapshot env s.core.store with
    | .error _ store => some (s.throwing t store)
    | .ok _ _ => none
  | _, _, _ => none

def respond (s : StoreThreads τ) (t : τ) (reply : StoreReply) : StoreThreads τ :=
  { s with
    call := Function.update s.call t none
    result := Function.update s.result t none
    count := Function.update s.count t (s.count t + 1)
    history := s.history ++ [.respond (t,s.count t) reply] }

def step (s : StoreThreads τ) : Turn τ → Option (StoreThreads τ)
  | .call t request =>
    if s.call t = none then
      some { s with call := Function.update s.call t (some request)
                    history := s.history ++ [.invoke (t,s.count t) request] }
    else none
  | .runs t sec =>
    match s.thrown t, s.call t with
    | false, some (.mutate m) => s.runSection t m sec
    | _, _ => none
  | .read t =>
    match s.call t, s.result t with
    | some request, none =>
      if request.isRead then some (s.setResult t (request.reply s.core.store.data)) else none
    | _, _ => none
  | .snapshot t env =>
    match s.thrown t, s.call t, s.result t with
    | false, some .forceSnapshot, none =>
      (Act.final (PersistentKvStore.forceSnapshot env s.core.store)).map fun store =>
        { s with core := { s.core with store := store } }.setResult t .done
    | _, _, _ => none
  | .throws t env => if s.thrown t then none else s.runThrowing t env
  | .ret t =>
    match s.thrown t, s.call t, s.result t with
    | false, some (.mutate _), some reply =>
      (ConcurrentStore.step s.core (t,.ret)).map fun core => { s with core := core }.respond t reply
    | false, some _, some reply => some (s.respond t reply)
    | _, _, _ => none

def Stage (call : Option StoreRequest) (result : Option StoreReply) (phase : Phase) :
    CallState StoreRequest StoreReply → Prop
  | .idle => call = none ∧ result = none ∧ phase = .idle
  | .called request => call = some request ∧ result = none ∧
      (phase = .idle ∨ ∃ m, request = .mutate m ∧ phase = .appended m)
  | .committed request reply => call = some request ∧ result = some reply ∧
      (phase = .idle ∧ (∀ m, request ≠ .mutate m) ∨
        ∃ m, request = .mutate m ∧ phase.call = some m ∧ phase.pastUpdate = true)

section Stages

variable {request : StoreRequest} {phase : Phase} {caller : CallState StoreRequest StoreReply}

theorem Stage.pending (stage : Stage (some request) none phase caller) :
    caller = .called request ∧ (phase = .idle ∨ ∃ m, request = .mutate m ∧ phase = .appended m) := by
  cases caller with
  | idle => cases stage.1
  | committed other reply => cases stage.2.1
  | called other =>
    obtain ⟨same,-,own⟩ := stage
    cases same
    exact ⟨rfl,own⟩

theorem Stage.decided {reply : StoreReply} (stage : Stage (some request) (some reply) phase caller) :
    caller = .committed request reply ∧ (phase = .idle ∧ (∀ m, request ≠ .mutate m) ∨
      ∃ m, request = .mutate m ∧ phase.call = some m ∧ phase.pastUpdate = true) := by
  cases caller with
  | idle => cases stage.1
  | called other => cases stage.2.1
  | committed other answer =>
    obtain ⟨same,given,own⟩ := stage
    cases same
    cases given
    exact ⟨rfl,own⟩

theorem Stage.outside {result : Option StoreReply} (stage : Stage none result phase caller) :
    caller = .idle ∧ result = none ∧ phase = .idle := by
  cases caller with
  | idle => exact ⟨rfl,stage.2⟩
  | called other => cases stage.1
  | committed other reply => cases stage.1

end Stages

structure Simulates (s : StoreThreads τ) (a : Atomic τ StoreRequest StoreReply PlainMap) : Prop where
  history : s.history = a.history
  count : s.count = a.count
  state : s.core.store.data.toFinmap = a.state
  threads : ∀ t, Stage (s.call t) (s.result t) (s.core.phase t) (a.phase t)

omit [DecidableEq τ] in
theorem simulates_start (store : PersistentKvStore) :
    (start store : StoreThreads τ).Simulates (.start store.data.toFinmap) :=
  ⟨rfl,rfl,rfl,fun _ => ⟨rfl,rfl,rfl⟩⟩

section Moves

variable {s s' : StoreThreads τ} {a a' : Atomic τ StoreRequest StoreReply PlainMap} {t : τ}

omit [DecidableEq τ] in
theorem Simulates.move (sim : s.Simulates a) (t : τ) (history : s'.history = a'.history)
    (count : s'.count = a'.count) (state : s'.core.store.data.toFinmap = a'.state)
    (call : ∀ u, u ≠ t → s'.call u = s.call u) (result : ∀ u, u ≠ t → s'.result u = s.result u)
    (phase : ∀ u, u ≠ t → s'.core.phase u = s.core.phase u)
    (callers : ∀ u, u ≠ t → a'.phase u = a.phase u)
    (own : Stage (s'.call t) (s'.result t) (s'.core.phase t) (a'.phase t)) : s'.Simulates a' := by
  refine ⟨history,count,state,fun u => ?_⟩
  by_cases same : u = t
  · subst same
    exact own
  · rw [call u same,result u same,phase u same,callers u same]
    exact sim.threads u

omit [DecidableEq τ] in
theorem Simulates.store (sim : s.Simulates a) (store : PersistentKvStore) (thrown : τ → Bool)
    (data : store.data = s.core.store.data) :
    Simulates { s with core := { s.core with store := store }, thrown := thrown } a :=
  ⟨sim.history,sim.count,by rw [← sim.state,← data],sim.threads⟩

theorem Simulates.commit (sim : s.Simulates a) (t : τ) (request : StoreRequest)
    (called : a.phase t = .called request) (history : s'.history = s.history)
    (count : s'.count = s.count) (call : s'.call = s.call)
    (result : s'.result = Function.update s.result t (some (request.reply s.core.store.data)))
    (phase : ∀ u, u ≠ t → s'.core.phase u = s.core.phase u)
    (state : s'.core.store.data.toFinmap = (request.answer a.state).2)
    (own : s'.core.phase t = .idle ∧ (∀ m, request ≠ .mutate m) ∨
      ∃ m, request = .mutate m ∧ (s'.core.phase t).call = some m ∧
        (s'.core.phase t).pastUpdate = true) :
    ∃ moves a', Machine.run (Atomic.step StoreRequest.answer) a moves = some a' ∧ s'.Simulates a' := by
  have stage := sim.threads t
  rw [called] at stage
  have replied : request.reply s.core.store.data = (request.answer a.state).1 := by
    rw [request.reply_eq,sim.state]
  refine ⟨[.commit t],{ a with state := (request.answer a.state).2
                               phase := Function.update a.phase t
                                 (.committed request (request.answer a.state).1) },
    by simp [Machine.run_singleton,Atomic.step,called],?_⟩
  refine sim.move t (history.trans sim.history) (count.trans sim.count) state (fun u _ => by rw [call])
    (fun u other => by rw [result,Function.update_of_ne other]) phase
    (fun u other => Function.update_of_ne other _ _) ?_
  simp only [Function.update_self]
  refine ⟨by rw [call]; exact stage.1,?_,own⟩
  rw [result,Function.update_self,replied]

/-- A section that is not the update changes the map for nobody. -/
theorem Simulates.quiet (sim : s.Simulates a) (t : τ) (sec : ConcurrentStore.Section)
    (core : ConcurrentStore τ) (took : ConcurrentStore.Took s.core t sec core)
    (noUpdate : ∀ m, s.core.phase t = .appended m → False)
    (own : Stage (s.call t) (s.result t) (core.phase t) (a.phase t)) :
    Simulates { s with core := core } a := by
  obtain ⟨next,phases,-⟩ := took.phases
  refine sim.move t sim.history sim.count ?_ (fun _ _ => rfl) (fun _ _ => rfl) (fun u other => ?_)
    (fun _ _ => rfl) own
  · rw [← sim.state]
    exact congrArg AList.toFinmap (took.data.2 fun m same => noUpdate m same)
  · simp only [phases,Function.update_of_ne other]

omit [DecidableEq τ] in
theorem Simulates.past (sim : s.Simulates a) (t : τ) (m : Mutation) (reply : StoreReply)
    (calling : s.call t = some (.mutate m)) (result : s.result t = some reply) :
    a.phase t = .committed (.mutate m) reply ∧ (s.core.phase t).call = some m ∧
      (s.core.phase t).pastUpdate = true := by
  have stage := sim.threads t
  rw [calling,result] at stage
  obtain ⟨committed,own⟩ := stage.decided
  obtain ⟨m',same,inCall,past⟩ := own.resolve_left fun other => other.2 m rfl
  cases same
  exact ⟨committed,inCall,past⟩

theorem Simulates.behind (sim : s.Simulates a) (t : τ) (m : Mutation) (reply : StoreReply)
    (calling : s.call t = some (.mutate m)) (result : s.result t = some reply)
    {sec : ConcurrentStore.Section} {core : ConcurrentStore τ}
    (took : ConcurrentStore.Took s.core t sec core) (stays : sec ≠ .ret) :
    Simulates { s with core := core } a := by
  obtain ⟨committed,inCall,past⟩ := sim.past t m reply calling result
  have goesOn : (core.phase t).call = (s.core.phase t).call ∧ (core.phase t).pastUpdate = true := by
    cases took with
    | append m' io store phase ran => simp [phase,Phase.pastUpdate] at past
    | update m' phase => simp [phase,Phase.pastUpdate] at past
    | count m' now phase => simp [ConcurrentStore.moveTo,phase,Phase.call,Phase.pastUpdate]
    | checkInterval m' reached phase =>
      simp [ConcurrentStore.moveTo,phase,Phase.call,Phase.pastUpdate]
    | checkBurst m' now reached next phase decided =>
      rcases decided with rfl | rfl
      all_goals simp [ConcurrentStore.moveTo,phase,Phase.call,Phase.pastUpdate]
    | snapshot m' env store phase ran =>
      simp [ConcurrentStore.moveTo,phase,Phase.call,Phase.pastUpdate]
    | ret m' phase => exact absurd rfl stays
  apply sim.quiet t sec core took
  · intro m' appended
    simp [appended,Phase.pastUpdate] at past
  · rw [calling,result,committed]
    exact ⟨rfl,rfl,.inr ⟨m,rfl,goesOn.1.trans inCall,goesOn.2⟩⟩

theorem Simulates.invoke (sim : s.Simulates a) (t : τ) (request : StoreRequest)
    (outside : s.call t = none) :
    ∃ moves a', Machine.run (Atomic.step StoreRequest.answer) a moves = some a' ∧
      Simulates { s with call := Function.update s.call t (some request)
                         history := s.history ++ [.invoke (t,s.count t) request] } a' := by
  have stage := sim.threads t
  rw [outside] at stage
  obtain ⟨idle,undecided,unbegun⟩ := stage.outside
  refine ⟨[.invoke t request],{ a with phase := Function.update a.phase t (.called request)
                                       history := a.history ++ [.invoke (t,a.count t) request] },
    by simp [Machine.run_singleton,Atomic.step,idle],?_⟩
  refine sim.move t (by rw [← sim.history,← sim.count]) sim.count sim.state
    (fun u other => Function.update_of_ne other _ _) (fun _ _ => rfl) (fun _ _ => rfl)
    (fun u other => Function.update_of_ne other _ _) ?_
  simp only [Function.update_self]
  exact ⟨rfl,undecided,.inl unbegun⟩

theorem Simulates.respond (sim : s.Simulates a) (t : τ) (reply : StoreReply)
    (core : ConcurrentStore τ) (committed : ∃ request, a.phase t = .committed request reply)
    (data : core.store.data = s.core.store.data)
    (phase : core.phase = Function.update s.core.phase t .idle) :
    ∃ moves a', Machine.run (Atomic.step StoreRequest.answer) a moves = some a' ∧
      Simulates ({ s with core := core }.respond t reply) a' := by
  obtain ⟨request,committed⟩ := committed
  refine ⟨[.respond t],{ a with phase := Function.update a.phase t .idle
                                count := Function.update a.count t (a.count t + 1)
                                history := a.history ++ [.respond (t,a.count t) reply] },
    by simp [Machine.run_singleton,Atomic.step,committed],?_⟩
  refine sim.move t (by simp only [StoreThreads.respond]; rw [← sim.history,← sim.count])
    (by simp only [StoreThreads.respond]; rw [← sim.count])
    (by simp only [StoreThreads.respond]; rw [data,sim.state])
    (fun u other => Function.update_of_ne other _ _) (fun u other => Function.update_of_ne other _ _)
    (fun u other => ?_) (fun u other => Function.update_of_ne other _ _) ?_
  · simp only [StoreThreads.respond,phase,Function.update_of_ne other]
  · simp only [StoreThreads.respond,phase,Function.update_self]
    exact ⟨rfl,rfl,rfl⟩

theorem Simulates.runSection (sim : s.Simulates a) (t : τ) (m : Mutation)
    (sec : ConcurrentStore.Section) (calling : s.call t = some (.mutate m))
    (taken : s.runSection t m sec = some s') :
    ∃ moves a', Machine.run (Atomic.step StoreRequest.answer) a moves = some a' ∧ s'.Simulates a' := by
  have stage := sim.threads t
  rw [calling] at stage
  cases sec with
  | append m' io =>
    cases result : s.result t with
    | some reply =>
      obtain ⟨-,-,past⟩ := sim.past t m reply calling result
      simp only [StoreThreads.runSection,result] at taken
      obtain ⟨core,ran,-⟩ := Option.map_eq_some_iff.mp taken
      cases ConcurrentStore.took_of_step _ _ _ _ ran with
      | append _ _ store idle ran => simp [idle,Phase.pastUpdate] at past
    | none =>
      simp only [StoreThreads.runSection,result] at taken
      split at taken
      next same =>
        subst same
        obtain ⟨core,ran,rfl⟩ := Option.map_eq_some_iff.mp taken
        have took := ConcurrentStore.took_of_step _ _ _ _ ran
        rw [result] at stage
        obtain ⟨called,-⟩ := stage.pending
        refine ⟨[],a,rfl,sim.quiet t _ core took ?_ ?_⟩
        all_goals cases took with
        | append _ _ store idle ran => ?_
        · simp [idle]
        · rw [calling,result,called]
          exact ⟨rfl,rfl,.inr ⟨m',rfl,by simp [ConcurrentStore.moveTo]⟩⟩
      next => cases taken
  | update =>
    cases result : s.result t with
    | some reply =>
      obtain ⟨-,-,past⟩ := sim.past t m reply calling result
      simp only [StoreThreads.runSection,result] at taken
      obtain ⟨core,ran,-⟩ := Option.map_eq_some_iff.mp taken
      cases ConcurrentStore.took_of_step _ _ _ _ ran with
      | update _ appended => simp [appended,Phase.pastUpdate] at past
    | none =>
      simp only [StoreThreads.runSection,result] at taken
      obtain ⟨core,ran,rfl⟩ := Option.map_eq_some_iff.mp taken
      rw [result] at stage
      obtain ⟨called,own⟩ := stage.pending
      cases ConcurrentStore.took_of_step _ _ _ _ ran with
      | update m' appended =>
        obtain rfl : m' = m := by
          rcases own with idle | ⟨m'',same,phase⟩
          · rw [idle] at appended
            cases appended
          · cases same
            rw [phase] at appended
            cases appended
            rfl
        refine sim.commit t (.mutate m') called rfl rfl rfl rfl (fun u other => ?_) ?_ (.inr ⟨m',rfl,?_⟩)
        · simp [setResult,ConcurrentStore.moveTo,other]
        · rw [← sim.state]
          exact StoreRequest.mutate_answer s.core.store.data m'
        · simp [setResult,ConcurrentStore.moveTo,Phase.call,Phase.pastUpdate]
  | ret => simp [StoreThreads.runSection] at taken
  | count _ | checkInterval | checkBurst _ | snapshot _ =>
    cases result : s.result t with
    | none => simp [StoreThreads.runSection,result] at taken
    | some reply =>
      simp only [StoreThreads.runSection,result] at taken
      obtain ⟨core,ran,rfl⟩ := Option.map_eq_some_iff.mp taken
      have took := ConcurrentStore.took_of_step _ _ _ _ ran
      exact ⟨[],a,rfl,sim.behind t m reply calling result took (by simp)⟩

/-- A section that throws leaves the map as it was. -/
theorem throwing_data (s s' : StoreThreads τ) (t : τ) (env : Env)
    (taken : s.runThrowing t env = some s') :
    ∃ store, s' = s.throwing t store ∧ store.data = s.core.store.data := by
  have dumping (taken : (match PersistentKvStore.createSnapshot env s.core.store with
      | .error _ store => some (s.throwing t store)
      | .ok _ _ => none) = some s') :
      ∃ store, s' = s.throwing t store ∧ store.data = s.core.store.data := by
    rw [PersistentKvStore.createSnapshot_apply] at taken
    split at taken
    next failed =>
      cases taken
      split at failed <;> cases failed
      exact ⟨_,rfl,rfl⟩
    next => cases taken
  simp only [runThrowing] at taken
  split at taken
  next m _ _ _ =>
    split at taken
    next e store failed =>
      cases taken
      refine ⟨store,rfl,?_⟩
      simp only [PersistentKvStore.onWal,Act.zoom] at failed
      split at failed <;> cases failed
      rfl
    next => cases taken
  next => exact dumping taken
  next => exact dumping taken
  next => cases taken

theorem Simulates.ret (sim : s.Simulates a) (t : τ) (taken : StoreThreads.step s (.ret t) = some s') :
    ∃ moves a', Machine.run (Atomic.step StoreRequest.answer) a moves = some a' ∧ s'.Simulates a' := by
  simp only [StoreThreads.step] at taken
  split at taken
  next m reply _ calling result =>
    obtain ⟨core,ran,rfl⟩ := Option.map_eq_some_iff.mp taken
    obtain ⟨committed,-,-⟩ := sim.past t m reply calling result
    cases ConcurrentStore.took_of_step _ _ _ _ ran with
    | ret m' checked => exact sim.respond t reply _ ⟨_,committed⟩ rfl rfl
  next request reply other _ calling result =>
    cases taken
    have stage := sim.threads t
    rw [calling,result] at stage
    obtain ⟨committed,own⟩ := stage.decided
    rcases own with ⟨idle,-⟩ | ⟨m,same,-,-⟩
    · refine sim.respond t reply s.core ⟨_,committed⟩ rfl ?_
      rw [← idle,Function.update_eq_self]
    · exact absurd same (other m)
  next => cases taken

/-- One turn of one thread is some moves of the plain map with its callers. -/
theorem Simulates.step (sim : s.Simulates a) (turn : Turn τ)
    (taken : StoreThreads.step s turn = some s') :
    ∃ moves a', Machine.run (Atomic.step StoreRequest.answer) a moves = some a' ∧ s'.Simulates a' := by
  cases turn with
  | call t request =>
    simp only [StoreThreads.step] at taken
    split at taken <;> cases taken
    next outside => exact sim.invoke t request outside
  | runs t sec =>
    simp only [StoreThreads.step] at taken
    split at taken
    next m _ calling => exact sim.runSection t m sec calling taken
    next => cases taken
  | read t =>
    simp only [StoreThreads.step] at taken
    split at taken
    next request calling result =>
      split at taken <;> cases taken
      next reads =>
        have other : ∀ m, request ≠ .mutate m := by
          rintro m rfl
          cases reads
        have stage := sim.threads t
        rw [calling,result] at stage
        obtain ⟨called,own⟩ := stage.pending
        have idle := own.resolve_right fun ⟨m,same,_⟩ => other m same
        refine sim.commit t request called rfl rfl rfl rfl (fun _ _ => rfl) ?_ (.inl ⟨idle,other⟩)
        rw [request.answer_kept _ other]
        exact sim.state
    next => cases taken
  | snapshot t env =>
    simp only [StoreThreads.step] at taken
    split at taken
    next _ calling result =>
      obtain ⟨store,ran,rfl⟩ := Option.map_eq_some_iff.mp taken
      have stage := sim.threads t
      rw [calling,result] at stage
      obtain ⟨called,own⟩ := stage.pending
      have idle := own.resolve_right fun ⟨m,same,_⟩ => by cases same
      have data : store.data = s.core.store.data := by
        simp only [Act.final] at ran
        split at ran <;> cases ran
        next done => exact PersistentKvStore.createSnapshot_data env _ _ done
      refine sim.commit t .forceSnapshot called rfl rfl rfl rfl (fun _ _ => rfl) ?_
        (.inl ⟨idle,fun m => by simp⟩)
      exact (congrArg AList.toFinmap data).trans sim.state
    next => cases taken
  | throws t env =>
    simp only [StoreThreads.step] at taken
    split at taken
    next => cases taken
    next =>
      obtain ⟨store,rfl,data⟩ := throwing_data s s' t env taken
      exact ⟨[],a,rfl,sim.store store _ data⟩
  | ret t => exact sim.ret t taken

end Moves

/-- The store is linearizable. With any number of threads, any interleaving of their sections
and any behaviour of the files, with dumps and calls that throw among them: the calls have the
answers of one plain map that takes them one after another, each between its call and its
return. -/
theorem store_calls_linearizable (store : PersistentKvStore) (turns : List (Turn τ))
    (t : StoreThreads τ) (ran : Machine.run step (start store) turns = some t) :
    Linearizable StoreRequest.answer store.data.toFinmap t.history :=
  Atomic.linearizable_of_simulation step StoreThreads.history (fun _ _ => True) (fun _ => True)
    Simulates (fun _ _ sim => sim.history)
    (fun _ _ turn _ sim _ _ taken => sim.step turn taken) store.data.toFinmap (start store) t turns
    (simulates_start store) (fun _ _ => trivial)
    (Machine.guarded_of_forall step _ _ _ fun _ _ _ => trivial) ran

/-- Two threads set one key; the one that logs first updates last, and a reader comes between.
A third call throws when it logs. -/
def crossing : List (Turn (Nat)) :=
  let failing : Env :=
    { Env.faultless with io := ⟨⟨fun _ => .opened,fun _ => none,true⟩,Io.faultless.snapshot⟩ }
  [.call 0 (.mutate (.set (ascii "k") (ascii "a"))),.call 1 (.mutate (.set (ascii "k") (ascii "b"))),
    .runs 0 (.append (.set (ascii "k") (ascii "a")) Io.faultless.wal),
    .runs 1 (.append (.set (ascii "k") (ascii "b")) Io.faultless.wal),.call 3 (.mutate (.delete (ascii "k"))),
    .runs 1 .update,.call 2 (.get (ascii "k")),.read 2,.throws 3 failing,.runs 0 .update,.ret 2,
    .runs 1 (.count 0),.runs 1 .checkInterval,.runs 1 (.checkBurst 0),.ret 1,.call 2 .allKeys,
    .read 2,.ret 2]

theorem store_calls_linearizable_crossing :
    ∃ t, Machine.run step (start .opened) crossing = some t ∧
      t.history = [.invoke (0,0) (.mutate (.set (ascii "k") (ascii "a"))),
        .invoke (1,0) (.mutate (.set (ascii "k") (ascii "b"))),
        .invoke (3,0) (.mutate (.delete (ascii "k"))),.invoke (2,0) (.get (ascii "k")),
        .respond (2,0) (.value (some (ascii "b"))),.respond (1,0) .done,.invoke (2,1) .allKeys,
        .respond (2,1) (.keys {ascii "k"})] ∧
      Linearizable StoreRequest.answer ∅ t.history := by
  have ends : (Machine.run step (start .opened) crossing).map StoreThreads.history =
      some [.invoke (0,0) (.mutate (.set (ascii "k") (ascii "a"))),
        .invoke (1,0) (.mutate (.set (ascii "k") (ascii "b"))),
        .invoke (3,0) (.mutate (.delete (ascii "k"))),.invoke (2,0) (.get (ascii "k")),
        .respond (2,0) (.value (some (ascii "b"))),.respond (1,0) .done,.invoke (2,1) .allKeys,
        .respond (2,1) (.keys {ascii "k"})] := by decide +kernel
  obtain ⟨t,ran,history⟩ := Option.map_eq_some_iff.mp ends
  exact ⟨t,ran,history,store_calls_linearizable .opened crossing t ran⟩

end StoreThreads
end KvCache
