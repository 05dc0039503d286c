import KvCache.ConcurrentDurability

/-! Threads that write keys of their own. Whatever the schedule, memory ends as if the threads had
run one after the other, and no call can tell from its result that others were running. -/
namespace KvCache

namespace Mutation

/-- What the call returns, by the map its memory update finds; `Set` returns nothing. -/
def result (data : KvMap) : Mutation → Option Bool
  | set _ _ => none
  | delete key => some (KvStore.delete data key).1

def call (env : Env) : Mutation → Act PersistentKvStore (Option Bool)
  | set key value => do
    PersistentKvStore.set env key value
    return none
  | delete key => do
    let result ← PersistentKvStore.delete env key
    return some result

def applyAll (data : KvMap) (calls : List Mutation) : KvMap := calls.foldl applyTo data

def results (data : KvMap) : List Mutation → List (Option Bool)
  | [] => []
  | m :: calls => m.result data :: results (m.applyTo data) calls

theorem applyAll_toFinmap (data : KvMap) (calls : List Mutation) :
    (applyAll data calls).toFinmap = Update.replay data.toFinmap (calls.map update) := by
  induction calls generalizing data with
  | nil => rfl
  | cons m calls ih =>
    rw [List.map_cons,Update.replay_cons,← applyTo_toFinmap]
    exact ih (m.applyTo data)

theorem lookup_applyTo (data : KvMap) (m : Mutation) (key : Bytes) :
    (m.applyTo data).lookup key = if key = m.key then m.update.image else data.lookup key := by
  rw [← KvStore.toFinmap_lookup,applyTo_toFinmap,lookup_apply,KvStore.toFinmap_lookup]

theorem result_congr (data data' : KvMap) (m : Mutation)
    (agree : data.lookup m.key = data'.lookup m.key) : m.result data = m.result data' := by
  cases m with
  | set key value => rfl
  | delete key =>
    have same : data.lookup key = data'.lookup key := agree
    simp [result,KvStore.delete,same]

theorem call_ready (env : Env) (succeeds : env.io.Succeeds) (m : Mutation) (s : PersistentKvStore)
    (content : Bytes) (ready : s.wal.Ready content) :
    ∃ s' content', m.call env s = .ok (m.result s.data) s' ∧ s'.data = m.applyTo s.data ∧
      s'.wal.Ready content' := by
  obtain ⟨w,appended,ready⟩ := Wal.append_ready env.io.wal succeeds.wal m.record s.wal content ready
  have logged := PersistentKvStore.onWal_ok _ s () w appended
  obtain ⟨s',content',checked,data,ready⟩ := PersistentKvStore.checkSnapshotTrigger_ready env succeeds
    (PersistentKvStore.countOp env.addOpAt { s with wal := w, data := m.applyTo s.data }) _ ready
  refine ⟨s',content',?_,data,ready⟩
  cases m with
  | set key value =>
    simp only [record,applyTo] at logged checked
    simp [call,PersistentKvStore.set,Wal.appendSet,logged,checked,result]
  | delete key =>
    simp only [record,applyTo] at logged checked
    simp [call,PersistentKvStore.delete,Wal.appendDel,logged,checked,result]

end Mutation

/-- Calls made one after the other by one thread, each with what it finds around it. -/
def runCalls : List (Mutation × Env) → Act PersistentKvStore (List (Option Bool))
  | [] => pure []
  | (m,env) :: calls => do
    let result ← m.call env
    let results ← runCalls calls
    return result :: results

theorem runCalls_ready (calls : List (Mutation × Env)) (succeeds : ∀ c ∈ calls, c.2.io.Succeeds)
    (s : PersistentKvStore) (content : Bytes) (ready : s.wal.Ready content) :
    ∃ s', runCalls calls s = .ok (Mutation.results s.data (calls.map Prod.fst)) s' ∧
      s'.data = Mutation.applyAll s.data (calls.map Prod.fst) := by
  induction calls generalizing s content with
  | nil => exact ⟨s,rfl,rfl⟩
  | cons c calls ih =>
    obtain ⟨m,env⟩ := c
    obtain ⟨middle,content,called,data,ready⟩ :=
      m.call_ready env (succeeds _ List.mem_cons_self) s content ready
    obtain ⟨s',ran,last⟩ := ih (fun c member => succeeds c (List.mem_cons_of_mem _ member)) middle
      content ready
    rw [data] at ran last
    refine ⟨s',?_,last⟩
    simp [runCalls,called,ran,Mutation.results]

namespace ConcurrentStore

variable {τ : Type} [DecidableEq τ]

def callsOf (t : τ) (schedule : List (τ × Section)) : List Mutation :=
  (schedule.filter fun l => l.1 = t).flatMap fun l => l.2.logs

/-- The memory update that a step makes. -/
def updateAt (s : ConcurrentStore τ) (l : τ × Section) : Option (τ × Mutation) :=
  match l.2, s.phase l.1 with
  | .update, .appended m => some (l.1,m)
  | _, _ => none

def updates : ConcurrentStore τ → List (τ × Section) → List (τ × Mutation)
  | _, [] => []
  | s, l :: schedule => (s.updateAt l).toList ++
      match step s l with
      | some s' => updates s' schedule
      | none => []

/-- What the calls of a thread return in a run; the result is taken with the memory update. -/
def resultsOf (t : τ) : ConcurrentStore τ → List (τ × Section) → List (Option Bool)
  | _, [] => []
  | s, l :: schedule =>
    ((s.updateAt l).toList.filter fun u => u.1 = t).map (fun u => u.2.result s.store.data) ++
      match step s l with
      | some s' => resultsOf t s' schedule
      | none => []

def pending : Phase → List Mutation
  | .appended m => [m]
  | _ => []

def ofThread (t : τ) (us : List (τ × Mutation)) : List Mutation :=
  (us.filter fun u => u.1 = t).map Prod.snd

variable {s s' : ConcurrentStore τ} {t : τ} {sec : Section}

theorem Took.data_eq (took : Took s t sec s') :
    s'.store.data = Mutation.applyAll s.store.data ((s.updateAt (t,sec)).toList.map Prod.snd) := by
  cases took with
  | update m phase => simp [updateAt,phase,Mutation.applyAll,moveTo]
  | append m io store phase ran => exact PersistentKvStore.onWal_data _ _ _ _ ran
  | snapshot m env store phase ran => exact PersistentKvStore.createSnapshot_data _ _ _ ran
  | count | checkInterval | checkBurst | ret => rfl

theorem Took.pending (took : Took s t sec s') (t' : τ) :
    pending (s.phase t') ++ callsOf t' [(t,sec)] =
      ofThread t' (s.updateAt (t,sec)).toList ++ pending (s'.phase t') := by
  by_cases own : t' = t
  · subst own
    cases took with
    | checkBurst m now reached next phase decided =>
      rcases decided with rfl | rfl <;>
        simp [phase,callsOf,Section.logs,updateAt,ofThread,moveTo,ConcurrentStore.pending]
    | append _ _ _ phase | update _ phase | count _ _ phase | checkInterval _ _ phase
    | snapshot _ _ _ phase | ret _ phase =>
      simp [phase,callsOf,Section.logs,updateAt,ofThread,moveTo,ConcurrentStore.pending]
  · obtain ⟨next,moved,-⟩ := took.phases
    have calls : callsOf t' [(t,sec)] = [] := by simp [callsOf,Ne.symm own]
    have none : ofThread t' (s.updateAt (t,sec)).toList = [] := by
      cases made : s.updateAt (t,sec) with
      | none => rfl
      | some u =>
        have thread : u.1 = t := by
          unfold updateAt at made
          split at made <;> cases made
          rfl
        simp [ofThread,thread,Ne.symm own]
    rw [calls,none,moved,Function.update_of_ne own,List.append_nil,List.nil_append]

theorem data_of_run (s s' : ConcurrentStore τ) (schedule : List (τ × Section))
    (ran : Machine.run step s schedule = some s') :
    s'.store.data = Mutation.applyAll s.store.data ((updates s schedule).map Prod.snd) := by
  induction schedule generalizing s with
  | nil => cases ran; rfl
  | cons l schedule ih =>
    obtain ⟨middle,taken,ran⟩ := (Machine.run_cons_iff step s s' l schedule).mp ran
    have first := (took_of_step s middle l.1 l.2 taken).data_eq
    rw [ih middle ran,first,updates,taken]
    simp [Mutation.applyAll]

theorem updates_of_run (s s' : ConcurrentStore τ) (schedule : List (τ × Section))
    (ran : Machine.run step s schedule = some s') (t : τ) :
    pending (s.phase t) ++ callsOf t schedule =
      ofThread t (updates s schedule) ++ pending (s'.phase t) := by
  induction schedule generalizing s with
  | nil => cases ran; simp [callsOf,ofThread,updates]
  | cons l schedule ih =>
    obtain ⟨middle,taken,ran⟩ := (Machine.run_cons_iff step s s' l schedule).mp ran
    have first := (took_of_step s middle l.1 l.2 taken).pending t
    have calls : callsOf t (l :: schedule) = callsOf t [l] ++ callsOf t schedule := by
      rw [callsOf,callsOf,callsOf,← List.flatMap_append,← List.filter_append]
      rfl
    have made : ofThread t (updates s (l :: schedule)) =
        ofThread t (s.updateAt l).toList ++ ofThread t (updates middle schedule) := by
      simp [updates,taken,ofThread]
    rw [calls,made,← List.append_assoc,first,List.append_assoc,ih middle ran,List.append_assoc]

/-- The results of a thread's calls among the updates of all. -/
def outcomes (t : τ) (data : KvMap) : List (τ × Mutation) → List (Option Bool)
  | [] => []
  | u :: us => (if u.1 = t then [u.2.result data] else []) ++ outcomes t (u.2.applyTo data) us

theorem resultsOf_eq_outcomes (s s' : ConcurrentStore τ) (schedule : List (τ × Section))
    (ran : Machine.run step s schedule = some s') (t : τ) :
    resultsOf t s schedule = outcomes t s.store.data (updates s schedule) := by
  induction schedule generalizing s with
  | nil => rfl
  | cons l schedule ih =>
    obtain ⟨middle,taken,ran⟩ := (Machine.run_cons_iff step s s' l schedule).mp ran
    have data := (took_of_step s middle l.1 l.2 taken).data_eq
    have later := ih middle ran
    rw [data] at later
    cases made : s.updateAt l with
    | none =>
      rw [made] at later
      simp only [resultsOf,updates,taken,made,later]
      rfl
    | some u =>
      rw [made] at later
      simp only [resultsOf,updates,taken,made,later]
      by_cases own : u.1 = t <;> simp [outcomes,own,Mutation.applyAll]

/-- The others are invisible: a thread that alone names its keys gets the results it gets
when it runs alone, on any map that agrees with the shared one on those keys. -/
theorem outcomes_alone (t : τ) (us : List (τ × Mutation)) (data alone : KvMap)
    (agree : ∀ u ∈ us, u.1 = t → data.lookup u.2.key = alone.lookup u.2.key)
    (apart : ∀ u ∈ us, ∀ v ∈ us, u.1 = t → v.1 ≠ t → u.2.key ≠ v.2.key) :
    outcomes t data us = Mutation.results alone (ofThread t us) := by
  induction us generalizing data alone with
  | nil => rfl
  | cons u us ih =>
    have apartLater : ∀ v ∈ us, ∀ w ∈ us, v.1 = t → w.1 ≠ t → v.2.key ≠ w.2.key :=
      fun v inside w inside' => apart v (List.mem_cons_of_mem u inside) w
        (List.mem_cons_of_mem u inside')
    rw [outcomes]
    by_cases own : u.1 = t
    · have result := Mutation.result_congr data alone u.2 (agree u List.mem_cons_self own)
      have split : ofThread t (u :: us) = u.2 :: ofThread t us := by simp [ofThread,own]
      rw [if_pos own,split,Mutation.results,result,List.singleton_append]
      congr 1
      refine ih _ _ (fun v inside mine => ?_) apartLater
      rw [Mutation.lookup_applyTo,Mutation.lookup_applyTo,
        agree v (List.mem_cons_of_mem u inside) mine]
    · have split : ofThread t (u :: us) = ofThread t us := by simp [ofThread,own]
      rw [if_neg own,List.nil_append,split]
      refine ih _ _ (fun v inside mine => ?_) apartLater
      have other := apart v (List.mem_cons_of_mem u inside) u List.mem_cons_self mine own
      rw [Mutation.lookup_applyTo,if_neg other]
      exact agree v (List.mem_cons_of_mem u inside) mine

theorem mem_ofThread (t : τ) (us : List (τ × Mutation)) (m : Mutation) :
    m ∈ ofThread t us ↔ (t,m) ∈ us := by
  simp [ofThread]

theorem ofWriter_updates (t : τ) (us : List (τ × Mutation)) :
    Update.ofWriter t (us.map fun u => (u.1,u.2.update)) = (ofThread t us).map Mutation.update := by
  simp [Update.ofWriter,ofThread,List.filter_map,Function.comp_def]

section Disjoint

variable {store : PersistentKvStore} {schedule : List (τ × Section)}

theorem ofThread_updates (ran : Machine.run step (initial store) schedule = some s)
    (idle : ∀ t, s.phase t = .idle) (t : τ) :
    ofThread t (updates (initial store) schedule) = callsOf t schedule := by
  have both := updates_of_run (initial store) s schedule ran t
  rw [idle t] at both
  simpa [pending,initial] using both.symm

variable (ran : Machine.run step (initial store) schedule = some s) (idle : ∀ t, s.phase t = .idle)
  (apart : ∀ t t', t ≠ t' → ∀ m ∈ callsOf t schedule, ∀ m' ∈ callsOf t' schedule, m.key ≠ m'.key)

include ran idle apart

theorem updates_apart (u v : τ × Mutation) (made : u ∈ updates (initial store) schedule)
    (made' : v ∈ updates (initial store) schedule) (other : u.1 ≠ v.1) : u.2.key ≠ v.2.key := by
  have called (w : τ × Mutation) (made : w ∈ updates (initial store) schedule) :
      w.2 ∈ callsOf w.1 schedule := by
    rw [← ofThread_updates ran idle,mem_ofThread]
    exact made
  exact apart u.1 v.1 other u.2 (called u made) v.2 (called v made')

theorem memory_in_turn (order : List τ) (once : order.Nodup)
    (named : ∀ t, callsOf t schedule ≠ [] → t ∈ order) :
    s.store.data.toFinmap =
      (Mutation.applyAll store.data (order.flatMap fun t => callsOf t schedule)).toFinmap := by
  have commute := Update.replay_eq_of_writers store.data.toFinmap
    ((updates (initial store) schedule).map fun u => (u.1,u.2.update))
    (Update.inTurn order fun t => (callsOf t schedule).map Mutation.update) ?_ fun t => ?_
  · have first : ((updates (initial store) schedule).map fun u => (u.1,u.2.update)).map Prod.snd =
        ((updates (initial store) schedule).map Prod.snd).map Mutation.update := by simp
    have second : (Update.inTurn order fun t => (callsOf t schedule).map Mutation.update).map Prod.snd =
        (order.flatMap fun t => callsOf t schedule).map Mutation.update := by
      simp [Update.inTurn,List.map_flatMap,Function.comp_def]
    rw [first,second,← Mutation.applyAll_toFinmap,← Mutation.applyAll_toFinmap] at commute
    rw [data_of_run (initial store) s schedule ran]
    exact commute
  · rintro _ member _ member' other
    obtain ⟨u,made,rfl⟩ := List.mem_map.mp member
    obtain ⟨v,made',rfl⟩ := List.mem_map.mp member'
    exact updates_apart ran idle apart u v made made' other
  · rw [ofWriter_updates,ofThread_updates ran idle,Update.ofWriter_inTurn order _ once]
    intro some
    exact named t fun none => some (by rw [none]; rfl)

theorem results_alone (t : τ) :
    resultsOf t (initial store) schedule = Mutation.results store.data (callsOf t schedule) := by
  rw [resultsOf_eq_outcomes (initial store) s schedule ran t,← ofThread_updates ran idle]
  refine outcomes_alone t _ store.data store.data (fun _ _ _ => rfl) ?_
  intro u made v made' mine other
  exact updates_apart ran idle apart u v made made' fun thread => other (thread ▸ mine)

end Disjoint

/-- Disjoint writers commute. Over every schedule in which the threads make their calls, in
the order of each and on keys that no other names: memory ends as it does when the threads'
calls are made one thread after the other, in any order of the threads, and the calls of each
return what they return when it is alone. -/
theorem disjoint_writers_commute (store : PersistentKvStore) (content : Bytes)
    (ready : store.wal.Ready content) (schedule : List (τ × Section)) (s : ConcurrentStore τ)
    (ran : Machine.run step (initial store) schedule = some s) (idle : ∀ t, s.phase t = .idle)
    (apart : ∀ t t', t ≠ t' → ∀ m ∈ callsOf t schedule, ∀ m' ∈ callsOf t' schedule,
      m.key ≠ m'.key) :
    (∀ (order : List τ) (sequence : List (Mutation × Env)), order.Nodup →
      (∀ t, callsOf t schedule ≠ [] → t ∈ order) → (∀ c ∈ sequence, c.2.io.Succeeds) →
      sequence.map Prod.fst = order.flatMap (fun t => callsOf t schedule) →
      ∃ results u, runCalls sequence store = .ok results u ∧
        s.store.data.toFinmap = u.data.toFinmap) ∧
    (∀ (t : τ) (sequence : List (Mutation × Env)), (∀ c ∈ sequence, c.2.io.Succeeds) →
      sequence.map Prod.fst = callsOf t schedule →
      ∃ u, runCalls sequence store = .ok (resultsOf t (initial store) schedule) u) := by
  refine ⟨fun order sequence once named succeeds calls => ?_,fun t sequence succeeds calls => ?_⟩
  · obtain ⟨u,returned,data⟩ := runCalls_ready sequence succeeds store content ready
    refine ⟨_,u,returned,?_⟩
    rw [data,calls]
    exact memory_in_turn ran idle apart order once named
  · obtain ⟨u,returned,-⟩ := runCalls_ready sequence succeeds store content ready
    rw [calls,← results_alone ran idle apart t] at returned
    exact ⟨u,returned⟩

/-- Two threads take turns within their first calls; then one deletes its key again. -/
def interleaved : List (Bool × Section) :=
  [(true,.append (.set (ascii "a") (ascii "1")) Io.faultless.wal),
   (false,.append (.set (ascii "b") (ascii "2")) Io.faultless.wal),
   (false,.update),(true,.update),(true,.count 0),(false,.count 0),(false,.checkInterval),
   (true,.checkInterval),(true,.checkBurst 0),(true,.ret),(false,.checkBurst 0),(false,.ret)] ++
  wholeCall true (.delete (ascii "a"))

theorem disjoint_writers_commute_interleaved :
    ∃ s, Machine.run step (initial PersistentKvStore.opened) interleaved = some s ∧
      (∃ results u, runCalls [(.set (ascii "b") (ascii "2"),.faultless),
          (.set (ascii "a") (ascii "1"),.faultless),(.delete (ascii "a"),.faultless)]
          PersistentKvStore.opened = .ok results u ∧ s.store.data.toFinmap = u.data.toFinmap) ∧
      ∃ u, runCalls [(.set (ascii "a") (ascii "1"),.faultless),(.delete (ascii "a"),.faultless)]
        PersistentKvStore.opened =
          .ok (resultsOf true (initial PersistentKvStore.opened) interleaved) u := by
  have ends : (Machine.run step (initial PersistentKvStore.opened) interleaved).map
      (fun s => (s.phase true,s.phase false)) = some (.idle,.idle) := by decide +kernel
  obtain ⟨s,ran,phases⟩ := Option.map_eq_some_iff.mp ends
  obtain ⟨first,second⟩ := Prod.mk.inj phases
  have both := disjoint_writers_commute PersistentKvStore.opened [] (PersistentKvStore.opened_backed 0).ready interleaved s
    ran (fun t => by cases t <;> assumption) (by decide)
  refine ⟨s,ran,both.1 [false,true] _ (by decide) (by decide) ?_ (by decide),both.2 true _ ?_ (by decide)⟩
  · simp [Io.faultless_succeeds]
  · simp [Io.faultless_succeeds]

end ConcurrentStore

end KvCache
