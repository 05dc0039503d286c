import KvCache.Recovery
import KvCache.Machine

/-! Threads calling Set and Delete on one store. Each critical section of a call is one
step; between its steps a thread holds no lock, and the steps of others may come. -/
namespace KvCache

namespace PersistentKvStore

/-- A restart rebuilds this map, whatever memory is. -/
def FilesHold (s : PersistentKvStore) (files : PlainMap) : Prop :=
  ∃ base log, Persisted s base log ∧ Update.replay base (log.map Mutation.update) = files

theorem FilesHold.same_files {s s' : PersistentKvStore} {files : PlainMap} (hold : FilesHold s files)
    (wal : s'.wal = s.wal) (snapshot : s'.snapshot = s.snapshot) : FilesHold s' files := by
  obtain ⟨base,log,persisted,map⟩ := hold
  exact ⟨base,log,⟨wal ▸ persisted.ready,persisted.small,snapshot ▸ persisted.loaded⟩,map⟩

theorem FilesHold.append {s s' : PersistentKvStore} {files : PlainMap} (hold : FilesHold s files)
    (m : Mutation) (small : m.Small) (io : WalIo) (succeeds : io.Succeeds)
    (ran : onWal (Wal.append io m.record) s = .ok () s') :
    FilesHold s' (Update.apply files m.update) ∧ s'.data = s.data := by
  obtain ⟨base,log,persisted,map⟩ := hold
  obtain ⟨w,appended,ready⟩ := Wal.append_ready io succeeds m.record s.wal _ persisted.ready
  cases (onWal_ok _ s () w appended).symm.trans ran
  refine ⟨⟨base,log ++ [m],⟨?_,?_,persisted.loaded⟩,?_⟩,rfl⟩
  · simpa [WalRecord.framing,Framing.stream] using ready
  · intro x member
    rcases List.mem_append.mp member with old | new
    · exact persisted.small x old
    · exact List.mem_singleton.mp new ▸ small
  · rw [List.map_append,Update.replay_append,map]
    rfl

theorem FilesHold.dump {s s' : PersistentKvStore} {files : PlainMap} (hold : FilesHold s files)
    (env : Env) (succeeds : env.io.Succeeds) (small : SmallMap s.data.toFinmap)
    (count : s.data.entries.length < 2 ^ 32) (filled : s.data.entries ≠ [])
    (ran : createSnapshot env s = .ok () s') :
    FilesHold s' s.data.toFinmap ∧ s'.data = s.data := by
  obtain ⟨base,log,persisted,map⟩ := hold
  obtain ⟨w,empty,created⟩ := createSnapshot_ready env succeeds s _ persisted.ready
  cases created.symm.trans ran
  exact ⟨⟨_,[],persisted_dumped _ env.order s.snapshot small count filled rfl empty,rfl⟩,rfl⟩

theorem FilesHold.restart_finds {s : PersistentKvStore} {files : PlainMap}
    (hold : FilesHold s files) (io : Io) (succeeds : io.Succeeds) (newProcess : Bool) :
    ∃ s', restart io newProcess s = .ok () s' ∧ s'.data.toFinmap = files := by
  obtain ⟨base,log,persisted,rfl⟩ := hold
  exact (restart_map io succeeds newProcess s _).mpr persisted.rebuilt_eq

end PersistentKvStore

/-- Where a thread stands: outside a call, or behind one of the sections of its call. -/
inductive Phase where
  | idle
  | appended (m : Mutation)
  | updated (m : Mutation)
  | counted (m : Mutation)
  | checking (m : Mutation) (intervalReached : Bool)
  | triggered (m : Mutation)
  | checked (m : Mutation)
  deriving DecidableEq, Repr

def Phase.call : Phase → Option Mutation
  | idle => none
  | appended m | updated m | counted m | checking m _ | triggered m | checked m => some m

/-- The operation that is in the log and not in memory. -/
def Phase.unapplied : Phase → Option Mutation
  | appended m => some m
  | _ => none

def Phase.pastUpdate : Phase → Bool
  | idle => false
  | appended _ => false
  | _ => true

structure ConcurrentStore (τ : Type) where
  store : PersistentKvStore
  phase : τ → Phase
  /-- The calls in the order of their appends. -/
  started : List Mutation
  /-- The calls that have returned. -/
  returned : List Mutation

namespace ConcurrentStore

variable {τ : Type} [DecidableEq τ]

/-- A section of a thread's call, with what it finds around it. -/
inductive Section where
  | append (m : Mutation) (io : WalIo)
  | update
  | count (now : Time)
  | checkInterval
  | checkBurst (now : Time)
  | snapshot (env : Env)
  | ret

def moveTo (s : ConcurrentStore τ) (t : τ) (store : PersistentKvStore) (phase : Phase) :
    ConcurrentStore τ :=
  { s with store := store, phase := Function.update s.phase t phase }

/-- One section of the call of thread `t`, where the thread has come to it. -/
def step (s : ConcurrentStore τ) (label : τ × Section) : Option (ConcurrentStore τ) :=
  let (t,sec) := label
  match s.phase t, sec with
  | .idle, .append m io => do
    let store ← Act.final (PersistentKvStore.onWal (Wal.append io m.record) s.store)
    return { s.moveTo t store (.appended m) with started := s.started ++ [m] }
  | .appended m, .update =>
    some (s.moveTo t { s.store with data := m.applyTo s.store.data } (.updated m))
  | .updated m, .count now => some (s.moveTo t (s.store.countOp now) (.counted m))
  | .counted m, .checkInterval =>
    some (s.moveTo t s.store
      (.checking m (decide (PersistentKvStore.kSnapshotInterval ≤ s.store.opCount))))
  | .checking m intervalReached, .checkBurst now =>
    some (s.moveTo t s.store
      (if intervalReached || s.store.burstWindow.isExceeded now then .triggered m else .checked m))
  | .triggered m, .snapshot env => do
    let store ← Act.final (PersistentKvStore.createSnapshot env s.store)
    return s.moveTo t store (.checked m)
  | .checked m, .ret => some { s.moveTo t s.store .idle with returned := s.returned ++ [m] }
  | _, _ => none

/-- What a step can do, with the phase it is taken in. -/
inductive Took (s : ConcurrentStore τ) (t : τ) : Section → ConcurrentStore τ → Prop
  | append (m : Mutation) (io : WalIo) (store : PersistentKvStore) (phase : s.phase t = .idle)
      (ran : PersistentKvStore.onWal (Wal.append io m.record) s.store = .ok () store) :
      Took s t (.append m io)
        { s.moveTo t store (.appended m) with started := s.started ++ [m] }
  | update (m : Mutation) (phase : s.phase t = .appended m) :
      Took s t .update (s.moveTo t { s.store with data := m.applyTo s.store.data } (.updated m))
  | count (m : Mutation) (now : Time) (phase : s.phase t = .updated m) :
      Took s t (.count now) (s.moveTo t (s.store.countOp now) (.counted m))
  | checkInterval (m : Mutation) (intervalReached : Bool) (phase : s.phase t = .counted m) :
      Took s t .checkInterval (s.moveTo t s.store (.checking m intervalReached))
  | checkBurst (m : Mutation) (now : Time) (intervalReached : Bool) (next : Phase)
      (phase : s.phase t = .checking m intervalReached)
      (decided : next = .triggered m ∨ next = .checked m) :
      Took s t (.checkBurst now) (s.moveTo t s.store next)
  | snapshot (m : Mutation) (env : Env) (store : PersistentKvStore)
      (phase : s.phase t = .triggered m)
      (ran : PersistentKvStore.createSnapshot env s.store = .ok () store) :
      Took s t (.snapshot env) (s.moveTo t store (.checked m))
  | ret (m : Mutation) (phase : s.phase t = .checked m) :
      Took s t .ret { s.moveTo t s.store .idle with returned := s.returned ++ [m] }

theorem took_of_step (s s' : ConcurrentStore τ) (t : τ) (sec : Section)
    (stepped : step s (t,sec) = some s') : Took s t sec s' := by
  simp only [step] at stepped
  split at stepped
  · next m io phase =>
    cases ran : PersistentKvStore.onWal (Wal.append io m.record) s.store with
    | error e store => simp [ran,Act.final] at stepped
    | ok u store =>
      simp only [ran,Act.final,Option.bind_eq_bind,Option.bind_some,Option.pure_def,
        Option.some.injEq] at stepped
      exact stepped ▸ .append m io store phase ran
  · next m phase => cases stepped; exact .update m phase
  · next m now phase => cases stepped; exact .count m now phase
  · next m phase => cases stepped; exact .checkInterval m _ phase
  · next m intervalReached now phase =>
    cases stepped
    refine .checkBurst m now intervalReached _ phase ?_
    split
    · exact .inl rfl
    · exact .inr rfl
  · next m env phase =>
    cases ran : PersistentKvStore.createSnapshot env s.store with
    | error e store => simp [ran,Act.final] at stepped
    | ok u store =>
      simp only [ran,Act.final,Option.bind_eq_bind,Option.bind_some,Option.pure_def,
        Option.some.injEq] at stepped
      exact stepped ▸ .snapshot m env store phase ran
  · next m phase => cases stepped; exact .ret m phase
  · cases stepped

def Section.dumps : Section → Bool
  | snapshot _ => true
  | _ => false

def Section.logs : Section → List Mutation
  | append m _ => [m]
  | _ => []

variable {s s' : ConcurrentStore τ} {t : τ} {sec : Section}

theorem Took.started (took : Took s t sec s') : s'.started = s.started ++ sec.logs := by
  cases took <;> simp [moveTo,Section.logs]

/-- A thread goes from section to section of one call: it is behind its append only right
after it, and behind its update only right after that or when it was so before. -/
theorem Took.phases (took : Took s t sec s') :
    ∃ next, s'.phase = Function.update s.phase t next ∧
      (∀ m, next = .appended m → ∃ io, sec = .append m io) ∧
      (∀ m, next.call = some m → (∃ io, sec = .append m io) ∨ (s.phase t).call = some m) ∧
      (next.pastUpdate → (∃ m, s.phase t = .appended m) ∨ (s.phase t).pastUpdate) := by
  cases took with
  | append m io store phase ran =>
    refine ⟨.appended m,rfl,?_,?_,by simp [Phase.pastUpdate]⟩
    · rintro m' ⟨⟩
      exact ⟨io,rfl⟩
    · rintro m' ⟨⟩
      exact .inl ⟨io,rfl⟩
  | update m phase => exact ⟨.updated m,rfl,by simp,by simp [phase,Phase.call],by simp [phase]⟩
  | count m now phase =>
    exact ⟨.counted m,rfl,by simp,by simp [phase,Phase.call],by simp [phase,Phase.pastUpdate]⟩
  | checkInterval m reached phase =>
    exact ⟨.checking m reached,rfl,by simp,by simp [phase,Phase.call],
      by simp [phase,Phase.pastUpdate]⟩
  | checkBurst m now reached next phase decided =>
    refine ⟨next,rfl,?_⟩
    rcases decided with rfl | rfl <;>
      exact ⟨by simp,by simp [phase,Phase.call],by simp [phase,Phase.pastUpdate]⟩
  | snapshot m env store phase ran =>
    exact ⟨.checked m,rfl,by simp,by simp [phase,Phase.call],by simp [phase,Phase.pastUpdate]⟩
  | ret m phase => exact ⟨.idle,rfl,by simp,by simp [Phase.call],by simp [Phase.pastUpdate]⟩

theorem Took.returned (took : Took s t sec s') (m : Mutation) (back : m ∈ s'.returned) :
    m ∈ s.returned ∨ (s.phase t).call = some m := by
  cases took with
  | ret m' phase =>
    rcases List.mem_append.mp back with old | new
    · exact .inl old
    · exact .inr (by rw [phase,List.mem_singleton.mp new]; rfl)
  | _ => exact .inl back

theorem Took.data (took : Took s t sec s') :
    (∀ m, s.phase t = .appended m → s'.store.data = m.applyTo s.store.data) ∧
      ((∀ m, s.phase t ≠ .appended m) → s'.store.data = s.store.data) := by
  cases took with
  | append m io store phase ran =>
    exact ⟨by simp [phase],fun _ => PersistentKvStore.onWal_data _ _ _ _ ran⟩
  | update m phase =>
    refine ⟨fun m' same => ?_,fun other => absurd phase (other m)⟩
    cases phase.symm.trans same
    rfl
  | snapshot m env store phase ran =>
    exact ⟨by simp [phase],fun _ => PersistentKvStore.createSnapshot_data _ _ _ ran⟩
  | count m now phase => exact ⟨by simp [phase],fun _ => rfl⟩
  | checkInterval m reached phase => exact ⟨by simp [phase],fun _ => rfl⟩
  | checkBurst m now reached next phase decided => exact ⟨by simp [phase],fun _ => rfl⟩
  | ret m phase => exact ⟨by simp [phase],fun _ => rfl⟩

open PersistentKvStore (FilesHold SmallMap)

/-- No thread is between the append and the update of a call on this key. -/
def Settled (s : ConcurrentStore τ) (key : Bytes) : Prop :=
  ∀ t m, s.phase t = .appended m → m.key ≠ key

/-- Files and memory agree but for the calls between append and update, and of these the
files hold the effect already. -/
structure Tracks (s : ConcurrentStore τ) (files : PlainMap) : Prop where
  hold : FilesHold s.store files
  pending : ∀ t m, s.phase t = .appended m → m.Small ∧ files.lookup m.key = m.update.image
  exclusive : ∀ t t' m m', s.phase t = .appended m → s.phase t' = .appended m' →
    m.key = m'.key → t = t'
  settled : ∀ key, s.Settled key → s.store.data.toFinmap.lookup key = files.lookup key
  smallData : SmallMap s.store.data.toFinmap

variable {files : PlainMap}

theorem phase_moveTo (s : ConcurrentStore τ) (t t' : τ) (store : PersistentKvStore) (phase : Phase) :
    (s.moveTo t store phase).phase t' = if t' = t then phase else s.phase t' := by
  simp [moveTo,Function.update_apply]

omit [DecidableEq τ] in
theorem Tracks.quiet (tracks : Tracks s files) (wal : s'.store.wal = s.store.wal)
    (snapshot : s'.store.snapshot = s.store.snapshot) (data : s'.store.data = s.store.data)
    (phases : ∀ t m, s'.phase t = .appended m ↔ s.phase t = .appended m) : Tracks s' files where
  hold := tracks.hold.same_files wal snapshot
  pending t m phase := tracks.pending t m ((phases t m).mp phase)
  exclusive t t' m m' phase phase' :=
    tracks.exclusive t t' m m' ((phases t m).mp phase) ((phases t' m').mp phase')
  settled key none := by
    rw [data]
    exact tracks.settled key fun t m phase => none t m ((phases t m).mpr phase)
  smallData := data ▸ tracks.smallData

theorem pending_cases {phase : Phase} (moved : s'.phase = Function.update s.phase t phase)
    {t' : τ} {m' : Mutation} (pending : s'.phase t' = .appended m') :
    t' = t ∧ phase = .appended m' ∨ t' ≠ t ∧ s.phase t' = .appended m' := by
  rw [moved,Function.update_apply] at pending
  split at pending
  · next same => exact .inl ⟨same,pending⟩
  · next other => exact .inr ⟨other,pending⟩

theorem settled_of_moved {phase : Phase} {key : Bytes}
    (moved : s'.phase = Function.update s.phase t phase) (settled : s'.Settled key)
    (own : ∀ m, s.phase t = .appended m → m.key ≠ key) : s.Settled key := by
  intro t' m' old
  by_cases same : t' = t
  · exact own m' (same ▸ old)
  · exact settled t' m' (by rw [moved,Function.update_of_ne same]; exact old)

theorem Tracks.append (tracks : Tracks s files) (m : Mutation) (io : WalIo)
    (store : PersistentKvStore) (succeeds : io.Succeeds) (small : m.Small) (idle : s.phase t = .idle)
    (free : s.Settled m.key)
    (ran : PersistentKvStore.onWal (Wal.append io m.record) s.store = .ok () store)
    (moved : s'.phase = Function.update s.phase t (.appended m)) (after : s'.store = store) :
    Tracks s' (Update.apply files m.update) := by
  obtain ⟨hold,data⟩ := tracks.hold.append m small io succeeds ran
  refine ⟨after ▸ hold,?_,?_,?_,by rw [after,data]; exact tracks.smallData⟩
  · intro t' m' pending
    rw [Mutation.lookup_apply]
    rcases pending_cases moved pending with ⟨_,new⟩ | ⟨_,old⟩
    · cases new
      exact ⟨small,if_pos rfl⟩
    · rw [if_neg (free t' m' old)]
      exact tracks.pending t' m' old
  · intro t1 t2 m1 m2 pending1 pending2 same
    rcases pending_cases moved pending1 with ⟨rfl,new1⟩ | ⟨_,old1⟩ <;>
      rcases pending_cases moved pending2 with ⟨rfl,new2⟩ | ⟨_,old2⟩
    · rfl
    · cases new1
      exact absurd same.symm (free t2 m2 old2)
    · cases new2
      exact absurd same (free t1 m1 old1)
    · exact tracks.exclusive t1 t2 m1 m2 old1 old2 same
  · intro key settled
    have other : key ≠ m.key := fun same =>
      settled t m (by rw [moved]; exact Function.update_self ..) same.symm
    have before : s.Settled key := settled_of_moved moved settled fun m' old => by
      rw [idle] at old
      cases old
    rw [after,data,Mutation.lookup_apply,if_neg other]
    exact tracks.settled key before

theorem Tracks.update (tracks : Tracks s files) (m : Mutation) (phase : s.phase t = .appended m)
    (moved : s'.phase = Function.update s.phase t (.updated m))
    (after : s'.store = { s.store with data := m.applyTo s.store.data }) : Tracks s' files := by
  obtain ⟨small,image⟩ := tracks.pending t m phase
  refine ⟨after ▸ tracks.hold.same_files rfl rfl,?_,?_,?_,?_⟩
  · intro t' m' pending
    rcases pending_cases moved pending with ⟨_,new⟩ | ⟨_,old⟩
    · cases new
    · exact tracks.pending t' m' old
  · intro t1 t2 m1 m2 pending1 pending2 same
    rcases pending_cases moved pending1 with ⟨_,new1⟩ | ⟨_,old1⟩
    · cases new1
    rcases pending_cases moved pending2 with ⟨_,new2⟩ | ⟨_,old2⟩
    · cases new2
    exact tracks.exclusive t1 t2 m1 m2 old1 old2 same
  · intro key settled
    rw [after,Mutation.applyTo_toFinmap,Mutation.lookup_apply]
    split
    · next same => rw [same,image]
    · next other =>
      refine tracks.settled key (settled_of_moved moved settled fun m' old same => ?_)
      rw [phase] at old
      cases old
      exact other same.symm
  · rw [after,Mutation.applyTo_toFinmap]
    exact tracks.smallData.apply m small

omit [DecidableEq τ] in
/-- A snapshot taken while every key is settled leaves the map of the files as it was. -/
theorem Tracks.snapshot (tracks : Tracks s files) (env : Env) (store : PersistentKvStore)
    (succeeds : env.io.Succeeds) (settled : ∀ key, s.Settled key)
    (count : s.store.data.entries.length < 2 ^ 32) (filled : s.store.data.entries ≠ [])
    (ran : PersistentKvStore.createSnapshot env s.store = .ok () store)
    (phases : ∀ t m, s'.phase t = .appended m → s.phase t = .appended m)
    (after : s'.store = store) : Tracks s' files := by
  obtain ⟨hold,data⟩ := tracks.hold.dump env succeeds tracks.smallData count filled ran
  have same : s.store.data.toFinmap = files :=
    Finmap.ext_lookup fun key => tracks.settled key (settled key)
  rw [same] at hold
  refine ⟨after ▸ hold,fun t m phase => tracks.pending t m (phases t m phase),?_,?_,?_⟩
  · intro t t' m m' phase phase'
    exact tracks.exclusive t t' m m' (phases t m phase) (phases t' m' phase')
  · intro key _
    rw [after,data,same]
  · rw [after,data]
    exact tracks.smallData

/-- Keys and values are small and the system calls of the section succeed. -/
def Section.Admitted : Section → Prop
  | append m io => m.Small ∧ io.Succeeds
  | snapshot env => env.io.Succeeds
  | _ => True

/-- One section. The files go on holding every appended call, as long as appends find
their key settled and snapshots find every key settled. -/
theorem Tracks.took (tracks : Tracks s files) (took : Took s t sec s')
    (admitted : sec.Admitted) (appends : ∀ m io, sec = .append m io → s.Settled m.key)
    (snapshots : ∀ env, sec = .snapshot env → (∀ key, s.Settled key) ∧
      s.store.data.entries.length < 2 ^ 32 ∧ s.store.data.entries ≠ []) :
    Tracks s' (Update.replay files (sec.logs.map Mutation.update)) := by
  -- outside the append and the update, the moving thread has no pending call before or after
  have away (store : PersistentKvStore) (next : Phase) (before : ∀ m, s.phase t ≠ .appended m)
      (behind : ∀ m, next ≠ .appended m) (t' : τ) (m : Mutation) :
      (s.moveTo t store next).phase t' = .appended m ↔ s.phase t' = .appended m := by
    rw [phase_moveTo]
    split
    · next same => exact ⟨fun new => absurd new (behind m),fun old => absurd (same ▸ old) (before m)⟩
    · rfl
  cases took with
  | append m io store phase ran =>
    exact tracks.append m io store admitted.2 admitted.1 phase (appends m io rfl) ran rfl rfl
  | update m phase => exact tracks.update m phase rfl rfl
  | count m now phase =>
    exact tracks.quiet rfl rfl rfl (away _ _ (by simp [phase]) (by simp))
  | checkInterval m reached phase =>
    exact tracks.quiet rfl rfl rfl (away _ _ (by simp [phase]) (by simp))
  | checkBurst m now reached next phase decided =>
    refine tracks.quiet rfl rfl rfl (away _ _ (by simp [phase]) ?_)
    rcases decided with rfl | rfl <;> simp
  | snapshot m env store phase ran =>
    obtain ⟨settled,count,filled⟩ := snapshots env rfl
    exact tracks.snapshot env store admitted settled count filled ran
      (fun t' m' => (away _ _ (by simp [phase]) (by simp) t' m').mp) rfl
  | ret m phase =>
    exact tracks.quiet rfl rfl rfl (away s.store .idle (by simp [phase]) (by simp))

end ConcurrentStore

end KvCache
