import KvCache.Recovery
import KvCache.Machine

/-! Single-threaded runs of a store and what a restart makes of each of their states. -/
namespace KvCache

inductive StoreOp where
  | mutation (m : Mutation)
  | forceSnapshot
  deriving DecidableEq, Repr

namespace StoreOp

def applyTo (data : KvMap) : StoreOp → KvMap
  | mutation m => m.applyTo data
  | forceSnapshot => data

def mutations : StoreOp → List Mutation
  | mutation m => [m]
  | forceSnapshot => []

def Small (op : StoreOp) : Prop := ∀ m ∈ op.mutations, m.Small

@[simp] theorem applyTo_toFinmap (data : KvMap) (op : StoreOp) :
    (op.applyTo data).toFinmap =
      Update.replay data.toFinmap (op.mutations.map Mutation.update) := by
  cases op with
  | mutation m => exact Mutation.applyTo_toFinmap data m
  | forceSnapshot => rfl

end StoreOp

structure StoreCall where
  op : StoreOp
  env : Env

namespace StoreCall

open PersistentKvStore

def run (c : StoreCall) : Act PersistentKvStore Unit :=
  match c.op with
  | .mutation m => m.run c.env
  | .forceSnapshot => forceSnapshot c.env

def step (s : PersistentKvStore) (c : StoreCall) : Option PersistentKvStore := Act.final (c.run s)

theorem step_of_run (c : StoreCall) (s s' : PersistentKvStore) (ran : c.run s = .ok () s') :
    c.step s = some s' := by
  rw [step,ran]
  rfl

def ofOp (op : StoreOp) : StoreCall := ⟨op,.faultless⟩

/-- Whether the call comes to `CreateSnapshot`. -/
def snapshots (s : PersistentKvStore) (c : StoreCall) : Bool :=
  match c.op with
  | .mutation _ => (s.countOp c.env.addOpAt).shouldSnapshot c.env.isExceededAt
  | .forceSnapshot => true

theorem step_ready (c : StoreCall) (succeeds : c.env.io.Succeeds) (s : PersistentKvStore)
    (content : Bytes) (ready : s.wal.Ready content) :
    ∃ s', c.step s = some s' ∧ s'.data = c.op.applyTo s.data ∧
      if c.snapshots s then
        s'.snapshot = snapshotAfter c.env.order s'.data s.snapshot ∧ s'.wal.Ready []
      else
        s'.snapshot = s.snapshot ∧
          s'.wal.Ready (content ++ WalRecord.framing.stream (c.op.mutations.map Mutation.record)) := by
  obtain ⟨op,env⟩ := c
  cases op with
  | forceSnapshot =>
    obtain ⟨w,empty,created⟩ := createSnapshot_ready env succeeds s content ready
    exact ⟨_,step_of_run _ s _ created,rfl,by simp [snapshots,empty]⟩
  | mutation m =>
    by_cases triggered : snapshots s ⟨.mutation m,env⟩
    · obtain ⟨s',ran,empty,data,snapshot,-⟩ :=
        m.run_triggered env succeeds s content ready triggered
      refine ⟨s',step_of_run _ s s' ran,data,?_⟩
      rw [if_pos triggered,data]
      exact ⟨snapshot,empty⟩
    · obtain ⟨w,logged,ran⟩ :=
        m.run_untriggered env succeeds s content ready (Bool.eq_false_iff.mpr triggered)
      refine ⟨_,step_of_run _ s _ ran,rfl,?_⟩
      simp [triggered,countOp,StoreOp.mutations,logged,Framing.stream,WalRecord.framing]

variable {c : StoreCall} {s s' : PersistentKvStore} {base : PlainMap} {log : List Mutation}

theorem smallData_after (small : SmallMap s.data.toFinmap) (bound : c.op.Small)
    (data : s'.data = c.op.applyTo s.data) : SmallMap s'.data.toFinmap := by
  obtain ⟨op,env⟩ := c
  cases op with
  | forceSnapshot => rw [data]; exact small
  | mutation m =>
    rw [data,StoreOp.applyTo,Mutation.applyTo_toFinmap]
    exact small.apply m (bound m (List.mem_singleton_self m))

theorem backed_logged (backed : Backed s base log) (bound : c.op.Small)
    (data : s'.data = c.op.applyTo s.data) (snapshot : s'.snapshot = s.snapshot)
    (ready : s'.wal.Ready (WalRecord.framing.stream (log.map Mutation.record) ++
      WalRecord.framing.stream (c.op.mutations.map Mutation.record))) :
    Backed s' base (log ++ c.op.mutations) where
  ready := by rwa [List.map_append,Framing.stream_append]
  small m member := by
    rcases List.mem_append.mp member with old | new
    · exact backed.small m old
    · exact bound m new
  loaded := by rw [snapshot]; exact backed.loaded
  current := by
    rw [List.map_append,Update.replay_append,backed.current,data,StoreOp.applyTo_toFinmap]
  smallData := smallData_after backed.smallData bound data

theorem backed_dumped (order : IterOrder) (files : SnapshotFiles)
    (small : SmallMap s'.data.toFinmap) (count : s'.data.entries.length < 2 ^ 32)
    (filled : s'.data.entries ≠ []) (snapshot : s'.snapshot = snapshotAfter order s'.data files)
    (ready : s'.wal.Ready []) : Backed s' s'.data.toFinmap [] :=
  ⟨persisted_dumped s' order files small count filled snapshot ready,rfl,small⟩

theorem backed_empty (order : IterOrder) (files : SnapshotFiles) (none : files.dat = none)
    (empty : s'.data.entries = []) (snapshot : s'.snapshot = snapshotAfter order s'.data files)
    (ready : s'.wal.Ready []) : Backed s' ∅ [] := by
  have map : s'.data = ∅ := AList.ext empty
  refine ⟨⟨ready,by simp,∅,?_,rfl⟩,by rw [map]; rfl,map ▸ smallMap_empty⟩
  rw [snapshot,snapshotAfter,if_pos empty,none]
  rfl

/-- What oversized entries are in memory, no restart finds. -/
theorem oversized_lost (oversized : ¬SmallMap s.data.toFinmap) : ¬RestartKeeps s := by
  intro keeps
  obtain ⟨data,found,map⟩ := (restartKeeps_iff s).mp keeps
  exact oversized (map ▸ rebuilt_small _ _ data found)

theorem restartKeeps_snapshot (ready : s.wal.Ready []) :
    RestartKeeps s ↔ ∃ data, baseMap s.snapshot.dat = .ok data ∧
      data.toFinmap = s.data.toFinmap := by
  rw [restartKeeps_iff,ready.content_eq,rebuilt_nil]

/-- The 32-bit entry count cannot stand for 2^32 keys or more. -/
theorem overcounted_lost (ready : s.wal.Ready []) (many : 2 ^ 32 ≤ s.data.entries.length) :
    ¬RestartKeeps s := by
  rw [restartKeeps_snapshot ready]
  rintro ⟨data,found,map⟩
  have few := baseMap_length _ data found
  have same := (AList.toFinmap_eq.mp map).length_eq
  omega

theorem construct_empty (io : Io) (succeeds : io.Succeeds) (dataDir : String) (wal : Wal)
    (noLog : wal.file = none) :
    ∃ s, construct io dataDir wal ⟨none,none⟩ = .ok () s ∧ Backed s ∅ [] ∧
      s.data = ∅ ∧ s.snapshot.dat = none := by
  obtain ⟨w,ready,constructed⟩ := construct_ready io succeeds dataDir wal ⟨none,none⟩
  have empty : wal.content = [] := by simp [Wal.content,noLog]
  rw [empty] at ready constructed
  exact ⟨_,constructed,⟨⟨ready,by simp,∅,rfl,rfl⟩,rfl,smallMap_empty⟩,rfl,rfl⟩

/-- The snapshot a call takes can stand for the map: it has fewer than 2^32 keys, and where
it has none, and so is not written, there is no older snapshot file. -/
def SnapshotSafe (s : PersistentKvStore) (c : StoreCall) : Prop :=
  c.snapshots s → (c.op.applyTo s.data).entries.length < 2 ^ 32 ∧
    ((c.op.applyTo s.data).entries = [] → s.snapshot.dat = none)

/-- Backed, with a snapshot file only where it holds some key. -/
def Durable (s : PersistentKvStore) : Prop :=
  ∃ base log, Backed s base log ∧ (s.snapshot.dat = none ∨ base ≠ ∅)

theorem durable_kept (durable : Durable s) (succeeds : c.env.io.Succeeds) (bound : c.op.Small)
    (safe : SnapshotSafe s c) : ∃ s', c.step s = some s' ∧ Durable s' := by
  obtain ⟨base,log,backed,nonempty⟩ := durable
  obtain ⟨s',taken,data,after⟩ := c.step_ready succeeds s _ backed.ready
  refine ⟨s',taken,?_⟩
  split at after
  · next snapshot =>
    obtain ⟨files,ready⟩ := after
    obtain ⟨count,stale⟩ := safe snapshot
    rw [← data] at count stale
    have small := smallData_after backed.smallData bound data
    by_cases empty : s'.data.entries = []
    · have none := stale empty
      refine ⟨∅,[],backed_empty _ _ none empty files ready,.inl ?_⟩
      rw [files,snapshotAfter,if_pos empty,none]
    · exact ⟨_,[],backed_dumped _ _ small count empty files ready,
        .inr (mt (KvStore.toFinmap_eq_empty s'.data).mp empty)⟩
  · obtain ⟨files,ready⟩ := after
    exact ⟨base,_,backed_logged backed bound data files ready,files ▸ nonempty⟩

theorem unsafe_lost (durable : Durable s) (succeeds : c.env.io.Succeeds)
    (notSafe : ¬SnapshotSafe s c) (taken : c.step s = some s') : ¬RestartKeeps s' := by
  obtain ⟨base,log,backed,nonempty⟩ := durable
  obtain ⟨t,same,data,after⟩ := c.step_ready succeeds s _ backed.ready
  cases taken.symm.trans same
  unfold SnapshotSafe at notSafe
  push Not at notSafe
  obtain ⟨snapshot,notSafe⟩ := notSafe
  rw [if_pos snapshot] at after
  obtain ⟨files,ready⟩ := after
  rw [← data] at notSafe
  by_cases count : s'.data.entries.length < 2 ^ 32
  · -- the empty map is not written, so the older snapshot is what a restart loads
    obtain ⟨empty,stale⟩ := notSafe count
    rw [restartKeeps_snapshot ready,files,snapshotAfter,if_pos empty]
    rintro ⟨found,loaded,map⟩
    obtain ⟨old,oldLoaded,oldMap⟩ := backed.loaded
    cases loaded.symm.trans oldLoaded
    have none : s'.data = ∅ := AList.ext empty
    rw [oldMap,none] at map
    exact nonempty.elim stale fun filled => filled map
  · exact overcounted_lost ready (Nat.not_lt.mp count)

/-- Restart durability. From an empty directory, a restart keeps the map in every state
of a run exactly when every snapshot of the run is safe. -/
theorem restart_keeps_iff_snapshots_safe (io : Io) (succeeds : io.Succeeds) (dataDir : String)
    (wal : Wal) (noLog : wal.file = none) (calls : List StoreCall)
    (faultless : ∀ c ∈ calls, c.env.io.Succeeds) (small : ∀ c ∈ calls, c.op.Small) :
    ∃ s, construct io dataDir wal ⟨none,none⟩ = .ok () s ∧
      (Machine.Throughout step RestartKeeps s calls ↔ Machine.Guarded step SnapshotSafe s calls) := by
  obtain ⟨s,constructed,backed,_,none⟩ := construct_empty io succeeds dataDir wal noLog
  refine ⟨s,constructed,?_⟩
  refine Machine.throughout_iff_guarded step SnapshotSafe Durable RestartKeeps
    (fun c => c.env.io.Succeeds ∧ c.op.Small) ?_ ?_ ?_ s calls ⟨∅,[],backed,.inl none⟩
    fun c member => ⟨faultless c member,small c member⟩
  · rintro s ⟨base,log,backed,_⟩
    exact backed.restartKeeps
  · intro s c durable admitted safe
    exact durable_kept durable admitted.1 admitted.2 safe
  · intro s c s' durable admitted notSafe taken
    exact unsafe_lost durable admitted.1 notSafe taken

def emptied : List StoreCall :=
  [.mutation (.set (ascii "k") (ascii "v")),.forceSnapshot,.mutation (.delete (ascii "k")),
    .forceSnapshot].map ofOp

theorem restart_keeps_iff_snapshots_safe_emptied :
    ∃ s, construct .faultless "data" (.unopened none) ⟨none,none⟩ = .ok () s ∧
      (Machine.Throughout step RestartKeeps s emptied ↔
        Machine.Guarded step SnapshotSafe s emptied) :=
  restart_keeps_iff_snapshots_safe .faultless Io.faultless_succeeds "data" (.unopened none) rfl
    emptied (by simp [emptied,ofOp,Io.faultless_succeeds])
    (by simp [emptied,ofOp,StoreOp.Small,StoreOp.mutations]; decide)

/-- The second snapshot skips the empty map but clears the log, so the deleted key is back
after a restart. -/
theorem deleted_key_returns :
    (do let start ← Act.final (construct .faultless "data" (.unopened none) ⟨none,none⟩)
        let s ← Machine.run step start emptied
        let s' ← Act.final (restart .faultless true s)
        return (s.data.lookup (ascii "k"),s'.data.lookup (ascii "k"))) =
      some (none,some (ascii "v")) := by
  decide +kernel

theorem entries_of_applyTo (data : KvMap) (op : StoreOp)
    (noDelete : ∀ key, op ≠ .mutation (.delete key)) (empty : (op.applyTo data).entries = []) :
    data.entries = [] := by
  cases op with
  | forceSnapshot => exact empty
  | mutation m =>
    cases m with
    | delete key => exact absurd rfl (noDelete key)
    | set key value => simp [StoreOp.applyTo,Mutation.applyTo,KvStore.set,AList.entries_insert] at empty

/-- The lengths of what a call writes fit their fields: 16 bits for a key and for a value,
32 bits for the number of entries of a snapshot. -/
def LengthsFit (s : PersistentKvStore) (c : StoreCall) : Prop :=
  c.op.Small ∧ (c.snapshots s → (c.op.applyTo s.data).entries.length < 2 ^ 32)

/-- Backed, and without a snapshot file as long as there is no key. -/
def Grown (s : PersistentKvStore) : Prop :=
  ∃ base log, Backed s base log ∧ (s.data.entries = [] → s.snapshot.dat = none)

theorem grown_kept (grown : Grown s) (succeeds : c.env.io.Succeeds)
    (noDelete : ∀ key, c.op ≠ .mutation (.delete key)) (fits : LengthsFit s c) :
    ∃ s', c.step s = some s' ∧ Grown s' := by
  obtain ⟨base,log,backed,unsaved⟩ := grown
  obtain ⟨s',taken,data,after⟩ := c.step_ready succeeds s _ backed.ready
  refine ⟨s',taken,?_⟩
  have stillUnsaved : s'.data.entries = [] → s.snapshot.dat = none := fun empty =>
    unsaved (entries_of_applyTo s.data c.op noDelete (data ▸ empty))
  split at after
  · next snapshot =>
    obtain ⟨files,ready⟩ := after
    have small := smallData_after backed.smallData fits.1 data
    have count := fits.2 snapshot
    rw [← data] at count
    by_cases empty : s'.data.entries = []
    · refine ⟨∅,[],backed_empty _ _ (stillUnsaved empty) empty files ready,fun _ => ?_⟩
      rw [files,snapshotAfter,if_pos empty]
      exact stillUnsaved empty
    · exact ⟨_,[],backed_dumped _ _ small count empty files ready,fun none => absurd none empty⟩
  · obtain ⟨files,ready⟩ := after
    exact ⟨base,_,backed_logged backed fits.1 data files ready,files ▸ stillUnsaved⟩

theorem oversized_set (noDelete : ∀ key, c.op ≠ .mutation (.delete key)) (large : ¬c.op.Small)
    (data : s'.data = c.op.applyTo s.data) : ¬SmallMap s'.data.toFinmap := by
  intro small
  obtain ⟨op,env⟩ := c
  cases op with
  | forceSnapshot => exact large (by simp [StoreOp.Small,StoreOp.mutations])
  | mutation m =>
    cases m with
    | delete key => exact noDelete key rfl
    | set key value =>
      have found := small key value (by
        rw [data,StoreOp.applyTo,Mutation.applyTo_toFinmap,Update.lookup_apply]
        exact if_pos rfl)
      exact large fun m member => List.mem_singleton.mp member ▸ found

theorem unfit_lost (grown : Grown s) (succeeds : c.env.io.Succeeds)
    (noDelete : ∀ key, c.op ≠ .mutation (.delete key)) (unfit : ¬LengthsFit s c)
    (taken : c.step s = some s') : ¬RestartKeeps s' := by
  obtain ⟨base,log,backed,_⟩ := grown
  obtain ⟨t,same,data,after⟩ := c.step_ready succeeds s _ backed.ready
  cases taken.symm.trans same
  by_cases small : c.op.Small
  · unfold LengthsFit at unfit
    push Not at unfit
    obtain ⟨snapshot,many⟩ := unfit small
    rw [if_pos snapshot] at after
    exact overcounted_lost after.2 (data ▸ many)
  · exact oversized_lost (oversized_set noDelete small data)

/-- Entry sizes. From an empty directory, a restart keeps the map in every state of a run
of Sets and snapshots exactly when every length of the run fits its field. -/
theorem restart_keeps_sets_iff_lengths_fit (io : Io) (succeeds : io.Succeeds) (dataDir : String)
    (wal : Wal) (noLog : wal.file = none) (calls : List StoreCall)
    (faultless : ∀ c ∈ calls, c.env.io.Succeeds)
    (noDelete : ∀ c ∈ calls, ∀ key, c.op ≠ .mutation (.delete key)) :
    ∃ s, construct io dataDir wal ⟨none,none⟩ = .ok () s ∧
      (Machine.Throughout step RestartKeeps s calls ↔ Machine.Guarded step LengthsFit s calls) := by
  obtain ⟨s,constructed,backed,_,none⟩ := construct_empty io succeeds dataDir wal noLog
  refine ⟨s,constructed,?_⟩
  refine Machine.throughout_iff_guarded step LengthsFit Grown RestartKeeps
    (fun c => c.env.io.Succeeds ∧ ∀ key, c.op ≠ .mutation (.delete key)) ?_ ?_ ?_ s calls
    ⟨∅,[],backed,fun _ => none⟩ fun c member => ⟨faultless c member,noDelete c member⟩
  · rintro s ⟨base,log,backed,_⟩
    exact backed.restartKeeps
  · intro s c grown admitted fits
    exact grown_kept grown admitted.1 admitted.2 fits
  · intro s c s' grown admitted unfit taken
    exact unfit_lost grown admitted.1 admitted.2 unfit taken

def largeKey : Bytes := List.replicate 65536 0#8

def largeSet : StoreCall := ofOp (.mutation (.set largeKey []))

theorem largeSet_noDelete (key : Bytes) : largeSet.op ≠ .mutation (.delete key) := by
  simp [largeSet,ofOp]

theorem restart_keeps_sets_iff_lengths_fit_large :
    ∃ s, construct .faultless "data" (.unopened none) ⟨none,none⟩ = .ok () s ∧
      (Machine.Throughout step RestartKeeps s [largeSet,ofOp .forceSnapshot] ↔
        Machine.Guarded step LengthsFit s [largeSet,ofOp .forceSnapshot]) :=
  restart_keeps_sets_iff_lengths_fit .faultless Io.faultless_succeeds "data" (.unopened none) rfl
    [largeSet,ofOp .forceSnapshot] (by simp [largeSet,ofOp,Io.faultless_succeeds])
    (by simp [largeSet_noDelete,ofOp])

/-- The length field holds 65536 mod 2^16 while all the bytes follow it. -/
theorem large_key_lost :
    ∃ start s, construct .faultless "data" (.unopened none) ⟨none,none⟩ = .ok () start ∧
      Machine.run step start [largeSet] = some s ∧ ¬RestartKeeps s := by
  obtain ⟨start,constructed,backed,_⟩ :=
    construct_empty .faultless Io.faultless_succeeds "data" (.unopened none) rfl
  obtain ⟨s,taken,data,_⟩ := largeSet.step_ready Io.faultless_succeeds start _ backed.ready
  have length : largeKey.length = 65536 := List.length_replicate
  have large : ¬largeSet.op.Small := by
    simp [largeSet,ofOp,StoreOp.Small,StoreOp.mutations,Mutation.Small,Mutation.record,
      WalRecord.Small,length]
  exact ⟨start,s,constructed,by simp [Machine.run,taken],
    oversized_lost (oversized_set largeSet_noDelete large data)⟩

end StoreCall

end KvCache
