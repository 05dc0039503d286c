import KvCache.PersistentKvStore

/-! What the constructor finds in the files of a data directory, and the relation between
files and memory that makes a restart find what memory holds. -/
namespace KvCache

/-- The update a log record replays to; other op codes replay to nothing. -/
def WalRecord.update? (r : WalRecord) : Option (Update Bytes Bytes) :=
  if r.op = .SET then some ⟨r.key,some r.value⟩
  else if r.op = .DEL then some ⟨r.key,none⟩
  else none

@[simp] theorem Mutation.record_update (m : Mutation) : m.record.update? = some m.update := by
  cases m <;> rfl

namespace PersistentKvStore

theorem applyRecord_toFinmap (data : KvMap) (r : WalRecord) :
    (applyRecord data r).toFinmap = r.update?.elim data.toFinmap (Update.apply data.toFinmap) := by
  unfold applyRecord WalRecord.update?
  split
  · exact KvStore.set_toFinmap data r.key r.value
  · split
    · exact KvStore.delete_toFinmap data r.key
    · rfl

theorem foldl_applyRecord_toFinmap (data : KvMap) (records : List WalRecord) :
    (records.foldl applyRecord data).toFinmap =
      Update.replay data.toFinmap (records.filterMap WalRecord.update?) := by
  induction records generalizing data with
  | nil => rfl
  | cons r records ih =>
    rw [List.foldl_cons,ih,applyRecord_toFinmap]
    cases update : r.update? <;> simp [update]

theorem lookup_insertEntries (data : KvMap) (entries : List SnapshotEntry)
    (distinct : (entries.map SnapshotEntry.key).Nodup) (key value : Bytes) :
    (insertEntries data entries).lookup key = some value ↔
      ⟨key,value⟩ ∈ entries ∨
        key ∉ entries.map SnapshotEntry.key ∧ data.lookup key = some value := by
  induction entries generalizing data with
  | nil => simp [insertEntries]
  | cons e entries ih =>
    obtain ⟨fresh,distinct⟩ := List.nodup_cons.mp distinct
    have step := ih (data.insert e.key e.value) distinct
    rw [insertEntries,List.foldl_cons,← insertEntries,step]
    obtain ⟨k,v⟩ := e
    by_cases same : key = k
    · subst same
      have absent : ∀ v', ⟨key,v'⟩ ∉ entries := fun v' member =>
        fresh (List.mem_map.mpr ⟨_,member,rfl⟩)
      have head : v = value ↔ value = v := eq_comm
      simp [absent,fresh,head]
    · simp [same,AList.lookup_insert_ne same]

/-- The map of a snapshot file; a file that does not load counts as no file. -/
def baseMap (dat : Option Bytes) : Except Fault KvMap := do
  match ← Snapshot.load dat with
  | some entries => return insertEntries ∅ entries
  | none => return ∅

/-- The map the constructor rebuilds from a snapshot file and a log. -/
def rebuilt (dat : Option Bytes) (log : Bytes) : Except Fault KvMap := do
  return (Wal.logged log).foldl applyRecord (← baseMap dat)

theorem recover_ready (s : PersistentKvStore) (content : Bytes) (ready : s.wal.Ready content)
    (fresh : s.data = ∅) :
    recover s = match rebuilt s.snapshot.dat content with
      | .ok data => .ok () { s with data := data }
      | .error e => .error e s := by
  obtain ⟨dataDir,data,wal,snapshot,opCount,burstWindow⟩ := s
  subst fresh
  have records (data : KvMap) := onWal_ok Wal.readAll
    ⟨dataDir,data,wal,snapshot,opCount,burstWindow⟩ _ _ (Wal.readAll_ready wal content ready)
  cases loaded : Snapshot.load snapshot.dat with
  | error e =>
    have invalid : Snapshot.isValid snapshot.dat = .error e := by rw [Snapshot.isValid,loaded]; rfl
    have found : rebuilt snapshot.dat content = .error e := by rw [rebuilt,baseMap,loaded]; rfl
    simp [recover,invalid,found]
  | ok entries =>
    have valid : Snapshot.isValid snapshot.dat = .ok entries.isSome := by
      rw [Snapshot.isValid,loaded]; rfl
    cases entries with
    | none =>
      have found : rebuilt snapshot.dat content =
          .ok ((Wal.logged content).foldl applyRecord ∅) := by rw [rebuilt,baseMap,loaded]; rfl
      simp [recover,valid,found,records]
    | some entries =>
      have found : rebuilt snapshot.dat content =
          .ok ((Wal.logged content).foldl applyRecord (insertEntries ∅ entries)) := by
        rw [rebuilt,baseMap,loaded]; rfl
      simp [recover,valid,loaded,found,records]

/-- The constructor rebuilds memory from the two files, whatever state the WAL
singleton is in, and appends go on at the end of the log. -/
theorem construct_ready (io : Io) (succeeds : io.Succeeds) (dataDir : String) (wal : Wal)
    (snapshot : SnapshotFiles) :
    ∃ w, w.Ready wal.content ∧ construct io dataDir wal snapshot =
      match rebuilt snapshot.dat wal.content with
      | .ok data => .ok () ⟨dataDir,data,w,snapshot,0,⟨kBurstMaxOps,kBurstWindow,[]⟩⟩
      | .error e => .error e ⟨dataDir,∅,w,snapshot,0,⟨kBurstMaxOps,kBurstWindow,[]⟩⟩ := by
  obtain ⟨w,opened,ready⟩ :=
    Wal.init_ready io.wal succeeds.wal (dataDir ++ "/wal.log") .NO wal
  refine ⟨w,ready,?_⟩
  have started := onWal_ok _
    ⟨dataDir,∅,wal,snapshot,0,⟨kBurstMaxOps,kBurstWindow,[]⟩⟩ () w opened
  simp only [construct,Act.bind_apply,started]
  exact recover_ready ⟨dataDir,∅,w,snapshot,0,⟨kBurstMaxOps,kBurstWindow,[]⟩⟩ _ ready rfl

/-- A restart keeps the map of the store: the new store is constructed and holds it. -/
def RestartKeeps (s : PersistentKvStore) : Prop :=
  ∀ io newProcess, io.Succeeds →
    ∃ s', restart io newProcess s = .ok () s' ∧ s'.data.toFinmap = s.data.toFinmap

theorem restart_map (io : Io) (succeeds : io.Succeeds) (newProcess : Bool) (s : PersistentKvStore)
    (m : PlainMap) :
    (∃ s', restart io newProcess s = .ok () s' ∧ s'.data.toFinmap = m) ↔
      ∃ data, rebuilt s.snapshot.dat s.wal.content = .ok data ∧ data.toFinmap = m := by
  obtain ⟨w,_,constructed⟩ := construct_ready io succeeds s.dataDir
    (if newProcess then .unopened s.wal.file else s.wal) s.snapshot
  have content : (if newProcess then Wal.unopened s.wal.file else s.wal).content = s.wal.content := by
    cases newProcess <;> rfl
  rw [content] at constructed
  rw [restart,constructed]
  cases rebuilt s.snapshot.dat s.wal.content with
  | error e => simp
  | ok data => simp

theorem restartKeeps_iff (s : PersistentKvStore) :
    RestartKeeps s ↔
      ∃ data, rebuilt s.snapshot.dat s.wal.content = .ok data ∧
        data.toFinmap = s.data.toFinmap := by
  constructor
  · intro keeps
    exact (restart_map .faultless Io.faultless_succeeds true s _).mp
      (keeps .faultless true Io.faultless_succeeds)
  · intro found io newProcess succeeds
    exact (restart_map io succeeds newProcess s _).mpr found

def SmallMap (m : PlainMap) : Prop :=
  ∀ key value, m.lookup key = some value → key.length < 65536 ∧ value.length < 65536

theorem smallMap_empty : SmallMap (∅ : KvMap).toFinmap := by
  intro key value found
  simp at found

theorem SmallMap.apply {m : PlainMap} (small : SmallMap m) (op : Mutation) (bound : op.Small) :
    SmallMap (Update.apply m op.update) := by
  intro key value found
  rw [Update.lookup_apply] at found
  split at found
  · next same =>
    subst same
    cases op with
    | set k v => cases found; exact bound
    | delete k => cases found
  · exact small key value found

theorem insertEntries_small (data : KvMap) (small : SmallMap data.toFinmap)
    (entries : List SnapshotEntry) (bound : ∀ e ∈ entries, e.Small) :
    SmallMap (insertEntries data entries).toFinmap := by
  induction entries generalizing data with
  | nil => exact small
  | cons e entries ih =>
    have head := small.apply (.set e.key e.value) (bound e List.mem_cons_self)
    rw [← Mutation.applyTo_toFinmap] at head
    exact ih _ head fun x member => bound x (List.mem_cons_of_mem e member)

theorem replay_small (m : PlainMap) (small : SmallMap m) (records : List WalRecord)
    (bound : ∀ r ∈ records, r.Small) :
    SmallMap (Update.replay m (records.filterMap WalRecord.update?)) := by
  induction records generalizing m with
  | nil => exact small
  | cons r records ih =>
    have rest (m' : PlainMap) (small : SmallMap m') :=
      ih m' small fun x member => bound x (List.mem_cons_of_mem r member)
    have head := bound r List.mem_cons_self
    cases update : r.update? with
    | none =>
      rw [List.filterMap_cons_none update]
      exact rest m small
    | some u =>
      rw [List.filterMap_cons_some update,Update.replay_cons]
      refine rest _ ?_
      -- a record that replays is the record of a mutation with its key and value
      unfold WalRecord.update? at update
      split at update
      · cases update; exact small.apply (.set r.key r.value) head
      · split at update
        · cases update; exact small.apply (.delete r.key) ⟨head.1,by simp [Mutation.record]⟩
        · cases update

theorem lookup_iff_entriesOf (data : KvMap) (key value : Bytes) :
    data.toFinmap.lookup key = some value ↔ ⟨key,value⟩ ∈ entriesOf data := by
  rw [Finmap.lookup_toFinmap,← Option.mem_def,AList.mem_lookup_iff]
  simp [entriesOf]

/-- A snapshot loads to the map it was taken of, in whatever order it was dumped. -/
theorem baseMap_content (order : IterOrder) (data : KvMap) (small : SmallMap data.toFinmap)
    (count : data.entries.length < 2 ^ 32) :
    ∃ base, baseMap (some (Snapshot.content (order.arrange (entriesOf data)))) = .ok base ∧
      base.toFinmap = data.toFinmap := by
  have perm := order.perm (entriesOf data)
  have smallEntries : ∀ e ∈ order.arrange (entriesOf data), e.Small := fun e member =>
    small e.key e.value ((lookup_iff_entriesOf data e.key e.value).mpr (perm.mem_iff.mp member))
  have fits : (order.arrange (entriesOf data)).length < 2 ^ 32 := by
    rw [perm.length_eq,entriesOf,List.length_map]; exact count
  have keys : (entriesOf data).map SnapshotEntry.key = data.keys := by
    simp [entriesOf,AList.keys,List.keys]
  have distinct : ((order.arrange (entriesOf data)).map SnapshotEntry.key).Nodup := by
    rw [(perm.map _).nodup_iff,keys]
    exact data.nodupKeys
  refine ⟨insertEntries ∅ (order.arrange (entriesOf data)),?_,?_⟩
  · rw [baseMap,Snapshot.load,Snapshot.readSnapshot_content _ smallEntries fits]
    rfl
  · refine Finmap.ext_lookup fun key => Option.ext fun value => ?_
    rw [lookup_iff_entriesOf data,Finmap.lookup_toFinmap,lookup_insertEntries _ _ distinct,
      perm.mem_iff]
    simp

/-- Whatever the files are, only small entries are rebuilt from them: the lengths they
record have 16 bits. -/
theorem rebuilt_small (dat : Option Bytes) (log : Bytes) (data : KvMap)
    (found : rebuilt dat log = .ok data) : SmallMap data.toFinmap := by
  simp only [rebuilt,baseMap,Fault.bind_ok_iff] at found
  obtain ⟨base,⟨entries,loaded,based⟩,replayed⟩ := found
  cases replayed
  have baseSmall : SmallMap base.toFinmap := by
    cases entries with
    | none => cases based; exact smallMap_empty
    | some entries =>
      cases based
      exact insertEntries_small ∅ smallMap_empty entries (Snapshot.load_bounds dat entries loaded).2
  rw [foldl_applyRecord_toFinmap]
  obtain ⟨_,_,bound,_⟩ := Wal.logged_sound log
  exact replay_small _ baseSmall _ bound

theorem insertEntries_length_le (data : KvMap) (entries : List SnapshotEntry) :
    (insertEntries data entries).entries.length ≤ data.entries.length + entries.length := by
  induction entries generalizing data with
  | nil => simp [insertEntries]
  | cons e entries ih =>
    have step := ih (data.insert e.key e.value)
    have one := KvStore.set_length_le data e.key e.value
    simp only [insertEntries,List.foldl_cons,List.length_cons,KvStore.set] at *
    omega

theorem baseMap_length (dat : Option Bytes) (data : KvMap) (found : baseMap dat = .ok data) :
    data.entries.length < 2 ^ 32 := by
  simp only [baseMap,Fault.bind_ok_iff] at found
  obtain ⟨entries,loaded,based⟩ := found
  cases entries with
  | none => cases based; decide
  | some entries =>
    cases based
    have bound := insertEntries_length_le ∅ entries
    have count := (Snapshot.load_bounds dat entries loaded).1
    rw [AList.empty_entries,List.length_nil] at bound
    omega

/-- The files stand for a base map with a log of operations on it. -/
structure Persisted (s : PersistentKvStore) (base : PlainMap) (log : List Mutation) : Prop where
  ready : s.wal.Ready (WalRecord.framing.stream (log.map Mutation.record))
  small : ∀ m ∈ log, m.Small
  loaded : ∃ data, baseMap s.snapshot.dat = .ok data ∧ data.toFinmap = base

theorem rebuilt_map (dat : Option Bytes) (log : Bytes) (base : PlainMap)
    (loaded : ∃ data, baseMap dat = .ok data ∧ data.toFinmap = base) :
    ∃ data, rebuilt dat log = .ok data ∧
      data.toFinmap = Update.replay base ((Wal.logged log).filterMap WalRecord.update?) := by
  obtain ⟨start,loaded,rfl⟩ := loaded
  exact ⟨(Wal.logged log).foldl applyRecord start,by rw [rebuilt,loaded]; rfl,
    foldl_applyRecord_toFinmap start _⟩

theorem records_updates (log : List Mutation) :
    (log.map Mutation.record).filterMap WalRecord.update? = log.map Mutation.update := by
  simp [List.filterMap_map]

theorem Persisted.rebuilt_eq {s : PersistentKvStore} {base : PlainMap} {log : List Mutation}
    (files : Persisted s base log) :
    ∃ data, rebuilt s.snapshot.dat s.wal.content = .ok data ∧
      data.toFinmap = Update.replay base (log.map Mutation.update) := by
  have found : Wal.logged s.wal.content = log.map Mutation.record := by
    rw [files.ready.content_eq]
    refine Wal.logged_stream _ fun r member => ?_
    obtain ⟨m,logged,rfl⟩ := List.mem_map.mp member
    exact files.small m logged
  have rebuilt := rebuilt_map s.snapshot.dat s.wal.content base files.loaded
  rwa [found,records_updates] at rebuilt

theorem persisted_dumped (s : PersistentKvStore) (order : IterOrder) (files : SnapshotFiles)
    (small : SmallMap s.data.toFinmap) (count : s.data.entries.length < 2 ^ 32)
    (filled : s.data.entries ≠ []) (snapshot : s.snapshot = snapshotAfter order s.data files)
    (ready : s.wal.Ready []) : Persisted s s.data.toFinmap [] where
  ready := ready
  small := by simp
  loaded := by
    rw [snapshot,snapshotAfter,if_neg filled]
    exact baseMap_content order s.data small count

theorem rebuilt_nil (dat : Option Bytes) : rebuilt dat [] = baseMap dat := by
  have none : Wal.logged [] = [] := rfl
  rw [rebuilt,none]
  cases baseMap dat <;> rfl

/-- The files stand for the map in memory. -/
structure Backed (s : PersistentKvStore) (base : PlainMap) (log : List Mutation) : Prop
    extends Persisted s base log where
  current : Update.replay base (log.map Mutation.update) = s.data.toFinmap
  smallData : SmallMap s.data.toFinmap

theorem Backed.restartKeeps {s : PersistentKvStore} {base : PlainMap} {log : List Mutation}
    (backed : Backed s base log) : RestartKeeps s := by
  obtain ⟨data,found,map⟩ := backed.rebuilt_eq
  exact (restartKeeps_iff s).mpr ⟨data,found,map.trans backed.current⟩

theorem opened_backed (n : Nat) : Backed { opened with opCount := n } ∅ [] :=
  ⟨⟨⟨rfl,rfl,rfl,rfl,rfl⟩,by simp,∅,rfl,rfl⟩,rfl,smallMap_empty⟩

end PersistentKvStore

end KvCache
