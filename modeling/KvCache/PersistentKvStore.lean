import KvCache.Wal
import KvCache.SnapshotFile
import KvCache.KvStore

/-! The persistent store: memory, log, snapshot and the burst window, with each critical
section of the source as one definition. What the surroundings decide (clock readings,
the iteration order of the hash map, the answers of system calls) is an input of each call. -/
namespace KvCache

abbrev Time := Int

structure SlidingWindow where
  maxOps : Int
  windowSize : Time
  /-- The deque, oldest first. -/
  timestamps : List Time
  deriving DecidableEq, Repr

namespace SlidingWindow

def addOp (w : SlidingWindow) (now : Time) : SlidingWindow :=
  { w with timestamps := w.timestamps ++ [now] }

/-- The scan from the newest timestamp, stopping at the first expired one. -/
def scan (cutoff : Time) : List Time → Nat
  | [] => 0
  | t :: older => if t < cutoff then 0 else scan cutoff older + 1

def count (w : SlidingWindow) (now : Time) : Nat := scan (now - w.windowSize) w.timestamps.reverse

/-- The count is cast to a 32-bit `int` for the comparison. -/
def isExceeded (w : SlidingWindow) (now : Time) : Bool :=
  decide (w.maxOps < Int.bmod (w.count now) (2 ^ 32))

def clear (w : SlidingWindow) : SlidingWindow := { w with timestamps := [] }

end SlidingWindow

structure Io where
  wal : WalIo
  snapshot : SnapshotIo

structure Io.Succeeds (io : Io) : Prop where
  wal : io.wal.Succeeds
  snapshot : io.snapshot.Succeeds

def Io.faultless : Io :=
  ⟨⟨fun _ => .opened,some,true⟩,⟨true,fun _ count => some count,true⟩⟩

theorem Io.faultless_succeeds : Io.faultless.Succeeds :=
  ⟨⟨fun _ => rfl,fun _ => rfl,rfl⟩,⟨rfl,fun _ count positive => ⟨count,rfl,positive⟩,rfl⟩⟩

/-- An iteration order of `flat_hash_map`: any rearrangement of the entries. -/
structure IterOrder where
  arrange : List SnapshotEntry → List SnapshotEntry
  perm : ∀ entries, (arrange entries).Perm entries

/-- What one call finds around it: the two clock readings of the window, the iteration
order and the system calls of a snapshot. -/
structure Env where
  addOpAt : Time
  isExceededAt : Time
  order : IterOrder
  io : Io

/-- Clock time 0, the order of the list, and system calls that succeed at once. -/
def Env.faultless : Env := ⟨0,0,⟨id,fun _ => .refl _⟩,.faultless⟩

@[simp] theorem Env.faultless_io : Env.faultless.io = .faultless := rfl

structure PersistentKvStore where
  dataDir : String
  data : KvMap
  wal : Wal
  snapshot : SnapshotFiles
  opCount : Nat
  burstWindow : SlidingWindow

namespace PersistentKvStore

def kSnapshotInterval : Nat := 500
def kBurstMaxOps : Int := 100
/-- One second, in the nanoseconds of `steady_clock`. -/
def kBurstWindow : Time := 1000 * 1000000

def onWal {α : Type} (x : Act Wal α) : Act PersistentKvStore α :=
  Act.zoom PersistentKvStore.wal (fun w s => { s with wal := w }) x

def entriesOf (data : KvMap) : List SnapshotEntry := data.entries.map fun e => ⟨e.1,e.2⟩

/-- The first loop of `Recover`. -/
def insertEntries (data : KvMap) (entries : List SnapshotEntry) : KvMap :=
  entries.foldl (fun d e => d.insert e.key e.value) data

/-- The switch of the second loop of `Recover`; other op codes fall through it. -/
def applyRecord (data : KvMap) (record : WalRecord) : KvMap :=
  if record.op = .SET then data.insert record.key record.value
  else if record.op = .DEL then data.erase record.key
  else data

def recover : Act PersistentKvStore Unit := do
  let files := (← get).snapshot
  if ← ofExcept (Snapshot.isValid files.dat) then
    match ← ofExcept (Snapshot.load files.dat) with
    | some entries => modify fun s => { s with data := insertEntries s.data entries }
    | none => pure ()
  let records ← onWal Wal.readAll
  modify fun s => { s with data := records.foldl applyRecord s.data }

/-- The constructor, on the files of a data directory and the WAL singleton as it stands. -/
def construct (io : Io) (dataDir : String) (wal : Wal) (snapshot : SnapshotFiles) :
    EStateM.Result Fault PersistentKvStore Unit :=
  (do
    onWal (Wal.init io.wal (dataDir ++ "/wal.log") .NO)
    recover : Act PersistentKvStore Unit)
    ⟨dataDir,∅,wal,snapshot,0,⟨kBurstMaxOps,kBurstWindow,[]⟩⟩

/-- The store on an empty directory. -/
def opened : PersistentKvStore :=
  ⟨"data",∅,⟨"data/wal.log",some [],some 0,0,true,true,.NO⟩,⟨none,none⟩,0,
    ⟨kBurstMaxOps,kBurstWindow,[]⟩⟩

example : construct .faultless "data" (.unopened none) ⟨none,none⟩ = .ok () opened := rfl

/-- A new store on the directory of this one, in a new process or in the same one, where
the WAL singleton is still open. -/
def restart (io : Io) (newProcess : Bool) (s : PersistentKvStore) :
    EStateM.Result Fault PersistentKvStore Unit :=
  construct io s.dataDir (if newProcess then .unopened s.wal.file else s.wal) s.snapshot

/-- Dump under both locks, write the snapshot unless the dump is empty, truncate the WAL. -/
def createSnapshot (env : Env) : Act PersistentKvStore Unit := do
  let snapshotData := env.order.arrange (entriesOf (← get).data)
  if !snapshotData.isEmpty then
    modify fun s =>
      { s with snapshot := (Snapshot.create env.io.snapshot snapshotData s.snapshot).2 }
  onWal (Wal.clearWithoutLock env.io.wal)
  modify fun s => { s with opCount := 0, burstWindow := s.burstWindow.clear }

def forceSnapshot (env : Env) : Act PersistentKvStore Unit := createSnapshot env

def shouldSnapshot (s : PersistentKvStore) (now : Time) : Bool :=
  decide (kSnapshotInterval ≤ s.opCount) || s.burstWindow.isExceeded now

def checkSnapshotTrigger (env : Env) : Act PersistentKvStore Unit := do
  if (← get).shouldSnapshot env.isExceededAt then createSnapshot env

/-- `++op_count_` and `AddOp`. -/
def countOp (now : Time) (s : PersistentKvStore) : PersistentKvStore :=
  { s with opCount := (s.opCount + 1) % 2 ^ 64, burstWindow := s.burstWindow.addOp now }

def set (env : Env) (key value : Bytes) : Act PersistentKvStore Unit := do
  onWal (Wal.appendSet env.io.wal key value)
  modify fun s => { s with data := KvStore.set s.data key value }
  modify (countOp env.addOpAt)
  checkSnapshotTrigger env

def delete (env : Env) (key : Bytes) : Act PersistentKvStore Bool := do
  onWal (Wal.appendDel env.io.wal key)
  let result := (KvStore.delete (← get).data key).1
  modify fun s => { s with data := (KvStore.delete s.data key).2 }
  modify (countOp env.addOpAt)
  checkSnapshotTrigger env
  return result

section

open Act

theorem checkSnapshotTrigger_failsWith (env : Env) :
    FailsWith (·.isRuntimeError) (checkSnapshotTrigger env) := by
  have cleared : FailsWith (·.isRuntimeError) (onWal (Wal.clearWithoutLock env.io.wal)) :=
    failsWith_zoom _ _ (Wal.clearWithoutLock_failsWith env.io.wal)
  have created : FailsWith (·.isRuntimeError) (createSnapshot env) := by
    refine failsWith_bind failsWith_get fun s => ?_
    have last := failsWith_bind cleared fun _ => failsWith_modify
      fun s => { s with opCount := 0, burstWindow := s.burstWindow.clear }
    exact failsWith_ite _ (failsWith_bind (failsWith_modify _) fun _ => last) last
  exact failsWith_bind failsWith_get fun s => failsWith_ite _ created (failsWith_pure _)

theorem set_failsWith (env : Env) (key value : Bytes) :
    FailsWith (·.isRuntimeError) (set env key value) := by
  refine failsWith_bind (failsWith_zoom _ _ (Wal.append_failsWith env.io.wal _)) fun _ => ?_
  refine failsWith_bind (failsWith_modify _) fun _ => ?_
  exact failsWith_bind (failsWith_modify _) fun _ => checkSnapshotTrigger_failsWith env

theorem delete_failsWith (env : Env) (key : Bytes) :
    FailsWith (·.isRuntimeError) (delete env key) := by
  refine failsWith_bind (failsWith_zoom _ _ (Wal.append_failsWith env.io.wal _)) fun _ => ?_
  refine failsWith_bind failsWith_get fun s => failsWith_bind (failsWith_modify _) fun _ => ?_
  refine failsWith_bind (failsWith_modify _) fun _ => ?_
  exact failsWith_bind (checkSnapshotTrigger_failsWith env) fun _ => failsWith_pure _

end

theorem onWal_ok {α : Type} (x : Act Wal α) (s : PersistentKvStore) (a : α) (w : Wal)
    (run : x s.wal = .ok a w) : onWal x s = .ok a { s with wal := w } :=
  Act.zoom_ok _ _ x s a w run

theorem onWal_data {α : Type} (x : Act Wal α) (s s' : PersistentKvStore) (a : α)
    (ran : onWal x s = .ok a s') : s'.data = s.data := by
  simp only [onWal,Act.zoom] at ran
  split at ran
  · cases ran; rfl
  · cases ran

theorem onWal_error {α : Type} (x : Act Wal α) (s : PersistentKvStore) (e : Fault) (w : Wal)
    (run : x s.wal = .error e w) : onWal x s = .error e { s with wal := w } := by
  simp [onWal,Act.zoom,run]

theorem arrange_eq_nil (order : IterOrder) (data : KvMap) :
    order.arrange (entriesOf data) = [] ↔ data.entries = [] := by
  rw [← List.length_eq_zero_iff,(order.perm _).length_eq,entriesOf,List.length_map,
    List.length_eq_zero_iff]

/-- The snapshot files after the dump: the old ones when the map is empty. -/
def dumped (env : Env) (s : PersistentKvStore) : SnapshotFiles :=
  if s.data.entries = [] then s.snapshot
  else (Snapshot.create env.io.snapshot (env.order.arrange (entriesOf s.data)) s.snapshot).2

/-- What becomes of the snapshot does not reach the truncation of the log. -/
theorem createSnapshot_apply (env : Env) (s : PersistentKvStore) :
    createSnapshot env s =
      match Wal.clearWithoutLock env.io.wal s.wal with
      | .ok _ w => .ok () { s with wal := w, snapshot := dumped env s, opCount := 0,
                                   burstWindow := s.burstWindow.clear }
      | .error e w => .error e { s with wal := w, snapshot := dumped env s } := by
  have arranged := arrange_eq_nil env.order s.data
  by_cases none : s.data.entries = []
  · simp only [createSnapshot,dumped,none,arranged.mpr none,onWal,Act.zoom,Act.bind_apply,
      Act.get_apply,Act.ite_apply,Act.modify_apply]
    cases Wal.clearWithoutLock env.io.wal s.wal <;> rfl
  · have some := mt arranged.mp none
    simp only [createSnapshot,dumped,none,onWal,Act.zoom,Act.bind_apply,Act.get_apply,
      Act.ite_apply,Act.modify_apply]
    cases Wal.clearWithoutLock env.io.wal s.wal <;> simp [some]

theorem createSnapshot_data (env : Env) (s s' : PersistentKvStore)
    (ran : createSnapshot env s = .ok () s') : s'.data = s.data := by
  rw [createSnapshot_apply] at ran
  split at ran <;> cases ran
  rfl

/-- The snapshot files after a successful `CreateSnapshot`: the old ones when the map is empty. -/
def snapshotAfter (order : IterOrder) (data : KvMap) (files : SnapshotFiles) : SnapshotFiles :=
  if data.entries = [] then files
  else ⟨some (Snapshot.content (order.arrange (entriesOf data))),none⟩

theorem createSnapshot_ready (env : Env) (succeeds : env.io.Succeeds) (s : PersistentKvStore)
    (content : Bytes) (ready : s.wal.Ready content) :
    ∃ w, w.Ready [] ∧ createSnapshot env s =
      .ok () { s with wal := w, snapshot := snapshotAfter env.order s.data s.snapshot,
                      opCount := 0, burstWindow := s.burstWindow.clear } := by
  obtain ⟨w,cleared,empty⟩ :=
    Wal.clearWithoutLock_ready env.io.wal succeeds.wal s.wal content ready
  have written := Snapshot.writeSnapshot_succeeds env.io.snapshot succeeds.snapshot
    (env.order.arrange (entriesOf s.data)) s.snapshot
  refine ⟨w,empty,?_⟩
  simp [createSnapshot_apply,cleared,dumped,Snapshot.create,written,snapshotAfter]

theorem checkSnapshotTrigger_apply (env : Env) (s : PersistentKvStore) :
    checkSnapshotTrigger env s =
      if s.shouldSnapshot env.isExceededAt then createSnapshot env s else .ok () s := by
  simp [checkSnapshotTrigger]

theorem checkSnapshotTrigger_ready (env : Env) (succeeds : env.io.Succeeds) (s : PersistentKvStore)
    (content : Bytes) (ready : s.wal.Ready content) :
    ∃ s' content', checkSnapshotTrigger env s = .ok () s' ∧ s'.data = s.data ∧
      s'.wal.Ready content' := by
  rw [checkSnapshotTrigger_apply]
  split
  · obtain ⟨w,empty,ran⟩ := createSnapshot_ready env succeeds s content ready
    exact ⟨_,[],ran,rfl,empty⟩
  · exact ⟨s,content,rfl,rfl,ready⟩

end PersistentKvStore

/-- The two logged operations. -/
inductive Mutation where
  | set (key value : Bytes)
  | delete (key : Bytes)
  deriving DecidableEq, Repr

namespace Mutation

def record : Mutation → WalRecord
  | set key value => ⟨.SET,key,value⟩
  | delete key => ⟨.DEL,key,[]⟩

def update : Mutation → Update Bytes Bytes
  | set key value => ⟨key,some value⟩
  | delete key => ⟨key,none⟩

def key (m : Mutation) : Bytes := m.update.key

def applyTo (data : KvMap) : Mutation → KvMap
  | set key value => KvStore.set data key value
  | delete key => (KvStore.delete data key).2

/-- The whole operation on a store; what `Delete` returns is left aside. -/
def run (env : Env) : Mutation → Act PersistentKvStore Unit
  | set key value => PersistentKvStore.set env key value
  | delete key => do let _ ← PersistentKvStore.delete env key

abbrev Small (m : Mutation) : Prop := m.record.Small

@[simp] theorem applyTo_toFinmap (data : KvMap) (m : Mutation) :
    (m.applyTo data).toFinmap = Update.apply data.toFinmap m.update := by
  cases m with
  | set key value => exact KvStore.set_toFinmap data key value
  | delete key => exact KvStore.delete_toFinmap data key

theorem lookup_apply (files : PlainMap) (m : Mutation) (k : Bytes) :
    (Update.apply files m.update).lookup k = if k = m.key then m.update.image else files.lookup k :=
  Update.lookup_apply files m.update k

/-- An operation is its append, its memory update, its count and the snapshot check. -/
theorem run_apply (env : Env) (m : Mutation) (s : PersistentKvStore) :
    m.run env s =
      match Wal.append env.io.wal m.record s.wal with
      | .ok _ w => PersistentKvStore.checkSnapshotTrigger env
          (PersistentKvStore.countOp env.addOpAt { s with wal := w, data := m.applyTo s.data })
      | .error e w => .error e { s with wal := w } := by
  cases m with
  | set key value =>
    simp only [run,PersistentKvStore.set,Wal.appendSet,applyTo,record]
    cases appended : Wal.append env.io.wal ⟨.SET,key,value⟩ s.wal with
    | ok _ w => simp [PersistentKvStore.onWal_ok _ s () w appended]
    | error e w => simp [PersistentKvStore.onWal_error _ s e w appended]
  | delete key =>
    simp only [run,PersistentKvStore.delete,Wal.appendDel,applyTo,record]
    cases appended : Wal.append env.io.wal ⟨.DEL,key,[]⟩ s.wal with
    | ok _ w =>
      simp only [PersistentKvStore.onWal_ok _ s () w appended,Act.bind_apply,Act.get_apply,
        Act.modify_apply,Act.pure_apply]
      cases PersistentKvStore.checkSnapshotTrigger env _ <;> rfl
    | error e w => simp [PersistentKvStore.onWal_error _ s e w appended]

theorem run_ready (env : Env) (succeeds : env.io.Succeeds) (m : Mutation) (s : PersistentKvStore)
    (content : Bytes) (ready : s.wal.Ready content) :
    ∃ w, w.Ready (content ++ m.record.serialize) ∧ m.run env s =
      PersistentKvStore.checkSnapshotTrigger env
        (PersistentKvStore.countOp env.addOpAt { s with wal := w, data := m.applyTo s.data }) := by
  obtain ⟨w,appended,ready⟩ :=
    Wal.append_ready env.io.wal succeeds.wal m.record s.wal content ready
  exact ⟨w,ready,by rw [run_apply,appended]⟩

theorem run_untriggered (env : Env) (succeeds : env.io.Succeeds) (m : Mutation)
    (s : PersistentKvStore) (content : Bytes) (ready : s.wal.Ready content)
    (quiet : (s.countOp env.addOpAt).shouldSnapshot env.isExceededAt = false) :
    ∃ w, w.Ready (content ++ m.record.serialize) ∧ m.run env s =
      .ok () (PersistentKvStore.countOp env.addOpAt
        { s with wal := w, data := m.applyTo s.data }) := by
  obtain ⟨w,logged,ran⟩ := m.run_ready env succeeds s content ready
  refine ⟨w,logged,ran.trans ?_⟩
  rw [PersistentKvStore.checkSnapshotTrigger_apply]
  exact if_neg (Bool.eq_false_iff.mp quiet)

theorem run_triggered (env : Env) (succeeds : env.io.Succeeds) (m : Mutation)
    (s : PersistentKvStore) (content : Bytes) (ready : s.wal.Ready content)
    (due : (s.countOp env.addOpAt).shouldSnapshot env.isExceededAt = true) :
    ∃ s', m.run env s = .ok () s' ∧ s'.wal.Ready [] ∧ s'.data = m.applyTo s.data ∧
      s'.snapshot = PersistentKvStore.snapshotAfter env.order (m.applyTo s.data) s.snapshot ∧
      s'.opCount = 0 := by
  obtain ⟨w,logged,ran⟩ := m.run_ready env succeeds s content ready
  obtain ⟨w',empty,created⟩ := PersistentKvStore.createSnapshot_ready env succeeds
    (PersistentKvStore.countOp env.addOpAt { s with wal := w, data := m.applyTo s.data }) _ logged
  rw [PersistentKvStore.checkSnapshotTrigger_apply] at ran
  exact ⟨_,ran.trans ((if_pos due).trans created),empty,rfl,rfl,rfl⟩

end Mutation

end KvCache
