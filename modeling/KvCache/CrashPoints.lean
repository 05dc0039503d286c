import KvCache.CrashRecovery
import KvCache.SnapshotReplacement

/-! A process that is killed. The steps that a call takes on the files are the bytes of its
record, one after another, the steps of the dump, and the truncation of the log; a kill leaves
the files after any number of them, and the next process recovers from these. -/
namespace KvCache

structure StoreFiles where
  log : Bytes
  snapshot : SnapshotFiles

inductive FileStep where
  | log (byte : Byte)
  | snapshot (step : SnapshotStep)
  | truncateLog
  deriving DecidableEq, Repr

namespace FileStep

def apply (files : StoreFiles) : FileStep → StoreFiles
  | log byte => { files with log := files.log ++ [byte] }
  | snapshot step => { files with snapshot := step.apply files.snapshot }
  | truncateLog => { files with log := [] }

def run (files : StoreFiles) (steps : List FileStep) : StoreFiles := steps.foldl apply files

@[simp] theorem run_append (files : StoreFiles) (first second : List FileStep) :
    run files (first ++ second) = run (run files first) second :=
  List.foldl_append

@[simp] theorem run_log (files : StoreFiles) (bytes : Bytes) :
    run files (bytes.map log) = { files with log := files.log ++ bytes } := by
  induction bytes generalizing files with
  | nil => simp [run]
  | cons byte bytes ih =>
    rw [List.map_cons,run,List.foldl_cons]
    exact (ih _).trans (by simp [apply])

@[simp] theorem run_snapshot (files : StoreFiles) (steps : List SnapshotStep) :
    run files (steps.map snapshot) = { files with snapshot := Snapshot.runSteps files.snapshot steps } := by
  induction steps generalizing files with
  | nil => rfl
  | cons step steps ih =>
    rw [List.map_cons,run,List.foldl_cons]
    exact ih _

theorem snapshot_mem (bytes : Bytes) (steps : List SnapshotStep) (step : SnapshotStep) :
    snapshot step ∈ bytes.map log ++ steps.map snapshot ↔ step ∈ steps := by
  simp

theorem truncateLog_not_mem (bytes : Bytes) (steps : List SnapshotStep) :
    truncateLog ∉ bytes.map log ++ steps.map snapshot := by
  simp

@[simp] theorem run_truncateLog (files : StoreFiles) :
    run files [truncateLog] = { files with log := [] } := rfl

end FileStep

def PersistentKvStore.files (s : PersistentKvStore) : StoreFiles := ⟨s.wal.content,s.snapshot⟩

namespace StoreCall

open PersistentKvStore

def record (c : StoreCall) : Bytes := logBytes c.op.mutations

/-- The dump that the call makes, if it makes one and there is something to dump. -/
def dumpSteps (s : PersistentKvStore) (c : StoreCall) : List SnapshotStep :=
  if (c.op.applyTo s.data).entries = [] then []
  else Snapshot.steps ⟨c.env.io.snapshot,true,true⟩
    (c.env.order.arrange (entriesOf (c.op.applyTo s.data)))

def fileSteps (s : PersistentKvStore) (c : StoreCall) : List FileStep :=
  c.record.map .log ++
    if c.snapshots s then (c.dumpSteps s).map .snapshot ++ [.truncateLog] else []

variable {s : PersistentKvStore} {c : StoreCall} {base : PlainMap} {log : List Mutation}

theorem dumpSteps_run (s : PersistentKvStore) (c : StoreCall) (succeeds : c.env.io.Succeeds) :
    Snapshot.runSteps s.snapshot (c.dumpSteps s) =
      snapshotAfter c.env.order (c.op.applyTo s.data) s.snapshot := by
  unfold dumpSteps snapshotAfter
  split
  · rfl
  · have whole := Snapshot.writeSnapshot_eq_runSteps ⟨c.env.io.snapshot,true,true⟩ rfl rfl
      (c.env.order.arrange (entriesOf (c.op.applyTo s.data))) s.snapshot
    rw [Snapshot.writeSnapshot_succeeds _ succeeds.snapshot] at whole
    exact (congrArg Prod.snd whole).symm

/-- The steps of a call are what the call does to the files. -/
theorem step_files (c : StoreCall) (succeeds : c.env.io.Succeeds) (s : PersistentKvStore)
    (content : Bytes) (ready : s.wal.Ready content) :
    ∃ s', c.step s = some s' ∧ s'.data = c.op.applyTo s.data ∧ s'.wal.Ready s'.files.log ∧
      s'.files = FileStep.run s.files (c.fileSteps s) := by
  obtain ⟨s',taken,data,files⟩ := c.step_ready succeeds s content ready
  refine ⟨s',taken,data,?_⟩
  have before : s.wal.content = content := ready.content_eq
  by_cases dumps : c.snapshots s = true
  · rw [if_pos dumps] at files
    obtain ⟨snapshot,empty⟩ := files
    constructor
    · simpa [PersistentKvStore.files,empty.content_eq] using empty
    · simp [fileSteps,dumps,PersistentKvStore.files,snapshot,empty.content_eq,data,
        dumpSteps_run s c succeeds]
  · rw [if_neg dumps] at files
    obtain ⟨snapshot,logged⟩ := files
    constructor
    · simpa [PersistentKvStore.files,logged.content_eq] using logged
    · simp [fileSteps,dumps,PersistentKvStore.files,snapshot,logged.content_eq,before,record,logBytes]

theorem take_fileSteps (s : PersistentKvStore) (c : StoreCall) (k : Nat) :
    (k < c.record.length ∧ (c.fileSteps s).take k = (c.record.take k).map .log) ∨
      c.record.length ≤ k ∧
        ((∃ j, (c.snapshots s = false → j = 0) ∧ (c.fileSteps s).take k =
            c.record.map .log ++ ((c.dumpSteps s).take j).map .snapshot) ∨
          c.snapshots s = true ∧ (c.fileSteps s).take k =
            c.record.map .log ++ ((c.dumpSteps s).map .snapshot ++ [.truncateLog])) := by
  by_cases early : k < c.record.length
  · refine .inl ⟨early,?_⟩
    rw [fileSteps,List.take_append_of_le_length (by simpa using Nat.le_of_lt early),List.map_take]
  · have late : c.record.length ≤ k := Nat.le_of_not_lt early
    refine .inr ⟨late,?_⟩
    rw [fileSteps,List.take_append,List.take_of_length_le (by simpa using late),List.length_map]
    by_cases dumps : c.snapshots s = true
    · rw [if_pos dumps]
      by_cases inside : k - c.record.length ≤ (c.dumpSteps s).length
      · refine .inl ⟨k - c.record.length,by simp [dumps],?_⟩
        rw [List.take_append_of_le_length (by simpa using inside),List.map_take]
      · refine .inr ⟨dumps,?_⟩
        rw [List.take_of_length_le (by simp; omega)]
    · rw [if_neg dumps]
      exact .inl ⟨0,fun _ => rfl,by simp⟩

theorem rename_mem_fileSteps (succeeds : c.env.io.Succeeds)
    (deleted : .snapshot .deleteOld ∈ c.fileSteps s) : .snapshot .rename ∈ c.fileSteps s := by
  have dumps : c.snapshots s = true ∧ SnapshotStep.deleteOld ∈ c.dumpSteps s := by
    simpa [fileSteps] using deleted
  suffices SnapshotStep.rename ∈ c.dumpSteps s by simpa [fileSteps,dumps.1] using this
  have filled : (c.op.applyTo s.data).entries ≠ [] := by
    intro empty
    simp [dumpSteps,empty] at dumps
  have whole := Snapshot.writeSnapshot_eq_runSteps ⟨c.env.io.snapshot,true,true⟩ rfl rfl
    (c.env.order.arrange (entriesOf (c.op.applyTo s.data))) s.snapshot
  rw [Snapshot.writeSnapshot_succeeds _ succeeds.snapshot] at whole
  rw [dumpSteps,if_neg filled]
  exact of_decide_eq_true (congrArg Prod.fst whole).symm

end StoreCall

namespace StoreFiles

open PersistentKvStore

def Intact (files : StoreFiles) : Prop :=
  WalRecord.framing.stream (Wal.logged files.log) = files.log

instance (files : StoreFiles) : Decidable files.Intact := inferInstanceAs (Decidable (_ = _))

/-- A snapshot of `base`, then whole records for `log`, then at most a part of a record. -/
structure Backs (files : StoreFiles) (base : PlainMap) (log : List Mutation) (tail : Bytes) :
    Prop where
  content : files.log = logBytes log ++ tail
  small : ∀ m ∈ log, m.Small
  part : tail = [] ∨ ∃ torn : Mutation, torn.Small ∧ tail <+: torn.record.serialize ∧
    tail ≠ torn.record.serialize
  loaded : ∃ data, baseMap files.snapshot.dat = .ok data ∧ data.toFinmap = base

/-- The next process finds the map `m` in these files, with the changes `log` in the log. -/
def Holds (files : StoreFiles) (log : List Mutation) (m : PlainMap) : Prop :=
  SmallMap m ∧ ∃ base tail, files.Backs base log tail ∧
    Update.replay base (log.map Mutation.update) = m

variable {files : StoreFiles} {base m : PlainMap} {log : List Mutation} {tail : Bytes}

theorem Backs.logged_eq (backs : files.Backs base log tail) :
    Wal.logged files.log = log.map Mutation.record := by
  rw [backs.content]
  obtain rfl | ⟨torn,tornSmall,part,strict⟩ := backs.part
  · rw [List.append_nil]
    exact Wal.logged_stream _ (records_small log backs.small)
  · exact logged_tail backs.small tornSmall part strict

theorem Backs.tail_nil (backs : files.Backs base log tail) (intact : files.Intact) : tail = [] := by
  rw [Intact,backs.logged_eq,backs.content] at intact
  simpa [logBytes] using intact

theorem Holds.rebuilt_eq (holds : files.Holds log m) :
    ∃ data, rebuilt files.snapshot.dat files.log = .ok data ∧ data.toFinmap = m := by
  obtain ⟨_,base,tail,backs,rfl⟩ := holds
  have found := rebuilt_map files.snapshot.dat files.log base backs.loaded
  rwa [backs.logged_eq,records_updates] at found

/-- The files of a store together with what it holds in memory. -/
structure Mirror (s : PersistentKvStore) (log : List Mutation) (m : PlainMap) : Prop where
  ready : s.wal.Ready s.files.log
  holds : s.files.Holds log m
  current : s.data.toFinmap = m

theorem Holds.construct_mirror (holds : files.Holds log m) (io : Io) (succeeds : io.Succeeds)
    (dataDir : String) :
    ∃ s, construct io dataDir (.unopened (some files.log)) files.snapshot = .ok () s ∧
      Mirror s log m := by
  obtain ⟨w,ready,constructed⟩ :=
    construct_ready io succeeds dataDir (.unopened (some files.log)) files.snapshot
  obtain ⟨data,found,map⟩ := holds.rebuilt_eq
  have content : (Wal.unopened (some files.log)).content = files.log := rfl
  rw [content] at constructed ready
  rw [found] at constructed
  refine ⟨_,constructed,?_,?_,map⟩
  · rw [PersistentKvStore.files,ready.content_eq]
    exact ready
  · rw [PersistentKvStore.files,ready.content_eq]
    exact holds

theorem Mirror.restartKeeps {s : PersistentKvStore} (mirror : Mirror s log m) : RestartKeeps s := by
  rw [restartKeeps_iff,mirror.current]
  exact mirror.holds.rebuilt_eq

end StoreFiles

namespace StoreCall

open PersistentKvStore StoreFiles

variable {s : PersistentKvStore} {c : StoreCall} {base m : PlainMap} {log : List Mutation}
  {tail : Bytes}

/-- What the first `k` steps change in the map. -/
def keptUpTo (c : StoreCall) (k : Nat) : List Mutation :=
  if c.record.length ≤ k then c.op.mutations else []

/-- What the log holds after the first `k` steps. -/
def loggedUpTo (s : PersistentKvStore) (c : StoreCall) (k : Nat) (log : List Mutation) :
    List Mutation :=
  if .truncateLog ∈ (c.fileSteps s).take k then [] else log ++ c.keptUpTo k

theorem record_mutation (single : Mutation) (op : c.op = .mutation single) :
    c.record = single.record.serialize := by
  simp [record,op,StoreOp.mutations,logBytes,Framing.stream,WalRecord.framing]

/-- A record that is cut short stays behind as a part that recovery skips. -/
theorem backs_cut (backs : s.files.Backs base log tail) (bound : c.op.Small) (k : Nat)
    (early : k < c.record.length) (clean : c.record.take k ≠ [] → s.files.Intact) :
    ∃ rest, Backs { s.files with log := s.files.log ++ c.record.take k } base log rest := by
  by_cases none : c.record.take k = []
  · rw [none,List.append_nil]
    exact ⟨tail,backs⟩
  obtain rfl := backs.tail_nil (clean none)
  refine ⟨c.record.take k,?_,backs.small,.inr ?_,backs.loaded⟩
  · rw [backs.content,List.append_nil]
  · cases op : c.op with
    | forceSnapshot => simp [record,op,StoreOp.mutations,logBytes] at early
    | mutation single =>
      have whole := record_mutation single op
      refine ⟨single,bound single (by simp [op,StoreOp.mutations]),?_,?_⟩
      · rw [← whole]
        exact List.take_prefix k c.record
      · rw [← whole]
        intro same
        have length := congrArg List.length same
        rw [List.length_take] at length
        omega

theorem backs_logged (backs : s.files.Backs base log tail) (bound : c.op.Small)
    (clean : c.record ≠ [] → s.files.Intact) :
    ∃ rest, Backs { s.files with log := s.files.log ++ c.record } base (log ++ c.op.mutations) rest := by
  cases op : c.op with
  | forceSnapshot =>
    have none : c.record = [] := by simp [record,op,StoreOp.mutations,logBytes]
    rw [none]
    simpa [StoreOp.mutations] using ⟨tail,backs⟩
  | mutation single =>
    have whole := record_mutation single op
    have filled : c.record ≠ [] := by
      obtain ⟨_,_,_,_,_,shape⟩ := single.record.serialize_shape
      simp [whole,shape]
    obtain rfl := backs.tail_nil (clean filled)
    refine ⟨[],?_,?_,.inl rfl,backs.loaded⟩
    · simp [backs.content,record,op,logBytes]
    · intro n member
      obtain old | new := List.mem_append.mp member
      · exact backs.small n old
      · exact bound n (op ▸ new)

theorem Holds.dumped {files : StoreFiles} {order : IterOrder} {data : KvMap}
    (backs : files.Backs base log tail)
    (current : Update.replay base (log.map Mutation.update) = data.toFinmap)
    (small : SmallMap data.toFinmap) (count : data.entries.length < 2 ^ 32)
    (snapshot : SnapshotFiles)
    (dat : snapshot.dat = some (Snapshot.content (order.arrange (entriesOf data)))) :
    Holds { files with snapshot := snapshot } log data.toFinmap := by
  refine ⟨small,data.toFinmap,tail,⟨backs.content,backs.small,backs.part,?_⟩,?_⟩
  · rw [dat]
    exact baseMap_content order data small count
  · have whole := Update.replay_over_take base (log.map Mutation.update) log.length
    rwa [List.take_of_length_le (by simp),current] at whole

theorem holds_truncated (safe : SnapshotSafe s c) (dumps : c.snapshots s = true)
    (small : SmallMap (c.op.applyTo s.data).toFinmap) :
    Holds ⟨[],snapshotAfter c.env.order (c.op.applyTo s.data) s.snapshot⟩ []
      (c.op.applyTo s.data).toFinmap := by
  obtain ⟨count,stale⟩ := safe dumps
  refine ⟨small,_,[],⟨rfl,by simp,.inl rfl,?_⟩,rfl⟩
  by_cases empty : (c.op.applyTo s.data).entries = []
  · rw [snapshotAfter,if_pos empty,stale empty]
    exact ⟨∅,rfl,((KvStore.toFinmap_eq_empty _).mpr empty).symm⟩
  · rw [snapshotAfter,if_neg empty]
    exact baseMap_content _ _ small count

/-- A kill at any file step. What was acknowledged is kept, and so is the call that was under way
once its record is written; two kinds of kill are left out. Between the deletion of the old snapshot
and the rename there is none, and a record behind a part of a record is not found. -/
theorem holds_take (mirror : Mirror s log m) (succeeds : c.env.io.Succeeds) (bound : c.op.Small)
    (safe : SnapshotSafe s c) (k : Nat)
    (covered : .snapshot .deleteOld ∈ (c.fileSteps s).take k →
      .snapshot .rename ∈ (c.fileSteps s).take k)
    (clean : c.record.take k ≠ [] → s.files.Intact ∨ .truncateLog ∈ (c.fileSteps s).take k) :
    Holds (FileStep.run s.files ((c.fileSteps s).take k)) (c.loggedUpTo s k log)
      (Update.replay m ((c.keptUpTo k).map Mutation.update)) := by
  obtain ⟨ready,⟨small,base,tail,backs,replayed⟩,current⟩ := mirror
  have after : (c.op.applyTo s.data).toFinmap =
      Update.replay m (c.op.mutations.map Mutation.update) := by
    rw [StoreOp.applyTo_toFinmap,current]
  have smallAfter : SmallMap (c.op.applyTo s.data).toFinmap :=
    smallData_after (current ▸ small) bound
      (rfl : ({ s with data := c.op.applyTo s.data } : PersistentKvStore).data = _)
  obtain ⟨early,taken⟩ | ⟨late,⟨j,idle,taken⟩ | ⟨dumps,taken⟩⟩ := take_fileSteps s c k
  · have kept : .truncateLog ∉ (c.fileSteps s).take k := by
      simpa [taken] using FileStep.truncateLog_not_mem (c.record.take k) []
    obtain ⟨rest,cut⟩ := backs_cut backs bound k early fun some => (clean some).resolve_right kept
    rw [loggedUpTo,if_neg kept,keptUpTo,if_neg (Nat.not_le_of_lt early),taken,FileStep.run_log,
      List.append_nil]
    exact ⟨small,base,rest,cut,replayed⟩
  · have kept : .truncateLog ∉ (c.fileSteps s).take k := by
      rw [taken]
      exact FileStep.truncateLog_not_mem _ _
    rw [List.take_of_length_le late] at clean
    rw [taken,FileStep.snapshot_mem,FileStep.snapshot_mem] at covered
    obtain ⟨rest,logged⟩ := backs_logged backs bound fun some => (clean some).resolve_right kept
    have replayedAfter : Update.replay base ((log ++ c.op.mutations).map Mutation.update) =
        (c.op.applyTo s.data).toFinmap := by
      rw [List.map_append,Update.replay_append,replayed,after]
    rw [loggedUpTo,if_neg kept,keptUpTo,if_pos late,taken,← after,FileStep.run_append,
      FileStep.run_log,FileStep.run_snapshot]
    by_cases renamed : .rename ∈ (c.dumpSteps s).take j
    · have dumps : c.snapshots s = true := by
        by_contra no
        simp [idle (by simpa using no)] at renamed
      have filled : (c.op.applyTo s.data).entries ≠ [] := by
        intro empty
        simp [dumpSteps,empty] at renamed
      rw [dumpSteps,if_neg filled] at renamed ⊢
      exact Holds.dumped logged replayedAfter smallAfter (safe dumps).1 _
        (Snapshot.runSteps_renamed _ _ _ j renamed)
    · refine ⟨smallAfter,base,rest,⟨logged.content,logged.small,logged.part,?_⟩,replayedAfter⟩
      rw [Snapshot.runSteps_dat _ _ (mt covered renamed) renamed]
      exact backs.loaded
  · rw [loggedUpTo,if_pos (by simp [taken]),keptUpTo,if_pos late,taken,← after,FileStep.run_append,
      FileStep.run_append,FileStep.run_log,FileStep.run_snapshot,FileStep.run_truncateLog]
    have dumped := dumpSteps_run s c succeeds
    simp only [PersistentKvStore.files,dumped]
    exact holds_truncated safe dumps smallAfter

end StoreCall

/-- What happens in a data directory: a call, or a process that is killed after some of the file
steps of a call and followed by another one. -/
inductive LifeEvent where
  | call (c : StoreCall)
  | kill (c : StoreCall) (after : Nat) (io : Io)

namespace LifeEvent

open PersistentKvStore StoreCall StoreFiles

def step (s : PersistentKvStore) : LifeEvent → Option PersistentKvStore
  | call c => c.step s
  | kill c after io =>
    let files := FileStep.run s.files ((c.fileSteps s).take after)
    Act.final (construct io s.dataDir (.unopened (some files.log)) files.snapshot)

def kept : LifeEvent → List Mutation
  | call c => c.op.mutations
  | kill c after _ => c.keptUpTo after

def op : LifeEvent → StoreOp
  | call c | kill c _ _ => c.op

def Succeeds : LifeEvent → Prop
  | call c => c.env.io.Succeeds
  | kill c _ io => c.env.io.Succeeds ∧ io.Succeeds

def Faultless (e : LifeEvent) : Prop := e.Succeeds ∧ e.op.Small

/-- No kill between the deletion of the old snapshot and the rename of the new one; and nothing is
appended to a log that ends in a part of a record, unless the log is truncated afterwards. -/
def Survivable (s : PersistentKvStore) : LifeEvent → Prop
  | call c => SnapshotSafe s c ∧ (c.record ≠ [] → s.files.Intact ∨ c.snapshots s = true)
  | kill c after _ => SnapshotSafe s c ∧
      (c.record.take after ≠ [] → s.files.Intact ∨ .truncateLog ∈ (c.fileSteps s).take after) ∧
      (.snapshot .deleteOld ∈ (c.fileSteps s).take after →
        .snapshot .rename ∈ (c.fileSteps s).take after)

instance (s : PersistentKvStore) (c : StoreCall) : Decidable (SnapshotSafe s c) :=
  inferInstanceAs (Decidable (_ → _))

instance (s : PersistentKvStore) : (e : LifeEvent) → Decidable (e.Survivable s)
  | call _ => inferInstanceAs (Decidable (_ ∧ _))
  | kill _ _ _ => inferInstanceAs (Decidable (_ ∧ _))

/-- What is in the log after the event. -/
def logged (s : PersistentKvStore) (log : List Mutation) : LifeEvent → List Mutation
  | call c => c.loggedUpTo s (c.fileSteps s).length log
  | kill c after _ => c.loggedUpTo s after log

variable {s : PersistentKvStore} {log : List Mutation} {m : PlainMap}

theorem mirror_step (mirror : Mirror s log m) (e : LifeEvent)
    (faultless : e.Faultless) (survivable : e.Survivable s) :
    ∃ s', e.step s = some s' ∧
      Mirror s' (e.logged s log) (Update.replay m (e.kept.map Mutation.update)) := by
  cases e with
  | call c =>
    obtain ⟨succeeds,bound⟩ := faultless
    obtain ⟨safe,clean⟩ := survivable
    obtain ⟨s',taken,data,ready,files⟩ := c.step_files succeeds s _ mirror.ready
    have holds := holds_take mirror succeeds bound safe (c.fileSteps s).length
    rw [List.take_length] at holds
    have long : c.record.length ≤ (c.fileSteps s).length := by simp [fileSteps]
    rw [List.take_of_length_le long,keptUpTo,if_pos long,← files] at holds
    refine ⟨s',taken,ready,holds (rename_mem_fileSteps succeeds) ?_,?_⟩
    · intro written
      exact (clean written).imp_right fun dumps => by simp [fileSteps,dumps]
    · rw [data,StoreOp.applyTo_toFinmap,mirror.current]
      rfl
  | kill c after io =>
    obtain ⟨⟨succeeds,reopens⟩,bound⟩ := faultless
    obtain ⟨safe,clean,covered⟩ := survivable
    have holds := holds_take mirror succeeds bound safe after covered clean
    obtain ⟨s',constructed,mirrored⟩ := holds.construct_mirror io reopens s.dataDir
    exact ⟨s',by rw [step]; exact congrArg Act.final constructed,mirrored⟩

/-- What is in the log after a run: what was written since it was last truncated, which is since
the last snapshot unless a kill came between the rename and the truncation. -/
def unsaved (s : PersistentKvStore) (log : List Mutation) : List LifeEvent → List Mutation
  | [] => log
  | e :: events => ((e.step s).map fun s' => unsaved s' (e.logged s log) events).getD log

end LifeEvent
end KvCache
