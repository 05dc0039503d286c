import KvCache.CrashRecovery

/-! System calls that fail inside a snapshot and inside an operation. `CreateSnapshot` drops
the log whether or not there is a new snapshot, and the truncation of the log comes after
everything else an operation does, so that it can throw when there is nothing left to keep. -/
namespace KvCache

def Env.noTmp : Env :=
  { Env.faultless with io := { Io.faultless with snapshot := ⟨false,fun _ _ => none,false⟩ } }

def Snapshot.TmpFails (io : SnapshotIo) (entries : List SnapshotEntry) : Prop :=
  io.openWrite = false ∨
    (writeLoop io.write (content entries).length 0 (content entries) []).2 = false

theorem Snapshot.create_tmpFails (io : SnapshotIo) (entries : List SnapshotEntry)
    (files : SnapshotFiles) (failed : TmpFails io entries) :
    (create io entries files).1 = false ∧ (create io entries files).2.dat = files.dat := by
  unfold create writeSnapshot
  cases opened : io.openWrite with
  | false => simp
  | true =>
    have stopped := failed.resolve_left (by simp [opened])
    simp only [Bool.not_true,Bool.false_eq_true,if_false]
    split
    · exact ⟨rfl,rfl⟩
    next found =>
      rw [found] at stopped
      cases stopped

namespace PersistentKvStore

def Saved (s : PersistentKvStore) : Prop :=
  ∃ base, baseMap s.snapshot.dat = .ok base ∧ base.toFinmap = s.data.toFinmap

theorem dumped_tmpFails (env : Env) (s : PersistentKvStore)
    (failed : Snapshot.TmpFails env.io.snapshot (env.order.arrange (entriesOf s.data))) :
    (dumped env s).dat = s.snapshot.dat := by
  unfold dumped
  split
  · rfl
  · exact (Snapshot.create_tmpFails env.io.snapshot _ s.snapshot failed).2

/-- A snapshot that fails loses the log. After it a restart keeps the map exactly where the
older snapshot already was one of it; a log that is not enabled is not touched. -/
theorem failed_snapshot_keeps_iff (env : Env) (s s' : PersistentKvStore)
    (failed : Snapshot.TmpFails env.io.snapshot (env.order.arrange (entriesOf s.data)))
    (ran : createSnapshot env s = .ok () s') :
    RestartKeeps s' ↔ if s.wal.enabled then Saved s else RestartKeeps s := by
  have kept := dumped_tmpFails env s failed
  rw [createSnapshot_apply,Wal.clearWithoutLock_apply] at ran
  cases enabled : s.wal.enabled with
  | false =>
    simp only [enabled,Bool.not_false,if_true] at ran
    cases ran
    simp only [Bool.false_eq_true,if_false,restartKeeps_iff,kept]
  | true =>
    cases truncated : env.io.wal.openTruncate with
    | false =>
      simp [enabled,truncated] at ran
    | true =>
      simp only [enabled,truncated,Bool.not_true,Bool.false_eq_true,if_false,if_true] at ran
      cases ran
      simp only [if_true,restartKeeps_iff,kept,Wal.content,Option.getD_some,rebuilt_nil,Saved]

def oneSaved : PersistentKvStore :=
  { opened with data := (∅ : KvMap).insert (ascii "k") (ascii "v"),
                snapshot := ⟨some (Snapshot.content [⟨ascii "k",ascii "v"⟩]),none⟩ }

theorem failed_snapshot_keeps_iff_saved :
    ∃ s', createSnapshot .noTmp oneSaved = .ok () s' ∧ RestartKeeps s' := by
  refine ⟨_,rfl,?_⟩
  refine (failed_snapshot_keeps_iff .noTmp oneSaved _ (.inl rfl) rfl).mpr ?_
  have small := smallMap_empty.apply (.set (ascii "k") (ascii "v")) (by decide)
  rw [← Mutation.applyTo_toFinmap] at small
  exact baseMap_content ⟨id,fun _ => .refl _⟩ oneSaved.data small (by decide)

theorem failed_snapshot_drops_log :
    (do let s ← Machine.run StoreCall.step opened [.ofOp (.mutation (.set (ascii "k") (ascii "v")))]
        let s' ← StoreCall.step s ⟨.forceSnapshot,.noTmp⟩
        let t ← Act.final (restart .faultless true s')
        return (s'.data.lookup (ascii "k"),t.data.lookup (ascii "k"))) =
      some (some (ascii "v"),none) := by
  decide +kernel

section

variable {env : Env} {m : Mutation} {s : PersistentKvStore} {base : PlainMap} {log : List Mutation}
  (backed : Backed s base log)
include backed

end

def due : PersistentKvStore := { opened with opCount := kSnapshotInterval - 1 }

end PersistentKvStore

end KvCache
