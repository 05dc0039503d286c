import KvCache.WalRuns
import KvCache.WriteBack

/-! The log when the power fails. What is written is on the disk once it is synced, which the
policy decides: after each append, whenever the background thread wakes up, or only when the log
is closed. What the disk holds of the rest is up to the kernel and the disk; the results say what
they ask of them. -/
namespace KvCache

open WriteBack (Cached Tracks)

inductive LogChange where
  | byte (b : Byte)
  | truncate
  deriving DecidableEq, Repr

def LogChange.apply (content : Bytes) : LogChange → Bytes
  | byte b => content ++ [b]
  | truncate => []

theorem LogChange.foldl_byte (content bytes : Bytes) :
    (bytes.map byte).foldl apply content = content ++ bytes := by
  induction bytes generalizing content with
  | nil => simp
  | cons b bytes ih =>
    rw [List.map_cons,List.foldl_cons,ih]
    simp [apply]

inductive LogOp where
  | append (record : WalRecord)
  | clear
  deriving DecidableEq, Repr

namespace LogOp

def changes : LogOp → List LogChange
  | append record => record.serialize.map .byte
  | clear => [.truncate]

def apply (records : List WalRecord) : LogOp → List WalRecord
  | append record => records ++ [record]
  | clear => []

/-- The records that the log holds after the operations. -/
def logOf (ops : List LogOp) : List WalRecord := ops.foldl apply []

def Small : LogOp → Prop
  | append record => record.Small
  | clear => True

theorem logOf_append (ops more : List LogOp) : logOf (ops ++ more) = more.foldl apply (logOf ops) :=
  List.foldl_append

theorem content_eq (ops : List LogOp) :
    (ops.flatMap changes).foldl LogChange.apply [] = WalRecord.framing.stream (logOf ops) := by
  induction ops using List.reverseRecOn with
  | nil => rfl
  | append_singleton ops op ih =>
    rw [List.flatMap_append,List.foldl_append,ih,logOf_append]
    cases op with
    | append record =>
      simp [changes,apply,LogChange.foldl_byte,Framing.stream,WalRecord.framing]
    | clear => simp [changes,apply,LogChange.apply,Framing.stream]

theorem logOf_small (ops : List LogOp) (small : ∀ op ∈ ops, op.Small) :
    ∀ r ∈ logOf ops, r.Small := by
  induction ops using List.reverseRecOn with
  | nil => simp [logOf]
  | append_singleton ops op ih =>
    have before := ih fun op member => small op (List.mem_append_left _ member)
    have own := small op (by simp)
    rw [logOf_append]
    cases op with
    | append record =>
      intro r member
      obtain old | new := List.mem_append.mp member
      · exact before r old
      · cases List.mem_singleton.mp new
        exact own
    | clear => simp [apply]

theorem logged_part (ops : List LogOp) (small : ∀ op ∈ ops, op.Small) (j : Nat) (part : List LogChange)
    (next : part = [] ∨ ∃ op, ops[j]? = some op ∧ part <+: op.changes ∧ part ≠ op.changes) :
    Wal.logged (part.foldl LogChange.apply
      (((ops.take j).flatMap changes).foldl LogChange.apply [])) = logOf (ops.take j) := by
  have smallBefore : ∀ r ∈ logOf (ops.take j), r.Small :=
    logOf_small _ fun op member => small op (List.mem_of_mem_take member)
  rw [content_eq]
  obtain rfl | ⟨op,isNext,begins,strict⟩ := next
  · exact Wal.logged_stream _ smallBefore
  cases op with
  | clear =>
    -- there is no part of a truncation
    have none : part = [] := by
      cases part with
      | nil => rfl
      | cons change rest => simp_all [changes]
    rw [none]
    exact Wal.logged_stream _ smallBefore
  | append record =>
    obtain ⟨bytes,begun,rfl⟩ : ∃ bytes, bytes <+: record.serialize ∧ part = bytes.map .byte := by
      refine ⟨record.serialize.take part.length,List.take_prefix _ _,?_⟩
      rw [List.map_take]
      exact List.prefix_iff_eq_take.mp begins
    have recordSmall : record.Small := small (.append record) (List.mem_of_getElem? isNext)
    rw [LogChange.foldl_byte,Wal.logged_append _ smallBefore,
      Wal.logged_torn record recordSmall bytes begun fun same => strict (same ▸ rfl),List.append_nil]

end LogOp

/-- The log with its file on the disk, the operations made on it, and how many of them are synced. -/
structure DiskWal where
  wal : Wal
  cached : Cached Bytes LogChange
  ops : List LogOp
  settled : Nat
  deriving DecidableEq, Repr

inductive WalMoment where
  | call (c : WalCall)
  /-- The background thread wakes up. -/
  | tick

namespace DiskWal

def start : DiskWal := ⟨.unopened (some []),⟨[],[]⟩,[],0⟩

def onWal {α : Type} (x : Act Wal α) : Act DiskWal α := Act.zoom wal (fun w s => { s with wal := w }) x

def flush (s : DiskWal) : DiskWal :=
  { s with cached := s.cached.flush LogChange.apply, settled := s.ops.length }

def synced (s : DiskWal) (due : Bool) : DiskWal := if due then s.flush else s

def logged (s : DiskWal) (ops : List LogOp) : DiskWal :=
  { s with cached := s.cached.write (ops.flatMap LogOp.changes), ops := s.ops ++ ops }

/-- The calls of `wal.cpp` once more, with an `fsync` that reaches the disk. -/
def sync : Act DiskWal Unit := do
  let s ← get
  if s.wal.enabled && s.wal.fd.isSome then set s.flush

def append (io : WalIo) (record : WalRecord) : Act DiskWal Unit := do
  if !(← get).wal.enabled then return
  onWal (Wal.writeRecord io record)
  modify (logged · [.append record])
  if (← get).wal.policy = .ALWAYS then sync

def clearWithoutLock (io : WalIo) : Act DiskWal Unit := do
  if !(← get).wal.enabled then return
  onWal (Wal.clearWithoutLock io)
  modify (logged · [.clear])

def close : Act DiskWal Unit := do
  if (← get).wal.isOpen then
    sync
    onWal Wal.closeFD
    onWal (modify fun w => { w with isOpen := false })

def init (io : WalIo) (filepath : String) (policy : FsyncPolicy) : Act DiskWal Unit := do
  close
  onWal (modify fun w => { w with policy := policy, filepath := filepath })
  let enabled ← onWal (Wal.tryOpen io)
  onWal (modify fun w => { w with enabled := enabled })

def shutdown : Act DiskWal Unit := do
  close
  onWal (modify fun w => { w with enabled := false })

def run (c : WalCall) : Act DiskWal Unit :=
  match c.op with
  | .init filepath policy => init c.io filepath policy
  | .append record => append c.io record
  | .readAll | .getFileSize => onWal c.run
  | .clear | .clearWithoutLock => clearWithoutLock c.io
  | .shutdown => shutdown

def step (s : DiskWal) : WalMoment → Option DiskWal
  | .call c => some (Act.leaves (run c s))
  | .tick => if s.wal.enabled ∧ s.wal.policy = .EVERYSEC then some (Act.leaves (sync s)) else none

/-- System calls that succeed, one path, and records whose lengths fit their fields. -/
def Admitted (filepath : String) : WalMoment → Prop
  | .call c => c.Succeeds ∧ (∀ path policy, c.op = .init path policy → path = filepath) ∧
      ∀ record, c.op = .append record → record.Small
  | .tick => True

end DiskWal

namespace WalCall

def logOps (w : Wal) (c : WalCall) : List LogOp :=
  if !w.enabled then []
  else
    match c.op with
    | .append record => [.append record]
    | .clear | .clearWithoutLock => [.clear]
    | _ => []

/-- Whether the call ends with the log synced. `Clear` never syncs. -/
def syncs (w : Wal) (c : WalCall) : Bool :=
  w.enabled && w.fd.isSome &&
    match c.op with
    | .append _ => w.policy == .ALWAYS
    | .init _ _ | .shutdown => w.isOpen
    | _ => false

end WalCall

namespace DiskWal

@[simp] theorem onWal_apply {α : Type} (x : Act Wal α) (s : DiskWal) :
    onWal x s = match x s.wal with
      | .ok a w => .ok a { s with wal := w }
      | .error e w => .error e { s with wal := w } := by
  unfold onWal Act.zoom
  cases x s.wal <;> rfl

@[simp] theorem synced_wal (s : DiskWal) (due : Bool) : (s.synced due).wal = s.wal := by
  cases due <;> rfl

@[simp] theorem sync_apply (s : DiskWal) :
    sync s = .ok () (s.synced (s.wal.enabled && s.wal.fd.isSome)) := by
  simp only [sync,synced,Act.bind_apply,Act.get_apply,Act.ite_apply,Act.set_apply,Act.pure_apply]
  split <;> rfl

theorem close_apply (s : DiskWal) :
    close s = .ok () (if s.wal.isOpen then
      { s.synced (s.wal.enabled && s.wal.fd.isSome) with wal := { s.wal with fd := none, isOpen := false } }
      else s) := by
  cases isOpen : s.wal.isOpen <;> simp [close,isOpen,Wal.closeFD]

theorem init_apply (io : WalIo) (filepath : String) (policy : FsyncPolicy) (s : DiskWal) :
    init io filepath policy s = onWal (Wal.init io filepath policy)
      (s.synced (s.wal.enabled && s.wal.fd.isSome && s.wal.isOpen)) := by
  simp only [init,Wal.init,Act.bind_apply,close_apply,onWal_apply,synced_wal,Act.get_apply,Act.ite_apply]
  cases s.wal.isOpen <;>
    simp only [Bool.and_false,Bool.and_true,Bool.false_eq_true,if_false,if_true,
      Act.modify_apply,Act.pure_apply,Wal.sync,Wal.closeFD] <;>
    cases Wal.tryOpen io _ <;> rfl

theorem shutdown_apply (s : DiskWal) :
    shutdown s =
      onWal Wal.shutdown (s.synced (s.wal.enabled && s.wal.fd.isSome && s.wal.isOpen)) := by
  simp only [shutdown,Wal.shutdown,Act.bind_apply,close_apply,onWal_apply,synced_wal,Act.get_apply,
    Act.ite_apply]
  cases s.wal.isOpen <;> simp [Wal.sync,Wal.closeFD,synced]

theorem clearWithoutLock_apply (io : WalIo) (s : DiskWal) :
    clearWithoutLock io s = match Wal.clearWithoutLock io s.wal with
      | .ok _ w => .ok () { s.logged (if s.wal.enabled then [.clear] else []) with wal := w }
      | .error e w => .error e { s with wal := w } := by
  cases enabled : s.wal.enabled with
  | false => simp [clearWithoutLock,Wal.clearWithoutLock_apply,enabled,logged,Cached.write]
  | true =>
    simp only [clearWithoutLock,Act.bind_apply,Act.get_apply,Act.ite_apply,enabled,onWal_apply]
    cases Wal.clearWithoutLock io s.wal <;> rfl

theorem append_apply (io : WalIo) (record : WalRecord) (s : DiskWal) :
    append io record s =
      if s.wal.enabled then
        match Wal.writeRecord io record s.wal with
        | .ok _ w => .ok () (DiskWal.synced { s.logged [.append record] with wal := w }
            (decide (w.policy = .ALWAYS) && (w.enabled && w.fd.isSome)))
        | .error e w => .error e { s with wal := w }
      else .ok () s := by
  cases enabled : s.wal.enabled with
  | false => simp [append,enabled]
  | true =>
    simp only [append,Act.bind_apply,Act.get_apply,Act.ite_apply,enabled,onWal_apply]
    cases Wal.writeRecord io record s.wal with
    | error e w => rfl
    | ok _ w =>
      by_cases always : w.policy = .ALWAYS
      · simp [always,logged]
      · simp [always,logged,synced]

/-- With a disk or without, a call does the same to the log. -/
theorem run_wal (c : WalCall) (s : DiskWal) : (Act.leaves (run c s)).wal = Act.leaves (c.run s.wal) := by
  obtain ⟨op,io,most⟩ := c
  cases op with
  | init filepath policy =>
    simp only [run,WalCall.run,init_apply,onWal_apply,synced_wal]
    cases Wal.init io filepath policy s.wal <;> rfl
  | append record =>
    simp only [run,WalCall.run,append_apply,Wal.append_apply]
    cases s.wal.enabled with
    | false => rfl
    | true => cases Wal.writeRecord io record s.wal <;> simp [Act.leaves]
  | readAll | getFileSize =>
    simp only [run,onWal_apply]
    cases WalCall.run ⟨_,io,most⟩ s.wal <;> rfl
  | clear | clearWithoutLock =>
    simp only [run,clearWithoutLock_apply,WalCall.run,Wal.clear]
    cases Wal.clearWithoutLock io s.wal <;> rfl
  | shutdown =>
    simp only [run,WalCall.run,shutdown_apply,onWal_apply,synced_wal]
    cases Wal.shutdown s.wal <;> rfl

/-- The calls log what `logOps` has and sync where `syncs` has it. -/
theorem run_eq (c : WalCall) (succeeds : c.Succeeds) (s : DiskWal) (valid : s.wal.HandleValid) :
    Act.leaves (run c s) =
      DiskWal.synced { s.logged (c.logOps s.wal) with wal := Act.leaves (c.run s.wal) } (c.syncs s.wal) := by
  have kept (due : Bool) (w : Wal) :
      { s.synced due with wal := w } = DiskWal.synced { s.logged [] with wal := w } due := by
    cases due <;> simp [synced,logged,flush,Cached.write]
  obtain ⟨op,io,most⟩ := c
  cases op with
  | init filepath policy =>
    simp only [run,WalCall.run,WalCall.logOps,WalCall.syncs,init_apply,onWal_apply,synced_wal,ite_self]
    cases Wal.init io filepath policy s.wal <;> exact kept _ _
  | append record =>
    cases enabled : s.wal.enabled with
    | false => simp [run,append_apply,WalCall.run,Wal.append_apply,WalCall.logOps,WalCall.syncs,enabled,
        Act.leaves,logged,Cached.write,synced]
    | true =>
      obtain ⟨position,fd⟩ := Option.isSome_iff_exists.mp (valid enabled).2
      have written (count : Nat) : io.write count = some count := succeeds.io.write count
      simp only [run,append_apply,WalCall.run,Wal.append_apply,WalCall.logOps,WalCall.syncs,enabled,
        Wal.writeRecord,Act.bind_apply,Act.get_apply,fd,written,List.take_length,Act.modify_apply,
        ne_eq,not_true_eq_false,if_false,if_true]
      cases s.wal.policy <;> rfl
  | readAll | getFileSize =>
    have quiet := kept false
    simp only [run,onWal_apply,WalCall.logOps,WalCall.syncs,Bool.and_false,ite_self]
    cases WalCall.run ⟨_,io,most⟩ s.wal <;> exact quiet _
  | clear | clearWithoutLock =>
    have truncates : io.openTruncate = true := succeeds.io.openTruncate
    cases enabled : s.wal.enabled <;>
      simp [run,clearWithoutLock_apply,WalCall.run,Wal.clear,Wal.clearWithoutLock_apply,WalCall.logOps,
        WalCall.syncs,enabled,truncates,Act.leaves,synced]
  | shutdown =>
    simp only [run,WalCall.run,WalCall.logOps,WalCall.syncs,shutdown_apply,onWal_apply,synced_wal,ite_self]
    cases Wal.shutdown s.wal <;> exact kept _ _
structure Sound (s : DiskWal) : Prop where
  tracks : Tracks LogChange.apply LogOp.changes [] s.ops s.settled s.cached
  small : ∀ op ∈ s.ops, op.Small
  consistent : TrackedWal.Consistent ⟨s.wal,LogOp.logOf s.ops⟩

theorem start_sound : start.Sound := by
  refine ⟨.empty [],by simp [start],?_⟩
  exact TrackedWal.start_consistent

theorem Sound.view {s : DiskWal} (sound : s.Sound) : s.cached.view LogChange.apply = s.wal.content := by
  rw [sound.tracks.view,LogOp.content_eq]
  exact sound.consistent.content.symm

theorem logOps_small (filepath : String) (w : Wal) (c : WalCall) (admitted : Admitted filepath (.call c)) :
    ∀ op ∈ c.logOps w, op.Small := by
  intro op member
  unfold WalCall.logOps at member
  split at member
  · cases member
  · cases isOp : c.op with
    | append record =>
      rw [isOp] at member
      cases List.mem_singleton.mp member
      exact admitted.2.2 record isOp
    | clear | clearWithoutLock =>
      rw [isOp] at member
      cases List.mem_singleton.mp member
      exact trivial
    | init _ _ | readAll | getFileSize | shutdown =>
      rw [isOp] at member
      cases member

theorem track_eq (w : Wal) (ops : List LogOp) (c : WalCall) :
    TrackedWal.track ⟨w,LogOp.logOf ops⟩ c.op = LogOp.logOf (ops ++ c.logOps w) := by
  rw [LogOp.logOf_append]
  cases enabled : w.enabled with
  | false => simp [TrackedWal.track,WalCall.logOps,enabled]
  | true => cases op : c.op <;> simp [TrackedWal.track,WalCall.logOps,enabled,op,LogOp.apply]

theorem consistent_step (w : Wal) (ops : List LogOp) (c : WalCall) (succeeds : c.Succeeds)
    (consistent : TrackedWal.Consistent ⟨w,LogOp.logOf ops⟩) :
    ∃ w', c.step w = some w' ∧ TrackedWal.Consistent ⟨w',LogOp.logOf (ops ++ c.logOps w)⟩ := by
  by_cases opens : ∃ path policy, c.op = .init path policy
  · obtain ⟨path,policy,op⟩ := opens
    obtain ⟨w',ran,ready⟩ := Wal.init_ready c.io succeeds.io path policy w
    refine ⟨w',by simp [WalCall.step,WalCall.run,op,ran,Act.leaves],?_⟩
    rw [consistent.content] at ready
    have none : c.logOps w = [] := by simp [WalCall.logOps,op]
    rw [none,List.append_nil]
    exact TrackedWal.consistent_of_ready ready
  · obtain ⟨⟨w',log⟩,taken,after⟩ := TrackedWal.step_consistent "" ⟨w,LogOp.logOf ops⟩ c consistent
      ⟨succeeds,fun path policy op => absurd ⟨path,policy,op⟩ opens⟩
    have stepped : c.step w = some w' ∧ TrackedWal.track ⟨w,LogOp.logOf ops⟩ c.op = log := by
      simpa [TrackedWal.step,WalCall.step] using taken
    rw [track_eq] at stepped
    exact ⟨w',stepped.1,stepped.2 ▸ after⟩

theorem Sound.synced {s : DiskWal} (sound : s.Sound) (due : Bool) : (s.synced due).Sound := by
  cases due with
  | false => exact sound
  | true => exact ⟨sound.tracks.flush,sound.small,sound.consistent⟩

theorem Sound.handle {s : DiskWal} (sound : s.Sound) : s.wal.HandleValid := by
  intro enabled
  have ready := sound.consistent.ready enabled
  exact ⟨ready.isOpen,by rw [ready.fd]; rfl⟩

variable {filepath : String}

theorem Sound.step {s s' : DiskWal} (sound : s.Sound) (moment : WalMoment)
    (admitted : Admitted filepath moment) (taken : s.step moment = some s') : s'.Sound := by
  cases moment with
  | tick =>
    simp only [DiskWal.step,sync_apply] at taken
    split at taken
    · cases taken
      exact sound.synced _
    · cases taken
  | call c =>
    obtain ⟨w',ran,consistent⟩ := consistent_step s.wal s.ops c admitted.1 sound.consistent
    cases ran
    cases taken
    rw [run_eq c admitted.1 s sound.handle]
    apply Sound.synced
    refine ⟨sound.tracks.write _,?_,consistent⟩
    intro op member
    obtain old | new := List.mem_append.mp member
    · exact sound.small op old
    · exact logOps_small filepath s.wal c admitted op new

theorem sound_of_run (moments : List WalMoment) (s : DiskWal)
    (admitted : ∀ moment ∈ moments, Admitted filepath moment)
    (ran : Machine.run step start moments = some s) : s.Sound :=
  Machine.invariant_of_run step (Admitted filepath) Sound (fun _ moment _ sound label taken =>
    sound.step moment label taken) start s moments start_sound admitted ran

/-- What is on the disk stays in front of whatever is behind it, unless the file has been truncated
since. -/
def KeepsSynced (leaves : Cached Bytes LogChange → Bytes → Prop) : Prop :=
  ∀ c left, leaves c left → .truncate ∉ c.pending → c.disk <+: left

/-- Where only truncations are not yet on the disk, the file is as it was synced or empty. -/
def TruncatesWhole (leaves : Cached Bytes LogChange → Bytes → Prop) : Prop :=
  ∀ c left, leaves c left → (∀ change ∈ c.pending, change = .truncate) →
    left = c.disk ∨ c.pending ≠ [] ∧ left = []

section

variable {leaves : Cached Bytes LogChange → Bytes → Prop}

theorem keepsSynced_of_ordered (ordered : Cached.Ordered LogChange.apply leaves) : KeepsSynced leaves := by
  intro c left lost untouched
  obtain ⟨k,rfl⟩ := ordered c left lost
  have bytes : ∀ changes : List LogChange, .truncate ∉ changes →
      ∀ content, content <+: changes.foldl LogChange.apply content := by
    intro changes
    induction changes with
    | nil => exact fun _ content => List.prefix_rfl
    | cons change changes ih =>
      intro untouched content
      cases change with
      | byte b =>
        exact (List.prefix_append content [b]).trans
          (ih (fun found => untouched (List.mem_cons_of_mem _ found)) _)
      | truncate => exact absurd List.mem_cons_self untouched
  exact bytes _ (fun found => untouched (List.mem_of_mem_take found)) c.disk

theorem truncatesWhole_of_ordered (ordered : Cached.Ordered LogChange.apply leaves) :
    TruncatesWhole leaves := by
  intro c left lost truncates
  obtain ⟨k,rfl⟩ := ordered c left lost
  cases shape : c.pending.take k with
  | nil => exact .inl rfl
  | cons change changes =>
    have all : ∀ x ∈ change :: changes, x = .truncate := by
      rw [← shape]
      exact fun x member => truncates x (List.mem_of_mem_take member)
    have some : c.pending ≠ [] := by
      intro none
      simp [none] at shape
    have emptied : ∀ xs : List LogChange, (∀ x ∈ xs, x = .truncate) →
        xs.foldl LogChange.apply [] = [] := by
      intro xs truncating
      induction xs with
      | nil => rfl
      | cons x xs ih =>
        rw [truncating x List.mem_cons_self]
        exact ih fun y member => truncating y (List.mem_cons_of_mem _ member)
    rw [all change List.mem_cons_self,List.foldl_cons]
    exact .inr ⟨some,emptied changes fun x member => all x (List.mem_cons_of_mem _ member)⟩

end

theorem truncate_not_mem (ops : List LogOp) (uncleared : .clear ∉ ops) :
    .truncate ∉ ops.flatMap LogOp.changes := by
  intro found
  obtain ⟨op,member,change⟩ := List.mem_flatMap.mp found
  cases op with
  | append record => simp [LogOp.changes] at change
  | clear => exact uncleared member

/-- The power fails at any time, within a call or between two of them. If the disk keeps what is
synced, the records synced since the log was last cleared are read back first. If the changes of
the file reach it in order, what is read back is the log as it was after some of the operations,
those before the last sync among them. -/
theorem power_loss_keeps_settled (leaves : Cached Bytes LogChange → Bytes → Prop)
    (moments : List WalMoment) (s : DiskWal) (admitted : ∀ moment ∈ moments, Admitted filepath moment)
    (ran : Machine.run step start moments = some s) (c : WalCall) (last : Admitted filepath (.call c))
    (i : Nat) (left : Bytes)
    (lost : leaves (s.cached.write (((c.logOps s.wal).flatMap LogOp.changes).take i)) left) :
    let ops := s.ops ++ c.logOps s.wal
    s.cached.view LogChange.apply = s.wal.content ∧
      (KeepsSynced leaves → .clear ∉ ops.drop s.settled →
        LogOp.logOf (ops.take s.settled) <+: Wal.logged left) ∧
      (Cached.Ordered LogChange.apply leaves →
        ∃ j, s.settled ≤ j ∧ j ≤ ops.length ∧ Wal.logged left = LogOp.logOf (ops.take j)) := by
  have sound := sound_of_run moments s admitted ran
  have smalls : ∀ op ∈ s.ops ++ c.logOps s.wal, op.Small := by
    intro op member
    obtain old | new := List.mem_append.mp member
    · exact sound.small op old
    · exact logOps_small filepath s.wal c last op new
  refine ⟨sound.view,?_,?_⟩
  · intro keeps uncleared
    have bound := sound.tracks.bound
    rw [List.drop_append_of_le_length bound] at uncleared
    have untouched : .truncate ∉ (s.cached.write
        (((c.logOps s.wal).flatMap LogOp.changes).take i)).pending := by
      simp only [Cached.write,sound.tracks.pending,List.mem_append,not_or]
      exact ⟨truncate_not_mem _ fun found => uncleared (List.mem_append_left _ found),
        fun found => truncate_not_mem _ (fun found => uncleared (List.mem_append_right _ found))
          (List.mem_of_mem_take found)⟩
    obtain ⟨rest,rfl⟩ := keeps _ left lost untouched
    rw [List.take_append_of_le_length bound]
    change _ <+: Wal.logged (s.cached.disk ++ rest)
    rw [sound.tracks.disk,LogOp.content_eq,Wal.logged_append _ (LogOp.logOf_small _ fun op member =>
      sound.small op (List.mem_of_mem_take member))]
    exact List.prefix_append ..
  · intro ordered
    have whole := (ordered _ left lost).of_part _ _ (List.take_prefix i _)
    obtain ⟨j,part,lower,upper,rfl,next⟩ := (sound.tracks.write (c.logOps s.wal)).front whole
    exact ⟨j,lower,upper,LogOp.logged_part _ smalls j part next⟩

theorem admitted_ofOp (op : WalOp) (path : ∀ path policy, op = .init path policy → path = "wal.log")
    (small : ∀ record, op = .append record → record.Small) : Admitted "wal.log" (.call (.ofOp op)) :=
  ⟨WalCall.ofOp_succeeds op,path,small⟩

def recordA : WalRecord := ⟨.SET,ascii "a",ascii "1"⟩

def recordB : WalRecord := ⟨.DEL,ascii "a",[]⟩

/-- The background thread syncs the first record only. -/
def ticked : List WalMoment :=
  [.call (.ofOp (.init "wal.log" .EVERYSEC)),.call (.ofOp (.append recordA)),.tick,
    .call (.ofOp (.append recordB))]

/-- The second record is on the disk in part when the power fails in the next call. -/
theorem power_loss_keeps_settled_ticked :
    ∃ s j, Machine.run step start ticked = some s ∧ s.settled = 1 ∧ 1 ≤ j ∧
      Wal.logged (recordA.serialize ++ recordB.serialize.take 3) =
        LogOp.logOf ((s.ops ++ [LogOp.append recordA]).take j) ∧
      LogOp.logOf ((s.ops ++ [LogOp.append recordA]).take 1) <+:
        Wal.logged (recordA.serialize ++ recordB.serialize.take 3) := by
  have ends : (Machine.run step start ticked).map
      (fun s => ((s.settled,s.cached),s.ops,s.wal.enabled)) = some ((1,
        ⟨recordA.serialize,recordB.serialize.map .byte⟩),[.append recordA,.append recordB],true) := by
    decide +kernel
  obtain ⟨s,ran,same⟩ := Option.map_eq_some_iff.mp ends
  simp only [Prod.mk.injEq] at same
  obtain ⟨⟨settled,cached⟩,ops,enabled⟩ := same
  have first : Admitted "wal.log" (.call (.ofOp (.append recordA))) :=
    admitted_ofOp _ (by simp) (by simp; decide)
  have second : Admitted "wal.log" (.call (.ofOp (.append recordB))) :=
    admitted_ofOp _ (by simp) (by simp; decide)
  have admitted : ∀ moment ∈ ticked, Admitted "wal.log" moment := by
    simp only [ticked,List.forall_mem_cons]
    exact ⟨admitted_ofOp _ (by simp) (by simp),first,trivial,second,by simp⟩
  have next : WalCall.logOps s.wal (.ofOp (.append recordA)) = [LogOp.append recordA] := by
    simp [WalCall.logOps,WalCall.ofOp,enabled]
  have ordered : Cached.Ordered LogChange.apply (Cached.Front LogChange.apply) := fun _ _ front => front
  obtain ⟨-,kept,inOrder⟩ := power_loss_keeps_settled (Cached.Front LogChange.apply) ticked s admitted ran
    (.ofOp (.append recordA)) first 5 (recordA.serialize ++ recordB.serialize.take 3)
    ⟨3,by rw [cached,next]; decide +kernel⟩
  obtain ⟨j,lower,-,logged⟩ := inOrder ordered
  have front := kept (keepsSynced_of_ordered ordered) (by rw [next,settled,ops]; decide)
  rw [next] at logged front
  rw [settled] at lower front
  exact ⟨s,j,ran,settled,lower,logged,front⟩

def OpensAlways : WalMoment → Prop
  | .call c => ∀ path policy, c.op = .init path policy → policy = .ALWAYS
  | .tick => True

/-- Every record is synced. What clears the log need not be. -/
structure Prompt (s : DiskWal) : Prop where
  policy : s.wal.enabled = true → s.wal.policy = .ALWAYS
  cleared : ∀ op ∈ s.ops.drop s.settled, op = .clear

section

variable (w : Wal)

theorem writeRecord_policy (io : WalIo) (record : WalRecord) :
    (Act.leaves (Wal.writeRecord io record w)).policy = w.policy ∧
      (Act.leaves (Wal.writeRecord io record w)).enabled = w.enabled := by
  simp only [Wal.writeRecord,Act.bind_apply,Act.get_apply]
  cases w.fd with
  | none => exact ⟨rfl,rfl⟩
  | some position =>
    cases io.write record.serialize.length with
    | none => exact ⟨rfl,rfl⟩
    | some count =>
      simp only [Act.bind_apply,Act.modify_apply,Act.ite_apply,Act.throw_apply]
      split <;> exact ⟨rfl,rfl⟩

theorem readAll_policy :
    (Act.leaves (Wal.readAll w)).policy = w.policy ∧ (Act.leaves (Wal.readAll w)).enabled = w.enabled := by
  cases isOpen : w.isOpen with
  | false => simp [Wal.readAll,isOpen,Act.leaves]
  | true =>
    cases descriptor : w.fd with
    | none => simp [Wal.readAll,isOpen,descriptor,Act.leaves]
    | some position =>
      rw [Wal.readAll_open w position isOpen descriptor]
      exact ⟨rfl,rfl⟩

/-- Only `Init` sets the policy, and no other call enables a log. -/
theorem run_policy (c : WalCall) (succeeds : c.Succeeds) (other : ∀ path policy, c.op ≠ .init path policy) :
    (Act.leaves (c.run w)).policy = w.policy ∧
      ((Act.leaves (c.run w)).enabled = true → w.enabled = true) := by
  obtain ⟨op,io,most⟩ := c
  cases op with
  | init path policy => exact absurd rfl (other path policy)
  | append record =>
    obtain ⟨policy,enabled⟩ := writeRecord_policy w io record
    simp only [WalCall.run,Wal.append_apply]
    split
    · exact ⟨policy,enabled ▸ id⟩
    · exact ⟨rfl,id⟩
  | readAll =>
    have read := readAll_policy w
    simp only [WalCall.run,Act.bind_apply,Wal.readAllCalls_eq most succeeds.most w]
    cases ran : Wal.readAll w with
    | ok records w' | error fault w' =>
      rw [ran] at read
      exact ⟨read.1,read.2 ▸ id⟩
  | getFileSize =>
    simp only [WalCall.run,Act.bind_apply,Wal.getFileSizeCalls_eq w,Wal.getFileSize,Act.get_apply,
      Act.ite_apply,Act.pure_apply]
    cases w.isOpen <;> cases w.fd <;> exact ⟨rfl,id⟩
  | clear | clearWithoutLock =>
    have truncates : io.openTruncate = true := succeeds.io.openTruncate
    simp only [WalCall.run,Wal.clear,Wal.clearWithoutLock_apply,truncates,if_true]
    split
    · exact ⟨rfl,id⟩
    · exact ⟨rfl,id⟩
  | shutdown =>
    cases isOpen : w.isOpen <;>
      simp [WalCall.run,Wal.shutdown,Wal.sync,Wal.closeFD,isOpen,Act.leaves]

end

theorem Prompt.synced {s : DiskWal} (prompt : s.Prompt) (due : Bool) : (s.synced due).Prompt := by
  cases due with
  | false => exact prompt
  | true => exact ⟨prompt.policy,by simp [DiskWal.synced,DiskWal.flush]⟩

theorem step_policy (c : WalCall) (succeeds : c.Succeeds) (w w' : Wal)
    (policy : w.enabled = true → w.policy = .ALWAYS)
    (opens : ∀ path policy, c.op = .init path policy → policy = .ALWAYS)
    (ran : c.step w = some w') : w'.enabled = true → w'.policy = .ALWAYS := by
  have left : Act.leaves (c.run w) = w' := by simpa [WalCall.step] using ran
  intro enabled
  by_cases isInit : ∃ path policy, c.op = .init path policy
  · obtain ⟨path,chosen,op⟩ := isInit
    obtain rfl := opens path chosen op
    have opened := succeeds.io.openFile 0
    rw [← left]
    cases isOpen : w.isOpen <;>
      simp [WalCall.run,op,Wal.init,Wal.tryOpen,Wal.tryOpenFrom,Wal.maxRetries,opened,isOpen,Wal.sync,
        Wal.closeFD,Act.leaves]
  · obtain ⟨same,before⟩ := run_policy w c succeeds fun path policy op => isInit ⟨path,policy,op⟩
    rw [left] at same before
    exact same.trans (policy (before enabled))

theorem Prompt.step {s s' : DiskWal} (prompt : s.Prompt) (sound : s.Sound) (moment : WalMoment)
    (admitted : Admitted filepath moment) (opens : OpensAlways moment) (taken : s.step moment = some s') :
    s'.Prompt := by
  cases moment with
  | tick =>
    simp only [DiskWal.step,sync_apply] at taken
    split at taken
    · cases taken
      exact prompt.synced _
    · cases taken
  | call c =>
    have policy := step_policy c admitted.1 s.wal _ prompt.policy opens rfl
    cases taken
    rw [run_eq c admitted.1 s sound.handle]
    cases due : c.syncs s.wal with
    | true => exact ⟨policy,by simp [DiskWal.synced,DiskWal.flush]⟩
    | false =>
      refine ⟨policy,?_⟩
      intro op member
      simp only [DiskWal.synced,DiskWal.logged,Bool.false_eq_true,if_false,
        List.drop_append_of_le_length sound.tracks.bound] at member
      obtain old | new := List.mem_append.mp member
      · exact prompt.cleared op old
      · cases enabled : s.wal.enabled with
        | false => simp [WalCall.logOps,enabled] at new
        | true =>
          cases isOp : c.op with
          | append record =>
            -- the record would have been synced
            simp [WalCall.syncs,enabled,(sound.handle enabled).2,isOp,prompt.policy enabled] at due
          | clear | clearWithoutLock => simpa [WalCall.logOps,enabled,isOp] using new
          | init _ _ | readAll | getFileSize | shutdown => simp [WalCall.logOps,enabled,isOp] at new

/-- Where every record is synced, a power loss between two calls leaves the log as it was, or as
it was before the calls that cleared it last. -/
theorem always_loses_no_record (leaves : Cached Bytes LogChange → Bytes → Prop)
    (whole : TruncatesWhole leaves) (moments : List WalMoment) (s : DiskWal)
    (admitted : ∀ moment ∈ moments, Admitted filepath moment ∧ OpensAlways moment)
    (ran : Machine.run step start moments = some s) (left : Bytes) (lost : leaves s.cached left) :
    ∃ kept cleared, s.ops = kept ++ cleared ∧ (∀ op ∈ cleared, op = .clear) ∧
      Wal.logged left = LogOp.logOf kept := by
  obtain ⟨sound,prompt⟩ := Machine.invariant_of_run step
    (fun moment => Admitted filepath moment ∧ OpensAlways moment) (fun s => s.Sound ∧ s.Prompt)
    (fun s moment s' holds label taken => ⟨holds.1.step moment label.1 taken,
      holds.2.step holds.1 moment label.1 label.2 taken⟩)
    start s moments ⟨start_sound,by simp [start,Wal.unopened],by simp [start]⟩ admitted ran
  have split := (List.take_append_drop s.settled s.ops).symm
  have truncates : ∀ change ∈ s.cached.pending, change = .truncate := by
    intro change member
    rw [sound.tracks.pending] at member
    obtain ⟨op,unsynced,change⟩ := List.mem_flatMap.mp member
    rw [prompt.cleared op unsynced] at change
    exact List.mem_singleton.mp change
  obtain rfl | ⟨some,rfl⟩ := whole s.cached left lost truncates
  · refine ⟨s.ops.take s.settled,s.ops.drop s.settled,split,prompt.cleared,?_⟩
    rw [sound.tracks.disk,LogOp.content_eq]
    exact Wal.logged_stream _ (LogOp.logOf_small _ fun op member =>
      sound.small op (List.mem_of_mem_take member))
  · -- the log was cleared last, and is empty
    refine ⟨s.ops,[],by simp,by simp,?_⟩
    obtain ⟨ops,last,ends⟩ : ∃ ops last, s.ops.drop s.settled = ops ++ [last] := by
      refine ⟨_,_,(List.dropLast_append_getLast ?_).symm⟩
      intro none
      rw [sound.tracks.pending,none] at some
      exact some rfl
    have cleared : last = .clear := prompt.cleared last (by simp [ends])
    rw [split,ends,cleared,← List.append_assoc,LogOp.logOf_append]
    rfl

def clearedLast : List WalMoment :=
  [.call (.ofOp (.init "wal.log" .ALWAYS)),.call (.ofOp (.append recordA)),.call (.ofOp .clear)]

/-- The log has been cleared, and its record is back. -/
theorem always_loses_no_record_clearedLast :
    ∃ s kept cleared, Machine.run step start clearedLast = some s ∧
      s.ops = [.append recordA,.clear] ∧ s.ops = kept ++ cleared ∧ (∀ op ∈ cleared, op = .clear) ∧
      Wal.logged recordA.serialize = LogOp.logOf kept := by
  have ends : (Machine.run step start clearedLast).map (fun s => (s.cached,s.ops)) =
      some (⟨recordA.serialize,[.truncate]⟩,[.append recordA,.clear]) := by
    decide +kernel
  obtain ⟨s,ran,same⟩ := Option.map_eq_some_iff.mp ends
  simp only [Prod.mk.injEq] at same
  obtain ⟨cached,ops⟩ := same
  have admitted : ∀ moment ∈ clearedLast, Admitted "wal.log" moment ∧ OpensAlways moment := by
    simp only [clearedLast,List.forall_mem_cons]
    refine ⟨⟨admitted_ofOp _ (by simp) (by simp),?_⟩,⟨admitted_ofOp _ (by simp) (by simp; decide),?_⟩,
      ⟨admitted_ofOp _ (by simp) (by simp),?_⟩,by simp⟩
    all_goals simp [OpensAlways,WalCall.ofOp]
  obtain ⟨kept,cleared,split,onlyClears,logged⟩ := always_loses_no_record
    (Cached.Front LogChange.apply) (truncatesWhole_of_ordered fun _ _ front => front) clearedLast s admitted
    ran recordA.serialize ⟨0,by rw [cached]; rfl⟩
  exact ⟨s,kept,cleared,ran,ops,split,onlyClears,logged⟩

end DiskWal
end KvCache
