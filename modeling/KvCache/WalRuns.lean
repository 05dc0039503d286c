import KvCache.Wal
import KvCache.Machine

/-! Sequences of calls on the WAL object. The file is opened without `O_APPEND`, so an append
goes wherever the last call has left the position of the descriptor; `ReadAll` and
`GetFileSize` are followed here seek by seek. A call that throws leaves the object as it
stands at that point. -/
namespace KvCache

namespace Wal

inductive Whence where
  | SET (offset : Nat)
  | CUR
  | END
  deriving DecidableEq, Repr

/-- `lseek` on `fd_`: the new position, `none` for the -1 of a closed descriptor. -/
def lseek (whence : Whence) : Act Wal (Option Nat) := do
  let w ← get
  match w.fd with
  | none => return none
  | some position =>
    let target := match whence with
      | .SET offset => offset
      | .CUR => position
      | .END => w.content.length
    set { w with fd := some target }
    return some target

/-- One `read`: the bytes at the position, at most `count` of them and at most as many as
the call delivers. -/
def fileRead (count most : Nat) : Act Wal Bytes := do
  let w ← get
  match w.fd with
  | none => return []
  | some position =>
    let part := ((w.content.drop position).take count).take most
    set { w with fd := some (position + part.length) }
    return part

/-- The read loop of `ReadAll`; `most` says what each call delivers. -/
def readLoop (most : Nat → Nat) (fileSize : Nat) : Nat → Bytes → Act Wal Bytes
  | 0, total => return total
  | fuel + 1, total =>
    if total.length < fileSize then do
      let part ← fileRead (fileSize - total.length) (most total.length)
      if part.isEmpty then return total
      readLoop most fileSize fuel (total ++ part)
    else return total

def readAllCalls (most : Nat → Nat) : Act Wal (List WalRecord) := do
  if !(← get).isOpen then return []
  match ← lseek .END with
  | none => return []
  | some fileSize =>
    if fileSize = 0 then return []
    let _ ← lseek (.SET 0)
    let content ← readLoop most fileSize fileSize []
    ofExcept (parseRecords content (content.length + 1) 0)

def getFileSizeCalls : Act Wal Nat := do
  let w ← get
  if !w.isOpen || w.fd.isNone then return 0
  let cur ← lseek .CUR
  let size ← lseek .END
  let _ ← lseek (.SET (cur.getD 0))
  return size.getD 0

theorem lseek_apply (whence : Whence) (w : Wal) (position : Nat) (descriptor : w.fd = some position) :
    lseek whence w =
      let target := match whence with
        | .SET offset => offset
        | .CUR => position
        | .END => w.content.length
      .ok (some target) { w with fd := some target } := by
  simp [lseek,descriptor]

theorem lseek_closed (whence : Whence) (w : Wal) (closed : w.fd = none) :
    lseek whence w = .ok none w := by
  simp [lseek,closed]

theorem fileRead_apply (w : Wal) (total : Bytes) (most : Nat) (read : total <+: w.content)
    (descriptor : w.fd = some total.length) :
    ∃ part, fileRead (w.content.length - total.length) most w =
        .ok part { w with fd := some (total ++ part).length } ∧
      total ++ part <+: w.content ∧ part.length = min most (w.content.length - total.length) := by
  obtain ⟨rest,split⟩ := read
  have lengths : w.content.length - total.length = rest.length := by simp [← split]
  refine ⟨rest.take most,?_,?_,?_⟩
  · simp [fileRead,descriptor,← split]
  · rw [← split]
    exact (List.prefix_append_right_inj total).mpr (List.take_prefix most rest)
  · rw [lengths,List.length_take]

/-- However the reads are cut, the loop delivers the file and stops at its end. -/
theorem readLoop_apply (most : Nat → Nat) (delivers : ∀ n, 0 < most n) (fuel : Nat) (total : Bytes)
    (w : Wal) (read : total <+: w.content) (descriptor : w.fd = some total.length)
    (enough : w.content.length ≤ total.length + fuel) :
    readLoop most w.content.length fuel total w =
      .ok w.content { w with fd := some w.content.length } := by
  induction fuel generalizing total w with
  | zero =>
    rw [← read.eq_of_length_le (by omega),← descriptor]
    rfl
  | succ fuel ih =>
    rw [readLoop,Act.ite_apply]
    by_cases more : total.length < w.content.length
    · obtain ⟨part,ran,further,size⟩ :=
        fileRead_apply w total (most total.length) read descriptor
      have positive := delivers total.length
      have nonempty : part.isEmpty = false := by
        rw [List.isEmpty_eq_false_iff,← List.length_pos_iff]
        omega
      rw [if_pos more,Act.bind_apply,ran]
      simp only [nonempty,Bool.false_eq_true,if_false]
      have left : w.content.length ≤ (total ++ part).length + fuel := by
        rw [List.length_append]
        omega
      exact ih (total ++ part) { w with fd := some (total ++ part).length } further rfl left
    · rw [if_neg more,← read.eq_of_length_le (by omega),← descriptor]
      rfl

theorem readAllCalls_eq (most : Nat → Nat) (delivers : ∀ n, 0 < most n) (w : Wal) :
    readAllCalls most w = readAll w := by
  obtain ⟨filepath,file,fd,writePos,isOpen,enabled,policy⟩ := w
  cases isOpen with
  | false => rfl
  | true =>
    cases fd with
    | none => rfl
    | some position =>
      have looped := readLoop_apply most delivers (file.getD []).length []
        ⟨filepath,file,some 0,writePos,true,enabled,policy⟩ List.nil_prefix rfl (Nat.le_add_left _ _)
      by_cases empty : file.getD [] = []
      · simp [readAllCalls,readAll,lseek,content,empty]
      · simp only [content] at looped
        simp [readAllCalls,readAll,lseek,content,empty,looped]

theorem getFileSizeCalls_eq (w : Wal) : getFileSizeCalls w = getFileSize w := by
  obtain ⟨filepath,file,fd,writePos,isOpen,enabled,policy⟩ := w
  cases fd with
  | none => cases isOpen <;> rfl
  | some position => cases isOpen <;> rfl

def clear (io : WalIo) : Act Wal Unit := clearWithoutLock io

end Wal

inductive WalOp where
  | init (filepath : String) (policy : FsyncPolicy)
  | append (record : WalRecord)
  | readAll
  | getFileSize
  | clear
  | clearWithoutLock
  | shutdown
  deriving DecidableEq, Repr

def WalOp.truncates : WalOp → Bool
  | clear | clearWithoutLock => true
  | _ => false

/-- An operation with the answers of its system calls; `most` is for the reads. -/
structure WalCall where
  op : WalOp
  io : WalIo
  most : Nat → Nat

/-- Every system call succeeds in full; a read delivers at least one byte. -/
structure WalCall.Succeeds (c : WalCall) : Prop where
  io : c.io.Succeeds
  most : ∀ n, 0 < c.most n

namespace WalCall

def run (c : WalCall) : Act Wal Unit :=
  match c.op with
  | .init filepath policy => Wal.init c.io filepath policy
  | .append record => Wal.append c.io record
  | .readAll => do let _ ← Wal.readAllCalls c.most
  | .getFileSize => do let _ ← Wal.getFileSizeCalls
  | .clear => Wal.clear c.io
  | .clearWithoutLock => Wal.clearWithoutLock c.io
  | .shutdown => Wal.shutdown

/-- The object after the call, also where the call throws. -/
def step (w : Wal) (c : WalCall) : Option Wal := some (Act.leaves (c.run w))

def ofOp (op : WalOp) : WalCall := ⟨op,⟨fun _ => .opened,some,true⟩,fun _ => 4096⟩

theorem ofOp_succeeds (op : WalOp) : (ofOp op).Succeeds :=
  ⟨⟨fun _ => rfl,fun _ => rfl,rfl⟩,fun _ => Nat.zero_lt_succ 4095⟩

theorem run_closed (c : WalCall) (w : Wal) (disabled : w.enabled = false) (closed : w.isOpen = false) :
    (∃ filepath policy, c.op = .init filepath policy) ∨ c.run w = .ok () w := by
  obtain ⟨filepath,file,fd,writePos,isOpen,enabled,policy⟩ := w
  obtain ⟨op,io,most⟩ := c
  subst disabled closed
  cases op with
  | init filepath policy => exact .inl ⟨filepath,policy,rfl⟩
  | append record => exact .inr rfl
  | readAll => exact .inr rfl
  | getFileSize => exact .inr rfl
  | clear => exact .inr rfl
  | clearWithoutLock => exact .inr rfl
  | shutdown => exact .inr rfl

theorem run_ready (c : WalCall) (succeeds : c.Succeeds) (w : Wal) (content : Bytes)
    (ready : w.Ready content) :
    ∃ w', c.run w = .ok () w' ∧
      match c.op with
      | .append record => w'.Ready (content ++ record.serialize)
      | .clear | .clearWithoutLock => w'.Ready []
      | .shutdown => w'.content = content ∧ w'.isOpen = false ∧ w'.enabled = false
      | _ => w'.Ready content := by
  obtain ⟨op,io,most⟩ := c
  have calls : io.Succeeds := succeeds.io
  cases op with
  | init filepath policy =>
    have opened := Wal.init_ready io calls filepath policy w
    rwa [ready.content_eq] at opened
  | append record => exact Wal.append_ready io calls record w content ready
  | readAll =>
    have read := (Wal.readAllCalls_eq most succeeds.most w).trans (Wal.readAll_ready w content ready)
    exact ⟨w,by simp [run,read],ready⟩
  | getFileSize =>
    have size : Wal.getFileSize w = .ok content.length w := by
      simp [Wal.getFileSize,ready.isOpen,ready.fd,ready.content_eq]
    exact ⟨w,by simp [run,(Wal.getFileSizeCalls_eq w).trans size],ready⟩
  | clear => exact Wal.clearWithoutLock_ready io calls w content ready
  | clearWithoutLock => exact Wal.clearWithoutLock_ready io calls w content ready
  | shutdown =>
    refine ⟨{ w with fd := none, isOpen := false, enabled := false },?_,?_⟩
    · simp [run,Wal.shutdown,Wal.sync,Wal.closeFD,ready.isOpen]
    · exact ⟨ready.content_eq,rfl,rfl⟩

end WalCall

/-- The log with the records appended while it was enabled, since the last truncation that
was executed while it was enabled. -/
structure TrackedWal where
  wal : Wal
  appended : List WalRecord

namespace TrackedWal

def track (s : TrackedWal) (op : WalOp) : List WalRecord :=
  if !s.wal.enabled then s.appended
  else
    match op with
    | .append record => s.appended ++ [record]
    | .clear | .clearWithoutLock => []
    | _ => s.appended

def step (s : TrackedWal) (c : WalCall) : Option TrackedWal := do
  return ⟨← c.step s.wal,s.track c.op⟩

def start : TrackedWal := ⟨.unopened (some []),[]⟩

def bytes (s : TrackedWal) : Bytes := WalRecord.framing.stream s.appended

/-- What is asked of a state: the file of an enabled log holds the tracked records, the
descriptor and `write_pos_` stand at its end, and an append extends it. -/
def AtEnd (s : TrackedWal) : Prop :=
  s.wal.enabled = true → s.wal.file = some s.bytes ∧ s.wal.fd = some s.bytes.length ∧
    s.wal.writePos = s.bytes.length ∧
    ∀ io record, io.Succeeds → ∃ w, Wal.append io record s.wal = .ok () w ∧
      w.file = some (s.bytes ++ record.serialize)

/-- The file keeps the tracked records also while the log is closed. -/
structure Consistent (s : TrackedWal) : Prop where
  content : s.wal.content = s.bytes
  isOpen : s.wal.isOpen = s.wal.enabled
  ready : s.wal.enabled = true → s.wal.Ready s.bytes

theorem Consistent.atEnd {s : TrackedWal} (consistent : Consistent s) : AtEnd s := by
  intro enabled
  have ready := consistent.ready enabled
  refine ⟨ready.file,ready.fd,ready.writePos,fun io record succeeds => ?_⟩
  obtain ⟨w,appended,after⟩ := Wal.append_ready io succeeds record s.wal _ ready
  exact ⟨w,appended,after.file⟩

theorem start_consistent : Consistent start := ⟨rfl,rfl,fun enabled => by cases enabled⟩

theorem consistent_of_ready {w : Wal} {appended : List WalRecord}
    (ready : w.Ready (WalRecord.framing.stream appended)) : Consistent ⟨w,appended⟩ :=
  ⟨ready.content_eq,by rw [ready.isOpen,ready.enabled],fun _ => ready⟩

/-- System calls that succeed, one path, and no background thread. -/
def Admitted (filepath : String) (c : WalCall) : Prop :=
  c.Succeeds ∧ ∀ path policy, c.op = .init path policy → path = filepath ∧ policy ≠ .EVERYSEC

theorem step_consistent (filepath : String) (s : TrackedWal) (c : WalCall)
    (consistent : Consistent s) (admitted : Admitted filepath c) :
    ∃ s', s.step c = some s' ∧ Consistent s' := by
  obtain ⟨w,appended⟩ := s
  cases enabled : w.enabled with
  | false =>
    have closed : w.isOpen = false := consistent.isOpen.trans enabled
    have tracked (op : WalOp) : track ⟨w,appended⟩ op = appended := by simp [track,enabled]
    rcases c.run_closed w enabled closed with ⟨path,policy,op⟩ | ran
    · obtain ⟨w',ran,ready⟩ := Wal.init_ready c.io admitted.1.io path policy w
      rw [consistent.content] at ready
      refine ⟨⟨w',appended⟩,?_,consistent_of_ready ready⟩
      simp [step,tracked,WalCall.step,WalCall.run,op,ran,Act.leaves]
    · refine ⟨⟨w,appended⟩,?_,consistent⟩
      simp [step,tracked,WalCall.step,ran,Act.leaves]
  | true =>
    obtain ⟨w',ran,after⟩ := c.run_ready admitted.1 w _ (consistent.ready enabled)
    refine ⟨⟨w',track ⟨w,appended⟩ c.op⟩,by simp [step,WalCall.step,ran,Act.leaves],?_⟩
    cases op : c.op with
    | shutdown =>
      rw [op] at after
      obtain ⟨content,closed,disabled⟩ := after
      refine ⟨?_,closed.trans disabled.symm,fun on => ?_⟩
      · simpa [track,enabled,bytes] using content
      · rw [disabled] at on
        cases on
    | append record =>
      rw [op] at after
      refine consistent_of_ready ?_
      simpa [track,enabled,bytes,WalRecord.framing,Framing.stream] using after
    | init path policy | readAll | getFileSize | clear | clearWithoutLock =>
      rw [op] at after
      refine consistent_of_ready ?_
      simpa [track,enabled,bytes] using after

/-- The log file. In every state reached from an empty file, an enabled log holds the
records appended since the last truncation, and the next append goes behind them. -/
theorem log_file_invariant (filepath : String) (calls : List WalCall)
    (admitted : ∀ c ∈ calls, Admitted filepath c) :
    Machine.Throughout step AtEnd start calls :=
  Machine.throughout_of_invariant step Consistent AtEnd (Admitted filepath) (fun _ => Consistent.atEnd)
    (step_consistent filepath) start calls start_consistent admitted

/-- An append, a shutdown and an append that is not written, a new `Init`, a look at the
size, an append, a read, and a last append. -/
theorem log_file_invariant_reopened :
    Machine.Throughout step AtEnd start
      ([.init "wal.log" .ALWAYS,.append ⟨.SET,ascii "a",ascii "1"⟩,.shutdown,
        .append ⟨.DEL,ascii "a",[]⟩,.init "wal.log" .NO,.getFileSize,
        .append ⟨.SET,ascii "b",ascii "2"⟩,.readAll,.append ⟨.DEL,ascii "b",[]⟩].map WalCall.ofOp) :=
  log_file_invariant "wal.log" _ (by
    intro c member
    obtain ⟨op,inside,rfl⟩ := List.mem_map.mp member
    refine ⟨WalCall.ofOp_succeeds op,?_⟩
    simp only [List.mem_cons,List.not_mem_nil,or_false] at inside
    rcases inside with rfl | rfl | rfl | rfl | rfl | rfl | rfl | rfl | rfl <;> simp [WalCall.ofOp])

end TrackedWal

namespace Wal

/-- An enabled log is open on a descriptor. -/
def HandleValid (w : Wal) : Prop := w.enabled = true → w.isOpen = true ∧ w.fd.isSome = true

instance (w : Wal) : Decidable w.HandleValid := inferInstanceAs (Decidable (_ → _))

theorem tryOpenFrom_handle (io : WalIo) (retries attempt : Nat) (w : Wal) :
    ∃ opened w', tryOpenFrom io retries attempt w = .ok opened w' ∧
      (opened = true → w'.isOpen = true ∧ w'.fd.isSome = true) := by
  induction retries generalizing attempt w with
  | zero => exact ⟨false,_,rfl,fun never => by cases never⟩
  | succ retries ih =>
    cases answer : io.openFile attempt with
    | opened => exact ⟨true,_,by simp [tryOpenFrom,answer]; rfl,fun _ => ⟨rfl,rfl⟩⟩
    | failed retryable =>
      cases retryable with
      | false => exact ⟨false,_,by simp [tryOpenFrom,answer]; rfl,fun never => by cases never⟩
      | true =>
        obtain ⟨opened,w',ran,handle⟩ := ih (attempt + 1) { w with fd := none }
        exact ⟨opened,w',by simp [tryOpenFrom,answer,ran],handle⟩

theorem init_handle (io : WalIo) (filepath : String) (policy : FsyncPolicy) (w : Wal) :
    (Act.leaves (init io filepath policy w)).HandleValid := by
  have ends (w : Wal) : (Act.leaves ((do
      let enabled ← tryOpen io
      modify fun w => { w with enabled := enabled } : Act Wal Unit) w)).HandleValid := by
    obtain ⟨opened,w',ran,handle⟩ := tryOpenFrom_handle io maxRetries 0 w
    simpa [tryOpen,ran,Act.leaves,HandleValid] using handle
  cases isOpen : w.isOpen with
  | false =>
    simp only [init,Act.bind_apply,Act.get_apply,Act.ite_apply,isOpen,Act.modify_apply] at ends ⊢
    exact ends _
  | true =>
    simp only [init,sync,closeFD,Act.bind_apply,Act.get_apply,Act.ite_apply,isOpen,Act.modify_apply,
      Act.pure_apply] at ends ⊢
    exact ends _

section

open Act

theorem lseek_handle (whence : Whence) : Preserves HandleValid (lseek whence) := by
  intro w valid
  cases descriptor : w.fd with
  | none =>
    rw [lseek_closed whence w descriptor]
    exact valid
  | some position =>
    rw [lseek_apply whence w position descriptor]
    exact fun enabled => ⟨(valid enabled).1,rfl⟩

theorem fileRead_handle (count most : Nat) : Preserves HandleValid (fileRead count most) := by
  intro w valid
  cases descriptor : w.fd with
  | none => simpa [fileRead,descriptor,leaves] using valid
  | some position =>
    simp only [fileRead,bind_apply,get_apply,descriptor,set_apply,pure_apply,leaves]
    exact fun enabled => ⟨(valid enabled).1,rfl⟩

theorem readLoop_handle (most : Nat → Nat) (fileSize fuel : Nat) (total : Bytes) :
    Preserves HandleValid (readLoop most fileSize fuel total) := by
  induction fuel generalizing total with
  | zero => exact preserves_pure total
  | succ fuel ih =>
    refine preserves_ite _ (preserves_bind (fileRead_handle _ _) fun part => ?_) (preserves_pure total)
    exact preserves_ite _ (preserves_pure total) (ih (total ++ part))

theorem readAllCalls_handle (most : Nat → Nat) : Preserves HandleValid (readAllCalls most) := by
  refine preserves_bind preserves_get fun w => preserves_ite _ (preserves_pure _) ?_
  refine preserves_bind (lseek_handle .END) fun found => ?_
  cases found with
  | none => exact preserves_pure _
  | some fileSize =>
    refine preserves_ite _ (preserves_pure _) (preserves_bind (lseek_handle _) fun _ => ?_)
    exact preserves_bind (readLoop_handle most _ _ _) fun _ => preserves_ofExcept _

theorem getFileSizeCalls_handle : Preserves HandleValid getFileSizeCalls := by
  refine preserves_bind preserves_get fun w => preserves_ite _ (preserves_pure _) ?_
  refine preserves_bind (lseek_handle _) fun _ => preserves_bind (lseek_handle _) fun _ => ?_
  exact preserves_bind (lseek_handle _) fun _ => preserves_pure _

theorem append_handle (io : WalIo) (record : WalRecord) : Preserves HandleValid (append io record) := by
  intro w valid
  rw [append_apply]
  split
  · simp only [writeRecord,bind_apply,get_apply]
    cases descriptor : w.fd with
    | none => exact valid
    | some position =>
      cases io.write record.serialize.length with
      | none => exact valid
      | some count =>
        simp only [bind_apply,modify_apply,Act.ite_apply,throw_apply]
        split
        · exact fun enabled => ⟨(valid enabled).1,rfl⟩
        · exact fun enabled => ⟨(valid enabled).1,rfl⟩
  · exact valid

end

theorem shutdown_handle (w : Wal) : (Act.leaves (shutdown w)).HandleValid := by
  cases isOpen : w.isOpen <;> simp [shutdown,sync,closeFD,isOpen,Act.leaves,HandleValid]

theorem clearWithoutLock_handle (io : WalIo) (w : Wal) (valid : w.HandleValid) :
    (Act.leaves (clearWithoutLock io w)).HandleValid ↔ (w.enabled = true → io.openTruncate = true) := by
  rw [clearWithoutLock_apply]
  cases enabled : w.enabled <;> cases truncated : io.openTruncate <;>
    simp [Act.leaves,HandleValid,enabled]
  exact (valid enabled).1

end Wal

namespace WalCall

def TruncateOpens (w : Wal) (c : WalCall) : Prop :=
  c.op.truncates = true → w.enabled = true → c.io.openTruncate = true

instance (w : Wal) (c : WalCall) : Decidable (c.TruncateOpens w) :=
  inferInstanceAs (Decidable (_ → _ → _))

/-- One call keeps the handle exactly where a truncation finds the file. -/
theorem step_handle_iff (w : Wal) (c : WalCall) (valid : w.HandleValid) :
    (Act.leaves (c.run w)).HandleValid ↔ c.TruncateOpens w := by
  obtain ⟨op,io,most⟩ := c
  have other (kept : (Act.leaves (run ⟨op,io,most⟩ w)).HandleValid) (plain : op.truncates = false) :
      (Act.leaves (run ⟨op,io,most⟩ w)).HandleValid ↔ TruncateOpens w ⟨op,io,most⟩ := by
    refine ⟨fun _ truncates => ?_,fun _ => kept⟩
    cases plain.symm.trans truncates
  have truncating : (Act.leaves (Wal.clearWithoutLock io w)).HandleValid ↔
      (true = true → w.enabled = true → io.openTruncate = true) := by
    simp [Wal.clearWithoutLock_handle io w valid]
  cases op with
  | init filepath policy => exact other (Wal.init_handle io filepath policy w) rfl
  | append record => exact other (Wal.append_handle io record w valid) rfl
  | readAll =>
    exact other (Act.preserves_bind (Wal.readAllCalls_handle most) (fun _ => Act.preserves_pure _) w valid) rfl
  | getFileSize =>
    exact other (Act.preserves_bind Wal.getFileSizeCalls_handle (fun _ => Act.preserves_pure _) w valid) rfl
  | clear => exact truncating
  | clearWithoutLock => exact truncating
  | shutdown => exact other (Wal.shutdown_handle w) rfl

/-- The handle. Every state of a run keeps an enabled log on a descriptor exactly where
each truncation of an enabled log finds its file. -/
theorem handle_valid_iff (file : Option Bytes) (calls : List WalCall) :
    Machine.Throughout step Wal.HandleValid (.unopened file) calls ↔
      Machine.Guarded step TruncateOpens (.unopened file) calls :=
  Machine.throughout_iff_guarded step TruncateOpens Wal.HandleValid Wal.HandleValid (fun _ => True)
    (fun _ valid => valid) (fun w c valid _ opens => ⟨_,rfl,(step_handle_iff w c valid).mpr opens⟩)
    (fun w c w' valid _ fails stepped kept => by
      cases stepped
      exact fails ((step_handle_iff w c valid).mp kept))
    (.unopened file) calls (fun enabled => by cases enabled) fun _ _ => trivial

/-- After `Init`, a `Clear` whose truncating `open` fails: the log stays enabled on no
descriptor, and every later append throws. -/
theorem enabled_without_descriptor :
    ∃ w, Machine.run step (.unopened none)
        [ofOp (.init "wal.log" .NO),⟨.clear,⟨fun _ => .opened,some,false⟩,fun _ => 4096⟩] = some w ∧
      ¬w.HandleValid ∧ w.enabled = true ∧ w.fd = none ∧
      ∀ io record, Wal.append io record w = .error Wal.writeFailed w :=
  ⟨⟨"wal.log",some [],none,0,true,true,.NO⟩,rfl,by decide,rfl,rfl,fun _ _ => rfl⟩

end WalCall

end KvCache
