import KvCache.WalRecord

/-! The WAL object over its one file. The descriptor is the file position it carries, so
that the shared position moved by seeks, reads and writes is part of the state, and each
operation is told what the system calls inside it answer. `fsync` changes no content. -/
namespace KvCache

inductive FsyncPolicy where
  | ALWAYS
  | EVERYSEC
  | NO
  deriving DecidableEq, Repr

/-- What `open` answers: a descriptor, or a failure whose `errno` the retry loop of
`TryOpen` accepts (`ENOENT`, `EACCES`) or not. -/
inductive OpenResult where
  | opened
  | failed (retryable : Bool)
  deriving DecidableEq, Repr

/-- The answers of the system calls of one operation: each attempt of `TryOpen`, the
count returned by `write` for a requested size (`none` for -1), and the truncating `open`. -/
structure WalIo where
  openFile : Nat → OpenResult
  write : Nat → Option Nat
  openTruncate : Bool

structure WalIo.Succeeds (io : WalIo) : Prop where
  openFile : ∀ attempt, io.openFile attempt = .opened
  write : ∀ count, io.write count = some count
  openTruncate : io.openTruncate = true

structure Wal where
  filepath : String
  /-- The content of the log file; `none` while there is no such file. -/
  file : Option Bytes
  /-- `fd_`, by the position of the descriptor; `none` is -1. -/
  fd : Option Nat
  writePos : Nat
  isOpen : Bool
  enabled : Bool
  policy : FsyncPolicy
  deriving DecidableEq, Repr

namespace Wal

/-- The singleton of a new process, before `Init`. -/
def unopened (file : Option Bytes) : Wal := ⟨"",file,none,0,false,false,.EVERYSEC⟩

def content (w : Wal) : Bytes := w.file.getD []

def maxRetries : Nat := 3

def sync : Act Wal Unit := pure ()

def closeFD : Act Wal Unit := modify fun w => { w with fd := none }

/-- The retry loop of `TryOpen`; a successful open seeks to the end of the file. -/
def tryOpenFrom (io : WalIo) : Nat → Nat → Act Wal Bool
  | 0, _ => do
    modify fun w => { w with isOpen := false }
    return false
  | retries + 1, attempt =>
    match io.openFile attempt with
    | .opened => do
      modify fun w => { w with file := some w.content,
                               fd := some w.content.length,
                               writePos := w.content.length,
                               isOpen := true }
      return true
    | .failed true => do
      modify fun w => { w with fd := none }
      tryOpenFrom io retries (attempt + 1)
    | .failed false => do
      modify fun w => { w with fd := none, isOpen := false }
      return false

def tryOpen (io : WalIo) : Act Wal Bool := tryOpenFrom io maxRetries 0

def init (io : WalIo) (filepath : String) (policy : FsyncPolicy) : Act Wal Unit := do
  if (← get).isOpen then
    sync
    closeFD
    modify fun w => { w with isOpen := false }
  modify fun w => { w with policy := policy, filepath := filepath }
  let enabled ← tryOpen io
  modify fun w => { w with enabled := enabled }

def shutdown : Act Wal Unit := do
  if (← get).isOpen then
    sync
    closeFD
    modify fun w => { w with isOpen := false }
  modify fun w => { w with enabled := false }

/-- `write` of some bytes at a file position, with the gap a seek past the end leaves. -/
def writeAt (content : Bytes) (position : Nat) (data : Bytes) : Bytes :=
  (content ++ List.replicate (position - content.length) 0#8).take position ++ data ++
    content.drop (position + data.length)

def writeFailed : Fault := .runtimeError "Failed to write to WAL file"

def writeRecord (io : WalIo) (record : WalRecord) : Act Wal Unit := do
  let data := record.serialize
  match (← get).fd, io.write data.length with
  | some position, some count =>
    let part := data.take count
    modify fun w => { w with file := some (writeAt w.content position part),
                             fd := some (position + part.length) }
    if part.length ≠ data.length then throw writeFailed
    modify fun w => { w with writePos := w.writePos + part.length }
  | _, _ => throw writeFailed

def append (io : WalIo) (record : WalRecord) : Act Wal Unit := do
  if !(← get).enabled then return
  writeRecord io record
  if (← get).policy = .ALWAYS then sync

def appendSet (io : WalIo) (key value : Bytes) : Act Wal Unit := append io ⟨.SET,key,value⟩

def appendDel (io : WalIo) (key : Bytes) : Act Wal Unit := append io ⟨.DEL,key,[]⟩

def parseRecords (content : Bytes) : Nat → Nat → Except Fault (List WalRecord)
  | 0, _ => .error .outOfFuel
  | fuel + 1, offset =>
    if offset < content.length then do
      let (record,consumed) ←
        WalRecord.deserialize (content.drop offset) (content.length - offset)
      if consumed = 0 then return []
      return record :: (← parseRecords content fuel (offset + consumed))
    else return []

/-- Reading leaves the descriptor at the end of the file, as the initial seek does. -/
def readAll : Act Wal (List WalRecord) := do
  let w ← get
  if !w.isOpen then return []
  match w.fd with
  | none => return []
  | some _ =>
    set { w with fd := some w.content.length }
    if w.content.length = 0 then return []
    ofExcept (parseRecords w.content (w.content.length + 1) 0)

def clearWithoutLock (io : WalIo) : Act Wal Unit := do
  if !(← get).enabled then return
  closeFD
  if !io.openTruncate then
    throw (.runtimeError ("Failed to clear WAL file: " ++ (← get).filepath))
  modify fun w => { w with file := some [], fd := some 0, writePos := 0 }

def getFileSize : Act Wal Nat := do
  let w ← get
  if !w.isOpen || w.fd.isNone then return 0
  return w.content.length

section

open Act

theorem append_failsWith (io : WalIo) (record : WalRecord) :
    FailsWith (·.isRuntimeError) (append io record) := by
  have written : FailsWith (·.isRuntimeError) (writeRecord io record) := by
    refine failsWith_bind failsWith_get fun w => ?_
    split
    · refine failsWith_bind (failsWith_modify _) fun _ => ?_
      exact failsWith_ite _ (failsWith_bind (failsWith_throw _ rfl) fun _ => failsWith_modify _)
        (failsWith_modify _)
    · exact failsWith_throw _ rfl
  refine failsWith_bind failsWith_get fun w => ?_
  refine failsWith_ite _ (failsWith_pure _) (failsWith_bind written fun _ => ?_)
  exact failsWith_bind failsWith_get fun w => failsWith_ite _ (failsWith_pure _) (failsWith_pure _)

theorem clearWithoutLock_failsWith (io : WalIo) :
    FailsWith (·.isRuntimeError) (clearWithoutLock io) := by
  refine failsWith_bind failsWith_get fun w => ?_
  refine failsWith_ite _ (failsWith_pure _) (failsWith_bind (failsWith_modify _) fun _ => ?_)
  refine failsWith_ite _ (failsWith_bind failsWith_get fun w => ?_) (failsWith_modify _)
  exact failsWith_bind (failsWith_throw _ rfl) fun _ => failsWith_modify _

end

theorem append_apply (io : WalIo) (record : WalRecord) (w : Wal) :
    append io record w = if w.enabled then writeRecord io record w else .ok () w := by
  cases enabled : w.enabled with
  | false => simp [append,enabled]
  | true =>
    simp only [append,Act.bind_apply,Act.get_apply,Act.ite_apply,enabled,sync,Act.pure_apply,ite_self]
    cases writeRecord io record w <;> rfl

theorem clearWithoutLock_apply (io : WalIo) (w : Wal) :
    clearWithoutLock io w =
      if !w.enabled then .ok () w
      else if io.openTruncate then .ok () { w with file := some [], fd := some 0, writePos := 0 }
      else .error (.runtimeError ("Failed to clear WAL file: " ++ w.filepath)) { w with fd := none } := by
  cases enabled : w.enabled <;> cases truncated : io.openTruncate <;>
    simp [clearWithoutLock,closeFD,enabled,truncated]

/-- The records `ReadAll` finds in a file. -/
def logged (content : Bytes) : List WalRecord :=
  ((WalRecord.framing.drain (content.length + 1) content).map Prod.fst).getD []

theorem parseRecords_eq (content : Bytes) (fuel offset : Nat) :
    parseRecords content fuel offset =
      match WalRecord.framing.drain fuel (content.drop offset) with
      | some (records,_) => .ok records
      | none => .error .outOfFuel := by
  induction fuel generalizing offset with
  | zero => rfl
  | succ fuel ih =>
    by_cases inside : offset < content.length
    · have remaining : content.length - offset = (content.drop offset).length := by simp
      simp only [parseRecords,if_pos inside,remaining,bind,Except.bind,pure,Except.pure]
      rcases WalRecord.decode_cases (content.drop offset) with
        ⟨stopped,stop⟩ | ⟨r,rest,_,shape,next,found⟩
      · simp only [stopped,Framing.drain,stop,if_pos]
      · have tail : content.drop (offset + r.serialize.length) = rest := by
          rw [← List.drop_drop,shape,List.drop_left]
        simp only [found,Framing.drain,next,ih,tail]
        rw [if_neg (by simp)]
        cases WalRecord.framing.drain fuel rest <;> rfl
    · have past : content.drop offset = [] := List.drop_eq_nil_of_le (Nat.not_lt.mp inside)
      simp [parseRecords,inside,past,Framing.drain,WalRecord.framing.decode_nil,pure,Except.pure]

theorem parseRecords_logged (content : Bytes) :
    parseRecords content (content.length + 1) 0 = .ok (logged content) := by
  obtain ⟨records,rest,run⟩ :=
    WalRecord.drain_total content (content.length + 1) (Nat.lt_succ_self _)
  simp [parseRecords_eq,logged,run]

/-- The records found are small, and their encodings are the front of the file; what
follows them does not decode. -/
theorem logged_sound (content : Bytes) :
    ∃ rest, content = WalRecord.framing.stream (logged content) ++ rest ∧
      (∀ r ∈ logged content, r.Small) ∧ WalRecord.framing.decode rest = none := by
  obtain ⟨records,rest,run⟩ :=
    WalRecord.drain_total content (content.length + 1) (Nat.lt_succ_self _)
  have same : logged content = records := by simp [logged,run]
  rw [same]
  exact ⟨rest,WalRecord.drain_sound _ _ _ _ run⟩

/-- A log cut anywhere holds the records that lie wholly inside the cut. -/
theorem logged_take (records : List WalRecord) (small : ∀ r ∈ records, r.Small) (n : Nat) :
    logged ((WalRecord.framing.stream records).take n) =
      records.take (WalRecord.framing.completed records n) := by
  have count := WalRecord.framing.completed_le_seen records small n
  rw [logged,WalRecord.framing.drain_take records small n _ (Nat.lt_succ_of_le count)]
  rfl

theorem logged_stream (records : List WalRecord) (small : ∀ r ∈ records, r.Small) :
    logged (WalRecord.framing.stream records) = records := by
  have whole := logged_take records small (WalRecord.framing.stream records).length
  rwa [List.take_length,Framing.completed_stream,List.take_length] at whole

theorem logged_append (records : List WalRecord) (small : ∀ r ∈ records, r.Small) (rest : Bytes) :
    logged (WalRecord.framing.stream records ++ rest) = records ++ logged rest := by
  obtain ⟨a,split,smallA,stopA⟩ := logged_sound (WalRecord.framing.stream records ++ rest)
  obtain ⟨b,tail,smallB,stopB⟩ := logged_sound rest
  refine (WalRecord.framing.stream_unique _ _ a b smallA ?_ stopA stopB ?_).1
  · intro r member
    rcases List.mem_append.mp member with front | back
    · exact small r front
    · exact smallB r back
  · rw [← split,Framing.stream_append,List.append_assoc,← tail]

theorem logged_nothing (data : Bytes) (nothing : WalRecord.framing.decode data = none) :
    logged data = [] := by
  simp [logged,Framing.drain,nothing]

theorem logged_torn (torn : WalRecord) (small : torn.Small) (tail : Bytes)
    (part : tail <+: torn.serialize) (strict : tail ≠ torn.serialize) : logged tail = [] :=
  logged_nothing tail (WalRecord.framing.decode_strict torn tail small part strict)

/-- The log is enabled on a file of this content, and appends go to its end. -/
structure Ready (w : Wal) (content : Bytes) : Prop where
  file : w.file = some content
  fd : w.fd = some content.length
  writePos : w.writePos = content.length
  isOpen : w.isOpen = true
  enabled : w.enabled = true

theorem Ready.content_eq {w : Wal} {content : Bytes} (ready : Ready w content) :
    w.content = content := by
  simp [Wal.content,ready.file]

theorem writeAt_end (content data : Bytes) :
    writeAt content content.length data = content ++ data := by
  simp [writeAt]

/-- `Init` closes whatever is open and seeks to the end of the file as it stands. -/
theorem init_ready (io : WalIo) (succeeds : io.Succeeds) (filepath : String)
    (policy : FsyncPolicy) (w : Wal) :
    ∃ w', init io filepath policy w = .ok () w' ∧ Ready w' w.content := by
  have opened := succeeds.openFile 0
  refine ⟨{ w with file := some w.content, fd := some w.content.length,
                   writePos := w.content.length, isOpen := true, enabled := true,
                   policy := policy, filepath := filepath },?_,⟨rfl,rfl,rfl,rfl,rfl⟩⟩
  cases isOpen : w.isOpen <;>
    simp [init,tryOpen,tryOpenFrom,maxRetries,opened,isOpen,sync,closeFD,content]

theorem append_ready (io : WalIo) (succeeds : io.Succeeds) (record : WalRecord) (w : Wal)
    (content : Bytes) (ready : Ready w content) :
    ∃ w', append io record w = .ok () w' ∧ Ready w' (content ++ record.serialize) := by
  have accepted := succeeds.write record.serialize.length
  refine ⟨{ w with file := some (content ++ record.serialize),
                   fd := some (content.length + record.serialize.length),
                   writePos := content.length + record.serialize.length },?_,?_⟩
  · simp only [append,writeRecord,Act.bind_apply,Act.get_apply,Act.ite_apply,ready.enabled,ready.fd,
      accepted,ready.content_eq,writeAt_end,Act.modify_apply]
    simp [ready.writePos,sync]
  · exact ⟨rfl,by simp,by simp,ready.isOpen,ready.enabled⟩

theorem readAll_open (w : Wal) (position : Nat) (opened : w.isOpen = true)
    (descriptor : w.fd = some position) :
    readAll w = .ok (logged w.content) { w with fd := some w.content.length } := by
  simp only [readAll,Act.bind_apply,Act.get_apply,Act.ite_apply,opened,descriptor,Act.set_apply]
  by_cases empty : w.content = []
  · rw [empty]
    rfl
  · simp [empty,parseRecords_logged]

theorem readAll_ready (w : Wal) (content : Bytes) (ready : Ready w content) :
    readAll w = .ok (logged content) w := by
  rw [readAll_open w _ ready.isOpen ready.fd,ready.content_eq,← ready.fd]

theorem clearWithoutLock_ready (io : WalIo) (succeeds : io.Succeeds) (w : Wal) (content : Bytes)
    (ready : Ready w content) :
    ∃ w', clearWithoutLock io w = .ok () w' ∧ Ready w' [] := by
  refine ⟨{ w with file := some [], fd := some 0, writePos := 0 },?_,?_⟩
  · simp [clearWithoutLock_apply,ready.enabled,succeeds.openTruncate]
  · exact ⟨rfl,rfl,rfl,ready.isOpen,ready.enabled⟩

end Wal

end KvCache
