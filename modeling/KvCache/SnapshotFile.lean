import KvCache.Crc32
import Mathlib.Tactic.IntervalCases

/-! The snapshot file: its entry codec, its reader and its writer. Lengths passed to the
entry decoder are `size_t` and wrap, so a header that overlaps the footer is read as the
code reads it; every byte read is checked against the content. -/
namespace KvCache

structure SnapshotEntry where
  key : Bytes
  value : Bytes
  deriving DecidableEq, Repr, Inhabited

namespace SnapshotEntry

def payload (e : SnapshotEntry) : Bytes :=
  le16 (BitVec.ofNat 16 e.key.length) ++ e.key ++
    le16 (BitVec.ofNat 16 e.value.length) ++ e.value

def serialize (e : SnapshotEntry) : Bytes := Crc.appendChecksum e.payload e.payload

def deserialize (data : Bytes) (len : Nat) : Except Fault (SnapshotEntry × Nat) := do
  if len < 4 then return (default,0)
  let keyLen := read16 (← byteAt data 0) (← byteAt data 1)
  let keyOffset := 2
  let minRequired := 2 + keyLen.toNat + 2 + 4
  if len < minRequired then return (default,0)
  let key ← slice data keyOffset keyLen.toNat
  let valLenOffset := keyOffset + keyLen.toNat
  let valLen := read16 (← byteAt data valLenOffset) (← byteAt data (valLenOffset + 1))
  let valOffset := valLenOffset + 2
  let totalLen := valOffset + valLen.toNat + 4
  if len < totalLen then return (default,0)
  let value ← slice data valOffset valLen.toNat
  let dataLen := valOffset + valLen.toNat
  if !(← Crc.verifyChecksum data dataLen) then return (default,0)
  return (⟨key,value⟩,totalLen)

def Small (e : SnapshotEntry) : Prop := e.key.length < 65536 ∧ e.value.length < 65536

instance (e : SnapshotEntry) : Decidable e.Small := inferInstanceAs (Decidable (_ ∧ _))

@[simp] theorem payload_length (e : SnapshotEntry) :
    e.payload.length = 4 + e.key.length + e.value.length := by
  simp [payload]; omega

@[simp] theorem serialize_length (e : SnapshotEntry) :
    e.serialize.length = 8 + e.key.length + e.value.length := by
  simp [serialize,Crc.appendChecksum]; omega

theorem deserialize_serialize (e : SnapshotEntry) (small : e.Small) (rest : Bytes) (len : Nat)
    (covers : e.serialize.length ≤ len) :
    deserialize (e.serialize ++ rest) len = .ok (e,e.serialize.length) := by
  obtain ⟨key,value⟩ := e
  let keyLen := BitVec.ofNat 16 key.length
  let valLen := BitVec.ofNat 16 value.length
  let crc := le32 (crc32 (payload ⟨key,value⟩))
  let data := serialize ⟨key,value⟩ ++ rest
  have keyNat : keyLen.toNat = key.length := ofNat16_toNat _ small.1
  have valNat : valLen.toNat = value.length := ofNat16_toNat _ small.2
  simp only [serialize_length] at covers
  have keyField : slice data 2 key.length = .ok key := by
    have shape : data = le16 keyLen ++ (key ++ (le16 valLen ++ value ++ crc ++ rest)) := by
      simp [data,serialize,Crc.appendChecksum,payload,keyLen,valLen,crc]
    rw [shape]
    exact (slice_append_right (le16 keyLen) _ 0 _).trans (slice_front key _)
  have lengths (i : Nat) : byteAt data (2 + key.length + i) =
      byteAt (le16 valLen ++ (value ++ crc ++ rest)) i := by
    have shape : data = (le16 keyLen ++ key) ++ (le16 valLen ++ (value ++ crc ++ rest)) := by
      simp [data,serialize,Crc.appendChecksum,payload,keyLen,valLen,crc]
    rw [shape,show 2 + key.length = (le16 keyLen ++ key).length by simp]
    exact byteAt_append_right _ _ i
  have valueField : slice data (2 + key.length + 2) value.length = .ok value := by
    have shape : data = (le16 keyLen ++ key ++ le16 valLen) ++ (value ++ (crc ++ rest)) := by
      simp [data,serialize,Crc.appendChecksum,payload,keyLen,valLen,crc]
    rw [shape,show 2 + key.length + 2 = (le16 keyLen ++ key ++ le16 valLen).length + 0 by simp; omega]
    exact (slice_append_right _ _ 0 _).trans (slice_front value _)
  have checked : Crc.verifyChecksum data (2 + key.length + 2 + value.length) = .ok true := by
    have shape : data = payload ⟨key,value⟩ ++ (crc ++ rest) := by
      simp [data,serialize,Crc.appendChecksum,crc]
    rw [shape,show 2 + key.length + 2 + value.length = (payload ⟨key,value⟩).length by simp; omega]
    exact Crc.verifyChecksum_append _ rest
  change deserialize data len = _
  unfold deserialize
  simp only [show byteAt data 0 = .ok (byteOf keyLen 0) from rfl,
    show byteAt data 1 = .ok (byteOf keyLen 1) from rfl,bind,Except.bind,pure,Except.pure,
    read16_byteOf,keyNat]
  rw [if_neg (by omega),if_neg (by omega)]
  simp only [keyField,show byteAt data (2 + key.length) = .ok (byteOf valLen 0) from lengths 0,
    show byteAt data (2 + key.length + 1) = .ok (byteOf valLen 1) from lengths 1,read16_byteOf,valNat]
  rw [if_neg (by omega)]
  simp only [valueField,checked,serialize_length,Bool.not_true,Bool.false_eq_true,if_false]
  congr 2
  omega

/-- What is decoded is nothing, or an entry with 16-bit lengths and its whole encoding. -/
theorem deserialize_ok (data : Bytes) (len consumed : Nat) (e : SnapshotEntry)
    (decoded : deserialize data len = .ok (e,consumed)) :
    e = default ∧ consumed = 0 ∨ e.Small ∧ consumed = e.serialize.length := by
  unfold deserialize at decoded
  split at decoded
  · cases decoded; exact .inl ⟨rfl,rfl⟩
  simp only [Fault.bind_ok_iff] at decoded
  obtain ⟨k0,_,k1,_,decoded⟩ := decoded
  split at decoded
  · cases decoded; exact .inl ⟨rfl,rfl⟩
  simp only [Fault.bind_ok_iff] at decoded
  obtain ⟨key,keyField,v0,_,v1,_,decoded⟩ := decoded
  split at decoded
  · cases decoded; exact .inl ⟨rfl,rfl⟩
  simp only [Fault.bind_ok_iff] at decoded
  obtain ⟨value,valueField,valid,_,decoded⟩ := decoded
  split at decoded
  · cases decoded; exact .inl ⟨rfl,rfl⟩
  cases decoded
  have keyLength := slice_length keyField
  have valueLength := slice_length valueField
  have keyBound := (read16 k0 k1).isLt
  have valBound := (read16 v0 v1).isLt
  refine .inr ⟨?_,?_⟩
  · simp only [Small]
    omega
  · rw [serialize_length,keyLength,valueLength]
    omega

theorem deserialize_small (data : Bytes) (len consumed : Nat) (e : SnapshotEntry)
    (decoded : deserialize data len = .ok (e,consumed)) : e.Small := by
  rcases deserialize_ok data len consumed e decoded with ⟨rfl,_⟩ | ⟨small,_⟩
  · decide
  · exact small

end SnapshotEntry

def sizeSub (a b : Nat) : Nat := (a + 2 ^ 64 - b) % 2 ^ 64

theorem sizeSub_of_le (a b : Nat) (le : b ≤ a) (fits : a < 2 ^ 64) : sizeSub a b = a - b := by
  unfold sizeSub
  omega

/-- The answers of the system calls of one `WriteSnapshot`: the `open` of the temporary
file, each `write` of the loop for the size it requests (`none` for -1), the `rename`. -/
structure SnapshotIo where
  openWrite : Bool
  write : Nat → Nat → Option Nat
  rename : Bool

/-- Writes may be short, as the loop allows; they are neither empty nor failures. -/
structure SnapshotIo.Succeeds (io : SnapshotIo) : Prop where
  openWrite : io.openWrite = true
  write : ∀ call count, 0 < count → ∃ n, io.write call count = some n ∧ 0 < n
  rename : io.rename = true

/-- `snapshot.dat` and `snapshot.dat.tmp` of the data directory, by their contents. -/
structure SnapshotFiles where
  dat : Option Bytes
  tmp : Option Bytes
  deriving DecidableEq, Repr

namespace Snapshot

def MAGIC : Bytes := ascii "KVSNP"
def VERSION : BitVec 32 := 1#32

/-- The content `WriteSnapshot` builds before its footer; the count is cast to `uint32_t`. -/
def body (entries : List SnapshotEntry) : Bytes :=
  MAGIC ++ le32 VERSION ++ le32 (BitVec.ofNat 32 entries.length) ++
    entries.flatMap SnapshotEntry.serialize

def content (entries : List SnapshotEntry) : Bytes :=
  Crc.appendChecksum (body entries) (body entries)

/-- The write loop: what has reached the file, and whether all of it has. -/
def writeLoop (write : Nat → Nat → Option Nat) : Nat → Nat → Bytes → Bytes → Bytes × Bool
  | 0, _, remaining, written => (written,remaining.isEmpty)
  | fuel + 1, call, remaining, written =>
    if remaining.isEmpty then (written,true)
    else
      match write call remaining.length with
      | some (n + 1) =>
        writeLoop write fuel (call + 1) (remaining.drop (n + 1)) (written ++ remaining.take (n + 1))
      | _ => (written,false)

/-- Write the temporary file, delete the old snapshot, rename. -/
def writeSnapshot (io : SnapshotIo) (entries : List SnapshotEntry) (files : SnapshotFiles) :
    Bool × SnapshotFiles :=
  if !io.openWrite then (false,files)
  else
    match writeLoop io.write (content entries).length 0 (content entries) [] with
    | (_,false) => (false,{ files with tmp := none })
    | (written,true) =>
      if !io.rename then (false,⟨none,some written⟩) else (true,⟨some written,none⟩)

def create (io : SnapshotIo) (entries : List SnapshotEntry) (files : SnapshotFiles) :
    Bool × SnapshotFiles := writeSnapshot io entries files

/-- The entry loop; `none` is the return value `false`. -/
def readEntries (content : Bytes) : Nat → Nat → Except Fault (Option (List SnapshotEntry))
  | 0, _ => .ok (some [])
  | count + 1, offset => do
    let (entry,consumed) ← SnapshotEntry.deserialize (content.drop offset)
      (sizeSub (sizeSub content.length offset) 4)
    if consumed = 0 then return none
    return (← readEntries content count (offset + consumed)).map (entry :: ·)

def readSnapshot (content : Bytes) : Except Fault (Option (List SnapshotEntry)) := do
  if content.length ≤ 13 then return none
  let dataLen := content.length - 4
  if !(← Crc.verifyChecksum content dataLen) then return none
  if (← slice content 0 5) ≠ MAGIC then return none
  let version := read32 (← byteAt content 5) (← byteAt content 6) (← byteAt content 7)
    (← byteAt content 8)
  if version ≠ VERSION then return none
  let entryCount := read32 (← byteAt content 9) (← byteAt content 10) (← byteAt content 11)
    (← byteAt content 12)
  readEntries content entryCount.toNat 13

/-- A missing file cannot be opened. -/
def load (file : Option Bytes) : Except Fault (Option (List SnapshotEntry)) :=
  match file with
  | none => .ok none
  | some content => readSnapshot content

def isValid (file : Option Bytes) : Except Fault Bool := do return (← load file).isSome

theorem writeLoop_succeeds (io : SnapshotIo) (succeeds : io.Succeeds) (fuel call : Nat)
    (remaining written : Bytes) (enough : remaining.length ≤ fuel) :
    writeLoop io.write fuel call remaining written = (written ++ remaining,true) := by
  induction fuel generalizing call remaining written with
  | zero =>
    have empty : remaining = [] := List.length_eq_zero_iff.mp (by omega)
    simp [writeLoop,empty]
  | succ fuel ih =>
    cases remaining with
    | nil => simp [writeLoop]
    | cons b rest =>
      obtain ⟨n,accepted,positive⟩ := succeeds.write call (b :: rest).length (by simp)
      obtain ⟨n,rfl⟩ := Nat.exists_eq_add_one_of_ne_zero (Nat.ne_of_gt positive)
      have shorter : ((b :: rest).drop (n + 1)).length ≤ fuel := by
        rw [List.length_drop]; omega
      simp only [writeLoop,accepted,ih _ _ _ shorter,List.append_assoc,List.take_append_drop]
      rfl

theorem writeSnapshot_succeeds (io : SnapshotIo) (succeeds : io.Succeeds)
    (entries : List SnapshotEntry) (files : SnapshotFiles) :
    writeSnapshot io entries files = (true,⟨some (content entries),none⟩) := by
  simp [writeSnapshot,succeeds.openWrite,succeeds.rename,
    writeLoop_succeeds io succeeds _ 0 (content entries) [] (Nat.le_refl _)]

theorem writeLoop_true (write : Nat → Nat → Option Nat) (fuel call : Nat)
    (remaining written out : Bytes) (ran : writeLoop write fuel call remaining written = (out,true)) :
    out = written ++ remaining := by
  induction fuel generalizing call remaining written with
  | zero =>
    obtain ⟨rfl,empty⟩ := Prod.mk.inj ran
    rw [List.isEmpty_iff.mp empty,List.append_nil]
  | succ fuel ih =>
    simp only [writeLoop] at ran
    split at ran
    next empty =>
      cases ran
      rw [List.isEmpty_iff.mp empty,List.append_nil]
    next =>
      split at ran
      · rw [ih _ _ _ ran,List.append_assoc,List.take_append_drop]
      · cases ran

theorem writeSnapshot_true (io : SnapshotIo) (entries : List SnapshotEntry)
    (files after : SnapshotFiles) (ran : writeSnapshot io entries files = (true,after)) :
    after = ⟨some (content entries),none⟩ := by
  unfold writeSnapshot at ran
  split at ran
  · cases ran
  split at ran
  · cases ran
  next written delivered =>
    have all := writeLoop_true _ _ _ _ _ _ delivered
    split at ran
    · cases ran
    · cases ran
      rw [all,List.nil_append]

theorem serialized_length_le (entries : List SnapshotEntry) (small : ∀ e ∈ entries, e.Small) :
    (entries.flatMap SnapshotEntry.serialize).length ≤ entries.length * 131078 := by
  induction entries with
  | nil => simp
  | cons e entries ih =>
    have rest := ih fun x member => small x (List.mem_cons_of_mem e member)
    have head := small e List.mem_cons_self
    simp only [SnapshotEntry.Small] at head
    simp only [List.flatMap_cons,List.length_append,SnapshotEntry.serialize_length,
      List.length_cons]
    omega

theorem readEntries_serialized (front footer : Bytes) (entries : List SnapshotEntry)
    (small : ∀ e ∈ entries, e.Small) (four : footer.length = 4)
    (fits : (front ++ (entries.flatMap SnapshotEntry.serialize ++ footer)).length < 2 ^ 64) :
    readEntries (front ++ (entries.flatMap SnapshotEntry.serialize ++ footer)) entries.length
      front.length = .ok (some entries) := by
  induction entries generalizing front with
  | nil => rfl
  | cons e entries ih =>
    have head := small e List.mem_cons_self
    have regroup : front ++ ((e :: entries).flatMap SnapshotEntry.serialize ++ footer) =
        (front ++ e.serialize) ++ (entries.flatMap SnapshotEntry.serialize ++ footer) := by simp
    have rest := ih (front ++ e.serialize)
      (fun x member => small x (List.mem_cons_of_mem e member)) (by rw [← regroup]; exact fits)
    have tail : (front ++ ((e :: entries).flatMap SnapshotEntry.serialize ++ footer)).drop
        front.length = e.serialize ++ (entries.flatMap SnapshotEntry.serialize ++ footer) := by
      simp
    have total : (front ++ ((e :: entries).flatMap SnapshotEntry.serialize ++ footer)).length =
        front.length + e.serialize.length +
          (entries.flatMap SnapshotEntry.serialize).length + 4 := by
      simp only [regroup,List.length_append,four]; omega
    rw [← regroup,List.length_append] at rest
    -- from here on only the length and the tail of the content matter
    generalize front ++ ((e :: entries).flatMap SnapshotEntry.serialize ++ footer) = content at *
    have available : sizeSub (sizeSub content.length front.length) 4 =
        content.length - front.length - 4 := by
      rw [sizeSub_of_le _ _ (by omega) fits,sizeSub_of_le _ _ (by omega) (by omega)]
    have decoded := SnapshotEntry.deserialize_serialize e head
      (entries.flatMap SnapshotEntry.serialize ++ footer) (content.length - front.length - 4)
      (by omega)
    rw [List.length_cons,readEntries,available,tail,decoded]
    simp only [bind,Except.bind,pure,Except.pure,rest]
    rw [if_neg (by simp)]
    simp

theorem header_fields (count : BitVec 32) (rest : Bytes) :
    slice (MAGIC ++ le32 VERSION ++ le32 count ++ rest) 0 5 = .ok MAGIC ∧
      (∀ i < 4, byteAt (MAGIC ++ le32 VERSION ++ le32 count ++ rest) (5 + i) = .ok (byteOf VERSION i)) ∧
      ∀ i < 4, byteAt (MAGIC ++ le32 VERSION ++ le32 count ++ rest) (9 + i) = .ok (byteOf count i) := by
  refine ⟨rfl,fun i small => ?_,fun i small => ?_⟩
  · interval_cases i <;> rfl
  · interval_cases i <;> rfl

/-- A snapshot of fewer than 2^32 small entries loads to exactly these entries. -/
theorem readSnapshot_content (entries : List SnapshotEntry) (small : ∀ e ∈ entries, e.Small)
    (count : entries.length < 2 ^ 32) : readSnapshot (content entries) = .ok (some entries) := by
  let footer := le32 (crc32 (body entries))
  let front := MAGIC ++ le32 VERSION ++ le32 (BitVec.ofNat 32 entries.length)
  let written := entries.flatMap SnapshotEntry.serialize
  have shape : content entries = front ++ (written ++ footer) := by
    simp [content,Crc.appendChecksum,body,front,footer,written]
  have size := serialized_length_le entries small
  have header : front.length = 13 := rfl
  have total : (content entries).length = 13 + written.length + 4 := by
    rw [shape]; simp [header,footer]; omega
  have checked : Crc.verifyChecksum (content entries) ((content entries).length - 4) = .ok true := by
    have bodyLength : (content entries).length - 4 = (body entries).length := by
      simp [content,Crc.appendChecksum]
    have valid := Crc.verifyChecksum_append (body entries) []
    rw [List.append_nil] at valid
    rw [bodyLength]
    exact valid
  obtain ⟨magic,version,counter⟩ :=
    header_fields (BitVec.ofNat 32 entries.length) (written ++ footer)
  have loop := readEntries_serialized front footer entries small (le32_length _)
    (by rw [← shape,total]; simp only [written]; omega)
  rw [← shape,header] at loop
  have counted : (BitVec.ofNat 32 entries.length).toNat = entries.length := by
    simp only [BitVec.toNat_ofNat]
    exact Nat.mod_eq_of_lt count
  rw [← shape] at magic version counter
  unfold readSnapshot
  rw [if_neg (by omega)]
  simp only [checked,magic,version 0 (by decide),version 1 (by decide),version 2 (by decide),
    version 3 (by decide),counter 0 (by decide),counter 1 (by decide),counter 2 (by decide),
    counter 3 (by decide),bind,Except.bind,pure,Except.pure,read32_byteOf]
  simp [counted,loop]

theorem readEntries_length (content : Bytes) (count offset : Nat) (entries : List SnapshotEntry)
    (loaded : readEntries content count offset = .ok (some entries)) : entries.length = count := by
  induction count generalizing offset entries with
  | zero => cases loaded; rfl
  | succ count ih =>
    simp only [readEntries,Fault.bind_ok_iff,Prod.exists] at loaded
    obtain ⟨entry,consumed,_,loaded⟩ := loaded
    split at loaded
    · cases loaded
    simp only [Fault.bind_ok_iff] at loaded
    obtain ⟨rest,run,loaded⟩ := loaded
    cases rest with
    | none => cases loaded
    | some rest =>
      cases loaded
      rw [List.length_cons,ih _ _ run]

theorem readEntries_small (content : Bytes) (count offset : Nat) (entries : List SnapshotEntry)
    (loaded : readEntries content count offset = .ok (some entries)) : ∀ e ∈ entries, e.Small := by
  induction count generalizing offset entries with
  | zero => cases loaded; simp
  | succ count ih =>
    simp only [readEntries,Fault.bind_ok_iff,Prod.exists] at loaded
    obtain ⟨entry,consumed,decoded,loaded⟩ := loaded
    split at loaded
    · cases loaded
    simp only [Fault.bind_ok_iff] at loaded
    obtain ⟨rest,run,loaded⟩ := loaded
    cases rest with
    | none => cases loaded
    | some rest =>
      cases loaded
      intro e member
      rcases List.mem_cons.mp member with rfl | member
      · exact SnapshotEntry.deserialize_small _ _ _ _ decoded
      · exact ih _ _ run e member

/-- Whatever the file is, what loads is a counted list of small entries. -/
theorem load_bounds (file : Option Bytes) (entries : List SnapshotEntry)
    (loaded : load file = .ok (some entries)) :
    entries.length < 2 ^ 32 ∧ ∀ e ∈ entries, e.Small := by
  cases file with
  | none => cases loaded
  | some content =>
    simp only [load,readSnapshot] at loaded
    split at loaded
    · cases loaded
    simp only [Fault.bind_ok_iff] at loaded
    obtain ⟨_,_,loaded⟩ := loaded
    split at loaded
    · cases loaded
    simp only [Fault.bind_ok_iff] at loaded
    obtain ⟨_,_,loaded⟩ := loaded
    split at loaded
    · cases loaded
    simp only [Fault.bind_ok_iff] at loaded
    obtain ⟨_,_,_,_,_,_,_,_,loaded⟩ := loaded
    split at loaded
    · cases loaded
    simp only [Fault.bind_ok_iff] at loaded
    obtain ⟨c0,_,c1,_,c2,_,c3,_,loaded⟩ := loaded
    refine ⟨?_,readEntries_small _ _ _ _ loaded⟩
    rw [readEntries_length _ _ _ _ loaded]
    exact (read32 c0 c1 c2 c3).isLt

end Snapshot

end KvCache
