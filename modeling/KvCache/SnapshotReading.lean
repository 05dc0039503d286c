import KvCache.SnapshotFile

/-! Reading a snapshot file, whatever its bytes are. The header and the footer bound the
entry loop from both sides; the minimum size of a file is tested four bytes short of both. -/
namespace KvCache

namespace SnapshotEntry

theorem deserialize_inside (data : Bytes) (len : Nat) (inside : len ≤ data.length) :
    ∃ e consumed, deserialize data len = .ok (e,consumed) ∧ consumed ≤ len := by
  have nothing : ∃ e consumed, (.ok (default,0) : Except Fault (SnapshotEntry × Nat)) = .ok (e,consumed) ∧
      consumed ≤ len := ⟨default,0,rfl,Nat.zero_le len⟩
  unfold deserialize
  split
  · exact nothing
  obtain ⟨k0,key0⟩ := byteAt_inside data 0 (by omega)
  obtain ⟨k1,key1⟩ := byteAt_inside data 1 (by omega)
  simp only [key0,key1,bind,Except.bind,pure,Except.pure]
  split
  · exact nothing
  obtain ⟨key,keyField⟩ := slice_inside data 2 (read16 k0 k1).toNat (by omega)
  obtain ⟨v0,val0⟩ := byteAt_inside data (2 + (read16 k0 k1).toNat) (by omega)
  obtain ⟨v1,val1⟩ := byteAt_inside data (2 + (read16 k0 k1).toNat + 1) (by omega)
  simp only [keyField,val0,val1]
  split
  · exact nothing
  obtain ⟨value,valueField⟩ :=
    slice_inside data (2 + (read16 k0 k1).toNat + 2) (read16 v0 v1).toNat (by omega)
  obtain ⟨x,_,checked⟩ := Crc.verifyChecksum_inside data
    (2 + (read16 k0 k1).toNat + 2 + (read16 v0 v1).toNat) (by omega)
  simp only [valueField,checked]
  split
  · exact nothing
  · exact ⟨_,_,rfl,by omega⟩

theorem deserialize_returned (data more : Bytes) (len : Nat) :
    Returned (deserialize data len) (deserialize (data ++ more) len) := by
  refine .ite _ (.refl _) (.bind (.byteAt data more 0) fun _ => .bind (.byteAt data more 1) fun _ => ?_)
  refine .ite _ (.refl _) (.bind (.slice data more _ _) fun _ => ?_)
  refine .bind (.byteAt data more _) fun _ => .bind (.byteAt data more _) fun _ => ?_
  refine .ite _ (.refl _) (.bind (.slice data more _ _) fun _ => ?_)
  exact .bind (Crc.verifyChecksum_returned data more _) fun _ => .refl _

end SnapshotEntry

namespace Snapshot

/-- `ReadSnapshot` up to its entry loop: the entry count, or `none` where it has returned
`false`. -/
def readHeader (content : Bytes) : Except Fault (Option (BitVec 32)) := do
  if content.length ≤ 13 then return none
  let dataLen := content.length - 4
  if !(← Crc.verifyChecksum content dataLen) then return none
  if (← slice content 0 5) ≠ MAGIC then return none
  let version := read32 (← byteAt content 5) (← byteAt content 6) (← byteAt content 7)
    (← byteAt content 8)
  if version ≠ VERSION then return none
  let entryCount := read32 (← byteAt content 9) (← byteAt content 10) (← byteAt content 11)
    (← byteAt content 12)
  return some entryCount

theorem readHeader_cases (content : Bytes) :
    (readHeader content = .ok none ∧ readSnapshot content = .ok none) ∨
    ∃ count, readHeader content = .ok (some count) ∧
      readSnapshot content = readEntries content count.toNat 13 ∧ 13 < content.length ∧
      (∃ rest, content = MAGIC ++ le32 VERSION ++ le32 count ++ rest) ∧
      content = content.take (content.length - 4) ++
        le32 (crc32 (content.take (content.length - 4))) := by
  unfold readHeader readSnapshot
  by_cases small : content.length ≤ 13
  · left
    rw [if_pos small,if_pos small]
    exact ⟨rfl,rfl⟩
  rw [if_neg small,if_neg small]
  obtain ⟨x,footer,checked⟩ := Crc.verifyChecksum_inside content (content.length - 4) (by omega)
  simp only [checked,bind,Except.bind,pure,Except.pure]
  by_cases valid : x = crc32 (content.take (content.length - 4))
  case neg =>
    left
    simp [valid]
  have magicField : slice content 0 5 = .ok (content.take 5) :=
    (slice_ok_iff ..).mpr ⟨by omega,rfl⟩
  obtain ⟨version,versionBytes,v0,v1,v2,v3⟩ := le32_at content 5 (by omega)
  obtain ⟨count,countBytes,c0,c1,c2,c3⟩ := le32_at content 9 (by omega)
  simp only [magicField,v0,v1,v2,v3,c0,c1,c2,c3,read32_byteOf,valid,beq_self_eq_true]
  by_cases magic : content.take 5 = MAGIC
  case neg =>
    left
    simp [magic]
  by_cases same : version = VERSION
  case neg =>
    left
    simp [magic,same]
  subst same
  right
  refine ⟨count,by simp [magic],by simp [magic],by omega,⟨content.drop 13,?_⟩,?_⟩
  · rw [List.append_assoc,List.append_assoc,← countBytes,← versionBytes,← magic,List.take_append_drop]
  · have ends : content.drop (content.length - 4 + 4) = [] := List.drop_eq_nil_of_le (by omega)
    rwa [ends,List.append_nil,valid] at footer

theorem readHeader_short (content : Bytes) (count : BitVec 32)
    (passed : readHeader content = .ok (some count)) (short : content.length < 17) : count ≠ 0#32 := by
  rintro rfl
  let header := MAGIC ++ le32 VERSION ++ le32 0#32
  have closed : ∀ k < 13, 10 ≤ k → header[k]? ≠ some (byteOf (crc32 (header.take k)) 0) := by
    decide +kernel
  rcases readHeader_cases content with ⟨rejected,_⟩ | ⟨count,same,_,long,⟨rest,shape⟩,footer⟩
  · cases rejected.symm.trans passed
  cases same.symm.trans passed
  obtain ⟨k,cut⟩ : ∃ k, content.length - 4 = k := ⟨_,rfl⟩
  rw [cut] at footer
  have inside : k < header.length := by simp [header,MAGIC,ascii]; omega
  have front : content.take k = header.take k := by
    rw [shape]
    exact List.take_append_of_le_length (Nat.le_of_lt inside)
  refine closed k (by omega) (by omega) ?_
  have fromHeader : content[k]? = header[k]? := by
    rw [shape]
    exact List.getElem?_append_left inside
  have size : (content.take k).length = k := by rw [List.length_take]; omega
  rw [← fromHeader,← front]
  conv => lhs; rw [footer]
  rw [List.getElem?_append_right (by omega),size,Nat.sub_self]
  rfl

def entryLength (content : Bytes) (offset : Nat) : Nat := sizeSub (sizeSub content.length offset) 4

def consumedAt (content : Bytes) (offset : Nat) : Nat :=
  ((SnapshotEntry.deserialize (content.drop offset) (entryLength content offset)).toOption.map
    Prod.snd).getD 0

def entryLoop (content : Bytes) : Nat → Nat → List Nat × Nat
  | 0, offset => ([],offset)
  | count + 1, offset =>
    if consumedAt content offset = 0 then ([offset],offset)
    else (entryLoop content count (offset + consumedAt content offset)).map (offset :: ·) id

theorem entryLength_le (content : Bytes) (offset : Nat) (room : offset + 4 ≤ content.length) :
    entryLength content offset ≤ content.length - 4 - offset := by
  unfold entryLength sizeSub
  omega

theorem deserialize_before_footer (content : Bytes) (offset : Nat)
    (room : offset + 4 ≤ content.length) :
    ∃ e consumed, SnapshotEntry.deserialize ((content.take (content.length - 4)).drop offset)
        (entryLength content offset) = .ok (e,consumed) ∧
      SnapshotEntry.deserialize (content.drop offset) (entryLength content offset) = .ok (e,consumed) ∧
      offset + consumed + 4 ≤ content.length := by
  have bound := entryLength_le content offset room
  have size : ((content.take (content.length - 4)).drop offset).length = content.length - 4 - offset := by
    rw [List.length_drop,List.length_take]; omega
  obtain ⟨e,consumed,decoded,used⟩ :=
    SnapshotEntry.deserialize_inside ((content.take (content.length - 4)).drop offset)
      (entryLength content offset) (by omega)
  have whole : content.drop offset =
      (content.take (content.length - 4)).drop offset ++ content.drop (content.length - 4) := by
    conv => lhs; rw [← List.take_append_drop (content.length - 4) content]
    rw [List.drop_append_of_le_length (by rw [List.length_take]; omega)]
  refine ⟨e,consumed,decoded,?_,by omega⟩
  rw [whole]
  exact SnapshotEntry.deserialize_returned _ _ _ _ decoded

theorem entryLoop_inside (content : Bytes) (count offset : Nat) (room : offset + 4 ≤ content.length) :
    (∀ o ∈ (entryLoop content count offset).1, o + 4 ≤ content.length) ∧
      (entryLoop content count offset).2 + 4 ≤ content.length ∧
      ∃ loaded, readEntries content count offset = .ok loaded := by
  induction count generalizing offset with
  | zero => exact ⟨by simp [entryLoop],room,_,rfl⟩
  | succ count ih =>
    obtain ⟨e,consumed,_,decoded,next⟩ := deserialize_before_footer content offset room
    obtain ⟨calls,ends,loaded,rest⟩ := ih (offset + consumed) next
    have used : consumedAt content offset = consumed := by
      rw [consumedAt,decoded]
      rfl
    rw [entryLoop,readEntries,← entryLength,decoded,used]
    by_cases stopped : consumed = 0
    · simp [stopped,room,bind,Except.bind,pure,Except.pure]
    · simp only [stopped,if_false,bind,Except.bind,pure,Except.pure,rest]
      refine ⟨?_,ends,_,rfl⟩
      intro o member
      rcases List.mem_cons.mp member with rfl | later
      · exact room
      · exact calls o later

/-- What is asked of the reader on a file: no read faults, each length passed for an entry
is a subtraction without underflow, and the entries are read in front of the footer. -/
structure LoadsInBounds (content : Bytes) : Prop where
  loads : ∃ loaded, readSnapshot content = .ok loaded
  room : ∀ count, readHeader content = .ok (some count) →
    ∀ offset ∈ (entryLoop content count.toNat 13).1, offset + 4 ≤ content.length
  region : ∀ count, readHeader content = .ok (some count) →
    ∀ offset ∈ (entryLoop content count.toNat 13).1, ∃ decoded,
      SnapshotEntry.deserialize ((content.take (content.length - 4)).drop offset)
        (entryLength content offset) = .ok decoded
  ends : ∀ count, readHeader content = .ok (some count) →
    (entryLoop content count.toNat 13).2 + 4 ≤ content.length

/-- Loading stays in bounds exactly on files that hold a header and a footer apart, or do
not get past the header. -/
theorem loads_in_bounds_iff (content : Bytes) :
    LoadsInBounds content ↔ (content.length < 17 → readHeader content = .ok none) := by
  constructor
  · intro bounds short
    rcases readHeader_cases content with ⟨rejected,_⟩ | ⟨count,passed,_⟩
    · exact rejected
    -- the first entry is decoded at 13, where a short file has no room for the footer
    have positive : count.toNat ≠ 0 := fun zero =>
      readHeader_short content count passed short (BitVec.eq_of_toNat_eq zero)
    obtain ⟨more,some⟩ := Nat.exists_eq_add_one_of_ne_zero positive
    have first : 13 ∈ (entryLoop content count.toNat 13).1 := by
      rw [some,entryLoop]
      split <;> simp
    have := bounds.room count passed 13 first
    omega
  · intro holds
    rcases readHeader_cases content with ⟨rejected,nothing⟩ | ⟨count,passed,loop,_⟩
    · have never (count : BitVec 32) : ¬readHeader content = .ok (some count) := by
        rw [rejected]; simp
      exact ⟨⟨_,nothing⟩,fun _ passed => absurd passed (never _),fun _ passed => absurd passed (never _),
        fun _ passed => absurd passed (never _)⟩
    have long : 17 ≤ content.length := by
      by_contra short
      cases passed.symm.trans (holds (by omega))
    obtain ⟨calls,ends,loaded,entries⟩ := entryLoop_inside content count.toNat 13 (by omega)
    refine ⟨⟨loaded,loop.trans entries⟩,?_,?_,?_⟩
    · intro other same
      cases passed.symm.trans same
      exact calls
    · intro other same offset member
      cases passed.symm.trans same
      obtain ⟨e,consumed,decoded,_⟩ := deserialize_before_footer content offset (calls offset member)
      exact ⟨_,decoded⟩
    · intro other same
      cases passed.symm.trans same
      exact ends

def cutHeader : Bytes := MAGIC ++ le32 VERSION ++ [126#8,0#8,0#8]

def overlapped : Bytes := cutHeader ++ le32 (crc32 cutHeader)

/-- The file of 16 bytes passes the checks in front of the entry loop, whose first length
is a wrapped difference, and the decoder reads behind the file. -/
theorem overlapped_reads_behind :
    ¬LoadsInBounds overlapped ∧ overlapped.length = 16 ∧
      readHeader overlapped = .ok (some 126#32) ∧ entryLength overlapped 13 = 2 ^ 64 - 1 ∧
      readSnapshot overlapped = .error .outOfBounds := by
  have evaluated : overlapped.length = 16 ∧ readHeader overlapped = .ok (some 126#32) ∧
      entryLength overlapped 13 = 2 ^ 64 - 1 ∧ readSnapshot overlapped = .error .outOfBounds := by
    decide +kernel
  refine ⟨fun bounds => ?_,evaluated⟩
  obtain ⟨loaded,returned⟩ := bounds.loads
  rw [evaluated.2.2.2] at returned
  cases returned

theorem entryLoop_end (content : Bytes) (count offset : Nat) (entries : List SnapshotEntry)
    (loaded : readEntries content count offset = .ok (some entries)) :
    (entryLoop content count offset).2 =
      offset + (entries.flatMap SnapshotEntry.serialize).length := by
  induction count generalizing offset entries with
  | zero => cases loaded; rfl
  | succ count ih =>
    simp only [readEntries,Fault.bind_ok_iff,Prod.exists] at loaded
    obtain ⟨entry,consumed,decoded,loaded⟩ := loaded
    have used : consumedAt content offset = consumed := by
      rw [consumedAt,entryLength,decoded]
      rfl
    split at loaded
    · cases loaded
    next moved =>
    simp only [Fault.bind_ok_iff] at loaded
    obtain ⟨rest,run,loaded⟩ := loaded
    cases rest with
    | none => cases loaded
    | some rest =>
      cases loaded
      rcases SnapshotEntry.deserialize_ok _ _ _ _ decoded with ⟨_,nothing⟩ | ⟨_,whole⟩
      · exact absurd nothing moved
      rw [entryLoop,used,if_neg moved]
      change (entryLoop content count (offset + consumed)).2 = _
      rw [ih _ _ run,List.flatMap_cons,List.length_append,whole]
      omega

/-- Round trip. The content that `WriteSnapshot` builds loads to the entries it was
given, in their order, and the entry loop ends at the footer. A successful `WriteSnapshot`
leaves that content, however the writes were cut. -/
theorem snapshot_round_trip (entries : List SnapshotEntry) (small : ∀ e ∈ entries, e.Small)
    (count : entries.length < 2 ^ 32) :
    readSnapshot (content entries) = .ok (some entries) ∧
      (∃ n, readHeader (content entries) = .ok (some n) ∧
        (entryLoop (content entries) n.toNat 13).2 = (content entries).length - 4) ∧
      ∀ io files after, writeSnapshot io entries files = (true,after) →
        after.dat = some (content entries) := by
  have loaded := readSnapshot_content entries small count
  refine ⟨loaded,?_,fun io files after produced => ?_⟩
  · rcases readHeader_cases (content entries) with ⟨_,nothing⟩ | ⟨n,passed,loop,_⟩
    · cases nothing.symm.trans loaded
    refine ⟨n,passed,?_⟩
    rw [entryLoop_end _ _ _ entries (loop.symm.trans loaded)]
    simp [content,Crc.appendChecksum,body,MAGIC,ascii]
    omega
  · rw [writeSnapshot_true io entries files after produced]

theorem snapshot_round_trip_three :
    readSnapshot (content [⟨ascii "k",ascii "1"⟩,⟨ascii "k",ascii "2"⟩,⟨[],[]⟩]) =
        .ok (some [⟨ascii "k",ascii "1"⟩,⟨ascii "k",ascii "2"⟩,⟨[],[]⟩]) ∧
      (writeSnapshot ⟨true,fun _ _ => some 5,true⟩
          [⟨ascii "k",ascii "1"⟩,⟨ascii "k",ascii "2"⟩,⟨[],[]⟩] ⟨none,none⟩).1 = true :=
  ⟨(snapshot_round_trip _ (by decide) (by decide)).1,by decide +kernel⟩

/-- Corruption is seen. A change within four bytes in a row, anywhere in the file of a
successful `WriteSnapshot`, makes `ReadSnapshot` return `false`. -/
theorem corrupted_snapshot_rejected (io : SnapshotIo) (entries : List SnapshotEntry)
    (files after : SnapshotFiles) (produced : writeSnapshot io entries files = (true,after))
    (written modified : Bytes) (file : after.dat = some written) (start : Nat)
    (burst : CyclicCode.Burst written modified start 4) : readSnapshot modified = .ok none := by
  rw [writeSnapshot_true io entries files after produced] at file
  cases file
  rcases readHeader_cases modified with ⟨_,rejected⟩ | ⟨_,_,_,_,_,footer⟩
  · exact rejected
  -- both files take the register to the residue, which a burst does not allow
  have original := (crc32_eq_iff (body entries) _).mp rfl
  have accepted := (crc32_eq_iff (modified.take (modified.length - 4)) _).mp rfl
  rw [← footer] at accepted
  have differ := CyclicCode.foldl_absorb_burst kCRC32Polynomial polynomial_top burst (by omega)
    0xFFFFFFFF#32
  exact absurd (accepted.trans original.symm) differ

theorem corrupted_snapshot_rejected_one :
    readSnapshot ((content [⟨ascii "k",ascii "1"⟩]).set 22 0#8) = .ok none :=
  corrupted_snapshot_rejected ⟨true,fun _ count => some count,true⟩ [⟨ascii "k",ascii "1"⟩]
    ⟨none,none⟩ ⟨some (content [⟨ascii "k",ascii "1"⟩]),none⟩ (by decide +kernel) _ _ rfl 21
    ⟨List.length_set,fun i apart => List.getElem?_set_ne (by omega),by decide +kernel⟩

end Snapshot

end KvCache
