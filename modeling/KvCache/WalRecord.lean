import KvCache.Crc32
import KvCache.Framing

/-! The WAL record codec. Decoding is characterised exactly: a record is returned when,
and only when, the encoding of a record with 16-bit lengths stands in front of the bytes. -/
namespace KvCache

/-- `enum class OpType : uint8_t`. Every byte is a value of the enumeration; only two
are named, and a decoded record may carry any of them. -/
structure OpType where
  code : Byte
  deriving DecidableEq, Repr, Inhabited

def OpType.SET : OpType := ⟨1#8⟩
def OpType.DEL : OpType := ⟨2#8⟩

structure WalRecord where
  op : OpType
  key : Bytes
  value : Bytes
  deriving DecidableEq, Repr, Inhabited

namespace WalRecord

/-- The bytes covered by the checksum: op, key length, key, value length, value. The
lengths are cast to `uint16_t`, the key and the value are appended whole. -/
def payload (r : WalRecord) : Bytes :=
  [r.op.code] ++ le16 (BitVec.ofNat 16 r.key.length) ++ r.key ++
    le16 (BitVec.ofNat 16 r.value.length) ++ r.value

def serialize (r : WalRecord) : Bytes := Crc.appendChecksum [] r.payload ++ r.payload

/-- The record and the number of bytes consumed; `consumed = 0` with the
value-initialised record when no record is found. -/
def deserialize (data : Bytes) (len : Nat) : Except Fault (WalRecord × Nat) := do
  if len < 9 then return (default,0)
  let storedCrc ← Crc.readChecksum data
  let op ← byteAt data 4
  let keyLen := read16 (← byteAt data 5) (← byteAt data 6)
  let minRequired := 4 + 1 + 2 + keyLen.toNat + 2
  if len < minRequired then return (default,0)
  let key ← slice data 7 keyLen.toNat
  let valLenOffset := 7 + keyLen.toNat
  let valLen := read16 (← byteAt data valLenOffset) (← byteAt data (valLenOffset + 1))
  let totalLen := valLenOffset + 2 + valLen.toNat
  if len < totalLen then return (default,0)
  let value ← slice data (valLenOffset + 2) valLen.toNat
  let dataForCrc := [op] ++ le16 keyLen ++ key ++ le16 valLen ++ value
  if storedCrc ≠ crc32 dataForCrc then return (default,0)
  return (⟨⟨op⟩,key,value⟩,totalLen)

/-- Key and value lengths that the 16-bit fields can carry. -/
def Small (r : WalRecord) : Prop := r.key.length < 65536 ∧ r.value.length < 65536

instance (r : WalRecord) : Decidable r.Small := inferInstanceAs (Decidable (_ ∧ _))

theorem serialize_eq (r : WalRecord) :
    r.serialize = le32 (crc32 r.payload) ++ r.payload := by
  simp [serialize,Crc.appendChecksum]

@[simp] theorem payload_length (r : WalRecord) :
    r.payload.length = 5 + r.key.length + r.value.length := by
  simp [payload]; omega

@[simp] theorem serialize_length (r : WalRecord) :
    r.serialize.length = 9 + r.key.length + r.value.length := by
  simp [serialize_eq]; omega

theorem deserialize_afterKey (b0 b1 b2 b3 op k0 k1 v0 v1 : Byte) (key tail : Bytes)
    (keyLen : key.length = (read16 k0 k1).toNat) :
    let data := b0 :: b1 :: b2 :: b3 :: op :: k0 :: k1 :: (key ++ v0 :: v1 :: tail)
    deserialize data data.length =
      if tail.length < (read16 v0 v1).toNat then .ok (default,0)
      else
        let value := tail.take (read16 v0 v1).toNat
        if read32 b0 b1 b2 b3 ≠
          crc32 ([op] ++ le16 (read16 k0 k1) ++ key ++ le16 (read16 v0 v1) ++ value)
        then .ok (default,0)
        else .ok (⟨⟨op⟩,key,value⟩,7 + key.length + 2 + (read16 v0 v1).toNat) := by
  intro data
  let header := [b0,b1,b2,b3,op,k0,k1]
  have total : data.length = 7 + key.length + 2 + tail.length := by
    simp [data]; omega
  have keyField : slice data 7 key.length = .ok key :=
    (slice_append_right header _ 0 _).trans (slice_front key _)
  have afterKey (i : Nat) : byteAt data (7 + key.length + i) = byteAt (v0 :: v1 :: tail) i := by
    have shifted := byteAt_append_right (header ++ key) (v0 :: v1 :: tail) i
    have offset : (header ++ key).length = 7 + key.length := by simp [header]; omega
    rw [offset,List.append_assoc] at shifted
    exact shifted
  have valueField (n : Nat) : slice data (7 + key.length + 2) n = slice tail 0 n := by
    have shifted := slice_append_right (header ++ key ++ [v0,v1]) tail 0 n
    have offset : (header ++ key ++ [v0,v1]).length + 0 = 7 + key.length + 2 := by
      simp [header]; omega
    rw [offset] at shifted
    simpa [header] using shifted
  unfold deserialize
  simp only [show Crc.readChecksum data = .ok (read32 b0 b1 b2 b3) from rfl,
    show byteAt data 4 = .ok op from rfl,show byteAt data 5 = .ok k0 from rfl,
    show byteAt data 6 = .ok k1 from rfl,bind,Except.bind,pure,Except.pure]
  rw [if_neg (by omega),← keyLen,if_neg (by omega)]
  simp only [keyField,show byteAt data (7 + key.length) = .ok v0 from afterKey 0,
    show byteAt data (7 + key.length + 1) = .ok v1 from afterKey 1,valueField,total]
  by_cases few : tail.length < (read16 v0 v1).toNat
  · rw [if_pos few,if_pos (by omega)]
  · rw [if_neg few,if_neg (by omega)]
    simp [slice,Nat.not_lt.mp few]

theorem deserialize_fields (b0 b1 b2 b3 op k0 k1 v0 v1 : Byte) (key value rest : Bytes)
    (keyLen : key.length = (read16 k0 k1).toNat) (valLen : value.length = (read16 v0 v1).toNat) :
    let r : WalRecord := ⟨⟨op⟩,key,value⟩
    let data := b0 :: b1 :: b2 :: b3 :: op :: k0 :: k1 :: (key ++ v0 :: v1 :: (value ++ rest))
    deserialize data data.length =
      if read32 b0 b1 b2 b3 = crc32 r.payload then .ok (r,r.serialize.length) else .ok (default,0) := by
  intro r data
  have covered : r.payload = [op] ++ le16 (read16 k0 k1) ++ key ++ le16 (read16 v0 v1) ++ value := by
    simp [r,payload,keyLen,valLen]
  have consumed : r.serialize.length = 7 + key.length + 2 + value.length := by
    simp [r]; omega
  rw [deserialize_afterKey b0 b1 b2 b3 op k0 k1 v0 v1 key (value ++ rest) keyLen,← valLen,covered,
    consumed,if_neg (by simp),List.take_left]
  by_cases same : read32 b0 b1 b2 b3 =
      crc32 ([op] ++ le16 (read16 k0 k1) ++ key ++ le16 (read16 v0 v1) ++ value)
  · rw [if_pos same,if_neg (not_not.mpr same)]
  · rw [if_neg same,if_pos same]

/-- The bytes in front of the decoder: too short for one of the three length tests, or
holding all fields. -/
inductive Layout : Bytes → Prop where
  | short (data : Bytes) (few : data.length < 9) : Layout data
  | noKey (b0 b1 b2 b3 op k0 k1 : Byte) (tail : Bytes)
      (few : tail.length < (read16 k0 k1).toNat + 2) :
      Layout (b0 :: b1 :: b2 :: b3 :: op :: k0 :: k1 :: tail)
  | noValue (b0 b1 b2 b3 op k0 k1 v0 v1 : Byte) (key tail : Bytes)
      (keyLen : key.length = (read16 k0 k1).toNat) (few : tail.length < (read16 v0 v1).toNat) :
      Layout (b0 :: b1 :: b2 :: b3 :: op :: k0 :: k1 :: (key ++ v0 :: v1 :: tail))
  | full (b0 b1 b2 b3 op k0 k1 v0 v1 : Byte) (key value rest : Bytes)
      (keyLen : key.length = (read16 k0 k1).toNat) (valLen : value.length = (read16 v0 v1).toNat) :
      Layout (b0 :: b1 :: b2 :: b3 :: op :: k0 :: k1 :: (key ++ v0 :: v1 :: (value ++ rest)))

theorem layout (data : Bytes) : Layout data := by
  by_cases few : data.length < 9
  · exact .short data few
  rcases data with _ | ⟨b0,_ | ⟨b1,_ | ⟨b2,_ | ⟨b3,_ | ⟨op,_ | ⟨k0,_ | ⟨k1,tail⟩⟩⟩⟩⟩⟩⟩
  case cons.cons.cons.cons.cons.cons.cons =>
    by_cases noKey : tail.length < (read16 k0 k1).toNat + 2
    · exact .noKey b0 b1 b2 b3 op k0 k1 tail noKey
    have room : 2 ≤ (tail.drop (read16 k0 k1).toNat).length := by
      rw [List.length_drop]; omega
    rw [← List.take_append_drop (read16 k0 k1).toNat tail]
    have keyLen : (tail.take (read16 k0 k1).toNat).length = (read16 k0 k1).toNat := by
      rw [List.length_take]; omega
    match tail.drop (read16 k0 k1).toNat, room with
    | v0 :: v1 :: after, _ =>
      by_cases noValue : after.length < (read16 v0 v1).toNat
      · exact .noValue b0 b1 b2 b3 op k0 k1 v0 v1 _ after keyLen noValue
      rw [← List.take_append_drop (read16 v0 v1).toNat after]
      exact .full b0 b1 b2 b3 op k0 k1 v0 v1 _ _ _ keyLen (by rw [List.length_take]; omega)
  all_goals exact absurd (by simp) few

theorem deserialize_short (data : Bytes) (few : data.length < 9) :
    deserialize data data.length = .ok (default,0) := by
  simp [deserialize,few,pure,Except.pure]

theorem deserialize_noKey (b0 b1 b2 b3 op k0 k1 : Byte) (tail : Bytes)
    (few : tail.length < (read16 k0 k1).toNat + 2) :
    let data := b0 :: b1 :: b2 :: b3 :: op :: k0 :: k1 :: tail
    deserialize data data.length = .ok (default,0) := by
  intro data
  have total : data.length = 7 + tail.length := by simp [data]; omega
  unfold deserialize
  split
  · rfl
  simp only [show Crc.readChecksum data = .ok (read32 b0 b1 b2 b3) from rfl,
    show byteAt data 4 = .ok op from rfl,show byteAt data 5 = .ok k0 from rfl,
    show byteAt data 6 = .ok k1 from rfl,bind,Except.bind,pure,Except.pure]
  rw [if_pos (by omega)]

theorem deserialize_noValue (b0 b1 b2 b3 op k0 k1 v0 v1 : Byte) (key tail : Bytes)
    (keyLen : key.length = (read16 k0 k1).toNat) (few : tail.length < (read16 v0 v1).toNat) :
    let data := b0 :: b1 :: b2 :: b3 :: op :: k0 :: k1 :: (key ++ v0 :: v1 :: tail)
    deserialize data data.length = .ok (default,0) := by
  intro data
  rw [deserialize_afterKey b0 b1 b2 b3 op k0 k1 v0 v1 key tail keyLen,if_pos few]

theorem deserialize_checked (x : BitVec 32) (r : WalRecord) (small : r.Small) (rest : Bytes) :
    deserialize (le32 x ++ r.payload ++ rest) (le32 x ++ r.payload ++ rest).length =
      if x = crc32 r.payload then .ok (r,r.serialize.length) else .ok (default,0) := by
  obtain ⟨⟨op⟩,key,value⟩ := r
  let keyLen := BitVec.ofNat 16 key.length
  let valLen := BitVec.ofNat 16 value.length
  have shape : le32 x ++ payload ⟨⟨op⟩,key,value⟩ ++ rest =
      byteOf x 0 :: byteOf x 1 :: byteOf x 2 :: byteOf x 3 :: op ::
        byteOf keyLen 0 :: byteOf keyLen 1 ::
          (key ++ byteOf valLen 0 :: byteOf valLen 1 :: (value ++ rest)) := by
    simp [le32,payload,le16,keyLen,valLen]
  rw [shape,deserialize_fields _ _ _ _ op _ _ _ _ key value rest
    (by rw [read16_byteOf,ofNat16_toNat _ small.1]) (by rw [read16_byteOf,ofNat16_toNat _ small.2]),
    read32_byteOf]

theorem deserialize_serialize (r : WalRecord) (small : r.Small) (rest : Bytes) :
    deserialize (r.serialize ++ rest) (r.serialize ++ rest).length = .ok (r,r.serialize.length) := by
  rw [serialize_eq,deserialize_checked _ r small rest,if_pos rfl,serialize_eq]

/-- Nothing faults, and what is not decoded consumes nothing. -/
theorem deserialize_cases (data : Bytes) :
    deserialize data data.length = .ok (default,0) ∨
    ∃ r rest, r.Small ∧ data = r.serialize ++ rest ∧
      deserialize data data.length = .ok (r,r.serialize.length) := by
  cases layout data with
  | short _ few => exact .inl (deserialize_short data few)
  | noKey b0 b1 b2 b3 op k0 k1 tail few =>
    exact .inl (deserialize_noKey b0 b1 b2 b3 op k0 k1 tail few)
  | noValue b0 b1 b2 b3 op k0 k1 v0 v1 key tail keyLen few =>
    exact .inl (deserialize_noValue b0 b1 b2 b3 op k0 k1 v0 v1 key tail keyLen few)
  | full b0 b1 b2 b3 op k0 k1 v0 v1 key value rest keyLen valLen =>
    have fields := deserialize_fields b0 b1 b2 b3 op k0 k1 v0 v1 key value rest keyLen valLen
    by_cases same : read32 b0 b1 b2 b3 = crc32 (payload ⟨⟨op⟩,key,value⟩)
    · refine .inr ⟨⟨⟨op⟩,key,value⟩,rest,⟨?_,?_⟩,?_,?_⟩
      · simpa only [keyLen] using (read16 k0 k1).isLt
      · simpa only [valLen] using (read16 v0 v1).isLt
      · rw [serialize_eq,← same,le32_read32]
        simp [payload,keyLen,valLen,le16_read16]
      · rw [fields,if_pos same]
    · exact .inl (by rw [fields,if_neg same])

/-- The record codec as a self-delimiting code. Strict prefixes cannot decode: the decoder
would return two records on the whole encoding. -/
def framing : Framing WalRecord Byte where
  encode := serialize
  Valid := Small
  decode data :=
    match deserialize data data.length with
    | .ok (r,consumed) => if consumed = 0 then none else some (r,data.drop consumed)
    | .error _ => none
  decode_nil := rfl
  decode_encode := by
    intro r rest small
    rw [deserialize_serialize r small rest]
    simp
  decode_strict := by
    intro r part small inside strict
    rcases deserialize_cases part with none | ⟨other,rest,otherSmall,shape,_⟩
    · rw [none]; rfl
    obtain ⟨tail,whole⟩ := inside
    have asOther := deserialize_serialize other otherSmall (rest ++ tail)
    have asWhole := deserialize_serialize r small []
    rw [← List.append_assoc,← shape,whole] at asOther
    rw [List.append_nil,asOther] at asWhole
    have same : other = r := congrArg Prod.fst (Except.ok.inj asWhole)
    subst same
    have lengths := congrArg List.length whole
    rw [shape] at lengths strict
    simp at lengths strict
    exact absurd lengths.1 strict

theorem decode_cases (data : Bytes) :
    (deserialize data data.length = .ok (default,0) ∧ framing.decode data = none) ∨
    ∃ r rest, r.Small ∧ data = r.serialize ++ rest ∧ framing.decode data = some (r,rest) ∧
      deserialize data data.length = .ok (r,r.serialize.length) := by
  rcases deserialize_cases data with none | ⟨r,rest,small,shape,found⟩
  · exact .inl ⟨none,by simp [framing,none]⟩
  · refine .inr ⟨r,rest,small,shape,?_,found⟩
    rw [shape]
    exact framing.decode_encode r rest small

theorem decode_eq_none_iff (data : Bytes) :
    framing.decode data = none ↔ deserialize data data.length = .ok (default,0) := by
  rcases decode_cases data with ⟨nothing,stop⟩ | ⟨r,rest,_,_,found,decoded⟩
  · simp [nothing,stop]
  · rw [found,decoded]
    simp

/-- Draining splits the bytes into encodings of small records and what does not decode. -/
theorem drain_sound (fuel : Nat) (data rest : Bytes) (records : List WalRecord)
    (drained : framing.drain fuel data = some (records,rest)) :
    data = framing.stream records ++ rest ∧ (∀ r ∈ records, r.Small) ∧
      framing.decode rest = none := by
  induction fuel generalizing data records with
  | zero => simp [Framing.drain] at drained
  | succ fuel ih =>
    rcases decode_cases data with ⟨_,stop⟩ | ⟨r,after,small,shape,next,_⟩
    · simp only [Framing.drain,stop,Option.some.injEq,Prod.mk.injEq] at drained
      obtain ⟨rfl,rfl⟩ := drained
      exact ⟨rfl,by simp,stop⟩
    · simp only [Framing.drain,next,Option.map_eq_some_iff,Prod.mk.injEq,Prod.exists] at drained
      obtain ⟨later,_,run,rfl,rfl⟩ := drained
      obtain ⟨split,smalls,stop⟩ := ih after later run
      refine ⟨?_,?_,stop⟩
      · rw [shape,split,Framing.stream_cons,List.append_assoc]
        rfl
      · intro x member
        rcases List.mem_cons.mp member with rfl | member
        · exact small
        · exact smalls x member

theorem drain_total (data : Bytes) (fuel : Nat) (enough : data.length < fuel) :
    ∃ records rest, framing.drain fuel data = some (records,rest) := by
  induction fuel generalizing data with
  | zero => omega
  | succ fuel ih =>
    rcases decode_cases data with ⟨_,stop⟩ | ⟨r,after,_,shape,next,_⟩
    · exact ⟨[],data,by simp [Framing.drain,stop]⟩
    · have lengths := congrArg List.length shape
      simp only [List.length_append,serialize_length] at lengths
      obtain ⟨records,rest,run⟩ := ih after (by omega)
      exact ⟨r :: records,rest,by simp [Framing.drain,next,run]⟩

end WalRecord

end KvCache
