import KvCache.Bytes
import KvCache.CyclicCode

/-! The table-driven CRC-32 of `crc32.cpp` and the checksum helpers of its namespace
`crc`. The table is the function of its index that the `constexpr` constructor tabulates. -/
namespace KvCache

def kCRC32Polynomial : BitVec 32 := 0xEDB88320#32

/-- One round of the loop of `MakeTable`. -/
def tableRound (crc : BitVec 32) : BitVec 32 :=
  if crc &&& 1#32 = 1#32 then (crc >>> 1) ^^^ kCRC32Polynomial else crc >>> 1

def makeTable (idx : BitVec 32) : BitVec 32 := (List.range 8).foldl (fun crc _ => tableRound crc) idx

def kCRC32Table (i : Nat) : BitVec 32 := makeTable (BitVec.ofNat 32 i)

def crc32Byte (crc : BitVec 32) (byte : Byte) : BitVec 32 :=
  kCRC32Table ((crc ^^^ byte.setWidth 32) &&& 0xFF#32).toNat ^^^ (crc >>> 8)

def crc32 (data : Bytes) : BitVec 32 := data.foldl crc32Byte 0xFFFFFFFF#32 ^^^ 0xFFFFFFFF#32

theorem tableRound_eq (crc : BitVec 32) :
    tableRound crc = CyclicCode.round kCRC32Polynomial crc := by
  have odd : crc &&& 1#32 = 1#32 ↔ crc.getLsbD 0 = true := by
    rw [BitVec.and_one_eq_setWidth_ofBool_getLsbD]
    cases crc.getLsbD 0 <;> decide
  simp only [tableRound,CyclicCode.round,odd]

theorem makeTable_eq (idx : BitVec 32) :
    makeTable idx = CyclicCode.rounds kCRC32Polynomial 8 idx := by
  simp only [makeTable,tableRound_eq]
  rfl

theorem lowByte_eq (x : BitVec 32) : x &&& 0xFF#32 = (x.setWidth 8).setWidth 32 := by
  apply BitVec.eq_of_getLsbD_eq
  intro i bound
  have mask : (0xFF#32).getLsbD i = decide (i < 8) := by
    change (255 : Nat).testBit i = decide (i < 8)
    rw [show (255 : Nat) = 2 ^ 8 - 1 by rfl,Nat.testBit_two_pow_sub_one]
  rw [BitVec.getLsbD_and,mask]
  simp [bound,Bool.and_comm]

/-- The table-driven step: eight rounds of the register with the byte added. -/
theorem crc32Byte_eq (crc : BitVec 32) (byte : Byte) :
    crc32Byte crc byte = CyclicCode.absorb kCRC32Polynomial crc byte := by
  have moved : (crc ^^^ byte.setWidth 32) >>> 8 = crc >>> 8 := by
    apply BitVec.eq_of_getLsbD_eq
    intro i bound
    simp
  rw [CyclicCode.absorb,CyclicCode.rounds_split,moved,← lowByte_eq,crc32Byte,kCRC32Table,makeTable_eq,
    BitVec.ofNat_toNat,BitVec.setWidth_eq]

theorem crc32_eq (data : Bytes) :
    crc32 data = data.foldl (CyclicCode.absorb kCRC32Polynomial) 0xFFFFFFFF#32 ^^^ 0xFFFFFFFF#32 := by
  have step : crc32Byte = CyclicCode.absorb kCRC32Polynomial := by
    funext crc byte
    exact crc32Byte_eq crc byte
  rw [crc32,step]

/-- One bit of the data: the register is shifted down, and the polynomial is added when the
bit differs from the one that falls out. -/
def crc32Bit (crc : BitVec 32) (bit : Bool) : BitVec 32 :=
  if bit ^^ crc.getLsbD 0 then (crc >>> 1) ^^^ 0xEDB88320#32 else crc >>> 1

/-- The reflected CRC-32 as it is defined, the low end of each byte first. -/
def crc32Serial (data : Bytes) : BitVec 32 :=
  (data.flatMap fun byte => (List.range 8).map byte.getLsbD).foldl crc32Bit 0xFFFFFFFF#32 ^^^
    0xFFFFFFFF#32

/-- The table computes the bit-serial checksum. -/
theorem crc32_eq_serial (data : Bytes) : crc32 data = crc32Serial data := by
  have bytes (c : BitVec 32) :
      (data.flatMap CyclicCode.bitsOf).foldl (CyclicCode.absorbBit kCRC32Polynomial) c =
        data.foldl (CyclicCode.absorb kCRC32Polynomial) c := by
    induction data generalizing c with
    | nil => rfl
    | cons byte data ih =>
      rw [List.flatMap_cons,List.foldl_append,CyclicCode.foldl_bitsOf _ (by decide),ih]
      rfl
  rw [crc32_eq,← bytes]
  rfl

example : crc32 (ascii "123456789") = 0xCBF43926#32 := by decide +kernel

theorem polynomial_top : kCRC32Polynomial.getLsbD (32 - 1) = true := by decide

theorem word_le32 (x : BitVec 32) : (CyclicCode.word (le32 x) : BitVec 32) = x := by
  apply BitVec.eq_of_getLsbD_eq
  intro i bound
  simp only [le32,CyclicCode.word,byteOf,BitVec.getLsbD_xor,BitVec.getLsbD_shiftLeft,
    BitVec.getLsbD_setWidth,BitVec.getLsbD_ushiftRight]
  -- one case for each byte: exactly one of the four shifted bytes covers bit `i`
  by_cases first : i < 8
  · simp [first,bound]
  by_cases second : i - 8 < 8
  · have index : 8 + (i - 8) = i := by omega
    simp [first,second,bound,index,show i - 8 < 32 by omega]
  by_cases third : i - 8 - 8 < 8
  · have index : 16 + (i - 8 - 8) = i := by omega
    simp [first,second,third,bound,index,show i - 8 < 32 by omega,show i - 8 - 8 < 32 by omega]
  · have index : 24 + (i - 8 - 8 - 8) = i := by omega
    simp [first,second,third,bound,index,show i - 8 < 32 by omega,show i - 8 - 8 < 32 by omega,
      show i - 8 - 8 - 8 < 8 by omega,show i - 8 - 8 - 8 < 32 by omega]

/-- What the register holds after data and their checksum. -/
def residue : BitVec 32 := CyclicCode.rounds kCRC32Polynomial 32 0xFFFFFFFF#32

/-- The checksum as a cyclic code. Four bytes are the checksum of the data before them
exactly when they take the register to the residue. -/
theorem crc32_eq_iff (data : Bytes) (x : BitVec 32) :
    x = crc32 data ↔
      (data ++ le32 x).foldl (CyclicCode.absorb kCRC32Polynomial) 0xFFFFFFFF#32 = residue := by
  have joined := CyclicCode.foldl_absorb kCRC32Polynomial (le32 x) (by simp)
  rw [crc32_eq,List.foldl_append,joined,word_le32]
  generalize data.foldl (CyclicCode.absorb kCRC32Polynomial) 0xFFFFFFFF#32 = register
  constructor
  · rintro rfl
    rw [← BitVec.xor_assoc,BitVec.xor_self,BitVec.zero_xor]
    rfl
  · intro same
    have sum : register ^^^ x = 0xFFFFFFFF#32 :=
      CyclicCode.rounds_injective _ polynomial_top _ same
    rw [← sum,← BitVec.xor_assoc,BitVec.xor_self,BitVec.zero_xor]

/-- A change of at most four bytes in a row changes the checksum. -/
theorem crc32_burst {old new : Bytes} {start width : Nat}
    (burst : CyclicCode.Burst old new start width) (short : width ≤ 4) : crc32 new ≠ crc32 old := by
  rw [crc32_eq,crc32_eq]
  intro same
  exact CyclicCode.foldl_absorb_burst _ polynomial_top burst (by omega) _
    ((BitVec.xor_left_inj _).mp same)

namespace Crc

def appendChecksum (output data : Bytes) : Bytes := output ++ le32 (crc32 data)

/-- Reads the four bytes at the pointer; the caller vouches for them. -/
def readChecksum (data : Bytes) : Except Fault (BitVec 32) := do
  return read32 (← byteAt data 0) (← byteAt data 1) (← byteAt data 2) (← byteAt data 3)

def verifyChecksum (data : Bytes) (dataLen : Nat) : Except Fault Bool := do
  let stored ← readChecksum (data.drop dataLen)
  let calculated := crc32 (← slice data 0 dataLen)
  return stored == calculated

@[simp] theorem readChecksum_cons (b0 b1 b2 b3 : Byte) (rest : Bytes) :
    readChecksum (b0 :: b1 :: b2 :: b3 :: rest) = .ok (read32 b0 b1 b2 b3) := rfl

theorem readChecksum_le32 (x : BitVec 32) (rest : Bytes) :
    readChecksum (le32 x ++ rest) = .ok x := by
  simp [le32,read32_byteOf]

theorem verifyChecksum_le32 (data rest : Bytes) (x : BitVec 32) :
    verifyChecksum (data ++ (le32 x ++ rest)) data.length = .ok (x == crc32 data) := by
  have stored : readChecksum ((data ++ (le32 x ++ rest)).drop data.length) = .ok x := by
    rw [List.drop_left]
    exact readChecksum_le32 x rest
  simp only [verifyChecksum,stored,slice_front data (le32 x ++ rest)]
  rfl

theorem verifyChecksum_append (data rest : Bytes) :
    verifyChecksum (data ++ (le32 (crc32 data) ++ rest)) data.length = .ok true := by
  rw [verifyChecksum_le32,beq_self_eq_true]

theorem verifyChecksum_inside (data : Bytes) (dataLen : Nat) (room : dataLen + 4 ≤ data.length) :
    ∃ x, data = data.take dataLen ++ (le32 x ++ data.drop (dataLen + 4)) ∧
      verifyChecksum data dataLen = .ok (x == crc32 (data.take dataLen)) := by
  have front : (data.take dataLen).length = dataLen := by rw [List.length_take]; omega
  obtain ⟨x,stored,_⟩ := le32_at data dataLen room
  have split : data = data.take dataLen ++ (le32 x ++ data.drop (dataLen + 4)) := by
    rw [← stored,List.take_append_drop]
  have checked := verifyChecksum_le32 (data.take dataLen) (data.drop (dataLen + 4)) x
  rw [← split,front] at checked
  exact ⟨x,split,checked⟩

theorem readChecksum_returned (data more : Bytes) :
    Returned (readChecksum data) (readChecksum (data ++ more)) :=
  .bind (.byteAt data more 0) fun _ => .bind (.byteAt data more 1) fun _ =>
    .bind (.byteAt data more 2) fun _ => .bind (.byteAt data more 3) fun _ => .refl _

theorem verifyChecksum_returned (data more : Bytes) (dataLen : Nat) :
    Returned (verifyChecksum data dataLen) (verifyChecksum (data ++ more) dataLen) := by
  have stored : Returned (readChecksum (data.drop dataLen)) (readChecksum ((data ++ more).drop dataLen)) := by
    by_cases inside : dataLen ≤ data.length
    · rw [List.drop_append_of_le_length inside]
      exact readChecksum_returned _ more
    · intro x found
      rw [List.drop_eq_nil_of_le (by omega)] at found
      cases found
  exact .bind stored fun _ => .bind (.slice data more 0 dataLen) fun _ => .refl _

end Crc

end KvCache
