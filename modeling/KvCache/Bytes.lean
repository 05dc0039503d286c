import KvCache.Act
import Mathlib.Data.List.Basic
import Mathlib.Data.BitVec

/-! Byte strings and checked memory. A C++ buffer is the list of its bytes; a read
through a pointer is checked against that list, so that reading past its end is the
fault `outOfBounds` and never an invented value. Multi-byte fields are little-endian. -/
namespace KvCache

abbrev Byte := BitVec 8
abbrev Bytes := List Byte

/-- The bytes of an ASCII literal. -/
def ascii (s : String) : Bytes := s.toList.map fun c => BitVec.ofNat 8 c.toNat

def byteAt (data : Bytes) (index : Nat) : Except Fault Byte :=
  match data[index]? with
  | some b => .ok b
  | none => .error .outOfBounds

/-- `std::string(data + offset, count)`. -/
def slice (data : Bytes) (offset count : Nat) : Except Fault Bytes :=
  if offset + count ≤ data.length then .ok ((data.drop offset).take count)
  else .error .outOfBounds

theorem byteAt_append_right (front back : Bytes) (index : Nat) :
    byteAt (front ++ back) (front.length + index) = byteAt back index := by
  simp [byteAt,List.getElem?_append_right]

@[simp] theorem byteAt_cons_zero (b : Byte) (data : Bytes) : byteAt (b :: data) 0 = .ok b := rfl

theorem slice_ok_iff (data : Bytes) (offset count : Nat) (part : Bytes) :
    slice data offset count = .ok part ↔
      offset + count ≤ data.length ∧ part = (data.drop offset).take count := by
  unfold slice
  split <;> simp_all [eq_comm]

theorem slice_length {data part : Bytes} {offset count : Nat}
    (found : slice data offset count = .ok part) : part.length = count := by
  obtain ⟨inside,rfl⟩ := (slice_ok_iff ..).mp found
  rw [List.length_take,List.length_drop]
  omega

theorem slice_append_right (front back : Bytes) (offset count : Nat) :
    slice (front ++ back) (front.length + offset) count = slice back offset count := by
  simp [slice,Nat.add_assoc,List.drop_append,List.drop_eq_nil_of_le]

theorem slice_front (part rest : Bytes) : slice (part ++ rest) 0 part.length = .ok part := by
  simp [slice]

/-- What the first returns, the second returns as well. -/
def Returned {α : Type} (x y : Except Fault α) : Prop := ∀ a, x = .ok a → y = .ok a

namespace Returned

variable {α β : Type}

theorem refl (x : Except Fault α) : Returned x x := fun _ same => same

theorem bind {x y : Except Fault α} {f g : α → Except Fault β} (first : Returned x y)
    (second : ∀ a, Returned (f a) (g a)) : Returned (x >>= f) (y >>= g) := by
  intro b ran
  obtain ⟨a,returned,rest⟩ := (Fault.bind_ok_iff x f b).mp ran
  exact (Fault.bind_ok_iff y g b).mpr ⟨a,first a returned,second a b rest⟩

theorem ite (c : Prop) [Decidable c] {x y x' y' : Except Fault α} (yes : Returned x x')
    (no : Returned y y') : Returned (if c then x else y) (if c then x' else y') := by
  split
  · exact yes
  · exact no

theorem byteAt (data more : Bytes) (index : Nat) :
    Returned (byteAt data index) (KvCache.byteAt (data ++ more) index) := by
  intro b found
  unfold KvCache.byteAt at found ⊢
  by_cases inside : index < data.length
  · rwa [List.getElem?_append_left inside]
  · rw [List.getElem?_eq_none (Nat.not_lt.mp inside)] at found
    cases found

theorem slice (data more : Bytes) (offset count : Nat) :
    Returned (slice data offset count) (KvCache.slice (data ++ more) offset count) := by
  intro part found
  obtain ⟨inside,rfl⟩ := (slice_ok_iff ..).mp found
  refine (slice_ok_iff ..).mpr ⟨by rw [List.length_append]; omega,?_⟩
  rw [List.drop_append_of_le_length (by omega),
    List.take_append_of_le_length (by rw [List.length_drop]; omega)]

end Returned

theorem byteAt_inside (data : Bytes) (index : Nat) (inside : index < data.length) :
    ∃ b, byteAt data index = .ok b :=
  ⟨data[index],by simp [byteAt,inside]⟩

theorem slice_inside (data : Bytes) (offset count : Nat) (inside : offset + count ≤ data.length) :
    ∃ part, slice data offset count = .ok part :=
  ⟨_,(slice_ok_iff ..).mpr ⟨inside,rfl⟩⟩

/-- Byte `i` of a word: the cast of `(x >> 8 * i) & 0xFF` to `char`. -/
def byteOf {w : Nat} (x : BitVec w) (i : Nat) : Byte := (x >>> (8 * i)).setWidth 8

def le16 (x : BitVec 16) : Bytes := [byteOf x 0,byteOf x 1]

def le32 (x : BitVec 32) : Bytes := [byteOf x 0,byteOf x 1,byteOf x 2,byteOf x 3]

def read16 (b0 b1 : Byte) : BitVec 16 := b0.setWidth 16 ||| (b1.setWidth 16 <<< 8)

def read32 (b0 b1 b2 b3 : Byte) : BitVec 32 :=
  b0.setWidth 32 ||| (b1.setWidth 32 <<< 8) ||| (b2.setWidth 32 <<< 16) ||| (b3.setWidth 32 <<< 24)

@[simp] theorem le16_length (x : BitVec 16) : (le16 x).length = 2 := rfl
@[simp] theorem le32_length (x : BitVec 32) : (le32 x).length = 4 := rfl

theorem read16_byteOf (x : BitVec 16) : read16 (byteOf x 0) (byteOf x 1) = x := by
  apply BitVec.eq_of_getLsbD_eq
  intro i bound
  simp only [read16,byteOf,BitVec.getLsbD_or,BitVec.getLsbD_shiftLeft,BitVec.getLsbD_setWidth,
    BitVec.getLsbD_ushiftRight]
  by_cases low : i < 8
  · simp [low,bound]
  · have index : 8 + (i - 8) = i := by omega
    simp [low,bound,index,show i - 8 < 8 by omega,show i - 8 < 16 by omega]

theorem le16_read16 (b0 b1 : Byte) : le16 (read16 b0 b1) = [b0,b1] := by
  have low : byteOf (read16 b0 b1) 0 = b0 := by
    apply BitVec.eq_of_getLsbD_eq
    intro i bound
    simp [read16,byteOf,bound]
  have high : byteOf (read16 b0 b1) 1 = b1 := by
    apply BitVec.eq_of_getLsbD_eq
    intro i bound
    simp [read16,byteOf,bound,show 8 + i < 16 by omega,show i < 16 by omega]
  simp [le16,low,high]

theorem ofNat16_toNat (n : Nat) (small : n < 65536) : (BitVec.ofNat 16 n).toNat = n := by
  simp only [BitVec.toNat_ofNat]
  exact Nat.mod_eq_of_lt small

theorem read32_byteOf (x : BitVec 32) :
    read32 (byteOf x 0) (byteOf x 1) (byteOf x 2) (byteOf x 3) = x := by
  apply BitVec.eq_of_getLsbD_eq
  intro i bound
  simp only [read32,byteOf,BitVec.getLsbD_or,BitVec.getLsbD_shiftLeft,BitVec.getLsbD_setWidth,
    BitVec.getLsbD_ushiftRight]
  -- one case for each byte: exactly one of the four shifted bytes covers bit `i`
  by_cases first : i < 8
  · simp [first,bound,show i < 16 by omega,show i < 24 by omega]
  by_cases second : i < 16
  · have index : 8 + (i - 8) = i := by omega
    simp [first,second,bound,index,show i - 8 < 8 by omega,show i - 8 < 32 by omega,
      show i < 24 by omega]
  by_cases third : i < 24
  · have index : 16 + (i - 16) = i := by omega
    simp [first,second,third,bound,index,show ¬i - 8 < 8 by omega,show i - 16 < 8 by omega,
      show i - 16 < 32 by omega]
  · have index : 24 + (i - 24) = i := by omega
    simp [first,second,third,bound,index,show ¬i - 8 < 8 by omega,show ¬i - 16 < 8 by omega,
      show i - 24 < 8 by omega,show i - 24 < 32 by omega]

theorem le32_read32 (b0 b1 b2 b3 : Byte) : le32 (read32 b0 b1 b2 b3) = [b0,b1,b2,b3] := by
  have beyond (b : Byte) (i : Nat) (past : 8 ≤ i) : b.getLsbD i = false :=
    BitVec.getLsbD_of_ge b i past
  have first : byteOf (read32 b0 b1 b2 b3) 0 = b0 := by
    apply BitVec.eq_of_getLsbD_eq
    intro i bound
    simp [read32,byteOf,bound]
  have second : byteOf (read32 b0 b1 b2 b3) 1 = b1 := by
    apply BitVec.eq_of_getLsbD_eq
    intro i bound
    simp [read32,byteOf,bound,show 8 + i < 32 by omega,show ¬8 + i < 8 by omega,
      show 8 + i < 16 by omega,show 8 + i < 24 by omega]
  have third : byteOf (read32 b0 b1 b2 b3) 2 = b2 := by
    apply BitVec.eq_of_getLsbD_eq
    intro i bound
    simp [read32,byteOf,bound,show 16 + i < 32 by omega,show ¬16 + i < 16 by omega,
      show 16 + i < 24 by omega,beyond b0 (16 + i) (by omega),beyond b1 (16 + i - 8) (by omega)]
  have fourth : byteOf (read32 b0 b1 b2 b3) 3 = b3 := by
    apply BitVec.eq_of_getLsbD_eq
    intro i bound
    simp [read32,byteOf,bound,show 24 + i < 32 by omega,show ¬24 + i < 24 by omega,
      beyond b0 (24 + i) (by omega),beyond b1 (24 + i - 8) (by omega),
      beyond b2 (24 + i - 16) (by omega)]
  simp [le32,first,second,third,fourth]

theorem le32_at (data : Bytes) (offset : Nat) (room : offset + 4 ≤ data.length) :
    ∃ x : BitVec 32, data.drop offset = le32 x ++ data.drop (offset + 4) ∧
      byteAt data offset = .ok (byteOf x 0) ∧ byteAt data (offset + 1) = .ok (byteOf x 1) ∧
      byteAt data (offset + 2) = .ok (byteOf x 2) ∧ byteAt data (offset + 3) = .ok (byteOf x 3) := by
  have four : 4 ≤ (data.drop offset).length := by rw [List.length_drop]; omega
  have front : (data.take offset).length = offset := by rw [List.length_take]; omega
  match tail : data.drop offset, four with
  | b0 :: b1 :: b2 :: b3 :: rest, _ =>
    have bytes := le32_read32 b0 b1 b2 b3
    have after : data.drop (offset + 4) = rest := by
      rw [← List.drop_drop,tail]
      rfl
    have byteBehind (i : Nat) : byteAt data (offset + i) = byteAt (b0 :: b1 :: b2 :: b3 :: rest) i := by
      have shifted := byteAt_append_right (data.take offset) (data.drop offset) i
      rwa [List.take_append_drop,front,tail] at shifted
    refine ⟨read32 b0 b1 b2 b3,by rw [bytes,after]; rfl,?_⟩
    simp only [le32,List.cons.injEq,and_true] at bytes
    rw [byteBehind 1,byteBehind 2,byteBehind 3,show byteAt data offset = _ from byteBehind 0,
      bytes.1,bytes.2.1,bytes.2.2.1,bytes.2.2.2]
    exact ⟨rfl,rfl,rfl,rfl⟩

end KvCache
