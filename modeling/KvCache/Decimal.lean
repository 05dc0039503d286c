import KvCache.Bytes
import Mathlib.Data.List.TakeWhile

/-! Decimal numbers in text: `std::to_string`, and `std::stoi` with its leading blanks,
sign, stop at the first other character, and exceptions. -/
namespace KvCache

def digitByte (c : Char) : Byte := BitVec.ofNat 8 c.toNat

/-- `std::to_string` of an unsigned number. -/
def decimal (n : Nat) : Bytes := (Nat.toDigits 10 n).map digitByte

def decimalInt : Int → Bytes
  | .ofNat n => decimal n
  | .negSucc n => 45#8 :: decimal (n + 1)

def isSpace (b : Byte) : Bool := b == 32#8 || (9 ≤ b.toNat && b.toNat ≤ 13)

def isDigit (b : Byte) : Bool := 48 ≤ b.toNat && b.toNat ≤ 57

def digitsValue (digits : Bytes) : Nat := digits.foldl (fun n b => 10 * n + (b.toNat - 48)) 0

def signed : Bytes → Bool × Bytes
  | [] => (false,[])
  | b :: rest =>
    if b = 45#8 then (true,rest)
    else if b = 43#8 then (false,rest)
    else (false,b :: rest)

def stoi (text : Bytes) : Except Fault Int :=
  let (negative,rest) := signed (text.dropWhile isSpace)
  let digits := rest.takeWhile isDigit
  let value : Int := if negative then -(digitsValue digits : Int) else digitsValue digits
  if digits.isEmpty then .error .invalidArgument
  else if value < -2 ^ 31 ∨ 2 ^ 31 ≤ value then .error .outOfRange
  else .ok value

/-- The sign and the digits that `stoi` takes of a text. -/
def signedDigits (text : Bytes) : Bool × Bytes :=
  let (negative,rest) := signed (text.dropWhile isSpace)
  (negative,rest.takeWhile isDigit)

def signedValue (negative : Bool) (digits : Bytes) : Int :=
  if negative then -(digitsValue digits : Int) else digitsValue digits

theorem stoi_eq (text : Bytes) :
    stoi text =
      if (signedDigits text).2.isEmpty then .error .invalidArgument
      else if signedValue (signedDigits text).1 (signedDigits text).2 < -2 ^ 31 ∨
          2 ^ 31 ≤ signedValue (signedDigits text).1 (signedDigits text).2 then .error .outOfRange
      else .ok (signedValue (signedDigits text).1 (signedDigits text).2) := rfl

theorem stoi_ok_iff (text : Bytes) (n : Int) :
    stoi text = .ok n ↔ (signedDigits text).2 ≠ [] ∧
      n = signedValue (signedDigits text).1 (signedDigits text).2 ∧ -2 ^ 31 ≤ n ∧ n < 2 ^ 31 := by
  rw [stoi_eq]
  generalize signedValue (signedDigits text).1 (signedDigits text).2 = value
  by_cases none : (signedDigits text).2 = []
  · simp [none]
  by_cases outside : value < -2 ^ 31 ∨ 2 ^ 31 ≤ value
  · rw [if_neg (by simpa using none),if_pos outside]
    constructor
    · intro same
      cases same
    · rintro ⟨_,same,_,_⟩
      omega
  · rw [if_neg (by simpa using none),if_neg outside,Except.ok.injEq]
    refine ⟨fun same => ⟨none,same.symm,by omega,by omega⟩,fun ⟨_,same,_⟩ => same.symm⟩

theorem isDigit_digitByte (c : Char) (digit : c.isDigit) : isDigit (digitByte c) = true := by
  simp only [Char.isDigit,Bool.and_eq_true,decide_eq_true_eq] at digit
  have low : 48 ≤ c.toNat := digit.1
  have high : c.toNat ≤ 57 := digit.2
  simp only [isDigit,digitByte,BitVec.toNat_ofNat,Bool.and_eq_true,decide_eq_true_eq]
  omega

theorem toNat_digitByte (c : Char) (digit : c.isDigit) : (digitByte c).toNat = c.toNat := by
  simp only [Char.isDigit,Bool.and_eq_true,decide_eq_true_eq] at digit
  have high : c.toNat ≤ 57 := digit.2
  simp only [digitByte,BitVec.toNat_ofNat]
  omega

theorem decimal_isDigit (n : Nat) (b : Byte) (member : b ∈ decimal n) : isDigit b = true := by
  obtain ⟨c,inside,rfl⟩ := List.mem_map.mp member
  exact isDigit_digitByte c (Nat.isDigit_of_mem_toDigits (by decide) (by decide) inside)

theorem decimal_ne_nil (n : Nat) : decimal n ≠ [] := by
  simp [decimal]

theorem decimal_length_le (n : Nat) (bound : n < 2 ^ 31) : (decimal n).length ≤ 10 := by
  rw [decimal,List.length_map]
  exact (Nat.length_toDigits_le_iff (by decide) (by decide)).mpr (by omega)

theorem foldl_digits (cs : List Char) (digits : ∀ c ∈ cs, c.isDigit) (start : Nat) :
    (cs.map digitByte).foldl (fun n b => 10 * n + (b.toNat - 48)) start =
      Nat.ofDigitChars 10 cs start := by
  induction cs generalizing start with
  | nil => rfl
  | cons c cs ih =>
    have head := toNat_digitByte c (digits c List.mem_cons_self)
    rw [List.map_cons,List.foldl_cons,Nat.ofDigitChars_cons,head]
    exact ih (fun x member => digits x (List.mem_cons_of_mem c member)) _

theorem digitsValue_decimal (n : Nat) : digitsValue (decimal n) = n := by
  rw [digitsValue,decimal,foldl_digits _ fun c inside =>
    Nat.isDigit_of_mem_toDigits (by decide) (by decide) inside]
  exact Nat.ofDigitChars_ten_toDigits

def Plain (text : Bytes) : Prop := text ≠ [] ∧ ∀ b ∈ text, isDigit b = true

instance (text : Bytes) : Decidable (Plain text) := inferInstanceAs (Decidable (_ ∧ _))

theorem isDigit_ne (b : Byte) (digit : isDigit b = true) :
    isSpace b = false ∧ b ≠ 45#8 ∧ b ≠ 43#8 := by
  simp only [isDigit,Bool.and_eq_true,decide_eq_true_eq] at digit
  refine ⟨?_,fun same => by simp [same] at digit,fun same => by simp [same] at digit⟩
  simp only [isSpace,Bool.or_eq_false_iff,beq_eq_false_iff_ne,Bool.and_eq_false_iff,
    decide_eq_false_iff_not]
  exact ⟨fun same => by simp [same] at digit,by omega⟩

theorem signedDigits_plain (text : Bytes) (plain : Plain text) :
    signedDigits text = (false,text) := by
  obtain ⟨b,rest,rfl⟩ := List.exists_cons_of_ne_nil plain.1
  obtain ⟨notSpace,notMinus,notPlus⟩ := isDigit_ne b (plain.2 b List.mem_cons_self)
  have whole : (b :: rest).takeWhile isDigit = b :: rest :=
    List.takeWhile_eq_self_iff.mpr fun b member => plain.2 b member
  rw [signedDigits,List.dropWhile_cons_of_neg (by simp [notSpace]),signed,if_neg notMinus,
    if_neg notPlus]
  simp only [whole]

theorem stoi_plain (text : Bytes) (plain : Plain text) (n : Int) :
    stoi text = .ok n ↔ n = digitsValue text ∧ n < 2 ^ 31 := by
  rw [stoi_ok_iff,signedDigits_plain text plain]
  simp only [signedValue,Bool.false_eq_true,if_false]
  refine ⟨fun ⟨_,same,_,high⟩ => ⟨same,high⟩,fun ⟨same,high⟩ => ⟨plain.1,same,by omega,high⟩⟩

/-- `stoi` inverts `to_string` on the numbers of an `int`. -/
theorem stoi_decimal (n : Nat) (bound : n < 2 ^ 31) : stoi (decimal n) = .ok n := by
  have plain : Plain (decimal n) := ⟨decimal_ne_nil n,decimal_isDigit n⟩
  rw [stoi_plain _ plain,digitsValue_decimal]
  exact ⟨rfl,by omega⟩

theorem signed_append (rest more : Bytes) (some : rest ≠ []) :
    signed (rest ++ more) = ((signed rest).1,(signed rest).2 ++ more) := by
  obtain ⟨b,rest,rfl⟩ := List.exists_cons_of_ne_nil some
  simp only [List.cons_append,signed]
  split
  · rfl
  split <;> rfl

/-- No digit yet, and nothing that keeps one from being the next byte. -/
def Unbegun (text : Bytes) : Prop := (signed (text.dropWhile isSpace)).2 = []

theorem stoi_unbegun (text : Bytes) (unbegun : Unbegun text) : stoi (text ++ [48#8]) = .ok 0 := by
  have zero : isSpace 48#8 = false := by decide
  have digits : signedDigits (text ++ [48#8]) = ((signed (text.dropWhile isSpace)).1,[48#8]) := by
    unfold signedDigits
    rw [List.dropWhile_append]
    by_cases blank : text.dropWhile isSpace = []
    · simp [blank,zero]
      decide
    · rw [if_neg (by simpa using blank),signed_append _ _ blank,unbegun]
      rfl
  rw [stoi_ok_iff,digits]
  refine ⟨by simp,?_,by decide,by decide⟩
  cases (signed (text.dropWhile isSpace)).1 <;> decide

/-- Another digit would not be read. -/
def digitsEnded (text : Bytes) : Bool := decide ((signedDigits (text ++ [48#8])).2 = (signedDigits text).2)

theorem signedDigits_append (text : Bytes) (begun : ¬Unbegun text) (more : Bytes) :
    ∃ digits, signedDigits (text ++ more) = ((signedDigits text).1,(signedDigits text).2 ++ digits) ∧
      (digits = [] ∨
        digits = more.takeWhile isDigit ∧ (signedDigits text).2 ≠ [] ∧ digitsEnded text = false) := by
  have some : text.dropWhile isSpace ≠ [] := fun none => begun (by simp [Unbegun,none,signed])
  have longer (more : Bytes) : (text ++ more).dropWhile isSpace = text.dropWhile isSpace ++ more := by
    rw [List.dropWhile_append,if_neg (by simpa using some)]
  have behind : (signed (text.dropWhile isSpace)).2 ≠ [] := begun
  simp only [digitsEnded,signedDigits,longer,signed_append _ _ some,List.takeWhile_append]
  split
  next all =>
    have whole := List.IsPrefix.eq_of_length (List.takeWhile_prefix isDigit) all
    refine ⟨_,by rw [whole],.inr ⟨rfl,by rwa [whole],?_⟩⟩
    have digit : isDigit 48#8 = true := by decide
    simp [whole,digit]
  next => exact ⟨[],by simp,.inl rfl⟩

theorem digitsValue_append_le (digits more : Bytes) : digitsValue digits ≤ digitsValue (digits ++ more) := by
  have grows : ∀ (more : Bytes) (n : Nat), n ≤ more.foldl (fun n b => 10 * n + (b.toNat - 48)) n := by
    intro more
    induction more with
    | nil => intro n; exact Nat.le_refl n
    | cons b more ih =>
      intro n
      have step : n ≤ 10 * n + (b.toNat - 48) := by omega
      exact Nat.le_trans step (ih _)
  rw [digitsValue,digitsValue,List.foldl_append]
  exact grows more _

/-- A text that goes on to a number has not begun it, or is one that the rest can only take
further from zero. -/
theorem stoi_prefix (text more : Bytes) (n : Int) (read : stoi (text ++ more) = .ok n) :
    stoi (text ++ [48#8]) = .ok 0 ∨
      ∃ k, stoi text = .ok k ∧ (0 ≤ n → 0 ≤ k ∧ k ≤ n) ∧ (n < 0 → k ≤ 0) ∧
        (digitsEnded text = true → n = k) := by
  by_cases unbegun : Unbegun text
  · exact .inl (stoi_unbegun text unbegun)
  refine .inr ⟨signedValue (signedDigits text).1 (signedDigits text).2,?_⟩
  obtain ⟨digits,longer,added⟩ := signedDigits_append text unbegun more
  obtain ⟨filled,value,low,high⟩ := (stoi_ok_iff ..).mp read
  rw [longer] at filled value
  have some : (signedDigits text).2 ≠ [] := by
    rcases added with rfl | ⟨-,some,-⟩
    · simpa using filled
    · exact some
  have same (ended : digitsEnded text = true) :
      n = signedValue (signedDigits text).1 (signedDigits text).2 := by
    rcases added with rfl | ⟨-,-,goes⟩
    · rw [value,List.append_nil]
    · rw [goes] at ended
      cases ended
  have grows := digitsValue_append_le (signedDigits text).2 digits
  rw [stoi_ok_iff]
  cases sign : (signedDigits text).1 with
  | false =>
    simp only [sign,signedValue,Bool.false_eq_true,if_false] at value same ⊢
    exact ⟨⟨some,trivial,by omega,by omega⟩,fun _ => ⟨by omega,by omega⟩,fun _ => by omega,same⟩
  | true =>
    simp only [sign,signedValue,if_true] at value same ⊢
    exact ⟨⟨some,trivial,by omega,by omega⟩,fun _ => ⟨by omega,by omega⟩,fun _ => by omega,same⟩

theorem begun_of_stoi (text : Bytes) (n : Int) (read : stoi text = .ok n) : ¬Unbegun text := by
  intro unbegun
  have filled := ((stoi_ok_iff ..).mp read).1
  have digits : (signedDigits text).2 = (signed (text.dropWhile isSpace)).2.takeWhile isDigit := rfl
  rw [digits,unbegun] at filled
  exact filled rfl

theorem stoi_stopped (text : Bytes) (b : Byte) (stop : isDigit b = false) (more : Bytes) (n : Int)
    (read : stoi text = .ok n) : stoi (text ++ b :: more) = .ok n := by
  obtain ⟨filled,value,low,high⟩ := (stoi_ok_iff ..).mp read
  obtain ⟨digits,longer,added⟩ := signedDigits_append text (begun_of_stoi text n read) (b :: more)
  have none : digits = [] := by
    rcases added with rfl | ⟨rfl,-⟩
    · rfl
    · simp [stop]
  rw [stoi_ok_iff,longer,none,List.append_nil]
  exact ⟨filled,value,low,high⟩

theorem stoi_tenfold (text : Bytes) (n : Int) (read : stoi text = .ok n) (goes : digitsEnded text = false)
    (low : -2 ^ 31 ≤ 10 * n) (high : 10 * n < 2 ^ 31) : stoi (text ++ [48#8]) = .ok (10 * n) := by
  obtain ⟨filled,value,-,-⟩ := (stoi_ok_iff ..).mp read
  obtain ⟨digits,longer,added⟩ := signedDigits_append text (begun_of_stoi text n read) [48#8]
  obtain rfl : digits = [48#8] := by
    rcases added with rfl | ⟨rfl,-⟩
    · simp [digitsEnded,longer] at goes
    · rfl
  have tenfold : digitsValue ((signedDigits text).2 ++ [48#8]) = 10 * digitsValue (signedDigits text).2 := by
    simp [digitsValue]
  rw [stoi_ok_iff,longer]
  refine ⟨by simp,?_,low,high⟩
  rw [value]
  simp only [signedValue,tenfold]
  split <;> omega

end KvCache
