import Mathlib.Data.BitVec
import Mathlib.Data.List.Basic

/-! Cyclic redundancy codes in their reflected form. A register of `w` bits is shifted down,
and the polynomial is added when a one falls out; a symbol of `n` bits is added at the low
end and shifted through. All of it is linear in exclusive or, and a polynomial with its top
bit set makes the shift injective: symbols that differ only in a burst no longer than the
register leave different registers behind. -/
namespace KvCache.CyclicCode

variable {w n : Nat}

def round (poly c : BitVec w) : BitVec w :=
  if c.getLsbD 0 then (c >>> 1) ^^^ poly else c >>> 1

def rounds (poly : BitVec w) : Nat → BitVec w → BitVec w
  | 0, c => c
  | k + 1, c => rounds poly k (round poly c)

def absorb (poly c : BitVec w) (symbol : BitVec n) : BitVec w :=
  rounds poly n (c ^^^ symbol.setWidth w)

/-- Symbols side by side, the first one at the low end. -/
def word : List (BitVec n) → BitVec w
  | [] => 0#w
  | symbol :: symbols => symbol.setWidth w ^^^ (word symbols <<< n)

variable (poly : BitVec w)

theorem round_xor (a b : BitVec w) : round poly (a ^^^ b) = round poly a ^^^ round poly b := by
  apply BitVec.eq_of_getLsbD_eq
  intro i bound
  unfold round
  rw [BitVec.getLsbD_xor,BitVec.ushiftRight_xor_distrib]
  cases a.getLsbD 0 <;> cases b.getLsbD 0 <;> simp [Bool.xor_left_comm,Bool.xor_comm]

theorem rounds_xor (k : Nat) (a b : BitVec w) :
    rounds poly k (a ^^^ b) = rounds poly k a ^^^ rounds poly k b := by
  induction k generalizing a b with
  | zero => rfl
  | succ k ih => rw [rounds,rounds,rounds,round_xor,ih]

theorem rounds_add (j k : Nat) (c : BitVec w) :
    rounds poly (j + k) c = rounds poly k (rounds poly j c) := by
  induction j generalizing c with
  | zero => rw [Nat.zero_add]; rfl
  | succ j ih => rw [Nat.succ_add,rounds,rounds,ih]

/-- The register after one more bit: the polynomial is added when the bit differs from the
one that falls out. -/
def absorbBit (c : BitVec w) (bit : Bool) : BitVec w :=
  if bit ^^ c.getLsbD 0 then (c >>> 1) ^^^ poly else c >>> 1

def bitsOf (symbol : BitVec n) : List Bool := (List.range n).map symbol.getLsbD

theorem absorbBit_xor (a z : BitVec w) :
    absorbBit poly (a ^^^ z) (z.getLsbD 0) = round poly a ^^^ (z >>> 1) := by
  apply BitVec.eq_of_getLsbD_eq
  intro i bound
  unfold absorbBit round
  rw [BitVec.getLsbD_xor,BitVec.ushiftRight_xor_distrib]
  cases a.getLsbD 0 <;> cases z.getLsbD 0 <;> simp [Bool.xor_comm]

theorem foldl_absorbBit (k : Nat) (c z : BitVec w) :
    ((List.range k).map z.getLsbD).foldl (absorbBit poly) c = rounds poly k (c ^^^ z) ^^^ (z >>> k) := by
  induction k with
  | zero =>
    change c = c ^^^ z ^^^ (z >>> 0)
    rw [BitVec.ushiftRight_zero,BitVec.xor_assoc,BitVec.xor_self,BitVec.xor_zero]
  | succ k ih =>
    have next : z.getLsbD k = (z >>> k).getLsbD 0 := by simp
    rw [List.range_succ,List.map_append,List.foldl_append,ih,List.map_singleton,List.foldl_cons,
      List.foldl_nil,next,absorbBit_xor,← BitVec.shiftRight_add,rounds_add]
    rfl

theorem foldl_bitsOf (fits : n ≤ w) (c : BitVec w) (symbol : BitVec n) :
    (bitsOf symbol).foldl (absorbBit poly) c = absorb poly c symbol := by
  have same : bitsOf symbol = (List.range n).map (symbol.setWidth w).getLsbD := by
    refine List.map_congr_left fun i member => ?_
    have inside := List.mem_range.mp member
    simp [show i < w by omega]
  have gone : symbol.setWidth w >>> n = 0#w := by
    apply BitVec.eq_of_getLsbD_eq
    intro i bound
    simp
  rw [same,foldl_absorbBit,gone,BitVec.xor_zero,absorb]

theorem rounds_low (k : Nat) (c : BitVec w) (zeros : ∀ i < k, c.getLsbD i = false) :
    rounds poly k c = c >>> k := by
  induction k generalizing c with
  | zero => rw [BitVec.ushiftRight_zero]; rfl
  | succ k ih =>
    have first : round poly c = c >>> 1 := by
      simp [round,zeros 0 (Nat.succ_pos k)]
    rw [rounds,first,ih,← BitVec.shiftRight_add,Nat.add_comm]
    intro i bound
    rw [BitVec.getLsbD_ushiftRight]
    exact zeros (1 + i) (by omega)

/-- A table of the low symbols replaces as many rounds: the rest of the register only moves
down. -/
theorem rounds_split (k : Nat) (c : BitVec w) :
    rounds poly k c = rounds poly k ((c.setWidth k).setWidth w) ^^^ (c >>> k) := by
  let low := (c.setWidth k).setWidth w
  have high : rounds poly k (low ^^^ c) = c >>> k := by
    rw [rounds_low]
    · apply BitVec.eq_of_getLsbD_eq
      intro i bound
      simp [low]
    · intro i inside
      have lowBit : low.getLsbD i = c.getLsbD i := by
        by_cases bound : i < w
        · simp [low,inside,bound]
        · rw [BitVec.getLsbD_of_ge low i (by omega),BitVec.getLsbD_of_ge c i (by omega)]
      rw [BitVec.getLsbD_xor,lowBit,Bool.xor_self]
  rw [← high,← rounds_xor,← BitVec.xor_assoc,BitVec.xor_self,BitVec.zero_xor]

theorem round_eq_zero (top : poly.getLsbD (w - 1) = true) (c : BitVec w)
    (zero : round poly c = 0#w) : c = 0#w := by
  unfold round at zero
  split at zero
  next one =>
    -- the shifted register has no top bit that could cancel the polynomial's
    have shifted := BitVec.xor_eq_zero_iff.mp zero
    rw [← shifted,BitVec.getLsbD_ushiftRight] at top
    rw [BitVec.getLsbD_of_ge c (1 + (w - 1)) (by omega)] at top
    cases top
  next low =>
    apply BitVec.eq_of_getLsbD_eq
    intro i bound
    rw [BitVec.getLsbD_zero]
    cases i with
    | zero => simpa using low
    | succ i =>
      have bit := congrArg (fun x : BitVec w => x.getLsbD i) zero
      simpa [Nat.add_comm] using bit

theorem round_injective (top : poly.getLsbD (w - 1) = true) : Function.Injective (round poly) := by
  intro a b same
  refine BitVec.xor_eq_zero_iff.mp (round_eq_zero poly top _ ?_)
  rw [round_xor,same,BitVec.xor_self]

theorem rounds_injective (top : poly.getLsbD (w - 1) = true) (k : Nat) :
    Function.Injective (rounds poly k) := by
  induction k with
  | zero => exact fun _ _ same => same
  | succ k ih => exact fun _ _ same => round_injective poly top (ih same)

theorem absorb_injective (top : poly.getLsbD (w - 1) = true) (symbol : BitVec n) :
    Function.Injective fun c => absorb poly c symbol := by
  intro a b same
  exact (BitVec.xor_left_inj _).mp (rounds_injective poly top n same)

/-- What follows cannot bring two registers together. -/
theorem foldl_absorb_injective (top : poly.getLsbD (w - 1) = true) (symbols : List (BitVec n)) :
    Function.Injective fun c => symbols.foldl (absorb poly) c := by
  induction symbols with
  | nil => exact fun _ _ same => same
  | cons symbol symbols ih => exact fun _ _ same => absorb_injective poly top symbol (ih same)

theorem word_high (symbols : List (BitVec n)) (i : Nat) (past : n * symbols.length ≤ i) :
    (word symbols : BitVec w).getLsbD i = false := by
  induction symbols generalizing i with
  | nil => simp [word]
  | cons symbol symbols ih =>
    rw [List.length_cons,Nat.mul_succ] at past
    simp only [word,BitVec.getLsbD_xor,BitVec.getLsbD_setWidth,BitVec.getLsbD_shiftLeft]
    rw [BitVec.getLsbD_of_ge symbol i (by omega),ih (i - n) (by omega)]
    simp

theorem word_shift (symbols : List (BitVec n)) (room : n * (symbols.length + 1) ≤ w) :
    ((word symbols : BitVec w) <<< n) >>> n = word symbols := by
  rw [Nat.mul_succ] at room
  apply BitVec.eq_of_getLsbD_eq
  intro i bound
  rw [BitVec.getLsbD_ushiftRight,BitVec.getLsbD_shiftLeft]
  by_cases inside : n + i < w
  · simp [inside]
  · rw [word_high symbols i (by omega)]
    simp [inside]

theorem word_low (symbol : BitVec n) (symbols : List (BitVec n)) (i : Nat) (low : i < n)
    (bound : i < w) : (word (symbol :: symbols) : BitVec w).getLsbD i = symbol.getLsbD i := by
  simp [word,low,bound]

theorem word_injective (first second : List (BitVec n)) (lengths : first.length = second.length)
    (fits : n * first.length ≤ w) (same : (word first : BitVec w) = word second) :
    first = second := by
  induction first generalizing second with
  | nil => exact (List.length_eq_zero_iff.mp lengths.symm).symm
  | cons a first ih =>
    cases second with
    | nil => cases lengths
    | cons b second =>
      have tails : first.length = second.length := Nat.succ.inj lengths
      rw [List.length_cons] at fits
      have head : a = b := by
        apply BitVec.eq_of_getLsbD_eq
        intro i low
        have bound : i < w := by rw [Nat.mul_succ] at fits; omega
        rw [← word_low a first i low bound,same,word_low b second i low bound]
      subst head
      have shifted : (word first : BitVec w) <<< n = word second <<< n :=
        (BitVec.xor_right_inj _).mp same
      have rest : (word first : BitVec w) = word second := by
        rw [← word_shift first fits,shifted,word_shift second (tails ▸ fits)]
      rw [ih second tails (by rw [Nat.mul_succ] at fits; omega) rest]

theorem foldl_absorb (symbols : List (BitVec n)) (fits : n * symbols.length ≤ w) (c : BitVec w) :
    symbols.foldl (absorb poly) c = rounds poly (n * symbols.length) (c ^^^ word symbols) := by
  induction symbols generalizing c with
  | nil => simp [word,rounds]
  | cons symbol symbols ih =>
    rw [List.length_cons] at fits
    -- the later symbols pass the first one's shifts untouched
    have later : word symbols = rounds poly n ((word symbols : BitVec w) <<< n) := by
      rw [rounds_low _ _ _ (by intro i low; simp [low]),word_shift symbols fits]
    have joined : absorb poly c symbol ^^^ word symbols =
        rounds poly n (c ^^^ word (symbol :: symbols)) := by
      conv => lhs; rw [later]
      rw [absorb,← rounds_xor,word,BitVec.xor_assoc]
    rw [List.foldl_cons,ih (by rw [Nat.mul_succ] at fits; omega),joined,← rounds_add,
      List.length_cons,Nat.mul_succ,Nat.add_comm]

section

variable {α : Type} {old new : List α} {start width : Nat}

/-- `new` is `old` with a change that is confined to `width` symbols from `start` on. -/
structure Burst (old new : List α) (start width : Nat) : Prop where
  length : new.length = old.length
  outside : ∀ i, i < start ∨ start + width ≤ i → new[i]? = old[i]?
  changed : new ≠ old

theorem Burst.take_eq (burst : Burst old new start width) (k : Nat) (before : k ≤ start) :
    new.take k = old.take k := by
  refine List.ext_getElem? fun i => ?_
  rw [List.getElem?_take,List.getElem?_take]
  split
  · exact burst.outside i (.inl (by omega))
  · rfl

theorem Burst.drop_eq (burst : Burst old new start width) (k : Nat) (behind : start + width ≤ k) :
    new.drop k = old.drop k := by
  refine List.ext_getElem? fun i => ?_
  rw [List.getElem?_drop,List.getElem?_drop]
  exact burst.outside (k + i) (.inr (by omega))

theorem Burst.inside {front part back : List α} (burst : Burst (front ++ part ++ back) new start width)
    (low : front.length ≤ start) (high : start + width ≤ front.length + part.length) :
    ∃ part', new = front ++ part' ++ back ∧ Burst part part' (start - front.length) width := by
  let part' := (new.drop front.length).take part.length
  have before : new.take front.length = front := by
    rw [burst.take_eq _ low,List.append_assoc,List.take_left]
  have behind : new.drop (front.length + part.length) = back := by
    rw [burst.drop_eq _ high,← List.length_append,List.drop_left]
  have whole : new = front ++ part' ++ back := by
    rw [← before,← behind,← List.drop_drop,List.append_assoc,before,List.take_append_drop]
    conv => lhs; rw [← List.take_append_drop front.length new,before]
  have lengths : part'.length = part.length := by
    have total := burst.length
    rw [whole] at total
    simpa using total
  have middle {i : Nat} (x : List α) (short : i < x.length) :
      (front ++ x ++ back)[front.length + i]? = x[i]? := by
    rw [List.append_assoc,List.getElem?_append_right (by omega),Nat.add_sub_cancel_left,
      List.getElem?_append_left short]
  refine ⟨part',whole,lengths,?_,?_⟩
  · intro i apart
    by_cases short : i < part.length
    · have same := burst.outside (front.length + i) (by omega)
      rw [whole,middle part' (by omega),middle part short] at same
      exact same
    · rw [List.getElem?_eq_none (by omega),List.getElem?_eq_none (by omega)]
  · intro same
    exact burst.changed (by rw [whole,same])

theorem Burst.around {part part' : List α} (burst : Burst part part' start width) (front back : List α) :
    Burst (front ++ part ++ back) (front ++ part' ++ back) (front.length + start) width := by
  refine ⟨by simp [burst.length],?_,?_⟩
  · intro i apart
    by_cases before : i < front.length
    · rw [List.append_assoc,List.append_assoc,List.getElem?_append_left before,
        List.getElem?_append_left before]
    have past (x : List α) : (front ++ x ++ back)[i]? = (x ++ back)[i - front.length]? := by
      rw [List.append_assoc,List.getElem?_append_right (Nat.not_lt.mp before)]
    have lengths := burst.length
    rw [past,past,List.getElem?_append,List.getElem?_append,lengths]
    split
    · exact burst.outside _ (by omega)
    · rfl
  · intro same
    rw [List.append_assoc,List.append_assoc] at same
    exact burst.changed (List.append_cancel_right (List.append_cancel_left same))

end

/-- Bursts are seen. Symbols changed only in a stretch no longer than the register leave
a different register behind. -/
theorem foldl_absorb_burst (top : poly.getLsbD (w - 1) = true) {old new : List (BitVec n)}
    {start width : Nat} (burst : Burst old new start width) (fits : n * width ≤ w) (c : BitVec w) :
    new.foldl (absorb poly) c ≠ old.foldl (absorb poly) c := by
  let part (symbols : List (BitVec n)) := (symbols.drop start).take width
  have split (symbols : List (BitVec n)) : symbols =
      symbols.take start ++ (part symbols ++ symbols.drop (start + width)) := by
    rw [← List.drop_drop,List.take_append_drop,List.take_append_drop]
  have lengths : (part new).length = (part old).length := by
    simp [part,burst.length]
  have short : n * (part old).length ≤ w := by
    refine Nat.le_trans (Nat.mul_le_mul_left n ?_) fits
    exact List.length_take_le width _
  intro same
  rw [split new,split old,burst.take_eq _ (Nat.le_refl _),burst.drop_eq _ (Nat.le_refl _)] at same
  simp only [List.foldl_append] at same
  have inner := foldl_absorb_injective poly top _ same
  rw [foldl_absorb poly _ (lengths ▸ short),foldl_absorb poly _ short,lengths] at inner
  have words := (BitVec.xor_right_inj _).mp (rounds_injective poly top _ inner)
  have parts := word_injective _ _ lengths (lengths ▸ short) words
  refine burst.changed ?_
  rw [split new,split old,burst.take_eq _ (Nat.le_refl _),burst.drop_eq _ (Nat.le_refl _),parts]

end KvCache.CyclicCode
