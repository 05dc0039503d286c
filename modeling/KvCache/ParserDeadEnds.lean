import KvCache.ParserSoundness

/-! Whether what the reader waits for can still come. It returns `PARTIAL` for a string that
has not arrived and alike for bytes that no string begins with, and so there are buffers that
no further byte gets it past. -/
namespace KvCache

theorem free_of_findCrlf_none (data : Bytes) (none : findCrlf data = none) : ¬crlf <:+: data := by
  induction data using findCrlf.induct with
  | case1 a b rest here => simp [findCrlf,here] at none
  | case2 a b rest later ih =>
    rw [findCrlf,if_neg later,Option.map_eq_none_iff] at none
    rw [List.infix_cons_iff]
    rintro (front | inside)
    · rw [crlf,List.cons_prefix_cons,List.cons_prefix_cons] at front
      exact later ⟨front.1.symm,front.2.1.symm⟩
    · exact ih none inside
  | case3 data short =>
    intro inside
    have long := inside.length_le
    obtain _ | ⟨a,_ | ⟨b,rest⟩⟩ := data
    · simp [crlf] at long
    · simp [crlf] at long
    · exact short a b rest rfl

theorem readLine_found (buf : Bytes) (pos : Nat) (line : Bytes) (next : Nat)
    (read : readLine buf pos = some (line,next)) : findCrlf (buf.drop pos) = some line.length := by
  obtain ⟨n,found,ends⟩ := Option.map_eq_some_iff.mp read
  have stop : pos + n + 2 = next := (Prod.mk.inj ends).2
  have size := (readLine_split buf pos line next read).2.1
  rw [found]
  exact congrArg some (by omega)

/-- The first line that ends later is the bytes there are and more, or they are the line and
the first byte of its end. -/
theorem line_extends (data more line rest : Bytes) (none : findCrlf data = none)
    (found : findCrlf (data ++ more) = some line.length)
    (split : data ++ more = line ++ (crlf ++ rest)) : data <+: line ∨ data = line ++ [13#8] := by
  have ends := findCrlf_later data more line.length none found
  have front : data <+: line ++ (crlf ++ rest) := split ▸ List.prefix_append data more
  by_cases inside : data.length ≤ line.length
  · exact .inl (List.prefix_of_prefix_length_le front (List.prefix_append ..) inside)
  · have same : data.length = (line ++ [13#8]).length := by
      rw [List.length_append,List.length_singleton]
      omega
    have longer : line ++ [13#8] <+: line ++ (crlf ++ rest) := ⟨10#8 :: rest,by simp [crlf]⟩
    have both := List.prefix_of_prefix_length_le front longer (Nat.le_of_eq same)
    exact .inr (both.eq_of_length same)

theorem free_append (line more : Bytes) (free : ¬crlf <:+: line) (none : 10#8 ∉ more) :
    ¬crlf <:+: line ++ more := by
  induction more using List.reverseRecOn with
  | nil => simpa using free
  | append_singleton more b ih =>
    rw [← List.append_assoc,List.infix_concat_iff]
    rintro (last | inside)
    · have same := last.getLast (by simp [crlf])
      simp [crlf] at same
      simp [← same] at none
    · exact ih (fun found => none (by simp [found])) inside

/-- The text is a number that is accepted, or a digit may still be its first. -/
def numberOpen (accepts : Int → Bool) (text : Bytes) : Bool :=
  decide (stoi (text ++ [48#8]) = .ok 0) ||
    match stoi text with
    | .error _ => false
    | .ok n => accepts n

theorem numberOpen_iff (accepts : Int → Bool) (text : Bytes) :
    numberOpen accepts text = true ↔
      stoi (text ++ [48#8]) = .ok 0 ∨ ∃ n, stoi text = .ok n ∧ accepts n = true := by
  unfold numberOpen
  cases stoi text <;> simp

theorem number_completes (accepts : Int → Bool) (zero : accepts 0 = true) (mark : Byte) (text : Bytes)
    (free : ¬crlf <:+: mark :: text) (isOpen : numberOpen accepts text = true) :
    ∃ suffix n, suffix.length ≤ 1 ∧ stoi (text ++ suffix) = .ok n ∧ accepts n = true ∧
      ¬crlf <:+: mark :: (text ++ suffix) := by
  rcases (numberOpen_iff accepts text).mp isOpen with digit | ⟨n,number,accepted⟩
  · exact ⟨[48#8],0,by simp,digit,zero,free_append _ [48#8] free (by decide)⟩
  · exact ⟨[],n,by simp,by simpa using number,accepted,by simpa using free⟩

theorem number_extends (mark : Byte) (text more text' rest : Bytes) (n : Int)
    (unended : findCrlf (mark :: text) = none)
    (found : findCrlf (mark :: text ++ more) = some (mark :: text').length)
    (split : mark :: text ++ more = mark :: text' ++ (crlf ++ rest)) (read : stoi text' = .ok n) :
    stoi (text ++ [48#8]) = .ok 0 ∨
      ∃ k, stoi text = .ok k ∧ (0 ≤ n → 0 ≤ k ∧ k ≤ n) ∧ (n < 0 → k ≤ 0) ∧
        (digitsEnded text = true → n = k) := by
  have extended := line_extends (mark :: text) more (mark :: text') rest unended found split
  rw [List.cons_append,List.cons_prefix_cons,List.cons.injEq] at extended
  rcases extended with ⟨-,later,rfl⟩ | ⟨-,rfl⟩
  · exact stoi_prefix text later n read
  · refine stoi_prefix _ [] n ?_
    rw [List.append_nil]
    exact stoi_stopped text' 13#8 (by decide) [] n read

/-- The position of the string that is missing, and the number of strings behind it. -/
def stall (buf : Bytes) : Nat → Nat → Option (Nat × Nat)
  | 0, _ => none
  | count + 1, pos =>
    match readBulkString buf pos with
    | .ok none => some (pos,count)
    | .ok (some (_,next)) => stall buf count next
    | .error _ => none

theorem stall_of_none (buf : Bytes) (count pos : Nat) (none : readTokens buf count pos = .ok none) :
    ∃ p left, stall buf count pos = some (p,left) := by
  induction count generalizing pos with
  | zero => cases none
  | succ count ih =>
    rw [stall]
    rcases (readTokens_none_iff buf count pos).mp none with here | ⟨token,next,read,later⟩
    · exact ⟨pos,count,by rw [here]⟩
    · rw [read]
      exact ih next later

theorem stall_waits (buf : Bytes) (storable : Storable buf) (count pos p left : Nat)
    (inside : pos ≤ buf.length) (stalled : stall buf count pos = some (p,left)) :
    readBulkString buf p = .ok none ∧ p ≤ buf.length ∧ left < count := by
  induction count generalizing pos with
  | zero => cases stalled
  | succ count ih =>
    rw [stall] at stalled
    rcases read : readBulkString buf pos with e | _ | ⟨token,next⟩ <;> rw [read] at stalled
    · cases stalled
    · cases stalled
      exact ⟨read,inside,Nat.lt_succ_self _⟩
    · obtain ⟨text,start,len,-,-,after⟩ := (readBulkString_some_iff buf storable ..).mp read
      obtain ⟨-,-,within,-,-,rfl⟩ := (afterLength_some_iff ..).mp after
      obtain ⟨waits,behind,fewer⟩ := ih _ (by omega) stalled
      exact ⟨waits,behind,Nat.lt_succ_of_lt fewer⟩

section

variable {buf more : Bytes} (storable : Storable (buf ++ more))
include storable

theorem storable_front : Storable buf := by
  have longer : (buf ++ more).length < 2 ^ 63 := storable
  rw [List.length_append] at longer
  exact Nat.lt_of_le_of_lt (Nat.le_add_right _ _) longer

theorem readBulkString_extends (pos : Nat) (token : Bytes) (next : Nat)
    (read : readBulkString buf pos = .ok (some (token,next))) :
    ∃ token', readBulkString (buf ++ more) pos = .ok (some (token',next)) := by
  obtain ⟨text,start,len,line,number,after⟩ :=
    (readBulkString_some_iff buf (storable_front storable) ..).mp read
  obtain ⟨notNull,forward,inside,small,-,stop⟩ := (afterLength_some_iff ..).mp after
  refine ⟨_,(readBulkString_some_iff _ storable ..).mpr ⟨text,start,len,
    lengthLine_append buf more pos _ line,number,(afterLength_some_iff ..).mpr
      ⟨notNull,forward,?_,small,rfl,stop⟩⟩⟩
  rw [List.length_append]
  omega

theorem readTokens_stalled (count pos p left : Nat) (stalled : stall buf count pos = some (p,left)) :
    ∃ before : List Bytes, before.length + (left + 1) = count ∧
      ∀ tokens last, readTokens (buf ++ more) count pos = .ok (some (tokens,last)) ↔
        ∃ rest, readTokens (buf ++ more) (left + 1) p = .ok (some (rest,last)) ∧
          tokens = before ++ rest := by
  induction count generalizing pos with
  | zero => cases stalled
  | succ count ih =>
    rw [stall] at stalled
    rcases read : readBulkString buf pos with e | _ | ⟨token,next⟩ <;> rw [read] at stalled
    · cases stalled
    · cases stalled
      exact ⟨[],by simp,by simp⟩
    · obtain ⟨token',again⟩ := readBulkString_extends storable pos token next read
      obtain ⟨before,length,same⟩ := ih next stalled
      refine ⟨token' :: before,by simp; omega,fun tokens last => ?_⟩
      simp only [readTokens_some_iff (buf ++ more) count pos,again,Except.ok.injEq,Option.some.injEq,
        Prod.mk.injEq]
      constructor
      · rintro ⟨_,_,later,⟨rfl,rfl⟩,strings,rfl⟩
        obtain ⟨rest,found,rfl⟩ := (same later last).mp strings
        exact ⟨rest,found,rfl⟩
      · rintro ⟨rest,found,rfl⟩
        exact ⟨token',next,before ++ rest,⟨rfl,rfl⟩,(same _ last).mpr ⟨rest,found,rfl⟩,rfl⟩

end

def lengthFits (len : Int) : Bool := decide (0 ≤ len) && decide (len < 2 ^ 31 - 2)

theorem lengthFits_iff (len : Int) : lengthFits len = true ↔ 0 ≤ len ∧ len < 2 ^ 31 - 2 := by
  simp [lengthFits]

/-- The string at `pos` can still arrive: nothing of it is there, or its mark is, and a length
that fits or may become one. The name of a query that has arrived without its key cannot. -/
def stringOpen (buf : Bytes) (alone : Bool) (pos : Nat) : Bool :=
  match buf.drop pos with
  | [] => true
  | mark :: text =>
    mark = 36#8 &&
      match lengthLine buf pos with
      | none => numberOpen lengthFits text
      | some (text,start) =>
        match stoi text with
        | .error _ => false
        | .ok len => lengthFits len &&
            !(alone && decide (start + len.toNat ≤ buf.length) &&
              loneQuery [(buf.drop start).take len.toNat])

theorem loneQuery_of_zero (token : Bytes) (zero : 0#8 ∈ token) : loneQuery [token] = false := by
  have unknown : commandNamed token = none := by
    rw [commandNamed,List.find?_eq_none]
    intro type _ same
    have upper : 0#8 ∈ toUpper token := List.mem_map.mpr ⟨0#8,zero,by decide⟩
    rw [of_decide_eq_true same] at upper
    cases type <;> revert upper <;> decide
  simp [loneQuery,unknown]

def filling (buf : Bytes) (stop : Nat) : Bytes := List.replicate (stop - buf.length) 0#8

theorem length_filled (buf : Bytes) (stop : Nat) (behind : buf.length ≤ stop) :
    (buf ++ filling buf stop).length = stop := by
  simp only [filling,List.length_append,List.length_replicate]
  omega

/-- Behind its length line a string is complete once enough bytes are there, of any value. -/
theorem string_filled (buf : Bytes) (pos : Nat) (text : Bytes) (start : Nat) (len : Int)
    (line : lengthLine buf pos = some (text,start)) (number : stoi text = .ok len)
    (fits : lengthFits len = true) (short : buf.length < start + len.toNat + 2) (rest : Bytes)
    (storable : Storable (buf ++ (filling buf (start + len.toNat + 2) ++ rest))) :
    ∃ token, readBulkString (buf ++ (filling buf (start + len.toNat + 2) ++ rest)) pos =
        .ok (some (token,start + len.toNat + 2)) ∧
      (0#8 ∈ token ∨ start + len.toNat ≤ buf.length ∧ token = (buf.drop start).take len.toNat) := by
  obtain ⟨low,high⟩ := (lengthFits_iff len).mp fits
  have behind := (lengthLine_split buf pos text start line).2.2
  have longer (more : Bytes) : (buf ++ more).drop start = buf.drop start ++ more :=
    List.drop_append_of_le_length behind
  refine ⟨(buf.drop start ++ (filling buf (start + len.toNat + 2) ++ rest)).take len.toNat,?_,?_⟩
  · refine (readBulkString_some_iff _ storable ..).mpr ⟨text,start,len,
      lengthLine_append buf _ pos _ line,number,(afterLength_some_iff ..).mpr
        ⟨by omega,by omega,?_,by omega,?_,by omega⟩⟩
    · have total := length_filled buf (start + len.toNat + 2) (by omega)
      rw [← List.append_assoc,List.length_append,total]
      omega
    · rw [if_neg (by omega),longer]
  · by_cases arrived : start + len.toNat ≤ buf.length
    · refine .inr ⟨arrived,List.take_append_of_le_length ?_⟩
      rw [List.length_drop]
      omega
    · left
      -- the first of the zero bytes is part of the string
      obtain ⟨zeros,more⟩ : ∃ n, start + len.toNat + 2 - buf.length = n + 1 :=
        Nat.exists_eq_add_one_of_ne_zero (by omega)
      obtain ⟨wanted,some⟩ : ∃ n, len.toNat - (buf.drop start).length = n + 1 := by
        refine Nat.exists_eq_add_one_of_ne_zero ?_
        rw [List.length_drop]
        omega
      rw [List.take_append,some,filling,more,List.replicate_succ]
      simp

theorem length_of_waits (buf : Bytes) (storable : Storable buf) (pos : Nat) (text : Bytes) (start : Nat)
    (len : Int) (waits : readBulkString buf pos = .ok none)
    (line : lengthLine buf pos = some (text,start)) (number : stoi text = .ok len) :
    len = -1 ∨ start + len + 2 < 0 ∨ buf.length < start + len + 2 := by
  rw [readBulkString_eq buf storable,line] at waits
  simp only [number,afterLength] at waits
  split at waits
  next waited => exact waited
  next => split at waits <;> cases waits

theorem unended_of_lengthLine (buf : Bytes) (pos : Nat) (text : Bytes)
    (shape : buf.drop pos = 36#8 :: text) (unended : lengthLine buf pos = none) :
    findCrlf (36#8 :: text) = none := by
  have mark : buf[pos]? = some 36#8 := by rw [← List.head?_drop,shape]; rfl
  rw [lengthLine,if_pos mark,Option.map_eq_none_iff,readLine,Option.map_eq_none_iff,shape] at unended
  exact unended

theorem lengthLine_found (buf : Bytes) (pos : Nat) (text : Bytes) (start : Nat)
    (line : lengthLine buf pos = some (text,start)) :
    findCrlf (buf.drop pos) = some (36#8 :: text).length := by
  have size := (lengthLine_split buf pos text start line).2.1
  unfold lengthLine at line
  split at line
  · obtain ⟨⟨whole,next⟩,read,shape⟩ := Option.map_eq_some_iff.mp line
    obtain ⟨-,rfl⟩ := Prod.mk.inj shape
    have ends := (readLine_split buf pos whole next read).2.1
    rw [readLine_found buf pos whole next read,List.length_cons]
    exact congrArg some (by omega)
  · cases line

theorem drop_of_shape {buf : Bytes} {pos : Nat} {b : Byte} {text : Bytes} (shape : buf.drop pos = b :: text)
    (more : Bytes) : (buf ++ more).drop pos = b :: (text ++ more) := by
  have inside : pos < buf.length := by
    by_contra past
    simp [List.drop_eq_nil_of_le (Nat.le_of_not_lt past)] at shape
  rw [List.drop_append_of_le_length (Nat.le_of_lt inside),shape,List.cons_append]

theorem lengthLine_ended (buf : Bytes) (pos : Nat) (text suffix : Bytes)
    (shape : buf.drop pos = 36#8 :: text) (free : ¬crlf <:+: 36#8 :: (text ++ suffix)) :
    lengthLine (buf ++ (suffix ++ crlf)) pos =
      some (text ++ suffix,(buf ++ (suffix ++ crlf)).length) := by
  have split : (buf ++ (suffix ++ crlf)).drop pos = 36#8 :: (text ++ suffix ++ (crlf ++ [])) := by
    rw [drop_of_shape shape]
    simp
  rw [lengthLine_of_split _ pos (text ++ suffix) [] free split]
  have size := congrArg List.length shape
  simp only [List.length_drop,List.length_cons] at size
  simp only [List.length_append,crlf,List.length_cons,List.length_nil,Option.some.injEq,Prod.mk.injEq,
    true_and]
  omega

theorem lengthLine_completes (buf : Bytes) (pos : Nat) (text : Bytes)
    (shape : buf.drop pos = 36#8 :: text) (unended : lengthLine buf pos = none)
    (isOpen : numberOpen lengthFits text = true) :
    ∃ ending text' len, ending.length ≤ 3 ∧ stoi text' = .ok len ∧ lengthFits len = true ∧
      lengthLine (buf ++ ending) pos = some (text',(buf ++ ending).length) := by
  have free := free_of_findCrlf_none _ (unended_of_lengthLine buf pos text shape unended)
  obtain ⟨suffix,len,few,number,fits,free⟩ := number_completes lengthFits (by decide) 36#8 text free isOpen
  exact ⟨suffix ++ crlf,text ++ suffix,len,by simp [crlf]; omega,number,fits,
    lengthLine_ended buf pos text suffix shape free⟩

theorem string_of_openLength (buf : Bytes) (pos : Nat) (text : Bytes)
    (shape : buf.drop pos = 36#8 :: text) (unended : lengthLine buf pos = none)
    (isOpen : numberOpen lengthFits text = true) :
    ∃ string, string.length < 2 ^ 32 ∧ ∀ rest, Storable (buf ++ (string ++ rest)) →
      ∃ token, readBulkString (buf ++ (string ++ rest)) pos =
          .ok (some (token,(buf ++ string).length)) ∧
        loneQuery [token] = false := by
  obtain ⟨ending,text',len,few,read,fits,line⟩ := lengthLine_completes buf pos text shape unended isOpen
  obtain ⟨low,high⟩ := (lengthFits_iff len).mp fits
  let begun := buf ++ ending
  have filled := length_filled begun (begun.length + len.toNat + 2) (by omega)
  refine ⟨ending ++ filling begun (begun.length + len.toNat + 2),?_,fun rest room => ?_⟩
  · rw [List.length_append] at filled ⊢
    omega
  rw [List.append_assoc ending,← List.append_assoc buf] at room ⊢
  obtain ⟨token,string,known⟩ :=
    string_filled begun pos text' begun.length len line read fits (by omega) rest room
  have total : (buf ++ (ending ++ filling begun (begun.length + len.toNat + 2))).length =
      begun.length + len.toNat + 2 := by rw [← List.append_assoc]; exact filled
  refine ⟨token,?_,?_⟩
  · rw [total]
    exact string
  · rcases known with zero | ⟨-,rfl⟩
    · exact loneQuery_of_zero token zero
    · simp only [List.drop_length,List.take_nil]
      decide

theorem string_completes (buf : Bytes) (storable : Storable buf) (alone : Bool) (pos : Nat)
    (inside : pos ≤ buf.length) (waits : readBulkString buf pos = .ok none)
    (isOpen : stringOpen buf alone pos = true) :
    ∃ string, string.length < 2 ^ 32 ∧ ∀ rest, Storable (buf ++ (string ++ rest)) →
      ∃ token, readBulkString (buf ++ (string ++ rest)) pos =
          .ok (some (token,(buf ++ string).length)) ∧
        (alone = true → loneQuery [token] = false) := by
  unfold stringOpen at isOpen
  split at isOpen
  next empty =>
    obtain rfl : pos = buf.length :=
      Nat.le_antisymm inside (List.drop_eq_nil_iff.mp empty)
    refine ⟨bulk [],by decide,fun rest room => ⟨[],?_,fun _ => by decide⟩⟩
    refine readBulkString_front buf [] rest (by decide) ?_
    have longer : (buf ++ (bulk [] ++ rest)).length < 2 ^ 63 := room
    rw [← List.append_assoc,List.length_append] at longer
    omega
  next mark text shape =>
    obtain ⟨dollar,number⟩ := Bool.and_eq_true_iff.mp isOpen
    obtain rfl : mark = 36#8 := of_decide_eq_true dollar
    split at number
    next unended =>
      obtain ⟨string,short,arrives⟩ := string_of_openLength buf pos text shape unended number
      refine ⟨string,short,fun rest room => ?_⟩
      obtain ⟨token,read,named⟩ := arrives rest room
      exact ⟨token,read,fun _ => named⟩
    next text' start line =>
      split at number
      · cases number
      next len read =>
        obtain ⟨fits,named⟩ := Bool.and_eq_true_iff.mp number
        obtain ⟨low,high⟩ := (lengthFits_iff len).mp fits
        have waited := length_of_waits buf storable pos text' start len waits line read
        have short : buf.length < start + len.toNat + 2 := by omega
        have behind := (lengthLine_split buf pos text' start line).2.2
        refine ⟨filling buf (start + len.toNat + 2),?_,fun rest room => ?_⟩
        · rw [filling,List.length_replicate]
          omega
        obtain ⟨token,string,known⟩ := string_filled buf pos text' start len line read fits short rest room
        refine ⟨token,by rw [length_filled _ _ (Nat.le_of_lt short)]; exact string,fun lone => ?_⟩
        rcases known with zero | ⟨arrived,rfl⟩
        · exact loneQuery_of_zero token zero
        · simpa [lone,arrived] using named

/-- A negative length the reader gets past. It takes the position back by as many bytes, less
the two of a line end: behind the length line, or so far into it that a string can start there.
For the last string of an array the position does not matter. -/
def goesBack (left : Nat) (len : Int) : Bool :=
  decide (len = -2) || decide (len ≤ -6) || decide (left = 0) && decide (len < -1)

theorem goesBack_iff (left : Nat) (len : Int) :
    goesBack left len = true ↔ len = -2 ∨ len ≤ -6 ∨ left = 0 ∧ len < -1 := by
  simp [goesBack,or_assoc]

/-- The text of a length that has not ended is such a length, or a digit makes it one. -/
def backOpen (left : Nat) (text : Bytes) : Bool :=
  match stoi text with
  | .error _ => false
  | .ok len => goesBack left len || decide (len < 0) && !digitsEnded text

/-- The length of the string at `pos`, `left` strings before the last, can still become a
negative one that the reader gets past. -/
def lengthBack (buf : Bytes) (left pos : Nat) : Bool :=
  match buf.drop pos with
  | [] => false
  | mark :: text => mark = 36#8 && (lengthLine buf pos).isNone && backOpen left text

theorem back_chosen (left : Nat) (text : Bytes) (free : ¬crlf <:+: 36#8 :: text)
    (isOpen : backOpen left text = true) :
    ∃ suffix len, suffix.length ≤ 1 ∧ stoi (text ++ suffix) = .ok len ∧ goesBack left len = true ∧
      ¬crlf <:+: 36#8 :: (text ++ suffix) := by
  unfold backOpen at isOpen
  split at isOpen
  · cases isOpen
  next len read =>
    by_cases goes : goesBack left len = true
    · exact ⟨[],len,by simp,by simpa using read,goes,by simpa using free⟩
    · -- from -1 to -5, and a zero may be added
      simp only [goes,Bool.false_or,Bool.and_eq_true,decide_eq_true_eq,Bool.not_eq_true'] at isOpen
      rw [goesBack_iff] at goes
      refine ⟨[48#8],10 * len,by simp,stoi_tenfold text len read isOpen.2 (by omega) (by omega),?_,
        free_append _ [48#8] free (by decide)⟩
      exact (goesBack_iff ..).mpr (.inr (.inl (by omega)))

theorem stoi_padded (text : Bytes) (n : Nat) (len : Int) (read : stoi text = .ok len) :
    stoi (text ++ List.replicate n 0#8) = .ok len := by
  cases n with
  | zero => simpa using read
  | succ n => exact stoi_stopped text 0#8 (by decide) _ len read

theorem string_back (front : Bytes) (pos : Nat) (text : Bytes) (len : Int)
    (line : lengthLine front pos = some (text,front.length)) (number : stoi text = .ok len)
    (negative : len < -1) (next : Nat) (back : (front.length + len + 2 : Int) = next) (rest : Bytes)
    (storable : Storable (front ++ rest)) :
    readBulkString (front ++ rest) pos = .ok (some (rest,next)) := by
  refine (readBulkString_some_iff _ storable ..).mpr ⟨text,front.length,len,
    lengthLine_append front rest pos _ line,number,(afterLength_some_iff ..).mpr
      ⟨by omega,by omega,?_,by omega,?_,by omega⟩⟩
  · rw [List.length_append]
    omega
  · rw [if_pos (by omega),List.drop_left]

theorem string_padded (front rest : Bytes) (n : Nat)
    (storable : Storable (front ++ (36#8 :: 48#8 :: List.replicate n 0#8 ++ (crlf ++ (crlf ++ rest))))) :
    readBulkString (front ++ (36#8 :: 48#8 :: List.replicate n 0#8 ++ (crlf ++ (crlf ++ rest))))
      front.length = .ok (some ([],front.length + n + 6)) := by
  have free : ¬crlf <:+: 36#8 :: 48#8 :: List.replicate n 0#8 :=
    free_append [36#8,48#8] _ (by decide) (by simp)
  have line := lengthLine_of_split _ front.length (48#8 :: List.replicate n 0#8) (crlf ++ rest) free
    List.drop_left
  refine (readBulkString_some_iff _ storable ..).mpr ⟨_,_,0,line,stoi_padded [48#8] n 0 rfl,
    (afterLength_some_iff ..).mpr ⟨by omega,by omega,?_,by omega,by simp,?_⟩⟩
  · simp [crlf]
    omega
  · simp
    omega

def emptyStrings (n : Nat) : Bytes := (List.replicate n []).flatMap bulk

theorem emptyStrings_length (n : Nat) : (emptyStrings n).length = n * 6 := by
  have six : (bulk []).length = 6 := by decide
  simp [emptyStrings,List.flatMap_replicate,six]

theorem readTokens_emptyStrings (front : Bytes) (n : Nat) (room : (front ++ emptyStrings n).length < 2 ^ 64) :
    ∃ last, readTokens (front ++ emptyStrings n) n front.length =
      .ok (some (List.replicate n [],last)) := by
  have read := readTokens_front front (List.replicate n []) [] (by simp [Readable]) room
  rw [List.append_nil,List.length_replicate] at read
  exact ⟨_,read⟩

section

variable {buf text : Bytes} {pos : Nat} {len : Int} (room : buf.length < 2 ^ 62 + 2)
  (shape : buf.drop pos = 36#8 :: text) (free : ¬crlf <:+: 36#8 :: text) (number : stoi text = .ok len)
include room shape free number

theorem back_alone (negative : len < -1) :
    ∃ more last, Storable (buf ++ more) ∧ readTokens (buf ++ more) 1 pos = .ok (some ([[]],last)) := by
  obtain ⟨-,-,low,-⟩ := (stoi_ok_iff ..).mp number
  let pad := List.replicate len.natAbs 0#8
  have line := lengthLine_ended buf pos text pad shape (free_append _ pad free (by simp [pad]))
  have size : (buf ++ (pad ++ crlf)).length = buf.length + len.natAbs + 2 := by
    simp [pad,crlf]
    omega
  have total : Storable (buf ++ (pad ++ crlf) ++ []) := by
    rw [List.append_nil,Storable,size]
    omega
  have read := string_back _ pos _ len line (stoi_padded text len.natAbs len number) negative
    (buf.length + 4) (by rw [size]; omega) [] total
  rw [List.append_nil] at read total
  exact ⟨_,_,total,(readTokens_some_iff ..).mpr ⟨[],_,[],read,rfl,rfl⟩⟩

/-- After the length -2 the next string is read right behind the line. -/
theorem back_behind (two : len = -2) (left : Nat) (few : left < 2 ^ 31) :
    ∃ more tokens last, Storable (buf ++ more) ∧
      readTokens (buf ++ more) (left + 1) pos = .ok (some (tokens,last)) := by
  have line := lengthLine_ended buf pos text [] shape (by simpa using free)
  rw [List.append_nil,List.nil_append] at line
  have total : Storable (buf ++ crlf ++ emptyStrings left) := by
    simp only [Storable,List.length_append,emptyStrings_length,crlf,List.length_cons,List.length_nil]
    omega
  have read := string_back _ pos _ len line number (by omega) (buf ++ crlf).length (by omega) _ total
  obtain ⟨last,rest⟩ := readTokens_emptyStrings (buf ++ crlf) left (Nat.lt_trans total (by decide))
  rw [List.append_assoc] at read rest total
  exact ⟨_,_,last,total,(readTokens_some_iff ..).mpr ⟨_,_,_,read,rest,rfl⟩⟩

/-- From -6 on the next string can be part of the line: its mark and length end the line. -/
theorem back_inside (far : len ≤ -6) (left : Nat) (few : left < 2 ^ 31) :
    ∃ more tokens last, Storable (buf ++ more) ∧
      readTokens (buf ++ more) (left + 2) pos = .ok (some (tokens,last)) := by
  obtain ⟨-,-,low,-⟩ := (stoi_ok_iff ..).mp number
  obtain ⟨n,rfl⟩ : ∃ n : Nat, len = -(n + 6) := ⟨(-len - 6).toNat,by omega⟩
  let inner := 36#8 :: 48#8 :: List.replicate n 0#8
  have line := lengthLine_ended buf pos text inner shape (free_append _ inner free (by simp [inner]))
  have start : (buf ++ (inner ++ crlf)).length = buf.length + n + 4 := by
    simp [inner,crlf]
    omega
  have stop : (buf ++ (inner ++ (crlf ++ crlf))).length = buf.length + n + 6 := by
    simp [inner,crlf]
    omega
  have outer : buf ++ (inner ++ crlf) ++ (crlf ++ emptyStrings left) =
      buf ++ (inner ++ (crlf ++ (crlf ++ emptyStrings left))) := by simp
  have behind : buf ++ (inner ++ (crlf ++ crlf)) ++ emptyStrings left =
      buf ++ (inner ++ (crlf ++ (crlf ++ emptyStrings left))) := by simp
  have total : Storable (buf ++ (inner ++ (crlf ++ (crlf ++ emptyStrings left)))) := by
    rw [← behind,Storable,List.length_append,stop,emptyStrings_length]
    omega
  have read := string_back _ pos _ _ line (stoi_stopped text 36#8 (by decide) _ _ number) (by omega)
    buf.length (by rw [start]; omega) (crlf ++ emptyStrings left) (outer ▸ total)
  have second := string_padded buf (emptyStrings left) n total
  obtain ⟨last,rest⟩ := readTokens_emptyStrings (buf ++ (inner ++ (crlf ++ crlf))) left
    (Nat.lt_trans (behind ▸ total) (by decide))
  rw [stop,behind] at rest
  rw [outer] at read
  exact ⟨_,_,last,total,(readTokens_some_iff ..).mpr ⟨_,_,_,read,
    (readTokens_some_iff ..).mpr ⟨_,_,_,second,rest,rfl⟩,rfl⟩⟩

end

theorem back_completes (buf : Bytes) (room : buf.length < 2 ^ 62) (left pos : Nat) (few : left < 2 ^ 31)
    (isOpen : lengthBack buf left pos = true) :
    ∃ more tokens last, Storable (buf ++ more) ∧
      readTokens (buf ++ more) (left + 1) pos = .ok (some (tokens,last)) ∧ (left = 0 → tokens = [[]]) := by
  unfold lengthBack at isOpen
  split at isOpen
  · cases isOpen
  next mark text shape =>
    simp only [Bool.and_eq_true,decide_eq_true_eq,Option.isNone_iff_eq_none] at isOpen
    obtain ⟨⟨rfl,unended⟩,back⟩ := isOpen
    have free := free_of_findCrlf_none _ (unended_of_lengthLine buf pos text shape unended)
    obtain ⟨suffix,len,short,number,goes,free⟩ := back_chosen left text free back
    have shape' := drop_of_shape shape suffix
    have room' : (buf ++ suffix).length < 2 ^ 62 + 2 := by
      rw [List.length_append]
      omega
    rw [goesBack_iff] at goes
    cases left with
    | zero =>
      obtain ⟨more,last,total,read⟩ := back_alone room' shape' free number (by omega)
      rw [List.append_assoc] at total read
      exact ⟨_,_,last,total,read,fun _ => rfl⟩
    | succ left =>
      by_cases two : len = -2
      · obtain ⟨more,tokens,last,total,read⟩ := back_behind room' shape' free number two (left + 1) few
        rw [List.append_assoc] at total read
        exact ⟨_,_,last,total,read,by simp⟩
      · obtain ⟨more,tokens,last,total,read⟩ :=
          back_inside room' shape' free number (by omega) left (by omega)
        rw [List.append_assoc] at total read
        exact ⟨_,_,last,total,read,by simp⟩

theorem no_string_at_line_end (buf : Bytes) (storable : Storable buf) (pos : Nat) (text : Bytes)
    (start : Nat) (line : lengthLine buf pos = some (text,start)) (some : text ≠ []) (d : Nat)
    (few : 1 ≤ d ∧ d ≤ 3) (token : Bytes) (next : Nat) :
    readBulkString buf (start - d) ≠ .ok (Option.some (token,next)) := by
  intro read
  obtain ⟨text',start',len,line',number,-⟩ := (readBulkString_some_iff buf storable ..).mp read
  obtain ⟨split,ends,-⟩ := lengthLine_split buf pos text start line
  obtain ⟨split',-,-⟩ := lengthLine_split buf _ text' start' line'
  obtain ⟨init,b,rfl⟩ : ∃ init b, text = init ++ [b] :=
    ⟨text.dropLast,text.getLast some,(List.dropLast_append_getLast some).symm⟩
  rw [List.length_append,List.length_singleton] at ends
  have close : buf.drop (start - 3) = b :: (crlf ++ buf.drop start) := by
    have same := congrArg (List.drop (init.length + 1)) split
    rw [List.drop_drop,show pos + (init.length + 1) = start - 3 by omega] at same
    simpa using same
  have dropped (n : Nat) : buf.drop (start - 3 + n) = (b :: (crlf ++ buf.drop start)).drop n := by
    rw [← close,List.drop_drop]
  obtain rfl | rfl | rfl : d = 1 ∨ d = 2 ∨ d = 3 := by omega
  · rw [show start - 1 = start - 3 + 2 by omega,dropped] at split'
    simp [crlf] at split'
  · rw [show start - 2 = start - 3 + 1 by omega,dropped] at split'
    simp [crlf] at split'
  · -- the mark may be the last byte of the line, but then the length is empty
    rw [close] at split'
    obtain rfl : b = 36#8 := (List.cons.inj split').1
    cases (lengthLine_of_split buf _ [] _ (by decide) close).symm.trans line'
    cases number

/-- The length of a string has not ended. If it cannot become one that fits, nor lead back, the
strings behind it do not arrive. -/
theorem length_lost (buf more : Bytes) (storable : Storable (buf ++ more)) (left pos : Nat) (text : Bytes)
    (shape : buf.drop pos = 36#8 :: text) (unended : lengthLine buf pos = none)
    (closed : numberOpen lengthFits text = false) (stays : backOpen left text = false)
    (token : Bytes) (next : Nat) (rest : List Bytes) (last : Nat)
    (read : readBulkString (buf ++ more) pos = .ok (some (token,next)))
    (others : readTokens (buf ++ more) left next = .ok (some (rest,last))) : False := by
  obtain ⟨whole,start,len,line,number,after⟩ := (readBulkString_some_iff _ storable ..).mp read
  obtain ⟨notNull,forward,within,small,content,ends⟩ := (afterLength_some_iff ..).mp after
  have later := lengthLine_found _ pos whole start line
  obtain ⟨split,-,-⟩ := lengthLine_split _ pos whole start line
  rw [drop_of_shape shape] at later split
  have extended := number_extends 36#8 text more whole _ len
    (unended_of_lengthLine buf pos text shape unended) later split number
  rw [← Bool.not_eq_true,numberOpen_iff] at closed
  obtain ⟨k,read',positive,negative,ended⟩ := extended.resolve_left fun digit => closed (.inl digit)
  have unfit : ¬(0 ≤ k ∧ k < 2 ^ 31 - 2) := fun fits => closed (.inr ⟨k,read',(lengthFits_iff k).mpr fits⟩)
  have minus : len < 0 := by
    by_contra plus
    have bounds := positive (by omega)
    omega
  have minus' := negative minus
  simp only [backOpen,read',Bool.or_eq_false_iff,Bool.and_eq_false_iff,decide_eq_false_iff_not,
    Bool.not_eq_false'] at stays
  obtain rfl := ended (stays.2.resolve_left (by omega))
  have away := stays.1
  rw [← Bool.not_eq_true,goesBack_iff] at away
  -- from -3 to -5, and not the last string: the next one would begin in the end of the line
  obtain ⟨left,rfl⟩ : ∃ n, left = n + 1 := Nat.exists_eq_succ_of_ne_zero (by omega)
  obtain ⟨token',next',rest',second,-⟩ := (readTokens_some_iff ..).mp others
  have some : whole ≠ [] := by
    rintro rfl
    cases number
  have near : next = start - (-2 - len).toNat := by omega
  rw [near] at second
  exact no_string_at_line_end _ storable pos whole start line some (-2 - len).toNat (by omega) _ _ second

/-- A string that is not open, and whose length cannot lead back, never arrives with the strings
behind it, but for the name of a query without its key. -/
theorem string_lost (buf more : Bytes) (storable : Storable (buf ++ more)) (alone : Bool) (left pos : Nat)
    (waits : readBulkString buf pos = .ok none) (closed : stringOpen buf alone pos = false)
    (stays : lengthBack buf left pos = false)
    (token : Bytes) (next : Nat) (rest : List Bytes) (last : Nat)
    (read : readBulkString (buf ++ more) pos = .ok (some (token,next)))
    (others : readTokens (buf ++ more) left next = .ok (some (rest,last))) :
    alone = true ∧ loneQuery [token] = true := by
  have front := storable_front storable
  obtain ⟨text,start,len,line,number,after⟩ := (readBulkString_some_iff _ storable ..).mp read
  obtain ⟨notNull,forward,within,small,content,ends⟩ := (afterLength_some_iff ..).mp after
  unfold stringOpen at closed
  unfold lengthBack at stays
  split at closed
  · cases closed
  next mark text' shape =>
    obtain rfl : mark = 36#8 := by
      obtain ⟨split,-,-⟩ := lengthLine_split _ pos text start line
      rw [drop_of_shape shape] at split
      exact (List.cons.inj split).1
    simp only [decide_true,Bool.true_and] at closed
    split at closed
    next unended =>
      simp only [shape,unended,decide_true,Option.isNone_none,Bool.true_and] at stays
      exact (length_lost buf more storable left pos text' shape unended closed stays token next rest last
        read others).elim
    next text' start' line' =>
      cases (lengthLine_append buf more pos _ line').symm.trans line
      have behind := (lengthLine_split buf pos text start line').2.2
      have waited := length_of_waits buf front pos text start len waits line' number
      have fits : lengthFits len = true := (lengthFits_iff len).mpr ⟨by omega,by omega⟩
      obtain ⟨low,-⟩ := (lengthFits_iff len).mp fits
      simp only [number,fits,Bool.true_and,Bool.not_eq_false',Bool.and_eq_true,decide_eq_true_eq]
        at closed
      obtain ⟨⟨lone,there⟩,query⟩ := closed
      refine ⟨lone,?_⟩
      rw [content,if_neg (by omega),List.drop_append_of_le_length behind,
        List.take_append_of_le_length (by rw [List.length_drop]; omega)]
      exact query

/-- The number of strings of the array, the position of the one that is missing, and the number
of those behind it. -/
def waitsAt (buf : Bytes) : Option (Nat × Nat × Nat) :=
  (countLine buf).bind fun line =>
    match stoi line.1 with
    | .error _ => none
    | .ok count => (stall buf count.toNat line.2).map fun missing => (count.toNat,missing)

/-- What is waited for, a string or the end of the first line, can still arrive. -/
def completable (buf : Bytes) : Bool :=
  match waitsAt buf with
  | some (count,pos,left) => stringOpen buf (count = 1) pos || lengthBack buf left pos
  | none => buf.head? ≠ some 42#8 || numberOpen (fun _ => true) buf.tail

/-- Some bytes make the call return a command or a protocol error. -/
def Answerable (buf : Bytes) : Prop :=
  ∃ more result rest, Storable (buf ++ more) ∧
    RespReader.tryParse ⟨buf ++ more⟩ = .ok result ⟨rest⟩ ∧ result ≠ .PARTIAL

theorem loneQuery_of_length (tokens : List Bytes) (several : tokens.length ≠ 1) :
    loneQuery tokens = false := by
  obtain _ | ⟨name,_ | ⟨arg,args⟩⟩ := tokens
  · rfl
  · exact absurd rfl several
  · rfl

theorem answerable_of_outcome (buf more : Bytes) (storable : Storable (buf ++ more))
    (result : ParseResult) (rest : Bytes)
    (ends : RespReader.Outcome (buf ++ more) (.ok result ⟨rest⟩)) (goes : result ≠ .PARTIAL) :
    Answerable buf :=
  ⟨more,result,rest,storable,ends.run,goes⟩

theorem answerable_of_tokens (buf more : Bytes) (storable : Storable (buf ++ more))
    (text : Bytes) (start : Nat) (count : Int) (found : countLine (buf ++ more) = some (text,start))
    (number : stoi text = .ok count) (positive : 0 < count) (tokens : List Bytes) (last : Nat)
    (read : readTokens (buf ++ more) count.toNat start = .ok (some (tokens,last)))
    (lone : loneQuery tokens = false) : Answerable buf := by
  have strings := (tokensOf_some_iff ..).mpr ⟨text,start,count,found,number,positive,read⟩
  obtain ⟨cmd,built,-⟩ := commandOf_counted tokens (tokensOf_ne_nil _ tokens last strings) lone
  exact answerable_of_outcome buf more storable _ _ (.command tokens last cmd strings built) (by simp)

theorem count_completes (text : Bytes) (room : (42#8 :: text).length < 2 ^ 62)
    (free : ¬crlf <:+: 42#8 :: text) (isOpen : numberOpen (fun _ => true) text = true) :
    Answerable (42#8 :: text) := by
  obtain ⟨suffix,count,few,number,-,free⟩ := number_completes _ rfl 42#8 text free isOpen
  obtain ⟨-,-,-,high⟩ := (stoi_ok_iff ..).mp number
  let front := 42#8 :: (text ++ suffix ++ crlf)
  have regroup (rest : Bytes) : 42#8 :: text ++ (suffix ++ (crlf ++ rest)) = front ++ rest := by
    simp [front]
  have found (rest : Bytes) : countLine (front ++ rest) = some (text ++ suffix,front.length) := by
    refine (countLine_of_split _ (text ++ suffix) rest free (by simp [front])).trans ?_
    simp [front,crlf]
    omega
  have size : front.length ≤ 2 ^ 62 + 3 := by
    simp only [front,List.length_cons,List.length_append,crlf,List.length_nil] at room ⊢
    omega
  by_cases positive : 0 < count
  · have total : Storable (front ++ emptyStrings count.toNat) := by
      rw [Storable,List.length_append,emptyStrings_length]
      omega
    obtain ⟨last,read⟩ := readTokens_emptyStrings front count.toNat (Nat.lt_trans total (by decide))
    have header := found (emptyStrings count.toNat)
    rw [← regroup] at total read header
    refine answerable_of_tokens _ _ total _ _ count header number positive _ last read ?_
    by_cases one : count.toNat = 1
    · rw [one]
      decide
    · exact loneQuery_of_length _ (by simpa using one)
  · have ends := RespReader.Outcome.notPositive _ _ count (found []) number (by omega)
    have total : Storable (front ++ []) := by
      rw [Storable,List.append_nil]
      omega
    rw [← regroup] at ends total
    exact answerable_of_outcome _ _ total _ _ ends (by simp)

theorem line_completes (buf : Bytes) (room : buf.length < 2 ^ 62) (unended : findCrlf buf = none)
    (isOpen : (buf.head? ≠ some 42#8 || numberOpen (fun _ => true) buf.tail) = true) :
    Answerable buf := by
  have free := free_of_findCrlf_none buf unended
  by_cases mark : buf.head? = some 42#8
  · obtain ⟨text,rfl⟩ := List.head?_eq_some_iff.mp mark
    exact count_completes text room free (by simpa using isOpen)
  · have line := readLine_of_split (buf ++ crlf) 0 buf [] free (by simp)
    refine answerable_of_outcome buf crlf ?_ _ _ (.noArray buf _ line mark) (by simp)
    simp only [Storable,List.length_append,crlf,List.length_cons,List.length_nil]
    omega

theorem strings_complete (buf : Bytes) (room : buf.length < 2 ^ 62) (alone : Bool) (left pos : Nat)
    (few : left < 2 ^ 31) (inside : pos ≤ buf.length) (waits : readBulkString buf pos = .ok none)
    (isOpen : (stringOpen buf alone pos || lengthBack buf left pos) = true) :
    ∃ more tokens last, Storable (buf ++ more) ∧
      readTokens (buf ++ more) (left + 1) pos = .ok (some (tokens,last)) ∧
      (alone = true → left = 0 → loneQuery tokens = false) := by
  have storable : Storable buf := Nat.lt_trans room (by decide)
  rcases Bool.or_eq_true_iff.mp isOpen with arrives | back
  · obtain ⟨string,short,completed⟩ := string_completes buf storable alone pos inside waits arrives
    have total : Storable (buf ++ (string ++ emptyStrings left)) := by
      rw [Storable,List.length_append,List.length_append,emptyStrings_length]
      omega
    obtain ⟨token,read,named⟩ := completed (emptyStrings left) total
    obtain ⟨last,rest⟩ := readTokens_emptyStrings (buf ++ string) left
      (by rw [List.append_assoc]; exact Nat.lt_trans total (by decide))
    rw [List.append_assoc] at rest
    refine ⟨_,_,last,total,(readTokens_some_iff _ left pos _ last).mpr ⟨token,_,_,read,rest,rfl⟩,?_⟩
    rintro lone rfl
    exact named lone
  · obtain ⟨more,tokens,last,total,read,empty⟩ := back_completes buf room left pos few back
    refine ⟨more,tokens,last,total,read,fun _ none => ?_⟩
    rw [empty none]
    decide

theorem array_completes (buf : Bytes) (room : buf.length < 2 ^ 62) (text : Bytes) (start : Nat)
    (count : Int) (found : countLine buf = some (text,start)) (number : stoi text = .ok count)
    (positive : 0 < count) (pos left : Nat) (stalled : stall buf count.toNat start = some (pos,left))
    (isOpen : (stringOpen buf (count.toNat = 1) pos || lengthBack buf left pos) = true) :
    Answerable buf := by
  have storable : Storable buf := Nat.lt_trans room (by decide)
  obtain ⟨-,-,inside⟩ := countLine_split buf text start found
  obtain ⟨-,-,-,high⟩ := (stoi_ok_iff ..).mp number
  obtain ⟨waits,behind,fewer⟩ := stall_waits buf storable _ start pos left inside stalled
  obtain ⟨more,tokens,last,total,strings,named⟩ :=
    strings_complete buf room _ left pos (by omega) behind waits isOpen
  obtain ⟨before,length,same⟩ := readTokens_stalled total _ _ _ _ stalled
  refine answerable_of_tokens buf more total text start count (countLine_append buf _ _ found) number
    positive _ last ((same _ last).mpr ⟨tokens,strings,rfl⟩) ?_
  by_cases one : count.toNat = 1
  · obtain rfl : before = [] := List.length_eq_zero_iff.mp (by omega)
    exact named (by simpa using one) (by omega)
  · have size := readTokens_length _ _ _ tokens last strings
    exact loneQuery_of_length _ (by simp; omega)

theorem count_lost (text more : Bytes) (unended : findCrlf (42#8 :: text) = none)
    (closed : numberOpen (fun _ => true) text = false) (result : ParseResult) (rest : Bytes)
    (ran : RespReader.tryParse ⟨42#8 :: text ++ more⟩ = .ok result ⟨rest⟩) : result = .PARTIAL := by
  have refused (text' : Bytes) (start : Nat) (count : Int)
      (found : countLine (42#8 :: text ++ more) = some (text',start)) (number : stoi text' = .ok count) :
      False := by
    have line := RespReader.readLine_of_countLine _ text' start found
    have isOpen : numberOpen (fun _ => true) text = true := by
      rw [numberOpen_iff]
      refine (number_extends 42#8 text more text' _ count unended (readLine_found _ 0 _ start line)
        (readLine_split _ 0 _ start line).1 number).imp_right ?_
      rintro ⟨k,read,-⟩
      exact ⟨k,read,rfl⟩
    rw [isOpen] at closed
    cases closed
  have ends := RespReader.outcome (42#8 :: text ++ more)
  rw [ran] at ends
  cases ends with
  | noLine => rfl
  | noString => rfl
  | noArray line next read mark =>
    obtain ⟨split,-⟩ := readLine_split _ 0 line next read
    cases line with
    | nil => simp [crlf] at split
    | cons a line =>
      rw [List.drop_zero,List.cons_append,List.cons_append,List.cons.injEq] at split
      exact absurd (congrArg some split.1.symm) mark
  | notPositive text' start count found number none => exact (refused text' start count found number).elim
  | command tokens last cmd read built =>
    obtain ⟨text',start,count,found,number,-⟩ := (tokensOf_some_iff ..).mp read
    exact (refused text' start count found number).elim

theorem array_lost (buf more : Bytes) (storable : Storable (buf ++ more)) (text : Bytes) (start : Nat)
    (count : Int) (found : countLine buf = some (text,start)) (number : stoi text = .ok count)
    (positive : 0 < count) (pos left : Nat) (stalled : stall buf count.toNat start = some (pos,left))
    (closed : (stringOpen buf (count.toNat = 1) pos || lengthBack buf left pos) = false)
    (result : ParseResult) (rest : Bytes)
    (ran : RespReader.tryParse ⟨buf ++ more⟩ = .ok result ⟨rest⟩) : result = .PARTIAL := by
  have front := storable_front storable
  obtain ⟨-,-,inside⟩ := countLine_split buf text start found
  obtain ⟨waits,behind,fewer⟩ := stall_waits buf front _ start pos left inside stalled
  have again := countLine_append buf more _ found
  have ends := RespReader.outcome (buf ++ more)
  rw [ran] at ends
  cases ends with
  | noLine => rfl
  | noString => rfl
  | noArray line next read mark =>
    cases (RespReader.readLine_of_countLine _ text start again).symm.trans read
    exact absurd rfl mark
  | notPositive text' start' count' found' number' none =>
    cases again.symm.trans found'
    cases number.symm.trans number'
    omega
  | command tokens last cmd read built =>
    obtain ⟨text',start',count',found',number',-,strings⟩ := (tokensOf_some_iff ..).mp read
    cases again.symm.trans found'
    cases number.symm.trans number'
    obtain ⟨before,length,same⟩ := readTokens_stalled storable _ _ _ _ stalled
    obtain ⟨later,missing,rfl⟩ := (same tokens last).mp strings
    obtain ⟨token,next,rest,string,others,rfl⟩ := (readTokens_some_iff ..).mp missing
    obtain ⟨shut,stays⟩ := Bool.or_eq_false_iff.mp closed
    obtain ⟨alone,lone⟩ :=
      string_lost buf more storable _ left pos waits shut stays token next rest last string others
    -- the query is the only string, and the command cannot have been built from it
    have one : count.toNat = 1 := of_decide_eq_true alone
    have none := readTokens_length _ _ _ rest last others
    obtain rfl : rest = [] := List.length_eq_zero_iff.mp (by omega)
    obtain rfl : before = [] := List.length_eq_zero_iff.mp (by omega)
    cases (commandOf_loneQuery [token] lone).symm.trans built

/-- A call that waits can be answered exactly where what it waits for can still arrive. -/
theorem answerable_iff_completable (buf : Bytes) (room : buf.length < 2 ^ 62) (reader : RespReader)
    (waits : RespReader.tryParse ⟨buf⟩ = .ok .PARTIAL reader) :
    Answerable buf ↔ completable buf = true := by
  have ends := RespReader.outcome buf
  rw [waits] at ends
  cases ends with
  | noLine none =>
    have unended : findCrlf buf = Option.none := by simpa [readLine] using none
    have nowhere : waitsAt buf = Option.none := by simp [waitsAt,countLine,none]
    simp only [completable,nowhere]
    refine ⟨?_,line_completes buf room unended⟩
    rintro ⟨more,result,rest,-,ran,goes⟩
    by_contra closed
    simp only [Bool.not_eq_true,Bool.or_eq_false_iff,decide_eq_false_iff_not,not_not] at closed
    obtain ⟨text,rfl⟩ := List.head?_eq_some_iff.mp closed.1
    exact goes (count_lost text more unended closed.2 result rest ran)
  | noString text start count found number positive none =>
    obtain ⟨pos,left,stalled⟩ := stall_of_none buf _ start none
    have there : waitsAt buf = some (count.toNat,pos,left) := by simp [waitsAt,found,number,stalled]
    simp only [completable,there]
    refine ⟨?_,array_completes buf room text start count found number positive pos left stalled⟩
    rintro ⟨more,result,rest,storable,ran,goes⟩
    by_contra closed
    exact goes (array_lost buf more storable text start count found number positive pos left stalled
      (Bool.not_eq_true _ ▸ closed) result rest ran)

/-- The name of a query is about to arrive; a length can still become -12 and lead back to the
start of the buffer; and -3 leads to the end of its own line. -/
theorem answerable_iff_completable_lengths :
    Answerable (ascii "*2\r\n$3\r\nGE") ∧ Answerable (ascii "*1\r\n$-1") ∧
      ¬Answerable (ascii "*2\r\n$-3 ") :=
  ⟨(answerable_iff_completable (ascii "*2\r\n$3\r\nGE") (by decide) _
      (RespReader.Outcome.noString (ascii "2") 4 2 rfl rfl (by decide) (by decide +kernel)).run).mpr
      (by decide +kernel),
    (answerable_iff_completable (ascii "*1\r\n$-1") (by decide) _
      (RespReader.Outcome.noString (ascii "1") 4 1 rfl rfl (by decide) (by decide +kernel)).run).mpr
      (by decide +kernel),
    (answerable_iff_completable (ascii "*2\r\n$-3 ") (by decide) _
      (RespReader.Outcome.noString (ascii "2") 4 2 rfl rfl (by decide) (by decide +kernel)).run).not.mpr
      (by decide +kernel)⟩

/-- Where a string must start there is another byte, or the null string: the call waits
whatever comes. -/
theorem waits_for_ever :
    RespReader.tryParse ⟨ascii "*1\r\nx"⟩ = .ok .PARTIAL ⟨ascii "*1\r\nx"⟩ ∧
      ∀ more, RespReader.tryParse ⟨ascii "*1\r\nx" ++ more⟩ =
          .ok .PARTIAL ⟨ascii "*1\r\nx" ++ more⟩ ∧
        RespReader.tryParse ⟨ascii "*1\r\n$-1\r\n" ++ more⟩ =
          .ok .PARTIAL ⟨ascii "*1\r\n$-1\r\n" ++ more⟩ := by
  have waiting (buf more : Bytes) (found : countLine buf = some (ascii "1",4))
      (none : readBulkString (buf ++ more) 4 = .ok none) :
      RespReader.tryParse ⟨buf ++ more⟩ = .ok .PARTIAL ⟨buf ++ more⟩ :=
    (RespReader.Outcome.noString (ascii "1") 4 1 (countLine_append buf more _ found) rfl (by decide)
      ((readTokens_none_iff ..).mpr (.inl none))).run
  exact ⟨waiting (ascii "*1\r\nx") [] (by decide) rfl,
    fun more => ⟨waiting _ more (by decide) rfl,waiting _ more (by decide) rfl⟩⟩

end KvCache
