import KvCache.CommandCodec

/-! What the reader reads of a buffer, for any bytes in it: the lines it finds, the lengths it
takes from them and where each string ends. -/
namespace KvCache

/-- No `std::string` is longer. -/
abbrev Storable (buf : Bytes) : Prop := buf.length < 2 ^ 63

theorem findCrlf_split (data : Bytes) (n : Nat) (found : findCrlf data = some n) :
    ∃ line rest, data = line ++ (crlf ++ rest) ∧ line.length = n := by
  induction data using findCrlf.induct generalizing n with
  | case1 a b rest here =>
    rw [findCrlf,if_pos here] at found
    cases found
    exact ⟨[],rest,by simp [crlf,here.1,here.2],rfl⟩
  | case2 a b rest later ih =>
    rw [findCrlf,if_neg later] at found
    obtain ⟨m,inner,rfl⟩ := Option.map_eq_some_iff.mp found
    obtain ⟨line,tail,shape,rfl⟩ := ih m inner
    exact ⟨a :: line,tail,by simp [shape],rfl⟩
  | case3 data short =>
    unfold findCrlf at found
    split at found
    next a b rest => exact absurd rfl (short a b rest)
    next => cases found

theorem findCrlf_append (data more : Bytes) (n : Nat) (found : findCrlf data = some n) :
    findCrlf (data ++ more) = some n := by
  induction data using findCrlf.induct generalizing n with
  | case1 a b rest here => simpa [findCrlf,here] using found
  | case2 a b rest later ih =>
    rw [findCrlf,if_neg later] at found
    obtain ⟨m,inner,rfl⟩ := Option.map_eq_some_iff.mp found
    have rest := ih m inner
    rw [List.cons_append] at rest
    rw [List.cons_append,List.cons_append,findCrlf,if_neg later,rest]
    rfl
  | case3 data short =>
    unfold findCrlf at found
    split at found
    next a b rest => exact absurd rfl (short a b rest)
    next => cases found

/-- Where there is no line end yet, the first one ends in what arrives later. -/
theorem findCrlf_later (data more : Bytes) (n : Nat) (none : findCrlf data = none)
    (found : findCrlf (data ++ more) = some n) : data.length < n + 2 := by
  induction data using findCrlf.induct generalizing n with
  | case1 a b rest here => simp [findCrlf,here] at none
  | case2 a b rest later ih =>
    rw [findCrlf,if_neg later,Option.map_eq_none_iff] at none
    rw [List.cons_append,List.cons_append,findCrlf,if_neg later] at found
    obtain ⟨m,inner,rfl⟩ := Option.map_eq_some_iff.mp found
    have shorter := ih m none (by simpa using inner)
    simp only [List.length_cons] at shorter ⊢
    omega
  | case3 data short =>
    cases data with
    | nil => simp
    | cons a data =>
      cases data with
      | nil => simp
      | cons b rest => exact absurd rfl (short a b rest)

theorem readLine_split (buf : Bytes) (pos : Nat) (line : Bytes) (next : Nat)
    (found : readLine buf pos = some (line,next)) :
    buf.drop pos = line ++ (crlf ++ buf.drop next) ∧ next = pos + line.length + 2 ∧
      next ≤ buf.length := by
  obtain ⟨n,first,shape⟩ := Option.map_eq_some_iff.mp found
  obtain ⟨rfl,rfl⟩ := Prod.mk.inj shape
  obtain ⟨line,rest,split,rfl⟩ := findCrlf_split _ n first
  have front : (buf.drop pos).take line.length = line := by rw [split,List.take_left]
  have size := congrArg List.length split
  simp only [List.length_drop,List.length_append,crlf,List.length_cons,List.length_nil] at size
  have back : buf.drop (pos + line.length + 2) = rest := by
    rw [Nat.add_assoc,← List.drop_drop,split,← List.append_assoc]
    exact List.drop_left' (by simp [crlf])
  rw [front,back]
  exact ⟨split,rfl,by omega⟩

theorem readLine_append (buf more : Bytes) (pos : Nat) (found : Bytes × Nat)
    (read : readLine buf pos = some found) : readLine (buf ++ more) pos = some found := by
  obtain ⟨n,first,rfl⟩ := Option.map_eq_some_iff.mp read
  obtain ⟨line,rest,split,rfl⟩ := findCrlf_split _ n first
  have inside : pos ≤ buf.length := by
    by_contra past
    rw [List.drop_eq_nil_of_le (by omega)] at first
    cases first
  have longer : (buf ++ more).drop pos = buf.drop pos ++ more := List.drop_append_of_le_length inside
  rw [readLine,longer,findCrlf_append _ more _ first,Option.map_some,
    List.take_append_of_le_length (by simp [split])]

/-- The text after the mark of the length line at `pos`, and the position after the line. -/
def lengthLine (buf : Bytes) (pos : Nat) : Option (Bytes × Nat) :=
  if buf[pos]? = some 36#8 then (readLine buf pos).map fun l => (l.1.tail,l.2) else none

theorem lengthLine_split (buf : Bytes) (pos : Nat) (text : Bytes) (start : Nat)
    (found : lengthLine buf pos = some (text,start)) :
    buf.drop pos = 36#8 :: (text ++ (crlf ++ buf.drop start)) ∧ start = pos + text.length + 3 ∧
      start ≤ buf.length := by
  unfold lengthLine at found
  split at found
  next mark =>
    obtain ⟨⟨line,next⟩,read,shape⟩ := Option.map_eq_some_iff.mp found
    obtain ⟨rfl,rfl⟩ := Prod.mk.inj shape
    obtain ⟨split,size,inside⟩ := readLine_split buf pos line next read
    have head : (buf.drop pos).head? = some 36#8 := by rwa [List.head?_drop]
    cases line with
    | nil => simp [split,crlf] at head
    | cons a line =>
      rw [split] at head
      obtain rfl := Option.some.inj head
      rw [List.length_cons] at size
      refine ⟨split,?_,inside⟩
      simp only [List.tail_cons]
      omega
  next => cases found

theorem readLine_of_split (buf : Bytes) (pos : Nat) (line rest : Bytes) (free : ¬crlf <:+: line)
    (split : buf.drop pos = line ++ (crlf ++ rest)) :
    readLine buf pos = some (line,pos + line.length + 2) := by
  simp [readLine,split,findCrlf_of_free line rest free]

theorem lengthLine_of_split (buf : Bytes) (pos : Nat) (text rest : Bytes)
    (free : ¬crlf <:+: 36#8 :: text) (split : buf.drop pos = 36#8 :: (text ++ (crlf ++ rest))) :
    lengthLine buf pos = some (text,pos + text.length + 3) := by
  have mark : buf[pos]? = some 36#8 := by rw [← List.head?_drop,split]; rfl
  rw [lengthLine,if_pos mark,readLine_of_split buf pos (36#8 :: text) rest free split]
  simp
  omega

theorem lengthLine_append (buf more : Bytes) (pos : Nat) (found : Bytes × Nat)
    (read : lengthLine buf pos = some found) : lengthLine (buf ++ more) pos = some found := by
  unfold lengthLine at read ⊢
  split at read
  next mark =>
    obtain ⟨l,line,rfl⟩ := Option.map_eq_some_iff.mp read
    have inside := (List.getElem?_eq_some_iff.mp mark).1
    rw [List.getElem?_append_left inside,if_pos mark,readLine_append buf more pos l line]
    rfl
  next => cases read

/-- What comes of a string once its length line is read. The end of the string is where the
`size_t` sum puts it: a sum below 0 wraps to a number that no buffer reaches. -/
def afterLength (buf : Bytes) (start : Nat) (len : Int) : Except Fault (Option (Bytes × Nat)) :=
  if len = -1 ∨ start + len + 2 < 0 ∨ buf.length < start + len + 2 then .ok none
  else if 2 ^ 31 ≤ len + 2 then .error .signedOverflow
  else .ok (some (if len < 0 then buf.drop start else (buf.drop start).take len.toNat,
    (start + len + 2).toNat))

theorem readBulkString_eq (buf : Bytes) (storable : Storable buf) (pos : Nat) :
    readBulkString buf pos =
      match lengthLine buf pos with
      | none => .ok none
      | some (text,start) =>
        match stoi text with
        | .error e => .error e
        | .ok len => afterLength buf start len := by
  unfold readBulkString lengthLine
  by_cases mark : buf[pos]? = some 36#8
  · rw [if_neg (not_not.mpr mark),if_pos mark]
    cases read : readLine buf pos with
    | none => rfl
    | some found =>
      obtain ⟨line,start⟩ := found
      obtain ⟨-,-,inside⟩ := readLine_split buf pos line start read
      simp only [Option.map_some]
      cases number : stoi line.tail with
      | error e => rfl
      | ok len =>
        obtain ⟨-,-,low,high⟩ := (stoi_ok_iff line.tail len).mp number
        have small : buf.length < 2 ^ 63 := storable
        simp only [bind,Except.bind,afterLength]
        by_cases null : len = -1
        · rw [if_pos null,if_pos (.inl null)]
        rw [if_neg null]
        by_cases negative : len < 0
        · -- the cast adds 2^64, which the sum may wrap off again
          have size : (len % 2 ^ 64).toNat = (len + 2 ^ 64).toNat := by omega
          by_cases back : start + len + 2 < 0
          · rw [if_pos (by omega),if_pos (by omega)]
          have stop : (start + (len % 2 ^ 64).toNat + 2) % 2 ^ 64 = (start + len + 2).toNat := by omega
          have all : (buf.drop start).take (len % 2 ^ 64).toNat = buf.drop start :=
            List.take_of_length_le (by rw [List.length_drop]; omega)
          rw [stop,all,if_neg (by omega),if_neg (by omega),if_neg (by omega),if_neg (by omega),
            if_pos negative]
        · have size : (len % 2 ^ 64).toNat = len.toNat := by omega
          have stop : (start + (len % 2 ^ 64).toNat + 2) % 2 ^ 64 = (start + len + 2).toNat := by omega
          rw [stop,size,if_neg negative]
          by_cases short : buf.length < start + len + 2
          · rw [if_pos (by omega),if_pos (by omega)]
          · have whole : ¬(len = -1 ∨ start + len + 2 < 0 ∨ buf.length < start + len + 2) := by omega
            rw [if_neg (by omega),if_neg whole]
  · rw [if_pos mark,if_neg mark]

theorem afterLength_some_iff (buf : Bytes) (start : Nat) (len : Int) (token : Bytes) (next : Nat) :
    afterLength buf start len = .ok (some (token,next)) ↔
      len ≠ -1 ∧ 0 ≤ start + len + 2 ∧ start + len + 2 ≤ buf.length ∧ len + 2 < 2 ^ 31 ∧
        token = (if len < 0 then buf.drop start else (buf.drop start).take len.toNat) ∧
        next = (start + len + 2).toNat := by
  unfold afterLength
  by_cases waits : len = -1 ∨ start + len + 2 < 0 ∨ buf.length < start + len + 2
  · rw [if_pos waits]
    simp only [Except.ok.injEq,reduceCtorEq,false_iff]
    omega
  by_cases overflow : 2 ^ 31 ≤ len + 2
  · rw [if_neg waits,if_pos overflow]
    simp only [reduceCtorEq,false_iff]
    omega
  · rw [if_neg waits,if_neg overflow,Except.ok.injEq,Option.some.injEq,Prod.mk.injEq]
    constructor
    · rintro ⟨rfl,rfl⟩
      exact ⟨by omega,by omega,by omega,by omega,rfl,rfl⟩
    · rintro ⟨-,-,-,-,rfl,rfl⟩
      exact ⟨rfl,rfl⟩

theorem readBulkString_some_iff (buf : Bytes) (storable : Storable buf) (pos : Nat) (token : Bytes)
    (next : Nat) :
    readBulkString buf pos = .ok (some (token,next)) ↔
      ∃ text start len, lengthLine buf pos = some (text,start) ∧ stoi text = .ok len ∧
        afterLength buf start len = .ok (some (token,next)) := by
  rw [readBulkString_eq buf storable]
  rcases lengthLine buf pos with _ | ⟨text,start⟩
  · simp
  · cases number : stoi text with
    | error e => simp [number]
    | ok len => simp [number]

/-- The faults of reading numbers: the exceptions of `stoi`, and the sum `len + 2`. -/
def Fault.ofReading (e : Fault) : Prop :=
  e = .invalidArgument ∨ e = .outOfRange ∨ e = .signedOverflow

theorem stoi_error (text : Bytes) (e : Fault) (failed : stoi text = .error e) : e.ofReading := by
  rw [stoi_eq] at failed
  split at failed
  · cases failed
    exact .inl rfl
  · split at failed
    · cases failed
      exact .inr (.inl rfl)
    · cases failed

theorem readBulkString_error (buf : Bytes) (pos : Nat) (e : Fault)
    (failed : readBulkString buf pos = .error e) : e.ofReading := by
  unfold readBulkString at failed
  split at failed
  · cases failed
  split at failed
  · cases failed
  next line start _ =>
    cases number : stoi line.tail with
    | error e' =>
      rw [number] at failed
      cases failed
      exact stoi_error _ e number
    | ok len =>
      simp only [number,bind,Except.bind] at failed
      split at failed
      · cases failed
      split at failed
      · cases failed
      split at failed
      · cases failed
        exact .inr (.inr rfl)
      · cases failed

theorem readTokens_some_iff (buf : Bytes) (count pos : Nat) (tokens : List Bytes) (last : Nat) :
    readTokens buf (count + 1) pos = .ok (some (tokens,last)) ↔
      ∃ token next rest, readBulkString buf pos = .ok (some (token,next)) ∧
        readTokens buf count next = .ok (some (rest,last)) ∧ tokens = token :: rest := by
  rw [readTokens]
  rcases readBulkString buf pos with e | _ | ⟨token,next⟩
  · simp [bind,Except.bind]
  · simp [bind,Except.bind]
  · rcases later : readTokens buf count next with e | _ | ⟨rest,last'⟩
    · simp [bind,Except.bind,later]
    · simp [bind,Except.bind,later]
    · simp [bind,Except.bind,later,eq_comm,and_comm]

theorem readTokens_none_iff (buf : Bytes) (count pos : Nat) :
    readTokens buf (count + 1) pos = .ok none ↔
      readBulkString buf pos = .ok none ∨ ∃ token next,
        readBulkString buf pos = .ok (some (token,next)) ∧ readTokens buf count next = .ok none := by
  rw [readTokens]
  rcases readBulkString buf pos with e | _ | ⟨token,next⟩
  · simp [bind,Except.bind]
  · simp [bind,Except.bind]
  · rcases later : readTokens buf count next with e | _ | ⟨rest,last'⟩ <;>
      simp [bind,Except.bind,later]

theorem readTokens_error_iff (buf : Bytes) (count pos : Nat) (e : Fault) :
    readTokens buf (count + 1) pos = .error e ↔
      readBulkString buf pos = .error e ∨ ∃ token next,
        readBulkString buf pos = .ok (some (token,next)) ∧ readTokens buf count next = .error e := by
  rw [readTokens]
  rcases readBulkString buf pos with e | _ | ⟨token,next⟩
  · simp [bind,Except.bind]
  · simp [bind,Except.bind]
  · rcases later : readTokens buf count next with e | _ | ⟨rest,last'⟩ <;>
      simp [bind,Except.bind,later]

theorem readTokens_error (buf : Bytes) (count pos : Nat) (e : Fault)
    (failed : readTokens buf count pos = .error e) : e.ofReading := by
  induction count generalizing pos with
  | zero => cases failed
  | succ count ih =>
    rcases (readTokens_error_iff buf count pos e).mp failed with now | ⟨_,next,-,later⟩
    · exact readBulkString_error buf pos e now
    · exact ih next later

theorem readTokens_length (buf : Bytes) (count pos : Nat) (tokens : List Bytes) (last : Nat)
    (read : readTokens buf count pos = .ok (some (tokens,last))) : tokens.length = count := by
  induction count generalizing pos tokens with
  | zero => cases read; rfl
  | succ count ih =>
    obtain ⟨token,next,rest,-,later,rfl⟩ := (readTokens_some_iff buf count pos tokens last).mp read
    rw [List.length_cons,ih next rest later]

/-- The length lines that a loop over `count` strings comes to, each with the position of the
string after it. -/
def lengthLines (buf : Bytes) : Nat → Nat → List (Bytes × Nat)
  | 0, _ => []
  | count + 1, pos =>
    (lengthLine buf pos).toList ++
      match readBulkString buf pos with
      | .ok (some (_,next)) => lengthLines buf count next
      | _ => []

/-- The text after the mark of the first line, where the line has the mark of an array. -/
def countLine (buf : Bytes) : Option (Bytes × Nat) :=
  (readLine buf 0).bind fun l => if l.1.head? = some 42#8 then some (l.1.tail,l.2) else none

def tokensOf (buf : Bytes) : Except Fault (Option (List Bytes × Nat)) :=
  match countLine buf with
  | none => .ok none
  | some (text,start) => do
    let count ← stoi text
    if count ≤ 0 then .ok none else readTokens buf count.toNat start

def lengthsReached (buf : Bytes) : List (Bytes × Nat) :=
  match countLine buf with
  | none => []
  | some (text,start) =>
    match stoi text with
    | .error _ => []
    | .ok count => lengthLines buf count.toNat start

theorem countLine_append (buf more : Bytes) (found : Bytes × Nat)
    (read : countLine buf = some found) : countLine (buf ++ more) = some found := by
  obtain ⟨l,line,mark⟩ := Option.bind_eq_some_iff.mp read
  rw [countLine,readLine_append buf more 0 l line]
  exact mark

theorem countLine_split (buf : Bytes) (text : Bytes) (start : Nat)
    (found : countLine buf = some (text,start)) :
    buf = 42#8 :: (text ++ (crlf ++ buf.drop start)) ∧ start = text.length + 3 ∧
      start ≤ buf.length := by
  obtain ⟨⟨line,next⟩,read,mark⟩ := Option.bind_eq_some_iff.mp found
  obtain ⟨split,size,inside⟩ := readLine_split buf 0 line next read
  split at mark
  next head =>
    obtain ⟨rfl,rfl⟩ := Prod.mk.inj (Option.some.inj mark)
    cases line with
    | nil => cases head
    | cons a line =>
      obtain rfl := Option.some.inj head
      rw [List.length_cons] at size
      refine ⟨split,?_,inside⟩
      simp only [List.tail_cons]
      omega
  next => cases mark

theorem countLine_of_split (buf text rest : Bytes) (free : ¬crlf <:+: 42#8 :: text)
    (split : buf = 42#8 :: (text ++ (crlf ++ rest))) :
    countLine buf = some (text,text.length + 3) := by
  rw [countLine,readLine_of_split buf 0 (42#8 :: text) rest free split]
  simp

theorem tokensOf_some_iff (buf : Bytes) (tokens : List Bytes) (pos : Nat) :
    tokensOf buf = .ok (some (tokens,pos)) ↔
      ∃ text start count, countLine buf = some (text,start) ∧ stoi text = .ok count ∧ 0 < count ∧
        readTokens buf count.toNat start = .ok (some (tokens,pos)) := by
  unfold tokensOf
  rcases countLine buf with _ | ⟨text,start⟩
  · simp
  · cases number : stoi text with
    | error e => simp [bind,Except.bind,number]
    | ok count =>
      by_cases none : count ≤ 0
      · simp [bind,Except.bind,number,none,Int.not_lt.mpr none]
      · simp [bind,Except.bind,number,none,Int.not_le.mp none]

def commandNamed (name : Bytes) : Option CommandType :=
  [.SET,.GET,.DEL,.EXISTS,.KEYS].find? fun type => toUpper name = type.name

theorem commandOf_cons (name : Bytes) (args : List Bytes) :
    commandOf (name :: args) =
      match commandNamed name, args with
      | none, _ => .ok ⟨.SET,[],.UNKNOWN_COMMAND⟩
      | some .SET, key :: value :: _ => .ok ⟨.SET,[key,value],.NONE⟩
      | some .SET, _ => .ok ⟨.SET,[],.WRONG_ARG_COUNT⟩
      | some .KEYS, _ => .ok ⟨.KEYS,[],.NONE⟩
      | some type, key :: _ => .ok ⟨type,[key],.NONE⟩
      | some _, [] => .error .outOfBounds := by
  have first : stringAt (name :: args) 0 = .ok name := rfl
  simp only [commandOf,first,bind,Except.bind,pure,Except.pure,commandNamed,List.find?_cons,
    CommandType.name]
  -- the comparison that succeeds decides the switch and the search alike
  by_cases set : toUpper name = ascii "SET"
  · rcases args with _ | ⟨key,_ | ⟨value,args⟩⟩ <;> simp [eq_true set,stringAt]
  by_cases get : toUpper name = ascii "GET"
  · rcases args with _ | ⟨key,args⟩ <;> simp [set,eq_true get,stringAt]
  by_cases del : toUpper name = ascii "DEL"
  · rcases args with _ | ⟨key,args⟩ <;> simp [set,get,eq_true del,stringAt]
  by_cases exist : toUpper name = ascii "EXISTS"
  · rcases args with _ | ⟨key,args⟩ <;> simp [set,get,del,eq_true exist,stringAt]
  by_cases keys : toUpper name = ascii "KEYS"
  · simp [set,get,del,exist,eq_true keys]
  · simp [set,get,del,exist,keys]

theorem commandOf_error (tokens : List Bytes) (e : Fault) (failed : commandOf tokens = .error e) :
    e = .outOfBounds := by
  cases tokens with
  | nil => cases failed; rfl
  | cons name args =>
    rw [commandOf_cons] at failed
    split at failed <;> cases failed
    rfl

namespace RespReader

/-- The ways a call of `TryParse` on a buffer can end, and what has been read when it does. -/
inductive Outcome (buf : Bytes) : EStateM.Result Fault RespReader ParseResult → Prop
  | noLine (none : readLine buf 0 = none) : Outcome buf (.ok .PARTIAL ⟨buf⟩)
  | noArray (line : Bytes) (pos : Nat) (found : readLine buf 0 = some (line,pos))
      (mark : line.head? ≠ some 42#8) : Outcome buf (.ok .PROTOCOL_ERROR ⟨buf.drop pos⟩)
  | badCount (text : Bytes) (start : Nat) (e : Fault) (found : countLine buf = some (text,start))
      (refused : stoi text = .error e) : Outcome buf (.error e ⟨buf⟩)
  | notPositive (text : Bytes) (start : Nat) (count : Int) (found : countLine buf = some (text,start))
      (number : stoi text = .ok count) (none : count ≤ 0) :
      Outcome buf (.ok .PROTOCOL_ERROR ⟨buf.drop start⟩)
  | badString (text : Bytes) (start : Nat) (count : Int) (e : Fault)
      (found : countLine buf = some (text,start)) (number : stoi text = .ok count)
      (positive : 0 < count) (failed : readTokens buf count.toNat start = .error e) :
      Outcome buf (.error e ⟨buf⟩)
  | noString (text : Bytes) (start : Nat) (count : Int) (found : countLine buf = some (text,start))
      (number : stoi text = .ok count) (positive : 0 < count)
      (none : readTokens buf count.toNat start = .ok none) : Outcome buf (.ok .PARTIAL ⟨buf⟩)
  | badCommand (tokens : List Bytes) (pos : Nat) (e : Fault)
      (read : tokensOf buf = .ok (some (tokens,pos))) (failed : commandOf tokens = .error e) :
      Outcome buf (.error e ⟨buf⟩)
  | command (tokens : List Bytes) (pos : Nat) (cmd : Command)
      (read : tokensOf buf = .ok (some (tokens,pos))) (built : commandOf tokens = .ok cmd) :
      Outcome buf (.ok (.OK cmd) ⟨buf.drop pos⟩)

/-- Every call of `TryParse` ends in one of these ways. -/
theorem outcome (buf : Bytes) : Outcome buf (tryParse ⟨buf⟩) := by
  rw [tryParse_eq]
  rcases found : readLine buf 0 with _ | ⟨line,pos⟩
  · exact .noLine found
  by_cases mark : line.head? = some 42#8
  · have array : countLine buf = some (line.tail,pos) := by simp [countLine,found,mark]
    simp only [mark,ne_eq,not_true_eq_false,if_false]
    cases number : stoi line.tail with
    | error e => exact .badCount _ _ e array number
    | ok count =>
      by_cases none : count ≤ 0
      · simp only [if_pos none]
        exact .notPositive _ _ count array number none
      simp only [if_neg none]
      have positive : 0 < count := Int.not_le.mp none
      rcases read : readTokens buf count.toNat pos with e | _ | ⟨tokens,last⟩
      · exact .badString _ _ count e array number positive read
      · exact .noString _ _ count array number positive read
      have strings := (tokensOf_some_iff buf tokens last).mpr ⟨_,_,count,array,number,positive,read⟩
      cases built : commandOf tokens with
      | error e =>
        simp only [built]
        exact .badCommand tokens last e strings built
      | ok cmd =>
        simp only [built]
        exact .command tokens last cmd strings built
  · simp only [ne_eq,mark,not_false_eq_true,if_true]
    exact .noArray line pos found mark

theorem readLine_of_countLine (buf text : Bytes) (start : Nat)
    (found : countLine buf = some (text,start)) : readLine buf 0 = some (42#8 :: text,start) := by
  obtain ⟨⟨line,next⟩,read,mark⟩ := Option.bind_eq_some_iff.mp found
  split at mark
  next head =>
    obtain ⟨rfl,rfl⟩ := Prod.mk.inj (Option.some.inj mark)
    cases line with
    | nil => cases head
    | cons a line =>
      obtain rfl := Option.some.inj head
      exact read
  next => cases mark

theorem Outcome.run {buf : Bytes} {result : EStateM.Result Fault RespReader ParseResult}
    (ends : Outcome buf result) : tryParse ⟨buf⟩ = result := by
  rw [tryParse_eq]
  cases ends with
  | noLine none => rw [none]
  | noArray line pos found mark => simp [found,mark]
  | badCount text start e found refused => simp [readLine_of_countLine buf text start found,refused]
  | notPositive text start count found number none =>
    simp [readLine_of_countLine buf text start found,number,none]
  | badString text start count e found number positive failed =>
    simp [readLine_of_countLine buf text start found,number,positive,failed]
  | noString text start count found number positive none =>
    simp [readLine_of_countLine buf text start found,number,positive,none]
  | badCommand tokens pos e read failed =>
    obtain ⟨text,start,count,found,number,positive,strings⟩ := (tokensOf_some_iff ..).mp read
    simp [readLine_of_countLine buf text start found,number,positive,strings,failed]
  | command tokens pos cmd read built =>
    obtain ⟨text,start,count,found,number,positive,strings⟩ := (tokensOf_some_iff ..).mp read
    simp [readLine_of_countLine buf text start found,number,positive,strings,built]

/-- The result and the bytes kept of a call that ends with `OK` or `PROTOCOL_ERROR`; none where
the call waits or throws. -/
def takeResult (buf : Bytes) : Option (ParseResult × Bytes) :=
  match tryParse ⟨buf⟩ with
  | .ok .PARTIAL _ => none
  | .ok result reader => some (result,reader.buf)
  | .error _ _ => none

theorem takeResult_some_iff (buf : Bytes) (result : ParseResult) (rest : Bytes) :
    takeResult buf = some (result,rest) ↔
      tryParse ⟨buf⟩ = .ok result ⟨rest⟩ ∧ result ≠ .PARTIAL := by
  unfold takeResult
  rcases tryParse ⟨buf⟩ with ⟨_ | _ | _,reader⟩ | ⟨e,reader⟩
  · obtain ⟨kept⟩ := reader
    simp only [Option.some.injEq,Prod.mk.injEq,EStateM.Result.ok.injEq,RespReader.mk.injEq]
    exact ⟨fun ⟨same,rest⟩ => ⟨⟨same,rest⟩,by rw [← same]; simp⟩,fun ⟨same,_⟩ => same⟩
  · simp only [reduceCtorEq,false_iff,EStateM.Result.ok.injEq,not_and,not_not]
    exact fun same => same.1.symm
  · obtain ⟨kept⟩ := reader
    simp only [Option.some.injEq,Prod.mk.injEq,EStateM.Result.ok.injEq,RespReader.mk.injEq]
    exact ⟨fun ⟨same,rest⟩ => ⟨⟨same,rest⟩,by rw [← same]; simp⟩,fun ⟨same,_⟩ => same⟩
  · simp

end RespReader

end KvCache
