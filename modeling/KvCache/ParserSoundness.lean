import KvCache.ParserReads

/-! What an accepted command stands for. The protocol is stated by its grammar; the reader
takes more than the grammar allows, and the commands it builds are exact but for the queries
whose argument it does not check for. -/
namespace KvCache

/-- A query by itself, without the key it asks for. -/
def loneQuery : List Bytes → Bool
  | [name] => commandNamed name ∈ [some .GET,some .DEL,some .EXISTS]
  | _ => false

def tooFew : List Bytes → Bool
  | [] => false
  | name :: args =>
    match (commandNamed name).bind CommandType.arity with
    | none => false
    | some needed => args.length < needed

/-- The tokens `TryParse` indexes are there, the commands without an error have the arguments
their type needs, and missing arguments are reported. -/
structure IndexSafe (buf : Bytes) : Prop where
  inBounds : ∀ reader, RespReader.tryParse ⟨buf⟩ ≠ .error .outOfBounds reader
  arity : ∀ cmd reader, RespReader.tryParse ⟨buf⟩ = .ok (.OK cmd) reader → cmd.error = .NONE →
    cmd.type.arity = some cmd.args.length
  counted : ∀ tokens pos, tokensOf buf = .ok (some (tokens,pos)) → tooFew tokens = true →
    ∃ cmd reader, RespReader.tryParse ⟨buf⟩ = .ok (.OK cmd) reader ∧ cmd.error = .WRONG_ARG_COUNT

theorem tokensOf_ne_nil (buf : Bytes) (tokens : List Bytes) (pos : Nat)
    (read : tokensOf buf = .ok (some (tokens,pos))) : tokens ≠ [] := by
  obtain ⟨_,_,count,_,_,positive,strings⟩ := (tokensOf_some_iff ..).mp read
  have length := readTokens_length buf _ _ tokens pos strings
  rintro rfl
  simp at length
  omega

theorem commandNamed_ne_unknown (name : Bytes) : commandNamed name ≠ some .UNKNOWN := by
  intro named
  have member := List.mem_of_find?_eq_some named
  simp at member

theorem commandOf_loneQuery (tokens : List Bytes) (lone : loneQuery tokens = true) :
    commandOf tokens = .error .outOfBounds := by
  obtain _ | ⟨name,_ | _⟩ := tokens
  · cases lone
  · simp only [loneQuery,decide_eq_true_eq,List.mem_cons,List.not_mem_nil,or_false] at lone
    rw [commandOf_cons]
    rcases lone with named | named | named <;> rw [named]
  · cases lone

theorem commandOf_counted (tokens : List Bytes) (some : tokens ≠ []) (lone : loneQuery tokens = false) :
    ∃ cmd, commandOf tokens = .ok cmd ∧
      (cmd.error = .NONE → cmd.type.arity = Option.some cmd.args.length) ∧
      (tooFew tokens = true → cmd.error = .WRONG_ARG_COUNT) := by
  obtain ⟨name,args,rfl⟩ := List.exists_cons_of_ne_nil some
  rw [commandOf_cons]
  cases named : commandNamed name with
  | none => exact ⟨_,rfl,by simp,by simp [tooFew,named]⟩
  | some type =>
    cases type with
    | SET =>
      obtain _ | ⟨key,_ | ⟨value,args⟩⟩ := args
      · exact ⟨_,rfl,by simp,fun _ => rfl⟩
      · exact ⟨_,rfl,by simp,fun _ => rfl⟩
      · exact ⟨_,rfl,fun _ => rfl,by simp [tooFew,named,CommandType.arity]⟩
    | KEYS => exact ⟨_,rfl,fun _ => rfl,by simp [tooFew,named,CommandType.arity]⟩
    | UNKNOWN => exact absurd named (commandNamed_ne_unknown name)
    | GET | DEL | EXISTS =>
      obtain _ | ⟨key,args⟩ := args
      · simp [loneQuery,named] at lone
      · exact ⟨_,rfl,fun _ => rfl,by simp [tooFew,named,CommandType.arity]⟩

/-- Index safety holds exactly of the buffers whose array is not a lone query. -/
theorem indexSafe_iff (buf : Bytes) :
    IndexSafe buf ↔ ∀ tokens pos, tokensOf buf = .ok (some (tokens,pos)) → loneQuery tokens = false := by
  constructor
  · intro safe tokens pos read
    by_contra lone
    have failed := commandOf_loneQuery tokens (by simpa using lone)
    exact safe.inBounds _ (RespReader.Outcome.badCommand tokens pos _ read failed).run
  · intro checked
    refine ⟨fun reader ran => ?_,fun cmd reader run none => ?_,fun tokens pos read few => ?_⟩
    · have ends := RespReader.outcome buf
      rw [ran] at ends
      cases ends with
      | badCount text start e found refused => simpa [Fault.ofReading] using stoi_error text _ refused
      | badString text start count e found number positive failed =>
        simpa [Fault.ofReading] using readTokens_error buf _ _ _ failed
      | badCommand tokens pos e read failed =>
        obtain ⟨cmd,built,-⟩ := commandOf_counted tokens (tokensOf_ne_nil buf tokens pos read)
          (checked tokens pos read)
        cases failed.symm.trans built
    · have ends := RespReader.outcome buf
      rw [run] at ends
      cases ends with
      | command tokens pos cmd read built =>
        obtain ⟨cmd',same,arity,-⟩ := commandOf_counted tokens (tokensOf_ne_nil buf tokens pos read)
          (checked tokens pos read)
        cases built.symm.trans same
        exact arity none
    · obtain ⟨cmd,built,-,wrong⟩ := commandOf_counted tokens (tokensOf_ne_nil buf tokens pos read)
        (checked tokens pos read)
      exact ⟨cmd,_,(RespReader.Outcome.command tokens pos cmd read built).run,wrong few⟩

theorem lone_get_out_of_bounds :
    RespReader.tryParse ⟨ascii "*1\r\n$3\r\nGET\r\n"⟩ =
      .error .outOfBounds ⟨ascii "*1\r\n$3\r\nGET\r\n"⟩ := by
  have read : tokensOf (ascii "*1\r\n$3\r\nGET\r\n") = .ok (some ([ascii "GET"],13)) := rfl
  exact (RespReader.Outcome.badCommand _ _ _ read rfl).run

/-- Bulk strings in a row: `$`, the length in decimal, a line end, that many bytes, a line end. -/
inductive IsBulks : Bytes → List Bytes → Prop
  | nil : IsBulks [] []
  | cons {text payload rest : Bytes} {strings : List Bytes} (plain : Plain text)
      (size : digitsValue text = payload.length) (later : IsBulks rest strings) :
      IsBulks (36#8 :: (text ++ (crlf ++ (payload ++ (crlf ++ rest))))) (payload :: strings)

/-- An array: `*`, the number of strings in decimal, a line end and the strings, one at least. -/
def IsArray (bytes : Bytes) (strings : List Bytes) : Prop :=
  ∃ text bulks, bytes = 42#8 :: (text ++ (crlf ++ bulks)) ∧ Plain text ∧
    digitsValue text = strings.length ∧ strings ≠ [] ∧ IsBulks bulks strings

def delimited (buf : Bytes) (line : Bytes × Nat) : Prop :=
  Plain line.1 ∧ (buf.drop (line.2 + digitsValue line.1)).take 2 = crlf

/-- The count and the lengths are decimals, and a line end stands behind each string. -/
def Delimited (buf : Bytes) : Prop :=
  (∀ line ∈ countLine buf, Plain line.1) ∧ ∀ line ∈ lengthsReached buf, delimited buf line

instance (buf : Bytes) (line : Bytes × Nat) : Decidable (delimited buf line) :=
  inferInstanceAs (Decidable (_ ∧ _))

instance (buf : Bytes) : Decidable (Delimited buf) := inferInstanceAs (Decidable (_ ∧ _))

theorem isBulks_end (bytes : Bytes) (strings : List Bytes) (grammar : IsBulks bytes strings)
    (some : strings ≠ []) : crlf <:+ bytes := by
  induction grammar with
  | nil => exact absurd rfl some
  | @cons text payload rest strings plain size later ih =>
    have inside : crlf ++ rest <:+ 36#8 :: (text ++ (crlf ++ (payload ++ (crlf ++ rest)))) :=
      ⟨36#8 :: (text ++ (crlf ++ payload)),by simp⟩
    cases later with
    | nil => simpa using inside
    | cons => exact (ih (by simp)).trans ((List.suffix_append _ _).trans inside)

theorem isArray_end (bytes : Bytes) (strings : List Bytes) (array : IsArray bytes strings) :
    crlf <:+ bytes := by
  obtain ⟨text,bulks,rfl,-,-,some,grammar⟩ := array
  refine (isBulks_end bulks strings grammar some).trans ⟨42#8 :: (text ++ crlf),by simp⟩

theorem plain_noReturn (mark : Byte) (text : Bytes) (plain : Plain text) (ne : mark ≠ 13#8) :
    13#8 ∉ mark :: text := by
  rw [List.mem_cons]
  rintro (same | member)
  · exact ne same.symm
  · exact absurd (plain.2 _ member) (by decide)

theorem split_crlf (data : Bytes) (n : Nat) (next : (data.drop n).take 2 = crlf) :
    data.drop n = crlf ++ data.drop (n + 2) := by
  conv => lhs; rw [← List.take_append_drop 2 (data.drop n),next,List.drop_drop]

section

variable {buf : Bytes} (storable : Storable buf)
include storable

theorem isBulks_of_delimited (count pos : Nat) (tokens : List Bytes) (last : Nat)
    (marked : ∀ line ∈ lengthLines buf count pos, delimited buf line)
    (read : readTokens buf count pos = .ok (some (tokens,last))) :
    ∃ bytes, buf.drop pos = bytes ++ buf.drop last ∧ IsBulks bytes tokens := by
  induction count generalizing pos tokens with
  | zero => cases read; exact ⟨[],rfl,.nil⟩
  | succ count ih =>
    obtain ⟨token,next,rest,string,later,rfl⟩ := (readTokens_some_iff buf count pos tokens last).mp read
    obtain ⟨text,start,len,line,number,after⟩ := (readBulkString_some_iff buf storable ..).mp string
    simp only [lengthLines,line,string,Option.toList_some,List.singleton_append,
      List.forall_mem_cons,delimited] at marked
    obtain ⟨⟨plain,terminated⟩,marked⟩ := marked
    obtain ⟨bytes,split,bulks⟩ := ih next rest marked later
    obtain ⟨rfl,-⟩ := (stoi_plain text plain len).mp number
    obtain ⟨-,-,inside,-,rfl,rfl⟩ := (afterLength_some_iff ..).mp after
    obtain ⟨shape,-,behind⟩ := lengthLine_split buf pos text start line
    have stop : ((start : Int) + (digitsValue text : Int) + 2).toNat = start + digitsValue text + 2 := by
      omega
    rw [stop] at split
    rw [if_neg (by omega),Int.toNat_natCast]
    have payload : buf.drop start = (buf.drop start).take (digitsValue text) ++
        (crlf ++ (bytes ++ buf.drop last)) := by
      rw [← split,← split_crlf buf _ terminated,← List.drop_drop,List.take_append_drop]
    refine ⟨_,?_,.cons plain ?_ bulks⟩
    · rw [shape]
      conv => lhs; rw [payload]
      simp
    · rw [List.length_take,List.length_drop]
      omega

theorem delimited_of_isBulks (bulks : Bytes) (strings : List Bytes) (grammar : IsBulks bulks strings)
    (pos : Nat) (rest : Bytes) (split : buf.drop pos = bulks ++ rest) (tokens : List Bytes) (last : Nat)
    (read : readTokens buf strings.length pos = .ok (some (tokens,last))) :
    ∀ line ∈ lengthLines buf strings.length pos, delimited buf line := by
  induction grammar generalizing pos tokens with
  | nil => simp [lengthLines]
  | @cons text payload more strings plain size _ ih =>
    obtain ⟨token,next,others,string,later,rfl⟩ :=
      (readTokens_some_iff buf strings.length pos tokens last).mp read
    obtain ⟨text',start,len,line,number,after⟩ := (readBulkString_some_iff buf storable ..).mp string
    have free := free_of_noReturn _ (plain_noReturn 36#8 text plain (by decide))
    simp only [List.cons_append,List.append_assoc] at split
    cases line.symm.trans (lengthLine_of_split buf pos text _ free split)
    obtain ⟨shape,-,-⟩ := lengthLine_split buf pos text _ line
    obtain ⟨rfl,-⟩ := (stoi_plain text plain len).mp number
    obtain ⟨-,-,-,-,-,rfl⟩ := (afterLength_some_iff ..).mp after
    -- both ways of splitting agree behind the length line
    have string' : buf.drop (pos + text.length + 3) = payload ++ (crlf ++ (more ++ rest)) := by
      have same := shape.symm.trans split
      simpa using same
    have stop : (((pos + text.length + 3 : Nat) : Int) + (digitsValue text : Int) + 2).toNat =
        pos + text.length + 3 + digitsValue text + 2 := by omega
    have terminated : buf.drop (pos + text.length + 3 + digitsValue text) = crlf ++ (more ++ rest) := by
      rw [← List.drop_drop,string',size,List.drop_left]
    have behind : buf.drop (pos + text.length + 3 + digitsValue text + 2) = more ++ rest := by
      rw [← List.drop_drop,terminated]
      rfl
    rw [stop] at later string
    simp only [List.length_cons,lengthLines,line,string,Option.toList_some,List.singleton_append,
      List.forall_mem_cons]
    exact ⟨⟨plain,by simp [terminated,crlf]⟩,ih _ behind others later⟩

end

/-- Soundness of acceptance. The bytes an accepted command removes are an array of the
grammar, and its strings are the command's, exactly where the reader's fields are decimals and
its strings end with a line end. -/
theorem accepted_iff_delimited (buf : Bytes) (storable : Storable buf) (cmd : Command)
    (reader : RespReader) (accepted : RespReader.tryParse ⟨buf⟩ = .ok (.OK cmd) reader) :
    (∃ removed strings, buf = removed ++ reader.buf ∧ IsArray removed strings ∧
      commandOf strings = .ok cmd) ↔ Delimited buf := by
  have ends := RespReader.outcome buf
  rw [accepted] at ends
  obtain ⟨tokens,pos,read,built⟩ : ∃ tokens pos, tokensOf buf = .ok (some (tokens,pos)) ∧
      commandOf tokens = .ok cmd ∧ reader = ⟨buf.drop pos⟩ := by
    cases ends with
    | command tokens pos cmd read built => exact ⟨tokens,pos,read,built,rfl⟩
  obtain ⟨built,rfl⟩ := built
  obtain ⟨text,start,count,found,number,positive,strings⟩ := (tokensOf_some_iff ..).mp read
  obtain ⟨shape,-,-⟩ := countLine_split buf text start found
  constructor
  · rintro ⟨removed,strings',split,⟨text',bulks,rfl,plain,size,-,grammar⟩,-⟩
    have free := free_of_noReturn _ (plain_noReturn 42#8 text' plain (by decide))
    simp only [List.cons_append,List.append_assoc] at split
    cases found.symm.trans (countLine_of_split buf text' _ free split)
    obtain ⟨rfl,-⟩ := (stoi_plain text plain count).mp number
    refine ⟨fun line same => ?_,?_⟩
    · cases found.symm.trans same
      exact plain
    · have behind : buf.drop (text.length + 3) = bulks ++ buf.drop pos := by
        have same := shape.symm.trans split
        simpa using same
      rw [Int.toNat_natCast,size] at strings
      simp only [lengthsReached,found,number,Int.toNat_natCast,size]
      exact delimited_of_isBulks storable bulks strings' grammar _ _ behind tokens pos strings
  · rintro ⟨countPlain,marked⟩
    have plain := countPlain _ found
    obtain ⟨rfl,-⟩ := (stoi_plain text plain count).mp number
    simp only [lengthsReached,found,number] at marked
    obtain ⟨bulks,split,grammar⟩ := isBulks_of_delimited storable _ start tokens pos marked strings
    have length := readTokens_length buf _ start tokens pos strings
    refine ⟨42#8 :: (text ++ (crlf ++ bulks)),tokens,?_,⟨text,bulks,rfl,plain,?_,?_,grammar⟩,built⟩
    · conv => lhs; rw [shape,split]
      simp
    · rw [length,Int.toNat_natCast]
    · exact tokensOf_ne_nil buf tokens pos read

theorem accepted_iff_delimited_get :
    ∃ removed strings, ascii "*2\r\n$3\r\nget\r\n$2\r\n\r\n\r\n*1" = removed ++ ascii "*1" ∧
      IsArray removed strings ∧ commandOf strings = .ok ⟨.GET,[ascii "\r\n"],.NONE⟩ := by
  have accepted : RespReader.tryParse ⟨ascii "*2\r\n$3\r\nget\r\n$2\r\n\r\n\r\n*1"⟩ =
      .ok (.OK ⟨.GET,[ascii "\r\n"],.NONE⟩) ⟨ascii "*1"⟩ :=
    ((RespReader.takeResult_some_iff ..).mp (by decide +kernel)).1
  exact (accepted_iff_delimited _ (by decide) _ _ accepted).mpr (by decide +kernel)

/-- The two bytes behind a string are skipped unseen. -/
theorem unterminated_accepted :
    RespReader.tryParse ⟨ascii "*1\r\n$4\r\nKEYSxx"⟩ = .ok (.OK ⟨.KEYS,[],.NONE⟩) ⟨[]⟩ ∧
      ∀ strings, ¬IsArray (ascii "*1\r\n$4\r\nKEYSxx") strings := by
  refine ⟨((RespReader.takeResult_some_iff ..).mp (by decide +kernel)).1,fun strings array => ?_⟩
  exact absurd (isArray_end _ strings array) (by decide)

end KvCache
