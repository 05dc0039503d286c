import KvCache.Protocol

/-! Serialised commands in the reader's buffer. A command is found in front of any bytes,
and nothing is found in a strict prefix of one, whatever its arguments contain. -/
namespace KvCache

theorem free_of_noReturn (line : Bytes) (noReturn : 13#8 ∉ line) : ¬crlf <:+: line :=
  fun inside => noReturn (inside.subset (by simp [crlf]))

theorem findCrlf_of_free (line rest : Bytes) (free : ¬crlf <:+: line) :
    findCrlf (line ++ (crlf ++ rest)) = some line.length := by
  induction line with
  | nil => simp [findCrlf,crlf]
  | cons a line ih =>
    have later := ih fun inside => free (List.infix_cons inside)
    have apart : ∀ b tail, line ++ (crlf ++ rest) = b :: tail → ¬(a = 13#8 ∧ b = 10#8) := by
      rintro b tail shape ⟨rfl,rfl⟩
      cases line with
      | nil => simp [crlf] at shape
      | cons c line =>
        cases shape
        exact free ⟨[],line,rfl⟩
    obtain ⟨b,tail,shape⟩ : ∃ b tail, line ++ (crlf ++ rest) = b :: tail := by
      cases line with
      | nil => exact ⟨_,_,rfl⟩
      | cons b line => exact ⟨_,_,rfl⟩
    rw [List.cons_append,shape,findCrlf,if_neg (apart b tail shape),← shape,later]
    rfl

theorem findCrlf_line (line rest : Bytes) (noReturn : 13#8 ∉ line) :
    findCrlf (line ++ (crlf ++ rest)) = some line.length :=
  findCrlf_of_free line rest (free_of_noReturn line noReturn)

theorem findCrlf_short (line part : Bytes) (noReturn : 13#8 ∉ line)
    (short : part <+: line ++ [13#8]) : findCrlf part = none := by
  induction part generalizing line with
  | nil => rfl
  | cons a part ih =>
    cases part with
    | nil => rfl
    | cons b part =>
      cases line with
      | nil => simp at short
      | cons c line =>
        rw [List.cons_append,List.cons_prefix_cons] at short
        have ne : a ≠ 13#8 := fun same => noReturn (by simp [← short.1,same])
        have later := ih line (fun member => noReturn (List.mem_cons_of_mem c member)) short.2
        rw [findCrlf,if_neg (fun both => ne both.1),later]
        rfl

theorem readLine_front (front line rest : Bytes) (noReturn : 13#8 ∉ line) :
    readLine (front ++ (line ++ (crlf ++ rest))) front.length =
      some (line,front.length + line.length + 2) := by
  simp [readLine,findCrlf_line line rest noReturn]

theorem readLine_short (front line part : Bytes) (noReturn : 13#8 ∉ line)
    (short : part <+: line ++ [13#8]) : readLine (front ++ part) front.length = none := by
  simp [readLine,findCrlf_short line part noReturn short]

def header (mark : Byte) (n : Nat) : Bytes := mark :: decimal n

theorem header_noReturn (mark : Byte) (n : Nat) (ne : mark ≠ 13#8) : 13#8 ∉ header mark n := by
  rw [header,List.mem_cons]
  rintro (same | member)
  · exact ne same.symm
  · exact absurd (decimal_isDigit n _ member) (by decide)

theorem bulk_eq (data : Bytes) :
    bulk data = header 36#8 data.length ++ (crlf ++ (data ++ crlf)) := by
  have mark : ascii "$" = [36#8] := by decide
  simp [bulk,header,mark]

theorem bulk_length (data : Bytes) :
    (bulk data).length = (header 36#8 data.length).length + data.length + 4 := by
  simp [bulk_eq,crlf]
  omega

theorem bulk_length_le (data : Bytes) (fits : data.length < 2 ^ 31) :
    (bulk data).length ≤ data.length + 15 := by
  have digits := decimal_length_le data.length fits
  simp only [bulk_length,header,List.length_cons]
  omega

/-- A string short enough for its length to be read back. -/
abbrev Readable (data : Bytes) : Prop := data.length < 2 ^ 31 - 2

/-- Behind its header line a string is there once its bytes and the two after them are. -/
theorem readBulkString_header (front data more : Bytes) (fits : Readable data)
    (room : (front ++ bulk data).length < 2 ^ 64) :
    readBulkString (front ++ (header 36#8 data.length ++ (crlf ++ more))) front.length =
      if more.length < data.length + 2 then .ok none
      else .ok (some (more.take data.length,(front ++ bulk data).length)) := by
  have mark : (front ++ (header 36#8 data.length ++ (crlf ++ more)))[front.length]? = some 36#8 := by
    simp [header]
  have line := readLine_front front (header 36#8 data.length) more
    (header_noReturn 36#8 _ (by decide))
  have skipped : (front ++ (header 36#8 data.length ++ (crlf ++ more))).drop
      (front.length + (header 36#8 data.length).length + 2) = more := by
    have regroup : front ++ (header 36#8 data.length ++ (crlf ++ more)) =
        (front ++ header 36#8 data.length ++ crlf) ++ more := by simp
    have size : front.length + (header 36#8 data.length).length + 2 =
        (front ++ header 36#8 data.length ++ crlf).length := by
      simp [crlf]
      omega
    rw [regroup,size,List.drop_left]
  have small : data.length < 2 ^ 31 - 2 := fits
  have size : ((data.length : Int) % 2 ^ 64).toNat = data.length := by omega
  have number : stoi (header 36#8 data.length).tail = .ok (data.length : Int) :=
    stoi_decimal data.length (by omega)
  have after : front.length + (header 36#8 data.length).length + 2 + data.length + 2 =
      (front ++ bulk data).length := by
    rw [List.length_append,bulk_length]
    omega
  have total : (front ++ (header 36#8 data.length ++ (crlf ++ more))).length + data.length + 2 =
      (front ++ bulk data).length + more.length := by
    rw [← after]
    simp [crlf]
    omega
  rw [readBulkString,if_neg (not_not.mpr mark),line]
  -- neither the cast of the length nor the sum wraps
  simp only [number,bind,Except.bind,size,after,Nat.mod_eq_of_lt room,skipped]
  rw [if_neg (by omega)]
  by_cases short : more.length < data.length + 2
  · rw [if_pos (by omega),if_pos short]
  · rw [if_neg (by omega),if_neg (by omega),if_neg short]

theorem readBulkString_front (front data rest : Bytes) (fits : Readable data)
    (room : (front ++ bulk data).length < 2 ^ 64) :
    readBulkString (front ++ (bulk data ++ rest)) front.length =
      .ok (some (data,(front ++ bulk data).length)) := by
  have whole : bulk data ++ rest = header 36#8 data.length ++ (crlf ++ (data ++ (crlf ++ rest))) := by
    simp [bulk_eq]
  have enough : ¬(data ++ (crlf ++ rest)).length < data.length + 2 := by simp [crlf]
  rw [whole,readBulkString_header front data _ fits room,if_neg enough,List.take_left]

theorem strict_prefix_append (a b part : Bytes) (inside : part <+: a ++ b) (strict : part ≠ a ++ b) :
    (part <+: a ∧ part ≠ a) ∨ ∃ more, part = a ++ more ∧ more <+: b ∧ more ≠ b := by
  rcases List.prefix_or_prefix_of_prefix inside (List.prefix_append a b) with early | ⟨more,rfl⟩
  · by_cases same : part = a
    · subst same
      exact .inr ⟨[],by simp,List.nil_prefix,fun empty => strict (by simp [← empty])⟩
    · exact .inl ⟨early,same⟩
  · exact .inr ⟨more,rfl,(List.prefix_append_right_inj a).mp inside,
      fun same => strict (by rw [same])⟩

theorem readLine_strict (front line part : Bytes) (noReturn : 13#8 ∉ line)
    (inside : part <+: line ++ crlf) (strict : part ≠ line ++ crlf) :
    readLine (front ++ part) front.length = none := by
  have split : line ++ crlf = (line ++ [13#8]) ++ [10#8] := by simp [crlf]
  rw [split] at inside strict
  refine readLine_short front line part noReturn ?_
  rcases strict_prefix_append _ _ part inside strict with ⟨early,-⟩ | ⟨more,rfl,within,partly⟩
  · exact early
  · have none : more = [] := by
      rcases List.prefix_cons_iff.mp within with empty | ⟨tail,rfl,more⟩
      · exact empty
      · exact absurd (by rw [List.prefix_nil.mp more]) partly
    simp [none]

theorem readBulkString_strict (front data part : Bytes) (fits : Readable data)
    (room : (front ++ bulk data).length < 2 ^ 64) (inside : part <+: bulk data)
    (strict : part ≠ bulk data) : readBulkString (front ++ part) front.length = .ok none := by
  have split : bulk data = (header 36#8 data.length ++ crlf) ++ (data ++ crlf) := by
    simp [bulk_eq]
  rw [split] at inside strict
  rcases strict_prefix_append _ _ part inside strict with ⟨early,partly⟩ | ⟨more,rfl,within,partly⟩
  · have line := readLine_strict front _ part (header_noReturn 36#8 _ (by decide)) early partly
    unfold readBulkString
    split
    · rfl
    · rw [line]
  · have shorter : more.length < (data ++ crlf).length :=
      Nat.lt_of_le_of_ne within.length_le fun same => partly (within.eq_of_length same)
    have short : more.length < data.length + 2 := by simpa [crlf] using shorter
    rw [List.append_assoc (header _ _),readBulkString_header front data more fits room,if_pos short]

theorem readTokens_front (front : Bytes) (tokens : List Bytes) (rest : Bytes)
    (fits : ∀ t ∈ tokens, Readable t) (room : (front ++ tokens.flatMap bulk).length < 2 ^ 64) :
    readTokens (front ++ (tokens.flatMap bulk ++ rest)) tokens.length front.length =
      .ok (some (tokens,(front ++ tokens.flatMap bulk).length)) := by
  induction tokens generalizing front with
  | nil => simp [readTokens]
  | cons t tokens ih =>
    have regroup : front ++ ((t :: tokens).flatMap bulk ++ rest) =
        front ++ (bulk t ++ (tokens.flatMap bulk ++ rest)) := by simp
    have regroup' : front ++ (bulk t ++ (tokens.flatMap bulk ++ rest)) =
        (front ++ bulk t) ++ (tokens.flatMap bulk ++ rest) := by simp
    have room' : ((front ++ bulk t) ++ tokens.flatMap bulk).length < 2 ^ 64 := by
      simpa [Nat.add_assoc] using room
    have head := readBulkString_front front t (tokens.flatMap bulk ++ rest)
      (fits t List.mem_cons_self) (by rw [List.length_append] at room'; omega)
    have tail := ih (front ++ bulk t) (fun u member => fits u (List.mem_cons_of_mem t member)) room'
    rw [regroup,List.length_cons,readTokens,head]
    simp only [bind,Except.bind]
    rw [regroup',tail]
    simp

theorem readTokens_strict (front : Bytes) (tokens : List Bytes) (part : Bytes)
    (fits : ∀ t ∈ tokens, Readable t) (room : (front ++ tokens.flatMap bulk).length < 2 ^ 64)
    (inside : part <+: tokens.flatMap bulk) (strict : part ≠ tokens.flatMap bulk) :
    readTokens (front ++ part) tokens.length front.length = .ok none := by
  induction tokens generalizing front part with
  | nil => exact absurd (List.prefix_nil.mp inside) strict
  | cons t tokens ih =>
    have room' : ((front ++ bulk t) ++ tokens.flatMap bulk).length < 2 ^ 64 := by
      simpa [Nat.add_assoc] using room
    have headRoom : (front ++ bulk t).length < 2 ^ 64 := by
      rw [List.length_append] at room'
      omega
    have headFits := fits t List.mem_cons_self
    rw [List.flatMap_cons] at inside strict
    rw [List.length_cons,readTokens]
    rcases strict_prefix_append _ _ part inside strict with ⟨early,partly⟩ | ⟨more,rfl,within,partly⟩
    · rw [readBulkString_strict front t part headFits headRoom early partly]
      rfl
    · have tail := ih (front ++ bulk t) more
        (fun u member => fits u (List.mem_cons_of_mem t member)) room' within partly
      rw [readBulkString_front front t more headFits headRoom]
      simp only [bind,Except.bind]
      rw [← List.append_assoc,tail]

/-- `*<count>\r\n` and the strings. -/
def respArray (tokens : List Bytes) : Bytes :=
  header 42#8 tokens.length ++ (crlf ++ tokens.flatMap bulk)

/-- Strings that can be sent as an array: some, and each readable. -/
structure Sendable (tokens : List Bytes) : Prop where
  some : tokens ≠ []
  count : tokens.length < 2 ^ 31
  readable : ∀ t ∈ tokens, Readable t

theorem tokens_length_le (tokens : List Bytes) (readable : ∀ t ∈ tokens, Readable t) :
    (tokens.flatMap bulk).length ≤ tokens.length * 2 ^ 32 := by
  induction tokens with
  | nil => simp
  | cons t tokens ih =>
    have fits : t.length < 2 ^ 31 - 2 := readable t List.mem_cons_self
    have head := bulk_length_le t (by omega)
    have tail := ih fun u member => readable u (List.mem_cons_of_mem t member)
    rw [List.flatMap_cons,List.length_append,List.length_cons]
    omega

theorem Sendable.room {tokens : List Bytes} (sendable : Sendable tokens) :
    ((header 42#8 tokens.length ++ crlf) ++ tokens.flatMap bulk).length < 2 ^ 64 := by
  have strings := tokens_length_le tokens sendable.readable
  have count := sendable.count
  have digits := decimal_length_le tokens.length count
  simp only [List.length_append,header,List.length_cons,crlf,List.length_nil]
  omega

def CommandType.arity : CommandType → Option Nat
  | .SET => some 2
  | .GET => some 1
  | .DEL => some 1
  | .EXISTS => some 1
  | .KEYS => some 0
  | .UNKNOWN => none

structure Command.WellFormed (cmd : Command) : Prop where
  arity : cmd.type.arity = some cmd.args.length
  readable : ∀ arg ∈ cmd.args, Readable arg
  error : cmd.error = .NONE

namespace Command

def tokens (cmd : Command) : List Bytes := cmd.type.name :: cmd.args

theorem WellFormed.known (cmd : Command) (wellFormed : cmd.WellFormed) : cmd.type ≠ .UNKNOWN := by
  intro unknown
  have arity := wellFormed.arity
  rw [unknown] at arity
  cases arity

theorem WellFormed.args_length (cmd : Command) (wellFormed : cmd.WellFormed) :
    cmd.args.length ≤ 2 := by
  have arity := wellFormed.arity
  cases type : cmd.type <;> simp [type,CommandType.arity] at arity <;> omega

theorem WellFormed.tokens_readable (cmd : Command) (wellFormed : cmd.WellFormed) :
    ∀ t ∈ cmd.tokens, Readable t := by
  intro t member
  rcases List.mem_cons.mp member with rfl | arg
  · cases cmd.type <;> decide
  · exact wellFormed.readable t arg

theorem serialize_eq (cmd : Command) (few : cmd.args.length ≤ 2) :
    serializeCommand cmd = respArray cmd.tokens := by
  have mark : ascii "*" = [42#8] := by decide
  have count : 1 + (cmd.args.length : Int).bmod (2 ^ 32) = ((cmd.args.length + 1 : Nat) : Int) := by
    have small := Int.bmod_eq_of_le (n := (cmd.args.length : Int)) (m := 2 ^ 32)
      (by omega) (by omega)
    omega
  have digits : decimalInt ((cmd.args.length + 1 : Nat) : Int) = decimal (cmd.args.length + 1) := rfl
  rw [serializeCommand,count,digits]
  simp [mark,header,tokens,respArray]

theorem commandOf_tokens (cmd : Command) (wellFormed : cmd.WellFormed) :
    commandOf cmd.tokens = .ok cmd := by
  obtain ⟨type,args,error⟩ := cmd
  have arity := wellFormed.arity
  have noError : error = .NONE := wellFormed.error
  subst noError
  cases type with
  | SET =>
    obtain ⟨key,value,rfl⟩ := List.length_eq_two.mp (Option.some.inj arity).symm
    rfl
  | GET =>
    obtain ⟨key,rfl⟩ := List.length_eq_one_iff.mp (Option.some.inj arity).symm
    rfl
  | DEL =>
    obtain ⟨key,rfl⟩ := List.length_eq_one_iff.mp (Option.some.inj arity).symm
    rfl
  | EXISTS =>
    obtain ⟨key,rfl⟩ := List.length_eq_one_iff.mp (Option.some.inj arity).symm
    rfl
  | KEYS =>
    obtain rfl := List.length_eq_zero_iff.mp (Option.some.inj arity).symm
    rfl
  | UNKNOWN => cases arity

theorem WellFormed.sendable (cmd : Command) (wellFormed : cmd.WellFormed) : Sendable cmd.tokens := by
  have few := wellFormed.args_length
  have count : cmd.tokens.length = cmd.args.length + 1 := rfl
  exact ⟨by simp [tokens],by omega,wellFormed.tokens_readable⟩

end Command

namespace RespReader

/-- What `TryParse` returns, and the bytes it keeps. -/
theorem tryParse_eq (buf : Bytes) :
    tryParse ⟨buf⟩ =
      match readLine buf 0 with
      | none => .ok .PARTIAL ⟨buf⟩
      | some (line,pos) =>
        if line.head? ≠ some 42#8 then .ok .PROTOCOL_ERROR ⟨buf.drop pos⟩
        else match stoi line.tail with
          | .error e => .error e ⟨buf⟩
          | .ok count =>
            if count ≤ 0 then .ok .PROTOCOL_ERROR ⟨buf.drop pos⟩
            else match readTokens buf count.toNat pos with
              | .error e => .error e ⟨buf⟩
              | .ok none => .ok .PARTIAL ⟨buf⟩
              | .ok (some (tokens,pos)) =>
                match commandOf tokens with
                | .error e => .error e ⟨buf⟩
                | .ok cmd => .ok (.OK cmd) ⟨buf.drop pos⟩ := by
  simp only [tryParse,Act.bind_apply,Act.get_apply]
  rcases readLine buf 0 with _ | ⟨line,pos⟩
  · rfl
  simp only [Act.ite_apply]
  by_cases mark : line.head? ≠ some 42#8
  · simp only [if_pos mark]
    rfl
  simp only [if_neg mark,Act.bind_apply]
  cases stoi line.tail with
  | error e => rfl
  | ok count =>
    simp only [Act.ofExcept_ok,Act.ite_apply]
    by_cases none : count ≤ 0
    · simp only [if_pos none]
      rfl
    simp only [if_neg none,Act.bind_apply]
    rcases readTokens buf count.toNat pos with e | _ | ⟨tokens,pos⟩
    · rfl
    · rfl
    simp only [Act.ofExcept_ok,Act.bind_apply]
    cases commandOf tokens with
    | error e => rfl
    | ok cmd => rfl

theorem tryParse_header (count : Nat) (positive : 0 < count) (small : count < 2 ^ 31) (rest : Bytes) :
    tryParse ⟨header 42#8 count ++ crlf ++ rest⟩ =
      match readTokens (header 42#8 count ++ crlf ++ rest) count
        (header 42#8 count ++ crlf).length with
      | .error e => .error e ⟨header 42#8 count ++ crlf ++ rest⟩
      | .ok none => .ok .PARTIAL ⟨header 42#8 count ++ crlf ++ rest⟩
      | .ok (some (tokens,pos)) =>
        match commandOf tokens with
        | .error e => .error e ⟨header 42#8 count ++ crlf ++ rest⟩
        | .ok cmd => .ok (.OK cmd) ⟨(header 42#8 count ++ crlf ++ rest).drop pos⟩ := by
  have line := readLine_front [] (header 42#8 count) rest (header_noReturn 42#8 count (by decide))
  have after : 0 + (header 42#8 count).length + 2 = (header 42#8 count ++ crlf).length := by
    simp [crlf]
  rw [List.nil_append,← List.append_assoc,List.length_nil,after] at line
  have number : stoi (header 42#8 count).tail = .ok (count : Int) := stoi_decimal count small
  have mark : (header 42#8 count).head? = some 42#8 := rfl
  simp only [tryParse_eq,line,mark,number,ne_eq,not_true_eq_false,if_false,Int.toNat_natCast,
    if_neg (show ¬(count : Int) ≤ 0 by omega)]

/-- An array in front of any bytes is read as the command its strings make. -/
theorem tryParse_array (tokens : List Bytes) (sendable : Sendable tokens) (rest : Bytes) :
    tryParse ⟨respArray tokens ++ rest⟩ =
      match commandOf tokens with
      | .error e => .error e ⟨respArray tokens ++ rest⟩
      | .ok cmd => .ok (.OK cmd) ⟨rest⟩ := by
  have strings := readTokens_front (header 42#8 tokens.length ++ crlf) tokens rest
    sendable.readable sendable.room
  have whole : respArray tokens ++ rest =
      header 42#8 tokens.length ++ crlf ++ (tokens.flatMap bulk ++ rest) := by
    simp only [respArray,List.append_assoc]
  have positive := List.length_pos_iff.mpr sendable.some
  have behind : (header 42#8 tokens.length ++ crlf ++ (tokens.flatMap bulk ++ rest)).drop
      (header 42#8 tokens.length ++ crlf ++ tokens.flatMap bulk).length = rest := by
    rw [← List.append_assoc,List.drop_left]
  rw [whole,tryParse_header _ positive sendable.count,strings]
  cases made : commandOf tokens with
  | error e => simp only [made]
  | ok cmd => simp only [made,behind]

theorem tryParse_array_strict (tokens : List Bytes) (sendable : Sendable tokens) (part : Bytes)
    (inside : part <+: respArray tokens) (strict : part ≠ respArray tokens) :
    tryParse ⟨part⟩ = .ok .PARTIAL ⟨part⟩ := by
  have positive := List.length_pos_iff.mpr sendable.some
  rw [respArray,← List.append_assoc] at inside strict
  rcases strict_prefix_append _ _ part inside strict with ⟨early,partly⟩ | ⟨more,rfl,within,partly⟩
  · have line := readLine_strict [] _ part (header_noReturn 42#8 _ (by decide)) early partly
    rw [List.nil_append,List.length_nil] at line
    simp [tryParse,line]
  · have strings := readTokens_strict (header 42#8 tokens.length ++ crlf) tokens more
      sendable.readable sendable.room within partly
    rw [tryParse_header _ positive sendable.count,strings]

theorem tryParse_serialized (cmd : Command) (wellFormed : cmd.WellFormed) (rest : Bytes) :
    tryParse ⟨serializeCommand cmd ++ rest⟩ = .ok (.OK cmd) ⟨rest⟩ := by
  rw [Command.serialize_eq cmd wellFormed.args_length,tryParse_array _ wellFormed.sendable,
    Command.commandOf_tokens cmd wellFormed]

/-- Before the last byte of a command has arrived the reader waits, and keeps what it has. -/
theorem tryParse_strict (cmd : Command) (wellFormed : cmd.WellFormed) (part : Bytes)
    (inside : part <+: serializeCommand cmd) (strict : part ≠ serializeCommand cmd) :
    tryParse ⟨part⟩ = .ok .PARTIAL ⟨part⟩ := by
  rw [Command.serialize_eq cmd wellFormed.args_length] at inside strict
  exact tryParse_array_strict cmd.tokens wellFormed.sendable part inside strict

end RespReader

end KvCache
