import KvCache.ParserProgress
import KvCache.CommandStream

/-! What the reader makes of bytes it has, whatever bytes come later. Where no length is
negative, what a call returns is settled by the bytes it has read, so the results do not depend
on how a stream is cut, well-formed or not; and the line after which a stream is read on. -/
namespace KvCache

def nonNegative (line : Bytes × Nat) : Bool :=
  match stoi line.1 with
  | .error _ => true
  | .ok len => decide (0 ≤ len)

/-- A buffer shorter than 2^31 in which no length line that `TryParse` comes to is negative. -/
def Tame (buf : Bytes) : Prop :=
  buf.length < 2 ^ 31 ∧ ∀ line ∈ lengthsReached buf, nonNegative line = true

instance (buf : Bytes) : Decidable (Tame buf) := inferInstanceAs (Decidable (_ ∧ _))

theorem Tame.storable {buf : Bytes} (tame : Tame buf) : Storable buf :=
  Nat.lt_trans tame.1 (by decide)

theorem Tame.forward {buf : Bytes} (tame : Tame buf) : Forward buf := by
  intro line member
  have positive := tame.2 line member
  unfold nonNegative at positive
  unfold leadsForward
  cases number : stoi line.1 with
  | error e => rfl
  | ok len =>
    simp only [number,decide_eq_true_eq] at positive
    simp only [Bool.or_eq_true,decide_eq_true_eq]
    omega

theorem readBulkString_inside (buf : Bytes) (pos : Nat) (text : Bytes) (start : Nat) (len : Int)
    (line : lengthLine buf pos = some (text,start)) (number : stoi text = .ok len)
    (positive : 0 ≤ len) (inside : start + len + 2 ≤ buf.length) (small : start + len + 2 < 2 ^ 31) :
    readBulkString buf pos =
      .ok (some ((buf.drop start).take len.toNat,(start + len + 2).toNat)) := by
  unfold lengthLine at line
  split at line
  next mark =>
    obtain ⟨⟨whole,behind⟩,read,shape⟩ := Option.map_eq_some_iff.mp line
    obtain ⟨rfl,rfl⟩ := Prod.mk.inj shape
    have size : (len % 2 ^ 64).toNat = len.toNat := by omega
    have stop : (behind + len.toNat + 2) % 2 ^ 64 = (behind + len + 2).toNat := by omega
    rw [readBulkString,if_neg (not_not.mpr mark),read]
    simp only [number,bind,Except.bind,size,stop]
    rw [if_neg (by omega),if_neg (by omega),if_neg (by omega)]
  next => cases line

section

variable {buf : Bytes} (small : buf.length < 2 ^ 31)
include small

theorem readBulkString_append (pos : Nat) (text : Bytes) (start : Nat) (token : Bytes) (next : Nat)
    (line : lengthLine buf pos = some (text,start)) (positive : nonNegative (text,start) = true)
    (read : readBulkString buf pos = .ok (some (token,next))) (more : Bytes) :
    readBulkString (buf ++ more) pos = .ok (some (token,next)) := by
  have storable : Storable buf := Nat.lt_trans small (by decide)
  obtain ⟨text,start,len,same,number,after⟩ := (readBulkString_some_iff buf storable ..).mp read
  cases line.symm.trans same
  simp only [nonNegative,number,decide_eq_true_eq] at positive
  obtain ⟨-,-,inside,-,rfl,rfl⟩ := (afterLength_some_iff ..).mp after
  have behind := (lengthLine_split buf pos text start line).2.2
  have longer : (buf ++ more).drop start = buf.drop start ++ more :=
    List.drop_append_of_le_length behind
  rw [readBulkString_inside (buf ++ more) pos text start len (lengthLine_append buf more pos _ line)
    number positive (by rw [List.length_append]; omega) (by omega),longer,
    List.take_append_of_le_length (by rw [List.length_drop]; omega),if_neg (by omega)]

theorem readTokens_append (count pos : Nat) (tokens : List Bytes) (last : Nat)
    (positive : ∀ line ∈ lengthLines buf count pos, nonNegative line = true)
    (read : readTokens buf count pos = .ok (some (tokens,last))) (more : Bytes) :
    readTokens (buf ++ more) count pos = .ok (some (tokens,last)) := by
  have storable : Storable buf := Nat.lt_trans small (by decide)
  induction count generalizing pos tokens with
  | zero => cases read; rfl
  | succ count ih =>
    obtain ⟨token,next,rest,string,later,rfl⟩ := (readTokens_some_iff buf count pos tokens last).mp read
    obtain ⟨text,start,len,line,-⟩ := (readBulkString_some_iff buf storable ..).mp string
    simp only [lengthLines,line,string,Option.toList_some,List.singleton_append,
      List.forall_mem_cons] at positive
    exact (readTokens_some_iff ..).mpr ⟨token,next,rest,
      readBulkString_append small pos text start token next line positive.1 string more,
      ih next rest positive.2 later,rfl⟩

end

theorem readTokens_last_le (buf : Bytes) (storable : Storable buf) (count pos : Nat)
    (inside : pos ≤ buf.length) (tokens : List Bytes) (last : Nat)
    (read : readTokens buf count pos = .ok (some (tokens,last))) : last ≤ buf.length := by
  induction count generalizing pos tokens with
  | zero => cases read; exact inside
  | succ count ih =>
    obtain ⟨token,next,rest,string,later,rfl⟩ := (readTokens_some_iff buf count pos tokens last).mp read
    obtain ⟨text,start,len,-,-,after⟩ := (readBulkString_some_iff buf storable ..).mp string
    obtain ⟨-,-,inside,-,-,rfl⟩ := (afterLength_some_iff ..).mp after
    exact ih _ (by omega) rest later

namespace RespReader

/-- A result stands whatever arrives later. -/
theorem tryParse_append (buf : Bytes) (tame : Tame buf) (result : ParseResult) (rest : Bytes)
    (run : tryParse ⟨buf⟩ = .ok result ⟨rest⟩) (goes : result ≠ .PARTIAL) (more : Bytes) :
    tryParse ⟨buf ++ more⟩ = .ok result ⟨rest ++ more⟩ := by
  have dropped (pos : Nat) (inside : pos ≤ buf.length) :
      buf.drop pos ++ more = (buf ++ more).drop pos := (List.drop_append_of_le_length inside).symm
  have ends := outcome buf
  rw [run] at ends
  cases ends with
  | noLine => exact absurd rfl goes
  | noString => exact absurd rfl goes
  | noArray line pos found mark =>
    rw [dropped pos (readLine_split buf 0 line pos found).2.2]
    exact (Outcome.noArray line pos (readLine_append buf more 0 _ found) mark).run
  | notPositive text start count found number none =>
    rw [dropped start (countLine_split buf text start found).2.2]
    exact (Outcome.notPositive text start count (countLine_append buf more _ found) number none).run
  | command tokens pos cmd read built =>
    obtain ⟨text,start,count,found,number,positive,strings⟩ := (tokensOf_some_iff ..).mp read
    have lengths := tame.2
    simp only [lengthsReached,found,number] at lengths
    have inside := (countLine_split buf text start found).2.2
    rw [dropped pos (readTokens_last_le buf tame.storable _ start inside tokens pos strings)]
    refine (Outcome.command tokens pos cmd ((tokensOf_some_iff ..).mpr ⟨text,start,count,
      countLine_append buf more _ found,number,positive,?_⟩) built).run
    exact readTokens_append tame.1 _ start tokens pos lengths strings more

theorem steady_of_tame (buf : Bytes) (tame : Tame buf) : Incremental.Steady takeResult buf := by
  intro result rest taken
  obtain ⟨run,goes⟩ := (takeResult_some_iff ..).mp taken
  refine ⟨tryParse_shorter tame.storable tame.forward result _ run goes,fun more => ?_⟩
  exact (takeResult_some_iff ..).mpr ⟨tryParse_append buf tame result rest run goes more,goes⟩

/-- What has been read settles the result. A result of a call stands whatever bytes follow,
a call that waits changes nothing, and so two ways of cutting a stream give the same results. -/
theorem results_settled :
    (∀ buf, Tame buf →
      (∀ result rest, tryParse ⟨buf⟩ = .ok result ⟨rest⟩ → result ≠ .PARTIAL →
        ∀ more, tryParse ⟨buf ++ more⟩ = .ok result ⟨rest ++ more⟩) ∧
      ∀ reader, tryParse ⟨buf⟩ = .ok .PARTIAL reader → reader = ⟨buf⟩) ∧
    ∀ first second : List Bytes, first.flatten = second.flatten →
      ∀ fuel, first.flatten.length < fuel →
        (∀ b ∈ Incremental.triedFed takeResult fuel [] first, Tame b) →
        (∀ b ∈ Incremental.triedFed takeResult fuel [] second, Tame b) →
        ∃ results results' last, Incremental.feed takeResult fuel [] first = some (results,last) ∧
          Incremental.feed takeResult fuel [] second = some (results',last) ∧
          results.flatten = results'.flatten := by
  refine ⟨fun buf tame => ⟨tryParse_append buf tame,tryParse_waits buf⟩,?_⟩
  intro first second same fuel enough tameFirst tameSecond
  exact Incremental.feed_agrees fuel first second same enough (by decide)
    (fun b member => steady_of_tame b (tameFirst b member))
    fun b member => steady_of_tame b (tameSecond b member)

/-- A malformed line, an unknown command, a command in small letters and a count that `stoi`
refuses, in one piece and in pieces that end inside a line end and inside a string. -/
def oneChunk : List Bytes := [ascii "x\r\n*1\r\n$1\r\nq\r\n*2\r\n$3\r\nget\r\n$1\r\nk\r\n*y\r\n"]

def manyChunks : List Bytes :=
  [ascii "x\r",ascii "\n*1\r\n$1\r\nq\r\n*2\r\n$3\r\ng",[],ascii "et\r\n$1\r\nk\r\n*y",ascii "\r\n"]

theorem results_settled_cut :
    ∃ results results' last, Incremental.feed takeResult 60 [] oneChunk = some (results,last) ∧
      Incremental.feed takeResult 60 [] manyChunks = some (results',last) ∧
      results.flatten = results'.flatten ∧ results.flatten.length = 3 := by
  obtain ⟨results,results',last,one,many,same⟩ := results_settled.2 oneChunk manyChunks (by decide +kernel)
    60 (by decide +kernel) (by decide +kernel) (by decide +kernel)
  have three : (Incremental.feed takeResult 60 [] oneChunk).map (fun r => r.1.flatten.length) =
      some 3 := by decide +kernel
  rw [one] at three
  exact ⟨results,results',last,one,many,same,Option.some.inj three⟩

/-- The reader refuses the line: it has no mark of an array, or `stoi` reads a count of 0 or
less behind the mark. -/
def refused (line : Bytes) : Bool :=
  line.head? ≠ some 42#8 ||
    match stoi line.tail with
    | .error _ => false
    | .ok count => decide (count ≤ 0)

theorem tryParse_line_iff (line : Bytes) (free : ¬crlf <:+: line) (rest : Bytes) :
    tryParse ⟨line ++ (crlf ++ rest)⟩ = .ok .PROTOCOL_ERROR ⟨rest⟩ ↔ refused line = true := by
  have found : readLine (line ++ (crlf ++ rest)) 0 = some (line,line.length + 2) := by
    simp [readLine,findCrlf_of_free line rest free]
  have behind : (line ++ (crlf ++ rest)).drop (line.length + 2) = rest := by
    rw [← List.append_assoc]
    exact List.drop_left' (by simp [crlf])
  rw [tryParse_eq,found]
  simp only [refused,behind]
  by_cases mark : line.head? = some 42#8
  · simp only [mark,ne_eq,not_true_eq_false,if_false,decide_false,Bool.false_or]
    cases stoi line.tail with
    | error e => simp
    | ok count =>
      by_cases none : count ≤ 0
      · simp [none]
      · simp only [none,if_false,decide_false,Bool.false_eq_true,iff_false]
        split
        · simp
        · simp
        · split <;> simp
  · simp [mark]

/-- Reading on behind a line. A line that is no command is answered with a protocol error
and the commands behind it are read, exactly where the reader refuses the line. -/
theorem reads_on_iff_refused (line : Bytes) (free : ¬crlf <:+: line) (cmds : List Command)
    (wellFormed : ∀ cmd ∈ cmds, cmd.WellFormed) (fuel : Nat) (enough : cmds.length < fuel) :
    (tryParse ⟨line ++ (crlf ++ cmds.flatMap serializeCommand)⟩ =
        .ok .PROTOCOL_ERROR ⟨cmds.flatMap serializeCommand⟩ ∧
      parseAll fuel ⟨cmds.flatMap serializeCommand⟩ = .ok (cmds.map .OK) empty) ↔
      refused line = true := by
  rw [tryParse_line_iff line free]
  refine and_iff_left ?_
  have valid := commands_valid cmds wellFormed
  have whole := commands.drain_take (cmds.map received) valid
    (commands.stream (cmds.map received)).length fuel
    (by rw [commands.completed_stream,List.length_map]; exact enough)
  rw [List.take_length,commands.completed_stream,List.take_length,commands.pending_stream,
    commands_stream] at whole
  have events : cmds.map received = (cmds.map ParseResult.OK).map .ok := by simp [received]
  rw [events] at whole
  exact parseAll_of_drain fuel _ _ [] whole

theorem reads_on_iff_refused_zero :
    tryParse ⟨ascii "*0\r\n*1\r\n$4\r\nKEYS\r\n"⟩ =
        .ok .PROTOCOL_ERROR ⟨ascii "*1\r\n$4\r\nKEYS\r\n"⟩ ∧
      parseAll 2 ⟨ascii "*1\r\n$4\r\nKEYS\r\n"⟩ = .ok [.OK ⟨.KEYS,[],.NONE⟩] empty := by
  have wellFormed : ∀ cmd ∈ [(⟨.KEYS,[],.NONE⟩ : Command)], cmd.WellFormed := by
    intro cmd member
    obtain rfl := List.mem_singleton.mp member
    exact ⟨rfl,by decide,rfl⟩
  exact (reads_on_iff_refused (ascii "*0") (by decide) [⟨.KEYS,[],.NONE⟩] wellFormed 2
    (by decide)).mpr (by decide +kernel)

/-- A count that is no number, and a command behind it: the call throws and the line stays in
the buffer, so every later call on the connection throws again. -/
theorem malformed_count_throws :
    tryParse ⟨ascii "*x\r\n*1\r\n$4\r\nKEYS\r\n"⟩ =
        .error .invalidArgument ⟨ascii "*x\r\n*1\r\n$4\r\nKEYS\r\n"⟩ ∧
      ∀ more, tryParse ⟨ascii "*x\r\n" ++ more⟩ =
        .error .invalidArgument ⟨ascii "*x\r\n" ++ more⟩ := by
  have found : countLine (ascii "*x\r\n") = some (ascii "x",4) := by decide
  have throws (more : Bytes) : tryParse ⟨ascii "*x\r\n" ++ more⟩ =
      .error .invalidArgument ⟨ascii "*x\r\n" ++ more⟩ :=
    (Outcome.badCount (ascii "x") 4 .invalidArgument (countLine_append _ more _ found) rfl).run
  exact ⟨throws (ascii "*1\r\n$4\r\nKEYS\r\n"),throws⟩

end RespReader

end KvCache
