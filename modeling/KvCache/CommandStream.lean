import KvCache.CommandCodec
import KvCache.Framing
import Mathlib.Data.Set.List

/-! Commands on a byte stream. A well-formed command is a frame of the stream, so what the
reader returns does not depend on how the stream is cut into chunks. -/
namespace KvCache

/-- What a call of `TryParse` that does not wait for more ends with. -/
abbrev ParseEvent := Except Fault ParseResult

namespace RespReader

/-- The next event and the bytes left; none when the reader waits. -/
def nextEvent (buf : Bytes) : Option (ParseEvent × Bytes) :=
  match tryParse ⟨buf⟩ with
  | .ok .PARTIAL _ => none
  | .ok result reader => some (.ok result,reader.buf)
  | .error e reader => some (.error e,reader.buf)

def received (cmd : Command) : ParseEvent := .ok (.OK cmd)

def encodeEvent : ParseEvent → Bytes
  | .ok (.OK cmd) => serializeCommand cmd
  | _ => []

theorem nextEvent_of_OK (buf : Bytes) (cmd : Command) (rest : Bytes)
    (run : tryParse ⟨buf⟩ = .ok (.OK cmd) ⟨rest⟩) : nextEvent buf = some (received cmd,rest) := by
  simp only [nextEvent,run,received]

theorem nextEvent_of_PARTIAL (buf : Bytes) (reader : RespReader)
    (run : tryParse ⟨buf⟩ = .ok .PARTIAL reader) : nextEvent buf = none := by
  simp only [nextEvent,run]

theorem tryParse_nil : tryParse ⟨[]⟩ = .ok .PARTIAL ⟨[]⟩ := by
  simp [tryParse,readLine,findCrlf]

/-- The events of well-formed commands are the frames of a command stream. -/
def commands : Framing ParseEvent Byte where
  encode := encodeEvent
  Valid e := ∃ cmd : Command, e = received cmd ∧ cmd.WellFormed
  decode := nextEvent
  decode_nil := nextEvent_of_PARTIAL [] _ tryParse_nil
  decode_encode := by
    rintro _ rest ⟨cmd,rfl,wellFormed⟩
    exact nextEvent_of_OK _ cmd rest (tryParse_serialized cmd wellFormed rest)
  decode_strict := by
    rintro _ part ⟨cmd,rfl,wellFormed⟩ inside strict
    exact nextEvent_of_PARTIAL part _ (tryParse_strict cmd wellFormed part inside strict)

theorem commands_valid (cmds : List Command) (wellFormed : ∀ cmd ∈ cmds, cmd.WellFormed) :
    ∀ e ∈ cmds.map received, commands.Valid e := by
  intro e member
  obtain ⟨cmd,inside,rfl⟩ := List.mem_map.mp member
  exact ⟨cmd,rfl,wellFormed cmd inside⟩

theorem commands_stream (cmds : List Command) :
    commands.stream (cmds.map received) = cmds.flatMap serializeCommand := by
  rw [Framing.stream,List.flatMap_map]
  rfl

def parseAll : Nat → Act RespReader (List ParseResult)
  | 0 => throw .outOfFuel
  | fuel + 1 => do
    match ← tryParse with
    | .PARTIAL => return []
    | result => return result :: (← parseAll fuel)

/-- Feed chunk after chunk, and parse after each all that has arrived. -/
def feedAll (fuel : Nat) : List Bytes → Act RespReader (List (List ParseResult))
  | [] => return []
  | chunk :: chunks => do
    feed chunk
    let results ← parseAll fuel
    return results :: (← feedAll fuel chunks)

theorem tryParse_waits (buf : Bytes) (reader : RespReader)
    (run : tryParse ⟨buf⟩ = .ok .PARTIAL reader) : reader = ⟨buf⟩ := by
  rw [tryParse_eq] at run
  split at run
  · cases run
    rfl
  split at run
  · cases run
  split at run
  · cases run
  split at run
  · cases run
  split at run
  · cases run
  · cases run
    rfl
  · split at run <;> cases run

theorem tryParse_of_nextEvent_none (buf : Bytes) (waits : nextEvent buf = none) :
    tryParse ⟨buf⟩ = .ok .PARTIAL ⟨buf⟩ := by
  unfold nextEvent at waits
  split at waits
  next reader run => rw [run,tryParse_waits buf reader run]
  next => cases waits
  next => cases waits

theorem tryParse_of_nextEvent (buf : Bytes) (result : ParseResult) (rest : Bytes)
    (next : nextEvent buf = some (.ok result,rest)) :
    tryParse ⟨buf⟩ = .ok result ⟨rest⟩ ∧ result ≠ .PARTIAL := by
  unfold nextEvent at next
  split at next
  next => cases next
  next reader goes run =>
    cases next
    exact ⟨run,goes⟩
  next => cases next

/-- Parsing all follows the stream's frames. -/
theorem parseAll_of_drain (fuel : Nat) (buf : Bytes) (results : List ParseResult) (last : Bytes)
    (drained : commands.drain fuel buf = some (results.map .ok,last)) :
    parseAll fuel ⟨buf⟩ = .ok results ⟨last⟩ := by
  induction fuel generalizing buf results with
  | zero => cases drained
  | succ fuel ih =>
    cases results with
    | nil =>
      obtain ⟨waits,rfl⟩ := (commands.drain_nil_iff fuel buf last).mp drained
      simp [parseAll,tryParse_of_nextEvent_none last waits]
    | cons result results =>
      obtain ⟨rest,next,drained⟩ := (commands.drain_cons_iff fuel buf last _ _).mp drained
      obtain ⟨run,goes⟩ := tryParse_of_nextEvent buf result rest next
      have later := ih rest results drained
      cases result with
      | PARTIAL => exact absurd rfl goes
      | OK cmd => simp [parseAll,run,later]
      | PROTOCOL_ERROR => simp [parseAll,run,later]

theorem feedAll_of_feed (fuel : Nat) (chunks : List Bytes) (buf : Bytes)
    (results : List (List ParseResult)) (last : Bytes)
    (fed : commands.feed fuel buf chunks = some (results.map (List.map .ok),last)) :
    feedAll fuel chunks ⟨buf⟩ = .ok results ⟨last⟩ := by
  induction chunks generalizing buf results with
  | nil =>
    obtain ⟨none,rfl⟩ := Prod.mk.inj (Option.some.inj fed)
    obtain rfl := List.map_eq_nil_iff.mp none.symm
    rfl
  | cons chunk chunks ih =>
    simp only [Framing.feed,Option.bind_eq_bind,Option.bind_eq_some_iff,Option.pure_def,
      Option.some.injEq,Prod.mk.injEq,Prod.exists] at fed
    obtain ⟨events,rest,drained,later,last',fed,shape,rfl⟩ := fed
    cases results with
    | nil => cases shape
    | cons result results =>
      obtain ⟨rfl,rfl⟩ := List.cons.inj shape
      have now := parseAll_of_drain fuel (buf ++ chunk) result rest drained
      simp [feedAll,feed,now,ih rest results fed]

theorem results_of_flatten (outs : List (List ParseEvent)) (cmds : List Command)
    (all : outs.flatten = cmds.map received) : ∃ results : List (List ParseResult),
      results.map (List.map .ok) = outs := by
  have each : ∀ out ∈ outs, out ∈ Set.range (List.map (Except.ok : ParseResult → ParseEvent)) := by
    intro out member
    rw [Set.range_list_map]
    intro e inside
    have event : e ∈ cmds.map received := all ▸ List.mem_flatten_of_mem member inside
    obtain ⟨cmd,-,rfl⟩ := List.mem_map.mp event
    exact ⟨.OK cmd,rfl⟩
  have lifted : outs ∈ Set.range (List.map (List.map (Except.ok : ParseResult → ParseEvent))) := by
    rw [Set.range_list_map]
    exact each
  exact lifted

theorem results_eq (results : List (List ParseResult)) (cmds : List Command)
    (same : (results.map (List.map .ok)).flatten = cmds.map received) :
    results.flatten = cmds.map .OK := by
  have events : cmds.map received = (cmds.map ParseResult.OK).map .ok := by simp [received]
  rw [← List.map_flatten,events] at same
  exact List.map_injective_iff.mpr (fun _ _ => Except.ok.inj) same

/-- Commands are received as they were sent, whatever the chunks. After each chunk
the commands obtained are those whose last byte has arrived by then; after the last one
they are all the commands, and no byte is left. -/
theorem feedAll_serialized (cmds : List Command) (wellFormed : ∀ cmd ∈ cmds, cmd.WellFormed)
    (chunks : List Bytes) (cut : chunks.flatten = cmds.flatMap serializeCommand)
    (fuel : Nat) (enough : cmds.length < fuel) :
    ∃ results, feedAll fuel chunks empty = .ok results empty ∧
      results.flatten = cmds.map .OK ∧ results.length = chunks.length ∧
      ∀ i ≤ chunks.length, ∃ k ≤ cmds.length, (results.take i).flatten = (cmds.take k).map .OK ∧
        ∀ j ≤ cmds.length,
          ((cmds.take j).flatMap serializeCommand).length ≤ (chunks.take i).flatten.length ↔
            j ≤ k := by
  have valid := commands_valid cmds wellFormed
  have stream := commands_stream cmds
  obtain ⟨outs,fed,count,progress⟩ := commands.feed_from (cmds.map received) valid fuel
    (by simpa using enough) chunks 0 (Nat.zero_le _) (by rw [stream,cut,List.drop_zero])
  have arrived : ∀ i ≤ chunks.length, (outs.take i).flatten = (cmds.map received).take
      (commands.completed (cmds.map received) (chunks.take i).flatten.length) := by
    intro i bound
    simpa [commands.completed_zero _ valid] using progress i bound
  have all : outs.flatten = cmds.map received := by
    have last := arrived chunks.length (Nat.le_refl _)
    rwa [← count,List.take_length,count,List.take_length,cut,← stream,commands.completed_stream,
      List.take_length] at last
  obtain ⟨results,rfl⟩ := results_of_flatten outs cmds all
  rw [commands.pending_zero,Nat.zero_add,cut,← stream,commands.pending_stream] at fed
  refine ⟨results,feedAll_of_feed fuel chunks [] results [] fed,results_eq results cmds all,
    by simpa using count,fun i bound => ?_⟩
  refine ⟨commands.completed (cmds.map received) (chunks.take i).flatten.length,
    by simpa using commands.completed_le_length (cmds.map received) _,?_,?_⟩
  · have now := arrived i bound
    rw [← List.map_take,← List.map_take] at now
    exact results_eq _ _ now
  · intro j inside
    rw [← commands.fits_iff_le_completed _ _ j (by simpa using inside),← List.map_take,
      commands_stream]

/-- Two commands cut inside a length line, inside an argument that holds a line end, and
after the first command. -/
theorem feedAll_serialized_two :
    ∃ results, feedAll 3 [ascii "*3\r\n$3\r\nSET\r\n$",ascii "1\r\nk\r\n$4\r\n\r",[],
        ascii "\n$*\r\n*1\r\n",ascii "$4\r\nKEYS\r\n"] empty = .ok results empty ∧
      results.flatten = [.OK ⟨.SET,[ascii "k",ascii "\r\n$*"],.NONE⟩,.OK ⟨.KEYS,[],.NONE⟩] := by
  obtain ⟨results,run,all,-⟩ := feedAll_serialized
    [⟨.SET,[ascii "k",ascii "\r\n$*"],.NONE⟩,⟨.KEYS,[],.NONE⟩]
    (by
      intro cmd member
      simp only [List.mem_cons,List.not_mem_nil,or_false] at member
      rcases member with rfl | rfl
      · exact ⟨rfl,by decide,rfl⟩
      · exact ⟨rfl,by decide,rfl⟩)
    [ascii "*3\r\n$3\r\nSET\r\n$",ascii "1\r\nk\r\n$4\r\n\r",[],
      ascii "\n$*\r\n*1\r\n",ascii "$4\r\nKEYS\r\n"] (by decide +kernel) 3 (by decide)
  exact ⟨results,run,all⟩

end RespReader

end KvCache
