import KvCache.Decimal

/-! The command protocol: arrays of length-delimited strings. The reader keeps the bytes
received so far and starts over from the first of them whenever it looks for a command. -/
namespace KvCache

inductive CommandType where
  | SET | GET | DEL | EXISTS | KEYS | UNKNOWN
  deriving DecidableEq, Repr

inductive ParseError where
  | NONE | EMPTY | UNKNOWN_COMMAND | WRONG_ARG_COUNT | PROTOCOL_ERROR
  deriving DecidableEq, Repr

structure Command where
  type : CommandType
  args : List Bytes
  error : ParseError
  deriving DecidableEq, Repr

inductive Status where
  | OK | VALUE | NOT_FOUND | ERR | COUNT
  deriving DecidableEq, Repr

structure Response where
  status : Status
  message : Bytes
  deriving DecidableEq, Repr

def crlf : Bytes := [13#8,10#8]

/-- `$<len>\r\n<data>\r\n`. -/
def bulk (data : Bytes) : Bytes := ascii "$" ++ decimal data.length ++ crlf ++ data ++ crlf

def serializeResponse (resp : Response) : Bytes :=
  match resp.status with
  | .OK => ascii "+OK" ++ crlf
  | .VALUE => bulk resp.message
  | .NOT_FOUND => ascii "$-1" ++ crlf
  | .ERR => ascii "-ERR " ++ resp.message ++ crlf
  | .COUNT => ascii ":" ++ resp.message ++ crlf

def CommandType.name : CommandType → Bytes
  | .SET => ascii "SET"
  | .GET => ascii "GET"
  | .DEL => ascii "DEL"
  | .EXISTS => ascii "EXISTS"
  | .KEYS => ascii "KEYS"
  | .UNKNOWN => ascii "UNKNOWN"

/-- The number of arguments is cast to `int` before one is added. -/
def serializeCommand (cmd : Command) : Bytes :=
  let count := 1 + (cmd.args.length : Int).bmod (2 ^ 32)
  ascii "*" ++ decimalInt count ++ crlf ++ bulk cmd.type.name ++ cmd.args.flatMap bulk

def toUpper (s : Bytes) : Bytes :=
  s.map fun c => if 97 ≤ c.toNat ∧ c.toNat ≤ 122 then c - 32#8 else c

/-- `find("\r\n")`. -/
def findCrlf : Bytes → Option Nat
  | a :: b :: rest =>
    if a = 13#8 ∧ b = 10#8 then some 0 else (findCrlf (b :: rest)).map (· + 1)
  | _ => none

/-- The line that starts at `pos`, and the position after its end. -/
def readLine (buf : Bytes) (pos : Nat) : Option (Bytes × Nat) :=
  (findCrlf (buf.drop pos)).map fun n => ((buf.drop pos).take n,pos + n + 2)

/-- The string at `pos`, and the position after it. `len` is an `int`: it is cast to
`size_t` in the test and in `substr`, where the sum wraps, and `len + 2` is a sum of
`int`s. Only the length -1 is singled out. -/
def readBulkString (buf : Bytes) (pos : Nat) : Except Fault (Option (Bytes × Nat)) :=
  if buf[pos]? ≠ some 36#8 then .ok none
  else match readLine buf pos with
    | none => .ok none
    | some (line,pos) => do
      let len ← stoi line.tail
      let size := (len % 2 ^ 64).toNat
      if len = -1 then .ok none
      else if buf.length < (pos + size + 2) % 2 ^ 64 then .ok none
      else if 2 ^ 31 ≤ len + 2 then .error .signedOverflow
      else .ok (some ((buf.drop pos).take size,(pos + size + 2) % 2 ^ 64))

/-- `count` strings in a row; none when one of them is missing. -/
def readTokens (buf : Bytes) : Nat → Nat → Except Fault (Option (List Bytes × Nat))
  | 0, pos => .ok (some ([],pos))
  | count + 1, pos => do
    match ← readBulkString buf pos with
    | none => .ok none
    | some (token,pos) =>
      match ← readTokens buf count pos with
      | none => .ok none
      | some (tokens,pos) => .ok (some (token :: tokens,pos))

def stringAt (strings : List Bytes) (i : Nat) : Except Fault Bytes :=
  match strings[i]? with
  | some s => .ok s
  | none => .error .outOfBounds

/-- The command the strings name. `SET` alone checks that its arguments are there; the
commands for an error are built with `{}` for the type, which is the enumerator of value
zero and not the member's default. -/
def commandOf (tokens : List Bytes) : Except Fault Command := do
  let upper := toUpper (← stringAt tokens 0)
  if upper = ascii "SET" then
    if tokens.length < 3 then return ⟨.SET,[],.WRONG_ARG_COUNT⟩
    return ⟨.SET,[← stringAt tokens 1,← stringAt tokens 2],.NONE⟩
  else if upper = ascii "GET" then return ⟨.GET,[← stringAt tokens 1],.NONE⟩
  else if upper = ascii "DEL" then return ⟨.DEL,[← stringAt tokens 1],.NONE⟩
  else if upper = ascii "EXISTS" then return ⟨.EXISTS,[← stringAt tokens 1],.NONE⟩
  else if upper = ascii "KEYS" then return ⟨.KEYS,[],.NONE⟩
  else return ⟨.SET,[],.UNKNOWN_COMMAND⟩

/-- `RespReader::Result`, with the command that `OK` leaves in the out-parameter. -/
inductive ParseResult where
  | OK (cmd : Command)
  | PARTIAL
  | PROTOCOL_ERROR
  deriving DecidableEq, Repr

structure RespReader where
  buf : Bytes
  deriving DecidableEq, Repr

namespace RespReader

def empty : RespReader := ⟨[]⟩

def feed (data : Bytes) : Act RespReader Unit := modify fun r => ⟨r.buf ++ data⟩

def erase (pos : Nat) : Act RespReader Unit := modify fun r => ⟨r.buf.drop pos⟩

/-- An exception from `stoi`, and a missing token, leave the bytes in the buffer. -/
def tryParse : Act RespReader ParseResult := do
  let buf := (← get).buf
  match readLine buf 0 with
  | none => return .PARTIAL
  | some (line,pos) =>
    if line.head? ≠ some 42#8 then
      erase pos
      return .PROTOCOL_ERROR
    else
      let count ← ofExcept (stoi line.tail)
      if count ≤ 0 then
        erase pos
        return .PROTOCOL_ERROR
      else
        match ← ofExcept (readTokens buf count.toNat pos) with
        | none => return .PARTIAL
        | some (tokens,pos) =>
          let cmd ← ofExcept (commandOf tokens)
          erase pos
          return .OK cmd

end RespReader

end KvCache
