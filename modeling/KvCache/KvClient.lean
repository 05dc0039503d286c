import KvCache.KvServer
import KvCache.ParserReads

/-! The network client. A command is sent, and the reply is collected from the socket until the
bytes received so far are a whole reply, a test that is made again after every `recv`. However
the reply arrives, it is returned at its last byte, and each operation reads the server's answer
off it. -/
namespace KvCache

/-- What `recv` returns: some bytes, or none of them (`n <= 0`). -/
abbrev Received := Option Bytes

/-- The client with its socket: the bytes given to `send`, and what each `recv` is going to
return. -/
structure KvClient where
  sockFd : Int
  sent : Bytes
  incoming : List Received
  deriving DecidableEq, Repr

namespace KvClient

/-- The test in front of each `recv`: the bytes are a whole reply. The length is an `int`, and
the sum is one of `size_t`. -/
def complete (buf : Bytes) : Except Fault Bool :=
  match buf.head?, findCrlf buf with
  | some type, some crlf =>
    if type = 43#8 ∨ type = 45#8 ∨ type = 58#8 then .ok true
    else if type = 36#8 then do
      let len ← stoi ((buf.drop 1).take (crlf - 1))
      if len = -1 then .ok true
      else .ok (decide ((crlf + 2 + (len % 2 ^ 64).toNat + 2) % 2 ^ 64 ≤ buf.length))
    else .ok false
  | _, _ => .ok false

/-- The loop of `SendCommand`, with the bytes that the `recv`s not made are left with. It is
out of fuel while the next `recv` has nothing to return. -/
def receive (buf : Bytes) : List Received → Except Fault (Bytes × List Received)
  | [] => do
    if ← complete buf then .ok (buf,[]) else .error .outOfFuel
  | next :: later => do
    if ← complete buf then .ok (buf,next :: later)
    else match next with
      | none => .ok ([],later)
      | some chunk => receive (buf ++ chunk) later

def sendCommand (cmd : Bytes) : Act KvClient Bytes := do
  let client ← get
  if client.sockFd < 0 then return []
  else
    set { client with sent := client.sent ++ cmd }
    let (buf,later) ← ofExcept (receive [] client.incoming)
    modify fun client => { client with incoming := later }
    return buf

/-! Each operation sends its command and looks at the reply. -/

def isOk (resp : Bytes) : Bool := decide (4 ≤ resp.length) && resp.head? == some 43#8

def valueOf (resp : Bytes) : Except Fault (Option Bytes) :=
  if resp.head? ≠ some 36#8 then .ok none
  else match findCrlf resp with
    | none => .ok none
    | some crlf => do
      let len ← stoi ((resp.drop 1).take (crlf - 1))
      if len = -1 then .ok none
      else .ok (some ((resp.drop (crlf + 2)).take (len % 2 ^ 64).toNat))

/-- `resp[1]` of a string of one byte is the null byte behind it. -/
def isDeleted (resp : Bytes) : Bool :=
  if resp.head? ≠ some 58#8 then false else resp[1]?.getD 0#8 != 48#8

def countOf (resp : Bytes) : Except Fault Nat :=
  if resp.head? ≠ some 58#8 then .ok 0
  else do
    let n ← stoi (resp.drop 1)
    .ok (n % 2 ^ 64).toNat

def set (key value : Bytes) : Act KvClient Bool := do
  let resp ← sendCommand (serializeCommand ⟨.SET,[key,value],.NONE⟩)
  return isOk resp

def get (key : Bytes) : Act KvClient (Option Bytes) := do
  let resp ← sendCommand (serializeCommand ⟨.GET,[key],.NONE⟩)
  ofExcept (valueOf resp)

def delete (key : Bytes) : Act KvClient Bool := do
  let resp ← sendCommand (serializeCommand ⟨.DEL,[key],.NONE⟩)
  return isDeleted resp

def existsKey (key : Bytes) : Act KvClient Bool := do
  let resp ← sendCommand (serializeCommand ⟨.EXISTS,[key],.NONE⟩)
  return isOk resp

def keys : Act KvClient Nat := do
  let resp ← sendCommand (serializeCommand ⟨.KEYS,[],.NONE⟩)
  ofExcept (countOf resp)

def Producible (resp : Response) : Prop :=
  match resp.status with
  | .OK | .NOT_FOUND => True
  | .VALUE => resp.message.length < 2 ^ 31
  | .ERR => ¬crlf <:+: resp.message
  | .COUNT => ∃ n < 2 ^ 31, resp.message = decimal n

/-- A reply is whole at its last byte and not before. -/
structure Framed (reply : Bytes) : Prop where
  whole : complete reply = .ok true
  early : ∀ part, part <+: reply → part ≠ reply → complete part = .ok false

/-- However its bytes are cut into chunks, such a reply is returned with the last of them, and
nothing behind it is received. -/
theorem Framed.receive {reply : Bytes} (framed : Framed reply) (chunks : List Bytes)
    (filled : ∀ chunk ∈ chunks, chunk ≠ []) (later : List Received) (buf : Bytes)
    (joined : buf ++ chunks.flatten = reply) :
    receive buf (chunks.map some ++ later) = .ok (reply,later) := by
  induction chunks generalizing buf with
  | nil =>
    have all : buf = reply := by simpa using joined
    subst all
    cases later <;> simp [KvClient.receive,framed.whole,bind,Except.bind]
  | cons chunk chunks ih =>
    have strict : buf ≠ reply := by
      intro same
      have empty : chunk ++ chunks.flatten = [] := by
        simpa [same] using joined
      exact filled chunk List.mem_cons_self (List.append_eq_nil_iff.mp empty).1
    have waits := framed.early buf ⟨_,joined⟩ strict
    rw [List.map_cons,List.cons_append,KvClient.receive,waits]
    exact ih (fun c member => filled c (List.mem_cons_of_mem chunk member)) (buf ++ chunk)
      (by simpa using joined)

theorem complete_unended (buf : Bytes) (unended : findCrlf buf = none) :
    complete buf = .ok false := by
  unfold complete
  rw [unended]
  cases buf.head? <;> rfl

theorem findCrlf_strict (line part : Bytes) (free : ¬crlf <:+: line)
    (inside : part <+: line ++ crlf) (strict : part ≠ line ++ crlf) : findCrlf part = none := by
  cases found : findCrlf part with
  | none => rfl
  | some n =>
    obtain ⟨more,joined⟩ := inside
    obtain ⟨front,rest,split,size⟩ := findCrlf_split part n found
    have first : findCrlf (line ++ (crlf ++ [])) = some n := by
      rw [List.append_nil,← joined]
      exact findCrlf_append part more n found
    rw [findCrlf_of_free line [] free,Option.some_inj] at first
    have long : (line ++ crlf).length ≤ part.length := by
      rw [split]
      simp only [List.length_append,size,first]
      omega
    have prefixed : part <+: line ++ crlf := ⟨more,joined⟩
    exact absurd (prefixed.eq_of_length_le long) strict

theorem framed_line (line : Bytes) (free : ¬crlf <:+: line)
    (whole : complete (line ++ crlf) = .ok true) : Framed (line ++ crlf) :=
  ⟨whole,fun part inside strict =>
    complete_unended part (findCrlf_strict line part free inside strict)⟩

theorem framed_marked (mark : Byte) (text : Bytes) (marked : mark = 43#8 ∨ mark = 45#8 ∨ mark = 58#8)
    (free : ¬crlf <:+: mark :: text) : Framed (mark :: text ++ crlf) := by
  refine framed_line (mark :: text) free ?_
  have found := findCrlf_of_free (mark :: text) [] free
  rw [List.append_nil] at found
  unfold complete
  rw [found]
  simp [marked]

theorem header_digits (n : Nat) (more : Bytes) :
    findCrlf (header 36#8 n ++ (crlf ++ more)) = some (header 36#8 n).length ∧
      ((header 36#8 n ++ (crlf ++ more)).drop 1).take ((header 36#8 n).length - 1) = decimal n :=
  ⟨findCrlf_line _ _ (header_noReturn 36#8 n (by decide)),by simp [header]⟩

theorem complete_header (n : Nat) (fits : n < 2 ^ 31) (more : Bytes) :
    complete (header 36#8 n ++ (crlf ++ more)) = .ok (decide (n + 2 ≤ more.length)) := by
  obtain ⟨found,number⟩ := header_digits n more
  have digits : (header 36#8 n).length ≤ 11 := by
    rw [header,List.length_cons]
    exact Nat.succ_le_succ (decimal_length_le n fits)
  have total : ((header 36#8 n).length + 2 + ((n : Int) % 2 ^ 64).toNat + 2) % 2 ^ 64 =
      (header 36#8 n).length + 2 + n + 2 := by omega
  have size : (header 36#8 n ++ (crlf ++ more)).length = (header 36#8 n).length + 2 + more.length := by
    simp [crlf]
    omega
  unfold complete
  rw [found,show (header 36#8 n ++ (crlf ++ more)).head? = some 36#8 from rfl]
  simp only [number,stoi_decimal n fits,bind,Except.bind,total,size]
  rw [if_neg (by decide),if_pos trivial,if_neg (by omega)]
  congr 1
  exact decide_eq_decide.mpr (by omega)

theorem framed_bulk (data : Bytes) (fits : data.length < 2 ^ 31) : Framed (bulk data) := by
  have split : bulk data = (header 36#8 data.length ++ crlf) ++ (data ++ crlf) := by simp [bulk_eq]
  refine ⟨?_,fun part inside strict => ?_⟩
  · rw [bulk_eq,complete_header data.length fits]
    simp [crlf]
  rw [split] at inside strict
  rcases strict_prefix_append _ _ part inside strict with ⟨early,partly⟩ | ⟨more,rfl,within,partly⟩
  · have free := free_of_noReturn _ (header_noReturn 36#8 data.length (by decide))
    exact complete_unended part (findCrlf_strict _ part free early partly)
  · have shorter : more.length < (data ++ crlf).length :=
      Nat.lt_of_le_of_ne within.length_le fun same => partly (within.eq_of_length same)
    have short : ¬data.length + 2 ≤ more.length := by
      rw [List.length_append] at shorter
      exact Nat.not_le.mpr shorter
    rw [List.append_assoc,complete_header data.length fits]
    simp [short]

theorem free_cons (b : Byte) (text : Bytes) (ne : b ≠ 13#8) (free : ¬crlf <:+: text) :
    ¬crlf <:+: b :: text := by
  rw [List.infix_cons_iff]
  rintro (front | inside)
  · exact ne (List.cons_prefix_cons.mp front).1.symm
  · exact free inside

theorem free_append (front text : Bytes) (noReturn : 13#8 ∉ front) (free : ¬crlf <:+: text) :
    ¬crlf <:+: front ++ text := by
  induction front with
  | nil => exact free
  | cons b front ih =>
    rw [List.mem_cons,not_or] at noReturn
    exact free_cons b (front ++ text) (fun same => noReturn.1 same.symm) (ih noReturn.2)

theorem free_decimal (n : Nat) : ¬crlf <:+: decimal n :=
  free_of_noReturn _ fun member => absurd (decimal_isDigit n _ member) (by decide)

/-- Every response the server can produce is whole at its last byte and not before. -/
theorem framed_response (resp : Response) (producible : Producible resp) :
    Framed (serializeResponse resp) := by
  obtain ⟨status,message⟩ := resp
  cases status with
  | OK => exact framed_marked 43#8 (ascii "OK") (.inl rfl) (free_of_noReturn _ (by decide))
  | VALUE => exact framed_bulk message producible
  | NOT_FOUND => exact framed_line (ascii "$-1") (free_of_noReturn _ (by decide)) (by decide)
  | ERR =>
    exact framed_marked 45#8 (ascii "ERR " ++ message) (.inr (.inl rfl))
      (free_append (ascii "-ERR ") message (by decide) producible)
  | COUNT =>
    obtain ⟨n,-,same⟩ := producible
    subst same
    exact framed_marked 58#8 (decimal n) (.inr (.inr rfl))
      (free_append (ascii ":") (decimal n) (by decide) (free_decimal n))

/-- The server's answers to a command: an error, or what executing it gives. -/
def Answers (cmd : Command) (resp : Response) : Prop :=
  resp.status = .ERR ∨ ∃ env store store', execute env cmd store = .ok resp store'

def exchanged (client : KvClient) (cmd : Bytes) (later : List Received) : KvClient :=
  { client with sent := client.sent ++ cmd, incoming := later }

theorem sendCommand_framed (client : KvClient) (connected : 0 ≤ client.sockFd) (reply : Bytes)
    (framed : Framed reply) (chunks : List Bytes) (filled : ∀ chunk ∈ chunks, chunk ≠ [])
    (joined : chunks.flatten = reply) (later : List Received)
    (arriving : client.incoming = chunks.map some ++ later) (cmd : Bytes) :
    sendCommand cmd client = .ok reply (client.exchanged cmd later) := by
  have received := framed.receive chunks filled later [] joined
  rw [← arriving] at received
  simp [sendCommand,Int.not_lt.mpr connected,received,exchanged]

def mark : Status → Byte
  | .OK => 43#8
  | .VALUE | .NOT_FOUND => 36#8
  | .ERR => 45#8
  | .COUNT => 58#8

theorem serializeResponse_head (resp : Response) :
    (serializeResponse resp).head? = some (mark resp.status) := by
  obtain ⟨status,message⟩ := resp
  cases status <;> rfl

theorem isOk_response (resp : Response) :
    isOk (serializeResponse resp) = decide (resp.status = .OK) := by
  rw [isOk,serializeResponse_head]
  obtain ⟨status,message⟩ := resp
  cases status with
  | OK => rfl
  | VALUE | NOT_FOUND | ERR | COUNT => simp [mark]

theorem valueOf_bulk (data : Bytes) (fits : data.length < 2 ^ 31) :
    valueOf (bulk data) = .ok (some data) := by
  obtain ⟨found,digits⟩ := header_digits data.length (data ++ crlf)
  have front : (header 36#8 data.length).length + 2 = (header 36#8 data.length ++ crlf).length := by
    simp [crlf]
  have size : ((data.length : Int) % 2 ^ 64).toNat = data.length := by omega
  unfold valueOf
  rw [bulk_eq,found,if_neg (by simp [header])]
  simp only [digits,stoi_decimal data.length fits,bind,Except.bind,size]
  rw [if_neg (by omega),front,← List.append_assoc,List.drop_left,List.take_left]

theorem valueOf_response (resp : Response) (producible : Producible resp) :
    valueOf (serializeResponse resp) =
      .ok (if resp.status = .VALUE then some resp.message else none) := by
  obtain ⟨status,message⟩ := resp
  cases status with
  | VALUE => exact valueOf_bulk message producible
  | NOT_FOUND => rfl
  | OK | ERR | COUNT => rfl

theorem Answers.delete {key : Bytes} {resp : Response} (answers : Answers ⟨.DEL,[key],.NONE⟩ resp) :
    resp.status = .ERR ∨ ∃ deleted : Bool, resp = ⟨.COUNT,ascii (if deleted then "1" else "0")⟩ := by
  rcases answers with failed | ⟨env,store,store',executed⟩
  · exact .inl failed
  · simp only [execute,stringAt,List.getElem?_cons_zero,Act.bind_apply,Act.ofExcept_ok] at executed
    cases run : PersistentKvStore.delete env key store with
    | ok deleted after =>
      simp only [run,Act.pure_apply,EStateM.Result.ok.injEq] at executed
      exact .inr ⟨deleted,executed.1.symm⟩
    | error e after => simp [run] at executed

theorem isDeleted_response {key : Bytes} (resp : Response)
    (answers : Answers ⟨.DEL,[key],.NONE⟩ resp) :
    isDeleted (serializeResponse resp) = decide (resp = ⟨.COUNT,ascii "1"⟩) := by
  rcases answers.delete with failed | ⟨deleted,rfl⟩
  · have other : resp ≠ ⟨.COUNT,ascii "1"⟩ := by
      rintro rfl
      cases failed
    simp [isDeleted,serializeResponse_head,failed,mark,other]
  · cases deleted <;> decide

theorem countOf_response (n : Nat) (producible : Producible ⟨.COUNT,decimal n⟩) :
    countOf (serializeResponse ⟨.COUNT,decimal n⟩) = .ok n := by
  obtain ⟨m,fits,same⟩ := producible
  have value : m = n := by rw [← digitsValue_decimal m,← same,digitsValue_decimal]
  subst value
  have before := stoi_stopped (decimal m) 13#8 (by decide) [10#8] m (stoi_decimal m fits)
  have digits : (serializeResponse ⟨.COUNT,decimal m⟩).drop 1 = decimal m ++ [13#8,10#8] := rfl
  have size : ((m : Int) % 2 ^ 64).toNat = m := by omega
  rw [countOf,serializeResponse_head,if_neg (by simp [mark]),digits,before]
  simp only [bind,Except.bind,size]

/-- However a reply arrives, it is returned with its last byte and read as it was meant. -/
theorem replies_decoded (client : KvClient) (connected : 0 ≤ client.sockFd) (resp : Response)
    (producible : Producible resp) (chunks : List Bytes) (filled : ∀ chunk ∈ chunks, chunk ≠ [])
    (joined : chunks.flatten = serializeResponse resp) (later : List Received)
    (arriving : client.incoming = chunks.map some ++ later) :
    (∀ cmd, sendCommand cmd client =
      .ok (serializeResponse resp) (client.exchanged cmd later)) ∧
    (∀ key value, set key value client = .ok (decide (resp.status = .OK))
      (client.exchanged (serializeCommand ⟨.SET,[key,value],.NONE⟩) later)) ∧
    (∀ key, existsKey key client = .ok (decide (resp.status = .OK))
      (client.exchanged (serializeCommand ⟨.EXISTS,[key],.NONE⟩) later)) ∧
    (∀ key, get key client = .ok (if resp.status = .VALUE then some resp.message else none)
      (client.exchanged (serializeCommand ⟨.GET,[key],.NONE⟩) later)) ∧
    (∀ key, Answers ⟨.DEL,[key],.NONE⟩ resp →
      delete key client = .ok (decide (resp = ⟨.COUNT,ascii "1"⟩))
        (client.exchanged (serializeCommand ⟨.DEL,[key],.NONE⟩) later)) ∧
    (∀ n, resp = ⟨.COUNT,decimal n⟩ →
      keys client = .ok n (client.exchanged (serializeCommand ⟨.KEYS,[],.NONE⟩) later)) := by
  have sends := sendCommand_framed client connected _ (framed_response resp producible) chunks filled
    joined later arriving
  refine ⟨sends,fun key value => ?_,fun key => ?_,fun key => ?_,fun key answers => ?_,
    fun n count => ?_⟩
  · simp [set,sends,isOk_response]
  · simp [existsKey,sends,isOk_response]
  · simp [get,sends,valueOf_response resp producible]
  · simp [delete,sends,isDeleted_response resp answers]
  · rw [count] at producible sends
    simp [keys,sends,countOf_response n producible]

/-- A value with a line end in it, in four pieces. -/
theorem replies_decoded_cut :
    get (ascii "k") ⟨3,[],[ascii "$",ascii "4\r",ascii "\na\r\n",ascii "b\r\n"].map some ++ []⟩ =
      .ok (some (ascii "a\r\nb")) ⟨3,serializeCommand ⟨.GET,[ascii "k"],.NONE⟩,[]⟩ :=
  (replies_decoded ⟨3,[],[ascii "$",ascii "4\r",ascii "\na\r\n",ascii "b\r\n"].map some ++ []⟩
    (by decide) ⟨.VALUE,ascii "a\r\nb"⟩ (show (ascii "a\r\nb").length < 2 ^ 31 by decide)
    [ascii "$",ascii "4\r",ascii "\na\r\n",ascii "b\r\n"] (by decide) (by decide) [] rfl).2.2.2.1
    (ascii "k")

end KvClient

end KvCache
