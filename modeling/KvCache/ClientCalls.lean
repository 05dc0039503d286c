import KvCache.KvClient
import KvCache.ServerRefinement

/-! The operations of the client library as one type, with what each of them asks of the server,
what it makes of the bytes that come back, and what a plain map would have returned. -/
namespace KvCache

inductive ClientOp where
  | set (key value : Bytes)
  | get (key : Bytes)
  | delete (key : Bytes)
  | existsKey (key : Bytes)
  | keys
  deriving DecidableEq, Repr

inductive ClientReply where
  | flag (yes : Bool)
  | value (found : Option Bytes)
  | count (n : Nat)
  deriving DecidableEq, Repr

/-- Values that the client can read: their length is an `int`. -/
def ShortValues (map : PlainMap) : Prop :=
  ∀ key value, map.lookup key = some value → value.length < 2 ^ 31

namespace ClientOp

def command : ClientOp → Command
  | set key value => ⟨.SET,[key,value],.NONE⟩
  | get key => ⟨.GET,[key],.NONE⟩
  | delete key => ⟨.DEL,[key],.NONE⟩
  | existsKey key => ⟨.EXISTS,[key],.NONE⟩
  | keys => ⟨.KEYS,[],.NONE⟩

def run : ClientOp → Act KvClient ClientReply
  | set key value => do return .flag (← KvClient.set key value)
  | get key => do return .value (← KvClient.get key)
  | delete key => do return .flag (← KvClient.delete key)
  | existsKey key => do return .flag (← KvClient.existsKey key)
  | keys => do return .count (← KvClient.keys)

def answer (map : PlainMap) : ClientOp → ClientReply × PlainMap
  | set key value => (.flag true,map.insert key value)
  | get key => (.value (map.lookup key),map)
  | delete key => (.flag (decide (key ∈ map)),map.erase key)
  | existsKey key => (.flag (decide (key ∈ map)),map)
  | keys => (.count map.keys.card,map)

theorem plainAnswer_map (map : PlainMap) (op : ClientOp) :
    (plainAnswer map op.command).2 = (answer map op).2 := by
  cases op with
  | get key => cases found : map.lookup key <;> simp [command,plainAnswer,answer,found]
  | _ => rfl

theorem answer_short (map : PlainMap) (short : ShortValues map) (op : ClientOp)
    (wellFormed : op.command.WellFormed) : ShortValues (answer map op).2 := by
  intro key value found
  cases op with
  | set k v =>
    rw [answer] at found
    by_cases same : key = k
    · subst same
      rw [Finmap.lookup_insert,Option.some.injEq] at found
      subst found
      have fits := wellFormed.readable v (by simp [command])
      exact Nat.lt_of_lt_of_le fits (by decide)
    · rw [Finmap.lookup_insert_of_ne _ same] at found
      exact short key value found
  | delete k =>
    rw [answer] at found
    by_cases same : key = k
    · subst same
      rw [Finmap.lookup_erase] at found
      cases found
    · rw [Finmap.lookup_erase_ne same] at found
      exact short key value found
  | get k => exact short key value found
  | existsKey k => exact short key value found
  | keys => exact short key value found

theorem producible (map : PlainMap) (short : ShortValues map) (count : map.keys.card < 2 ^ 31)
    (op : ClientOp) : KvClient.Producible (plainAnswer map op.command).1 := by
  cases op with
  | set key value => trivial
  | get key =>
    cases found : map.lookup key with
    | none => simp [command,plainAnswer,found,KvClient.Producible]
    | some value =>
      simp only [command,plainAnswer,found,KvClient.Producible]
      exact short key value found
  | delete key =>
    simp only [command,plainAnswer,KvClient.Producible]
    split
    · exact ⟨1,by decide,rfl⟩
    · exact ⟨0,by decide,rfl⟩
  | existsKey key =>
    simp only [command,plainAnswer]
    split <;> trivial
  | keys => exact ⟨_,count,rfl⟩

section
variable (client : KvClient) (connected : 0 ≤ client.sockFd) (map : PlainMap) (op : ClientOp)
  (readable : KvClient.Producible (plainAnswer map op.command).1) (chunks : List Bytes)
  (filled : ∀ chunk ∈ chunks, chunk ≠ [])
  (joined : chunks.flatten = serializeResponse (plainAnswer map op.command).1)
  (later : List Received) (arriving : client.incoming = chunks.map some ++ later)
include connected readable filled joined arriving

/-- However the answer is cut, the operation returns what the plain map returns. -/
theorem run_answered :
    op.run client = .ok (answer map op).1 (client.exchanged (serializeCommand op.command) later) := by
  have sent := KvClient.sendCommand_framed client connected _
    (KvClient.framed_response _ readable) chunks filled joined later arriving
  cases op with
  | set key value =>
    simp [run,KvClient.set,command,sent,KvClient.isOk_response,plainAnswer,answer]
  | get key =>
    have decoded := KvClient.valueOf_response _ readable
    cases found : map.lookup key with
    | none =>
      simp only [command,plainAnswer,found] at sent decoded
      simp [run,KvClient.get,command,sent,decoded,answer,found]
    | some value =>
      simp only [command,plainAnswer,found] at sent decoded
      simp [run,KvClient.get,command,sent,decoded,answer,found]
  | delete key =>
    have decoded : KvClient.isDeleted (serializeResponse (plainAnswer map (command (.delete key))).1) =
        decide (key ∈ map) := by
      simp only [command,plainAnswer]
      split <;> rename_i here
      · simp only [here]; rfl
      · simp only [here]; rfl
    simp only [command] at sent decoded
    simp [run,KvClient.delete,command,sent,decoded,answer]
  | existsKey key =>
    have decoded := KvClient.isOk_response (plainAnswer map (command (.existsKey key))).1
    have status : decide ((plainAnswer map (command (.existsKey key))).1.status = .OK) =
        decide (key ∈ map) := by
      simp only [command,plainAnswer]
      split <;> rename_i here <;> simp [here]
    simp only [command] at sent decoded status
    simp [run,KvClient.existsKey,command,sent,decoded,status,answer]
  | keys =>
    have decoded := KvClient.countOf_response _ readable
    simp only [command,plainAnswer] at sent decoded
    simp [run,KvClient.keys,command,sent,decoded,answer]

end

end ClientOp

theorem KvClient.Framed.receive_part {reply : Bytes} (framed : Framed reply) (chunks : List Bytes)
    (buf : Bytes) (part : buf ++ chunks.flatten <+: reply) (strict : buf ++ chunks.flatten ≠ reply) :
    KvClient.receive buf (chunks.map some) = .error .outOfFuel := by
  have missing : ∀ front, front <+: buf ++ chunks.flatten → complete front = .ok false := by
    intro front inside
    refine framed.early front (inside.trans part) fun whole => strict ?_
    exact part.eq_of_length (Nat.le_antisymm part.length_le (whole ▸ inside.length_le))
  induction chunks generalizing buf with
  | nil =>
    have waits := missing buf (List.prefix_append ..)
    simp [KvClient.receive,waits,bind,Except.bind]
  | cons chunk chunks ih =>
    have waits := missing buf (List.prefix_append ..)
    simp only [List.flatten_cons,← List.append_assoc] at part strict missing
    rw [List.map_cons,KvClient.receive,waits]
    exact ih (buf ++ chunk) part strict missing

theorem ClientOp.run_waits (op : ClientOp) (client : KvClient) (connected : 0 ≤ client.sockFd)
    (waits : KvClient.receive [] client.incoming = .error .outOfFuel) :
    ∃ c, op.run client = .error .outOfFuel c := by
  cases op <;>
    simp [ClientOp.run,KvClient.set,KvClient.get,KvClient.delete,KvClient.existsKey,KvClient.keys,
      KvClient.sendCommand,Int.not_lt.mpr connected,waits]

end KvCache
