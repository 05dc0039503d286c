import KvCache.PersistentKvStore
import KvCache.Protocol

/-! The message callback. A message is appended to the reader of its connection, and every
command that is then complete is executed on the store and answered. -/
namespace KvCache

/-- The switch over the command type. -/
def execute (env : Env) (cmd : Command) : Act PersistentKvStore Response := do
  match cmd.type with
  | .SET =>
    let key ← ofExcept (stringAt cmd.args 0)
    let value ← ofExcept (stringAt cmd.args 1)
    PersistentKvStore.set env key value
    return ⟨.OK,[]⟩
  | .GET =>
    let key ← ofExcept (stringAt cmd.args 0)
    match KvStore.get (← get).data key with
    | some value => return ⟨.VALUE,value⟩
    | none => return ⟨.NOT_FOUND,[]⟩
  | .DEL =>
    let key ← ofExcept (stringAt cmd.args 0)
    let deleted ← PersistentKvStore.delete env key
    return ⟨.COUNT,ascii (if deleted then "1" else "0")⟩
  | .EXISTS =>
    let key ← ofExcept (stringAt cmd.args 0)
    if KvStore.existsKey (← get).data key then return ⟨.OK,[]⟩ else return ⟨.NOT_FOUND,[]⟩
  | .KEYS => return ⟨.COUNT,decimal (KvStore.allKeys (← get).data).length⟩
  | .UNKNOWN => return ⟨.ERR,ascii "unknown command"⟩

/-- What the callback works on: the reader of the connection and the store. -/
structure Session where
  reader : RespReader
  store : PersistentKvStore

namespace Session

def onReader {α : Type} (x : Act RespReader α) : Act Session α :=
  Act.zoom Session.reader (fun r s => { s with reader := r }) x

def onStore {α : Type} (x : Act PersistentKvStore α) : Act Session α :=
  Act.zoom Session.store (fun p s => { s with store := p }) x

/-- One pass of the loop: the reply to the next command, none when the reader waits. -/
def answer (env : Env) : Act Session (Option Bytes) := do
  match ← onReader RespReader.tryParse with
  | .PARTIAL => return none
  | .PROTOCOL_ERROR => return some (ascii "-ERR protocol error" ++ crlf)
  | .OK cmd =>
    if cmd.type = .UNKNOWN then
      if cmd.error = .UNKNOWN_COMMAND then return some (ascii "-ERR unknown command" ++ crlf)
      else return some (ascii "-ERR wrong number of arguments" ++ crlf)
    else
      let resp ← onStore (execute env cmd)
      return some (serializeResponse resp)

/-- `while (true)`, with what each pass finds around it. -/
def serve : Nat → (Nat → Env) → Bytes → Act Session Bytes
  | 0, _, _ => throw .outOfFuel
  | fuel + 1, envs, result => do
    match ← answer (envs 0) with
    | none => return result
    | some reply => serve fuel (fun i => envs (i + 1)) (result ++ reply)

def onMessage (fuel : Nat) (envs : Nat → Env) (data : Bytes) : Act Session Bytes := do
  onReader (RespReader.feed data)
  serve fuel envs []

theorem answer_waits (env : Env) (buf : Bytes) (store : PersistentKvStore)
    (run : RespReader.tryParse ⟨buf⟩ = .ok .PARTIAL ⟨buf⟩) :
    answer env ⟨⟨buf⟩,store⟩ = .ok none ⟨⟨buf⟩,store⟩ := by
  simp [answer,onReader,Act.zoom,run]

theorem answer_command (env : Env) (buf rest : Bytes) (cmd : Command) (response : Response)
    (store store' : PersistentKvStore) (known : cmd.type ≠ .UNKNOWN)
    (run : RespReader.tryParse ⟨buf⟩ = .ok (.OK cmd) ⟨rest⟩)
    (executed : execute env cmd store = .ok response store') :
    answer env ⟨⟨buf⟩,store⟩ = .ok (some (serializeResponse response)) ⟨⟨rest⟩,store'⟩ := by
  simp [answer,onReader,onStore,Act.zoom,run,known,executed]

end Session

abbrev Fd := Int

def SHARD_COUNT : Nat := 16

/-- The readers of each shard; `readers[fd]` makes an empty reader where there is none. -/
structure KvServer where
  store : PersistentKvStore
  shards : Fin SHARD_COUNT → Fd → RespReader

namespace KvServer

def start (store : PersistentKvStore) : KvServer := ⟨store,fun _ _ => .empty⟩

/-- `std::hash<int>` is the cast to `size_t`. -/
def getShard (fd : Fd) : Fin SHARD_COUNT :=
  ⟨(fd % 2 ^ 64).toNat % SHARD_COUNT,Nat.mod_lt _ (by decide)⟩

def reader (s : KvServer) (fd : Fd) : RespReader := s.shards (getShard fd) fd

def session (fd : Fd) (s : KvServer) : Session := ⟨s.reader fd,s.store⟩

def withSession (fd : Fd) (session : Session) (s : KvServer) : KvServer where
  store := session.store
  shards := Function.update s.shards (getShard fd)
    (Function.update (s.shards (getShard fd)) fd session.reader)

def onSession {α : Type} (fd : Fd) (x : Act Session α) : Act KvServer α :=
  Act.zoom (session fd) (withSession fd) x

def onMessage (fuel : Nat) (envs : Nat → Env) (fd : Fd) (data : Bytes) : Act KvServer Bytes :=
  onSession fd (Session.onMessage fuel envs data)

theorem reader_withSession (fd other : Fd) (session : Session) (s : KvServer) :
    (s.withSession fd session).reader other =
      if other = fd then session.reader else s.reader other := by
  by_cases same : other = fd
  · subst same
    simp [reader,withSession]
  · by_cases shard : getShard other = getShard fd
    · simp [reader,withSession,shard,same]
    · simp [reader,withSession,shard,same]

theorem onSession_ok {α : Type} (fd : Fd) (x : Act Session α) (s s' : KvServer) (a : α)
    (ran : onSession fd x s = .ok a s') :
    ∃ session, x (s.session fd) = .ok a session ∧ s' = s.withSession fd session := by
  simp only [onSession,Act.zoom] at ran
  split at ran
  next session run =>
    cases ran
    exact ⟨session,run,rfl⟩
  next => cases ran

theorem onSession_error {α : Type} (fd : Fd) (x : Act Session α) (s s' : KvServer) (e : Fault)
    (ran : onSession fd x s = .error e s') :
    ∃ session, x (s.session fd) = .error e session ∧ s' = s.withSession fd session := by
  simp only [onSession,Act.zoom] at ran
  split at ran
  next => cases ran
  next session run =>
    cases ran
    exact ⟨session,run,rfl⟩

end KvServer

end KvCache
