import KvCache.KvServer
import KvCache.CommandStream

/-! The server refines a plain map. Whatever connections send their commands in whatever
pieces, each command is answered as a key-value map answers it, at the moment its last
byte arrives. -/
namespace KvCache

/-- The answer of a plain map to a command, and the map after it. -/
def plainAnswer (map : PlainMap) (cmd : Command) : Response × PlainMap :=
  match cmd.type, cmd.args with
  | .SET, [key,value] => (⟨.OK,[]⟩,map.insert key value)
  | .GET, [key] =>
    match map.lookup key with
    | some value => (⟨.VALUE,value⟩,map)
    | none => (⟨.NOT_FOUND,[]⟩,map)
  | .DEL, [key] => (⟨.COUNT,ascii (if key ∈ map then "1" else "0")⟩,map.erase key)
  | .EXISTS, [key] => (if key ∈ map then ⟨.OK,[]⟩ else ⟨.NOT_FOUND,[]⟩,map)
  | .KEYS, [] => (⟨.COUNT,decimal map.keys.card⟩,map)
  | _, _ => (⟨.ERR,ascii "unknown command"⟩,map)

def plainAnswers : PlainMap → List Command → List Response × PlainMap
  | map, [] => ([],map)
  | map, cmd :: cmds =>
    let (response,map) := plainAnswer map cmd
    let (responses,map) := plainAnswers map cmds
    (response :: responses,map)

/-- How many leading commands lie within the first `n` bytes of their stream. -/
def completedBy (cmds : List Command) (n : Nat) : Nat :=
  RespReader.commands.completed (cmds.map RespReader.received) n

/-- The commands whose last byte is among the `more` bytes after the first `n`. -/
def newlyComplete (cmds : List Command) (n more : Nat) : List Command :=
  (cmds.take (completedBy cmds (n + more))).drop (completedBy cmds n)

/-- The reader that has received the first `n` bytes of a command stream. -/
def RespReader.waiting (cmds : List Command) (n : Nat) : RespReader :=
  ⟨commands.pending (cmds.map received) n⟩

/-- The log can be appended to, and memory is this map. -/
structure Holds (store : PersistentKvStore) (map : PlainMap) : Prop where
  ready : ∃ content, store.wal.Ready content
  map : store.data.toFinmap = map

namespace Holds

variable {store : PersistentKvStore} {map : PlainMap}

theorem lookup (holds : Holds store map) (key : Bytes) : store.data.lookup key = map.lookup key := by
  rw [← holds.map,KvStore.toFinmap_lookup]

theorem isSome (holds : Holds store map) (key : Bytes) :
    (store.data.lookup key).isSome = decide (key ∈ map) := by
  rw [holds.lookup key,Bool.eq_iff_iff,Finmap.lookup_isSome,decide_eq_true_iff]

theorem checkSnapshotTrigger (holds : Holds store map) (env : Env) (succeeds : env.io.Succeeds) :
    ∃ store', PersistentKvStore.checkSnapshotTrigger env store = .ok () store' ∧
      Holds store' map := by
  obtain ⟨content,ready⟩ := holds.ready
  obtain ⟨store',content',checked,data,ready⟩ :=
    PersistentKvStore.checkSnapshotTrigger_ready env succeeds store content ready
  exact ⟨store',checked,⟨content',ready⟩,by rw [data]; exact holds.map⟩

theorem set (holds : Holds store map) (env : Env) (succeeds : env.io.Succeeds) (key value : Bytes) :
    ∃ store', PersistentKvStore.set env key value store = .ok () store' ∧
      Holds store' (map.insert key value) := by
  obtain ⟨content,ready⟩ := holds.ready
  obtain ⟨w,ready,ran⟩ := (Mutation.set key value).run_ready env succeeds store content ready
  have updated : Holds (PersistentKvStore.countOp env.addOpAt
      { store with wal := w, data := KvStore.set store.data key value }) (map.insert key value) :=
    ⟨⟨_,ready⟩,by rw [← holds.map]; exact KvStore.set_toFinmap store.data key value⟩
  obtain ⟨store',checked,holds⟩ := updated.checkSnapshotTrigger env succeeds
  exact ⟨store',ran.trans checked,holds⟩

theorem delete (holds : Holds store map) (env : Env) (succeeds : env.io.Succeeds) (key : Bytes) :
    ∃ store', PersistentKvStore.delete env key store = .ok (decide (key ∈ map)) store' ∧
      Holds store' (map.erase key) := by
  obtain ⟨content,ready⟩ := holds.ready
  obtain ⟨w,appended,ready⟩ :=
    Wal.append_ready env.io.wal succeeds.wal (Mutation.delete key).record store.wal content ready
  have logged := PersistentKvStore.onWal_ok _ store () w appended
  simp only [Mutation.record] at logged
  have updated : Holds (PersistentKvStore.countOp env.addOpAt
      { store with wal := w, data := (KvStore.delete store.data key).2 }) (map.erase key) :=
    ⟨⟨_,ready⟩,by rw [← holds.map]; exact KvStore.delete_toFinmap store.data key⟩
  obtain ⟨store',checked,after⟩ := updated.checkSnapshotTrigger env succeeds
  have found : (KvStore.delete store.data key).1 = decide (key ∈ map) := holds.isSome key
  refine ⟨store',?_,after⟩
  simp [PersistentKvStore.delete,Wal.appendDel,logged,checked,found]

theorem keys_length (holds : Holds store map) : store.data.keys.length = map.keys.card := by
  rw [← holds.map]
  rfl

theorem execute (holds : Holds store map) (env : Env) (succeeds : env.io.Succeeds) (cmd : Command)
    (wellFormed : cmd.WellFormed) :
    ∃ store', KvCache.execute env cmd store = .ok (plainAnswer map cmd).1 store' ∧
      Holds store' (plainAnswer map cmd).2 := by
  obtain ⟨type,args,error⟩ := cmd
  have arity := wellFormed.arity
  cases type with
  | SET =>
    obtain ⟨key,value,rfl⟩ := List.length_eq_two.mp (Option.some.inj arity).symm
    obtain ⟨store',ran,after⟩ := holds.set env succeeds key value
    refine ⟨store',?_,after⟩
    simp [KvCache.execute,stringAt,ran,plainAnswer]
  | GET =>
    obtain ⟨key,rfl⟩ := List.length_eq_one_iff.mp (Option.some.inj arity).symm
    refine ⟨store,?_,?_⟩
    · simp [KvCache.execute,stringAt,KvStore.get,holds.lookup,plainAnswer]
      cases map.lookup key <;> rfl
    · simp only [plainAnswer]
      cases map.lookup key <;> exact holds
  | DEL =>
    obtain ⟨key,rfl⟩ := List.length_eq_one_iff.mp (Option.some.inj arity).symm
    obtain ⟨store',ran,after⟩ := holds.delete env succeeds key
    refine ⟨store',?_,after⟩
    simp [KvCache.execute,stringAt,ran,plainAnswer]
  | EXISTS =>
    obtain ⟨key,rfl⟩ := List.length_eq_one_iff.mp (Option.some.inj arity).symm
    refine ⟨store,?_,holds⟩
    have found : KvStore.existsKey store.data key = decide (key ∈ map) := holds.isSome key
    by_cases member : key ∈ map <;> simp [KvCache.execute,stringAt,plainAnswer,found,member]
  | KEYS =>
    obtain rfl := List.length_eq_zero_iff.mp (Option.some.inj arity).symm
    refine ⟨store,?_,holds⟩
    simp [KvCache.execute,KvStore.allKeys,holds.keys_length,plainAnswer]
  | UNKNOWN => cases arity

end Holds

namespace Session

theorem serve_drained (cmds : List Command) (wellFormed : ∀ cmd ∈ cmds, cmd.WellFormed)
    (fuel : Nat) (envs : Nat → Env) (succeed : ∀ i, (envs i).io.Succeeds) (result buf last : Bytes)
    (drained : RespReader.commands.drain fuel buf = some (cmds.map RespReader.received,last))
    (store : PersistentKvStore) (map : PlainMap) (holds : Holds store map) :
    ∃ store', serve fuel envs result ⟨⟨buf⟩,store⟩ =
        .ok (result ++ (plainAnswers map cmds).1.flatMap serializeResponse) ⟨⟨last⟩,store'⟩ ∧
      Holds store' (plainAnswers map cmds).2 := by
  induction fuel generalizing cmds envs result buf store map with
  | zero => cases drained
  | succ fuel ih =>
    cases cmds with
    | nil =>
      obtain ⟨waits,rfl⟩ := (RespReader.commands.drain_nil_iff fuel buf last).mp drained
      have run := answer_waits (envs 0) last store (RespReader.tryParse_of_nextEvent_none last waits)
      exact ⟨store,by simp [serve,run,plainAnswers],holds⟩
    | cons cmd cmds =>
      obtain ⟨rest,next,drained⟩ := (RespReader.commands.drain_cons_iff fuel buf last _ _).mp drained
      obtain ⟨parsed,-⟩ := RespReader.tryParse_of_nextEvent buf (.OK cmd) rest next
      have head := wellFormed cmd List.mem_cons_self
      obtain ⟨store₁,executed,after⟩ := holds.execute (envs 0) (succeed 0) cmd head
      have run := answer_command (envs 0) buf rest cmd _ store store₁ head.known parsed executed
      obtain ⟨store₂,served,final⟩ := ih cmds
        (fun c member => wellFormed c (List.mem_cons_of_mem cmd member)) (fun i => envs (i + 1))
        (fun i => succeed (i + 1)) (result ++ serializeResponse (plainAnswer map cmd).1) rest
        drained store₁ _ after
      exact ⟨store₂,by simp [serve,run,served,plainAnswers],final⟩

/-- A message that continues the stream of a connection: the commands it completes are
answered, and the reader is left with the bytes of the command it breaks off in. -/
theorem onMessage_continues (cmds : List Command) (wellFormed : ∀ cmd ∈ cmds, cmd.WellFormed)
    (fuel : Nat) (enough : cmds.length < fuel) (envs : Nat → Env)
    (succeed : ∀ i, (envs i).io.Succeeds) (n : Nat) (data : Bytes)
    (next : data <+: (cmds.flatMap serializeCommand).drop n)
    (inside : n ≤ (cmds.flatMap serializeCommand).length)
    (store : PersistentKvStore) (map : PlainMap) (holds : Holds store map) :
    ∃ store', onMessage fuel envs data ⟨RespReader.waiting cmds n,store⟩ =
        .ok ((plainAnswers map (newlyComplete cmds n data.length)).1.flatMap serializeResponse)
          ⟨RespReader.waiting cmds (n + data.length),store'⟩ ∧
      Holds store' (plainAnswers map (newlyComplete cmds n data.length)).2 := by
  have stream := RespReader.commands_stream cmds
  have drained := RespReader.commands.drain_pending (cmds.map RespReader.received)
    (RespReader.commands_valid cmds wellFormed) n fuel data (by rwa [stream]) (by rwa [stream])
    (by simpa using enough)
  rw [← List.map_take,← List.map_drop] at drained
  obtain ⟨store',served,after⟩ := serve_drained (newlyComplete cmds n data.length)
    (fun cmd member => wellFormed cmd (List.mem_of_mem_take (List.mem_of_mem_drop member)))
    fuel envs succeed [] _ _ drained store map holds
  refine ⟨store',?_,after⟩
  simpa [onMessage,onReader,Act.zoom,RespReader.feed,RespReader.waiting] using served

end Session

structure Message where
  fd : Fd
  data : Bytes
  envs : Nat → Env

def streamOf (fd : Fd) (messages : List Message) : Bytes :=
  (messages.filter fun m => m.fd = fd).flatMap Message.data

def outputsOf (fd : Fd) (messages : List Message) (outs : List Bytes) : Bytes :=
  ((messages.zip outs).filter fun p => p.1.fd = fd).flatMap Prod.snd

/-- The commands in the order in which their last bytes arrive, each with its connection. -/
def completionOrder (sent : Fd → List Command) : (Fd → Nat) → List Message → List (Fd × Command)
  | _, [] => []
  | arrived, m :: messages =>
    (newlyComplete (sent m.fd) (arrived m.fd) m.data.length).map (fun cmd => (m.fd,cmd)) ++
      completionOrder sent (Function.update arrived m.fd (arrived m.fd + m.data.length)) messages

/-- The serialised responses to the commands of one connection. -/
def repliesTo (fd : Fd) (order : List (Fd × Command)) (responses : List Response) : Bytes :=
  ((order.zip responses).filter fun p => p.1.1 = fd).flatMap fun p => serializeResponse p.2

theorem plainAnswers_length (map : PlainMap) (cmds : List Command) :
    (plainAnswers map cmds).1.length = cmds.length := by
  induction cmds generalizing map with
  | nil => rfl
  | cons cmd cmds ih => simp [plainAnswers,ih]

theorem plainAnswers_append (map : PlainMap) (first second : List Command) :
    plainAnswers map (first ++ second) =
      ((plainAnswers map first).1 ++ (plainAnswers (plainAnswers map first).2 second).1,
        (plainAnswers (plainAnswers map first).2 second).2) := by
  induction first generalizing map with
  | nil => rfl
  | cons cmd first ih => simp [plainAnswers,ih]

theorem repliesTo_append (fd : Fd) (first second : List (Fd × Command)) (a b : List Response)
    (aligned : first.length = a.length) :
    repliesTo fd (first ++ second) (a ++ b) = repliesTo fd first a ++ repliesTo fd second b := by
  simp [repliesTo,List.zip_append aligned]

theorem repliesTo_message (fd own : Fd) (cmds : List Command) (responses : List Response)
    (aligned : cmds.length = responses.length) :
    repliesTo fd (cmds.map fun cmd => (own,cmd)) responses =
      if own = fd then responses.flatMap serializeResponse else [] := by
  induction cmds generalizing responses with
  | nil =>
    obtain rfl := List.length_eq_zero_iff.mp aligned.symm
    simp [repliesTo]
  | cons cmd cmds ih =>
    cases responses with
    | nil => cases aligned
    | cons response responses =>
      have rest := ih responses (Nat.succ.inj aligned)
      simp only [repliesTo] at rest ⊢
      by_cases same : own = fd
      · simpa [same] using rest
      · simpa [same] using rest

theorem streamOf_cons (fd : Fd) (m : Message) (messages : List Message) :
    streamOf fd (m :: messages) = (if m.fd = fd then m.data else []) ++ streamOf fd messages := by
  by_cases same : m.fd = fd <;> simp [streamOf,same]

theorem outputsOf_cons (fd : Fd) (m : Message) (messages : List Message) (out : Bytes)
    (outs : List Bytes) :
    outputsOf fd (m :: messages) (out :: outs) =
      (if m.fd = fd then out else []) ++ outputsOf fd messages outs := by
  by_cases same : m.fd = fd <;> simp [outputsOf,same]

theorem plainAnswers_completionOrder (map : PlainMap) (sent : Fd → List Command)
    (arrived : Fd → Nat) (m : Message) (messages : List Message) :
    let now := plainAnswers map (newlyComplete (sent m.fd) (arrived m.fd) m.data.length)
    let later := plainAnswers now.2 ((completionOrder sent
      (Function.update arrived m.fd (arrived m.fd + m.data.length)) messages).map Prod.snd)
    plainAnswers map ((completionOrder sent arrived (m :: messages)).map Prod.snd) =
      (now.1 ++ later.1,later.2) := by
  rw [completionOrder,List.map_append,List.map_map,plainAnswers_append]
  simp [Function.comp_def]

theorem newlyComplete_append (cmds : List Command) (n more later : Nat) :
    newlyComplete cmds n more ++ newlyComplete cmds (n + more) later =
      newlyComplete cmds n (more + later) := by
  have first := RespReader.commands.completed_mono (cmds.map RespReader.received) n (n + more)
    (Nat.le_add_right ..)
  have second := RespReader.commands.completed_mono (cmds.map RespReader.received) (n + more)
    (n + more + later) (Nat.le_add_right ..)
  have inside := RespReader.commands.completed_le_length (cmds.map RespReader.received) (n + more)
  rw [List.length_map] at inside
  simp only [newlyComplete,completedBy,← Nat.add_assoc]
  generalize RespReader.commands.completed (cmds.map RespReader.received) = done at *
  have whole := List.take_append_drop (done (n + more)) (cmds.take (done (n + more + later)))
  rw [List.take_take,Nat.min_eq_left second] at whole
  conv => rhs; rw [← whole]
  exact (List.drop_append_of_le_length (by rw [List.length_take]; omega)).symm

theorem completionOrder_of (sent : Fd → List Command) (fd : Fd) (messages : List Message)
    (arrived : Fd → Nat) :
    ((completionOrder sent arrived messages).filter fun p => p.1 = fd).map Prod.snd =
      newlyComplete (sent fd) (arrived fd) (streamOf fd messages).length := by
  induction messages generalizing arrived with
  | nil => simp [completionOrder,streamOf,newlyComplete]
  | cons m messages ih =>
    rw [completionOrder,List.filter_append,List.map_append,ih,streamOf_cons]
    by_cases same : m.fd = fd
    · subst same
      simp [List.filter_map,Function.comp_def,newlyComplete_append]
    · simp [List.filter_map,Function.comp_def,same,Ne.symm same]

namespace KvServer

def handleAll (fuel : Nat) : List Message → Act KvServer (List Bytes)
  | [] => return []
  | m :: messages => do
    let out ← onMessage fuel m.envs m.fd m.data
    return out :: (← handleAll fuel messages)

/-- Each reader has received that many bytes of the stream of its connection, and the store
holds this map. -/
structure Midway (sent : Fd → List Command) (arrived : Fd → Nat) (map : PlainMap)
    (s : KvServer) : Prop where
  readers : ∀ fd, s.reader fd = .waiting (sent fd) (arrived fd)
  inside : ∀ fd, arrived fd ≤ ((sent fd).flatMap serializeCommand).length
  holds : Holds s.store map

section

variable {sent : Fd → List Command} (wellFormed : ∀ fd, ∀ cmd ∈ sent fd, cmd.WellFormed)
  {fuel : Nat} (enough : ∀ fd, (sent fd).length < fuel)
include wellFormed enough

theorem Midway.message {arrived : Fd → Nat} {map : PlainMap} {s : KvServer}
    (midway : Midway sent arrived map s) (m : Message) (succeed : ∀ i, (m.envs i).io.Succeeds)
    (next : m.data <+: ((sent m.fd).flatMap serializeCommand).drop (arrived m.fd)) :
    let answers := plainAnswers map (newlyComplete (sent m.fd) (arrived m.fd) m.data.length)
    ∃ s', onMessage fuel m.envs m.fd m.data s = .ok (answers.1.flatMap serializeResponse) s' ∧
      Midway sent (Function.update arrived m.fd (arrived m.fd + m.data.length)) answers.2 s' := by
  intro answers
  obtain ⟨store',ran,after⟩ := Session.onMessage_continues (sent m.fd) (wellFormed m.fd) fuel
    (enough m.fd) m.envs succeed (arrived m.fd) m.data next (midway.inside m.fd) s.store map
    midway.holds
  have session : s.session m.fd = ⟨.waiting (sent m.fd) (arrived m.fd),s.store⟩ := by
    rw [KvServer.session,midway.readers]
  refine ⟨s.withSession m.fd ⟨.waiting (sent m.fd) (arrived m.fd + m.data.length),store'⟩,
    Act.zoom_ok _ _ _ s _ _ (by rw [session]; exact ran),?_,?_,after⟩
  · intro fd
    rw [reader_withSession]
    by_cases same : fd = m.fd
    · subst same
      simp
    · simp [same,midway.readers fd]
  · intro fd
    by_cases same : fd = m.fd
    · subst same
      have room := next.length_le
      have before := midway.inside m.fd
      rw [List.length_drop] at room
      simp only [Function.update_self]
      omega
    · simpa [same] using midway.inside fd

/-- Messages that continue the streams are answered as the plain map answers their
commands in completion order. -/
theorem Midway.messages (messages : List Message)
    (succeed : ∀ m ∈ messages, ∀ i, (m.envs i).io.Succeeds) {arrived : Fd → Nat} {map : PlainMap}
    {s : KvServer} (midway : Midway sent arrived map s)
    (next : ∀ fd, streamOf fd messages <+: ((sent fd).flatMap serializeCommand).drop (arrived fd)) :
    let order := completionOrder sent arrived messages
    let answers := plainAnswers map (order.map Prod.snd)
    ∃ outs s', handleAll fuel messages s = .ok outs s' ∧
      (∀ fd, outputsOf fd messages outs = repliesTo fd order answers.1) ∧
      s'.store.data.toFinmap = answers.2 := by
  induction messages generalizing arrived map s with
  | nil => exact ⟨[],s,rfl,fun fd => rfl,midway.holds.map⟩
  | cons m messages ih =>
    have first : m.data <+: ((sent m.fd).flatMap serializeCommand).drop (arrived m.fd) := by
      have own := next m.fd
      rw [streamOf_cons,if_pos rfl] at own
      exact (List.prefix_append ..).trans own
    obtain ⟨s₁,ran,midway⟩ := midway.message wellFormed enough m (succeed m List.mem_cons_self) first
    -- the other messages continue each stream behind the bytes of this one
    have later : ∀ fd, streamOf fd messages <+: ((sent fd).flatMap serializeCommand).drop
        (Function.update arrived m.fd (arrived m.fd + m.data.length) fd) := by
      intro fd
      have own := next fd
      rw [streamOf_cons] at own
      by_cases same : m.fd = fd
      · subst same
        obtain ⟨rest,whole⟩ := own
        refine ⟨rest,?_⟩
        rw [Function.update_self,← List.drop_drop,← whole,if_pos rfl,List.append_assoc,List.drop_left]
      · simpa [same,Ne.symm same] using own
    obtain ⟨outs,s₂,handled,outputs,final⟩ :=
      ih (fun x member => succeed x (List.mem_cons_of_mem m member)) midway later
    have split := plainAnswers_completionOrder map sent arrived m messages
    refine ⟨(plainAnswers map (newlyComplete (sent m.fd) (arrived m.fd) m.data.length)).1.flatMap
      serializeResponse :: outs,s₂,by simp [handleAll,ran,handled],fun fd => ?_,?_⟩
    · rw [outputsOf_cons,outputs fd,split,completionOrder,repliesTo_append _ _ _ _ _
        (by simp [plainAnswers_length]),repliesTo_message _ _ _ _ (by simp [plainAnswers_length])]
    · rw [final,split]

/-- The server refines a plain map. The commands of the connections are answered in the
order in which they become complete, which on each connection is the order of sending. -/
theorem handleAll_refines_plain_map (messages : List Message)
    (cut : ∀ fd, streamOf fd messages = (sent fd).flatMap serializeCommand)
    (succeed : ∀ m ∈ messages, ∀ i, (m.envs i).io.Succeeds) (s : KvServer)
    (fresh : ∀ fd, s.reader fd = .empty) (content : Bytes) (ready : s.store.wal.Ready content) :
    let order := completionOrder sent (fun _ => 0) messages
    let answers := plainAnswers s.store.data.toFinmap (order.map Prod.snd)
    (∀ fd, (order.filter fun p => p.1 = fd).map Prod.snd = sent fd) ∧
      ∃ outs s', handleAll fuel messages s = .ok outs s' ∧
        (∀ fd, outputsOf fd messages outs = repliesTo fd order answers.1) ∧
        s'.store.data.toFinmap = answers.2 := by
  refine ⟨fun fd => ?_,?_⟩
  · have valid := RespReader.commands_valid (sent fd) (wellFormed fd)
    have all := RespReader.commands.completed_stream ((sent fd).map RespReader.received)
    rw [RespReader.commands_stream,List.length_map] at all
    rw [completionOrder_of,cut fd,newlyComplete,Nat.zero_add,completedBy,completedBy,all,
      RespReader.commands.completed_zero _ valid]
    simp
  · have midway : Midway sent (fun _ => 0) s.store.data.toFinmap s :=
      ⟨fun fd => by simp [fresh fd,RespReader.waiting,RespReader.empty],fun _ => Nat.zero_le _,
        ⟨content,ready⟩,rfl⟩
    exact midway.messages wellFormed enough messages succeed fun fd => by simp [cut fd]

end

/-- One connection sets a key in two pieces; another asks for it before the second piece,
and counts the keys after it. -/
def twoConnections : List Message :=
  [⟨4,ascii "*3\r\n$3\r\nSET\r\n$1\r\na",fun _ => .faultless⟩,
    ⟨5,ascii "*2\r\n$3\r\nGET\r\n$1\r\na\r\n*1",fun _ => .faultless⟩,
    ⟨4,ascii "\r\n$1\r\n7\r\n",fun _ => .faultless⟩,
    ⟨5,ascii "\r\n$4\r\nKEYS\r\n",fun _ => .faultless⟩]

def twoSent (fd : Fd) : List Command :=
  if fd = 4 then [⟨.SET,[ascii "a",ascii "7"],.NONE⟩]
  else if fd = 5 then [⟨.GET,[ascii "a"],.NONE⟩,⟨.KEYS,[],.NONE⟩]
  else []

theorem handleAll_refines_plain_map_two :
    ∃ outs s', handleAll 3 twoConnections (start .opened) = .ok outs s' ∧
      outputsOf 4 twoConnections outs = ascii "+OK\r\n" ∧
      outputsOf 5 twoConnections outs = ascii "$-1\r\n:1\r\n" := by
  have wellFormed : ∀ fd, ∀ cmd ∈ twoSent fd, cmd.WellFormed := by
    intro fd cmd member
    simp only [twoSent] at member
    split at member
    · obtain rfl := List.mem_singleton.mp member
      exact ⟨rfl,by decide,rfl⟩
    split at member
    · simp only [List.mem_cons,List.not_mem_nil,or_false] at member
      rcases member with rfl | rfl
      · exact ⟨rfl,by decide,rfl⟩
      · exact ⟨rfl,by decide,rfl⟩
    · cases member
  have cut : ∀ fd, streamOf fd twoConnections = (twoSent fd).flatMap serializeCommand := by
    intro fd
    by_cases first : fd = 4
    · subst first
      decide +kernel
    by_cases second : fd = 5
    · subst second
      decide +kernel
    simp [streamOf,twoConnections,twoSent,first,second,Ne.symm first,Ne.symm second]
  have enough : ∀ fd, (twoSent fd).length < 3 := by
    intro fd
    simp only [twoSent]
    split
    · decide
    split <;> decide
  obtain ⟨-,outs,s',ran,outputs,-⟩ := handleAll_refines_plain_map wellFormed enough twoConnections
    cut (by simp [twoConnections,Io.faultless_succeeds]) (start .opened) (fun _ => rfl) []
    ⟨rfl,rfl,rfl,rfl,rfl⟩
  exact ⟨outs,s',ran,(outputs 4).trans (by decide +kernel),(outputs 5).trans (by decide +kernel)⟩

end KvServer

end KvCache
