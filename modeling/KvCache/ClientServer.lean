import KvCache.ClientCalls
import KvCache.ConnectionOrder
import KvCache.Linearizability

/-! Clients and server together. Each client has a connection and one call at a time: it sends a
command and receives until it has the answer, and between its calls it may disconnect. The server
receives the bytes in chunks, and its workers take the chunks from the queue, each at its own pace.
A call takes effect where a worker executes its command. -/
namespace KvCache

open Linearizability (Event CallState Atomic)

/-- The server with the clients of its connections. -/
structure Network (ω : Type) where
  reactor : Reactor ω
  /-- The call that a client is in, with the chunks that it has received. -/
  call : Fd → Option (ClientOp × List Bytes)
  /-- What a client has sent and the server has not received. -/
  toServer : Fd → Bytes
  /-- How much of what was sent to it a client has received. -/
  taken : Fd → Nat
  /-- The client has disconnected. -/
  left : Fd → Bool
  /-- How many calls have returned at a number. -/
  count : Fd → Nat
  history : List (Event (Fd × Nat) ClientOp ClientReply)

namespace Network

variable {ω : Type} [DecidableEq ω]

def toClient (s : Network ω) (fd : Fd) : Bytes :=
  (s.reactor.deliveredTo (s.reactor.current fd)).drop (s.taken fd)

/-- What the server has given to `send` for a client and the client has not received. -/
def owed (s : Network ω) (fd : Fd) : Bytes :=
  (s.reactor.sentTo (s.reactor.current fd)).drop (s.taken fd)

def boot (store : PersistentKvStore) : Network ω :=
  ⟨.boot store,fun _ => none,fun _ => [],fun _ => 0,fun _ => false,fun _ => 0,[]⟩

/-- A client begins a call, something happens at the server, `recv` gives a client some bytes, a
call ends, or a client disconnects. -/
inductive Turn (ω : Type) where
  | call (fd : Fd) (op : ClientOp)
  | server (event : Reactor.Event ω)
  | receive (fd : Fd) (size : Nat)
  | ret (fd : Fd)
  | disconnect (fd : Fd)

def clientWith (chunks : List Bytes) : KvClient := ⟨0,[],chunks.map some⟩

/-- One turn. The server closes a connection when its client has left and all has been read. -/
def step (s : Network ω) : Turn ω → Option (Network ω)
  | .call fd op =>
    if s.reactor.isOpen fd ∧ s.call fd = none ∧ s.left fd = false then
      some { s with
        call := Function.update s.call fd (some (op,[]))
        toServer := Function.update s.toServer fd (s.toServer fd ++ serializeCommand op.command)
        history := s.history ++ [.invoke (fd,s.count fd) op] }
    else none
  | .server (.accept fd) =>
    (Reactor.step s.reactor (.accept fd)).map fun reactor =>
      { s with reactor := reactor
               taken := Function.update s.taken fd 0
               left := Function.update s.left fd false }
  | .server (.close fd) =>
    if s.left fd = true ∧ s.toServer fd = [] then
      (Reactor.step s.reactor (.close fd)).map fun reactor => { s with reactor := reactor }
    else none
  | .server (.data fd bytes) =>
    if bytes <+: s.toServer fd then
      (Reactor.step s.reactor (.data fd bytes)).map fun reactor =>
        { s with reactor := reactor
                 toServer := Function.update s.toServer fd ((s.toServer fd).drop bytes.length) }
    else none
  | .server event => (Reactor.step s.reactor event).map fun reactor => { s with reactor := reactor }
  | .receive fd size =>
    match s.call fd with
    | none => none
    | some (op,chunks) =>
      match KvClient.receive [] (chunks.map some) with
      | .error .outOfFuel =>
        if 0 < size ∧ size ≤ 4096 ∧ size ≤ (s.toClient fd).length then
          some { s with
            call := Function.update s.call fd (some (op,chunks ++ [(s.toClient fd).take size]))
            taken := Function.update s.taken fd (s.taken fd + size) }
        else none
      | _ => none
  | .ret fd =>
    match s.call fd with
    | none => none
    | some (op,chunks) =>
      match op.run (clientWith chunks) with
      | .error _ _ => none
      | .ok reply _ => some { s with
          call := Function.update s.call fd none
          count := Function.update s.count fd (s.count fd + 1)
          history := s.history ++ [.respond (fd,s.count fd) reply] }
  | .disconnect fd =>
    if s.reactor.isOpen fd ∧ s.call fd = none ∧ s.left fd = false then
      some { s with left := Function.update s.left fd true }
    else none

theorem server_of_step {s s' : Network ω} (turn : Turn ω) (taken : step s turn = some s') :
    s'.reactor = s.reactor ∨ ∃ event, turn = .server event ∧
      Reactor.Took s.reactor event s'.reactor := by
  cases turn with
  | call fd op =>
    simp only [Network.step] at taken
    split at taken <;> cases taken
    exact .inl rfl
  | receive fd size =>
    simp only [Network.step] at taken
    split at taken
    next => cases taken
    split at taken
    next =>
      split at taken <;> cases taken
      exact .inl rfl
    next => cases taken
  | ret fd =>
    simp only [Network.step] at taken
    split at taken
    next => cases taken
    split at taken <;> cases taken
    exact .inl rfl
  | disconnect fd =>
    simp only [Network.step] at taken
    split at taken <;> cases taken
    exact .inl rfl
  | server event =>
    refine .inr ⟨event,rfl,?_⟩
    have ran : Reactor.step s.reactor event = some s'.reactor := by
      cases event with
      | data _ _ | close _ =>
        simp only [Network.step] at taken
        split at taken
        next =>
          obtain ⟨r,ran,rfl⟩ := Option.map_eq_some_iff.mp taken
          exact ran
        next => cases taken
      | accept _ | pop _ | enter _ | pass _ _ | send _ _ =>
        obtain ⟨r,ran,rfl⟩ := Option.map_eq_some_iff.mp taken
        exact ran
    exact Reactor.took_of_step _ _ _ ran

theorem reactor_of_client {s s' : Network ω} {turn : Turn ω} (taken : step s turn = some s')
    (client : ∀ event, turn ≠ .server event) : s'.reactor = s.reactor := by
  rcases server_of_step turn taken with same | ⟨event,server,-⟩
  · exact same
  · exact absurd server (client event)

/-- The arguments can be sent, and the files can be written. -/
def Turn.Admitted : Turn ω → Prop
  | .call _ op => op.command.WellFormed
  | .server (.pass _ env) => env.io.Succeeds
  | _ => True

/-- The moves of the plain map with its callers that a turn can be. -/
def Turn.Moves : Turn ω → List (Linearizability.Move Fd ClientOp) → Prop
  | .call fd op, moves => moves = [.invoke fd op]
  | .ret fd, moves => moves = [.respond fd]
  | .receive _ _, moves | .disconnect _, moves => moves = []
  | .server _, moves => moves = [] ∨ ∃ fd, moves = [.commit fd]

def Countable (s : Network ω) : Prop := s.reactor.server.store.data.entries.length < 2 ^ 31

/-- A chunk is taken from the queue when no worker has another one of its connection, and
commands are looked for while the keys can be counted. -/
def InTurn (s : Network ω) : Turn ω → Prop
  | .server (.pop _) =>
    ∀ task ∈ s.reactor.tasks.head?, ∀ w, ¬(s.reactor.worker w).IsOn task.connection
  | .server (.pass _ _) => s.Countable
  | _ => True

instance [Fintype ω] (s : Network ω) : (turn : Turn ω) → Decidable (s.InTurn turn)
  | .server (.pop _) => inferInstanceAs (Decidable
      (∀ task ∈ s.reactor.tasks.head?, ∀ w, ¬(s.reactor.worker w).IsOn task.connection))
  | .server (.pass _ _) => inferInstanceAs (Decidable (_ < _))
  | .call _ _ | .receive _ _ | .ret _ | .disconnect _ | .server (.accept _) | .server (.data _ _)
  | .server (.close _) | .server (.enter _) | .server (.send _ _) => .isTrue trivial

/-- What the parts of a connection hold while its client is outside a call, in a call that has
not taken effect, and in one that has. -/
def Stage (reader : Bytes) (holder : Worker) (queued : List Bytes) (toServer : Bytes)
    (call : Option (ClientOp × List Bytes)) (owed : Bytes) :
    CallState ClientOp ClientReply → Prop
  | .idle => call = none ∧ reader = [] ∧ holder = .idle ∧ queued = [] ∧ toServer = [] ∧ owed = []
  | .called op => call = some (op,[]) ∧ op.command.WellFormed ∧ owed = [] ∧ holder.unsent = [] ∧
      reader ++ (holder.unfed.flatten ++ (queued.flatten ++ toServer)) =
        serializeCommand op.command ∧
      (reader = serializeCommand op.command → ∃ task result, holder = .serving task result)
  | .committed op reply => reader = [] ∧ holder.unfed = [] ∧ queued = [] ∧ toServer = [] ∧
      (holder = .idle ∨ holder.unsent.flatten ≠ [] ∧ owed = []) ∧ ∃ map chunks, reply = (op.answer map).1 ∧
        KvClient.Producible (plainAnswer map op.command).1 ∧ call = some (op,chunks) ∧
        (∀ chunk ∈ chunks, chunk ≠ []) ∧ chunks.flatten ++ (owed ++ holder.unsent.flatten) =
          serializeResponse (plainAnswer map op.command).1

theorem serializeResponse_ne_nil (resp : Response) : serializeResponse resp ≠ [] := by
  intro empty
  have head := KvClient.serializeResponse_head resp
  rw [empty] at head
  cases head

namespace Stage

variable {reader toServer owed : Bytes} {holder : Worker} {task : Task} {queued : List Bytes}
  {call : Option (ClientOp × List Bytes)} {phase : CallState ClientOp ClientReply}

theorem begin (stage : Stage reader holder queued toServer none owed phase) (op : ClientOp)
    (wellFormed : op.command.WellFormed) :
    phase = .idle ∧ Stage reader holder queued (toServer ++ serializeCommand op.command)
      (some (op,[])) owed (.called op) := by
  cases phase with
  | called other => cases stage.1
  | committed other reply =>
    obtain ⟨-,-,-,-,-,_,_,-,-,impossible,-⟩ := stage
    cases impossible
  | idle =>
    obtain ⟨-,rfl,rfl,rfl,rfl,rfl⟩ := stage
    refine ⟨rfl,rfl,wellFormed,rfl,rfl,rfl,fun whole => ?_⟩
    have nothing := RespReader.tryParse_serialized op.command wellFormed []
    rw [← whole,List.append_nil,RespReader.tryParse_nil] at nothing
    cases nothing

theorem arrive (stage : Stage reader holder queued toServer call owed phase) (bytes : Bytes)
    (sent : bytes <+: toServer) (filled : bytes ≠ []) :
    Stage reader holder (queued ++ [bytes]) (toServer.drop bytes.length) call owed phase := by
  obtain ⟨rest,rfl⟩ := sent
  rw [List.drop_left]
  cases phase with
  | idle =>
    obtain ⟨-,-,-,-,empty,-⟩ := stage
    exact absurd (List.append_eq_nil_iff.mp empty).1 filled
  | committed op reply =>
    obtain ⟨-,-,-,empty,-⟩ := stage
    exact absurd (List.append_eq_nil_iff.mp empty).1 filled
  | called op =>
    obtain ⟨calling,wellFormed,silent,unsent,joined,early⟩ := stage
    refine ⟨calling,wellFormed,silent,unsent,?_,early⟩
    simpa using joined

theorem pop (stage : Stage reader .idle (task.data :: queued) toServer call owed phase) :
    Stage reader (.popped task) queued toServer call owed phase := by
  cases phase with
  | idle => cases stage.2.2.2.1
  | committed op reply => cases stage.2.2.1
  | called op =>
    obtain ⟨calling,wellFormed,silent,-,joined,early⟩ := stage
    refine ⟨calling,wellFormed,silent,rfl,?_,fun whole => ?_⟩
    · simpa [Worker.unfed] using joined
    · obtain ⟨_,_,impossible⟩ := early whole
      cases impossible

theorem enter (stage : Stage reader (.popped task) queued toServer call owed phase) :
    Stage (reader ++ task.data) (.serving task []) queued toServer call owed phase := by
  cases phase with
  | idle => cases stage.2.2.1
  | committed op reply => cases stage.2.1
  | called op =>
    obtain ⟨calling,wellFormed,silent,-,joined,-⟩ := stage
    refine ⟨calling,wellFormed,silent,rfl,?_,fun _ => ⟨task,[],rfl⟩⟩
    simpa [Worker.unfed] using joined

/-- What a worker finds when it looks for a command: nothing to do, or the command of a call. -/
theorem answer {result : List Bytes}
    (stage : Stage reader (.serving task result) queued toServer call owed phase)
    (filled : ∀ chunk ∈ queued, chunk ≠ []) {store : PersistentKvStore} {map : PlainMap}
    (holds : Holds store map) (short : ShortValues map) (few : map.keys.card < 2 ^ 31) (env : Env)
    (succeeds : env.io.Succeeds) :
    (Session.answer env ⟨⟨reader⟩,store⟩ = .ok none ⟨⟨reader⟩,store⟩ ∧
      Stage reader (.replying task result) queued toServer call owed phase) ∨
    ∃ op store', phase = .called op ∧ op.command.WellFormed ∧ result = [] ∧
      Session.answer env ⟨⟨reader⟩,store⟩ =
        .ok (some (serializeResponse (plainAnswer map op.command).1)) ⟨⟨[]⟩,store'⟩ ∧
      Holds store' (plainAnswer map op.command).2 ∧
      Stage [] (.serving task [serializeResponse (plainAnswer map op.command).1]) queued toServer
        call owed (.committed op (op.answer map).1) := by
  cases phase with
  | idle =>
    obtain ⟨-,-,impossible,-⟩ := stage
    cases impossible
  | committed op reply =>
    obtain ⟨rfl,-,unqueued,arrived,replies,map',chunks,rest⟩ := stage
    exact .inl ⟨Session.answer_waits env [] store RespReader.tryParse_nil,rfl,rfl,unqueued,arrived,
      .inr (replies.resolve_left Worker.noConfusion),map',chunks,rest⟩
  | called op =>
    obtain ⟨calling,wellFormed,silent,unsent,bytes,-⟩ := stage
    cases (unsent : result = [])
    by_cases whole : reader = serializeCommand op.command
    · -- The last byte has arrived, so nothing of the call is left on the way.
      obtain ⟨store',ran,holds'⟩ := holds.execute env succeeds op.command wellFormed
      have parsed := RespReader.tryParse_serialized op.command wellFormed []
      rw [List.append_nil,← whole] at parsed
      have left : queued.flatten = [] ∧ toServer = [] := by
        have nothing : [] ++ (queued.flatten ++ toServer) = [] :=
          List.append_cancel_left ((bytes.trans whole.symm).trans (List.append_nil reader).symm)
        simpa only [List.nil_append,List.append_eq_nil_iff] using nothing
      have unqueued : queued = [] := by
        rw [List.eq_nil_iff_forall_not_mem]
        intro chunk member
        exact filled chunk member (List.flatten_eq_nil_iff.mp left.1 chunk member)
      refine .inr ⟨op,store',rfl,wellFormed,rfl,?_,holds',rfl,rfl,unqueued,left.2,.inr ⟨?_,silent⟩,map,
        [],rfl,op.producible map short few,calling,by simp,?_⟩
      · exact Session.answer_command env reader [] op.command _ store store' wellFormed.known parsed ran
      · simp [Worker.unsent,serializeResponse_ne_nil]
      · simp [silent,Worker.unsent]
    · have waits := RespReader.tryParse_strict op.command wellFormed reader ⟨_,bytes⟩ whole
      exact .inl ⟨Session.answer_waits env reader store waits,calling,wellFormed,silent,rfl,bytes,
        fun complete => absurd complete whole⟩

theorem send {result : List Bytes}
    (stage : Stage reader (.replying task result) queued toServer call owed phase) :
    Stage reader .idle queued toServer call (owed ++ result.flatten) phase := by
  cases phase with
  | idle => cases stage.2.2.1
  | committed op reply =>
    obtain ⟨read,-,unqueued,arrived,-,map,chunks,answered,readable,calling,filled,joined⟩ := stage
    refine ⟨read,rfl,unqueued,arrived,.inl rfl,map,chunks,answered,readable,calling,filled,?_⟩
    simpa [Worker.unsent] using joined
  | called op =>
    obtain ⟨calling,wellFormed,rfl,unsent,joined,early⟩ := stage
    cases (unsent : result = [])
    refine ⟨calling,wellFormed,rfl,rfl,joined,fun whole => ?_⟩
    obtain ⟨_,_,impossible⟩ := early whole
    cases impossible

theorem silent {result : List Bytes}
    (stage : Stage reader (.replying task result) queued toServer call owed phase) :
    result.flatten = [] ∨ owed = [] := by
  cases phase with
  | idle => cases stage.2.2.1
  | called op => exact .inr stage.2.2.1
  | committed op reply =>
    obtain ⟨-,-,-,-,replies,-⟩ := stage
    exact .inr (replies.resolve_left Worker.noConfusion).2

theorem receive {op : ClientOp} {chunks : List Bytes}
    (stage : Stage reader holder queued toServer (some (op,chunks)) owed phase) (size : Nat)
    (positive : 0 < size) (inside : size ≤ owed.length) :
    Stage reader holder queued toServer (some (op,chunks ++ [owed.take size]))
      (owed.drop size) phase := by
  cases phase with
  | idle => cases stage.1
  | called other =>
    obtain ⟨-,-,rfl,-⟩ := stage
    exact absurd (Nat.lt_of_lt_of_le positive inside) (Nat.lt_irrefl 0)
  | committed other reply =>
    obtain ⟨read,fed,unqueued,arrived,replies,map,_,answered,readable,calling,filled,joined⟩ := stage
    cases calling
    have sent : holder = .idle := by
      apply replies.resolve_right
      rintro ⟨-,rfl⟩
      exact absurd (Nat.lt_of_lt_of_le positive inside) (Nat.lt_irrefl 0)
    refine ⟨read,fed,unqueued,arrived,.inl sent,map,_,answered,readable,rfl,?_,?_⟩
    · intro chunk member
      rcases List.mem_append.mp member with old | new
      · exact filled chunk old
      · cases List.mem_singleton.mp new
        apply List.ne_nil_of_length_pos
        rw [List.length_take]
        omega
    · rw [List.flatten_append,List.flatten_singleton,List.append_assoc,
        ← List.append_assoc (owed.take size),List.take_append_drop]
      exact joined

/-- A call that returns has taken effect, its reply is the one of that moment, and nothing of it
is left on the way. -/
theorem ret {op : ClientOp} {chunks : List Bytes}
    (stage : Stage reader holder queued toServer (some (op,chunks)) owed phase)
    {reply : ClientReply} {client : KvClient} (ran : op.run (clientWith chunks) = .ok reply client) :
    phase = .committed op reply ∧ Stage reader holder queued toServer none owed .idle := by
  have unfinished : KvClient.receive [] (chunks.map some) ≠ .error .outOfFuel := by
    intro waits
    obtain ⟨_,failed⟩ := op.run_waits (clientWith chunks) (Int.le_refl 0) waits
    cases ran.symm.trans failed
  cases phase with
  | idle => cases stage.1
  | called other =>
    obtain ⟨calling,-⟩ := stage
    cases calling
    exact absurd rfl unfinished
  | committed other reply' =>
    obtain ⟨rfl,-,rfl,rfl,replies,map,_,rfl,readable,calling,filled,joined⟩ := stage
    cases calling
    -- A part of the reply would have left the client waiting.
    have whole : chunks.flatten = serializeResponse (plainAnswer map op.command).1 := by
      by_contra strict
      apply unfinished
      exact (KvClient.framed_response _ readable).receive_part chunks [] ⟨_,joined⟩ strict
    have answered := op.run_answered (clientWith chunks) (Int.le_refl 0) map readable chunks filled
      whole [] (List.append_nil _).symm
    cases ran.symm.trans answered
    have rest : owed ++ holder.unsent.flatten = [] :=
      List.append_cancel_left ((joined.trans whole.symm).trans (List.append_nil _).symm)
    obtain ⟨rfl,sent⟩ := List.append_eq_nil_iff.mp rest
    exact ⟨rfl,rfl,rfl,replies.resolve_right fun unsent => unsent.1 sent,rfl,rfl,rfl⟩

end Stage

def At (s : Network ω) (fd : Fd) (holder : Worker) (phase : CallState ClientOp ClientReply) : Prop :=
  Stage (s.reactor.server.reader fd).buf holder (s.reactor.queuedFor (s.reactor.current fd))
    (s.toServer fd) (s.call fd) (s.owed fd) phase

end Network

namespace Reactor

variable {ω : Type} [DecidableEq ω]

/-- Tasks belong to connections that are open. -/
def Live (s : Reactor ω) : Prop := ∀ task, s.Pending task → s.Connected task.connection

theorem Took.live {s s' : Reactor ω} {event : Event ω} (took : Took s event s') (live : s.Live)
    (quiet : ∀ fd, event = .close fd → ∀ task, s.Pending task → task.connection.fd ≠ fd) :
    s'.Live := by
  intro task pending
  rcases took.pending pending with old | ⟨fd,bytes,rfl,rfl⟩
  · obtain ⟨isOpen,current⟩ := live task old
    cases took with
    | accept fd closed =>
      have other : task.connection.fd ≠ fd := by
        rintro rfl
        simp [closed] at isOpen
      exact ⟨by simpa [other] using isOpen,by simpa [Reactor.current,other] using current⟩
    | close fd => exact ⟨by simpa [quiet fd rfl task old] using isOpen,current⟩
    | _ => exact ⟨isOpen,current⟩
  · cases took with
    | data fd bytes isOpen => exact ⟨isOpen,rfl⟩

theorem deliveredTo_sendTo (s : Reactor ω) (w : ω) (target : Connection) (result : List Bytes)
    (room : Nat) (connected : s.Connected target) (c : Connection) :
    deliveredTo ((s.sendTo target result room).moveTo w .idle) c =
      s.deliveredTo c ++ if c = target then result.flatten.take room else [] := by
  simp only [deliveredTo,moveTo,sendTo,connected.1,if_true,← connected.2]
  by_cases empty : result.flatten = []
  · simp [empty]
  · by_cases same : c = target
    · simp [empty,same]
    · simp [empty,same,Ne.symm same]

end Reactor

namespace Network

variable {ω : Type} [DecidableEq ω]

/-- The plain map with its callers is what clients and server make up together. -/
structure Simulates (s : Network ω) (a : Atomic Fd ClientOp ClientReply PlainMap) : Prop where
  history : s.history = a.history
  count : s.count = a.count
  holds : Holds s.reactor.server.store a.state
  short : ShortValues a.state
  live : s.reactor.Live
  once : s.reactor.Once
  filled : ∀ task ∈ s.reactor.tasks, task.data ≠ []
  unborn : ∀ c, s.reactor.generation c.fd < c.generation →
    s.reactor.sentTo c = [] ∧ s.reactor.deliveredTo c = []
  opened : ∀ fd, s.call fd ≠ none → s.reactor.isOpen fd = true ∧ s.left fd = false
  taken : ∀ fd, s.taken fd ≤ (s.reactor.deliveredTo (s.reactor.current fd)).length
  delivered : ∀ fd, s.reactor.deliveredTo (s.reactor.current fd) <+:
    s.reactor.sentTo (s.reactor.current fd)
  stages : ∀ fd holder, s.reactor.HeldBy (s.reactor.current fd) holder → s.At fd holder (a.phase fd)

section Moves

variable {s : Network ω} {a a' : Atomic Fd ClientOp ClientReply PlainMap} {r : Reactor ω}

omit [DecidableEq ω] in
theorem current_ne {fd other : Fd} (apart : other ≠ fd) :
    s.reactor.current other ≠ s.reactor.current fd :=
  fun equal => apart (congrArg Connection.fd equal)

/-- What a step of a worker with a task of the connection `fd` has to keep. -/
theorem Simulates.move (sim : s.Simulates a) (live : r.Live) (w : ω) (next : Worker) (fd : Fd)
    (worker : r.worker = Function.update s.reactor.worker w next)
    (before : ∀ c, (s.reactor.worker w).IsOn c → c = s.reactor.current fd)
    (alone : ∀ v, v ≠ w → ¬(s.reactor.worker v).IsOn (s.reactor.current fd))
    (after : next.task.map Task.connection = some (s.reactor.current fd) ∨ next = .idle)
    (tasks : r.tasks ⊆ s.reactor.tasks)
    (generation : r.generation = s.reactor.generation) (isOpen : r.isOpen = s.reactor.isOpen)
    (history : a'.history = a.history) (count : a'.count = a.count)
    (phase : ∀ other, other ≠ fd → a'.phase other = a.phase other)
    (holds : Holds r.server.store a'.state) (short : ShortValues a'.state)
    (readers : ∀ other, other ≠ fd → r.server.reader other = s.reactor.server.reader other)
    (queued : ∀ c, c ≠ s.reactor.current fd → r.queuedFor c = s.reactor.queuedFor c)
    (sent : ∀ c, c ≠ s.reactor.current fd →
      r.sentTo c = s.reactor.sentTo c ∧ r.deliveredTo c = s.reactor.deliveredTo c)
    (grows : s.reactor.deliveredTo (s.reactor.current fd) <+: r.deliveredTo (s.reactor.current fd))
    (front : r.deliveredTo (s.reactor.current fd) <+: r.sentTo (s.reactor.current fd))
    (own : At { s with reactor := r } fd next (a'.phase fd)) :
    Simulates { s with reactor := r } a' := by
  have on : ∀ c, next.IsOn c → c = s.reactor.current fd := by
    intro c isOn
    rcases after with moved | rfl
    · exact Option.some.inj (isOn.symm.trans moved)
    · cases isOn
  have kept : next.IsOn (s.reactor.current fd) ∨ next = .idle := after
  have current (other : Fd) : r.current other = s.reactor.current other := by
    rw [Reactor.current,generation,Reactor.current]
  refine ⟨sim.history.trans history.symm,sim.count.trans count.symm,holds,short,live,
    sim.once.moved w next _ worker on alone,fun task queued => sim.filled task (tasks queued),
    ?_,by rw [isOpen]; exact sim.opened,?_,?_,?_⟩
  · intro c later
    rw [generation] at later
    have other : c ≠ s.reactor.current fd := by
      rintro rfl
      exact Nat.lt_irrefl _ later
    rw [(sent c other).1,(sent c other).2]
    exact sim.unborn c later
  · intro other
    rw [current]
    by_cases same : other = fd
    · subst same
      exact Nat.le_trans (sim.taken other) grows.length_le
    · rw [(sent _ (current_ne same)).2]
      exact sim.taken other
  · intro other
    rw [current]
    by_cases same : other = fd
    · subst same
      exact front
    · rw [(sent _ (current_ne same)).1,(sent _ (current_ne same)).2]
      exact sim.delivered other
  · intro other holder held
    rw [current] at held
    rcases Reactor.heldBy_moved w next _ worker before on alone kept _ holder held with
      ⟨equal,rfl⟩ | ⟨apart,held⟩
    · cases (congrArg Connection.fd equal : other = fd)
      exact own
    · have other' : other ≠ fd := fun equal => apart (congrArg _ equal)
      have stage := sim.stages other holder held
      simp only [At,owed,current] at stage ⊢
      rw [readers other other',queued _ apart,(sent _ apart).1,phase other other']
      exact stage

omit [DecidableEq ω] in
theorem Simulates.holder (sim : s.Simulates a) (w : ω) (worker : Worker) (task : Task)
    (held : s.reactor.worker w = worker) (has : worker.task = some task) :
    ∃ fd, task.connection = s.reactor.current fd ∧ s.reactor.isOpen fd = true ∧
      s.At fd worker (a.phase fd) ∧
      (∀ c, (s.reactor.worker w).IsOn c → c = s.reactor.current fd) ∧
      ∀ v, v ≠ w → ¬(s.reactor.worker v).IsOn (s.reactor.current fd) := by
  obtain ⟨isOpen,named⟩ := sim.live task (Reactor.pending_of_worker held has)
  have on : (s.reactor.worker w).IsOn (s.reactor.current task.connection.fd) := by
    rw [← named,held,Worker.isOn_iff]
    exact ⟨task,has,rfl⟩
  refine ⟨task.connection.fd,named,isOpen,sim.stages _ worker (.inl ⟨w,held,held ▸ on⟩),?_,?_⟩
  · intro c isOn
    exact Option.some.inj (isOn.symm.trans on)
  · intro v other isOn
    exact other (sim.once v w _ isOn on)

omit [DecidableEq ω] in
theorem Simulates.free_of_closed (sim : s.Simulates a) (fd : Fd) (closed : s.reactor.isOpen fd = false) :
    s.call fd = none := by
  by_contra calling
  have isOpen := (sim.opened fd calling).1
  cases closed.symm.trans isOpen

omit [DecidableEq ω] in
theorem Simulates.quiet (sim : s.Simulates a) (fd : Fd) (free : s.call fd = none) :
    a.phase fd = .idle ∧ (s.reactor.server.reader fd).buf = [] ∧ s.toServer fd = [] ∧
      ∀ task, s.reactor.Pending task → task.connection.fd ≠ fd := by
  have rest (holder : Worker) (held : s.reactor.HeldBy (s.reactor.current fd) holder) :
      a.phase fd = .idle ∧ (s.reactor.server.reader fd).buf = [] ∧ s.toServer fd = [] ∧
        holder = .idle ∧ s.reactor.queuedFor (s.reactor.current fd) = [] := by
    have stage := sim.stages fd holder held
    rw [At,free] at stage
    cases phase : a.phase fd with
    | idle =>
      rw [phase] at stage
      obtain ⟨-,read,idle,unqueued,arrived,-⟩ := stage
      exact ⟨rfl,read,arrived,idle,unqueued⟩
    | called op =>
      rw [phase] at stage
      cases stage.1
    | committed op reply =>
      rw [phase] at stage
      obtain ⟨-,-,-,-,-,map,chunks,-,-,calling,-⟩ := stage
      cases calling
  obtain ⟨holder,held⟩ := s.reactor.heldBy_someone (s.reactor.current fd)
  obtain ⟨phase,read,arrived,-,unqueued⟩ := rest holder held
  refine ⟨phase,read,arrived,?_⟩
  rintro task pending rfl
  have named := (sim.live task pending).2
  rcases pending with queued | ⟨w,has⟩
  · have member : task.data ∈ s.reactor.queuedFor (s.reactor.current task.connection.fd) := by
      refine List.mem_map_of_mem (List.mem_filter.mpr ⟨queued,?_⟩)
      exact decide_eq_true named
    rw [unqueued] at member
    cases member
  · have on : (s.reactor.worker w).IsOn (s.reactor.current task.connection.fd) :=
      (Worker.isOn_iff _ _).mpr ⟨task,has,named⟩
    obtain ⟨-,-,-,idle,-⟩ := rest _ (.inl ⟨w,rfl,on⟩)
    rw [idle] at has
    cases has

theorem Simulates.pop (sim : s.Simulates a) (w : ω) (turns : s.InTurn (.server (.pop w)))
    (taken : Reactor.step s.reactor (.pop w) = some r) : Simulates { s with reactor := r } a := by
  have took := Reactor.took_of_step s.reactor r _ taken
  have live := took.live sim.live (by simp)
  cases took with
  | pop w task tasks idle front =>
    have nobody := turns task (by simp [front])
    obtain ⟨-,named⟩ := sim.live task (.inl (by rw [front]; exact List.mem_cons_self))
    have filled := sim.filled task (by rw [front]; exact List.mem_cons_self)
    generalize task.connection.fd = fd at named
    rw [named] at nobody
    have stage := sim.stages fd .idle (.inr ⟨rfl,nobody⟩)
    refine sim.move live w (.popped task) fd rfl (by simp [idle]) (fun v _ => nobody v)
      (.inl (congrArg some named)) (by simp [front,Reactor.moveTo]) rfl rfl rfl rfl (fun _ _ => rfl)
      sim.holds sim.short (fun _ _ => rfl) ?_ (fun _ _ => ⟨rfl,rfl⟩) (List.prefix_refl _)
      (sim.delivered fd) ?_
    · intro c other
      simp [Reactor.queuedFor,Reactor.moveTo,front,named,Ne.symm other]
    · have queued : s.reactor.queuedFor (s.reactor.current fd) = task.data ::
          Reactor.queuedFor ({ s.reactor with tasks := tasks }.moveTo w (.popped task))
            (s.reactor.current fd) := by
        simp [Reactor.queuedFor,Reactor.moveTo,front,named]
      rw [At,queued] at stage
      exact stage.pop

theorem Simulates.enter (sim : s.Simulates a) (w : ω)
    (taken : Reactor.step s.reactor (.enter w) = some r) : Simulates { s with reactor := r } a := by
  have took := Reactor.took_of_step s.reactor r _ taken
  have live := took.live sim.live (by simp)
  cases took with
  | enter w task popped free =>
    obtain ⟨fd,named,-,stage,before,alone⟩ := sim.holder w _ task popped rfl
    have number : task.connection.fd = fd := congrArg Connection.fd named
    rw [number] at live ⊢
    refine sim.move live w (.serving task []) fd rfl before alone (.inl (congrArg some named))
      (fun _ => id) rfl rfl rfl rfl (fun _ _ => rfl) sim.holds sim.short ?_ (fun _ _ => rfl)
      (fun _ _ => ⟨rfl,rfl⟩) (List.prefix_refl _) (sim.delivered fd) ?_
    · intro other apart
      exact (KvServer.reader_withSession fd other _ _).trans (if_neg apart)
    · have fed := KvServer.reader_withSession fd fd
        ⟨⟨(s.reactor.server.reader fd).buf ++ task.data⟩,s.reactor.server.store⟩ s.reactor.server
      rw [if_pos rfl] at fed
      have entered := stage.enter
      rw [At]
      simp only [Reactor.moveTo,Reactor.setLock,Reactor.visit,fed]
      exact entered

omit [DecidableEq ω] in
theorem Simulates.settled (sim : s.Simulates a) (fd : Fd) (paid : s.owed fd = []) :
    s.reactor.deliveredTo (s.reactor.current fd) = s.reactor.sentTo (s.reactor.current fd) := by
  apply (sim.delivered fd).eq_of_length_le
  exact Nat.le_trans (List.drop_eq_nil_iff.mp paid) (sim.taken fd)

theorem Simulates.send (sim : s.Simulates a) (w : ω) (room : Nat)
    (taken : Reactor.step s.reactor (.send w room) = some r) :
    Simulates { s with reactor := r } a := by
  have took := Reactor.took_of_step s.reactor r _ taken
  have live := took.live sim.live (by simp)
  cases took with
  | send w room task result replying =>
    obtain ⟨fd,named,isOpen,stage,before,alone⟩ := sim.holder w _ task replying rfl
    rw [named] at live ⊢
    have connected : s.reactor.Connected (s.reactor.current fd) := ⟨isOpen,rfl⟩
    have sent := Reactor.sentTo_sendTo s.reactor w (s.reactor.current fd) result room connected.2
    have delivered := Reactor.deliveredTo_sendTo s.reactor w (s.reactor.current fd) result room connected
    simp only [connected.1,and_true] at sent
    refine sim.move live w .idle fd rfl before alone (.inr rfl) (fun _ => id) rfl rfl rfl rfl
      (fun _ _ => rfl) sim.holds sim.short (fun _ _ => rfl) (fun _ _ => rfl) ?_ ?_ ?_ ?_
    · intro c other
      rw [sent c,delivered c,if_neg other,if_neg other,List.append_nil,List.append_nil]
      exact ⟨rfl,rfl⟩
    · rw [delivered]
      exact List.prefix_append ..
    · rw [sent,delivered,if_pos rfl,if_pos rfl]
      rcases stage.silent with empty | paid
      · simpa [empty] using sim.delivered fd
      · rw [sim.settled fd paid]
        exact (List.prefix_append_right_inj _).mpr (List.take_prefix ..)
    · have answered := stage.send
      have inside : s.taken fd ≤ (s.reactor.sentTo (s.reactor.current fd)).length :=
        Nat.le_trans (sim.taken fd) (sim.delivered fd).length_le
      rw [owed,← List.drop_append_of_le_length inside] at answered
      have all := sent (s.reactor.current fd)
      rw [if_pos rfl] at all
      rw [← all] at answered
      exact answered

omit [DecidableEq ω] in
theorem Simulates.filled_for (sim : s.Simulates a) (c : Connection) :
    ∀ chunk ∈ s.reactor.queuedFor c, chunk ≠ [] := by
  intro chunk member
  obtain ⟨task,queued,rfl⟩ := List.mem_map.mp member
  exact sim.filled task (List.mem_of_mem_filter queued)

omit [DecidableEq ω] in
theorem Simulates.countable (sim : s.Simulates a) (few : s.Countable) :
    a.state.keys.card < 2 ^ 31 := by
  rw [← sim.holds.keys_length]
  simpa [AList.keys,List.keys,Countable] using few

theorem Simulates.pass_cases (sim : s.Simulates a) (w : ω) (env : Env) (succeeds : env.io.Succeeds)
    (few : s.Countable) (taken : Reactor.step s.reactor (.pass w env) = some r) :
    ∃ fd task result, task.connection = s.reactor.current fd ∧ s.reactor.isOpen fd = true ∧
      s.reactor.worker w = .serving task result ∧ s.At fd (.serving task result) (a.phase fd) ∧
      ((r = (((s.reactor.visit task.connection (s.reactor.server.withSession fd
            ⟨s.reactor.server.reader fd,s.reactor.server.store⟩)
            (.pass s.reactor.server.store env)).setLock fd false).moveTo w (.replying task result)) ∧
          s.At fd (.replying task result) (a.phase fd)) ∨
        ∃ op store, a.phase fd = .called op ∧ op.command.WellFormed ∧ result = [] ∧
          (s.reactor.server.reader fd).buf ≠ [] ∧
          r = (((s.reactor.visit task.connection (s.reactor.server.withSession fd ⟨⟨[]⟩,store⟩)
            (.pass s.reactor.server.store env)).reply task.connection
              (serializeResponse (plainAnswer a.state op.command).1)).moveTo w
                (.serving task [serializeResponse (plainAnswer a.state op.command).1])) ∧
          Holds store (op.answer a.state).2 ∧
          Stage [] (.serving task [serializeResponse (plainAnswer a.state op.command).1])
            (s.reactor.queuedFor (s.reactor.current fd)) (s.toServer fd) (s.call fd) (s.owed fd)
            (.committed op (op.answer a.state).1)) := by
  have look (fd : Fd) (task : Task) (result : List Bytes)
      (stage : s.At fd (.serving task result) (a.phase fd)) :=
    stage.answer (sim.filled_for _) sim.holds sim.short (sim.countable few) env succeeds
  cases Reactor.took_of_step s.reactor r _ taken with
  | answered w env task result bytes session serving ran =>
    obtain ⟨fd,named,isOpen,stage,-,-⟩ := sim.holder w _ task serving rfl
    have number : task.connection.fd = fd := congrArg Connection.fd named
    rw [number] at ran ⊢
    refine ⟨fd,task,result,named,isOpen,serving,stage,.inr ?_⟩
    rcases look fd task result stage with ⟨waits,-⟩ | ⟨op,store,calling,wellFormed,rfl,answers,holds,
      answered⟩
    · cases ran.symm.trans waits
    cases ran.symm.trans answers
    refine ⟨op,store,calling,wellFormed,rfl,fun empty => ?_,rfl,op.plainAnswer_map a.state ▸ holds,
      answered⟩
    have waits := Session.answer_waits env [] s.reactor.server.store RespReader.tryParse_nil
    rw [← empty] at waits
    cases ran.symm.trans waits
  | waits w env task result session serving ran =>
    obtain ⟨fd,named,isOpen,stage,-,-⟩ := sim.holder w _ task serving rfl
    have number : task.connection.fd = fd := congrArg Connection.fd named
    rw [number] at ran ⊢
    refine ⟨fd,task,result,named,isOpen,serving,stage,.inl ?_⟩
    rcases look fd task result stage with ⟨waits,waiting⟩ | ⟨op,store,-,-,-,answers,-,-⟩
    · cases ran.symm.trans waits
      exact ⟨rfl,waiting⟩
    · cases ran.symm.trans answers
  | threw w env task result fault session serving ran =>
    obtain ⟨fd,named,-,stage,-,-⟩ := sim.holder w _ task serving rfl
    rw [(congrArg Connection.fd named : task.connection.fd = fd)] at ran
    rcases look fd task result stage with ⟨waits,-⟩ | ⟨op,store,-,-,-,answers,-,-⟩
    · cases ran.symm.trans waits
    · cases ran.symm.trans answers

theorem Simulates.pass (sim : s.Simulates a) (w : ω) (env : Env) (succeeds : env.io.Succeeds)
    (few : s.Countable) (taken : Reactor.step s.reactor (.pass w env) = some r) :
    Simulates { s with reactor := r } a ∨
      ∃ fd op, a.phase fd = .called op ∧ Simulates { s with reactor := r } { a with
        state := (op.answer a.state).2
        phase := Function.update a.phase fd (.committed op (op.answer a.state).1) } := by
  have live := (Reactor.took_of_step s.reactor r _ taken).live sim.live (by simp)
  obtain ⟨fd,task,result,named,-,serving,-,passed⟩ := sim.pass_cases w env succeeds few taken
  obtain ⟨same,named',-,-,before,alone⟩ := sim.holder w _ task serving rfl
  obtain rfl : same = fd := congrArg Connection.fd (named'.symm.trans named)
  have read (session : Session) := KvServer.reader_withSession same same session s.reactor.server
  simp only [if_true] at read
  rcases passed with ⟨rfl,stage⟩ | ⟨op,store,calling,wellFormed,-,-,rfl,holds,stage⟩
  · refine .inl (sim.move live w _ same rfl before alone (.inl (congrArg some named)) (fun _ => id)
      rfl rfl rfl rfl (fun _ _ => rfl) sim.holds sim.short ?_ (fun _ _ => rfl)
      (fun _ _ => ⟨rfl,rfl⟩) (List.prefix_refl _) (sim.delivered same) ?_)
    · intro other apart
      exact (KvServer.reader_withSession same other _ _).trans (if_neg apart)
    · rw [At]
      simp only [Reactor.moveTo,Reactor.setLock,Reactor.visit,read]
      exact stage
  · refine .inr ⟨same,op,calling,sim.move live w _ same rfl before alone (.inl (congrArg some named))
      (fun _ => id) rfl rfl rfl rfl ?_ holds (op.answer_short _ sim.short wellFormed) ?_
      (fun _ _ => rfl) (fun _ _ => ⟨rfl,rfl⟩) (List.prefix_refl _) (sim.delivered same) ?_⟩
    · intro other apart
      exact Function.update_of_ne apart _ _
    · intro other apart
      exact (KvServer.reader_withSession same other _ _).trans (if_neg apart)
    · rw [At]
      simp only [Reactor.moveTo,Reactor.reply,Reactor.visit,read,Function.update_self]
      exact stage

theorem Simulates.accept (sim : s.Simulates a) (fd : Fd)
    (taken : Reactor.step s.reactor (.accept fd) = some r) :
    Simulates { s with reactor := r
                       taken := Function.update s.taken fd 0
                       left := Function.update s.left fd false } a := by
  have took := Reactor.took_of_step s.reactor r _ taken
  have live := took.live sim.live (by simp)
  cases took with
  | accept fd closed =>
    have free := sim.free_of_closed fd closed
    obtain ⟨phase,read,arrived,untasked⟩ := sim.quiet fd free
    have fresh := sim.unborn ⟨fd,s.reactor.generation fd + 1⟩ (Nat.lt_succ_self _)
    have new : (⟨fd,Function.update s.reactor.generation fd (s.reactor.generation fd + 1) fd⟩ :
        Connection) = ⟨fd,s.reactor.generation fd + 1⟩ := by simp
    have old (other : Fd) (apart : other ≠ fd) :
        (⟨other,Function.update s.reactor.generation fd (s.reactor.generation fd + 1) other⟩ :
          Connection) = s.reactor.current other := by simp [apart,Reactor.current]
    refine ⟨sim.history,sim.count,sim.holds,sim.short,live,sim.once,sim.filled,?_,?_,?_,?_,?_⟩
    · intro c later
      apply sim.unborn c
      apply Nat.lt_of_le_of_lt _ later
      by_cases same : c.fd = fd
      · simp [same]
      · simp [same]
    · intro other calling
      have apart : other ≠ fd := by
        rintro rfl
        exact calling free
      simpa [apart] using sim.opened other calling
    · intro other
      by_cases same : other = fd
      · simp [same]
      · simp only [Function.update_of_ne same,Reactor.current]
        exact sim.taken other
    · intro other
      by_cases same : other = fd
      · subst same
        simp only [Reactor.current,new]
        exact fresh.2 ▸ List.nil_prefix
      · simp only [Reactor.current,old other same]
        exact sim.delivered other
    · intro other holder held
      simp only [Reactor.current] at held
      by_cases same : other = fd
      · subst same
        rw [new] at held
        have done : ∀ task, s.reactor.Pending task →
            task.connection ≠ ⟨other,s.reactor.generation other + 1⟩ :=
          fun task pending named => untasked task pending (congrArg Connection.fd named)
        rw [phase,Reactor.idle_of_done done held]
        refine ⟨free,read,rfl,?_,arrived,?_⟩
        · simp only [Reactor.current,new]
          exact Reactor.unqueued_of_done done
        · simp only [owed,Reactor.current,Function.update_self,List.drop_zero]
          exact fresh.1
      · rw [old other same] at held
        have stage := sim.stages other holder held
        simp only [At,owed,Reactor.current,Function.update_of_ne same]
        exact stage

theorem Simulates.close (sim : s.Simulates a) (fd : Fd) (gone : s.left fd = true)
    (taken : Reactor.step s.reactor (.close fd) = some r) : Simulates { s with reactor := r } a := by
  have free : s.call fd = none := by
    by_contra calling
    exact absurd (gone.symm.trans (sim.opened fd calling).2) (by simp)
  obtain ⟨-,-,-,untasked⟩ := sim.quiet fd free
  have took := Reactor.took_of_step s.reactor r _ taken
  have live := took.live sim.live (by rintro _ ⟨⟩; exact untasked)
  cases took with
  | close fd =>
    refine ⟨sim.history,sim.count,sim.holds,sim.short,live,sim.once,sim.filled,sim.unborn,?_,sim.taken,
      sim.delivered,sim.stages⟩
    intro other calling
    have apart : other ≠ fd := by
      rintro rfl
      exact calling free
    simpa [apart] using sim.opened other calling

theorem Simulates.data (sim : s.Simulates a) (fd : Fd) (bytes : Bytes) (sent : bytes <+: s.toServer fd)
    (taken : Reactor.step s.reactor (.data fd bytes) = some r) :
    Simulates { s with reactor := r
                       toServer := Function.update s.toServer fd
                         ((s.toServer fd).drop bytes.length) } a := by
  have nonempty : bytes ≠ [] := by
    simp only [Reactor.step] at taken
    split at taken
    · exact List.ne_nil_of_length_pos (by omega)
    · cases taken
  have took := Reactor.took_of_step s.reactor r _ taken
  have live := took.live sim.live (by simp)
  cases took with
  | data fd bytes isOpen =>
    refine ⟨sim.history,sim.count,sim.holds,sim.short,live,sim.once,?_,sim.unborn,sim.opened,
      sim.taken,sim.delivered,?_⟩
    · intro task queued
      rcases List.mem_append.mp queued with old | new
      · exact sim.filled task old
      · cases List.mem_singleton.mp new
        exact nonempty
    · intro other holder held
      have stage := sim.stages other holder held
      by_cases same : other = fd
      · subst same
        have arrived := stage.arrive bytes sent nonempty
        have queued : (List.filter (fun task => decide (task.connection = s.reactor.current other))
            (s.reactor.tasks ++ [⟨s.reactor.current other,bytes⟩])).map Task.data =
            s.reactor.queuedFor (s.reactor.current other) ++ [bytes] := by
          simp [Reactor.queuedFor]
        rw [← queued] at arrived
        simp only [At,Function.update_self]
        exact arrived
      · have queued : (List.filter (fun task => decide (task.connection = s.reactor.current other))
            (s.reactor.tasks ++ [⟨s.reactor.current fd,bytes⟩])).map Task.data =
            s.reactor.queuedFor (s.reactor.current other) := by
          simp [Reactor.queuedFor,(current_ne same).symm]
        rw [At,← queued] at stage
        simp only [At,Function.update_of_ne same]
        exact stage

omit [DecidableEq ω] in
theorem Simulates.client (sim : s.Simulates a) {s' : Network ω} (fd : Fd)
    (reactor : s'.reactor = s.reactor) (history : s'.history = a'.history)
    (count : s'.count = a'.count) (state : a'.state = a.state)
    (phase : ∀ other, other ≠ fd → a'.phase other = a.phase other)
    (call : ∀ other, other ≠ fd → s'.call other = s.call other)
    (toServer : ∀ other, other ≠ fd → s'.toServer other = s.toServer other)
    (taken : ∀ other, other ≠ fd → s'.taken other = s.taken other)
    (left : ∀ other, other ≠ fd → s'.left other = s.left other)
    (inside : s'.taken fd ≤ (s.reactor.deliveredTo (s.reactor.current fd)).length)
    (opened : s'.call fd ≠ none → s.reactor.isOpen fd = true ∧ s'.left fd = false)
    (own : ∀ holder, s.reactor.HeldBy (s.reactor.current fd) holder → s'.At fd holder (a'.phase fd)) :
    s'.Simulates a' := by
  refine ⟨history,count,by rw [reactor,state]; exact sim.holds,by rw [state]; exact sim.short,
    by rw [reactor]; exact sim.live,by rw [reactor]; exact sim.once,
    by rw [reactor]; exact sim.filled,by rw [reactor]; exact sim.unborn,?_,?_,
    by rw [reactor]; exact sim.delivered,?_⟩
  · intro other
    rw [reactor]
    by_cases same : other = fd
    · rw [same]
      exact opened
    · rw [call other same,left other same]
      exact sim.opened other
  · intro other
    rw [reactor]
    by_cases same : other = fd
    · rw [same]
      exact inside
    · rw [taken other same]
      exact sim.taken other
  · intro other holder held
    rw [reactor] at held
    by_cases same : other = fd
    · subst same
      exact own holder held
    · have stage := sim.stages other holder held
      simp only [At,owed] at stage ⊢
      rw [reactor,toServer other same,call other same,taken other same,phase other same]
      exact stage

theorem Simulates.call (sim : s.Simulates a) (fd : Fd) (op : ClientOp)
    (wellFormed : op.command.WellFormed) {s' : Network ω} (taken : step s (.call fd op) = some s') :
    ∃ a', Atomic.step ClientOp.answer a (.invoke fd op) = some a' ∧ s'.Simulates a' := by
  simp only [Network.step] at taken
  split at taken
  next ready =>
    cases taken
    have begins (holder : Worker) (held : s.reactor.HeldBy (s.reactor.current fd) holder) := by
      have stage := sim.stages fd holder held
      rw [At,ready.2.1] at stage
      exact stage.begin op wellFormed
    obtain ⟨holder,held⟩ := s.reactor.heldBy_someone (s.reactor.current fd)
    refine ⟨_,by rw [Atomic.step,(begins holder held).1],?_⟩
    refine sim.client fd rfl (by rw [← sim.history,← sim.count]) sim.count rfl
      (fun other apart => Function.update_of_ne apart _ _)
      (fun other apart => Function.update_of_ne apart _ _)
      (fun other apart => Function.update_of_ne apart _ _) (fun _ _ => rfl) (fun _ _ => rfl)
      (sim.taken fd) (fun _ => ⟨ready.1,ready.2.2⟩) ?_
    intro holder held
    simpa [At,owed] using (begins holder held).2
  next => cases taken

omit [DecidableEq ω] in
theorem Simulates.received (sim : s.Simulates a) (fd : Fd) (size : Nat)
    (inside : size ≤ (s.toClient fd).length) :
    (s.toClient fd).take size = (s.owed fd).take size ∧ size ≤ (s.owed fd).length := by
  obtain ⟨rest,joined⟩ := (sim.delivered fd).drop (s.taken fd)
  have owed : s.owed fd = s.toClient fd ++ rest := joined.symm
  rw [owed,List.take_append_of_le_length inside,List.length_append]
  exact ⟨rfl,Nat.le_add_right_of_le inside⟩

theorem Simulates.receive (sim : s.Simulates a) (fd : Fd) (size : Nat) {s' : Network ω}
    (taken : step s (.receive fd size) = some s') : s'.Simulates a := by
  simp only [Network.step] at taken
  split at taken
  next => cases taken
  next op chunks calling =>
  split at taken
  next =>
    split at taken
    next sizes =>
      cases taken
      obtain ⟨front,inside⟩ := sim.received fd size sizes.2.2
      refine sim.client fd rfl sim.history sim.count rfl (fun _ _ => rfl)
        (fun other apart => Function.update_of_ne apart _ _) (fun _ _ => rfl)
        (fun other apart => Function.update_of_ne apart _ _) (fun _ _ => rfl) ?_
        (fun _ => sim.opened fd (by simp [calling])) ?_
      · have inside := sizes.2.2
        rw [toClient,List.length_drop] at inside
        simp only [Function.update_self]
        omega
      · intro holder held
        have stage := sim.stages fd holder held
        rw [At,calling] at stage
        have received := stage.receive size sizes.1 inside
        simpa [At,owed,front] using received
    next => cases taken
  next => cases taken

theorem Simulates.ret (sim : s.Simulates a) (fd : Fd) {s' : Network ω}
    (taken : step s (.ret fd) = some s') :
    ∃ a', Atomic.step ClientOp.answer a (.respond fd) = some a' ∧ s'.Simulates a' := by
  simp only [Network.step] at taken
  split at taken
  next => cases taken
  next op chunks calling =>
  split at taken
  next => cases taken
  next reply client ran =>
    cases taken
    have ends (holder : Worker) (held : s.reactor.HeldBy (s.reactor.current fd) holder) := by
      have stage := sim.stages fd holder held
      rw [At,calling] at stage
      exact stage.ret ran
    obtain ⟨holder,held⟩ := s.reactor.heldBy_someone (s.reactor.current fd)
    refine ⟨_,by rw [Atomic.step,(ends holder held).1],?_⟩
    refine sim.client fd rfl (by rw [← sim.history,← sim.count]) (by rw [← sim.count]) rfl
      (fun other apart => Function.update_of_ne apart _ _)
      (fun other apart => Function.update_of_ne apart _ _) (fun _ _ => rfl) (fun _ _ => rfl)
      (fun _ _ => rfl) (sim.taken fd) (fun _ => sim.opened fd (by simp [calling])) ?_
    intro holder held
    simpa [At,owed] using (ends holder held).2

theorem Simulates.disconnect (sim : s.Simulates a) (fd : Fd) {s' : Network ω}
    (taken : step s (.disconnect fd) = some s') : s'.Simulates a := by
  simp only [Network.step] at taken
  split at taken
  next ready =>
    cases taken
    exact sim.client fd rfl sim.history sim.count rfl (fun _ _ => rfl) (fun _ _ => rfl)
      (fun _ _ => rfl) (fun _ _ => rfl) (fun other apart => Function.update_of_ne apart _ _)
      (sim.taken fd) (fun calling => absurd ready.2.1 calling) (sim.stages fd)
  next => cases taken

/-- What one turn does is some moves of the plain map with its callers. A call takes effect
where a worker executes its command; everything else is invisible. -/
theorem Simulates.step_moves (sim : s.Simulates a) (turn : Turn ω) (s' : Network ω)
    (admitted : turn.Admitted) (inTurn : s.InTurn turn) (taken : step s turn = some s') :
    ∃ moves a', turn.Moves moves ∧ Machine.run (Atomic.step ClientOp.answer) a moves = some a' ∧
      s'.Simulates a' := by
  cases turn with
  | call fd op =>
    obtain ⟨a',moved,sim'⟩ := sim.call fd op admitted taken
    exact ⟨[.invoke fd op],a',rfl,(Machine.run_singleton _ _ _).trans moved,sim'⟩
  | receive fd size => exact ⟨[],a,rfl,rfl,sim.receive fd size taken⟩
  | ret fd =>
    obtain ⟨a',moved,sim'⟩ := sim.ret fd taken
    exact ⟨[.respond fd],a',rfl,(Machine.run_singleton _ _ _).trans moved,sim'⟩
  | disconnect fd => exact ⟨[],a,rfl,rfl,sim.disconnect fd taken⟩
  | server event =>
    cases event with
    | close fd =>
      simp only [Network.step] at taken
      split at taken
      next gone =>
        obtain ⟨r,ran,rfl⟩ := Option.map_eq_some_iff.mp taken
        exact ⟨[],a,.inl rfl,rfl,sim.close fd gone.1 ran⟩
      next => cases taken
    | accept fd =>
      obtain ⟨r,ran,rfl⟩ := Option.map_eq_some_iff.mp taken
      exact ⟨[],a,.inl rfl,rfl,sim.accept fd ran⟩
    | data fd bytes =>
      simp only [Network.step] at taken
      split at taken
      next sent =>
        obtain ⟨r,ran,rfl⟩ := Option.map_eq_some_iff.mp taken
        exact ⟨[],a,.inl rfl,rfl,sim.data fd bytes sent ran⟩
      next => cases taken
    | pop w =>
      obtain ⟨r,ran,rfl⟩ := Option.map_eq_some_iff.mp taken
      exact ⟨[],a,.inl rfl,rfl,sim.pop w inTurn ran⟩
    | enter w =>
      obtain ⟨r,ran,rfl⟩ := Option.map_eq_some_iff.mp taken
      exact ⟨[],a,.inl rfl,rfl,sim.enter w ran⟩
    | send w room =>
      obtain ⟨r,ran,rfl⟩ := Option.map_eq_some_iff.mp taken
      exact ⟨[],a,.inl rfl,rfl,sim.send w room ran⟩
    | pass w env =>
      obtain ⟨r,ran,rfl⟩ := Option.map_eq_some_iff.mp taken
      rcases sim.pass w env admitted inTurn ran with same | ⟨fd,op,called,sim'⟩
      · exact ⟨[],a,.inl rfl,rfl,same⟩
      · refine ⟨[.commit fd],_,.inr ⟨fd,rfl⟩,?_,sim'⟩
        simp [Machine.run,Atomic.step,called]

theorem Simulates.step (sim : s.Simulates a) (turn : Turn ω) (s' : Network ω)
    (admitted : turn.Admitted) (inTurn : s.InTurn turn) (taken : step s turn = some s') :
    ∃ moves a', Machine.run (Atomic.step ClientOp.answer) a moves = some a' ∧ s'.Simulates a' := by
  obtain ⟨moves,a',-,ran⟩ := sim.step_moves turn s' admitted inTurn taken
  exact ⟨moves,a',ran⟩

omit [DecidableEq ω] in
theorem Simulates.returns (sim : s.Simulates a) (fd : Fd) (op : ClientOp) (chunks : List Bytes)
    (calling : s.call fd = some (op,chunks)) (reply : ClientReply) (client : KvClient)
    (ran : op.run (clientWith chunks) = .ok reply client) : a.phase fd = .committed op reply := by
  obtain ⟨holder,held⟩ := s.reactor.heldBy_someone (s.reactor.current fd)
  have stage := sim.stages fd holder held
  rw [At,calling] at stage
  exact (stage.ret ran).1

end Moves

omit [DecidableEq ω] in
theorem simulates_boot (store : PersistentKvStore) (map : PlainMap) (holds : Holds store map)
    (short : ShortValues map) : (boot store : Network ω).Simulates (.start map) := by
  refine ⟨rfl,rfl,holds,short,?_,?_,by simp [boot,Reactor.boot],fun _ _ => ⟨rfl,rfl⟩,
    by simp [boot],fun _ => Nat.le_refl 0,fun _ => List.prefix_refl _,?_⟩
  · rintro task (queued | ⟨w,held⟩)
    · cases queued
    · cases held
  · intro v w c on
    cases on
  · rintro fd holder (⟨w,rfl,on⟩ | ⟨rfl,-⟩)
    · cases on
    · exact ⟨rfl,rfl,rfl,rfl,rfl,rfl⟩

end Network
end KvCache
