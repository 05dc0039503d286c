import KvCache.CallOrder

/-! No call hangs as long as `send` takes whole replies. While a call is under way, some client or
worker can move, and each move uses up bytes on their way or a step of a worker; so with no new
calls all calls return, whoever moves next. -/
namespace KvCache

namespace Reactor

variable {ω : Type} [DecidableEq ω]

/-- A locked shard is locked by a worker that serves. -/
def Attended (s : Reactor ω) : Prop :=
  ∀ shard, s.locked shard = true → ∃ w, (s.worker w).shard = some shard

theorem Attended.moved {s s' : Reactor ω} (attended : s.Attended) (w : ω) (next : Worker)
    (worker : s'.worker = Function.update s.worker w next)
    (locks : ∀ shard, s'.locked shard = true → next.shard = some shard ∨
      s.locked shard = true ∧ (s.worker w).shard ≠ some shard) : s'.Attended := by
  intro shard locked
  rw [worker]
  rcases locks shard locked with own | ⟨old,other⟩
  · exact ⟨w,by simpa using own⟩
  · obtain ⟨v,holds⟩ := attended shard old
    refine ⟨v,?_⟩
    have apart : v ≠ w := by
      rintro rfl
      exact other holds
    simpa [apart] using holds

theorem Took.attended {s s' : Reactor ω} {event : Event ω} (took : Took s event s')
    (attended : s.Attended) : s'.Attended := by
  cases took with
  | accept fd closed => exact attended
  | data fd bytes isOpen => exact attended
  | close fd => exact attended
  | pop w task tasks idle front =>
    apply attended.moved w _ rfl
    intro shard locked
    exact .inr ⟨locked,by simp [idle,Worker.shard]⟩
  | enter w task popped free =>
    apply attended.moved w _ rfl
    intro shard locked
    by_cases same : shard = KvServer.getShard task.connection.fd
    · exact .inl (congrArg some same.symm)
    · refine .inr ⟨?_,by simp [popped,Worker.shard]⟩
      simpa [moveTo,setLock,visit,same] using locked
  | answered w env task result bytes session serving ran =>
    apply attended.moved w _ rfl
    intro shard locked
    by_cases same : shard = KvServer.getShard task.connection.fd
    · exact .inl (congrArg some same.symm)
    · exact .inr ⟨locked,by simp [serving,Worker.shard,Ne.symm same]⟩
  | waits w env task result session serving ran =>
    apply attended.moved w _ rfl
    intro shard locked
    by_cases same : shard = KvServer.getShard task.connection.fd
    · simp [moveTo,setLock,visit,same] at locked
    · refine .inr ⟨?_,by simp [serving,Worker.shard,Ne.symm same]⟩
      simpa [moveTo,setLock,visit,same] using locked
  | threw w env task result fault session serving ran =>
    apply attended.moved w _ rfl
    intro shard locked
    by_cases same : shard = KvServer.getShard task.connection.fd
    · simp [moveTo,setLock,visit,same] at locked
    · refine .inr ⟨?_,by simp [serving,Worker.shard,Ne.symm same]⟩
      simpa [moveTo,setLock,visit,same] using locked
  | send w room task result replying =>
    apply attended.moved w _ rfl
    intro shard locked
    exact .inr ⟨locked,by simp [replying,Worker.shard]⟩

end Reactor

namespace Network

open Linearizability (Atomic)

variable {ω : Type} [DecidableEq ω]

/-- A turn that goes on with what has begun: no new call, no connection that comes or goes. -/
def Turn.GoesOn : Turn ω → Prop
  | .call _ _ | .disconnect _ | .server (.accept _) | .server (.close _) => False
  | _ => True

/-- Chunks are taken in turn, and there is room for each reply that is sent. -/
def Smooth (s : Network ω) (turn : Turn ω) : Prop :=
  s.InTurn turn ∧ ∀ w room, turn = .server (.send w room) →
    (s.reactor.worker w).unsent.flatten.length ≤ room

instance [Fintype ω] (s : Network ω) : (turn : Turn ω) → Decidable (s.Smooth turn)
  | .server (.send w room) =>
    decidable_of_iff ((s.reactor.worker w).unsent.flatten.length ≤ room)
      ⟨fun fits => ⟨trivial,fun _ _ same => by cases same; exact fits⟩,fun smooth => smooth.2 w room rfl⟩
  | .server (.accept _) | .server (.data _ _) | .server (.close _) | .server (.pop _)
  | .server (.enter _) | .server (.pass _ _) | .call _ _ | .receive _ _ | .ret _ | .disconnect _ =>
    decidable_of_iff (s.InTurn _) ⟨fun inTurn => ⟨inTurn,by simp⟩,fun smooth => smooth.1⟩

def Working (s : Network ω) (turn : Turn ω) : Prop :=
  turn.GoesOn ∧ turn.Admitted ∧ s.Smooth turn

omit [DecidableEq ω] in
theorem Working.of_inTurn {s : Network ω} {turn : Turn ω} (goesOn : turn.GoesOn)
    (admitted : turn.Admitted) (inTurn : s.InTurn turn) (other : ∀ w room, turn ≠ .server (.send w room)) :
    s.Working turn :=
  ⟨goesOn,admitted,inTurn,fun w room same => absurd same (other w room)⟩

section Progress

variable {s : Network ω} {a : Atomic Fd ClientOp ClientReply PlainMap}

theorem Simulates.serving_moves (sim : s.Simulates a) (few : s.Countable) (w : ω) (task : Task)
    (result : List Bytes) (serving : s.reactor.worker w = .serving task result) :
    ∃ turn s', s.Working turn ∧ Network.step s turn = some s' := by
  obtain ⟨fd,named,-,stage,-,-⟩ := sim.holder w _ task serving rfl
  have number : task.connection.fd = fd := congrArg Connection.fd named
  have look := stage.answer (sim.filled_for _) sim.holds sim.short (sim.countable few) .faultless
    Io.faultless_succeeds
  have moves : ∃ r, Reactor.step s.reactor (.pass w .faultless) = some r := by
    simp only [Reactor.step,serving,KvServer.onSession,Act.zoom,number,KvServer.session]
    rcases look with ⟨waits,-⟩ | ⟨op,store,-,-,-,answers,-,-⟩
    · rw [waits]
      exact ⟨_,rfl⟩
    · rw [answers]
      exact ⟨_,rfl⟩
  obtain ⟨r,ran⟩ := moves
  exact ⟨.server (.pass w .faultless),_,.of_inTurn trivial Io.faultless_succeeds few (by simp),
    Option.map_eq_some_iff.mpr ⟨r,ran,rfl⟩⟩

theorem Simulates.busy_moves (sim : s.Simulates a) (attended : s.reactor.Attended) (few : s.Countable)
    (w : ω) (busy : s.reactor.worker w ≠ .idle) :
    ∃ turn s', s.Working turn ∧ Network.step s turn = some s' := by
  cases held : s.reactor.worker w with
  | idle => exact absurd held busy
  | serving task result => exact sim.serving_moves few w task result held
  | replying task result =>
    refine ⟨.server (.send w result.flatten.length),_,⟨trivial,trivial,trivial,?_⟩,
      by simp only [Network.step,Reactor.step,held,Option.map_some]; rfl⟩
    rintro _ _ ⟨⟩
    rw [held]
    exact Nat.le_refl _
  | popped task =>
    cases locked : s.reactor.locked (KvServer.getShard task.connection.fd) with
    | false =>
      exact ⟨.server (.enter w),_,.of_inTurn trivial trivial trivial (by simp),
        by simp [Network.step,Reactor.step,held,locked,KvServer.onSession,Act.zoom,Session.onReader,
          RespReader.feed,Act.final]; rfl⟩
    | true =>
      -- Who has locked the shard serves, and can go on.
      obtain ⟨v,owner⟩ := attended _ locked
      cases other : s.reactor.worker v with
      | serving task result => exact sim.serving_moves few v task result other
      | idle | popped _ | replying _ _ => simp [other,Worker.shard] at owner

theorem Simulates.client_moves (sim : s.Simulates a) (fd : Fd) (calling : s.call fd ≠ none)
    (delivered : s.toClient fd = s.owed fd) (idle : ∀ w, s.reactor.worker w = .idle) (unqueued : s.reactor.tasks = []) :
    ∃ turn s', s.Working turn ∧ Network.step s turn = some s' := by
  have stage := sim.stages fd .idle (.inr ⟨rfl,fun w => by simp [idle w]⟩)
  rw [At] at stage
  cases phase : a.phase fd with
  | idle =>
    rw [phase] at stage
    exact absurd stage.1 calling
  | called op =>
    rw [phase] at stage
    obtain ⟨-,-,-,-,joined,early⟩ := stage
    have waiting : s.toServer fd ≠ [] := by
      intro empty
      obtain ⟨_,_,impossible⟩ := early (by
        simpa [empty,Worker.unfed,Reactor.queuedFor,unqueued] using joined)
      cases impossible
    have positive := List.length_pos_iff.mpr waiting
    have sized : 0 < ((s.toServer fd).take 4096).length ∧
        ((s.toServer fd).take 4096).length ≤ 4096 := by
      rw [List.length_take]
      omega
    have ready := And.intro (sim.opened fd calling).1 sized
    exact ⟨.server (.data fd ((s.toServer fd).take 4096)),_,.of_inTurn trivial trivial trivial (by simp),
      by simp only [Network.step,if_pos (List.take_prefix _ _),Reactor.step,if_pos ready,
        Option.map_some]; rfl⟩
  | committed op reply =>
    rw [phase] at stage
    obtain ⟨-,-,-,-,-,map,chunks,-,readable,calls,filled,joined⟩ := stage
    simp only [Worker.unsent,List.flatten_nil,List.append_nil,← delivered] at joined
    by_cases arrived : s.toClient fd = []
    · rw [arrived,List.append_nil] at joined
      have answered := op.run_answered (clientWith chunks) (Int.le_refl 0) map readable chunks filled
        joined [] (List.append_nil _).symm
      exact ⟨.ret fd,_,.of_inTurn trivial trivial trivial (by simp),by simp only [Network.step,calls,answered]; rfl⟩
    · have strict : [] ++ chunks.flatten ≠ serializeResponse (plainAnswer map op.command).1 := by
        intro whole
        apply arrived
        exact List.append_cancel_left ((joined.trans whole.symm).trans (List.append_nil _).symm)
      have waits := (KvClient.framed_response _ readable).receive_part chunks [] ⟨_,joined⟩ strict
      have positive := List.length_pos_iff.mpr arrived
      have sized : 0 < min 4096 (s.toClient fd).length ∧ min 4096 (s.toClient fd).length ≤ 4096 ∧
          min 4096 (s.toClient fd).length ≤ (s.toClient fd).length := by omega
      exact ⟨.receive fd (min 4096 (s.toClient fd).length),_,.of_inTurn trivial trivial trivial (by simp),
        by simp only [Network.step,calls,waits,if_pos sized]; rfl⟩

/-- While a call is under way, somebody can move. -/
theorem Simulates.progress [Nonempty ω] (sim : s.Simulates a) (attended : s.reactor.Attended)
    (whole : ∀ c, s.reactor.deliveredTo c = s.reactor.sentTo c) (few : s.Countable) (fd : Fd)
    (calling : s.call fd ≠ none) : ∃ turn s', s.Working turn ∧ Network.step s turn = some s' := by
  by_cases busy : ∃ w, s.reactor.worker w ≠ .idle
  · obtain ⟨w,busy⟩ := busy
    exact sim.busy_moves attended few w busy
  have idle : ∀ w, s.reactor.worker w = .idle := by simpa using busy
  cases queued : s.reactor.tasks with
  | nil => exact sim.client_moves fd calling (by rw [toClient,whole,owed]) idle queued
  | cons task tasks =>
    obtain ⟨w⟩ := ‹Nonempty ω›
    refine ⟨.server (.pop w),_,.of_inTurn trivial trivial ?_ (by simp),
      by simp only [Network.step,Reactor.step,idle w,queued,Option.map_some]; rfl⟩
    intro task _ v
    simp [idle v]

end Progress

section Measure

variable [Fintype ω] (fds : Finset Fd)

def burden : Worker → Nat
  | .popped task => task.data.length
  | _ => 0

def weight : Worker → Nat
  | .idle => 0
  | .popped _ => 3
  | .serving _ result => 2 + result.flatten.length
  | .replying _ result => 1 + result.flatten.length

@[simp] theorem burden_idle : burden .idle = 0 := rfl

@[simp] theorem burden_popped (task : Task) : burden (.popped task) = task.data.length := rfl

@[simp] theorem burden_serving (task : Task) (result : List Bytes) :
    burden (.serving task result) = 0 := rfl

@[simp] theorem burden_replying (task : Task) (result : List Bytes) :
    burden (.replying task result) = 0 := rfl

@[simp] theorem weight_idle : weight .idle = 0 := rfl

@[simp] theorem weight_popped (task : Task) : weight (.popped task) = 3 := rfl

@[simp] theorem weight_serving (task : Task) (result : List Bytes) :
    weight (.serving task result) = 2 + result.flatten.length := rfl

@[simp] theorem weight_replying (task : Task) (result : List Bytes) :
    weight (.replying task result) = 1 + result.flatten.length := rfl

/-- The bytes of commands at a connection that no worker has taken or executed. -/
def unreadAt (s : Network ω) (fd : Fd) : Nat :=
  (s.toServer fd).length + (s.reactor.server.reader fd).buf.length

/-- What a client, and the server for it, have left to do when no command is executed any more. -/
def effortAt (s : Network ω) (fd : Fd) : Nat :=
  5 * (s.toServer fd).length + (s.toClient fd).length + (s.call fd).toList.length

def queuedBytes (s : Network ω) : Nat := (s.reactor.tasks.map fun task => task.data.length).sum

def unread (s : Network ω) : Nat :=
  ∑ fd ∈ fds, s.unreadAt fd + (∑ w, burden (s.reactor.worker w) + s.queuedBytes)

def effort (s : Network ω) : Nat :=
  ∑ fd ∈ fds, s.effortAt fd + (∑ w, weight (s.reactor.worker w) + 4 * s.reactor.tasks.length)

/-- A command has been executed, or less is left to do. -/
def Less (s' s : Network ω) : Prop :=
  Prod.Lex (· < ·) (· < ·) (unread fds s',effort fds s') (unread fds s,effort fds s)

theorem sum_worker (f : Worker → Nat) (worker : ω → Worker) (w : ω) (next : Worker) :
    ∑ v, f (Function.update worker w next v) + f (worker w) = ∑ v, f (worker v) + f next := by
  have changed := Machine.sum_changed Finset.univ w (Finset.mem_univ w) (fun v => f (worker v))
    (fun v => f (Function.update worker w next v)) fun v other => by
      rw [Function.update_of_ne other]
  rwa [Function.update_self] at changed

variable {fds} {s s' : Network ω} {a : Atomic Fd ClientOp ClientReply PlainMap}

omit [DecidableEq ω] in
theorem less_at (fd : Fd) (inside : fd ∈ fds)
    (others : ∀ other, other ≠ fd → s'.unreadAt other = s.unreadAt other ∧
      s'.effortAt other = s.effortAt other) {b b' e e' : Nat}
    (burdens : ∑ w, burden (s'.reactor.worker w) + b = ∑ w, burden (s.reactor.worker w) + b')
    (weights : ∑ w, weight (s'.reactor.worker w) + e = ∑ w, weight (s.reactor.worker w) + e')
    (smaller : s'.unreadAt fd + s'.queuedBytes + b' < s.unreadAt fd + s.queuedBytes + b ∨
      s'.unreadAt fd + s'.queuedBytes + b' = s.unreadAt fd + s.queuedBytes + b ∧
        s'.effortAt fd + 4 * s'.reactor.tasks.length + e' <
          s.effortAt fd + 4 * s.reactor.tasks.length + e) : Less fds s' s := by
  have bytes := Machine.sum_changed fds fd inside s.unreadAt s'.unreadAt fun j other => (others j other).1
  have left := Machine.sum_changed fds fd inside s.effortAt s'.effortAt fun j other => (others j other).2
  rw [Less,Prod.lex_def]
  simp only [unread,effort]
  omega

theorem Simulates.less_pop (sim : s.Simulates a)
    (covers : ∀ fd, s.reactor.isOpen fd = true → fd ∈ fds) (w : ω) (r : Reactor ω)
    (taken : Reactor.step s.reactor (.pop w) = some r) : Less fds { s with reactor := r } s := by
  cases Reactor.took_of_step s.reactor r _ taken with
  | pop w task tasks idle front =>
    have queued : s.reactor.Pending task := .inl (by rw [front]; exact List.mem_cons_self)
    have burdens := sum_worker burden s.reactor.worker w (.popped task)
    have weights := sum_worker weight s.reactor.worker w (.popped task)
    rw [idle] at burdens weights
    refine less_at task.connection.fd (covers _ (sim.live task queued).1) (fun _ _ => ⟨rfl,rfl⟩)
      burdens weights (.inr ⟨?_,?_⟩)
    · simp only [unreadAt,queuedBytes,Reactor.moveTo,front,List.map_cons,List.sum_cons,burden_idle,
        burden_popped]
      omega
    · change s.effortAt _ + 4 * tasks.length + 3 < s.effortAt _ + 4 * s.reactor.tasks.length + 0
      rw [front,List.length_cons]
      omega

theorem reader_length (server : KvServer) (fd : Fd) (session : Session) :
    ((server.withSession fd session).reader fd).buf.length = session.reader.buf.length := by
  rw [KvServer.reader_withSession,if_pos rfl]

theorem Simulates.less_enter (sim : s.Simulates a)
    (covers : ∀ fd, s.reactor.isOpen fd = true → fd ∈ fds) (w : ω) (r : Reactor ω)
    (taken : Reactor.step s.reactor (.enter w) = some r) : Less fds { s with reactor := r } s := by
  cases Reactor.took_of_step s.reactor r _ taken with
  | enter w task popped free =>
    obtain ⟨fd,named,isOpen,-,-,-⟩ := sim.holder w _ task popped rfl
    have number : task.connection.fd = fd := congrArg Connection.fd named
    rw [number]
    have burdens := sum_worker burden s.reactor.worker w (.serving task [])
    have weights := sum_worker weight s.reactor.worker w (.serving task [])
    rw [popped] at burdens weights
    refine less_at fd (covers fd isOpen) ?_ burdens weights (.inr ⟨?_,?_⟩)
    · intro other apart
      refine ⟨?_,rfl⟩
      simp only [unreadAt,Reactor.moveTo,Reactor.setLock,Reactor.visit,KvServer.reader_withSession,
        if_neg apart]
    · simp only [unreadAt,queuedBytes,Reactor.moveTo,Reactor.setLock,Reactor.visit,reader_length,
        burden_popped,burden_serving,List.length_append]
      omega
    · change s.effortAt fd + 4 * s.reactor.tasks.length + 2 < s.effortAt fd + 4 * _ + 3
      omega

theorem Simulates.less_pass (sim : s.Simulates a)
    (covers : ∀ fd, s.reactor.isOpen fd = true → fd ∈ fds) (w : ω) (env : Env)
    (succeeds : env.io.Succeeds) (few : s.Countable) (r : Reactor ω)
    (taken : Reactor.step s.reactor (.pass w env) = some r) :
    Less fds { s with reactor := r } s := by
  obtain ⟨fd,task,result,named,isOpen,serving,stage,passed⟩ := sim.pass_cases w env succeeds few taken
  have others (session : Session) (other : Fd) (apart : other ≠ fd) :
      ((s.reactor.server.withSession fd session).reader other).buf.length =
        (s.reactor.server.reader other).buf.length := by
    rw [KvServer.reader_withSession,if_neg apart]
  rcases passed with ⟨rfl,-⟩ | ⟨op,store,-,-,rfl,filled,rfl,-,-⟩
  · have burdens := sum_worker burden s.reactor.worker w (.replying task result)
    have weights := sum_worker weight s.reactor.worker w (.replying task result)
    rw [serving] at burdens weights
    refine less_at fd (covers fd isOpen) ?_ burdens weights (.inr ⟨?_,?_⟩)
    · intro other apart
      refine ⟨?_,rfl⟩
      simp only [unreadAt,Reactor.moveTo,Reactor.setLock,Reactor.visit,others _ other apart]
    · simp only [unreadAt,queuedBytes,Reactor.moveTo,Reactor.setLock,Reactor.visit,reader_length,
        burden_serving,burden_replying]
    · rw [weight_serving,weight_replying]
      change s.effortAt fd + 4 * s.reactor.tasks.length + _ < s.effortAt fd + 4 * _ + _
      omega
  · -- The command leaves the reader, whatever the reply adds.
    have burdens := sum_worker burden s.reactor.worker w
      (.serving task [serializeResponse (plainAnswer a.state op.command).1])
    have weights := sum_worker weight s.reactor.worker w
      (.serving task [serializeResponse (plainAnswer a.state op.command).1])
    rw [serving] at burdens weights
    refine less_at fd (covers fd isOpen) ?_ burdens weights (.inl ?_)
    · intro other apart
      refine ⟨?_,rfl⟩
      simp only [unreadAt,Reactor.moveTo,Reactor.reply,Reactor.visit,others _ other apart]
    · have some := List.length_pos_iff.mpr filled
      simp only [unreadAt,queuedBytes,Reactor.moveTo,Reactor.reply,Reactor.visit,reader_length,
        burden_serving,List.length_nil]
      omega

theorem Simulates.less_send (sim : s.Simulates a)
    (covers : ∀ fd, s.reactor.isOpen fd = true → fd ∈ fds) (w : ω) (room : Nat) (r : Reactor ω)
    (taken : Reactor.step s.reactor (.send w room) = some r) :
    Less fds { s with reactor := r } s := by
  cases Reactor.took_of_step s.reactor r _ taken with
  | send w room task result replying =>
    obtain ⟨fd,named,isOpen,-,-,-⟩ := sim.holder w _ task replying rfl
    rw [named]
    have sent := Reactor.deliveredTo_sendTo s.reactor w (s.reactor.current fd) result room ⟨isOpen,rfl⟩
    have burdens := sum_worker burden s.reactor.worker w .idle
    have weights := sum_worker weight s.reactor.worker w .idle
    rw [replying] at burdens weights
    refine less_at fd (covers fd isOpen) ?_ burdens weights (.inr ?_)
    · intro other apart
      have unsent := sent (s.reactor.current other)
      rw [if_neg (current_ne apart),List.append_nil] at unsent
      exact ⟨rfl,congrArg (fun bytes => 5 * (s.toServer other).length +
        (List.drop (s.taken other) bytes).length + (s.call other).toList.length) unsent⟩
    · have inside := sim.taken fd
      have grown := congrArg List.length (sent (s.reactor.current fd))
      rw [if_pos rfl,List.length_append,List.length_take] at grown
      refine ⟨rfl,?_⟩
      simp only [effortAt,toClient,List.length_drop,weight_idle,weight_replying]
      simp only [Reactor.moveTo,Reactor.sendTo,Reactor.current] at grown inside ⊢
      omega

omit [DecidableEq ω] in
theorem less_client (fd : Fd) (inside : fd ∈ fds)
    (others : ∀ other, other ≠ fd → s'.unreadAt other = s.unreadAt other ∧
      s'.effortAt other = s.effortAt other) (worker : s'.reactor.worker = s.reactor.worker)
    (bytes : s'.unreadAt fd + s'.queuedBytes = s.unreadAt fd + s.queuedBytes)
    (smaller : s'.effortAt fd + 4 * s'.reactor.tasks.length <
      s.effortAt fd + 4 * s.reactor.tasks.length) : Less fds s' s := by
  have same (f : Worker → Nat) : ∑ w, f (s'.reactor.worker w) + 0 = ∑ w, f (s.reactor.worker w) + 0 := by
    rw [worker]
  exact less_at fd inside others (same burden) (same weight) (.inr ⟨bytes,smaller⟩)

theorem less_data (covers : ∀ fd, s.reactor.isOpen fd = true → fd ∈ fds) (fd : Fd) (bytes : Bytes)
    (sent : bytes <+: s.toServer fd) (r : Reactor ω)
    (taken : Reactor.step s.reactor (.data fd bytes) = some r) :
    Less fds { s with reactor := r
                      toServer := Function.update s.toServer fd
                        ((s.toServer fd).drop bytes.length) } s := by
  simp only [Reactor.step] at taken
  split at taken
  next ready =>
    cases taken
    have inside := sent.length_le
    refine less_client fd (covers fd ready.1) ?_ rfl ?_ ?_
    · intro other apart
      refine ⟨by simp only [unreadAt,Function.update_of_ne apart],?_⟩
      simp only [effortAt,Function.update_of_ne apart]
      rfl
    · simp only [unreadAt,queuedBytes,Function.update_self,List.length_drop,List.map_append,
        List.map_cons,List.map_nil,List.sum_append,List.sum_cons,List.sum_nil]
      omega
    · simp only [effortAt,Function.update_self,List.length_drop,List.length_append,List.length_cons,
        List.length_nil]
      change 5 * _ + (s.toClient fd).length + _ + _ < _
      omega
  next => cases taken

theorem Simulates.less_receive (sim : s.Simulates a)
    (covers : ∀ fd, s.reactor.isOpen fd = true → fd ∈ fds) (fd : Fd) (size : Nat)
    (taken : Network.step s (.receive fd size) = some s') : Less fds s' s := by
  simp only [Network.step] at taken
  split at taken
  next => cases taken
  next op chunks calling =>
  split at taken
  next =>
    split at taken
    next sizes =>
      cases taken
      have isOpen := (sim.opened fd (by simp [calling])).1
      have inside := sizes.2.2
      refine less_client fd (covers fd isOpen) ?_ rfl rfl ?_
      · intro other apart
        simp only [unreadAt,effortAt,toClient,Function.update_of_ne apart,and_self]
      · simp only [toClient,List.length_drop] at inside
        simp only [effortAt,toClient,Function.update_self,List.length_drop,calling,
          Option.toList_some,List.length_singleton]
        omega
    next => cases taken
  next => cases taken

theorem Simulates.less_ret (sim : s.Simulates a)
    (covers : ∀ fd, s.reactor.isOpen fd = true → fd ∈ fds) (fd : Fd)
    (taken : Network.step s (.ret fd) = some s') : Less fds s' s := by
  simp only [Network.step] at taken
  split at taken
  next => cases taken
  next op chunks calling =>
  split at taken
  next => cases taken
  next reply client ran =>
    cases taken
    have isOpen := (sim.opened fd (by simp [calling])).1
    refine less_client fd (covers fd isOpen) ?_ rfl rfl ?_
    · intro other apart
      simp only [unreadAt,effortAt,toClient,Function.update_of_ne apart,and_self]
    · simp only [effortAt,toClient,Function.update_self,calling,Option.toList_some,
        Option.toList_none,List.length_singleton,List.length_nil]
      omega

/-- Every turn that goes on with what has begun leaves less. -/
theorem Simulates.less (sim : s.Simulates a)
    (covers : ∀ fd, s.reactor.isOpen fd = true → fd ∈ fds) (turn : Turn ω) (working : s.Working turn)
    (taken : Network.step s turn = some s') : Less fds s' s := by
  obtain ⟨goesOn,admitted,inTurn,-⟩ := working
  cases turn with
  | call fd op => cases goesOn
  | disconnect fd => cases goesOn
  | receive fd size => exact sim.less_receive covers fd size taken
  | ret fd => exact sim.less_ret covers fd taken
  | server event =>
    cases event with
    | accept fd => cases goesOn
    | close fd => cases goesOn
    | data fd bytes =>
      simp only [Network.step] at taken
      split at taken
      next sent =>
        obtain ⟨r,ran,rfl⟩ := Option.map_eq_some_iff.mp taken
        exact less_data covers fd bytes sent r ran
      next => cases taken
    | pop w =>
      obtain ⟨r,ran,rfl⟩ := Option.map_eq_some_iff.mp taken
      exact sim.less_pop covers w r ran
    | enter w =>
      obtain ⟨r,ran,rfl⟩ := Option.map_eq_some_iff.mp taken
      exact sim.less_enter covers w r ran
    | pass w env =>
      obtain ⟨r,ran,rfl⟩ := Option.map_eq_some_iff.mp taken
      exact sim.less_pass covers w env admitted inTurn r ran
    | send w room =>
      obtain ⟨r,ran,rfl⟩ := Option.map_eq_some_iff.mp taken
      exact sim.less_send covers w room r ran

end Measure

section Return

variable {s s' : Network ω}

theorem attended_of_step (turn : Turn ω) (taken : Network.step s turn = some s')
    (attended : s.reactor.Attended) : s'.reactor.Attended := by
  rcases server_of_step turn taken with same | ⟨event,-,took⟩
  · rw [same]
    exact attended
  · exact took.attended attended

theorem isOpen_of_step (turn : Turn ω) (taken : Network.step s turn = some s') (fd : Fd)
    (isOpen : s'.reactor.isOpen fd = true) :
    s.reactor.isOpen fd = true ∨ turn = .server (.accept fd) := by
  rcases server_of_step turn taken with same | ⟨event,rfl,took⟩
  · rw [same] at isOpen
    exact .inl isOpen
  · generalize s'.reactor = r at took isOpen
    cases took with
    | accept other closed =>
      by_cases same : fd = other
      · exact .inr (by rw [same])
      · exact .inl (by simpa [same] using isOpen)
    | close other =>
      by_cases same : fd = other
      · simp [same] at isOpen
      · exact .inl (by simpa [same] using isOpen)
    | data _ _ _ | pop _ _ _ _ _ | enter _ _ _ _ | answered _ _ _ _ _ _ _ _ | waits _ _ _ _ _ _ _
      | threw _ _ _ _ _ _ _ _ | send _ _ _ _ _ => exact .inl isOpen

theorem whole_of_step (turn : Turn ω) (smooth : s.Smooth turn) (taken : Network.step s turn = some s')
    (whole : ∀ e ∈ s.reactor.sent, e.taken = e.replies.flatten) :
    ∀ e ∈ s'.reactor.sent, e.taken = e.replies.flatten := by
  rcases server_of_step turn taken with same | ⟨event,rfl,took⟩
  · rw [same]
    exact whole
  · generalize s'.reactor = r at took
    cases took with
    | send w room task result replying =>
      have fits := smooth.2 w room rfl
      rw [replying] at fits
      intro e member
      rcases List.mem_append.mp member with old | new
      · exact whole e old
      · split at new
        · cases new
        · obtain rfl := List.mem_singleton.mp new
          exact List.take_of_length_le fits
    | _ => exact whole

/-- A state that is reached: clients and server make up the plain map, locks are held by workers
that serve, replies have been delivered whole, and only so many connections are open. -/
structure Reached (fds : Finset Fd) (s : Network ω) : Prop where
  simulates : ∃ a, s.Simulates a
  attended : s.reactor.Attended
  whole : ∀ e ∈ s.reactor.sent, e.taken = e.replies.flatten
  covers : ∀ fd, s.reactor.isOpen fd = true → fd ∈ fds

theorem Reached.step {fds : Finset Fd} (reached : Reached fds s) (turn : Turn ω)
    (admitted : turn.Admitted) (smooth : s.Smooth turn) (taken : Network.step s turn = some s')
    {fds' : Finset Fd} (grows : fds ⊆ fds')
    (accepts : ∀ fd, turn = .server (.accept fd) → fd ∈ fds') : Reached fds' s' := by
  obtain ⟨⟨a,sim⟩,attended,whole,covers⟩ := reached
  obtain ⟨-,a',-,sim'⟩ := sim.step turn s' admitted smooth.1 taken
  refine ⟨⟨a',sim'⟩,attended_of_step turn taken attended,whole_of_step turn smooth taken whole,
    fun fd isOpen => ?_⟩
  rcases isOpen_of_step turn taken fd isOpen with old | new
  · exact grows (covers fd old)
  · exact accepts fd new

theorem reached_of_run (store : PersistentKvStore) (map : PlainMap) (holds : Holds store map)
    (short : ShortValues map) (turns : List (Turn ω)) (t : Network ω)
    (admitted : ∀ turn ∈ turns, turn.Admitted)
    (smooth : Machine.Guarded Network.step Smooth (boot store) turns)
    (ran : Machine.run Network.step (boot store) turns = some t) : ∃ fds, Reached fds t := by
  refine Machine.invariant_of_guarded Network.step Smooth Turn.Admitted (fun t => ∃ fds, Reached fds t)
    ?_ (boot store) t turns ?_ admitted smooth ran
  · rintro s turn s' ⟨fds,reached⟩ admitted smooth taken
    cases turn with
    | server event =>
      cases event with
      | accept fd =>
        exact ⟨insert fd fds,reached.step _ admitted smooth taken (Finset.subset_insert fd fds)
          fun other same => by cases same; exact Finset.mem_insert_self fd fds⟩
      | data _ _ | close _ | pop _ | enter _ | pass _ _ | send _ _ =>
        exact ⟨fds,reached.step _ admitted smooth taken (Finset.Subset.refl fds) (by simp)⟩
    | call _ _ | receive _ _ | ret _ | disconnect _ =>
      exact ⟨fds,reached.step _ admitted smooth taken (Finset.Subset.refl fds) (by simp)⟩
  · refine ⟨∅,⟨_,simulates_boot store map holds short⟩,?_,?_,?_⟩ <;> simp [boot,Reactor.boot,Reactor.Attended]

/-- From every state that can be reached with sendable arguments, files that can be written, chunks
taken in turn and replies that `send` takes whole, and as long as this stays so, all calls under way
return, whoever moves next: until they have, some client or worker can move, and without new calls
or connections this cannot go on forever. (A store with more keys than an `int` can count is left
out.) -/
theorem calls_return [Fintype ω] [Nonempty ω] (store : PersistentKvStore) (map : PlainMap)
    (holds : Holds store map) (short : ShortValues map) (turns : List (Turn ω)) (s : Network ω)
    (admitted : ∀ turn ∈ turns, turn.Admitted)
    (smooth : Machine.Guarded Network.step Smooth (boot store) turns)
    (ran : Machine.run Network.step (boot store) turns = some s) :
    Machine.Inevitable Network.step Working (fun t => t.Countable → ∀ fd, t.call fd = none) s := by
  obtain ⟨fds,reached⟩ := reached_of_run store map holds short turns s admitted smooth ran
  refine Machine.inevitable_of_measure Network.step (Prod.Lex (· < ·) (· < ·))
    (Prod.lex Nat.lt_wfRel Nat.lt_wfRel).wf (fun t => (unread fds t,effort fds t)) Working _
    (Reached fds) ?_ ?_ ?_ s reached
  · intro s turn s' reached working taken
    apply reached.step turn working.2.1 working.2.2 taken (Finset.Subset.refl fds)
    rintro fd rfl
    cases working.1
  · intro s turn s' reached working taken
    obtain ⟨a,sim⟩ := reached.simulates
    exact sim.less reached.covers turn working taken
  · intro s reached pending
    obtain ⟨few,fd,calling⟩ : s.Countable ∧ ∃ fd, s.call fd ≠ none := by
      simpa using pending
    obtain ⟨a,sim⟩ := reached.simulates
    exact sim.progress reached.attended (s.reactor.deliveredTo_eq_sentTo reached.whole) few fd calling

/-- Two calls have been made, and a part of the first has been received. -/
theorem calls_return_two :
    ∃ s, Machine.run Network.step (boot .opened) (overlapping.take 5) = some s ∧
      (s.call 5).isSome = true ∧ (s.call 6).isSome = true ∧
      Machine.Inevitable Network.step Working (fun t => t.Countable → ∀ fd, t.call fd = none) s := by
  have ends : (Machine.run Network.step (boot .opened) (overlapping.take 5)).map
      (fun s => ((s.call 5).isSome,(s.call 6).isSome)) = some (true,true) := by decide +kernel
  obtain ⟨s,ran,calling⟩ := Option.map_eq_some_iff.mp ends
  refine ⟨s,ran,congrArg Prod.fst calling,congrArg Prod.snd calling,
    calls_return .opened ∅ ⟨⟨[],rfl,rfl,rfl,rfl,rfl⟩,rfl⟩ nofun _ s ?_ (by decide +kernel) ran⟩
  have sets : (ClientOp.set (ascii "k") (ascii "v")).command.WellFormed := ⟨rfl,by decide,rfl⟩
  have gets : (ClientOp.get (ascii "k")).command.WellFormed := ⟨rfl,by decide,rfl⟩
  simp [overlapping,Turn.Admitted,sets,gets]

end Return

end Network
end KvCache
