import KvCache.EventLoop
import KvCache.ConnectionOrder

/-! The event loop together with the workers that it feeds. What the loop does to a connection
(it accepts it, hands on a chunk, closes it) is what happens to the connection at the server;
between these steps the workers do what they do. -/
namespace KvCache

structure LoopServer (ω : Type) where
  loop : EventLoop
  reactor : Reactor ω

namespace LoopServer

variable {ω : Type} [DecidableEq ω]

def boot (store : PersistentKvStore) : LoopServer ω := ⟨.start,.boot store⟩

inductive Turn (ω : Type) where
  | loop (event : EventLoop.Event)
  | pop (w : ω)
  | enter (w : ω)
  | pass (w : ω) (env : Env)
  | send (w : ω) (room : Nat)

/-- What a step of the loop is at the server. -/
def emitted (s : EventLoop) : EventLoop.Event → List (Reactor.Event ω)
  | .accept fd => [.accept fd]
  | .recv size =>
    match s.pc with
    | .reading fd _ =>
      if fd ∉ s.interest then []
      else if (s.socket fd).unread ≠ [] then [.data fd ((s.socket fd).unread.take size)]
      else if (s.socket fd).ended ∨ (s.socket fd).broken then [.close fd]
      else []
    | _ => []
  | _ => []

def events (s : LoopServer ω) : Turn ω → List (Reactor.Event ω)
  | .loop event => emitted s.loop event
  | .pop w => [.pop w]
  | .enter w => [.enter w]
  | .pass w env => [.pass w env]
  | .send w room => [.send w room]

def nextLoop (s : LoopServer ω) : Turn ω → Option EventLoop
  | .loop event => EventLoop.step s.loop event
  | _ => some s.loop

def step (s : LoopServer ω) (turn : Turn ω) : Option (LoopServer ω) := do
  let loop ← s.nextLoop turn
  let reactor ← Machine.run Reactor.step s.reactor (s.events turn)
  return ⟨loop,reactor⟩

/-- Loop and server agree on what is open, and on what was received there. -/
structure Linked (s : LoopServer ω) : Prop where
  tended : s.loop.Tended
  isOpen : ∀ fd, s.reactor.isOpen fd = decide (fd ∈ s.loop.interest)
  received : ∀ fd ∈ s.loop.interest,
    s.reactor.received (s.reactor.current fd) = (s.loop.socket fd).chunks
  unborn : ∀ c, s.reactor.generation c.fd < c.generation → s.reactor.received c = []

omit [DecidableEq ω] in
theorem linked_boot (store : PersistentKvStore) : (boot store : LoopServer ω).Linked where
  tended := EventLoop.start_tended
  isOpen := by simp [boot,Reactor.boot,EventLoop.start]
  received := by simp [boot,EventLoop.start]
  unborn := by simp [boot,Reactor.boot]

section Steps

variable {s s' : LoopServer ω}

theorem Linked.worker {r : Reactor ω} {event : Reactor.Event ω} (linked : s.Linked)
    (took : Reactor.Took s.reactor event r)
    (inside : (∀ fd, event ≠ .accept fd) ∧ (∀ fd bytes, event ≠ .data fd bytes) ∧
      ∀ fd, event ≠ .close fd) : Linked ⟨s.loop,r⟩ := by
  obtain ⟨noAccept,noData,noClose⟩ := inside
  cases took with
  | accept fd closed => exact absurd rfl (noAccept fd)
  | data fd bytes isOpen => exact absurd rfl (noData fd bytes)
  | close fd => exact absurd rfl (noClose fd)
  | pop w task tasks idle front => exact ⟨linked.tended,linked.isOpen,linked.received,linked.unborn⟩
  | enter w task popped free => exact ⟨linked.tended,linked.isOpen,linked.received,linked.unborn⟩
  | answered w env task result bytes session serving ran =>
    exact ⟨linked.tended,linked.isOpen,linked.received,linked.unborn⟩
  | waits w env task result session serving ran =>
    exact ⟨linked.tended,linked.isOpen,linked.received,linked.unborn⟩
  | threw w env task result fault session serving ran =>
    exact ⟨linked.tended,linked.isOpen,linked.received,linked.unborn⟩
  | send w room task result replying =>
    exact ⟨linked.tended,linked.isOpen,linked.received,linked.unborn⟩

omit [DecidableEq ω] in
theorem Linked.silent (linked : s.Linked) {loop : EventLoop} (tended : loop.Tended)
    (interest : loop.interest = s.loop.interest)
    (chunks : ∀ fd, (loop.socket fd).chunks = (s.loop.socket fd).chunks) :
    Linked ⟨loop,s.reactor⟩ where
  tended := tended
  isOpen := by
    simp only [interest]
    exact linked.isOpen
  received := by
    simp only [interest,chunks]
    exact linked.received
  unborn := linked.unborn

theorem put_chunks (s : EventLoop) (fd : Fd) (k : Socket) (same : k.chunks = (s.socket fd).chunks)
    (other : Fd) : ((s.put fd k).socket other).chunks = (s.socket other).chunks := by
  by_cases equal : other = fd
  · subst equal
    simpa [EventLoop.put] using same
  · simp [EventLoop.put,equal]

theorem Linked.accept (linked : s.Linked) (fd : Fd) (k : Socket) (backlog : List Socket)
    (front : s.loop.backlog = k :: backlog) (free : fd ∉ s.loop.interest)
    (tended : EventLoop.Tended { s.loop.put fd { k with ready := decide k.Pending } with
      backlog := backlog, interest := insert fd s.loop.interest }) :
    ∃ r, Machine.run Reactor.step s.reactor [.accept fd] = some r ∧
      Linked ⟨{ s.loop.put fd { k with ready := decide k.Pending } with
        backlog := backlog, interest := insert fd s.loop.interest },r⟩ := by
  obtain ⟨bytes,ended,rfl⟩ := linked.tended.fresh k (by rw [front]; exact List.mem_cons_self)
  have closed : ¬s.reactor.isOpen fd = true := by simp [linked.isOpen,free]
  refine ⟨_,(Machine.run_singleton _ _ _).trans (if_neg closed),tended,fun other => ?_,
    fun other member => ?_,fun c new => ?_⟩
  · by_cases same : other = fd
    · simp [same]
    · simpa [same] using linked.isOpen other
  · by_cases same : other = fd
    · subst same
      have nothing := linked.unborn ⟨other,s.reactor.generation other + 1⟩ (Nat.lt_succ_self _)
      simpa [Reactor.current,EventLoop.put,Socket.incoming] using nothing
    · have old := linked.received other ((Finset.mem_insert.mp member).resolve_left same)
      simpa [Reactor.current,EventLoop.put,same] using old
  · apply linked.unborn c
    by_cases same : c.fd = fd
    · simp only [same,Function.update_self] at new
      rw [same]
      exact Nat.lt_of_succ_lt new
    · simpa [same] using new

theorem Linked.receive (linked : s.Linked) (fd : Fd) (size : Nat) (isOpen : fd ∈ s.loop.interest)
    (positive : 0 < size) (small : size ≤ 4096) (inside : size ≤ (s.loop.socket fd).unread.length)
    (tended : (s.loop.put fd ((s.loop.socket fd).receive size)).Tended) :
    ∃ r, Machine.run Reactor.step s.reactor [.data fd ((s.loop.socket fd).unread.take size)] = some r ∧
      Linked ⟨s.loop.put fd ((s.loop.socket fd).receive size),r⟩ := by
  have ready : s.reactor.isOpen fd = true ∧ 0 < ((s.loop.socket fd).unread.take size).length ∧
      ((s.loop.socket fd).unread.take size).length ≤ 4096 := by
    rw [List.length_take,Nat.min_eq_left inside,linked.isOpen]
    exact ⟨decide_eq_true isOpen,positive,small⟩
  refine ⟨_,(Machine.run_singleton _ _ _).trans (if_pos ready),tended,linked.isOpen,
    fun other member => ?_,fun c new => ?_⟩
  · by_cases same : other = fd
    · subst same
      simp [Reactor.current,EventLoop.put,Socket.receive,← linked.received other member]
    · have old := linked.received other member
      have apart : (⟨other,s.reactor.generation other⟩ : Connection) ≠
          ⟨fd,s.reactor.generation fd⟩ := fun equal => same (congrArg Connection.fd equal)
      simpa [Reactor.current,EventLoop.put,same,apart] using old
  · have apart : c ≠ s.reactor.current fd := by
      rintro rfl
      exact Nat.lt_irrefl _ new
    simp only [Function.update_of_ne apart]
    exact linked.unborn c new

theorem Linked.close (linked : s.Linked) (fd : Fd) (pc : LoopPc) (isOpen : fd ∈ s.loop.interest)
    (tended : EventLoop.Tended { s.loop.closeConnection fd with pc := pc }) :
    ∃ r, Machine.run Reactor.step s.reactor [.close fd] = some r ∧
      Linked ⟨{ s.loop.closeConnection fd with pc := pc },r⟩ := by
  have here : s.reactor.isOpen fd = true := by rw [linked.isOpen,decide_eq_true isOpen]
  refine ⟨_,(Machine.run_singleton _ _ _).trans (if_pos here),tended,fun other => ?_,
    fun other member => ?_,linked.unborn⟩
  · by_cases same : other = fd
    · simp [same,EventLoop.closeConnection]
    · simpa [same,EventLoop.closeConnection] using linked.isOpen other
  · exact linked.received other (Finset.mem_of_mem_erase member)

/-- The server follows the loop: whatever the loop does to a connection, the server can take. -/
theorem Linked.follow (linked : s.Linked) {event : EventLoop.Event} {loop : EventLoop}
    (took : EventLoop.Took s.loop event loop) :
    ∃ r, Machine.run Reactor.step s.reactor (emitted s.loop event) = some r ∧ Linked ⟨loop,r⟩ := by
  have tended := took.tended linked.tended
  cases took with
  | connect bytes ended => exact ⟨_,rfl,linked.silent tended rfl fun _ => rfl⟩
  | arrive fd bytes isOpen broken =>
    exact ⟨_,rfl,linked.silent tended rfl (put_chunks s.loop fd _ rfl)⟩
  | finish fd isOpen broken =>
    exact ⟨_,rfl,linked.silent tended rfl (put_chunks s.loop fd _ rfl)⟩
  | reset fd kept isOpen =>
    exact ⟨_,rfl,linked.silent tended rfl (put_chunks s.loop fd _ rfl)⟩
  | wake batch waiting filled nodup reported =>
    refine ⟨_,rfl,linked.silent tended rfl fun fd => ?_⟩
    simp only [EventLoop.clearReady]
    split <;> rfl
  | handled handling => exact ⟨_,rfl,linked.silent tended rfl fun _ => rfl⟩
  | toAccept batch handling => exact ⟨_,rfl,linked.silent tended rfl fun _ => rfl⟩
  | toRead fd batch handling => exact ⟨_,rfl,linked.silent tended rfl fun _ => rfl⟩
  | accept fd batch k backlog accepting front free => exact linked.accept fd k backlog front free tended
  | acceptFails batch accepting => exact ⟨_,rfl,linked.silent tended rfl fun _ => rfl⟩
  | close fd batch size reading why =>
    have isOpen : fd ∈ s.loop.interest :=
      linked.tended.known fd (by rw [reading]; exact List.mem_cons_self)
    obtain ⟨read,finished⟩ := why.resolve_left (absurd isOpen)
    have closes : emitted s.loop (.recv size) = ([.close fd] : List (Reactor.Event ω)) := by
      simp [emitted,reading,isOpen,read,finished]
    rw [closes]
    exact linked.close fd _ isOpen tended
  | receive fd batch size reading isOpen positive small inside =>
    have unread : (s.loop.socket fd).unread ≠ [] := List.ne_nil_of_length_pos (by omega)
    have hands : emitted s.loop (.recv size) =
        ([.data fd ((s.loop.socket fd).unread.take size)] : List (Reactor.Event ω)) := by
      simp [emitted,reading,isOpen,unread]
    rw [hands]
    exact linked.receive fd size isOpen positive small inside tended
  | again fd batch size reading nothing =>
    have silent : emitted s.loop (.recv size) = ([] : List (Reactor.Event ω)) := by
      simp only [Socket.Pending,not_or,Decidable.not_not,Bool.not_eq_true] at nothing
      simp [emitted,reading,nothing]
    rw [silent]
    exact ⟨_,rfl,linked.silent tended rfl fun _ => rfl⟩

theorem Linked.step (linked : s.Linked) (turn : Turn ω) (taken : LoopServer.step s turn = some s') :
    s'.Linked := by
  simp only [LoopServer.step,Option.bind_eq_bind,Option.bind_eq_some_iff,Option.pure_def,
    Option.some.injEq] at taken
  obtain ⟨loop,moved,r,ran,rfl⟩ := taken
  have single (event : Reactor.Event ω)
      (inside : (∀ fd, event ≠ .accept fd) ∧ (∀ fd bytes, event ≠ .data fd bytes) ∧
        ∀ fd, event ≠ .close fd)
      (ran : Machine.run Reactor.step s.reactor [event] = some r) : Linked ⟨s.loop,r⟩ := by
    obtain ⟨_,taken,rest⟩ := (Machine.run_cons_iff _ _ _ _ _).mp ran
    cases rest
    exact linked.worker (Reactor.took_of_step _ _ _ taken) inside
  cases turn with
  | loop event =>
    obtain ⟨r',ran',linked'⟩ := linked.follow (EventLoop.took_of_step _ _ _ moved)
    cases ran.symm.trans ran'
    exact linked'
  | pop w => cases moved; exact single (.pop w) ⟨nofun,nofun,nofun⟩ ran
  | enter w => cases moved; exact single (.enter w) ⟨nofun,nofun,nofun⟩ ran
  | pass w env => cases moved; exact single (.pass w env) ⟨nofun,nofun,nofun⟩ ran
  | send w room => cases moved; exact single (.send w room) ⟨nofun,nofun,nofun⟩ ran

theorem linked_of_run (store : PersistentKvStore) (turns : List (Turn ω)) (t : LoopServer ω)
    (ran : Machine.run LoopServer.step (boot store) turns = some t) : t.Linked :=
  Machine.invariant_of_run LoopServer.step (fun _ => True) Linked
    (fun _ turn _ linked _ taken => linked.step turn taken) (boot store) t turns (linked_boot store)
    (fun _ _ => trivial) ran

/-- The loop and the server agree. After any run, with any steps of the workers in between,
the server can follow whatever the loop does next; and what an open connection has received is
what the loop has handed on, which with the unread bytes is all that has arrived there. -/
theorem server_follows_loop (store : PersistentKvStore) (turns : List (Turn ω)) (t : LoopServer ω)
    (ran : Machine.run LoopServer.step (boot store) turns = some t) :
    (∀ event loop, EventLoop.step t.loop event = some loop →
      ∃ t', LoopServer.step t (.loop event) = some t') ∧
      ∀ fd ∈ t.loop.interest,
        t.reactor.received (t.reactor.current fd) = (t.loop.socket fd).chunks ∧
        ((t.loop.socket fd).broken = false →
          (t.reactor.received (t.reactor.current fd)).flatten ++ (t.loop.socket fd).unread =
            (t.loop.socket fd).arrived) := by
  have linked := linked_of_run store turns t ran
  refine ⟨fun event loop taken => ?_,fun fd isOpen => ⟨linked.received fd isOpen,fun whole => ?_⟩⟩
  · obtain ⟨r,follows,-⟩ := linked.follow (EventLoop.took_of_step _ _ _ taken)
    exact ⟨⟨loop,r⟩,by simp [LoopServer.step,nextLoop,taken,events,follows]⟩
  · rw [linked.received fd isOpen]
    exact (linked.tended.ordered fd isOpen).all whole

end Steps

/-- A peer connects and sends `KEYS`, one half of it before and one after it is accepted. -/
def oneVisit : List (Turn Unit) :=
  [.loop (.connect (ascii "*1\r\n$4\r\n") false),.loop (.wake [.listener]),.loop .next,
    .loop (.accept 5),.loop .acceptFails,.loop .next,.loop (.wake [.socket 5]),.loop .next,
    .loop (.recv 8),.loop (.arrive 5 (ascii "KEYS\r\n")),.pop (),.loop (.recv 6),.enter (),
    .loop (.recv 1),.loop .next,.pass () .faultless,.send () 4096,.loop (.wake [.socket 5]),
    .pop (),.loop .next,.loop (.recv 1),.loop .next,.enter (),.pass () .faultless,
    .pass () .faultless,.send () 4096]

theorem server_follows_loop_keys :
    ∃ t, Machine.run LoopServer.step (boot .opened) (oneVisit.take 12) = some t ∧
      t.reactor.received (t.reactor.current 5) = [ascii "*1\r\n$4\r\n",ascii "KEYS\r\n"] ∧
      (t.reactor.received (t.reactor.current 5)).flatten ++ (t.loop.socket 5).unread =
        (t.loop.socket 5).arrived := by
  have ends : (Machine.run LoopServer.step (boot .opened) (oneVisit.take 12)).map (fun t =>
      (t.loop.interest,(t.loop.socket 5).broken,t.reactor.received (t.reactor.current 5))) =
        some ({5},false,[ascii "*1\r\n$4\r\n",ascii "KEYS\r\n"]) := by decide +kernel
  obtain ⟨t,ran,facts⟩ := Option.map_eq_some_iff.mp ends
  simp only [Prod.mk.injEq] at facts
  obtain ⟨interest,whole,received⟩ := facts
  obtain ⟨-,agree⟩ := server_follows_loop .opened (oneVisit.take 12) t ran
  exact ⟨t,ran,received,(agree 5 (by simp [interest])).2 whole⟩

/-- The chunks of a connection are taken in turn, numbers are given away clean, and no callback
is left by an exception. -/
def InTurn (s : LoopServer ω) (turn : Turn ω) : Prop :=
  ∀ event ∈ s.events turn, s.reactor.TakesTurns event

instance [Fintype ω] (s : LoopServer ω) (turn : Turn ω) : Decidable (s.InTurn turn) :=
  inferInstanceAs (Decidable (∀ event ∈ s.events turn, _))

end LoopServer
end KvCache
