import KvCache.Machine
import KvCache.KvServer

/-! The event loop of `TcpServer` on Linux. The listening socket is level-triggered; connections
are edge-triggered: epoll reports one when something arrives there, and not again for what is
left unread. `HandleRead` therefore receives until nothing is left. Between any two steps of the
loop, more can arrive. -/
namespace KvCache

/-- A connection as the kernel has it. -/
structure Socket where
  /-- What has arrived and has not been received. -/
  unread : Bytes
  /-- The peer has closed its side. -/
  ended : Bool
  broken : Bool
  /-- The connection is in the ready list of epoll. -/
  ready : Bool
  /-- All that has arrived. -/
  arrived : Bytes
  /-- What has been handed to the thread pool, in the order of `Submit`. -/
  chunks : List Bytes
  deriving DecidableEq, Repr

namespace Socket

/-- `recv` would not say `EAGAIN`. -/
def Pending (k : Socket) : Prop := k.unread ≠ [] ∨ k.ended = true ∨ k.broken = true

instance (k : Socket) : Decidable k.Pending := inferInstanceAs (Decidable (_ ∨ _))

def incoming (bytes : Bytes) (ended : Bool) : Socket := ⟨bytes,ended,false,false,bytes,[]⟩

def arrive (k : Socket) (bytes : Bytes) : Socket :=
  { k with unread := k.unread ++ bytes, arrived := k.arrived ++ bytes, ready := true }

def finish (k : Socket) : Socket := { k with ended := true, ready := true }

/-- After a reset, what has not been received may be lost, in whole or from some byte on. -/
def reset (k : Socket) (kept : Nat) : Socket :=
  { k with broken := true, ready := true, unread := k.unread.take kept }

def receive (k : Socket) (size : Nat) : Socket :=
  { k with unread := k.unread.drop size, chunks := k.chunks ++ [k.unread.take size] }

/-- What has arrived has been handed on in order, in chunks that `recv` can give, or is unread. -/
structure Ordered (k : Socket) : Prop where
  sized : ∀ chunk ∈ k.chunks, 0 < chunk.length ∧ chunk.length ≤ 4096
  order : k.chunks.flatten ++ k.unread <+: k.arrived
  all : k.broken = false → k.chunks.flatten ++ k.unread = k.arrived

namespace Ordered

variable {k : Socket}

theorem incoming (bytes : Bytes) (ended : Bool) : (Socket.incoming bytes ended).Ordered where
  sized := by simp [Socket.incoming]
  order := List.prefix_refl bytes
  all := fun _ => rfl

theorem ready (ordered : k.Ordered) (ready : Bool) : { k with ready := ready }.Ordered :=
  ⟨ordered.sized,ordered.order,ordered.all⟩

theorem arrive (ordered : k.Ordered) (bytes : Bytes) (whole : k.broken = false) :
    (k.arrive bytes).Ordered := by
  have all : k.chunks.flatten ++ (k.unread ++ bytes) = k.arrived ++ bytes := by
    rw [← List.append_assoc,ordered.all whole]
  exact ⟨ordered.sized,by rw [Socket.arrive,all],fun _ => all⟩

theorem finish (ordered : k.Ordered) : k.finish.Ordered := ⟨ordered.sized,ordered.order,ordered.all⟩

theorem reset (ordered : k.Ordered) (kept : Nat) : (k.reset kept).Ordered where
  sized := ordered.sized
  order := by
    have part : k.chunks.flatten ++ k.unread.take kept <+: k.chunks.flatten ++ k.unread :=
      (List.prefix_append_right_inj _).mpr (List.take_prefix kept k.unread)
    exact part.trans ordered.order
  all := by simp [Socket.reset]

theorem receive (ordered : k.Ordered) (size : Nat) (positive : 0 < size) (small : size ≤ 4096)
    (inside : size ≤ k.unread.length) : (k.receive size).Ordered := by
  have same : (k.receive size).chunks.flatten ++ (k.receive size).unread =
      k.chunks.flatten ++ k.unread := by
    simp [Socket.receive]
  refine ⟨?_,same ▸ ordered.order,fun whole => same.trans (ordered.all whole)⟩
  intro chunk member
  rcases List.mem_append.mp member with old | new
  · exact ordered.sized chunk old
  · cases List.mem_singleton.mp new
    rw [List.length_take,Nat.min_eq_left inside]
    exact ⟨positive,small⟩

end Ordered

end Socket

inductive Source where
  | listener
  | socket (fd : Fd)
  deriving DecidableEq, Repr

/-- Where the thread of the loop is, with the entries of `events_` that it has still to handle. -/
inductive LoopPc where
  | waiting
  | handling (batch : List Source)
  | accepting (batch : List Source)
  | reading (fd : Fd) (batch : List Source)
  deriving DecidableEq, Repr

namespace LoopPc

def sources : LoopPc → List Source
  | waiting => []
  | handling batch => batch
  | accepting batch => .listener :: batch
  | reading fd batch => .socket fd :: batch

/-- The steps until the loop waits again, if nothing is received on the way. -/
def cost : LoopPc → Nat
  | waiting => 0
  | handling batch => 1 + 3 * batch.length
  | accepting batch | reading _ batch => 3 + 3 * batch.length

end LoopPc

structure EventLoop where
  /-- Connections that have not been accepted. -/
  backlog : List Socket
  /-- The descriptors registered with epoll, the listening one apart. -/
  interest : Finset Fd
  socket : Fd → Socket
  pc : LoopPc
  /-- What has become of connections that were closed. -/
  closed : List Socket

namespace EventLoop

def start : EventLoop := ⟨[],∅,fun _ => .incoming [] false,.waiting,[]⟩

/-- What happens outside: connections come, bytes arrive, the peer closes or resets. What the
loop does: `epoll_wait` returns, the next entry is looked at, `accept` gives a connection or
fails, `recv` is called (and gives so many bytes, if there are any). -/
inductive Event where
  | connect (bytes : Bytes) (ended : Bool)
  | arrive (fd : Fd) (bytes : Bytes)
  | finish (fd : Fd)
  | reset (fd : Fd) (kept : Nat)
  | wake (batch : List Source)
  | next
  | accept (fd : Fd)
  | acceptFails
  | recv (size : Nat)
  deriving DecidableEq, Repr

def put (s : EventLoop) (fd : Fd) (k : Socket) : EventLoop :=
  { s with socket := Function.update s.socket fd k }

/-- epoll has an event for it. -/
def Reports (s : EventLoop) : Source → Prop
  | .listener => s.backlog ≠ []
  | .socket fd => fd ∈ s.interest ∧ (s.socket fd).ready = true

instance (s : EventLoop) : (source : Source) → Decidable (s.Reports source)
  | .listener => inferInstanceAs (Decidable (_ ≠ _))
  | .socket _ => inferInstanceAs (Decidable (_ ∧ _))

def clearReady (s : EventLoop) (batch : List Source) : EventLoop :=
  { s with socket := fun fd => if .socket fd ∈ batch then { s.socket fd with ready := false }
      else s.socket fd }

def closeConnection (s : EventLoop) (fd : Fd) : EventLoop :=
  { s with interest := s.interest.erase fd, closed := s.closed ++ [s.socket fd] }

def step (s : EventLoop) : Event → Option EventLoop
  | .connect bytes ended => some { s with backlog := s.backlog ++ [.incoming bytes ended] }
  | .arrive fd bytes =>
    if fd ∈ s.interest ∧ bytes ≠ [] ∧ (s.socket fd).ended = false ∧ (s.socket fd).broken = false then
      some (s.put fd ((s.socket fd).arrive bytes))
    else none
  | .finish fd =>
    if fd ∈ s.interest ∧ (s.socket fd).broken = false then some (s.put fd (s.socket fd).finish)
    else none
  | .reset fd kept =>
    if fd ∈ s.interest then some (s.put fd ((s.socket fd).reset kept)) else none
  | .wake batch =>
    match s.pc with
    | .waiting =>
      if batch ≠ [] ∧ batch.length ≤ 1024 ∧ batch.Nodup ∧ ∀ source ∈ batch, s.Reports source then
        some { s.clearReady batch with pc := .handling batch }
      else none
    | _ => none
  | .next =>
    match s.pc with
    | .handling [] => some { s with pc := .waiting }
    | .handling (.listener :: batch) => some { s with pc := .accepting batch }
    | .handling (.socket fd :: batch) => some { s with pc := .reading fd batch }
    | _ => none
  | .accept fd =>
    match s.pc, s.backlog with
    | .accepting _, k :: backlog =>
      if fd ∈ s.interest then none
      else some { s.put fd { k with ready := decide k.Pending } with
        backlog := backlog, interest := insert fd s.interest }
    | _, _ => none
  | .acceptFails =>
    match s.pc with
    | .accepting batch => some { s with pc := .handling batch }
    | _ => none
  | .recv size =>
    match s.pc with
    | .reading fd batch =>
      if fd ∉ s.interest then some { s.closeConnection fd with pc := .handling batch }
      else if (s.socket fd).unread ≠ [] then
        if 0 < size ∧ size ≤ 4096 ∧ size ≤ (s.socket fd).unread.length then
          some (s.put fd ((s.socket fd).receive size))
        else none
      else if (s.socket fd).ended ∨ (s.socket fd).broken then
        some { s.closeConnection fd with pc := .handling batch }
      else some { s with pc := .handling batch }
    | _ => none

inductive Took (s : EventLoop) : Event → EventLoop → Prop
  | connect (bytes : Bytes) (ended : Bool) :
      Took s (.connect bytes ended) { s with backlog := s.backlog ++ [.incoming bytes ended] }
  | arrive (fd : Fd) (bytes : Bytes) (isOpen : fd ∈ s.interest)
      (broken : (s.socket fd).broken = false) :
      Took s (.arrive fd bytes) (s.put fd ((s.socket fd).arrive bytes))
  | finish (fd : Fd) (isOpen : fd ∈ s.interest) (broken : (s.socket fd).broken = false) :
      Took s (.finish fd) (s.put fd (s.socket fd).finish)
  | reset (fd : Fd) (kept : Nat) (isOpen : fd ∈ s.interest) :
      Took s (.reset fd kept) (s.put fd ((s.socket fd).reset kept))
  | wake (batch : List Source) (waiting : s.pc = .waiting) (filled : batch ≠ [])
      (nodup : batch.Nodup) (reported : ∀ source ∈ batch, s.Reports source) :
      Took s (.wake batch) { s.clearReady batch with pc := .handling batch }
  | handled (handling : s.pc = .handling []) : Took s .next { s with pc := .waiting }
  | toAccept (batch : List Source) (handling : s.pc = .handling (.listener :: batch)) :
      Took s .next { s with pc := .accepting batch }
  | toRead (fd : Fd) (batch : List Source) (handling : s.pc = .handling (.socket fd :: batch)) :
      Took s .next { s with pc := .reading fd batch }
  | accept (fd : Fd) (batch : List Source) (k : Socket) (backlog : List Socket)
      (accepting : s.pc = .accepting batch) (front : s.backlog = k :: backlog)
      (free : fd ∉ s.interest) :
      Took s (.accept fd) { s.put fd { k with ready := decide k.Pending } with
        backlog := backlog, interest := insert fd s.interest }
  | acceptFails (batch : List Source) (accepting : s.pc = .accepting batch) :
      Took s .acceptFails { s with pc := .handling batch }
  | close (fd : Fd) (batch : List Source) (size : Nat) (reading : s.pc = .reading fd batch)
      (why : fd ∉ s.interest ∨ (s.socket fd).unread = [] ∧
        ((s.socket fd).ended = true ∨ (s.socket fd).broken = true)) :
      Took s (.recv size) { s.closeConnection fd with pc := .handling batch }
  | receive (fd : Fd) (batch : List Source) (size : Nat) (reading : s.pc = .reading fd batch)
      (isOpen : fd ∈ s.interest) (positive : 0 < size) (small : size ≤ 4096)
      (inside : size ≤ (s.socket fd).unread.length) :
      Took s (.recv size) (s.put fd ((s.socket fd).receive size))
  | again (fd : Fd) (batch : List Source) (size : Nat) (reading : s.pc = .reading fd batch)
      (nothing : ¬(s.socket fd).Pending) : Took s (.recv size) { s with pc := .handling batch }

theorem took_of_step (s s' : EventLoop) (event : Event) (taken : step s event = some s') :
    Took s event s' := by
  cases event with
  | connect bytes ended =>
    cases taken
    exact .connect bytes ended
  | arrive fd bytes =>
    simp only [step] at taken
    split at taken <;> cases taken
    next allowed => exact .arrive fd bytes allowed.1 allowed.2.2.2
  | finish fd =>
    simp only [step] at taken
    split at taken <;> cases taken
    next allowed => exact .finish fd allowed.1 allowed.2
  | reset fd kept =>
    simp only [step] at taken
    split at taken <;> cases taken
    next isOpen => exact .reset fd kept isOpen
  | wake batch =>
    simp only [step] at taken
    split at taken
    next waiting =>
      split at taken <;> cases taken
      next allowed => exact .wake batch waiting allowed.1 allowed.2.2.1 allowed.2.2.2
    next => cases taken
  | next =>
    simp only [step] at taken
    split at taken <;> cases taken
    next handling => exact .handled handling
    next batch handling => exact .toAccept batch handling
    next fd batch handling => exact .toRead fd batch handling
  | accept fd =>
    simp only [step] at taken
    split at taken
    next batch k backlog accepting front =>
      split at taken <;> cases taken
      next free => exact .accept fd batch k backlog accepting front free
    next => cases taken
  | acceptFails =>
    simp only [step] at taken
    split at taken <;> cases taken
    next batch accepting => exact .acceptFails batch accepting
  | recv size =>
    simp only [step] at taken
    split at taken
    next fd batch reading =>
      split at taken
      next gone =>
        cases taken
        exact .close fd batch size reading (.inl gone)
      next isOpen =>
        split at taken
        next =>
          split at taken <;> cases taken
          next sizes =>
            exact .receive fd batch size reading (Decidable.not_not.mp isOpen) sizes.1 sizes.2.1
              sizes.2.2
        next empty =>
          split at taken <;> cases taken
          next finished =>
            exact .close fd batch size reading (.inr ⟨Decidable.not_not.mp empty,finished⟩)
          next going =>
            exact .again fd batch size reading fun pending => pending.elim empty going
    next => cases taken

/-- What the loop keeps: whatever `recv` would give is announced by epoll or is going to be read;
what the loop is going to read is open, and comes once. -/
structure Tended (s : EventLoop) : Prop where
  watched : ∀ fd ∈ s.interest, (s.socket fd).Pending →
    (s.socket fd).ready = true ∨ .socket fd ∈ s.pc.sources
  known : ∀ fd, .socket fd ∈ s.pc.sources → fd ∈ s.interest
  nodup : s.pc.sources.Nodup
  ordered : ∀ fd ∈ s.interest, (s.socket fd).Ordered
  fresh : ∀ k ∈ s.backlog, ∃ bytes ended, k = .incoming bytes ended
  closed : ∀ k ∈ s.closed, k.Ordered ∧ (k.broken = false → k.chunks.flatten = k.arrived)

theorem start_tended : start.Tended where
  watched := by simp [start]
  known := by simp [start,LoopPc.sources]
  nodup := by simp [start,LoopPc.sources]
  ordered := by simp [start]
  fresh := by simp [start]
  closed := by simp [start]

variable {s s' : EventLoop} {event : Event}

theorem Tended.put (tended : s.Tended) (fd : Fd) (k : Socket) (ordered : k.Ordered)
    (watched : k.Pending → k.ready = true ∨ .socket fd ∈ s.pc.sources) : (s.put fd k).Tended := by
  refine ⟨fun other isOpen => ?_,tended.known,tended.nodup,fun other isOpen => ?_,tended.fresh,
    tended.closed⟩
  all_goals
    by_cases same : other = fd
  · subst same
    simpa [EventLoop.put] using watched
  · simpa [EventLoop.put,same] using tended.watched other isOpen
  · subst same
    simpa [EventLoop.put] using ordered
  · simpa [EventLoop.put,same] using tended.ordered other isOpen

theorem Tended.goTo (tended : s.Tended) (pc : LoopPc) (sources : pc.sources.Sublist s.pc.sources)
    (left : ∀ fd ∈ s.interest, .socket fd ∈ s.pc.sources → .socket fd ∉ pc.sources →
      ¬(s.socket fd).Pending) : { s with pc := pc }.Tended where
  watched := by
    intro fd isOpen pending
    rcases tended.watched fd isOpen pending with ready | coming
    · exact .inl ready
    · by_contra lost
      exact left fd isOpen coming (fun still => lost (.inr still)) pending
  known := fun fd coming => tended.known fd (sources.subset coming)
  nodup := tended.nodup.sublist sources
  ordered := tended.ordered
  fresh := tended.fresh
  closed := tended.closed

theorem Tended.wake (tended : s.Tended) (batch : List Source) (waiting : s.pc = .waiting)
    (nodup : batch.Nodup) (reported : ∀ source ∈ batch, s.Reports source) :
    Tended { s.clearReady batch with pc := .handling batch } := by
  refine ⟨fun fd isOpen pending => ?_,fun fd coming => (reported _ coming).1,nodup,
    fun fd isOpen => ?_,tended.fresh,tended.closed⟩
  · by_cases coming : Source.socket fd ∈ batch
    · exact .inr coming
    · simp only [clearReady,if_neg coming] at pending ⊢
      rcases tended.watched fd isOpen pending with ready | absent
      · exact .inl ready
      · rw [waiting] at absent
        cases absent
  · have ordered := tended.ordered fd isOpen
    by_cases coming : Source.socket fd ∈ batch
    · simp only [clearReady,if_pos coming]
      exact ordered.ready false
    · simpa only [clearReady,if_neg coming] using ordered

theorem Tended.accept (tended : s.Tended) (fd : Fd) (k : Socket) (backlog : List Socket)
    (front : s.backlog = k :: backlog) (free : fd ∉ s.interest) :
    Tended { s.put fd { k with ready := decide k.Pending } with
      backlog := backlog, interest := insert fd s.interest } := by
  have fresh := tended.fresh
  rw [front] at fresh
  obtain ⟨bytes,ended,rfl⟩ := fresh k List.mem_cons_self
  refine ⟨fun other isOpen pending => ?_,fun other coming => ?_,tended.nodup,fun other isOpen => ?_,
    fun other member => fresh other (List.mem_cons_of_mem _ member),tended.closed⟩
  · by_cases same : other = fd
    · subst same
      simp only [EventLoop.put,Function.update_self] at pending ⊢
      exact .inl (decide_eq_true pending)
    · simp only [EventLoop.put,Function.update_of_ne same] at pending ⊢
      exact tended.watched other ((Finset.mem_insert.mp isOpen).resolve_left same) pending
  · exact Finset.mem_insert_of_mem (tended.known other coming)
  · by_cases same : other = fd
    · subst same
      simp only [EventLoop.put,Function.update_self]
      exact (Socket.Ordered.incoming bytes ended).ready _
    · simp only [EventLoop.put,Function.update_of_ne same]
      exact tended.ordered other ((Finset.mem_insert.mp isOpen).resolve_left same)

/-- A connection is closed when all of it has been received, or when it was reset. -/
theorem Tended.close (tended : s.Tended) (fd : Fd) (batch : List Source)
    (reading : s.pc = .reading fd batch)
    (read : (s.socket fd).unread = []) :
    Tended { s.closeConnection fd with pc := .handling batch } := by
  have known := tended.known
  have nodup := tended.nodup
  simp only [reading,LoopPc.sources] at known nodup
  obtain ⟨once,nodup⟩ := List.nodup_cons.mp nodup
  have isOpen := known fd List.mem_cons_self
  have ordered := tended.ordered fd isOpen
  refine ⟨fun other inside pending => ?_,fun other coming => ?_,nodup,fun other inside => ?_,
    tended.fresh,fun k member => ?_⟩
  · obtain ⟨apart,inside⟩ := Finset.mem_erase.mp inside
    have watched := tended.watched other inside pending
    simpa [reading,LoopPc.sources,apart,closeConnection] using watched
  · refine Finset.mem_erase.mpr ⟨?_,known other (List.mem_cons_of_mem _ coming)⟩
    rintro rfl
    exact once coming
  · exact tended.ordered other (Finset.mem_of_mem_erase inside)
  · rcases List.mem_append.mp member with old | new
    · exact tended.closed k old
    · cases List.mem_singleton.mp new
      refine ⟨ordered,fun whole => ?_⟩
      have all := ordered.all whole
      rwa [read,List.append_nil] at all

theorem Took.tended (took : Took s event s') (tended : s.Tended) : s'.Tended := by
  cases took with
  | connect bytes ended =>
    refine ⟨tended.watched,tended.known,tended.nodup,tended.ordered,fun k member => ?_,tended.closed⟩
    rcases List.mem_append.mp member with old | new
    · exact tended.fresh k old
    · exact ⟨bytes,ended,List.mem_singleton.mp new⟩
  | arrive fd bytes isOpen broken =>
    exact tended.put fd _ ((tended.ordered fd isOpen).arrive bytes broken) fun _ => .inl rfl
  | finish fd isOpen broken =>
    exact tended.put fd _ (tended.ordered fd isOpen).finish fun _ => .inl rfl
  | reset fd kept isOpen =>
    exact tended.put fd _ ((tended.ordered fd isOpen).reset kept) fun _ => .inl rfl
  | wake batch waiting filled nodup reported => exact tended.wake batch waiting nodup reported
  | handled handling =>
    apply tended.goTo .waiting
    · exact List.nil_sublist _
    · simp [handling,LoopPc.sources]
  | toAccept batch handling =>
    apply tended.goTo (.accepting batch)
    · rw [handling]
      exact List.Sublist.refl _
    · intro other _ coming lost
      rw [handling] at coming
      exact absurd coming lost
  | toRead fd batch handling =>
    apply tended.goTo (.reading fd batch)
    · rw [handling]
      exact List.Sublist.refl _
    · intro other _ coming lost
      rw [handling] at coming
      exact absurd coming lost
  | accept fd batch k backlog accepting front free => exact tended.accept fd k backlog front free
  | acceptFails batch accepting =>
    apply tended.goTo (.handling batch)
    · rw [accepting]
      exact List.sublist_cons_self _ _
    · intro other _ coming lost
      rw [accepting] at coming
      exact absurd (List.mem_of_ne_of_mem Source.noConfusion coming) lost
  | close fd batch size reading why =>
    have isOpen : fd ∈ s.interest := tended.known fd (by rw [reading]; exact List.mem_cons_self)
    exact tended.close fd batch reading (why.resolve_left (absurd isOpen)).1
  | receive fd batch size reading isOpen positive small inside =>
    refine tended.put fd _ ((tended.ordered fd isOpen).receive size positive small inside) fun _ => ?_
    rw [reading]
    exact .inr List.mem_cons_self
  | again fd batch size reading nothing =>
    apply tended.goTo (.handling batch)
    · rw [reading]
      exact List.sublist_cons_self _ _
    · intro other _ coming lost
      rw [reading] at coming
      rcases List.mem_cons.mp coming with same | later
      · cases same
        exact nothing
      · exact absurd later lost

theorem tended_of_run (events : List Event) (t : EventLoop)
    (ran : Machine.run step start events = some t) : t.Tended :=
  Machine.invariant_of_run step (fun _ => True) Tended
    (fun s event s' tended _ taken => (took_of_step s s' event taken).tended tended) start t events
    start_tended (fun _ _ => trivial) ran

/-- The loop, and not the world around it; `accept` finds descriptors for the connections. -/
def Turns (s : EventLoop) : Event → Prop
  | .connect _ _ | .arrive _ _ | .finish _ | .reset _ _ => False
  | .acceptFails => s.backlog = []
  | _ => True

/-- The loop waits; all that has come was handed on, in order and in chunks that `recv` gives. -/
def Served (s : EventLoop) : Prop :=
  s.pc = .waiting ∧ s.backlog = [] ∧ ∀ fd ∈ s.interest,
    (s.socket fd).ended = false ∧ (s.socket fd).broken = false ∧
      (s.socket fd).chunks.flatten = (s.socket fd).arrived ∧
      ∀ chunk ∈ (s.socket fd).chunks, 0 < chunk.length ∧ chunk.length ≤ 4096

theorem Tended.served (tended : s.Tended) (waiting : s.pc = .waiting) (accepted : s.backlog = [])
    (nothing : ∀ fd ∈ s.interest, ¬(s.socket fd).Pending) : s.Served := by
  refine ⟨waiting,accepted,fun fd isOpen => ?_⟩
  have empty := nothing fd isOpen
  have ordered := tended.ordered fd isOpen
  simp only [Socket.Pending,not_or,Decidable.not_not,Bool.not_eq_true] at empty
  obtain ⟨unread,ended,broken⟩ := empty
  have all := ordered.all broken
  rw [unread,List.append_nil] at all
  exact ⟨ended,broken,all,ordered.sized⟩

/-- Nothing is left unread. When the loop waits and epoll has nothing to report, all that has
arrived at open connections was handed to the pool; and a connection that was closed without a
reset had been read to its end. -/
theorem nothing_left_unread (events : List Event) (s : EventLoop)
    (ran : Machine.run step start events = some s) :
    (s.pc = .waiting → (∀ source, ¬s.Reports source) → s.Served) ∧
      ∀ k ∈ s.closed, k.broken = false → k.chunks.flatten = k.arrived := by
  have tended := tended_of_run events s ran
  refine ⟨fun waiting silent => ?_,fun k member => (tended.closed k member).2⟩
  apply tended.served waiting
  · exact Decidable.not_not.mp (silent .listener)
  · intro fd isOpen pending
    rcases tended.watched fd isOpen pending with ready | coming
    · exact silent (.socket fd) ⟨isOpen,ready⟩
    · rw [waiting] at coming
      cases coming

/-- A peer sends, closes its side and is read to its end while the loop has one more to accept. -/
def readToEnd : List Event :=
  [.connect (ascii "ab") false,.wake [.listener],.next,.accept 5,.acceptFails,.next,.finish 5,
    .wake [.socket 5],.next,.recv 2,.recv 1,.next]

theorem nothing_left_unread_closed :
    ∃ s, Machine.run step start readToEnd = some s ∧
      s.closed.map (fun k => (k.arrived,k.chunks)) = [(ascii "ab",[ascii "ab"])] ∧ s.Served ∧
      ∀ k ∈ s.closed, k.broken = false → k.chunks.flatten = k.arrived := by
  have ends : (Machine.run step start readToEnd).map (fun s => (s.pc,s.interest,s.backlog)) =
      some (.waiting,∅,[]) := by decide +kernel
  have closes : (Machine.run step start readToEnd).map (fun s =>
      s.closed.map fun k => (k.arrived,k.chunks)) = some [(ascii "ab",[ascii "ab"])] := by
    decide +kernel
  obtain ⟨s,ran,facts⟩ := Option.map_eq_some_iff.mp ends
  rw [ran] at closes
  simp only [Option.map_some,Option.some.injEq,Prod.mk.injEq] at facts closes
  obtain ⟨waiting,interest,backlog⟩ := facts
  obtain ⟨served,read⟩ := nothing_left_unread readToEnd s ran
  refine ⟨s,ran,closes,served waiting ?_,read⟩
  rintro (_ | fd)
  · simp [Reports,backlog]
  · simp [Reports,interest]

def load (k : Socket) : Nat := k.unread.length + 5 * k.ready.toNat

def announced (s : EventLoop) : Nat :=
  if s.backlog ≠ [] ∧ .listener ∉ s.pc.sources then 5 else 0

def effort (s : EventLoop) : Nat :=
  ∑ fd ∈ s.interest, load (s.socket fd) + (s.backlog.map fun k => k.unread.length + 6).sum +
    s.announced + s.pc.cost

theorem load_clearReady (s : EventLoop) (batch : List Source) (nodup : batch.Nodup)
    (reported : ∀ source ∈ batch, s.Reports source) :
    ∑ fd ∈ s.interest, load (s.socket fd) + 5 * batch.count .listener =
      ∑ fd ∈ s.interest, load ((s.clearReady batch).socket fd) + 5 * batch.length := by
  induction batch with
  | nil => simp [clearReady]
  | cons source batch ih =>
    obtain ⟨once,nodup⟩ := List.nodup_cons.mp nodup
    have rest := ih nodup fun other member => reported other (List.mem_cons_of_mem _ member)
    cases source with
    | listener =>
      have same : (s.clearReady (.listener :: batch)).socket = (s.clearReady batch).socket := by
        simp [clearReady]
      rw [same,List.count_cons_self,List.length_cons]
      omega
    | socket fd =>
      obtain ⟨isOpen,ready⟩ := reported _ List.mem_cons_self
      have changed := Machine.sum_changed s.interest fd isOpen
        (fun other => load ((s.clearReady batch).socket other))
        (fun other => load ((s.clearReady (.socket fd :: batch)).socket other)) fun other apart => by
          simp [clearReady,apart]
      have before : load ((s.clearReady batch).socket fd) =
          load ((s.clearReady (.socket fd :: batch)).socket fd) + 5 := by
        simp [clearReady,once,load,ready]
      rw [List.count_cons_of_ne Source.noConfusion,List.length_cons]
      omega

theorem effort_wake (s : EventLoop) (batch : List Source) (waiting : s.pc = .waiting)
    (filled : batch ≠ []) (nodup : batch.Nodup) (reported : ∀ source ∈ batch, s.Reports source) :
    effort { s.clearReady batch with pc := .handling batch } < effort s := by
  have cleared := load_clearReady s batch nodup reported
  have positive := List.length_pos_iff.mpr filled
  have listener : 5 * batch.count .listener +
      announced { s.clearReady batch with pc := .handling batch } ≤ announced s := by
    by_cases coming : Source.listener ∈ batch
    · have one := List.nodup_iff_count_le_one.mp nodup .listener
      have backlog : s.backlog ≠ [] := reported _ coming
      simp only [announced,waiting,LoopPc.sources,coming,backlog,clearReady,ne_eq,not_false_eq_true,
        not_true,List.not_mem_nil,and_self,and_false,if_true,if_false]
      omega
    · rw [List.count_eq_zero.mpr coming]
      simp [announced,waiting,LoopPc.sources,coming,clearReady]
  simp only [effort,waiting,LoopPc.cost,clearReady] at cleared listener ⊢
  omega

theorem effort_accept (s : EventLoop) (fd : Fd) (batch : List Source) (k : Socket)
    (backlog : List Socket) (accepting : s.pc = .accepting batch) (front : s.backlog = k :: backlog)
    (free : fd ∉ s.interest) :
    effort { s.put fd { k with ready := decide k.Pending } with
      backlog := backlog, interest := insert fd s.interest } < effort s := by
  have others : ∑ other ∈ s.interest, load (Function.update s.socket fd
        { k with ready := decide k.Pending } other) = ∑ other ∈ s.interest, load (s.socket other) := by
    apply Finset.sum_congr rfl
    intro other inside
    have apart : other ≠ fd := fun same => free (same ▸ inside)
    rw [Function.update_of_ne apart]
  have new : load { k with ready := decide k.Pending } ≤ k.unread.length + 5 := by
    have bit := Bool.toNat_le (decide k.Pending)
    simp only [load]
    omega
  simp only [effort,announced,EventLoop.put,accepting,front,LoopPc.sources,List.mem_cons,true_or,
    not_true,and_false,if_false,Finset.sum_insert free,Function.update_self,others,List.map_cons,
    List.sum_cons]
  omega

theorem Took.effort_less (took : Took s event s') (turns : s.Turns event) : effort s' < effort s := by
  cases took with
  | connect bytes ended => cases turns
  | arrive fd bytes isOpen broken => cases turns
  | finish fd isOpen broken => cases turns
  | reset fd kept isOpen => cases turns
  | wake batch waiting filled nodup reported => exact effort_wake s batch waiting filled nodup reported
  | handled handling => simp [effort,announced,handling,LoopPc.sources,LoopPc.cost]
  | toAccept batch handling =>
    simp [effort,announced,handling,LoopPc.sources,LoopPc.cost]
    omega
  | toRead fd batch handling =>
    simp [effort,announced,handling,LoopPc.sources,LoopPc.cost]
    omega
  | accept fd batch k backlog accepting front free =>
    exact effort_accept s fd batch k backlog accepting front free
  | acceptFails batch accepting =>
    have empty : s.backlog = [] := turns
    simp [effort,announced,accepting,empty,LoopPc.cost]
  | close fd batch size reading why =>
    have fewer : ∑ other ∈ s.interest.erase fd, load (s.socket other) ≤
        ∑ other ∈ s.interest, load (s.socket other) := by
      by_cases isOpen : fd ∈ s.interest
      · rw [← Finset.add_sum_erase s.interest (fun other => load (s.socket other)) isOpen]
        exact Nat.le_add_left _ _
      · rw [Finset.erase_eq_of_notMem isOpen]
    simp only [effort,announced,closeConnection,reading,LoopPc.sources,LoopPc.cost,List.mem_cons,
      reduceCtorEq,false_or]
    omega
  | receive fd batch size reading isOpen positive small inside =>
    have changed := Machine.sum_changed s.interest fd isOpen (fun other => load (s.socket other))
      (fun other => load (Function.update s.socket fd ((s.socket fd).receive size) other))
      fun other apart => by rw [Function.update_of_ne apart]
    have less : load ((s.socket fd).receive size) + size = load (s.socket fd) := by
      simp only [load,Socket.receive,List.length_drop]
      omega
    have same : (s.put fd ((s.socket fd).receive size)).announced = s.announced := rfl
    simp only [Function.update_self] at changed
    simp only [effort,same]
    simp only [EventLoop.put]
    omega
  | again fd batch size reading nothing =>
    have same : announced { s with pc := .handling batch } = s.announced :=
      if_congr (by simp [reading,LoopPc.sources]) rfl rfl
    simp only [effort,same,reading,LoopPc.cost]
    omega

/-- Until everything is served, the loop can go on. -/
theorem Tended.progress (tended : s.Tended) (unserved : ¬s.Served) :
    ∃ event s', s.Turns event ∧ step s event = some s' := by
  cases pc : s.pc with
  | handling batch =>
    rcases batch with _ | ⟨_ | fd,batch⟩
    all_goals exact ⟨.next,_,trivial,by simp only [step,pc]; rfl⟩
  | accepting batch =>
    cases backlog : s.backlog with
    | nil => exact ⟨.acceptFails,_,backlog,by simp only [step,pc]; rfl⟩
    | cons k rest =>
      obtain ⟨fd,free⟩ := Infinite.exists_notMem_finset s.interest
      exact ⟨.accept fd,_,trivial,by simp only [step,pc,backlog,if_neg free]; rfl⟩
  | reading fd batch =>
    by_cases gone : fd ∉ s.interest
    · exact ⟨.recv 1,_,trivial,by simp only [step,pc,if_pos gone]; rfl⟩
    by_cases unread : (s.socket fd).unread ≠ []
    · have sized : 0 < 1 ∧ 1 ≤ 4096 ∧ 1 ≤ (s.socket fd).unread.length :=
        ⟨by omega,by omega,List.length_pos_iff.mpr unread⟩
      exact ⟨.recv 1,_,trivial,by simp only [step,pc,if_neg gone,if_pos unread,if_pos sized]; rfl⟩
    · by_cases finished : (s.socket fd).ended = true ∨ (s.socket fd).broken = true
      · exact ⟨.recv 1,_,trivial,by simp only [step,pc,if_neg gone,if_neg unread,if_pos finished]; rfl⟩
      · exact ⟨.recv 1,_,trivial,by simp only [step,pc,if_neg gone,if_neg unread,if_neg finished]; rfl⟩
  | waiting =>
    have reported : ∃ source, s.Reports source := by
      by_contra silent
      rw [not_exists] at silent
      refine unserved (tended.served pc (Decidable.not_not.mp (silent .listener)) ?_)
      intro fd isOpen pending
      rcases tended.watched fd isOpen pending with ready | coming
      · exact silent (.socket fd) ⟨isOpen,ready⟩
      · rw [pc] at coming
        cases coming
    obtain ⟨source,reports⟩ := reported
    have allowed : [source] ≠ [] ∧ [source].length ≤ 1024 ∧ [source].Nodup ∧
        ∀ other ∈ [source], s.Reports other := by
      simpa using reports
    exact ⟨.wake [source],_,trivial,by simp only [step,pc,if_pos allowed]; rfl⟩

/-- The loop gets to everything. Whatever has happened before, and in whatever order epoll
reports and `recv` gives bytes: if nothing more comes, the loop accepts every connection, hands on
everything that has arrived, closes what has ended, and waits. -/
theorem loop_serves_all (events : List Event) (s : EventLoop)
    (ran : Machine.run step start events = some s) : Machine.Inevitable step Turns Served s := by
  refine Machine.inevitable_of_measure step (· < ·) Nat.lt_wfRel.wf effort Turns Served Tended ?_ ?_
    (fun s tended unserved => tended.progress unserved) s (tended_of_run events s ran)
  · intro s event s' tended _ taken
    exact (took_of_step s s' event taken).tended tended
  · intro s event s' _ turns taken
    exact (took_of_step s s' event taken).effort_less turns

/-- One connection is half read and another one waits to be accepted. -/
def underWay : List Event :=
  [.connect (ascii "ab") false,.wake [.listener],.next,.accept 5,.connect (ascii "c") true,
    .acceptFails,.next,.wake [.socket 5,.listener],.next,.recv 1,.arrive 5 (ascii "d")]

theorem loop_serves_all_underWay :
    ∃ s, Machine.run step start underWay = some s ∧ s.pc = .reading 5 [.listener] ∧
      (s.socket 5).unread = ascii "bd" ∧ s.backlog.length = 1 ∧
      Machine.Inevitable step Turns Served s := by
  have ends : (Machine.run step start underWay).map (fun s =>
      (s.pc,(s.socket 5).unread,s.backlog.length)) =
        some (.reading 5 [.listener],ascii "bd",1) := by decide +kernel
  obtain ⟨s,ran,facts⟩ := Option.map_eq_some_iff.mp ends
  simp only [Prod.mk.injEq] at facts
  exact ⟨s,ran,facts.1,facts.2.1,facts.2.2,loop_serves_all underWay s ran⟩

end EventLoop
end KvCache
