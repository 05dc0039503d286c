import KvCache.KvServer
import KvCache.Machine

/-! What becomes of the replies. The task that `HandleRead` submits gives its reply to `send`
once and does not look at the answer; `HandleWrite` sends what `write_buffers_` keeps for a
connection, as often as the socket accepts some of it. Nothing is ever put there. -/
namespace KvCache

inductive SendAnswer where
  | accepts (n : Nat)
  | again
  | failed
  deriving DecidableEq, Repr

/-- The size is cast to `int`, and back to `size_t` by the call. -/
def sendSize (bytes : Bytes) : Nat := ((bytes.length : Int).bmod (2 ^ 32) % 2 ^ 64).toNat

def send (bytes : Bytes) : SendAnswer → Option Bytes
  | .accepts n => if n ≤ sendSize bytes ∧ n ≤ bytes.length then some (bytes.take n) else none
  | .again | .failed => some []

/-- The connections, with what each has been given: the replies produced for it, and the bytes
that `send` has accepted. -/
structure TcpServer where
  isOpen : Fd → Bool
  writeBuffers : Fd → Option Bytes
  produced : Fd → Bytes
  accepted : Fd → Bytes

/-- A connection is accepted, a task ends with a reply, a socket becomes writable, or a
connection is closed. -/
inductive ServerEvent where
  | accept (fd : Fd)
  | reply (fd : Fd) (resp : Bytes) (answer : SendAnswer)
  | writable (fd : Fd) (answers : List SendAnswer)
  | close (fd : Fd)
  deriving DecidableEq, Repr

namespace TcpServer

def start : TcpServer := ⟨fun _ => false,fun _ => none,fun _ => [],fun _ => []⟩

def handleAccept (s : TcpServer) (fd : Fd) : TcpServer :=
  { s with isOpen := Function.update s.isOpen fd true
           produced := Function.update s.produced fd []
           accepted := Function.update s.accepted fd [] }

def closeConnection (s : TcpServer) (fd : Fd) : TcpServer :=
  { s with isOpen := Function.update s.isOpen fd false
           writeBuffers := Function.update s.writeBuffers fd none }

def accept (s : TcpServer) (fd : Fd) (bytes : Bytes) : TcpServer :=
  { s with accepted := Function.update s.accepted fd (s.accepted fd ++ bytes) }

def setBuffer (s : TcpServer) (fd : Fd) (buffer : Option Bytes) : TcpServer :=
  { s with writeBuffers := Function.update s.writeBuffers fd buffer }

def reply (s : TcpServer) (fd : Fd) (resp : Bytes) (answer : SendAnswer) : Option TcpServer :=
  let s := { s with produced := Function.update s.produced fd (s.produced fd ++ resp) }
  if resp = [] then some s
  else (send resp answer).map fun bytes => s.accept fd bytes

/-- The loop of `HandleWrite`, with the answers of its `send`s: the bytes accepted, and what is
left of the buffer, or nothing where the connection has failed. -/
def flush : List SendAnswer → Bytes → Option (Bytes × Option Bytes)
  | _, [] => some ([],some [])
  | [], _ :: _ => none
  | .again :: _, buffer => some ([],some buffer)
  | .failed :: _, _ => some ([],none)
  | .accepts n :: answers, buffer => do
    let now ← send buffer (.accepts n)
    let (later,rest) ← flush answers (buffer.drop n)
    return (now ++ later,rest)

def handleWrite (s : TcpServer) (fd : Fd) (answers : List SendAnswer) : Option TcpServer :=
  match s.writeBuffers fd with
  | none => some s
  | some buffer => (flush answers buffer).map fun
    | (bytes,none) => (s.accept fd bytes).closeConnection fd
    | (bytes,some []) => (s.accept fd bytes).setBuffer fd none
    | (bytes,some rest) => (s.accept fd bytes).setBuffer fd (some rest)

def step (s : TcpServer) : ServerEvent → Option TcpServer
  | .accept fd => if s.isOpen fd then none else some (s.handleAccept fd)
  | .reply fd resp answer => if s.isOpen fd then s.reply fd resp answer else none
  | .writable fd answers => if s.isOpen fd then s.handleWrite fd answers else none
  | .close fd => if s.isOpen fd then some (s.closeConnection fd) else none

def waiting (s : TcpServer) (fd : Fd) : Bytes := (s.writeBuffers fd).getD []

/-- No byte is dropped: what has been accepted and what waits are the replies produced. -/
def Delivered (s : TcpServer) : Prop :=
  ∀ fd, s.isOpen fd = true → s.accepted fd ++ s.waiting fd = s.produced fd

/-- Nothing is accepted twice and nothing is skipped, whatever `send` answers. -/
theorem flush_append (answers : List SendAnswer) (buffer bytes rest : Bytes)
    (flushed : flush answers buffer = some (bytes,some rest)) : bytes ++ rest = buffer := by
  induction answers generalizing buffer bytes with
  | nil =>
    cases buffer with
    | nil => cases flushed; rfl
    | cons b buffer => cases flushed
  | cons answer answers ih =>
    cases buffer with
    | nil => cases flushed; rfl
    | cons b buffer =>
      cases answer with
      | again => cases flushed; rfl
      | failed => cases flushed
      | accepts n =>
        simp only [flush,send,bind,Option.bind_eq_some_iff,Option.ite_none_right_eq_some,
          Option.some.injEq] at flushed
        obtain ⟨now,⟨-,rfl⟩,⟨later,last⟩,inner,shape⟩ := flushed
        cases shape
        rw [List.append_assoc,ih _ later inner,List.take_append_drop]

theorem delivered_of_closed (s : TcpServer) (fd : Fd)
    (others : ∀ other, other ≠ fd → s.isOpen other = true →
      s.accepted other ++ s.waiting other = s.produced other) : (s.closeConnection fd).Delivered := by
  intro other isOpen
  by_cases same : other = fd
  · subst same
    simp [closeConnection] at isOpen
  · simp only [closeConnection,waiting,Function.update_of_ne same] at isOpen ⊢
    exact others other same isOpen

theorem Delivered.shift {s : TcpServer} (delivered : s.Delivered) (fd : Fd) (bytes : Bytes)
    (buffer : Option Bytes) (same : bytes ++ buffer.getD [] = s.waiting fd) :
    ((s.accept fd bytes).setBuffer fd buffer).Delivered := by
  intro other isOpen
  have before := delivered other isOpen
  by_cases here : other = fd
  · subst here
    simp only [accept,setBuffer,waiting,Function.update_self,List.append_assoc,same]
    exact before
  · simp only [accept,setBuffer,waiting,Function.update_of_ne here]
    exact before

theorem Delivered.handleWrite {s t : TcpServer} (delivered : s.Delivered) (fd : Fd)
    (answers : List SendAnswer) (taken : s.handleWrite fd answers = some t) : t.Delivered := by
  unfold TcpServer.handleWrite at taken
  cases found : s.writeBuffers fd with
  | none =>
    simp only [found,Option.some.injEq] at taken
    exact taken ▸ delivered
  | some buffer =>
    have held : s.waiting fd = buffer := by simp [waiting,found]
    simp only [found,Option.map_eq_some_iff] at taken
    obtain ⟨⟨bytes,left⟩,flushed,rfl⟩ := taken
    cases left with
    | none =>
      refine delivered_of_closed (s.accept fd bytes) fd fun other here isOpen => ?_
      simp only [accept,waiting,Function.update_of_ne here]
      exact delivered other isOpen
    | some rest =>
      have joined := flush_append answers buffer bytes rest flushed
      cases rest with
      | nil => exact delivered.shift fd bytes none (by simpa [held] using joined)
      | cons b rest => exact delivered.shift fd bytes (some (b :: rest)) (by simpa [held] using joined)

structure Flowing (s : TcpServer) : Prop where
  delivered : s.Delivered
  unbuffered : ∀ fd, s.writeBuffers fd = none

theorem start_flowing : start.Flowing := ⟨fun _ isOpen => (by cases isOpen),fun _ => rfl⟩

def SendsWhole (_ : TcpServer) : ServerEvent → Prop
  | .reply _ resp answer => resp = [] ∨ answer = .accepts resp.length
  | .accept _ | .writable _ _ | .close _ => True

instance (s : TcpServer) : DecidablePred s.SendsWhole
  | .reply _ _ _ => inferInstanceAs (Decidable (_ ∨ _))
  | .accept _ | .writable _ _ | .close _ => .isTrue trivial

theorem reply_accepts (s t : TcpServer) (fd : Fd) (resp : Bytes) (answer : SendAnswer)
    (taken : s.reply fd resp answer = some t) :
    ∃ bytes, t = { s with produced := Function.update s.produced fd (s.produced fd ++ resp)
                          accepted := Function.update s.accepted fd (s.accepted fd ++ bytes) } ∧
      (bytes = resp ↔ resp = [] ∨ answer = .accepts resp.length) := by
  unfold TcpServer.reply at taken
  by_cases empty : resp = []
  · rw [if_pos empty,Option.some.injEq] at taken
    exact ⟨[],by rw [← taken]; simp,by simp [empty]⟩
  · rw [if_neg empty] at taken
    obtain ⟨bytes,sent,rfl⟩ := Option.map_eq_some_iff.mp taken
    refine ⟨bytes,rfl,?_⟩
    cases answer with
    | accepts n =>
      simp only [send,Option.ite_none_right_eq_some,Option.some.injEq] at sent
      obtain ⟨⟨-,within⟩,rfl⟩ := sent
      simp only [List.take_eq_self_iff,empty,SendAnswer.accepts.injEq,false_or]
      omega
    | again | failed =>
      cases sent
      simp [empty,eq_comm]

theorem Flowing.reply {s t : TcpServer} (flowing : s.Flowing) (fd : Fd) (resp : Bytes)
    (answer : SendAnswer) (whole : resp = [] ∨ answer = .accepts resp.length)
    (taken : s.reply fd resp answer = some t) : t.Flowing := by
  obtain ⟨bytes,rfl,all⟩ := reply_accepts s t fd resp answer taken
  obtain rfl := all.mpr whole
  refine ⟨fun other isOpen => ?_,flowing.unbuffered⟩
  have before := flowing.delivered other isOpen
  simp only [waiting,flowing.unbuffered,Option.getD_none,List.append_nil] at before ⊢
  by_cases here : other = fd
  · subst here
    simp [before]
  · simp [Function.update_of_ne here,before]

theorem Flowing.step {s t : TcpServer} (flowing : s.Flowing) (event : ServerEvent)
    (whole : s.SendsWhole event) (taken : s.step event = some t) : t.Flowing := by
  cases event with
  | accept fd =>
    simp only [TcpServer.step,Option.ite_none_left_eq_some,Option.some.injEq] at taken
    obtain ⟨-,rfl⟩ := taken
    refine ⟨fun other isOpen => ?_,flowing.unbuffered⟩
    by_cases here : other = fd
    · subst here
      simp [handleAccept,waiting,flowing.unbuffered]
    · simp only [handleAccept,waiting,Function.update_of_ne here] at isOpen ⊢
      exact flowing.delivered other isOpen
  | reply fd resp answer =>
    simp only [TcpServer.step,Option.ite_none_right_eq_some] at taken
    exact flowing.reply fd resp answer whole taken.2
  | writable fd answers =>
    simp only [TcpServer.step,Option.ite_none_right_eq_some] at taken
    refine ⟨flowing.delivered.handleWrite fd answers taken.2,?_⟩
    simp only [TcpServer.handleWrite,flowing.unbuffered,Option.some.injEq] at taken
    exact taken.2 ▸ flowing.unbuffered
  | close fd =>
    simp only [TcpServer.step,Option.ite_none_right_eq_some,Option.some.injEq] at taken
    obtain ⟨-,rfl⟩ := taken
    refine ⟨delivered_of_closed s fd fun other _ => flowing.delivered other,fun other => ?_⟩
    by_cases here : other = fd
    · subst here
      simp [closeConnection]
    · simp [closeConnection,Function.update_of_ne here,flowing.unbuffered]

/-- The bytes that the one `send` of a reply does not accept are nowhere. -/
theorem Flowing.dropped {s t : TcpServer} (flowing : s.Flowing) (event : ServerEvent)
    (partly : ¬s.SendsWhole event) (taken : s.step event = some t) : ¬t.Delivered := by
  cases event with
  | accept | writable | close => exact absurd trivial partly
  | reply fd resp answer =>
    simp only [TcpServer.step,Option.ite_none_right_eq_some] at taken
    obtain ⟨isOpen,taken⟩ := taken
    obtain ⟨bytes,rfl,all⟩ := reply_accepts s t fd resp answer taken
    intro delivered
    have before := flowing.delivered fd isOpen
    have after := delivered fd isOpen
    simp only [waiting,flowing.unbuffered,Option.getD_none,List.append_nil,
      Function.update_self] at before after
    rw [before] at after
    exact partly (all.mp (List.append_cancel_left after))

/-- No byte of a reply is dropped exactly in the runs where the one `send` of each reply accepts
all of it. -/
theorem replies_delivered_iff (events : List ServerEvent) (t : TcpServer)
    (ran : Machine.run step start events = some t) :
    Machine.Throughout step Delivered start events ↔ Machine.Guarded step SendsWhole start events :=
  Machine.throughout_iff_guarded_of_run step SendsWhole Flowing Delivered (fun _ => True)
    (fun _ flowing => flowing.delivered)
    (fun _ event _ flowing _ whole taken => flowing.step event whole taken)
    (fun _ event _ flowing _ partly taken => flowing.dropped event partly taken)
    start t events start_flowing (fun _ _ => trivial) ran

theorem replies_delivered_iff_whole :
    Machine.Throughout step Delivered start
      [.accept 5,.reply 5 (ascii "+OK\r\n") (.accepts 5),.writable 5 [],
       .reply 5 (ascii ":1\r\n") (.accepts 4)] :=
  (replies_delivered_iff _ _ rfl).mpr (by decide)

/-- The socket takes three bytes of a reply; the other two are not kept for `HandleWrite`. -/
theorem reply_cut_short :
    ∃ t, Machine.run step start
        [.accept 5,.reply 5 (ascii "+OK\r\n") (.accepts 3),.writable 5 [.accepts 2]] = some t ∧
      t.isOpen 5 = true ∧ t.produced 5 = ascii "+OK\r\n" ∧ t.accepted 5 = ascii "+OK" ∧
      t.waiting 5 = [] :=
  ⟨_,rfl,by decide,by decide,by decide,by decide⟩

end TcpServer

end KvCache
