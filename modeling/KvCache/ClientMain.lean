import KvCache.CliParser
import KvCache.ClientServer

/-! The client program: it reads lines, calls the server and prints what comes back. Any number of
users at their terminals see what they would see if their lines were entered one after another in
one shell over a plain map. -/
namespace KvCache

open Linearizability (Atomic CallState)

namespace ClientMain

def banner : Bytes := ascii "Connected. Type 'exit' to quit.\n"

def prompt : Bytes := ascii "> "

/-- What the loop does with a line: it ends, it prints a text without a call, or it makes a call. -/
inductive Outcome where
  | leave
  | say (text : Bytes)
  | call (op : ClientOp)
  deriving DecidableEq, Repr

/-- The `switch`. The parser gives each command the arguments that are taken from it. -/
def dispatch (cmd : Command) : Outcome :=
  match cmd.type with
  | .UNKNOWN =>
    if cmd.error = .UNKNOWN_COMMAND then .say (ascii "ERR unknown command\n")
    else .say (ascii "ERR wrong number of arguments\n")
  | .SET => .call (.set (cmd.args.getD 0 []) (cmd.args.getD 1 []))
  | .GET => .call (.get (cmd.args.getD 0 []))
  | .DEL => .call (.delete (cmd.args.getD 0 []))
  | .EXISTS => .call (.existsKey (cmd.args.getD 0 []))
  | .KEYS => .call .keys

def read (line : Bytes) : Outcome :=
  if line = ascii "exit" ∨ line = ascii "quit" then .leave
  else
    match CliParser.parse line with
    | none => .say []
    | some cmd => dispatch cmd

def shown : ClientOp → ClientReply → Bytes
  | .set _ _, .flag stored => ascii (if stored then "OK\n" else "ERR\n")
  | .get _, .value (some value) => value ++ ascii "\n"
  | .get _, .value none => ascii "(nil)\n"
  | .delete _, .flag deleted => ascii (if deleted then "1\n" else "0\n")
  | .existsKey _, .flag found => ascii (if found then "exists\n" else "not found\n")
  | .keys, .count n => ascii "total keys: " ++ decimal n ++ ascii "\n"
  | _, _ => []

def lines (stdin : Bytes) : List Bytes := InputStream.allLines isSpace 10#8 stdin

theorem oneKey_args (type : CommandType) (iss : InputStream Byte) :
    ∀ arg ∈ (CliParser.oneKey type iss).args, arg.Sublist iss.rest := by
  have key := (InputStream.extract_sublist isSpace iss).1
  simp only [CliParser.oneKey]
  split
  · simp
  · simpa using key

theorem parse_args (line : Bytes) (cmd : Command) (parsed : CliParser.parse line = some cmd) :
    ∀ arg ∈ cmd.args, arg.Sublist line := by
  have token := (InputStream.extract_sublist isSpace (.ofList line)).2
  simp only [CliParser.parse] at parsed
  generalize InputStream.extract isSpace (.ofList line) [] = first at parsed token
  have key := InputStream.extract_sublist isSpace first.2
  split at parsed
  · cases parsed
  split at parsed
  · split at parsed <;> cases parsed
    · simp
    · have value := (InputStream.getline_sublist isSpace 10#8 _).trans
        ((InputStream.ws_sublist isSpace _).trans key.2)
      simp only [List.forall_mem_cons]
      exact ⟨key.1.trans token,value.trans token,by simp⟩
  iterate 3
    split at parsed
    · cases parsed
      exact fun arg member => (oneKey_args _ first.2 arg member).trans token
  split at parsed <;> cases parsed <;> simp

theorem read_wellFormed (line : Bytes) (short : Readable line) (op : ClientOp)
    (calls : read line = .call op) : op.command.WellFormed := by
  simp only [read] at calls
  split at calls
  · cases calls
  split at calls
  · cases calls
  next cmd parsed =>
    have readable (i : Nat) : Readable (cmd.args.getD i []) := by
      rw [List.getD_eq_getElem?_getD]
      cases arg : cmd.args[i]? with
      | none => decide
      | some text =>
        have part := parse_args line cmd parsed text (List.mem_of_getElem? arg)
        exact Nat.lt_of_le_of_lt part.length_le short
    simp only [dispatch] at calls
    split at calls
    · split at calls <;> cases calls
    all_goals
      cases calls
      refine ⟨rfl,?_,rfl⟩
      simp only [ClientOp.command,List.forall_mem_cons]
      simp only [readable,List.not_mem_nil,false_imp_iff,implies_true,and_true]

/-- A line entered in a shell over a plain map: the text up to the next prompt. -/
def shell (map : PlainMap) (line : Bytes) : Bytes × PlainMap :=
  match read line with
  | .leave => ([],map)
  | .say text => (text ++ prompt,map)
  | .call op => (shown op (op.answer map).1 ++ prompt,(op.answer map).2)

/-- Several screens at one shell. -/
structure Shared where
  map : PlainMap
  screen : Connection → Bytes

namespace Shared

def start (map : PlainMap) : Shared := ⟨map,fun _ => banner ++ prompt⟩

def enter (s : Shared) (entry : Connection × Bytes) : Shared :=
  ⟨(shell s.map entry.2).2,
    Function.update s.screen entry.1 (s.screen entry.1 ++ (shell s.map entry.2).1)⟩

def run (map : PlainMap) (order : List (Connection × Bytes)) : Shared := order.foldl enter (start map)

section

variable (map : PlainMap) (order : List (Connection × Bytes)) (c : Connection) (line : Bytes)

theorem run_concat : run map (order ++ [(c,line)]) = (run map order).enter (c,line) := by
  simp [run]

theorem map_concat :
    (run map (order ++ [(c,line)])).map = (shell (run map order).map line).2 := by
  rw [run_concat]
  rfl

theorem screen_self : (run map (order ++ [(c,line)])).screen c =
    (run map order).screen c ++ (shell (run map order).map line).1 := by
  rw [run_concat]
  exact Function.update_self _ _ _

theorem screen_other (other : Connection) (apart : other ≠ c) :
    (run map (order ++ [(c,line)])).screen other = (run map order).screen other := by
  rw [run_concat]
  exact Function.update_of_ne apart _ _

end

end Shared

def ownLines (order : List (Connection × Bytes)) (c : Connection) : List Bytes :=
  (order.filter fun entry => entry.1 = c).map Prod.snd

theorem ownLines_self (order : List (Connection × Bytes)) (c : Connection) (line : Bytes) :
    ownLines (order ++ [(c,line)]) c = ownLines order c ++ [line] := by
  simp [ownLines]

theorem ownLines_other (order : List (Connection × Bytes)) (c other : Connection) (line : Bytes) (apart : other ≠ c) :
    ownLines (order ++ [(c,line)]) other = ownLines order other := by
  simp [ownLines,apart.symm]

end ClientMain

/-- The network with a program at each connection: how many lines it has read, and what it has
printed. -/
structure Terminals (ω : Type) where
  net : Network ω
  position : Connection → Nat
  printed : Connection → Bytes

namespace Terminals

open ClientMain (Shared lines shown prompt ownLines)

variable {ω : Type} [DecidableEq ω] (stdin : Connection → Bytes)

def boot (store : PersistentKvStore) : Terminals ω :=
  ⟨.boot store,fun _ => 0,fun _ => ClientMain.banner ++ prompt⟩

/-- A program reads a line and goes on to the call or to the next prompt or ends, a call ends and its
result is printed, or the network moves. -/
inductive Turn (ω : Type) where
  | line (fd : Fd)
  | ret (fd : Fd)
  | server (event : Reactor.Event ω)
  | receive (fd : Fd) (size : Nat)

def print (s : Terminals ω) (c : Connection) (text : Bytes) : Terminals ω :=
  { s with printed := Function.update s.printed c (s.printed c ++ text) }

def advance (s : Terminals ω) (c : Connection) : Terminals ω :=
  { s with position := Function.update s.position c (s.position c + 1) }

/-- One turn. A program that is told to leave, or finds no more lines, disconnects. -/
def step (s : Terminals ω) : Turn ω → Option (Terminals ω)
  | .line fd =>
    let c := s.net.reactor.current fd
    if s.net.reactor.isOpen fd ∧ s.net.call fd = none ∧ s.net.left fd = false then
      match (lines (stdin c))[s.position c]? with
      | none => (Network.step s.net (.disconnect fd)).map fun net => { s with net := net }
      | some line =>
        match ClientMain.read line with
        | .leave => (Network.step s.net (.disconnect fd)).map fun net => { s.advance c with net := net }
        | .say text => some ((s.advance c).print c (text ++ prompt))
        | .call op =>
          (Network.step s.net (.call fd op)).map fun net => { s.advance c with net := net }
    else none
  | .ret fd =>
    match s.net.call fd with
    | none => none
    | some (op,chunks) =>
      match op.run (Network.clientWith chunks) with
      | .error _ _ => none
      | .ok reply _ => (Network.step s.net (.ret fd)).map fun net =>
          { s.print (s.net.reactor.current fd) (shown op reply ++ prompt) with net := net }
  | .server event => (Network.step s.net (.server event)).map fun net => { s with net := net }
  | .receive fd size => (Network.step s.net (.receive fd size)).map fun net => { s with net := net }

def Turn.Admitted : Turn ω → Prop
  | .server event => (Network.Turn.server event).Admitted
  | _ => True

def InTurn (s : Terminals ω) : Turn ω → Prop
  | .server event => s.net.InTurn (.server event)
  | _ => True

instance [Fintype ω] (s : Terminals ω) : (turn : Turn ω) → Decidable (s.InTurn turn)
  | .server event => inferInstanceAs (Decidable (s.net.InTurn (.server event)))
  | .line _ | .ret _ | .receive _ _ => .isTrue trivial

def linesRead (s : Terminals ω) (c : Connection) : List Bytes := (lines (stdin c)).take (s.position c)

/-- The order explains what the users see: it has each program's lines in their order, and one shell
that takes the lines in this order prints what is on the screens. Of a line whose call is under way
the shell may have printed what the program has not, and the order may not have it. -/
structure Explains (s : Terminals ω) (map : PlainMap) (order : List (Connection × Bytes)) : Prop where
  ordered : ∀ c, s.linesRead stdin c = ownLines order c ∨
    ∃ line, s.linesRead stdin c = ownLines order c ++ [line]
  visible : ∀ c, s.printed c <+: (Shared.run map order).screen c
  settled : ∀ c, (c = s.net.reactor.current c.fd → s.net.call c.fd = none) →
    s.linesRead stdin c = ownLines order c ∧ s.printed c = (Shared.run map order).screen c

/-- A program's lines and screen by what its call has come to. -/
def Seen (linesRead own : List Bytes) (printed screen : Bytes) : CallState ClientOp ClientReply → Prop
  | .idle => linesRead = own ∧ printed = screen
  | .called op => (∃ line, ClientMain.read line = .call op ∧ linesRead = own ++ [line]) ∧
      printed = screen
  | .committed op reply => linesRead = own ∧ printed ++ (shown op reply ++ prompt) = screen

/-- What the call of a program has come to; those of earlier and later connections are in none. -/
def phaseOf (r : Reactor ω) (a : Atomic Fd ClientOp ClientReply PlainMap) (c : Connection) :
    CallState ClientOp ClientReply :=
  if c = r.current c.fd then a.phase c.fd else .idle

structure Follows (s : Terminals ω) (a : Atomic Fd ClientOp ClientReply PlainMap) (map : PlainMap)
    (order : List (Connection × Bytes)) : Prop where
  sim : s.net.Simulates a
  state : a.state = (Shared.run map order).map
  seen : ∀ c, Seen (s.linesRead stdin c) (ownLines order c) (s.printed c)
    ((Shared.run map order).screen c) (phaseOf s.net.reactor a c)

variable {stdin} {s s' : Terminals ω} {a a' : Atomic Fd ClientOp ClientReply PlainMap} {map : PlainMap}
  {order : List (Connection × Bytes)}

omit [DecidableEq ω] in
theorem phaseOf_current (r : Reactor ω) (fd : Fd) : phaseOf r a (r.current fd) = a.phase fd :=
  if_pos rfl

omit [DecidableEq ω] in
theorem phaseOf_other (r : Reactor ω) (fd : Fd)
    (phase : ∀ other, other ≠ fd → a'.phase other = a.phase other) (c : Connection)
    (apart : c ≠ r.current fd) : phaseOf r a' c = phaseOf r a c := by
  by_cases same : c.fd = fd
  · rw [phaseOf,phaseOf,same,if_neg apart,if_neg apart]
  · rw [phaseOf,phaseOf,phase _ same]

theorem phaseOf_step {net net' : Network ω} (sim : net.Simulates a) (turn : Network.Turn ω)
    (taken : Network.step net turn = some net') (c : Connection) :
    phaseOf net'.reactor a c = phaseOf net.reactor a c := by
  rcases Network.server_of_step turn taken with same | ⟨event,-,took⟩
  · rw [same]
  by_cases accepts : event = .accept c.fd
  · subst accepts
    have idle : a.phase c.fd = .idle := by
      have closed : net.reactor.isOpen c.fd = false := by
        generalize net'.reactor = r at took
        cases took
        assumption
      exact (sim.quiet c.fd (sim.free_of_closed c.fd closed)).1
    simp [phaseOf,idle]
  · rw [phaseOf,phaseOf,Reactor.current,took.generation c.fd accepts]
    rfl

omit [DecidableEq ω] in
theorem Follows.explains (follows : s.Follows stdin a map order) : s.Explains stdin map order := by
  refine ⟨fun c => ?_,fun c => ?_,fun c free => ?_⟩
  · have seen := follows.seen c
    cases phase : phaseOf s.net.reactor a c with
    | idle =>
      rw [phase] at seen
      exact .inl seen.1
    | called op =>
      rw [phase] at seen
      obtain ⟨⟨line,-,last⟩,-⟩ := seen
      exact .inr ⟨line,last⟩
    | committed op reply =>
      rw [phase] at seen
      exact .inl seen.1
  · have seen := follows.seen c
    cases phase : phaseOf s.net.reactor a c with
    | idle | called op =>
      rw [phase] at seen
      rw [seen.2]
    | committed op reply =>
      rw [phase] at seen
      rw [← seen.2]
      exact List.prefix_append _ _
  · have idle : phaseOf s.net.reactor a c = .idle := by
      by_cases current : c = s.net.reactor.current c.fd
      · rw [phaseOf,if_pos current]
        exact (follows.sim.quiet c.fd (free current)).1
      · rw [phaseOf,if_neg current]
    have seen := follows.seen c
    rw [idle] at seen
    exact seen

omit [DecidableEq ω] in
theorem Follows.keep (follows : s.Follows stdin a map order) (sim : s'.net.Simulates a')
    (c : Connection) (state : a'.state = a.state)
    (phase : ∀ other, other ≠ c → phaseOf s'.net.reactor a' other = phaseOf s.net.reactor a other)
    (position : ∀ other, other ≠ c → s'.position other = s.position other)
    (printed : ∀ other, other ≠ c → s'.printed other = s.printed other)
    (own : Seen (s'.linesRead stdin c) (ownLines order c) (s'.printed c)
      ((Shared.run map order).screen c) (phaseOf s'.net.reactor a' c)) :
    s'.Follows stdin a' map order := by
  refine ⟨sim,state.trans follows.state,fun other => ?_⟩
  by_cases same : other = c
  · rw [same]
    exact own
  · have seen := follows.seen other
    rw [linesRead] at seen ⊢
    rw [position other same,printed other same,phase other same]
    exact seen

theorem Follows.silent (follows : s.Follows stdin a map order) (turn : Network.Turn ω)
    {net : Network ω} (taken : Network.step s.net turn = some net) (sim : net.Simulates a) :
    Follows stdin { s with net := net } a map order := by
  refine ⟨sim,follows.state,fun c => ?_⟩
  rw [phaseOf_step follows.sim turn taken]
  exact follows.seen c

omit [DecidableEq ω] in
theorem Follows.enter (follows : s.Follows stdin a map order) (sim : s'.net.Simulates a')
    (c : Connection) (line : Bytes) (state : a'.state = (ClientMain.shell a.state line).2)
    (phase : ∀ other, other ≠ c → phaseOf s'.net.reactor a' other = phaseOf s.net.reactor a other)
    (position : ∀ other, other ≠ c → s'.position other = s.position other)
    (printed : ∀ other, other ≠ c → s'.printed other = s.printed other)
    (own : Seen (s'.linesRead stdin c) (ownLines order c ++ [line]) (s'.printed c)
      ((Shared.run map order).screen c ++ (ClientMain.shell a.state line).1)
      (phaseOf s'.net.reactor a' c)) : s'.Follows stdin a' map (order ++ [(c,line)]) := by
  refine ⟨sim,?_,fun other => ?_⟩
  · rw [state,Shared.map_concat,follows.state]
  by_cases same : other = c
  · rw [same,ClientMain.ownLines_self,Shared.screen_self,← follows.state]
    exact own
  · have seen := follows.seen other
    rw [linesRead] at seen ⊢
    rw [position other same,printed other same,phase other same,
      ClientMain.ownLines_other _ _ _ _ same,Shared.screen_other _ _ _ _ _ same]
    exact seen

omit [DecidableEq ω] in
theorem linesRead_advance (s : Terminals ω) (c : Connection) (line : Bytes)
    (next : (lines (stdin c))[s.position c]? = some line) :
    (s.advance c).linesRead stdin c = s.linesRead stdin c ++ [line] := by
  have moved : (s.advance c).position c = s.position c + 1 := Function.update_self _ _ _
  rw [linesRead,moved,List.take_add_one,next]
  rfl

omit [DecidableEq ω] in
theorem position_other (s : Terminals ω) (c other : Connection) (apart : other ≠ c) :
    (s.advance c).position other = s.position other := Function.update_of_ne apart _ _

omit [DecidableEq ω] in
theorem printed_self (s : Terminals ω) (c : Connection) (text : Bytes) :
    (s.print c text).printed c = s.printed c ++ text := Function.update_self _ _ _

omit [DecidableEq ω] in
theorem printed_other (s : Terminals ω) (c other : Connection) (text : Bytes) (apart : other ≠ c) :
    (s.print c text).printed other = s.printed other := Function.update_of_ne apart _ _

theorem Follows.line (follows : s.Follows stdin a map order) (fd : Fd)
    (short : ∀ line ∈ lines (stdin (s.net.reactor.current fd)), Readable line)
    (taken : step stdin s (.line fd) = some s') :
    ∃ a' added, s'.Follows stdin a' map (order ++ added) := by
  simp only [step] at taken
  split at taken
  next ready =>
    have idle := (follows.sim.quiet fd ready.2.1).1
    have phase : phaseOf s.net.reactor a (s.net.reactor.current fd) = .idle :=
      (phaseOf_current _ fd).trans idle
    have seen := follows.seen (s.net.reactor.current fd)
    rw [phase] at seen
    split at taken
    next =>
      obtain ⟨net,left,rfl⟩ := Option.map_eq_some_iff.mp taken
      refine ⟨a,[],?_⟩
      rw [List.append_nil]
      exact follows.silent _ left (follows.sim.disconnect fd left)
    next line next =>
    have linesRead := linesRead_advance s _ line next
    rw [seen.1] at linesRead
    split at taken
    next leaves =>
      obtain ⟨net,left,rfl⟩ := Option.map_eq_some_iff.mp taken
      have same := phaseOf_step follows.sim _ left
      refine ⟨a,[(s.net.reactor.current fd,line)],follows.enter ?_ _ line
        (by rw [ClientMain.shell,leaves]) (fun other _ => same other) (position_other s _)
        (fun _ _ => rfl) ?_⟩
      · exact follows.sim.disconnect fd left
      · rw [same,phase,ClientMain.shell,leaves,List.append_nil]
        exact ⟨linesRead,seen.2⟩
    next text speaks =>
      cases taken
      refine ⟨a,[(s.net.reactor.current fd,line)],follows.enter ?_ _ line
        (by rw [ClientMain.shell,speaks]) (fun _ _ => rfl) (position_other s _)
        (fun other => printed_other _ _ other _) ?_⟩
      · exact follows.sim
      · change Seen _ _ _ _ (phaseOf s.net.reactor a _)
        rw [phase,ClientMain.shell,speaks,printed_self]
        exact ⟨linesRead,congrArg (· ++ _) seen.2⟩
    next op calls =>
      obtain ⟨net,called,rfl⟩ := Option.map_eq_some_iff.mp taken
      have wellFormed := ClientMain.read_wellFormed line (short line (List.mem_of_getElem? next)) op calls
      obtain ⟨a',moved,sim⟩ := follows.sim.call fd op wellFormed called
      have kept := Network.reactor_of_client called (by simp)
      simp only [Atomic.step,idle,Option.some.injEq] at moved
      refine ⟨a',[],?_⟩
      cases moved
      rw [List.append_nil]
      refine follows.keep ?_ (s.net.reactor.current fd) rfl ?_ (position_other s _) (fun _ _ => rfl) ?_
      · exact sim
      · intro other apart
        rw [kept]
        exact phaseOf_other _ fd (fun _ ne => Function.update_of_ne ne _ _) other apart
      · rw [kept,phaseOf_current]
        simp only [Function.update_self]
        exact ⟨⟨line,calls,linesRead⟩,seen.2⟩
  next => cases taken

theorem Follows.ret (follows : s.Follows stdin a map order) (fd : Fd)
    (taken : step stdin s (.ret fd) = some s') : ∃ a', s'.Follows stdin a' map order := by
  simp only [step] at taken
  split at taken
  next => cases taken
  next op chunks calling =>
  split at taken
  next => cases taken
  next reply client ran =>
    obtain ⟨net,returned,rfl⟩ := Option.map_eq_some_iff.mp taken
    have committed := follows.sim.returns fd op chunks calling reply client ran
    have seen := follows.seen (s.net.reactor.current fd)
    rw [phaseOf_current,committed] at seen
    obtain ⟨a',moved,sim⟩ := follows.sim.ret fd returned
    have kept := Network.reactor_of_client returned (by simp)
    simp only [Atomic.step,committed,Option.some.injEq] at moved
    cases moved
    refine ⟨_,follows.keep sim (s.net.reactor.current fd) rfl ?_ (fun _ _ => rfl)
      (fun other => printed_other s _ other _) ?_⟩
    · intro other apart
      rw [kept]
      exact phaseOf_other _ fd (fun _ ne => Function.update_of_ne ne _ _) other apart
    · rw [kept,phaseOf_current]
      simp only [Function.update_self]
      exact ⟨seen.1,(printed_self s _ _).trans seen.2⟩

/-- A call takes effect where its line is entered in the shell. -/
theorem Follows.server (follows : s.Follows stdin a map order) (event : Reactor.Event ω)
    (admitted : (Network.Turn.server event).Admitted) (inTurn : s.net.InTurn (.server event))
    (taken : step stdin s (.server event) = some s') :
    ∃ a' added, s'.Follows stdin a' map (order ++ added) := by
  obtain ⟨net,moved,rfl⟩ := Option.map_eq_some_iff.mp taken
  obtain ⟨moves,a',kind,ran,sim⟩ := follows.sim.step_moves (.server event) net admitted inTurn moved
  rcases kind with rfl | ⟨fd,rfl⟩
  · cases ran
    refine ⟨a,[],?_⟩
    rw [List.append_nil]
    exact follows.silent _ moved sim
  · rw [Machine.run_singleton,Atomic.step] at ran
    split at ran
    next op called =>
      cases ran
      have kept := phaseOf_step follows.sim _ moved
      have current : net.reactor.current fd = s.net.reactor.current fd := by
        by_contra changed
        have lost := kept (s.net.reactor.current fd)
        have gone : phaseOf net.reactor a (s.net.reactor.current fd) = .idle := if_neg (Ne.symm changed)
        rw [phaseOf_current,called,gone] at lost
        cases lost
      have seen := follows.seen (s.net.reactor.current fd)
      rw [phaseOf_current,called] at seen
      obtain ⟨⟨line,calls,linesRead⟩,printed⟩ := seen
      refine ⟨_,[(s.net.reactor.current fd,line)],follows.enter sim _ line
        (by rw [ClientMain.shell,calls]) ?_ (fun _ _ => rfl) (fun _ _ => rfl) ?_⟩
      · intro other apart
        rw [← kept other]
        exact phaseOf_other _ fd (fun _ ne => Function.update_of_ne ne _ _) other (current ▸ apart)
      · rw [← current,phaseOf_current,current]
        simp only [Function.update_self,ClientMain.shell,calls]
        exact ⟨linesRead,congrArg (· ++ _) printed⟩
    next => cases ran

theorem Follows.step (follows : s.Follows stdin a map order)
    (short : ∀ c, ∀ line ∈ lines (stdin c), Readable line) (turn : Turn ω) (admitted : turn.Admitted)
    (inTurn : s.InTurn turn) (taken : Terminals.step stdin s turn = some s') :
    ∃ a' added, s'.Follows stdin a' map (order ++ added) := by
  cases turn with
  | line fd => exact follows.line fd (short _) taken
  | ret fd =>
    obtain ⟨a',follows'⟩ := follows.ret fd taken
    exact ⟨a',[],by rwa [List.append_nil]⟩
  | server event => exact follows.server event admitted inTurn taken
  | receive fd size =>
    obtain ⟨net,received,rfl⟩ := Option.map_eq_some_iff.mp taken
    refine ⟨a,[],?_⟩
    rw [List.append_nil]
    exact follows.silent _ received (follows.sim.receive fd size received)

theorem Follows.run (follows : s.Follows stdin a map order)
    (short : ∀ c, ∀ line ∈ lines (stdin c), Readable line) (turns : List (Turn ω))
    (admitted : ∀ turn ∈ turns, turn.Admitted)
    (inTurn : Machine.Guarded (Terminals.step stdin) InTurn s turns)
    (ran : Machine.run (Terminals.step stdin) s turns = some s') :
    ∃ a' added, s'.Follows stdin a' map (order ++ added) := by
  refine Machine.invariant_of_guarded (Terminals.step stdin) InTurn Turn.Admitted
    (fun t => ∃ a' added, t.Follows stdin a' map (order ++ added)) ?_ s s' turns
    ⟨a,[],by rwa [List.append_nil]⟩ admitted inTurn ran
  rintro s turn s' ⟨a,added,follows⟩ admitted inTurn taken
  obtain ⟨a',more,follows'⟩ := follows.step short turn admitted inTurn taken
  exact ⟨a',added ++ more,by rwa [← List.append_assoc]⟩

omit [DecidableEq ω] in
theorem follows_boot (store : PersistentKvStore) (map : PlainMap) (holds : Holds store map)
    (values : ShortValues map) : (boot store : Terminals ω).Follows stdin (.start map) map [] := by
  refine ⟨Network.simulates_boot store map holds values,rfl,fun c => ?_⟩
  have idle : phaseOf (boot store : Terminals ω).net.reactor (.start map) c = .idle := by
    rw [phaseOf]
    split <;> rfl
  rw [idle]
  exact ⟨rfl,rfl⟩

/-- The users share one shell. Whatever their programs, the network and the server do when, as long
as chunks are taken in turn and the files can be written, the lines can be put in an order that
explains all the screens, and as they go on the order only grows at its end: a line that is typed
after an answer has been printed comes behind that answer's line. -/
theorem terminals_share_one_shell (stdin : Connection → Bytes)
    (short : ∀ c, ∀ line ∈ lines (stdin c), Readable line) (store : PersistentKvStore)
    (map : PlainMap) (holds : Holds store map) (values : ShortValues map)
    (turns later : List (Turn ω)) (s t : Terminals ω)
    (admitted : ∀ turn ∈ turns ++ later, turn.Admitted)
    (inTurn : Machine.Guarded (Terminals.step stdin) InTurn (boot store) (turns ++ later))
    (ran : Machine.run (Terminals.step stdin) (boot store) turns = some s)
    (goesOn : Machine.run (Terminals.step stdin) s later = some t) :
    ∃ order added, s.Explains stdin map order ∧ t.Explains stdin map (order ++ added) := by
  obtain ⟨before,after⟩ := List.forall_mem_append.mp admitted
  obtain ⟨first,second⟩ := Machine.guarded_split _ _ _ _ _ _ inTurn ran
  obtain ⟨a,order,follows⟩ := (follows_boot store map holds values).run short turns before first ran
  obtain ⟨b,added,follows'⟩ := follows.run short later after second goesOn
  exact ⟨_,added,follows.explains,follows'.explains⟩

/-- At the one terminal a key is set, read and the program left; the other begins with a line that
is empty and one that is no command, and gets the key while it is being set. A third one has the
number of the first when that has gone. -/
def threeUsers (c : Connection) : Bytes :=
  if c = ⟨5,1⟩ then ascii "set k v\nget k\nexit\nget k\n"
  else if c = ⟨5,2⟩ then ascii "foo\n" else ascii "\nfoo\nGET  k"

def bothCall : List (Turn Bool) :=
  let sets : Bytes := serializeCommand ⟨.SET,[ascii "k",ascii "v"],.NONE⟩
  let gets : Bytes := serializeCommand ⟨.GET,[ascii "k"],.NONE⟩
  [.server (.accept 5),.server (.accept 6),.line 6,.line 5,.line 6,.line 6,.server (.data 5 sets),
    .server (.data 6 gets),.server (.pop true),.server (.pop false),.server (.enter false),
    .server (.pass false .faultless),.server (.enter true),.server (.pass true .faultless),
    .server (.pass true .faultless),.server (.send true 4096),.receive 5 5,.ret 5]

def thenOneLeaves : List (Turn Bool) :=
  let gets : Bytes := serializeCommand ⟨.GET,[ascii "k"],.NONE⟩
  [.line 5,.server (.pass false .faultless),.server (.send false 4096),.receive 6 5,.ret 6,
    .server (.data 5 gets),.server (.pop true),.server (.enter true),.server (.pass true .faultless),
    .server (.pass true .faultless),.server (.send true 4096),.receive 5 4,.receive 5 3,.ret 5,.line 5,
    .server (.close 5),.server (.accept 5),.line 5]

theorem terminals_share_one_shell_threeUsers :
    ∃ s t, Machine.run (step threeUsers) (boot .opened) bothCall = some s ∧
      Machine.run (step threeUsers) s thenOneLeaves = some t ∧
      s.printed ⟨5,1⟩ = ascii "Connected. Type 'exit' to quit.\n> OK\n> " ∧
      t.printed ⟨5,1⟩ = ascii "Connected. Type 'exit' to quit.\n> OK\n> v\n> " ∧
      t.printed ⟨6,1⟩ = ascii "Connected. Type 'exit' to quit.\n> > ERR unknown command\n> (nil)\n> " ∧
      t.printed ⟨5,2⟩ = ascii "Connected. Type 'exit' to quit.\n> ERR unknown command\n> " ∧
      ∃ order added, s.Explains threeUsers ∅ order ∧ t.Explains threeUsers ∅ (order ++ added) := by
  have first : (Machine.run (step threeUsers) (boot .opened) bothCall).map (fun s => s.printed ⟨5,1⟩) =
      some (ascii "Connected. Type 'exit' to quit.\n> OK\n> ") := by decide +kernel
  have second : ((Machine.run (step threeUsers) (boot .opened) bothCall).bind fun s =>
        Machine.run (step threeUsers) s thenOneLeaves).map
          (fun t => (t.printed ⟨5,1⟩,t.printed ⟨6,1⟩,t.printed ⟨5,2⟩)) =
      some (ascii "Connected. Type 'exit' to quit.\n> OK\n> v\n> ",
        ascii "Connected. Type 'exit' to quit.\n> > ERR unknown command\n> (nil)\n> ",
        ascii "Connected. Type 'exit' to quit.\n> ERR unknown command\n> ") := by
    decide +kernel
  have guarded :
      Machine.Guarded (step threeUsers) InTurn (boot .opened) (bothCall ++ thenOneLeaves) := by
    decide +kernel
  obtain ⟨s,ran,shown⟩ := Option.map_eq_some_iff.mp first
  rw [ran,Option.bind_some] at second
  obtain ⟨t,ran',shown'⟩ := Option.map_eq_some_iff.mp second
  obtain ⟨shown5,others⟩ := Prod.mk.inj shown'
  obtain ⟨shown6,shownNew⟩ := Prod.mk.inj others
  refine ⟨s,t,ran,ran',shown,shown5,shown6,shownNew,terminals_share_one_shell threeUsers ?_ .opened ∅
    ⟨⟨[],rfl,rfl,rfl,rfl,rfl⟩,rfl⟩ (fun _ _ found => by cases found) bothCall thenOneLeaves s t ?_
    guarded ran ran'⟩
  · intro c
    unfold threeUsers
    split
    · decide +kernel
    · split <;> decide +kernel
  · simp [bothCall,thenOneLeaves,Turn.Admitted,Network.Turn.Admitted,Io.faultless_succeeds]

end Terminals

end KvCache
