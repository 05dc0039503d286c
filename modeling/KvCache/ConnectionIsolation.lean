import KvCache.Reactor

/-! Connections in isolation. Alone with a reader of its own, what a connection is sent follows
from its chunks and from the store at each pass over them. In the server this holds as long as
a number is given to a new connection only when nothing of the old one is left, and a
connection's next task is popped only when no worker has one of its tasks. -/
namespace KvCache

/-- A visit with a reader of the connection's own. -/
def isolatedStep (p : RespReader × List Bytes) : Visit → RespReader × List Bytes
  | .feed data => (⟨p.1.buf ++ data⟩,p.2)
  | .pass store env =>
    match Session.answer env ⟨p.1,store⟩ with
    | .ok (some bytes) session => (session.reader,p.2 ++ [bytes])
    | .ok none session => (session.reader,p.2)
    | .error _ session => (session.reader,p.2)

def isolated (visits : List Visit) : RespReader × List Bytes :=
  visits.foldl isolatedStep (.empty,[])

theorem isolated_append (visits : List Visit) (v : Visit) :
    isolated (visits ++ [v]) = isolatedStep (isolated visits) v := by
  simp [isolated]

def fedTo (visits : List Visit) : List Bytes :=
  visits.filterMap fun
    | .feed data => some data
    | .pass _ _ => none

theorem fedTo_append (visits more : List Visit) : fedTo (visits ++ more) = fedTo visits ++ fedTo more :=
  List.filterMap_append

/-- A connection alone: its reader, the replies of the callback that is under way, and what
the callbacks that have returned gave to `send`. -/
structure Solo where
  reader : RespReader
  callback : Option (List Bytes)
  sent : Bytes

namespace Solo

def fresh : Solo := ⟨.empty,none,[]⟩

def feed (s : Solo) (data : Bytes) : Solo := ⟨⟨s.reader.buf ++ data⟩,some [],s.sent⟩

/-- A pass of the callback's loop. An exception takes the replies of the callback with it. -/
def pass (s : Solo) (result : List Bytes) (store : PersistentKvStore) (env : Env) : Solo :=
  match Session.answer env ⟨s.reader,store⟩ with
  | .ok (some bytes) session => ⟨session.reader,some (result ++ [bytes]),s.sent⟩
  | .ok none session => ⟨session.reader,none,s.sent ++ result.flatten⟩
  | .error _ session => ⟨session.reader,none,s.sent⟩

/-- The next pass belongs to the callback that is under way, or to one on the next chunk. -/
def next (p : Solo × List Bytes) (found : PersistentKvStore × Env) : Solo × List Bytes :=
  match p.1.callback, p.2 with
  | some result, chunks => (p.1.pass result found.1 found.2,chunks)
  | none, data :: chunks => ((p.1.feed data).pass [] found.1 found.2,chunks)
  | none, [] => p

/-- A visit, where it can be made: chunks between callbacks, passes inside of them. -/
def step (s : Solo) : Visit → Option Solo
  | .feed data =>
    match s.callback with
    | none => some (s.feed data)
    | some _ => none
  | .pass store env => s.callback.map fun result => s.pass result store env

end Solo

/-- What becomes of a connection that is alone, from its chunks and what its passes find. -/
def alone (chunks : List Bytes) (passes : List (PersistentKvStore × Env)) : Solo :=
  (passes.foldl Solo.next (.fresh,chunks)).1

namespace Solo

theorem pass_reader (s : Solo) (result : List Bytes) (store : PersistentKvStore) (env : Env)
    (replies : List Bytes) :
    (s.pass result store env).reader = (isolatedStep (s.reader,replies) (.pass store env)).1 := by
  simp only [pass,isolatedStep]
  split <;> rfl

theorem reader_of_run (s t : Solo) (visits : List Visit) (replies : List Bytes)
    (ran : Machine.run step s visits = some t) :
    t.reader = (visits.foldl isolatedStep (s.reader,replies)).1 := by
  induction visits generalizing s replies with
  | nil => cases ran; rfl
  | cons v visits ih =>
    obtain ⟨m,taken,later⟩ := (Machine.run_cons_iff step s t v visits).mp ran
    rw [List.foldl_cons]
    cases v with
    | feed data =>
      simp only [step] at taken
      split at taken
      · cases taken
        exact ih _ replies later
      · cases taken
    | pass store env =>
      obtain ⟨result,-,rfl⟩ := Option.map_eq_some_iff.mp taken
      have reader := pass_reader s result store env replies
      rw [ih _ _ later,reader]

/-- Behind by a chunk that has been fed and not yet been passed over. -/
def Lags (p q : Solo × List Bytes) : Prop :=
  p = q ∨ p.1.callback = none ∧ ∃ data, p.2 = data :: q.2 ∧ q.1 = p.1.feed data

theorem Lags.sent {p q : Solo × List Bytes} (lags : Lags p q) : p.1.sent = q.1.sent := by
  rcases lags with rfl | ⟨-,data,-,fed⟩
  · rfl
  · rw [fed]
    rfl

theorem Lags.eq {p q : Solo × List Bytes} (lags : Lags p q) (between : q.1.callback = none) :
    p = q := by
  rcases lags with same | ⟨-,data,-,fed⟩
  · exact same
  · rw [fed] at between
    cases between

end Solo

namespace Worker

def IsOn (worker : Worker) (c : Connection) : Prop :=
  worker.task.map Task.connection = some c

instance (worker : Worker) (c : Connection) : Decidable (worker.IsOn c) :=
  inferInstanceAs (Decidable (_ = _))

theorem isOn_iff (worker : Worker) (c : Connection) :
    worker.IsOn c ↔ ∃ task, worker.task = some task ∧ task.connection = c :=
  Option.map_eq_some_iff

@[simp] theorem isOn_idle (c : Connection) : ¬idle.IsOn c := by
  simp [IsOn,task]

@[simp] theorem isOn_popped (t : Task) (c : Connection) : (popped t).IsOn c ↔ t.connection = c := by
  simp [IsOn,task]

def callback : Worker → Option (List Bytes)
  | serving _ result => some result
  | _ => none

def returned : Worker → List Bytes
  | replying _ result => result
  | _ => []

end Worker

/-- Where the bytes of a connection are. -/
structure Ledger where
  received : List Bytes
  visits : List Visit
  queued : List Bytes
  sent : Bytes
  connected : Prop

/-- The connection alone is where the worker on it is. What it was to be sent has been sent or
is with the worker, as long as the connection lasts. -/
structure Solo.Follows (solo : Solo) (l : Ledger) (holder : Worker) : Prop where
  callback : solo.callback = holder.callback
  front : l.sent <+: solo.sent
  whole : l.connected → solo.sent = l.sent ++ holder.returned.flatten

structure Ledger.Balanced (l : Ledger) (holder : Worker) : Prop where
  chunks : l.received = fedTo l.visits ++ holder.unfed ++ l.queued
  solo : ∃ solo, Machine.run Solo.step .fresh l.visits = some solo ∧ solo.Follows l holder

theorem Ledger.Balanced.disconnected {l l' : Ledger} {holder : Worker} (balanced : l.Balanced holder)
    (same : l' = { l with connected := l'.connected }) (less : l'.connected → l.connected) :
    l'.Balanced holder := by
  obtain ⟨chunks,solo,ran,follows⟩ := balanced
  rw [same]
  exact ⟨chunks,solo,ran,follows.callback,follows.front,fun connected => follows.whole (less connected)⟩

namespace Reactor

variable {ω : Type} [DecidableEq ω]

/-- Nothing of a connection before it is left at its number, when this is given away. -/
def AcceptsClean (s : Reactor ω) : Event ω → Prop
  | .accept fd => s.server.reader fd = .empty ∧
      ∀ task, s.Pending task → task.connection.fd ≠ fd
  | _ => True

/-- A task is popped when no worker has a task of its connection. -/
def PopsInTurn (s : Reactor ω) : Event ω → Prop
  | .pop _ => ∀ task ∈ s.tasks.head?, ∀ w, ¬(s.worker w).IsOn task.connection
  | _ => True

def KeepsApart (s : Reactor ω) (event : Event ω) : Prop :=
  s.AcceptsClean event ∧ s.PopsInTurn event

instance [Fintype ω] (s : Reactor ω) (fd : Fd) :
    Decidable (∀ task, s.Pending task → task.connection.fd ≠ fd) :=
  decidable_of_iff ((∀ task ∈ s.tasks, task.connection.fd ≠ fd) ∧
      ∀ w, ∀ task ∈ (s.worker w).task, task.connection.fd ≠ fd)
    ⟨fun ⟨queued,held⟩ task pending => pending.elim (queued task) fun ⟨w,has⟩ => held w task has,
      fun all => ⟨fun task queued => all task (.inl queued),fun w task has => all task (.inr ⟨w,has⟩)⟩⟩

instance [Fintype ω] (s : Reactor ω) : (event : Event ω) → Decidable (s.KeepsApart event)
  | .accept fd => inferInstanceAs (Decidable ((s.server.reader fd = .empty ∧
      ∀ task, s.Pending task → task.connection.fd ≠ fd) ∧ True))
  | .pop _ => inferInstanceAs
      (Decidable (True ∧ ∀ task ∈ s.tasks.head?, ∀ w, ¬(s.worker w).IsOn task.connection))
  | .data _ _ | .close _ | .enter _ | .pass _ _ | .send _ _ => .isTrue ⟨trivial,trivial⟩

def queuedFor (s : Reactor ω) (c : Connection) : List Bytes :=
  (s.tasks.filter fun task => task.connection = c).map Task.data

/-- The bytes that `send` has been called with for a connection. -/
def sentTo (s : Reactor ω) (c : Connection) : Bytes :=
  (s.sent.filter fun e => e.receiver = some c).flatMap fun e => e.replies.flatten

/-- The bytes of them that `send` has taken. -/
def deliveredTo (s : Reactor ω) (c : Connection) : Bytes :=
  (s.sent.filter fun e => e.receiver = some c).flatMap Sending.taken

def Connected (s : Reactor ω) (c : Connection) : Prop :=
  s.isOpen c.fd = true ∧ c = s.current c.fd

def ledger (s : Reactor ω) (c : Connection) : Ledger :=
  ⟨s.received c,s.visits c,s.queuedFor c,s.sentTo c,s.Connected c⟩

/-- The worker that has a task of the connection, or no worker. -/
def HeldBy (s : Reactor ω) (c : Connection) (holder : Worker) : Prop :=
  (∃ w, s.worker w = holder ∧ holder.IsOn c) ∨ (holder = .idle ∧ ∀ w, ¬(s.worker w).IsOn c)

def Owned (s : Reactor ω) : Prop :=
  ∀ task, s.Pending task → task.connection = s.current task.connection.fd

def Once (s : Reactor ω) : Prop :=
  ∀ v w c, (s.worker v).IsOn c → (s.worker w).IsOn c → v = w

/-- Readers and replies are those of the connections in isolation. -/
structure Faithful (s : Reactor ω) : Prop where
  readers : ∀ fd, s.server.reader fd = (isolated (s.visits (s.current fd))).1
  answers : ∀ c, s.replies c = (isolated (s.visits c)).2
  unborn : ∀ c, s.generation c.fd < c.generation →
    s.visits c = [] ∧ s.received c = [] ∧ s.sentTo c = []

def Balanced (s : Reactor ω) : Prop :=
  ∀ c holder, s.HeldBy c holder → (s.ledger c).Balanced holder

/-- What is sent answers bytes of the connection that it reaches. -/
def Addressed (s : Reactor ω) : Prop :=
  ∀ e ∈ s.sent, ∀ c, e.receiver = some c → c = e.source

/-- Connections are kept apart. -/
structure InTurn (s : Reactor ω) : Prop where
  owned : s.Owned
  once : s.Once
  faithful : s.Faithful
  balanced : s.Balanced
  addressed : s.Addressed

omit [DecidableEq ω] in
theorem heldBy_someone (s : Reactor ω) (c : Connection) : ∃ holder, s.HeldBy c holder := by
  by_cases someone : ∃ w, (s.worker w).IsOn c
  · obtain ⟨w,on⟩ := someone
    exact ⟨_,.inl ⟨w,rfl,on⟩⟩
  · exact ⟨.idle,.inr ⟨rfl,fun w on => someone ⟨w,on⟩⟩⟩

theorem Took.owned {s s' : Reactor ω} {event : Event ω} (took : Took s event s')
    (clean : s.AcceptsClean event) (owned : s.Owned) : s'.Owned := by
  intro task pending
  rcases took.pending pending with old | ⟨fd,bytes,rfl,rfl⟩
  · have same : s'.generation task.connection.fd = s.generation task.connection.fd := by
      apply took.generation
      rintro rfl
      exact clean.2 task old rfl
    rw [Reactor.current,same]
    exact owned task old
  · cases took
    simp [Reactor.current]

omit [DecidableEq ω] in
theorem current_sentTo {s s' : Reactor ω} (sent : s'.sent = s.sent) (c : Connection) :
    s'.sentTo c = s.sentTo c := by
  rw [sentTo,sent,sentTo]

omit [DecidableEq ω] in
theorem Owned.not_unborn {s : Reactor ω} (owned : s.Owned) {task : Task} (pending : s.Pending task) :
    ¬s.generation task.connection.fd < task.connection.generation := by
  intro later
  rw [owned task pending] at later
  exact Nat.lt_irrefl _ later

omit [DecidableEq ω] in
theorem Faithful.visited {s s' : Reactor ω} (faithful : s.Faithful) (c : Connection)
    (current : c = s.current c.fd) (session : Session) (v : Visit) (replies : List Bytes)
    (stepped : isolatedStep (s.server.reader c.fd,s.replies c) v = (session.reader,replies))
    (server : s'.server = s.server.withSession c.fd session)
    (visits : s'.visits = Function.update s.visits c (s.visits c ++ [v]))
    (generation : s'.generation = s.generation) (received : s'.received = s.received)
    (sent : s'.sent = s.sent)
    (replied : s'.replies = Function.update s.replies c replies) : s'.Faithful := by
  have isolatedNow : isolated (s.visits c ++ [v]) = (session.reader,replies) := by
    have before : (s.server.reader c.fd,s.replies c) = isolated (s.visits c) := by
      rw [faithful.readers,faithful.answers,← current]
    rw [isolated_append,← before,stepped]
  constructor
  · intro fd
    rw [server,KvServer.reader_withSession,visits,Reactor.current,generation]
    by_cases same : fd = c.fd
    · subst same
      have self : (⟨c.fd,s.generation c.fd⟩ : Connection) = c := current.symm
      simp [self,isolatedNow]
    · have other : (⟨fd,s.generation fd⟩ : Connection) ≠ c := fun eq => same (by rw [← eq])
      simpa [same,other,Reactor.current] using faithful.readers fd
  · intro d
    rw [replied,visits]
    by_cases same : d = c
    · subst same
      simp [isolatedNow]
    · simpa [same] using faithful.answers d
  · intro d later
    rw [generation] at later
    have other : d ≠ c := by
      rintro rfl
      rw [current] at later
      exact Nat.lt_irrefl _ later
    rw [visits,Function.update_of_ne other,received,current_sentTo sent]
    exact faithful.unborn d later

theorem sentTo_sendTo (s : Reactor ω) (w : ω) (target : Connection) (result : List Bytes) (room : Nat)
    (current : target = s.current target.fd) (c : Connection) :
    sentTo ((s.sendTo target result room).moveTo w .idle) c =
      s.sentTo c ++ if c = target ∧ s.isOpen target.fd then result.flatten else [] := by
  simp only [sentTo,moveTo,sendTo,← current]
  by_cases empty : result.flatten = []
  · simp [empty]
  · by_cases same : c = target
    · by_cases isOpen : s.isOpen target.fd = true
      · simp [empty,same,isOpen]
      · simp [empty,same,isOpen]
    · simp [empty,same,Ne.symm same]

omit [DecidableEq ω] in
theorem deliveredTo_eq_sentTo (s : Reactor ω) (whole : ∀ e ∈ s.sent, e.taken = e.replies.flatten)
    (c : Connection) : s.deliveredTo c = s.sentTo c := by
  rw [deliveredTo,sentTo]
  apply List.flatMap_congr
  intro e member
  exact whole e (List.mem_of_mem_filter member)

theorem Took.faithful {s s' : Reactor ω} {event : Event ω} (took : Took s event s')
    (clean : s.AcceptsClean event) (owned : s.Owned) (faithful : s.Faithful) : s'.Faithful := by
  cases took with
  | accept fd closed =>
    refine ⟨fun other => ?_,faithful.answers,fun c later => ?_⟩
    · by_cases same : other = fd
      · subst same
        have none := (faithful.unborn ⟨other,s.generation other + 1⟩ (Nat.lt_succ_self _)).1
        simp [Reactor.current,none,clean.1,isolated]
      · simpa [Reactor.current,same] using faithful.readers other
    · apply faithful.unborn c
      apply Nat.lt_of_le_of_lt _ later
      by_cases same : c.fd = fd
      · simp [same]
      · simp [same]
  | data fd bytes isOpen =>
    refine ⟨faithful.readers,faithful.answers,fun c later => ?_⟩
    have other : c ≠ s.current fd := by
      rintro rfl
      exact Nat.lt_irrefl _ later
    obtain ⟨visits,received,sent⟩ := faithful.unborn c later
    exact ⟨visits,by simpa [other] using received,sent⟩
  | close fd => exact ⟨faithful.readers,faithful.answers,faithful.unborn⟩
  | pop w task tasks idle front => exact ⟨faithful.readers,faithful.answers,faithful.unborn⟩
  | enter w task popped free =>
    have current := owned task (pending_of_worker popped rfl)
    exact faithful.visited task.connection current
      ⟨⟨(s.server.reader task.connection.fd).buf ++ task.data⟩,s.server.store⟩ (.feed task.data)
      (s.replies task.connection) rfl rfl rfl rfl rfl rfl (by simp [moveTo,setLock,visit])
  | answered w env task result bytes session serving ran =>
    have current := owned task (pending_of_worker serving rfl)
    refine faithful.visited task.connection current session (.pass s.server.store env)
      (s.replies task.connection ++ [bytes]) ?_ rfl rfl rfl rfl rfl rfl
    simp only [KvServer.session] at ran
    simp only [isolatedStep,ran]
  | waits w env task result session serving ran =>
    have current := owned task (pending_of_worker serving rfl)
    refine faithful.visited task.connection current session (.pass s.server.store env)
      (s.replies task.connection) ?_ rfl rfl rfl rfl rfl (by simp [moveTo,setLock,visit])
    simp only [KvServer.session] at ran
    simp only [isolatedStep,ran]
  | threw w env task result fault session serving ran =>
    have current := owned task (pending_of_worker serving rfl)
    refine faithful.visited task.connection current session (.pass s.server.store env)
      (s.replies task.connection) ?_ rfl rfl rfl rfl rfl (by simp [moveTo,setLock,visit])
    simp only [KvServer.session] at ran
    simp only [isolatedStep,ran]
  | send w room task result replying =>
    have pending := pending_of_worker replying rfl
    refine ⟨faithful.readers,faithful.answers,fun c later => ?_⟩
    obtain ⟨visits,received,sent⟩ := faithful.unborn c later
    have other : c ≠ task.connection := by
      rintro rfl
      exact owned.not_unborn pending later
    refine ⟨visits,received,?_⟩
    simp [sentTo_sendTo s w task.connection result room (owned task pending) c,sent,other]

theorem Took.addressed {s s' : Reactor ω} {event : Event ω} (took : Took s event s') (owned : s.Owned)
    (addressed : s.Addressed) : s'.Addressed := by
  cases took with
  | send w room task result replying =>
    have current := owned task (pending_of_worker replying rfl)
    intro e member c
    rcases List.mem_append.mp member with old | new
    · exact addressed e old c
    · split at new
      · cases new
      · obtain rfl := List.mem_singleton.mp new
        dsimp only
        split
        · rintro ⟨rfl⟩
          exact current.symm
        · rintro ⟨⟩
  | _ => exact addressed

/-- Who holds a connection after the step of a worker on `c₀`. -/
theorem heldBy_moved {s s' : Reactor ω} (w : ω) (next : Worker) (c₀ : Connection)
    (worker : s'.worker = Function.update s.worker w next)
    (before : ∀ c, (s.worker w).IsOn c → c = c₀) (after : ∀ c, next.IsOn c → c = c₀)
    (alone : ∀ v, v ≠ w → ¬(s.worker v).IsOn c₀) (kept : next.IsOn c₀ ∨ next = .idle)
    (c : Connection) (holder : Worker) (held : s'.HeldBy c holder) :
    c = c₀ ∧ holder = next ∨ c ≠ c₀ ∧ s.HeldBy c holder := by
  unfold HeldBy at held
  rw [worker] at held
  by_cases same : c = c₀
  · subst same
    refine .inl ⟨rfl,?_⟩
    rcases held with ⟨v,rfl,on⟩ | ⟨rfl,nobody⟩
    · by_cases self : v = w
      · simp [self]
      · exact absurd (by simpa [self] using on) (alone v self)
    · have off : ¬next.IsOn c := by simpa using nobody w
      exact (kept.resolve_left off).symm
  · refine .inr ⟨same,?_⟩
    rcases held with ⟨v,rfl,on⟩ | ⟨rfl,nobody⟩
    · by_cases self : v = w
      · subst self
        exact absurd (after c (by simpa using on)) same
      · exact .inl ⟨v,by simp [self],on⟩
    · refine .inr ⟨rfl,fun v on => ?_⟩
      by_cases self : v = w
      · subst self
        exact same (before c on)
      · exact nobody v (by simpa [self] using on)

theorem Balanced.moved {s s' : Reactor ω} (balanced : s.Balanced) (w : ω) (next : Worker)
    (c₀ : Connection) (worker : s'.worker = Function.update s.worker w next)
    (before : ∀ c, (s.worker w).IsOn c → c = c₀) (after : ∀ c, next.IsOn c → c = c₀)
    (alone : ∀ v, v ≠ w → ¬(s.worker v).IsOn c₀) (kept : next.IsOn c₀ ∨ next = .idle)
    (others : ∀ c, c ≠ c₀ → s'.ledger c = s.ledger c) (own : (s'.ledger c₀).Balanced next) :
    s'.Balanced := by
  intro c holder held
  rcases heldBy_moved w next c₀ worker before after alone kept c holder held with ⟨rfl,rfl⟩ | ⟨other,held⟩
  · exact own
  · rw [others c other]
    exact balanced c holder held

theorem Once.moved {s s' : Reactor ω} (once : s.Once) (w : ω) (next : Worker) (c₀ : Connection)
    (worker : s'.worker = Function.update s.worker w next)
    (after : ∀ c, next.IsOn c → c = c₀) (alone : ∀ v, v ≠ w → ¬(s.worker v).IsOn c₀) :
    s'.Once := by
  have other : ∀ u v c, u = w → v ≠ w → (s'.worker u).IsOn c → ¬(s'.worker v).IsOn c := by
    intro u v c self ne onU onV
    subst self
    rw [worker] at onU onV
    obtain rfl := after c (by simpa using onU)
    exact alone v ne (by simpa [ne] using onV)
  intro u v c onU onV
  by_cases first : u = w
  · by_cases second : v = w
    · rw [first,second]
    · exact absurd onV (other u v c first second onU)
  · by_cases second : v = w
    · exact absurd onU (other v u c second first onV)
    · rw [worker] at onU onV
      exact once u v c (by simpa [first] using onU) (by simpa [second] using onV)

theorem InTurn.moved {s s' : Reactor ω} (inTurn : s.InTurn) (w : ω) (next : Worker)
    (task : Task) (has : (s.worker w).task = some task)
    (worker : s'.worker = Function.update s.worker w next)
    (kept : next.task = some task ∨ next = .idle)
    (others : ∀ c, c ≠ task.connection → s'.ledger c = s.ledger c)
    (own : (s.ledger task.connection).Balanced (s.worker w) →
      (s'.ledger task.connection).Balanced next) : s'.Once ∧ s'.Balanced := by
  have on : (s.worker w).IsOn task.connection := by simp [Worker.IsOn,has]
  have alone : ∀ v, v ≠ w → ¬(s.worker v).IsOn task.connection :=
    fun v ne other => ne (inTurn.once v w _ other on)
  have before : ∀ c, (s.worker w).IsOn c → c = task.connection := by
    simp [Worker.IsOn,has,eq_comm]
  have after : ∀ c, next.IsOn c → c = task.connection := by
    rcases kept with moved | rfl
    · simp [Worker.IsOn,moved,eq_comm]
    · simp
  have own := own (inTurn.balanced _ _ (.inl ⟨w,rfl,on⟩))
  constructor
  · exact inTurn.once.moved w next _ worker after alone
  · apply inTurn.balanced.moved w next _ worker before after alone _ others own
    exact kept.imp_left fun moved => by simp [Worker.IsOn,moved]

section

variable {s : Reactor ω} {c : Connection} (done : ∀ task, s.Pending task → task.connection ≠ c)
include done

omit [DecidableEq ω] in
theorem nobody_of_done (w : ω) : ¬(s.worker w).IsOn c := by
  intro on
  obtain ⟨task,has,same⟩ := (Worker.isOn_iff _ c).mp on
  exact done task (.inr ⟨w,has⟩) same

omit [DecidableEq ω] in
theorem idle_of_done {holder : Worker} (held : s.HeldBy c holder) : holder = .idle := by
  rcases held with ⟨w,rfl,on⟩ | ⟨idle,-⟩
  · exact absurd on (nobody_of_done done w)
  · exact idle

omit [DecidableEq ω] in
theorem unqueued_of_done : s.queuedFor c = [] := by
  rw [queuedFor,List.map_eq_nil_iff,List.filter_eq_nil_iff]
  intro task queued
  simpa using done task (.inl queued)

end

omit [DecidableEq ω] in
theorem balanced_arrived (s : Reactor ω) (c : Connection) (holder : Worker) (fd : Fd)
    (bytes : Bytes) (balanced : (s.ledger c).Balanced holder) :
    (ledger { s with
      tasks := s.tasks ++ [⟨s.current fd,bytes⟩]
      received := Function.update s.received (s.current fd)
        (s.received (s.current fd) ++ [bytes]) } c).Balanced holder := by
  obtain ⟨chunks,solo,ran,callback,front,whole⟩ := balanced
  refine ⟨?_,solo,ran,callback,front,whole⟩
  by_cases same : c = s.current fd
  · subst same
    simp only [ledger,queuedFor] at chunks ⊢
    simp [chunks]
  · simpa [ledger,queuedFor,same,Ne.symm same] using chunks

omit [DecidableEq ω] in
/-- The new connection of a number has received and been sent nothing; the others are as they were. -/
theorem InTurn.accepted {s : Reactor ω} (inTurn : s.InTurn) (fd : Fd) :
    Balanced { s with
      isOpen := Function.update s.isOpen fd true
      generation := Function.update s.generation fd (s.generation fd + 1) } := by
  intro c holder held
  have old := inTurn.balanced c holder held
  by_cases new : c = ⟨fd,s.generation fd + 1⟩
  · have later : s.generation c.fd < c.generation := by simp [new]
    obtain ⟨visits,received,sent⟩ := inTurn.faithful.unborn c later
    have untasked : ∀ task, s.Pending task → task.connection ≠ c := by
      rintro task pending rfl
      exact inTurn.owned.not_unborn pending later
    obtain rfl : holder = .idle := idle_of_done untasked held
    refine ⟨?_,.fresh,?_,rfl,?_,fun _ => ?_⟩
    · have unqueued := unqueued_of_done untasked
      simpa [ledger,queuedFor,Worker.unfed,visits,received,fedTo] using unqueued
    · simp [ledger,visits,Machine.run]
    · change s.sentTo c <+: []
      rw [sent]
    · change [] = s.sentTo c ++ []
      rw [sent,List.append_nil]
  · refine old.disconnected rfl ?_
    rintro ⟨isOpen,current⟩
    by_cases same : c.fd = fd
    · simp only [Reactor.current,same,Function.update_self] at current
      exact absurd current new
    · exact ⟨by simpa [same] using isOpen,by simpa [Reactor.current,same] using current⟩

omit [DecidableEq ω] in
theorem InTurn.closed {s : Reactor ω} (inTurn : s.InTurn) (fd : Fd) :
    Balanced { s with isOpen := Function.update s.isOpen fd false } := by
  intro c holder held
  refine (inTurn.balanced c holder held).disconnected rfl ?_
  rintro ⟨isOpen,current⟩
  by_cases same : c.fd = fd
  · simp [same] at isOpen
  · exact ⟨by simpa [same] using isOpen,current⟩

/-- A worker visits the reader of its connection, and the connection alone can do so as well. -/
theorem InTurn.visited {s s' : Reactor ω} (inTurn : s.InTurn) (w : ω) (next : Worker) (v : Visit)
    (task : Task) (has : (s.worker w).task = some task)
    (worker : s'.worker = Function.update s.worker w next)
    (kept : next.task = some task ∨ next = .idle)
    (visits : s'.visits = Function.update s.visits task.connection (s.visits task.connection ++ [v]))
    (ledgers : ∀ c, s'.ledger c = { s.ledger c with visits := s'.visits c })
    (unfed : (s.worker w).unfed = fedTo [v] ++ next.unfed)
    (stepped : ∀ solo : Solo, solo.reader = s.server.reader task.connection.fd →
      solo.Follows (s.ledger task.connection) (s.worker w) →
      ∃ solo', Solo.step solo v = some solo' ∧ solo'.Follows (s.ledger task.connection) next) :
    s'.Once ∧ s'.Balanced := by
  refine inTurn.moved w next task has worker kept (fun c other => ?_) ?_
  · rw [ledgers,visits,Function.update_of_ne other]
    rfl
  · rintro ⟨chunks,solo,ran,follows⟩
    have reader : solo.reader = s.server.reader task.connection.fd := by
      rw [inTurn.faithful.readers,← inTurn.owned task (.inr ⟨w,has⟩)]
      exact Solo.reader_of_run .fresh solo _ [] ran
    obtain ⟨solo',taken,follows'⟩ := stepped solo reader follows
    rw [ledgers,visits,Function.update_self]
    refine ⟨?_,solo',?_,follows'.callback,follows'.front,follows'.whole⟩
    · rw [fedTo_append]
      simpa [unfed,ledger] using chunks
    · exact Machine.run_append _ _ _ _ _ _ ran ((Machine.run_singleton _ _ _).trans taken)

theorem Took.inTurn {s s' : Reactor ω} {event : Event ω} (took : Took s event s')
    (apart : s.KeepsApart event) (inTurn : s.InTurn) : s'.InTurn := by
  have owned := took.owned apart.1 inTurn.owned
  have faithful := took.faithful apart.1 inTurn.owned inTurn.faithful
  have addressed := took.addressed inTurn.owned inTurn.addressed
  -- what is left are the ledgers, and that workers are alone with their connections
  suffices kept : s'.Once ∧ s'.Balanced from ⟨owned,kept.1,faithful,kept.2,addressed⟩
  cases took with
  | accept fd closed => exact ⟨inTurn.once,inTurn.accepted fd⟩
  | data fd bytes isOpen =>
    exact ⟨inTurn.once,fun c holder held =>
      balanced_arrived s c holder fd bytes (inTurn.balanced c holder held)⟩
  | close fd => exact ⟨inTurn.once,inTurn.closed fd⟩
  | pop w task tasks idle front =>
    have nobody : ∀ v, ¬(s.worker v).IsOn task.connection := apart.2 task (by simp [front])
    have after : ∀ c, (Worker.popped task).IsOn c → c = task.connection := by
      intro c on
      exact ((Worker.isOn_popped task c).mp on).symm
    refine ⟨inTurn.once.moved w _ task.connection rfl after fun v _ => nobody v,
      inTurn.balanced.moved w _ task.connection rfl (by simp [idle]) after (fun v _ => nobody v)
        (.inl (by simp)) ?_ ?_⟩
    · intro c other
      simp [ledger,queuedFor,sentTo,Connected,Reactor.current,moveTo,front,Ne.symm other]
    · obtain ⟨chunks,solo,ran,follows⟩ := inTurn.balanced task.connection .idle (.inr ⟨rfl,nobody⟩)
      refine ⟨?_,solo,ran,follows.callback,follows.front,follows.whole⟩
      simpa [ledger,queuedFor,moveTo,front,Worker.unfed] using chunks
  | enter w task popped free =>
    refine inTurn.visited w (.serving task []) (.feed task.data) task (by rw [popped]; rfl) rfl
      (.inl rfl) rfl (fun _ => rfl) (by rw [popped]; rfl) fun solo _ follows => ?_
    rw [popped] at follows
    refine ⟨solo.feed task.data,?_,rfl,follows.front,follows.whole⟩
    simp [Solo.step,follows.callback,Worker.callback]
  | answered w env task result bytes session serving ran =>
    refine inTurn.visited w (.serving task (result ++ [bytes])) (.pass s.server.store env) task
      (by rw [serving]; rfl) rfl (.inl rfl) rfl (fun _ => rfl) (by rw [serving]; rfl)
      fun solo reader follows => ?_
    rw [serving] at follows
    rw [KvServer.session,← reader] at ran
    refine ⟨⟨session.reader,some (result ++ [bytes]),solo.sent⟩,?_,rfl,follows.front,follows.whole⟩
    simp [Solo.step,follows.callback,Worker.callback,Solo.pass,ran]
  | waits w env task result session serving ran =>
    refine inTurn.visited w (.replying task result) (.pass s.server.store env) task
      (by rw [serving]; rfl) rfl (.inl rfl) rfl (fun _ => rfl) (by rw [serving]; rfl)
      fun solo reader follows => ?_
    rw [serving] at follows
    rw [KvServer.session,← reader] at ran
    refine ⟨⟨session.reader,none,solo.sent ++ result.flatten⟩,?_,rfl,
      follows.front.trans (List.prefix_append ..),fun connected => ?_⟩
    · simp [Solo.step,follows.callback,Worker.callback,Solo.pass,ran]
    · have all := follows.whole connected
      simp only [Worker.returned,List.flatten_nil,List.append_nil] at all
      simp only [Worker.returned,all]
  | threw w env task result fault session serving ran =>
    refine inTurn.visited w .idle (.pass s.server.store env) task (by rw [serving]; rfl) rfl (.inr rfl)
      rfl (fun _ => rfl) (by rw [serving]; rfl) fun solo reader follows => ?_
    rw [serving] at follows
    rw [KvServer.session,← reader] at ran
    refine ⟨⟨session.reader,none,solo.sent⟩,?_,rfl,follows.front,follows.whole⟩
    simp [Solo.step,follows.callback,Worker.callback,Solo.pass,ran]
  | send w room task result replying =>
    have current := inTurn.owned task (pending_of_worker replying rfl)
    have sent := sentTo_sendTo s w task.connection result room current
    refine inTurn.moved w .idle task (by rw [replying]; rfl) rfl (.inr rfl) ?_ ?_
    · intro c other
      simp only [ledger,sent c,other,false_and,if_false,List.append_nil]
      rfl
    · rintro ⟨chunks,solo,before,callback,front,whole⟩
      rw [replying] at chunks callback whole
      -- the replies reach the connection as long as it is open, and nobody afterwards
      by_cases isOpen : s.isOpen task.connection.fd = true
      · have all : solo.sent = s.sentTo task.connection ++ result.flatten := whole ⟨isOpen,current⟩
        refine ⟨chunks,solo,before,callback,?_,fun _ => ?_⟩
        · simp [ledger,sent,isOpen,all]
        · simp [ledger,sent,isOpen,all,Worker.returned]
      · refine ⟨chunks,solo,before,callback,?_,fun connected => absurd connected.1 isOpen⟩
        simpa [ledger,sent,isOpen] using front

def served (w : ω) (passes : Nat) : List (Event ω) :=
  [.pop w,.enter w] ++ List.replicate passes (.pass w .faultless) ++ [.send w 4096]

end Reactor

end KvCache
