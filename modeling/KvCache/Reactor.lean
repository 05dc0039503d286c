import KvCache.KvServer
import KvCache.Machine

/-! The server around the callback: the reactor thread accepts, reads and closes, a queue
of tasks, and workers that take a task, run the callback under the mutex of a shard, and
send what it returns. A number may be given to a new connection once it has been closed;
generations, which the program does not have, tell the connections of a number apart. -/
namespace KvCache

structure Connection where
  fd : Fd
  generation : Nat
  deriving DecidableEq, Repr

/-- A submitted task. The program's task has the number of the connection only. -/
structure Task where
  connection : Connection
  data : Bytes
  deriving DecidableEq, Repr

/-- Where a worker stands: waiting, behind the pop, inside the callback, behind its return. -/
inductive Worker where
  | idle
  | popped (task : Task)
  | serving (task : Task) (result : List Bytes)
  | replying (task : Task) (result : List Bytes)
  deriving DecidableEq, Repr

namespace Worker

def task : Worker → Option Task
  | idle => none
  | popped task | serving task _ | replying task _ => some task

def unfed : Worker → List Bytes
  | popped task => [task.data]
  | _ => []

def unsent : Worker → List Bytes
  | serving _ result | replying _ result => result
  | _ => []

def shard : Worker → Option (Fin SHARD_COUNT)
  | serving task _ => some (KvServer.getShard task.connection.fd)
  | _ => none

end Worker

/-- What a callback does to the reader of its connection: it appends a chunk, or makes a
pass of its loop on the store as it stands. -/
inductive Visit where
  | feed (data : Bytes)
  | pass (store : PersistentKvStore) (env : Env)

structure Sending where
  /-- The connection that has the number when it is sent to. -/
  receiver : Option Connection
  /-- The connection the bytes of the task came from. -/
  source : Connection
  replies : List Bytes
  /-- What the one call of `send` took; the rest is dropped. -/
  taken : Bytes
  deriving DecidableEq, Repr

structure Reactor (ω : Type) where
  server : KvServer
  generation : Fd → Nat
  isOpen : Fd → Bool
  tasks : List Task
  /-- The mutexes of the shards. -/
  locked : Fin SHARD_COUNT → Bool
  worker : ω → Worker
  /-- The chunks received on each connection. -/
  received : Connection → List Bytes
  /-- What the callbacks on the chunks of each connection did. -/
  visits : Connection → List Visit
  /-- The replies that these callbacks computed. -/
  replies : Connection → List Bytes
  sent : List Sending

namespace Reactor

variable {ω : Type} [DecidableEq ω]

def current (s : Reactor ω) (fd : Fd) : Connection := ⟨fd,s.generation fd⟩

def boot (store : PersistentKvStore) : Reactor ω :=
  ⟨.start store,fun _ => 0,fun _ => false,[],fun _ => false,fun _ => .idle,fun _ => [],fun _ => [],
    fun _ => [],[]⟩

def Pending (s : Reactor ω) (task : Task) : Prop :=
  task ∈ s.tasks ∨ ∃ w, (s.worker w).task = some task

omit [DecidableEq ω] in
theorem pending_of_worker {s : Reactor ω} {w : ω} {worker : Worker} {task : Task}
    (held : s.worker w = worker) (has : worker.task = some task) : s.Pending task :=
  .inr ⟨w,held ▸ has⟩

/-- The reactor thread's events, and the steps of the workers. -/
inductive Event (ω : Type) where
  | accept (fd : Fd)
  | data (fd : Fd) (bytes : Bytes)
  | close (fd : Fd)
  | pop (w : ω)
  | enter (w : ω)
  | pass (w : ω) (env : Env)
  -- a non-blocking `send` takes as much as there is room for
  | send (w : ω) (room : Nat)

def moveTo (s : Reactor ω) (w : ω) (worker : Worker) : Reactor ω :=
  { s with worker := Function.update s.worker w worker }

def visit (s : Reactor ω) (c : Connection) (server : KvServer) (v : Visit) : Reactor ω :=
  { s with server := server, visits := Function.update s.visits c (s.visits c ++ [v]) }

def setLock (s : Reactor ω) (fd : Fd) (held : Bool) : Reactor ω :=
  { s with locked := Function.update s.locked (KvServer.getShard fd) held }

def reply (s : Reactor ω) (c : Connection) (bytes : Bytes) : Reactor ω :=
  { s with replies := Function.update s.replies c (s.replies c ++ [bytes]) }

/-- `send` reaches the connection that has the number now; an empty reply is not sent. -/
def sendTo (s : Reactor ω) (c : Connection) (result : List Bytes) (room : Nat) : Reactor ω :=
  { s with sent := s.sent ++ if result.flatten = [] then []
      else [⟨if s.isOpen c.fd then some (s.current c.fd) else none,c,result,
        result.flatten.take room⟩] }

/-- One step. `recv` returns between one and 4096 bytes; an exception that leaves the
callback is kept in the task's future, and the worker goes on to its next task. -/
def step (s : Reactor ω) : Event ω → Option (Reactor ω)
  | .accept fd =>
    if s.isOpen fd then none
    else some { s with
      isOpen := Function.update s.isOpen fd true
      generation := Function.update s.generation fd (s.generation fd + 1) }
  | .data fd bytes =>
    if s.isOpen fd ∧ 0 < bytes.length ∧ bytes.length ≤ 4096 then
      some { s with
        tasks := s.tasks ++ [⟨s.current fd,bytes⟩]
        received := Function.update s.received (s.current fd)
          (s.received (s.current fd) ++ [bytes]) }
    else none
  | .close fd =>
    if s.isOpen fd then some { s with isOpen := Function.update s.isOpen fd false } else none
  | .pop w =>
    match s.worker w, s.tasks with
    | .idle, task :: tasks => some ({ s with tasks := tasks }.moveTo w (.popped task))
    | _, _ => none
  | .enter w =>
    match s.worker w with
    | .popped task =>
      if s.locked (KvServer.getShard task.connection.fd) then none
      else do
        let server ← Act.final (KvServer.onSession task.connection.fd
          (Session.onReader (RespReader.feed task.data)) s.server)
        return ((s.visit task.connection server (.feed task.data)).setLock task.connection.fd
          true).moveTo w (.serving task [])
    | _ => none
  | .pass w env =>
    match s.worker w with
    | .serving task result =>
      let v := Visit.pass s.server.store env
      match KvServer.onSession task.connection.fd (Session.answer env) s.server with
      | .ok (some bytes) server =>
        some (((s.visit task.connection server v).reply task.connection bytes).moveTo w
          (.serving task (result ++ [bytes])))
      | .ok none server =>
        some (((s.visit task.connection server v).setLock task.connection.fd false).moveTo w
          (.replying task result))
      | .error fault server =>
        if fault.isException then
          some (((s.visit task.connection server v).setLock task.connection.fd false).moveTo w .idle)
        else none
    | _ => none
  | .send w room =>
    match s.worker w with
    | .replying task result => some ((s.sendTo task.connection result room).moveTo w .idle)
    | _ => none

inductive Took (s : Reactor ω) : Event ω → Reactor ω → Prop
  | accept (fd : Fd) (closed : s.isOpen fd = false) :
      Took s (.accept fd) { s with
        isOpen := Function.update s.isOpen fd true
        generation := Function.update s.generation fd (s.generation fd + 1) }
  | data (fd : Fd) (bytes : Bytes) (isOpen : s.isOpen fd = true) :
      Took s (.data fd bytes) { s with
        tasks := s.tasks ++ [⟨s.current fd,bytes⟩]
        received := Function.update s.received (s.current fd)
          (s.received (s.current fd) ++ [bytes]) }
  | close (fd : Fd) : Took s (.close fd) { s with isOpen := Function.update s.isOpen fd false }
  | pop (w : ω) (task : Task) (tasks : List Task) (idle : s.worker w = .idle)
      (front : s.tasks = task :: tasks) :
      Took s (.pop w) ({ s with tasks := tasks }.moveTo w (.popped task))
  | enter (w : ω) (task : Task) (popped : s.worker w = .popped task)
      (free : s.locked (KvServer.getShard task.connection.fd) = false) :
      Took s (.enter w) (((s.visit task.connection (s.server.withSession task.connection.fd
        ⟨⟨(s.server.reader task.connection.fd).buf ++ task.data⟩,s.server.store⟩)
          (.feed task.data)).setLock task.connection.fd true).moveTo w (.serving task []))
  | answered (w : ω) (env : Env) (task : Task) (result : List Bytes) (bytes : Bytes)
      (session : Session) (serving : s.worker w = .serving task result)
      (ran : Session.answer env (s.server.session task.connection.fd) = .ok (some bytes) session) :
      Took s (.pass w env) (((s.visit task.connection
        (s.server.withSession task.connection.fd session) (.pass s.server.store env)).reply
          task.connection bytes).moveTo w (.serving task (result ++ [bytes])))
  | waits (w : ω) (env : Env) (task : Task) (result : List Bytes) (session : Session)
      (serving : s.worker w = .serving task result)
      (ran : Session.answer env (s.server.session task.connection.fd) = .ok none session) :
      Took s (.pass w env) (((s.visit task.connection
        (s.server.withSession task.connection.fd session) (.pass s.server.store env)).setLock
          task.connection.fd false).moveTo w (.replying task result))
  | threw (w : ω) (env : Env) (task : Task) (result : List Bytes) (fault : Fault)
      (session : Session) (serving : s.worker w = .serving task result)
      (ran : Session.answer env (s.server.session task.connection.fd) = .error fault session) :
      Took s (.pass w env) (((s.visit task.connection
        (s.server.withSession task.connection.fd session) (.pass s.server.store env)).setLock
          task.connection.fd false).moveTo w .idle)
  | send (w : ω) (room : Nat) (task : Task) (result : List Bytes)
      (replying : s.worker w = .replying task result) :
      Took s (.send w room) ((s.sendTo task.connection result room).moveTo w .idle)

theorem took_of_step (s s' : Reactor ω) (event : Event ω) (taken : step s event = some s') :
    Took s event s' := by
  cases event with
  | accept fd =>
    simp only [step] at taken
    split at taken
    · cases taken
    next closed =>
      cases taken
      exact .accept fd (Bool.eq_false_iff.mpr closed)
  | data fd bytes =>
    simp only [step] at taken
    split at taken
    next allowed =>
      cases taken
      exact .data fd bytes allowed.1
    · cases taken
  | close fd =>
    simp only [step] at taken
    split at taken
    · cases taken
      exact .close fd
    · cases taken
  | pop w =>
    simp only [step] at taken
    split at taken
    next task tasks idle front =>
      cases taken
      exact .pop w task tasks idle front
    · cases taken
  | enter w =>
    simp only [step] at taken
    split at taken
    next task popped =>
      split at taken
      · cases taken
      next free =>
        cases taken
        exact .enter w task popped (Bool.eq_false_iff.mpr free)
    · cases taken
  | pass w env =>
    simp only [step] at taken
    split at taken
    next task result serving =>
      split at taken
      next bytes server ran =>
        obtain ⟨session,run,rfl⟩ := KvServer.onSession_ok _ _ _ _ _ ran
        cases taken
        exact .answered w env task result bytes session serving run
      next server ran =>
        obtain ⟨session,run,rfl⟩ := KvServer.onSession_ok _ _ _ _ _ ran
        cases taken
        exact .waits w env task result session serving run
      next fault server ran =>
        obtain ⟨session,run,rfl⟩ := KvServer.onSession_error _ _ _ _ _ ran
        split at taken
        · cases taken
          exact .threw w env task result fault session serving run
        · cases taken
    · cases taken
  | send w room =>
    simp only [step] at taken
    split at taken
    next task result replying =>
      cases taken
      exact .send w room task result replying
    · cases taken

theorem task_moved {worker : ω → Worker} {w v : ω} {next : Worker} {task : Task}
    (has : (Function.update worker w next v).task = some task) :
    next.task = some task ∨ ∃ u, (worker u).task = some task := by
  by_cases same : v = w
  · subst same
    exact .inl (by simpa using has)
  · exact .inr ⟨v,by simpa [same] using has⟩

theorem Took.pending {s s' : Reactor ω} {event : Event ω} (took : Took s event s') {task : Task}
    (pending : s'.Pending task) :
    s.Pending task ∨ ∃ fd bytes, event = .data fd bytes ∧ task = ⟨s.current fd,bytes⟩ := by
  -- a worker that moves keeps the task it has, or drops it
  have kept : ∀ w next held, s'.tasks = s.tasks → s'.worker = Function.update s.worker w next →
      (s.worker w).task = some held → (next.task = some held ∨ next.task = none) →
      s.Pending task := by
    intro w next held tasks worker own within
    rcases pending with queued | ⟨v,has⟩
    · exact .inl (tasks ▸ queued)
    · rw [worker] at has
      rcases task_moved has with moved | old
      · rcases within with same | none
        · exact .inr ⟨w,by rw [own,← same,moved]⟩
        · simp [none] at moved
      · exact .inr old
  cases took with
  | accept fd closed => exact .inl pending
  | data fd bytes isOpen =>
    rcases pending with queued | held
    · rcases List.mem_append.mp queued with old | new
      · exact .inl (.inl old)
      · exact .inr ⟨fd,bytes,rfl,List.mem_singleton.mp new⟩
    · exact .inl (.inr held)
  | close fd => exact .inl pending
  | pop w first tasks idle front =>
    rcases pending with queued | ⟨v,has⟩
    · exact .inl (.inl (front ▸ List.mem_cons_of_mem first queued))
    · rcases task_moved has with moved | old
      · obtain rfl := Option.some.inj moved
        exact .inl (.inl (front ▸ List.mem_cons_self))
      · exact .inl (.inr old)
  | enter w held popped free =>
    exact .inl (kept w (.serving held []) held rfl rfl (by rw [popped]; rfl) (.inl rfl))
  | answered w env held result bytes session serving ran =>
    exact .inl (kept w (.serving held (result ++ [bytes])) held rfl rfl (by rw [serving]; rfl)
      (.inl rfl))
  | waits w env held result session serving ran =>
    exact .inl (kept w (.replying held result) held rfl rfl (by rw [serving]; rfl) (.inl rfl))
  | threw w env held result fault session serving ran =>
    exact .inl (kept w .idle held rfl rfl (by rw [serving]; rfl) (.inr rfl))
  | send w room held result replying =>
    exact .inl (kept w .idle held rfl rfl (by rw [replying]; rfl) (.inr rfl))

theorem Took.generation {s s' : Reactor ω} {event : Event ω} (took : Took s event s') (fd : Fd)
    (other : event ≠ .accept fd) : s'.generation fd = s.generation fd := by
  cases took with
  | accept accepted closed =>
    have ne : fd ≠ accepted := fun same => other (by rw [same])
    simp [ne]
  | _ => rfl

theorem Took.received {s s' : Reactor ω} {event : Event ω} (took : Took s event s')
    (c : Connection) : s.received c <+: s'.received c := by
  cases took with
  | data fd bytes isOpen =>
    by_cases same : c = s.current fd
    · simp [same]
    · simp [same]
  | _ => exact List.prefix_refl _

/-- A worker inside the callback holds the mutex of its shard, and is alone with it. -/
structure Exclusive (locked : Fin SHARD_COUNT → Bool) (worker : ω → Worker) : Prop where
  holds : ∀ w h, (worker w).shard = some h → locked h = true
  alone : ∀ w w' h, (worker w).shard = some h → (worker w').shard = some h → w = w'

namespace Exclusive

variable {locked : Fin SHARD_COUNT → Bool} {worker : ω → Worker}

theorem move (exclusive : Exclusive locked worker) (w : ω) (next : Worker)
    (within : ∀ h, next.shard = some h → (worker w).shard = some h) :
    Exclusive locked (Function.update worker w next) := by
  have back : ∀ v h, (Function.update worker w next v).shard = some h →
      (worker v).shard = some h := by
    intro v h
    by_cases same : v = w
    · subst same
      simpa using within h
    · simp [same]
  exact ⟨fun v h inside => exclusive.holds v h (back v h inside),
    fun v v' h first second => exclusive.alone v v' h (back v h first) (back v' h second)⟩

theorem lock (exclusive : Exclusive locked worker) (w : ω) (next : Worker) (shard : Fin SHARD_COUNT)
    (free : locked shard = false) (takes : next.shard = some shard) :
    Exclusive (Function.update locked shard true) (Function.update worker w next) := by
  have other : ∀ v h, v ≠ w → (Function.update worker w next v).shard = some h →
      locked h = true ∧ h ≠ shard := by
    intro v h ne inside
    have held := exclusive.holds v h (by simpa [ne] using inside)
    exact ⟨held,fun same => by simp [same,free] at held⟩
  have own : ∀ h, (Function.update worker w next w).shard = some h → h = shard := by
    intro h inside
    simpa [takes,eq_comm] using inside
  constructor
  · intro v h inside
    by_cases same : v = w
    · subst same
      simp [own h inside]
    · obtain ⟨held,ne⟩ := other v h same inside
      simp [ne,held]
  · intro v v' h first second
    by_cases same : v = w
    · subst same
      by_cases same' : v' = v
      · exact same'.symm
      · exact absurd (own h first) (other v' h same' second).2
    · by_cases same' : v' = w
      · subst same'
        exact absurd (own h second) (other v h same first).2
      · exact exclusive.alone v v' h (by simpa [same] using first) (by simpa [same'] using second)

theorem unlock (exclusive : Exclusive locked worker) (w : ω) (next : Worker)
    (shard : Fin SHARD_COUNT) (held : (worker w).shard = some shard) (leaves : next.shard = none) :
    Exclusive (Function.update locked shard false) (Function.update worker w next) := by
  have moved := exclusive.move w next (by simp [leaves])
  refine ⟨fun v h inside => ?_,moved.alone⟩
  have locked := moved.holds v h inside
  by_cases same : h = shard
  · subst same
    by_cases own : v = w
    · subst own
      simp [leaves] at inside
    · exact absurd (exclusive.alone v w h (by simpa [own] using inside) held) own
  · simpa [same] using locked

end Exclusive

theorem Took.exclusive {s s' : Reactor ω} {event : Event ω} (took : Took s event s')
    (exclusive : Exclusive s.locked s.worker) : Exclusive s'.locked s'.worker := by
  cases took with
  | accept fd closed => exact exclusive
  | data fd bytes isOpen => exact exclusive
  | close fd => exact exclusive
  | pop w task tasks idle front => exact exclusive.move w (.popped task) (by simp [Worker.shard])
  | enter w task popped free => exact exclusive.lock w (.serving task []) _ free rfl
  | answered w env task result bytes session serving ran =>
    exact exclusive.move w (.serving task (result ++ [bytes])) (by simp [Worker.shard,serving])
  | waits w env task result session serving ran =>
    exact exclusive.unlock w (.replying task result) _ (by simp [Worker.shard,serving]) rfl
  | threw w env task result fault session serving ran =>
    exact exclusive.unlock w .idle _ (by simp [Worker.shard,serving]) rfl
  | send w room task result replying =>
    exact exclusive.move w .idle (by simp [Worker.shard])

end Reactor

end KvCache
