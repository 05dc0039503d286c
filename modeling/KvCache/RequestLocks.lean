import KvCache.KvServer
import KvCache.LockOrder

/-! The locks of the request path. A worker holds the mutex of a shard while it executes the
commands of a message; the store takes the WAL mutex, its reader-writer lock and the mutex of
the burst window, some after each other and some inside each other. -/
namespace KvCache

inductive Lock where
  | shard (index : Fin SHARD_COUNT)
  | wal
  | store
  | window
  deriving DecidableEq, Repr

namespace RequestLocks

open LockOrder

def lockGuard (lock : Lock) (body : Code Lock) : Code Lock := .scope lock .exclusive body

def sharedLock (lock : Lock) (body : Code Lock) : Code Lock := .scope lock .shared body

def addOp : Code Lock := lockGuard .window .work

def isExceeded : Code Lock := lockGuard .window .work

def clearWindow : Code Lock := lockGuard .window .work

def get : Code Lock := sharedLock .store .work

def existsKey : Code Lock := sharedLock .store .work

def allKeys : Code Lock := sharedLock .store .work

/-- `AppendSet` and `AppendDel`; a failed write throws out of the section. -/
def append : Code Lock := lockGuard .wal .work

/-- The snapshot is written and the log is cleared, which may throw, before the window. -/
def createSnapshot : Code Lock :=
  lockGuard .wal (lockGuard .store (.seq .work clearWindow))

def checkSnapshotTrigger : Code Lock := .seq isExceeded (.choice createSnapshot .work)

/-- What `Set` and `Delete` do around their update of the map. -/
def mutate : Code Lock :=
  .seq append (.seq (lockGuard .store .work) (.seq addOp checkSnapshotTrigger))

def set : Code Lock := mutate

def delete : Code Lock := mutate

def forceSnapshot : Code Lock := createSnapshot

def execute : CommandType → Code Lock
  | .SET => set
  | .GET => get
  | .DEL => delete
  | .EXISTS => existsKey
  | .KEYS => allKeys
  | .UNKNOWN => .work

/-- One pass of the loop: the reader parses, and what it finds is left open. An error reply
takes no lock and is among the cases. -/
def answer : Code Lock :=
  .seq .work (.anyOf ([.SET,.GET,.DEL,.EXISTS,.KEYS,.UNKNOWN].map execute))

/-- The message callback: `while (true)` under the mutex of the shard. -/
def onMessage (fd : Fd) : Code Lock :=
  lockGuard (.shard (KvServer.getShard fd)) (.seq .work (.loop answer))

/-- What a thread does: a worker handles the messages that the pool gives it, each in a task
that keeps its exception; another thread calls `ForceSnapshot`. -/
inductive Role where
  | worker (messages : List Fd)
  | snapshots (calls : Nat)
  deriving Repr

def Role.code : Role → Code Lock
  | worker messages => .inTurn (messages.map onMessage)
  | snapshots calls => .inTurn (List.replicate calls forceSnapshot)

def rank : Lock → Nat
  | .shard _ => 0
  | .wal => 1
  | .store => 2
  | .window => 3

theorem createSnapshot_ordered (least : Nat) (below : least ≤ rank .wal) :
    createSnapshot.Ordered rank least := by
  simp only [createSnapshot,lockGuard,Code.Ordered]
  exact ⟨below,by decide,trivial,by decide,trivial⟩

theorem mutate_ordered : mutate.Ordered rank 1 := by
  have snapshot := createSnapshot_ordered 1 (Nat.le_refl 1)
  simp [mutate,append,addOp,checkSnapshotTrigger,isExceeded,lockGuard,Code.Ordered,rank,snapshot]

theorem execute_ordered (type : CommandType) : (execute type).Ordered rank 1 := by
  cases type with
  | SET | DEL => exact mutate_ordered
  | GET | EXISTS | KEYS => simp [execute,get,existsKey,allKeys,sharedLock,Code.Ordered,rank]
  | UNKNOWN => trivial

theorem onMessage_ordered (fd : Fd) : (onMessage fd).Ordered rank 0 := by
  have pass : answer.Ordered rank 1 := by
    refine ⟨trivial,Code.anyOf_ordered rank 1 _ fun c member => ?_⟩
    obtain ⟨type,_,rfl⟩ := List.mem_map.mp member
    exact execute_ordered type
  exact ⟨Nat.zero_le _,trivial,pass⟩

theorem Role.code_ordered (role : Role) : role.code.Ordered rank 0 := by
  cases role with
  | worker messages =>
    refine Code.inTurn_ordered rank 0 _ fun c member => ?_
    obtain ⟨fd,_,rfl⟩ := List.mem_map.mp member
    exact onMessage_ordered fd
  | snapshots calls =>
    refine Code.inTurn_ordered rank 0 _ fun c member => ?_
    rw [List.eq_of_mem_replicate member]
    exact createSnapshot_ordered 0 (Nat.zero_le _)

section Threads

variable {τ : Type} [Fintype τ] [DecidableEq τ]

def start (roles : τ → Role) : τ → Thread Lock := fun i => Thread.start (roles i).code

/-- While a thread is in a section of the WAL, of the window or of a shard, or writes to the
store, no other thread is in a section of the same lock; readers of the store share it. -/
theorem sections_exclude (writersFirst : Bool) (roles : τ → Role) (labels : List (τ × Bool))
    (s : τ → Thread Lock)
    (ran : Machine.run (step writersFirst) (start roles) labels = some s) : Exclusive s :=
  run_exclusive writersFirst (fun i => (roles i).code) labels s ran

/-- The request path does not deadlock. Whatever messages the workers get, whoever takes
snapshots and however the threads interleave, some thread can step until all have finished,
also where the reader-writer lock lets writers go first. -/
theorem request_path_progress (writersFirst : Bool) (roles : τ → Role)
    (labels : List (τ × Bool)) (s : τ → Thread Lock)
    (ran : Machine.run (step writersFirst) (start roles) labels = some s) (i : τ)
    (unfinished : ¬(s i).Finished) : ∃ label s', step writersFirst s label = some s' :=
  run_progress writersFirst rank (fun i => (roles i).code) (fun i => (roles i).code_ordered) labels
    s ran i unfinished

end Threads

def pair : Fin 2 → Role
  | 0 => .worker [3]
  | 1 => .snapshots 1

/-- The snapshot has the WAL mutex; the worker, in a Set, asks for it. -/
def contention : List (Fin 2 × Bool) :=
  [(1,true),(1,true),(1,true),(0,true),(0,true),(0,true),(0,true),(0,false),(0,true),(0,true),
    (0,false),(0,true),(0,true)]

theorem request_path_progress_contended :
    ∃ s, Machine.run (step true) (start pair) contention = some s ∧
      (∀ pick, step true s (0,pick) = none) ∧ ∃ label s', step true s label = some s' :=
  ⟨(Machine.run (step true) (start pair) contention).get (by decide),
    (Option.some_get _).symm,by decide,
    request_path_progress true pair contention _ (Option.some_get _).symm 0 (by decide)⟩

end RequestLocks

end KvCache
