import KvCache.ClientServer

/-! The calls of all clients as one sequence. Each call takes effect at one moment between its
beginning and its return; with commands that arrive in one piece this holds whatever the
workers do, otherwise their chunks have to be taken in turn. -/
namespace KvCache
namespace Network

open Linearizability (Atomic Linearizable)

variable {ω : Type} [DecidableEq ω]

/-- However the bytes are cut, whichever workers take the chunks and whenever they and the clients
move, come and go between calls: as long as the chunks of a connection are taken in turn and the
files can be written, the calls of all clients have the answers of one plain map that takes them
one after another, each between its call and its return. -/
theorem calls_linearizable (store : PersistentKvStore) (map : PlainMap) (holds : Holds store map)
    (short : ShortValues map) (turns : List (Turn ω)) (t : Network ω)
    (admitted : ∀ turn ∈ turns, turn.Admitted)
    (inTurn : Machine.Guarded step InTurn (boot store) turns)
    (ran : Machine.run step (boot store) turns = some t) :
    Linearizable ClientOp.answer map t.history :=
  Atomic.linearizable_of_simulation step Network.history InTurn Turn.Admitted Simulates
    (fun _ _ sim => sim.history)
    (fun _ _ turn s' sim admitted inTurn taken => sim.step turn s' admitted inTurn taken)
    map (boot store) t turns (simulates_boot store map holds short) admitted inTurn ran

def overlapping : List (Turn Bool) :=
  let sets : Bytes := serializeCommand ⟨.SET,[ascii "k",ascii "v"],.NONE⟩
  let gets : Bytes := serializeCommand ⟨.GET,[ascii "k"],.NONE⟩
  [.server (.accept 5),.server (.accept 6),.call 5 (.set (ascii "k") (ascii "v")),
    .call 6 (.get (ascii "k")),.server (.data 5 (sets.take 10)),.server (.data 6 gets),
    .server (.pop true),.server (.pop false),.server (.enter false),.server (.enter true),
    .server (.pass true .faultless),.server (.send true 4096),.server (.data 5 (sets.drop 10)),
    .server (.pop true),.server (.enter true),.server (.pass true .faultless),
    .server (.pass false .faultless),.server (.pass false .faultless),.server (.send false 4096),
    .receive 6 3,.receive 6 4,.ret 6,.server (.pass true .faultless),.disconnect 6,
    .server (.send true 4096),.server (.close 6),.receive 5 5,.ret 5,.server (.accept 6),
    .call 6 (.get (ascii "k"))]

theorem calls_linearizable_overlapping :
    ∃ t, Machine.run step (boot .opened) overlapping = some t ∧
      t.history = [.invoke (5,0) (.set (ascii "k") (ascii "v")),.invoke (6,0) (.get (ascii "k")),
        .respond (6,0) (.value (some (ascii "v"))),.respond (5,0) (.flag true),
        .invoke (6,1) (.get (ascii "k"))] ∧
      Linearizable ClientOp.answer ∅ t.history := by
  have ends : (Machine.run step (boot .opened) overlapping).map Network.history =
      some [.invoke (5,0) (.set (ascii "k") (ascii "v")),.invoke (6,0) (.get (ascii "k")),
        .respond (6,0) (.value (some (ascii "v"))),.respond (5,0) (.flag true),
        .invoke (6,1) (.get (ascii "k"))] := by decide +kernel
  obtain ⟨t,ran,history⟩ := Option.map_eq_some_iff.mp ends
  refine ⟨t,ran,history,calls_linearizable .opened ∅ ⟨⟨[],rfl,rfl,rfl,rfl,rfl⟩,rfl⟩ nofun overlapping t
    ?_ (by decide +kernel) ran⟩
  have sets : (ClientOp.set (ascii "k") (ascii "v")).command.WellFormed := ⟨rfl,by decide,rfl⟩
  have gets : (ClientOp.get (ascii "k")).command.WellFormed := ⟨rfl,by decide,rfl⟩
  simp [overlapping,Turn.Admitted,Io.faultless_succeeds,sets,gets]

/-- The server receives all that a client has sent at once. -/
def Whole (s : Network ω) : Turn ω → Prop
  | .server (.data fd bytes) => bytes = s.toServer fd
  | .server (.pass _ _) => s.Countable
  | _ => True

instance (s : Network ω) : (turn : Turn ω) → Decidable (s.Whole turn)
  | .server (.data _ _) => inferInstanceAs (Decidable (_ = _))
  | .server (.pass _ _) => inferInstanceAs (Decidable (_ < _))
  | .call _ _ | .receive _ _ | .ret _ | .disconnect _ | .server (.accept _) | .server (.pop _)
  | .server (.close _) | .server (.enter _) | .server (.send _ _) => .isTrue trivial

/-- At most one chunk of a connection is on its way or at a worker. -/
structure Unsplit (s : Network ω) : Prop where
  busy : ∀ w c, (s.reactor.worker w).IsOn c → s.toServer c.fd = [] ∧ s.reactor.queuedFor c = []
  sent : ∀ c, s.toServer c.fd ≠ [] → s.reactor.queuedFor c = []
  queued : ∀ c, (s.reactor.queuedFor c).length ≤ 1

section Whole

variable {s s' : Network ω} {a : Atomic Fd ClientOp ClientReply PlainMap}

omit [DecidableEq ω] in
theorem Unsplit.workers (unsplit : s.Unsplit) (tasks : s'.reactor.tasks = s.reactor.tasks)
    (toServer : s'.toServer = s.toServer)
    (worker : ∀ w c, (s'.reactor.worker w).IsOn c → (s.reactor.worker w).IsOn c) : s'.Unsplit := by
  have queued (c : Connection) : s'.reactor.queuedFor c = s.reactor.queuedFor c := by
    rw [Reactor.queuedFor,tasks,Reactor.queuedFor]
  refine ⟨fun w c on => ?_,fun c => ?_,fun c => ?_⟩
  · rw [queued,toServer]
    exact unsplit.busy w c (worker w c on)
  · rw [queued,toServer]
    exact unsplit.sent c
  · rw [queued]
    exact unsplit.queued c

theorem isOn_moved {worker : ω → Worker} {w v : ω} {next : Worker} {c : Connection}
    (goesOn : next.task = (worker w).task ∨ next = .idle)
    (on : (Function.update worker w next v).IsOn c) : (worker v).IsOn c := by
  by_cases same : v = w
  · subst same
    rw [Function.update_self] at on
    rcases goesOn with kept | rfl
    · rwa [Worker.IsOn,← kept]
    · cases on
  · rwa [Function.update_of_ne same] at on

theorem Unsplit.pop (unsplit : s.Unsplit) (w : ω) (task : Task) (tasks : List Task)
    (front : s.reactor.tasks = task :: tasks) :
    Unsplit { s with reactor := { s.reactor with tasks := tasks }.moveTo w (.popped task) } := by
  have own : s.reactor.queuedFor task.connection = task.data ::
      Reactor.queuedFor ({ s.reactor with tasks := tasks }.moveTo w (.popped task)) task.connection := by
    simp [Reactor.queuedFor,Reactor.moveTo,front]
  have one := unsplit.queued task.connection
  rw [own,List.length_cons] at one
  have left : Reactor.queuedFor ({ s.reactor with tasks := tasks }.moveTo w (.popped task))
      task.connection = [] := List.eq_nil_of_length_eq_zero (by omega)
  have arrived : s.toServer task.connection.fd = [] := by
    by_contra waiting
    have empty := unsplit.sent _ waiting
    rw [own] at empty
    cases empty
  have others (c : Connection) (apart : c ≠ task.connection) :
      Reactor.queuedFor ({ s.reactor with tasks := tasks }.moveTo w (.popped task)) c =
        s.reactor.queuedFor c := by
    simp [Reactor.queuedFor,Reactor.moveTo,front,Ne.symm apart]
  refine ⟨fun v c on => ?_,fun c sent => ?_,fun c => ?_⟩
  all_goals
    by_cases same : c = task.connection
  · rw [same]
    exact ⟨arrived,left⟩
  · rw [others c same]
    apply unsplit.busy v c
    by_cases self : v = w
    · subst self
      simp only [Reactor.moveTo,Function.update_self,Worker.isOn_popped] at on
      exact absurd on.symm same
    · simpa [Reactor.moveTo,self] using on
  · rw [same]
    exact left
  · rw [others c same]
    exact unsplit.sent c sent
  · rw [same,left]
    exact Nat.zero_le 1
  · rw [others c same]
    exact unsplit.queued c

omit [DecidableEq ω] in
/-- With one chunk at a time, no chunk can be overtaken. -/
theorem Unsplit.inTurn (unsplit : s.Unsplit) (turn : Turn ω) (whole : s.Whole turn) :
    s.InTurn turn := by
  cases turn with
  | server event =>
    cases event with
    | pop w =>
      intro task first v on
      have empty := (unsplit.busy v _ on).2
      rw [Reactor.queuedFor,List.map_eq_nil_iff,List.filter_eq_nil_iff] at empty
      exact empty task (List.mem_of_mem_head? first) (decide_eq_true rfl)
    | pass w env => exact whole
    | accept _ | data _ _ | close _ | enter _ | send _ _ => trivial
  | call _ _ | receive _ _ | ret _ | disconnect _ => trivial

theorem Unsplit.data (unsplit : s.Unsplit) (fd : Fd) (r : Reactor ω)
    (taken : Reactor.step s.reactor (.data fd (s.toServer fd)) = some r) :
    Unsplit { s with reactor := r
                     toServer := Function.update s.toServer fd
                       ((s.toServer fd).drop (s.toServer fd).length) } := by
  simp only [Reactor.step] at taken
  split at taken
  next ready =>
    cases taken
    have nonempty : s.toServer fd ≠ [] := List.ne_nil_of_length_pos ready.2.1
    have empty := unsplit.sent (s.reactor.current fd) nonempty
    have own : Reactor.queuedFor { s.reactor with
        tasks := s.reactor.tasks ++ [⟨s.reactor.current fd,s.toServer fd⟩] } (s.reactor.current fd) =
          [s.toServer fd] := by
      rw [Reactor.queuedFor,List.map_eq_nil_iff] at empty
      simp [Reactor.queuedFor,empty]
    have others (c : Connection) (apart : c ≠ s.reactor.current fd) : Reactor.queuedFor { s.reactor with
        tasks := s.reactor.tasks ++ [⟨s.reactor.current fd,s.toServer fd⟩] } c =
          s.reactor.queuedFor c := by
      simp [Reactor.queuedFor,Ne.symm apart]
    refine ⟨fun w c on => ?_,fun c sent => ?_,fun c => ?_⟩
    · have busy := unsplit.busy w c on
      have apart : c.fd ≠ fd := by
        rintro rfl
        exact nonempty busy.1
      have other : c ≠ s.reactor.current fd := fun same => apart (by rw [same]; rfl)
      exact ⟨by simpa [apart] using busy.1,(others c other).trans busy.2⟩
    · have apart : c.fd ≠ fd := by
        rintro rfl
        simp at sent
      have other : c ≠ s.reactor.current fd := fun same => apart (by rw [same]; rfl)
      exact (others c other).trans (unsplit.sent c (by simpa [apart] using sent))
    · by_cases same : c = s.reactor.current fd
      · subst same
        exact Nat.le_of_eq (congrArg List.length own)
      · exact Nat.le_trans (Nat.le_of_eq (congrArg List.length (others c same))) (unsplit.queued c)
  next => cases taken

theorem Unsplit.took {r : Reactor ω} {event : Reactor.Event ω} (unsplit : s.Unsplit)
    (took : Reactor.Took s.reactor event r) (reactor : s'.reactor = r)
    (toServer : s'.toServer = s.toServer) (other : ∀ fd bytes, event ≠ .data fd bytes) :
    s'.Unsplit := by
  have moved (tasks : r.tasks = s.reactor.tasks)
      (worker : ∀ v c, (r.worker v).IsOn c → (s.reactor.worker v).IsOn c) : s'.Unsplit :=
    unsplit.workers (by rw [reactor,tasks]) toServer (by rw [reactor]; exact worker)
  cases took with
  | accept fd closed => exact moved rfl fun _ _ on => on
  | data fd bytes isOpen => exact absurd rfl (other fd bytes)
  | close fd => exact moved rfl fun _ _ on => on
  | pop w task tasks idle front =>
    obtain ⟨busy,sent,queued⟩ := unsplit.pop w task tasks front
    exact ⟨by rw [reactor,toServer]; exact busy,by rw [reactor,toServer]; exact sent,
      by rw [reactor]; exact queued⟩
  | enter w task popped free =>
    exact moved rfl fun _ _ on => isOn_moved (.inl (by rw [popped]; rfl)) on
  | answered w env task result bytes session serving ran =>
    exact moved rfl fun _ _ on => isOn_moved (.inl (by rw [serving]; rfl)) on
  | waits w env task result session serving ran =>
    exact moved rfl fun _ _ on => isOn_moved (.inl (by rw [serving]; rfl)) on
  | threw w env task result fault session serving ran =>
    exact moved rfl fun _ _ on => isOn_moved (.inr rfl) on
  | send w room task result replying =>
    exact moved rfl fun _ _ on => isOn_moved (.inr rfl) on

theorem Unsplit.call (unsplit : s.Unsplit) (sim : s.Simulates a) (fd : Fd) (op : ClientOp)
    (taken : Network.step s (.call fd op) = some s') : s'.Unsplit := by
  simp only [Network.step] at taken
  split at taken
  next ready =>
    cases taken
    obtain ⟨-,-,-,untasked⟩ := sim.quiet fd ready.2.1
    refine ⟨fun w c on => ?_,fun c sent => ?_,unsplit.queued⟩
    · obtain ⟨task,has,named⟩ := (Worker.isOn_iff _ c).mp on
      have apart : c.fd ≠ fd := named ▸ untasked task (.inr ⟨w,has⟩)
      simpa [apart] using unsplit.busy w c on
    · by_cases same : c.fd = fd
      · apply Reactor.unqueued_of_done
        rintro task pending rfl
        exact untasked task pending same
      · exact unsplit.sent c (by simpa [same] using sent)
  next => cases taken

theorem Unsplit.step (unsplit : s.Unsplit) (sim : s.Simulates a) (turn : Turn ω)
    (whole : s.Whole turn) (taken : Network.step s turn = some s') : s'.Unsplit := by
  cases turn with
  | call fd op => exact unsplit.call sim fd op taken
  | receive fd size =>
    simp only [Network.step] at taken
    split at taken
    next => cases taken
    split at taken
    next =>
      split at taken <;> cases taken
      exact ⟨unsplit.busy,unsplit.sent,unsplit.queued⟩
    next => cases taken
  | ret fd =>
    simp only [Network.step] at taken
    split at taken
    next => cases taken
    split at taken <;> cases taken
    exact ⟨unsplit.busy,unsplit.sent,unsplit.queued⟩
  | disconnect fd =>
    simp only [Network.step] at taken
    split at taken <;> cases taken
    exact ⟨unsplit.busy,unsplit.sent,unsplit.queued⟩
  | server event =>
    cases event with
    | close fd =>
      simp only [Network.step] at taken
      split at taken
      next =>
        obtain ⟨r,ran,rfl⟩ := Option.map_eq_some_iff.mp taken
        exact unsplit.took (Reactor.took_of_step s.reactor r _ ran) rfl rfl fun _ _ same => by cases same
      next => cases taken
    | data fd bytes =>
      simp only [Network.step] at taken
      split at taken
      next =>
        obtain ⟨r,ran,rfl⟩ := Option.map_eq_some_iff.mp taken
        cases (whole : bytes = s.toServer fd)
        exact unsplit.data fd r ran
      next => cases taken
    | accept _ | pop _ | enter _ | pass _ _ | send _ _ =>
      obtain ⟨r,ran,rfl⟩ := Option.map_eq_some_iff.mp taken
      exact unsplit.took (Reactor.took_of_step s.reactor r _ ran) rfl rfl fun _ _ same => by cases same

/-- Commands that arrive whole need no order among the workers: with nothing assumed about which
worker takes which chunk when, calls whose commands are received in one piece are linearizable, as
long as the files can be written and clients leave between their calls. -/
theorem whole_calls_linearizable (store : PersistentKvStore) (map : PlainMap)
    (holds : Holds store map) (short : ShortValues map) (turns : List (Turn ω)) (t : Network ω)
    (admitted : ∀ turn ∈ turns, turn.Admitted)
    (whole : Machine.Guarded Network.step Whole (boot store) turns)
    (ran : Machine.run Network.step (boot store) turns = some t) :
    Linearizable ClientOp.answer map t.history := by
  refine Atomic.linearizable_of_simulation Network.step Network.history Whole Turn.Admitted
    (fun s a => s.Simulates a ∧ s.Unsplit) (fun _ _ related => related.1.history) ?_
    map (boot store) t turns ⟨simulates_boot store map holds short,?_⟩ admitted whole ran
  · rintro s a turn s' ⟨sim,unsplit⟩ admitted whole taken
    obtain ⟨moves,a',moved,sim'⟩ := sim.step turn s' admitted (unsplit.inTurn turn whole) taken
    exact ⟨moves,a',moved,sim',unsplit.step sim turn whole taken⟩
  · refine ⟨fun w fd on => ?_,fun fd sent => rfl,fun fd => Nat.zero_le 1⟩
    cases on

def racing : List (Turn Bool) :=
  let sets : Bytes := serializeCommand ⟨.SET,[ascii "k",ascii "v"],.NONE⟩
  let gets : Bytes := serializeCommand ⟨.GET,[ascii "k"],.NONE⟩
  [.server (.accept 5),.server (.accept 6),.call 5 (.set (ascii "k") (ascii "v")),
    .call 6 (.get (ascii "k")),.server (.data 5 sets),.server (.data 6 gets),.server (.pop true),
    .server (.pop false),.server (.enter false),.server (.pass false .faultless),
    .server (.enter true),.server (.pass true .faultless),.server (.pass true .faultless),
    .server (.pass false .faultless),.server (.send true 4096),.server (.send false 4096),.receive 6 5,
    .receive 5 5,.ret 5,.ret 6]

theorem whole_calls_linearizable_racing :
    ∃ t, Machine.run Network.step (boot .opened) racing = some t ∧
      t.history = [.invoke (5,0) (.set (ascii "k") (ascii "v")),.invoke (6,0) (.get (ascii "k")),
        .respond (5,0) (.flag true),.respond (6,0) (.value none)] ∧
      Linearizable ClientOp.answer ∅ t.history := by
  have ends : (Machine.run Network.step (boot .opened) racing).map Network.history =
      some [.invoke (5,0) (.set (ascii "k") (ascii "v")),.invoke (6,0) (.get (ascii "k")),
        .respond (5,0) (.flag true),.respond (6,0) (.value none)] := by decide +kernel
  obtain ⟨t,ran,history⟩ := Option.map_eq_some_iff.mp ends
  refine ⟨t,ran,history,whole_calls_linearizable .opened ∅ ⟨⟨[],rfl,rfl,rfl,rfl,rfl⟩,rfl⟩ nofun racing t
    ?_ (by decide +kernel) ran⟩
  have sets : (ClientOp.set (ascii "k") (ascii "v")).command.WellFormed := ⟨rfl,by decide,rfl⟩
  have gets : (ClientOp.get (ascii "k")).command.WellFormed := ⟨rfl,by decide,rfl⟩
  simp [racing,Turn.Admitted,Io.faultless_succeeds,sets,gets]

end Whole

end Network
end KvCache
