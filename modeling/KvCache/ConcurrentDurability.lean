import KvCache.ConcurrentStore

/-! Over every schedule of the threads: when log order agrees with memory order, and when
no returned Set is lost to the snapshot of another thread. -/
namespace KvCache.ConcurrentStore

open PersistentKvStore (RestartKeeps Backed FilesHold SmallMap opened opened_backed)

variable {τ : Type} [DecidableEq τ]

def initial (store : PersistentKvStore) : ConcurrentStore τ := ⟨store,fun _ => .idle,[],[]⟩

omit [DecidableEq τ] in
theorem tracks_initial {store : PersistentKvStore} {base : PlainMap} {log : List Mutation}
    (backed : Backed store base log) :
    Tracks (initial store : ConcurrentStore τ) store.data.toFinmap where
  hold := ⟨base,log,backed.toPersisted,backed.current⟩
  pending _ _ phase := by cases phase
  exclusive _ _ _ _ phase := by cases phase
  settled _ _ := rfl
  smallData := backed.smallData

/-- A call appends only while no other call on its key is between append and update. -/
def AppendsSettled (s : ConcurrentStore τ) (label : τ × Section) : Prop :=
  ∀ m io, label.2 = .append m io → s.Settled m.key

omit [DecidableEq τ] in
theorem settled_iff (s : ConcurrentStore τ) (key : Bytes) :
    s.Settled key ↔ ∀ t, ∀ m ∈ (s.phase t).unapplied, m.key ≠ key := by
  unfold Settled Phase.unapplied
  refine forall_congr' fun t => ?_
  cases s.phase t <;> simp

instance [Fintype τ] (s : ConcurrentStore τ) (key : Bytes) : Decidable (s.Settled key) :=
  decidable_of_iff _ (s.settled_iff key).symm

omit [DecidableEq τ] in
theorem appendsSettled_iff (s : ConcurrentStore τ) (label : τ × Section) :
    AppendsSettled s label ↔ ∀ m ∈ label.2.logs, s.Settled m.key := by
  obtain ⟨t,sec⟩ := label
  cases sec <;> simp [AppendsSettled,Section.logs]

instance [Fintype τ] (s : ConcurrentStore τ) (label : τ × Section) : Decidable (AppendsSettled s label) :=
  decidable_of_iff _ (s.appendsSettled_iff label).symm

/-- Log order agrees with memory order in every run in which calls on one key do not
overlap between append and update: whenever no call is in progress, the files replay to
the map in memory. -/
theorem idle_restart_keeps {store : PersistentKvStore} {base : PlainMap} {log : List Mutation}
    (backed : Backed store base log) (schedule : List (τ × Section)) (s : ConcurrentStore τ)
    (admitted : ∀ l ∈ schedule, l.2.Admitted)
    (noSnapshot : ∀ l ∈ schedule, ∀ env, l.2 ≠ .snapshot env)
    (guarded : Machine.Guarded step AppendsSettled (initial store) schedule)
    (ran : Machine.run step (initial store) schedule = some s)
    (idle : ∀ t, s.phase t = .idle) : RestartKeeps s.store := by
  obtain ⟨files,tracks⟩ := Machine.invariant_of_guarded step AppendsSettled
    (fun l => l.2.Admitted ∧ ∀ env, l.2 ≠ .snapshot env) (fun s => ∃ files, Tracks s files)
    (fun s l s' ⟨files,tracks⟩ label guard taken =>
      ⟨_,tracks.took (took_of_step s s' l.1 l.2 taken) label.1 guard
        fun env same => absurd same (label.2 env)⟩)
    (initial store) s schedule ⟨_,tracks_initial backed⟩
    (fun l member => ⟨admitted l member,noSnapshot l member⟩) guarded ran
  have settled (key : Bytes) : s.Settled key := by
    intro t m phase
    rw [idle t] at phase
    cases phase
  have same : s.store.data.toFinmap = files :=
    Finmap.ext_lookup fun key => tracks.settled key (settled key)
  intro io newProcess succeeds
  rw [same]
  exact tracks.hold.restart_finds io succeeds newProcess

def sectionsOf (t : τ) (secs : List Section) : List (τ × Section) := secs.map fun sec => (t,sec)

/-- The sections of a call behind its append up to the decision on a snapshot, at clock time 0. -/
def behindAppend : List Section := [.update,.count 0,.checkInterval,.checkBurst 0]

def wholeCall (t : τ) (m : Mutation) : List (τ × Section) :=
  sectionsOf t (.append m Io.faultless.wal :: behindAppend ++ [.ret])

/-- Two threads on one key: the second appends once the first has updated, and returns first. -/
def sharedKey : List (Bool × Section) :=
  sectionsOf false [.append (.set (ascii "k") (ascii "1")) Io.faultless.wal,.update] ++
    sectionsOf true [.append (.set (ascii "k") (ascii "2")) Io.faultless.wal] ++
    sectionsOf false [.count 0] ++ sectionsOf true (behindAppend ++ [.ret]) ++
    sectionsOf false [.checkInterval,.checkBurst 0,.ret]

theorem idle_restart_keeps_shared :
    ∃ s, Machine.run step (initial opened) sharedKey = some s ∧
      s.store.data.lookup (ascii "k") = some (ascii "2") ∧ RestartKeeps s.store := by
  have ends : (Machine.run step (initial opened) sharedKey).map
      (fun s => (s.phase true,s.phase false,s.store.data.lookup (ascii "k"))) =
        some (.idle,.idle,some (ascii "2")) := by decide +kernel
  obtain ⟨s,ran,last⟩ := Option.map_eq_some_iff.mp ends
  obtain ⟨second,last⟩ := Prod.mk.inj last
  obtain ⟨first,found⟩ := Prod.mk.inj last
  refine ⟨s,ran,found,idle_restart_keeps (opened_backed 0) sharedKey s ?_ ?_ (by decide +kernel) ran ?_⟩
  · simp [sharedKey,sectionsOf,behindAppend,Section.Admitted,Io.faultless_succeeds.wal]
    decide
  · simp [sharedKey,sectionsOf,behindAppend]
  · rintro (_ | _)
    · exact first
    · exact second

/-- Two Sets of one key: the first to append is the last to update. -/
def crossed : List (Bool × Section) :=
  sectionsOf false [.append (.set (ascii "k") (ascii "1")) Io.faultless.wal] ++
    wholeCall true (.set (ascii "k") (ascii "2")) ++ sectionsOf false (behindAppend ++ [.ret])

theorem log_order_crossed :
    (do let s ← Machine.run step (initial opened) crossed
        let s' ← Act.final (PersistentKvStore.restart .faultless true s.store)
        return ([s.phase false,s.phase true],s.store.data.lookup (ascii "k"),
          s'.data.lookup (ascii "k"))) =
      some ([.idle,.idle],some (ascii "1"),some (ascii "2")) := by
  decide +kernel

/-- A snapshot is taken only while no thread is between append and update, of fewer than
2^32 keys. -/
def SnapshotsSettled (s : ConcurrentStore τ) (label : τ × Section) : Prop :=
  ∀ env, label.2 = .snapshot env →
    (∀ key, s.Settled key) ∧ s.store.data.entries.length < 2 ^ 32

omit [DecidableEq τ] in
theorem snapshotsSettled_iff (s : ConcurrentStore τ) (label : τ × Section) :
    SnapshotsSettled s label ↔ label.2.dumps = true →
      (∀ t, (s.phase t).unapplied = none) ∧ s.store.data.entries.length < 2 ^ 32 := by
  have settled : (∀ key, s.Settled key) ↔ ∀ t, (s.phase t).unapplied = none := by
    simp only [settled_iff]
    constructor
    · intro apart t
      by_contra some
      obtain ⟨m,pending⟩ := Option.ne_none_iff_exists'.mp some
      exact apart m.key t m pending rfl
    · intro none key t m pending
      rw [none t] at pending
      cases pending
  rw [← settled]
  obtain ⟨t,sec⟩ := label
  cases sec <;> simp [SnapshotsSettled,Section.dumps]

instance [Fintype τ] (s : ConcurrentStore τ) (label : τ × Section) : Decidable (SnapshotsSettled s label) :=
  decidable_of_iff _ (s.snapshotsSettled_iff label).symm

/-- The sections of Sets of small entries, each thread on the keys it owns. -/
def OwnSets (owner : Bytes → τ) (label : τ × Section) : Prop :=
  label.2.Admitted ∧ ∀ m io, label.2 = .append m io →
    owner m.key = label.1 ∧ ∃ key value, m = .set key value

/-- The files hold every append on top of the map at the start. -/
structure Serving (owner : Bytes → τ) (start : PlainMap) (s : ConcurrentStore τ) : Prop where
  tracks : Tracks s (Update.replay start (s.started.map Mutation.update))
  own : ∀ t m, s.phase t = .appended m → owner m.key = t ∧ ∃ key value, m = .set key value
  filled : ∀ t, (s.phase t).pastUpdate → s.store.data.entries ≠ []
  called : ∀ t m, (s.phase t).call = some m → m ∈ s.started
  returned : ∀ m ∈ s.returned, m ∈ s.started

/-- The call is the last one on its key so far. -/
def Latest (s : ConcurrentStore τ) (m : Mutation) : Prop :=
  ∃ before after, s.started = before ++ m :: after ∧ ∀ x ∈ after, x.key ≠ m.key

omit [DecidableEq τ] in
theorem latest_of_distinct (s : ConcurrentStore τ) (m : Mutation) (member : m ∈ s.started)
    (distinct : (s.started.map Mutation.key).Nodup) : s.Latest m := by
  obtain ⟨before,after,split⟩ := List.append_of_mem member
  refine ⟨before,after,split,fun x inside same => ?_⟩
  rw [split,List.map_append,List.map_cons] at distinct
  have fresh := (List.nodup_cons.mp (List.nodup_append.mp distinct).2.1).1
  exact fresh (same ▸ List.mem_map_of_mem inside)

/-- A thread that appends on a key it owns finds no other call on the key pending: such a
call would be its own, but the thread is idle. -/
theorem Serving.settled_for {owner : Bytes → τ} {start : PlainMap} {s s' : ConcurrentStore τ}
    {t : τ} {m : Mutation} {io : WalIo} (serving : Serving owner start s)
    (mine : owner m.key = t) (took : Took s t (.append m io) s') : s.Settled m.key := by
  intro t' m' phase shared
  have theirs := (serving.own t' m' phase).1
  rw [shared,mine] at theirs
  subst theirs
  cases took with
  | append m io store idle ran =>
    rw [idle] at phase
    cases phase

theorem Serving.filled_after {owner : Bytes → τ} {start : PlainMap} {s s' : ConcurrentStore τ}
    {t : τ} {sec : Section} (serving : Serving owner start s) (took : Took s t sec s')
    (either : (∃ m, s.phase t = .appended m) ∨ s.store.data.entries ≠ []) :
    s'.store.data.entries ≠ [] := by
  by_cases pending : ∃ m, s.phase t = .appended m
  · obtain ⟨m,phase⟩ := pending
    obtain ⟨_,key,value,rfl⟩ := serving.own t m phase
    rw [took.data.1 _ phase]
    simp [Mutation.applyTo,KvStore.set,AList.entries_insert]
  · rw [took.data.2 fun m phase => pending ⟨m,phase⟩]
    exact either.resolve_left pending

theorem serving_step (owner : Bytes → τ) (start : PlainMap) (s : ConcurrentStore τ)
    (label : τ × Section) (s' : ConcurrentStore τ) (serving : Serving owner start s)
    (sets : OwnSets owner label) (guard : SnapshotsSettled s label) (taken : step s label = some s') :
    Serving owner start s' := by
  obtain ⟨t,sec⟩ := label
  have took := took_of_step s s' t sec taken
  obtain ⟨next,moved,appended,called,past⟩ := took.phases
  have free (m : Mutation) (io : WalIo) (same : sec = .append m io) : s.Settled m.key :=
    serving.settled_for (sets.2 m io same).1 (same ▸ took)
  refine ⟨?_,?_,?_,?_,?_⟩
  · rw [took.started,List.map_append,Update.replay_append]
    refine serving.tracks.took took sets.1 free fun env same => ?_
    obtain ⟨settled,count⟩ := guard env same
    subst same
    cases took with
    | snapshot m env store phase ran =>
      exact ⟨settled,count,serving.filled t (by rw [phase]; rfl)⟩
  · intro t' m phase
    rcases pending_cases moved phase with ⟨rfl,new⟩ | ⟨_,old⟩
    · obtain ⟨io,same⟩ := appended m new
      exact sets.2 m io same
    · exact serving.own t' m old
  · intro t' behind
    rw [moved,Function.update_apply] at behind
    split at behind
    · exact serving.filled_after took ((past behind).imp_right (serving.filled t))
    · exact serving.filled_after took (.inr (serving.filled t' behind))
  · intro t' m call
    rw [took.started]
    rw [moved,Function.update_apply] at call
    split at call
    · rcases called m call with ⟨io,same⟩ | old
      · simp [same,Section.logs]
      · exact List.mem_append_left _ (serving.called t m old)
    · exact List.mem_append_left _ (serving.called t' m call)
  · intro m back
    rw [took.started]
    refine List.mem_append_left _ ?_
    rcases took.returned m back with old | mine
    · exact serving.returned m old
    · exact serving.called t m mine

omit [DecidableEq τ] in
theorem serving_initial (owner : Bytes → τ) {store : PersistentKvStore} {base : PlainMap}
    {log : List Mutation} (backed : Backed store base log) :
    Serving owner store.data.toFinmap (initial store) where
  tracks := tracks_initial backed
  own _ _ phase := by cases phase
  filled _ behind := by cases behind
  called _ _ call := by cases call
  returned _ back := by cases back

omit [DecidableEq τ] in
theorem latest_lookup (s : ConcurrentStore τ) (start : PlainMap) (m : Mutation) (latest : s.Latest m) :
    (Update.replay start (s.started.map Mutation.update)).lookup m.key = m.update.image := by
  obtain ⟨before,after,split,last⟩ := latest
  rw [split,List.map_append,List.map_cons]
  refine Update.lookup_replay_last start _ _ m.update fun u member => ?_
  obtain ⟨x,inside,rfl⟩ := List.mem_map.mp member
  exact last x inside

/-- No returned Set is lost in a run whose snapshots find no thread between append and
update: a restart in any state finds each returned Set that its thread has not overwritten,
and where no key is set twice, each returned Set. -/
theorem returned_sets_found (owner : Bytes → τ) {store : PersistentKvStore} {base : PlainMap}
    {log : List Mutation} (backed : Backed store base log) (schedule : List (τ × Section))
    (s : ConcurrentStore τ) (sets : ∀ l ∈ schedule, OwnSets owner l)
    (guarded : Machine.Guarded step SnapshotsSettled (initial store) schedule)
    (ran : Machine.run step (initial store) schedule = some s) (io : Io) (succeeds : io.Succeeds)
    (newProcess : Bool) :
    ∃ s', PersistentKvStore.restart io newProcess s.store = .ok () s' ∧
      (∀ key value, .set key value ∈ s.returned → s.Latest (.set key value) →
        s'.data.lookup key = some value) ∧
      ((s.started.map Mutation.key).Nodup → ∀ key value, .set key value ∈ s.returned →
        s'.data.lookup key = some value) := by
  have serving := Machine.invariant_of_guarded step SnapshotsSettled (OwnSets owner)
    (Serving owner store.data.toFinmap) (serving_step owner store.data.toFinmap)
    (initial store) s schedule (serving_initial owner backed) sets guarded ran
  obtain ⟨s',restarted,map⟩ := serving.tracks.hold.restart_finds io succeeds newProcess
  have found (key value : Bytes) (latest : s.Latest (.set key value)) :
      s'.data.lookup key = some value := by
    rw [← KvStore.toFinmap_lookup,map]
    exact latest_lookup s store.data.toFinmap (.set key value) latest
  refine ⟨s',restarted,fun key value _ latest => found key value latest,?_⟩
  intro distinct key value back
  exact found key value (s.latest_of_distinct _ (serving.returned _ back) distinct)

/-- The snapshot of one thread between the update of the other and the rest of its call. -/
def between : List (Bool × Section) :=
  sectionsOf false (.append (.set (ascii "a") (ascii "1")) Io.faultless.wal :: behindAppend) ++
    sectionsOf true [.append (.set (ascii "b") (ascii "2")) Io.faultless.wal,.update] ++
    sectionsOf false [.snapshot .faultless] ++
    sectionsOf true [.count 0,.checkInterval,.checkBurst 0,.ret] ++ sectionsOf false [.ret]

theorem returned_sets_found_between :
    ∃ s s', Machine.run step (initial { opened with opCount := 499 }) between = some s ∧
      PersistentKvStore.restart .faultless true s.store = .ok () s' ∧
      s'.data.lookup (ascii "a") = some (ascii "1") ∧ s'.data.lookup (ascii "b") = some (ascii "2") := by
  have ends : (Machine.run step (initial { opened with opCount := 499 }) between).map
      (fun s => (s.started,s.returned)) =
        some ([.set (ascii "a") (ascii "1"),.set (ascii "b") (ascii "2")],
          [.set (ascii "b") (ascii "2"),.set (ascii "a") (ascii "1")]) := by decide +kernel
  obtain ⟨s,ran,calls⟩ := Option.map_eq_some_iff.mp ends
  obtain ⟨started,returned⟩ := Prod.mk.inj calls
  obtain ⟨s',restarted,-,found⟩ := returned_sets_found (fun key => decide (key = ascii "b"))
    (opened_backed 499) between s
    (by
      simp [between,sectionsOf,behindAppend,OwnSets,Section.Admitted,Io.faultless_succeeds.wal,
        Io.faultless_succeeds]
      decide)
    (by decide +kernel) ran .faultless Io.faultless_succeeds true
  have distinct : (s.started.map Mutation.key).Nodup := by
    rw [started]
    decide
  exact ⟨s,s',ran,restarted,found distinct _ _ (by simp [returned]),found distinct _ _ (by simp [returned])⟩

theorem run_behindAppend (s : ConcurrentStore τ) (t : τ) (m : Mutation)
    (phase : s.phase t = .appended m) :
    Machine.run step s (sectionsOf t behindAppend) = some { s with
      store := PersistentKvStore.countOp 0 { s.store with data := m.applyTo s.store.data }
      phase := Function.update s.phase t
        (if (s.store.countOp 0).shouldSnapshot 0 then .triggered m else .checked m) } := by
  simp only [sectionsOf,behindAppend,List.map_cons,List.map_nil,Machine.run,step,phase,moveTo,
    Option.bind_some,Function.update_self,Function.update_idem]
  rfl

theorem step_append (s : ConcurrentStore τ) (t : τ) (m : Mutation) (files : PlainMap)
    (hold : FilesHold s.store files) (idle : s.phase t = .idle) (small : m.Small) :
    ∃ w, step s (t,.append m Io.faultless.wal) = some { s with
        store := { s.store with wal := w }
        phase := Function.update s.phase t (.appended m)
        started := s.started ++ [m] } ∧
      FilesHold { s.store with wal := w } (Update.apply files m.update) := by
  obtain ⟨base,log,persisted,map⟩ := id hold
  obtain ⟨w,appended,_⟩ :=
    Wal.append_ready Io.faultless.wal Io.faultless_succeeds.wal m.record s.store.wal _ persisted.ready
  have ran := PersistentKvStore.onWal_ok _ s.store () w appended
  exact ⟨w,by simp [step,idle,ran,Act.final,moveTo],
    (hold.append m small _ Io.faultless_succeeds.wal ran).1⟩

/-- One thread is behind the append of its Set, the other has made `n` calls since. -/
structure Behind (late : Mutation) (s : ConcurrentStore Bool) (phase : Phase) (n : Nat) : Prop where
  waiting : s.phase false = .appended late
  other : s.phase true = phase
  opCount : s.store.opCount = n
  window : s.store.burstWindow =
    ⟨PersistentKvStore.kBurstMaxOps,PersistentKvStore.kBurstWindow,List.replicate n 0⟩
  unseen : s.store.data.toFinmap.lookup late.key = none
  hold : ∃ files, FilesHold s.store files
  smallData : SmallMap s.store.data.toFinmap
  count : s.store.data.entries.length ≤ n
  filled : s.store.data.entries = [] → n = 0

theorem burst_exceeded : ∀ n ≤ 100, SlidingWindow.isExceeded
    ⟨PersistentKvStore.kBurstMaxOps,PersistentKvStore.kBurstWindow,List.replicate n 0 ++ [0]⟩ 0 =
      decide (n = 100) := by
  decide +kernel

theorem behind_decided (late : Mutation) (key value : Bytes) (s : ConcurrentStore Bool) (n : Nat)
    (few : n ≤ 100) (behind : Behind late s .idle n) (small : (Mutation.set key value).Small)
    (apart : late.key ≠ key) :
    ∃ s', Machine.run step s
        (sectionsOf true (.append (.set key value) Io.faultless.wal :: behindAppend)) = some s' ∧
      Behind late s' (if n = 100 then .triggered (.set key value) else .checked (.set key value))
        (n + 1) := by
  let m := Mutation.set key value
  obtain ⟨files,hold⟩ := behind.hold
  obtain ⟨w,appended,after⟩ := step_append s true m files hold behind.other small
  have decided : (PersistentKvStore.countOp 0 { s.store with wal := w }).shouldSnapshot 0 =
      decide (n = 100) := by
    have interval : ¬PersistentKvStore.kSnapshotInterval ≤ (n + 1) % 2 ^ 64 := by
      rw [PersistentKvStore.kSnapshotInterval]
      omega
    simp only [PersistentKvStore.shouldSnapshot,PersistentKvStore.countOp,SlidingWindow.addOp,
      behind.opCount,behind.window,burst_exceeded n few,interval,decide_false,Bool.false_or]
  refine ⟨_,(Machine.run_cons_iff ..).mpr ⟨_,appended,run_behindAppend _ true m (by simp)⟩,?_⟩
  refine ⟨by simp [behind.waiting],?_,?_,?_,?_,⟨_,after.same_files rfl rfl⟩,?_,?_,?_⟩
  · simp [decided,m]
  · simp only [PersistentKvStore.countOp,behind.opCount]
    omega
  · simp [PersistentKvStore.countOp,SlidingWindow.addOp,behind.window,List.replicate_succ']
  · change (m.applyTo s.store.data).toFinmap.lookup late.key = none
    rw [Mutation.applyTo_toFinmap,Mutation.lookup_apply,if_neg (show late.key ≠ m.key from apart)]
    exact behind.unseen
  · change SmallMap (m.applyTo s.store.data).toFinmap
    rw [Mutation.applyTo_toFinmap]
    exact behind.smallData.apply m small
  · exact Nat.le_trans (KvStore.set_length_le _ key value) (Nat.succ_le_succ behind.count)
  · intro empty
    change (m.applyTo s.store.data).entries = [] at empty
    simp [m,Mutation.applyTo,KvStore.set,AList.entries_insert] at empty

theorem step_ret (s : ConcurrentStore τ) (t : τ) (m : Mutation) (phase : s.phase t = .checked m) :
    step s (t,.ret) = some { s.moveTo t s.store .idle with returned := s.returned ++ [m] } := by
  simp [step,phase]

theorem step_snapshot (s : ConcurrentStore τ) (t : τ) (m : Mutation) (env : Env)
    (store : PersistentKvStore) (phase : s.phase t = .triggered m)
    (created : PersistentKvStore.createSnapshot env s.store = .ok () store) :
    step s (t,.snapshot env) = some (s.moveTo t store (.checked m)) := by
  simp [step,phase,created,Act.final]

theorem behind_ret (late m : Mutation) (s : ConcurrentStore Bool) (n : Nat)
    (behind : Behind late s (.checked m) n) :
    ∃ s', step s (true,.ret) = some s' ∧ Behind late s' .idle n :=
  ⟨_,step_ret s true m behind.other,by simp [moveTo,behind.waiting],by simp [moveTo],behind.opCount,
    behind.window,behind.unseen,behind.hold,behind.smallData,behind.count,behind.filled⟩

def quickSet (i : Nat) : Mutation := .set [BitVec.ofNat 8 i,0#8] []

theorem quickSet_small (i : Nat) : (quickSet i).Small := by
  simp [quickSet,Mutation.Small,Mutation.record,WalRecord.Small]

def quickSets (n : Nat) : List (Bool × Section) :=
  (List.range n).flatMap fun i => wholeCall true (quickSet i)

theorem behind_quickSets (late : Mutation) (short : late.key.length = 1) (s : ConcurrentStore Bool)
    (n : Nat) (few : n ≤ 100) (behind : Behind late s .idle 0) :
    ∃ s', Machine.run step s (quickSets n) = some s' ∧ Behind late s' .idle n := by
  induction n with
  | zero => exact ⟨s,rfl,behind⟩
  | succ n ih =>
    obtain ⟨s₁,ran,behind₁⟩ := ih (by omega)
    have apart : late.key ≠ [BitVec.ofNat 8 n,0#8] := fun same => by simp [same] at short
    obtain ⟨s₂,decided,behind₂⟩ :=
      behind_decided late [BitVec.ofNat 8 n,0#8] [] s₁ n (by omega) behind₁
        (quickSet_small n) apart
    rw [if_neg (by omega)] at behind₂
    obtain ⟨s₃,back,behind₃⟩ := behind_ret late _ s₂ (n + 1) behind₂
    refine ⟨s₃,?_,behind₃⟩
    have call : Machine.run step s₁ (wholeCall true (quickSet n)) = some s₃ :=
      Machine.run_append step s₁ s₂ s₃ _ (sectionsOf true [.ret]) decided
        ((Machine.run_cons_iff ..).mpr ⟨s₃,back,rfl⟩)
    rw [quickSets,List.range_succ,List.flatMap_append,List.flatMap_singleton]
    exact Machine.run_append step s s₁ s₃ _ _ ran call

def lateSet : Mutation := .set (ascii "a") (ascii "1")

/-- One thread appends its Set; the other makes 101 calls, the last with a snapshot; then the
first goes on to its return. -/
def burst : List (Bool × Section) :=
  sectionsOf false [.append lateSet Io.faultless.wal] ++ (quickSets 100 ++
    (sectionsOf true (.append (quickSet 100) Io.faultless.wal :: behindAppend) ++
      (sectionsOf true [.snapshot .faultless,.ret] ++
        (sectionsOf false behindAppend ++ sectionsOf false [.ret]))))

theorem behind_start :
    ∃ s, step (initial opened) (false,.append lateSet Io.faultless.wal) = some s ∧
      Behind lateSet s .idle 0 := by
  obtain ⟨w,appended,hold⟩ := step_append (initial opened : ConcurrentStore Bool) false lateSet _
    (tracks_initial (opened_backed 0)).hold rfl (by decide)
  refine ⟨_,appended,by simp,by simp [initial],rfl,rfl,rfl,⟨_,hold⟩,?_,Nat.le_refl 0,fun _ => rfl⟩
  exact PersistentKvStore.smallMap_empty

/-- The snapshot of the other thread: what a restart finds from here on lacks the late Set. -/
theorem behind_snapshot (late m : Mutation) (s : ConcurrentStore Bool) (n : Nat) (many : n ≠ 0)
    (few : n < 2 ^ 32) (behind : Behind late s (.triggered m) n) :
    ∃ s' files, Machine.run step s (sectionsOf true [.snapshot .faultless,.ret]) = some s' ∧
      FilesHold s'.store files ∧ files.lookup late.key = none ∧
      s'.phase false = .appended late ∧ s'.store.opCount = 0 ∧ s'.store.burstWindow =
        ⟨PersistentKvStore.kBurstMaxOps,PersistentKvStore.kBurstWindow,[]⟩ := by
  obtain ⟨_,hold⟩ := behind.hold
  obtain ⟨base,log,persisted,map⟩ := id hold
  obtain ⟨w,_,created⟩ := PersistentKvStore.createSnapshot_ready .faultless Io.faultless_succeeds
    s.store _ persisted.ready
  obtain ⟨dumped,_⟩ := hold.dump .faultless Io.faultless_succeeds behind.smallData
    (Nat.lt_of_le_of_lt behind.count few) (fun none => many (behind.filled none)) created
  have taken := step_snapshot s true m .faultless _ behind.other created
  refine ⟨_,_,(Machine.run_cons_iff ..).mpr ⟨_,taken,(Machine.run_cons_iff ..).mpr
    ⟨_,step_ret _ true m (by simp [moveTo]),rfl⟩⟩,dumped,behind.unseen,?_,rfl,?_⟩
  · simp [moveTo,behind.waiting]
  · simp [moveTo,behind.window,SlidingWindow.clear]

/-- The snapshot clears the log but finds nothing of the first thread's Set in memory. -/
theorem returned_set_lost :
    ∃ s s', Machine.run step (initial opened) burst = some s ∧ lateSet ∈ s.returned ∧
      PersistentKvStore.restart .faultless true s.store = .ok () s' ∧
      s'.data.lookup (ascii "a") = none := by
  obtain ⟨s₀,appended,behind₀⟩ := behind_start
  obtain ⟨s₁,quick,behind₁⟩ := behind_quickSets lateSet rfl s₀ 100 (by decide) behind₀
  obtain ⟨s₂,decided,behind₂⟩ :=
    behind_decided lateSet [100#8,0#8] [] s₁ 100 (by decide) behind₁ (quickSet_small 100) (by decide)
  obtain ⟨s₃,files,snapshot,hold,lost,waiting,opCount,window⟩ :=
    behind_snapshot lateSet (quickSet 100) s₂ 101 (by decide) (by decide) behind₂
  have quiet : (s₃.store.countOp 0).shouldSnapshot 0 = false := by
    simp only [PersistentKvStore.shouldSnapshot,PersistentKvStore.countOp,opCount,window]
    decide
  let s₄ : ConcurrentStore Bool := { s₃ with
    store := PersistentKvStore.countOp 0 { s₃.store with data := lateSet.applyTo s₃.store.data }
    phase := Function.update s₃.phase false (.checked lateSet) }
  have goesOn : Machine.run step s₃ (sectionsOf false behindAppend) = some s₄ := by
    rw [run_behindAppend s₃ false lateSet waiting,quiet]
    rfl
  have back := step_ret s₄ false lateSet (by simp [s₄])
  have held : FilesHold s₄.store files := hold.same_files rfl rfl
  obtain ⟨s',restarted,map⟩ := held.restart_finds .faultless Io.faultless_succeeds true
  refine ⟨{ s₄.moveTo false s₄.store .idle with returned := s₄.returned ++ [lateSet] },s',?_,
    List.mem_append_right _ (List.mem_singleton_self _),restarted,?_⟩
  · refine Machine.run_append step _ s₀ _ _ _ ((Machine.run_cons_iff ..).mpr ⟨s₀,appended,rfl⟩) ?_
    refine Machine.run_append step _ s₁ _ _ _ quick ?_
    refine Machine.run_append step _ s₂ _ _ _ decided ?_
    refine Machine.run_append step _ s₃ _ _ _ snapshot ?_
    exact Machine.run_append step _ s₄ _ _ _ goesOn ((Machine.run_cons_iff ..).mpr ⟨_,back,rfl⟩)
  · rw [← KvStore.toFinmap_lookup,map]
    exact lost

end KvCache.ConcurrentStore
