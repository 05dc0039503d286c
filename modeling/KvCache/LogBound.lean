import KvCache.BurstWindow
import KvCache.RestartDurability

/-! The length of the log over the lives of a store. A snapshot is due when `op_count_` reaches
`kSnapshotInterval`, or in a burst, and truncates the log. The counter starts at zero with every
store, whatever the log holds then, so that the log can grow from life to life. -/
namespace KvCache

/-- An operation, or a new store on the same directory. -/
inductive LifeCall where
  | mutate (m : Mutation) (env : Env)
  | restart (io : Io) (newProcess : Bool)

def LifeCall.Succeeds : LifeCall → Prop
  | mutate _ env => env.io.Succeeds
  | restart io _ => io.Succeeds

/-- A store with the records that its log holds, which the program does not count. -/
structure LoggedStore where
  store : PersistentKvStore
  records : List WalRecord

namespace LoggedStore

open PersistentKvStore

def triggers (s : LoggedStore) (env : Env) : Bool :=
  (s.store.countOp env.addOpAt).shouldSnapshot env.isExceededAt

def step (s : LoggedStore) : LifeCall → Option LoggedStore
  | .mutate m env => (Act.final (m.run env s.store)).map fun store =>
      ⟨store,if s.triggers env then [] else s.records ++ [m.record]⟩
  | .restart io newProcess => (Act.final (PersistentKvStore.restart io newProcess s.store)).map
      fun store => ⟨store,s.records⟩

def Tracked (s : LoggedStore) : Prop := s.store.wal.Ready (WalRecord.framing.stream s.records)

/-- A life of so many operations, none of which took a snapshot, on a directory without one. -/
structure Quiet (s : LoggedStore) (made : Nat) : Prop where
  tracked : s.Tracked
  noSnapshot : s.store.snapshot.dat = none
  count : s.store.opCount = made
  limit : s.store.burstWindow.maxOps = kBurstMaxOps
  stamps : s.store.burstWindow.timestamps.length = made

theorem construct_quiet (io : Io) (succeeds : io.Succeeds) (dataDir : String) (wal : Wal)
    (noLog : wal.file = none) :
    ∃ s, construct io dataDir wal ⟨none,none⟩ = .ok () s ∧ Quiet ⟨s,[]⟩ 0 := by
  obtain ⟨w,ready,constructed⟩ := construct_ready io succeeds dataDir wal ⟨none,none⟩
  have empty : wal.content = [] := by simp [Wal.content,noLog]
  rw [empty] at ready constructed
  exact ⟨_,constructed,⟨ready,rfl,rfl,rfl,rfl⟩⟩

theorem step_triggered (s : LoggedStore) (tracked : s.Tracked) (m : Mutation) (env : Env)
    (succeeds : env.io.Succeeds) (due : s.triggers env = true) :
    ∃ store, store.wal.Ready [] ∧ store.opCount = 0 ∧
      s.step (.mutate m env) = some ⟨store,[]⟩ := by
  obtain ⟨store,ran,empty,-,-,zero⟩ := m.run_triggered env succeeds s.store _ tracked due
  exact ⟨store,empty,zero,by rw [step,ran,due]; rfl⟩

theorem step_untriggered (s : LoggedStore) (tracked : s.Tracked) (m : Mutation) (env : Env)
    (succeeds : env.io.Succeeds) (quiet : s.triggers env = false) :
    ∃ w, w.Ready (WalRecord.framing.stream (s.records ++ [m.record])) ∧
      s.step (.mutate m env) = some
        ⟨countOp env.addOpAt { s.store with wal := w, data := m.applyTo s.store.data },
         s.records ++ [m.record]⟩ := by
  obtain ⟨w,logged,ran⟩ := m.run_untriggered env succeeds s.store _ tracked quiet
  refine ⟨w,?_,by rw [step,ran,quiet]; rfl⟩
  simpa [Framing.stream_append,Framing.stream,WalRecord.framing] using logged

theorem step_restart (s t : LoggedStore) (tracked : s.Tracked) (io : Io) (newProcess : Bool)
    (succeeds : io.Succeeds) (taken : s.step (.restart io newProcess) = some t) :
    t.Tracked ∧ t.records = s.records ∧ t.store.opCount = 0 := by
  obtain ⟨w,ready,constructed⟩ := construct_ready io succeeds s.store.dataDir
    (if newProcess then .unopened s.store.wal.file else s.store.wal) s.store.snapshot
  have content : (if newProcess then Wal.unopened s.store.wal.file else s.store.wal).content =
      WalRecord.framing.stream s.records := by
    rw [← tracked.content_eq]
    cases newProcess <;> rfl
  rw [step,PersistentKvStore.restart,constructed] at taken
  rw [content] at ready
  cases found : rebuilt s.store.snapshot.dat
      (if newProcess then Wal.unopened s.store.wal.file else s.store.wal).content with
  | error e => simp [found,Act.final] at taken
  | ok data =>
    simp only [found,Act.final,Option.map_some,Option.some.injEq] at taken
    subst taken
    exact ⟨ready,rfl,rfl⟩

theorem Tracked.step {s t : LoggedStore} (tracked : s.Tracked) (call : LifeCall)
    (succeeds : call.Succeeds) (taken : s.step call = some t) : t.Tracked := by
  cases call with
  | mutate m env =>
    by_cases due : s.triggers env = true
    · obtain ⟨store,empty,-,ran⟩ := step_triggered s tracked m env succeeds due
      cases ran.symm.trans taken
      exact empty
    · obtain ⟨w,ready,ran⟩ := step_untriggered s tracked m env succeeds (Bool.eq_false_iff.mpr due)
      cases ran.symm.trans taken
      exact ready
  | restart io newProcess => exact (step_restart s t tracked io newProcess succeeds taken).1

theorem step_records (s t : LoggedStore) (m : Mutation) (env : Env)
    (taken : s.step (.mutate m env) = some t) :
    t.records = if s.triggers env then [] else s.records ++ [m.record] := by
  obtain ⟨store,-,rfl⟩ := Option.map_eq_some_iff.mp taken
  rfl

theorem restart_records (s t : LoggedStore) (io : Io) (newProcess : Bool)
    (taken : s.step (.restart io newProcess) = some t) : t.records = s.records := by
  obtain ⟨store,-,rfl⟩ := Option.map_eq_some_iff.mp taken
  rfl

def Bounded (s : LoggedStore) : Prop := s.records.length ≤ kSnapshotInterval

/-- An operation that finds the log full ends with a snapshot. -/
def TriggersWhenFull (s : LoggedStore) : LifeCall → Prop
  | .mutate _ env => kSnapshotInterval ≤ s.records.length → s.triggers env = true
  | .restart _ _ => True

instance (s : LoggedStore) : DecidablePred s.TriggersWhenFull
  | .mutate _ _ => inferInstanceAs (Decidable (_ → _))
  | .restart _ _ => .isTrue trivial

theorem Bounded.step {s t : LoggedStore} (bounded : s.Bounded) (call : LifeCall)
    (guarded : s.TriggersWhenFull call) (taken : s.step call = some t) : t.Bounded := by
  cases call with
  | mutate m env =>
    rw [Bounded,step_records s t m env taken]
    split
    · exact Nat.zero_le _
    next quiet =>
      have room : ¬kSnapshotInterval ≤ s.records.length := fun full => quiet (guarded full)
      rw [List.length_append,List.length_singleton]
      omega
  | restart io newProcess =>
    rw [Bounded,restart_records s t io newProcess taken]
    exact bounded

theorem unbounded_of_untriggered (s t : LoggedStore) (call : LifeCall)
    (outside : ¬s.TriggersWhenFull call) (taken : s.step call = some t) : ¬t.Bounded := by
  cases call with
  | restart => exact absurd trivial outside
  | mutate m env =>
    obtain ⟨full,quiet⟩ := Classical.not_imp.mp outside
    rw [Bounded,step_records s t m env taken,if_neg quiet,List.length_append,List.length_singleton]
    omega

/-- The log stays within `kSnapshotInterval` records exactly in the runs where every operation
that finds it full triggers a snapshot. -/
theorem log_bounded_iff (io : Io) (succeeds : io.Succeeds) (dataDir : String) (wal : Wal)
    (noLog : wal.file = none) (calls : List LifeCall) (faultless : ∀ c ∈ calls, c.Succeeds) :
    ∃ s, construct io dataDir wal ⟨none,none⟩ = .ok () s ∧
      ∀ t, Machine.run step ⟨s,[]⟩ calls = some t →
        t.store.wal.Ready (WalRecord.framing.stream t.records) ∧
        (Machine.Throughout step Bounded ⟨s,[]⟩ calls ↔
          Machine.Guarded step TriggersWhenFull ⟨s,[]⟩ calls) := by
  obtain ⟨s,constructed,quiet⟩ := construct_quiet io succeeds dataDir wal noLog
  refine ⟨s,constructed,fun t ran => ⟨?_,?_⟩⟩
  · exact Machine.invariant_of_run step LifeCall.Succeeds Tracked
      (fun _ call _ tracked succeeds taken => tracked.step call succeeds taken) ⟨s,[]⟩ t calls
      quiet.tracked faultless ran
  · exact Machine.throughout_iff_guarded_of_run step TriggersWhenFull Bounded Bounded (fun _ => True)
      (fun _ bounded => bounded) (fun _ call _ bounded _ guarded taken => bounded.step call guarded taken)
      (fun s call t _ _ outside taken => unbounded_of_untriggered s t call outside taken)
      ⟨s,[]⟩ t calls (Nat.zero_le _) (fun _ _ => trivial) ran

/-- Two lives of one operation each. -/
theorem log_bounded_iff_restarted :
    ∃ s, construct .faultless "data" (.unopened none) ⟨none,none⟩ = .ok () s ∧
      Machine.Throughout step Bounded ⟨s,[]⟩
        [.mutate (.set (ascii "k") (ascii "v")) .faultless,.restart .faultless true,
         .mutate (.delete (ascii "k")) .faultless] := by
  have faultless : ∀ c ∈ [LifeCall.mutate (.set (ascii "k") (ascii "v")) .faultless,
      .restart .faultless true,.mutate (.delete (ascii "k")) .faultless], c.Succeeds := by
    simp [LifeCall.Succeeds,Io.faultless_succeeds]
  obtain ⟨s,constructed,all⟩ := log_bounded_iff .faultless Io.faultless_succeeds "data"
    (.unopened none) rfl _ faultless
  refine ⟨s,constructed,?_⟩
  cases constructed
  have goes : (Machine.run step ⟨opened,[]⟩ [.mutate (.set (ascii "k") (ascii "v")) .faultless,
      .restart .faultless true,.mutate (.delete (ascii "k")) .faultless]).isSome = true := by
    decide +kernel
  obtain ⟨t,ran⟩ := Option.isSome_iff_exists.mp goes
  exact (all t ran).2.mpr (by decide +kernel)

/-- A new store is made only where the log is empty. -/
def RestartsEmpty (s : LoggedStore) : LifeCall → Prop
  | .mutate _ _ => True
  | .restart _ _ => s.records = []

/-- The counter counts the records. -/
structure Counted (s : LoggedStore) : Prop where
  tracked : s.Tracked
  count : s.store.opCount = s.records.length
  below : s.records.length < kSnapshotInterval

theorem count_of_untriggered (s : LoggedStore) (env : Env) (quiet : s.triggers env = false) :
    (s.store.opCount + 1) % 2 ^ 64 < kSnapshotInterval := by
  have both := Bool.or_eq_false_iff.mp quiet
  exact Nat.not_le.mp (of_decide_eq_false both.1)

theorem Counted.step {s t : LoggedStore} (counted : s.Counted) (call : LifeCall)
    (succeeds : call.Succeeds) (guarded : s.RestartsEmpty call) (taken : s.step call = some t) :
    t.Counted := by
  have tracked := counted.tracked.step call succeeds taken
  cases call with
  | mutate m env =>
    by_cases due : s.triggers env = true
    · obtain ⟨store,-,zero,ran⟩ := step_triggered s counted.tracked m env succeeds due
      cases ran.symm.trans taken
      exact ⟨tracked,zero,Nat.zero_lt_succ 499⟩
    · have quiet := Bool.eq_false_iff.mpr due
      obtain ⟨w,-,ran⟩ := step_untriggered s counted.tracked m env succeeds quiet
      cases ran.symm.trans taken
      have below := counted.below
      have fewer := count_of_untriggered s env quiet
      have next : (s.store.opCount + 1) % 2 ^ 64 = s.records.length + 1 := by
        rw [counted.count]
        exact Nat.mod_eq_of_lt (by rw [kSnapshotInterval] at below; omega)
      rw [next] at fewer
      exact ⟨tracked,by simpa [countOp] using next,by simpa using fewer⟩
  | restart io newProcess =>
    obtain ⟨-,records,zero⟩ := step_restart s t counted.tracked io newProcess succeeds taken
    rw [show s.records = [] from guarded] at records
    exact ⟨tracked,by rw [zero,records]; rfl,by rw [records]; decide⟩

theorem below_interval_of_empty_restarts (io : Io) (succeeds : io.Succeeds) (dataDir : String)
    (wal : Wal) (noLog : wal.file = none) (calls : List LifeCall)
    (faultless : ∀ c ∈ calls, c.Succeeds) :
    ∃ s, construct io dataDir wal ⟨none,none⟩ = .ok () s ∧
      ∀ t, Machine.run step ⟨s,[]⟩ calls = some t →
        Machine.Guarded step RestartsEmpty ⟨s,[]⟩ calls → t.records.length < kSnapshotInterval := by
  obtain ⟨s,constructed,quiet⟩ := construct_quiet io succeeds dataDir wal noLog
  refine ⟨s,constructed,fun t ran guarded => ?_⟩
  exact (Machine.invariant_of_guarded step RestartsEmpty LifeCall.Succeeds Counted
    (fun _ call _ counted succeeds guarded taken => counted.step call succeeds guarded taken)
    ⟨s,[]⟩ t calls ⟨quiet.tracked,quiet.count,Nat.zero_lt_succ 499⟩ faultless guarded ran).below

theorem scan_le_length (cutoff : Time) (newest : List Time) :
    SlidingWindow.scan cutoff newest ≤ newest.length := by
  induction newest with
  | nil => exact Nat.le_refl _
  | cons t older ih =>
    rw [SlidingWindow.scan,List.length_cons]
    split <;> omega

/-- A hundred operations are neither an interval nor a burst, whatever the clock reads. -/
theorem Quiet.untriggered {s : LoggedStore} {made : Nat} (quiet : s.Quiet made) (few : made < 100)
    (env : Env) : s.triggers env = false := by
  have count : (s.store.opCount + 1) % 2 ^ 64 = made + 1 := by
    rw [quiet.count]
    omega
  have within : (s.store.burstWindow.addOp env.addOpAt).count env.isExceededAt ≤ made + 1 := by
    refine (scan_le_length _ _).trans ?_
    simp [SlidingWindow.addOp,quiet.stamps]
  have calm : (s.store.burstWindow.addOp env.addOpAt).isExceeded env.isExceededAt = false := by
    rw [Bool.eq_false_iff]
    intro exceeded
    have over100 := (SlidingWindow.isExceeded_iff _ _ (by omega)).mp exceeded
    have limit : (s.store.burstWindow.addOp env.addOpAt).maxOps = 100 := quiet.limit
    rw [limit] at over100
    omega
  have early : ¬kSnapshotInterval ≤ (s.store.opCount + 1) % 2 ^ 64 := by
    rw [count,kSnapshotInterval]
    omega
  simp only [triggers,shouldSnapshot,countOp,calm,early,decide_false,Bool.or_false]

theorem Quiet.mutate {s : LoggedStore} {made : Nat} (quiet : s.Quiet made) (few : made < 100)
    (m : Mutation) :
    ∃ t, s.step (.mutate m .faultless) = some t ∧ t.Quiet (made + 1) ∧
      t.records = s.records ++ [m.record] := by
  obtain ⟨w,ready,ran⟩ := step_untriggered s quiet.tracked m .faultless Io.faultless_succeeds
    (quiet.untriggered few .faultless)
  refine ⟨_,ran,⟨ready,quiet.noSnapshot,?_,quiet.limit,?_⟩,rfl⟩
  · simp only [countOp,quiet.count]
    omega
  · simp [countOp,SlidingWindow.addOp,quiet.stamps]

theorem Quiet.restart {s : LoggedStore} {made : Nat} (quiet : s.Quiet made) :
    ∃ t, s.step (.restart .faultless true) = some t ∧ t.Quiet 0 ∧ t.records = s.records := by
  obtain ⟨w,ready,constructed⟩ := construct_ready .faultless Io.faultless_succeeds s.store.dataDir
    (.unopened s.store.wal.file) s.store.snapshot
  have content : (Wal.unopened s.store.wal.file).content =
      WalRecord.framing.stream s.records := by
    rw [← quiet.tracked.content_eq]
    rfl
  rw [content] at ready constructed
  obtain ⟨data,found⟩ : ∃ data, rebuilt s.store.snapshot.dat
      (WalRecord.framing.stream s.records) = .ok data := by
    rw [quiet.noSnapshot]
    exact ⟨_,rfl⟩
  rw [found] at constructed
  refine ⟨⟨⟨s.store.dataDir,data,w,s.store.snapshot,0,⟨kBurstMaxOps,kBurstWindow,[]⟩⟩,s.records⟩,?_,
    ⟨ready,quiet.noSnapshot,rfl,rfl,rfl⟩,rfl⟩
  rw [step,PersistentKvStore.restart]
  simp only [if_true,constructed]
  rfl

theorem Quiet.mutations {s : LoggedStore} {made : Nat} (quiet : s.Quiet made) (m : Mutation)
    (n : Nat) (few : made + n ≤ 100) :
    ∃ t, Machine.run step s (List.replicate n (.mutate m .faultless)) = some t ∧
      t.Quiet (made + n) ∧ t.records = s.records ++ List.replicate n m.record := by
  induction n generalizing s made with
  | zero => exact ⟨s,rfl,quiet,by simp⟩
  | succ n ih =>
    obtain ⟨middle,taken,next,records⟩ := quiet.mutate (by omega) m
    obtain ⟨t,ran,last,all⟩ := ih next (by omega)
    refine ⟨t,(Machine.run_cons_iff step s t _ _).mpr ⟨middle,taken,ran⟩,?_,?_⟩
    · rwa [Nat.add_assoc,Nat.add_comm 1 n] at last
    · rw [all,records,List.append_assoc]
      rfl

def shortLife (m : Mutation) : List LifeCall :=
  List.replicate 100 (.mutate m .faultless) ++ [.restart .faultless true]

theorem Quiet.shortLife {s : LoggedStore} (quiet : s.Quiet 0) (m : Mutation) :
    ∃ t, Machine.run step s (shortLife m) = some t ∧ t.Quiet 0 ∧
      t.records = s.records ++ List.replicate 100 m.record := by
  obtain ⟨middle,ran,next,records⟩ := quiet.mutations m 100 (Nat.le_refl 100)
  obtain ⟨t,taken,last,same⟩ := next.restart
  refine ⟨t,Machine.run_append step s middle t _ _ ran ?_,last,same.trans records⟩
  exact (Machine.run_cons_iff step middle t _ []).mpr ⟨t,taken,rfl⟩

theorem Quiet.shortLives {s : LoggedStore} (quiet : s.Quiet 0) (m : Mutation) (lives : Nat) :
    ∃ t, Machine.run step s (List.replicate lives (LoggedStore.shortLife m)).flatten = some t ∧
      t.Quiet 0 ∧ t.records = s.records ++ List.replicate (100 * lives) m.record := by
  induction lives generalizing s with
  | zero => exact ⟨s,rfl,quiet,by simp⟩
  | succ lives ih =>
    obtain ⟨middle,ran,next,records⟩ := quiet.shortLife m
    obtain ⟨t,later,last,all⟩ := ih next
    rw [List.replicate_succ,List.flatten_cons]
    refine ⟨t,Machine.run_append step s middle t _ _ ran later,last,?_⟩
    rw [all,records,List.append_assoc,← List.replicate_add,Nat.mul_succ,Nat.add_comm]

/-- After six lives of a hundred operations each, `ReadAll` finds 600 records, and no operation
was one at which a snapshot is due. -/
theorem log_outgrows_interval :
    ∃ s t, construct .faultless "data" (.unopened none) ⟨none,none⟩ = .ok () s ∧
      Machine.run step ⟨s,[]⟩
        (List.replicate 6 (shortLife (.set (ascii "k") (ascii "v")))).flatten = some t ∧
      t.records.length = 600 ∧ (Wal.logged t.store.wal.content).length = 600 ∧ ¬t.Bounded := by
  obtain ⟨s,constructed,quiet⟩ := construct_quiet .faultless Io.faultless_succeeds "data"
    (.unopened none) rfl
  obtain ⟨t,ran,last,records⟩ := quiet.shortLives (.set (ascii "k") (ascii "v")) 6
  have length : t.records.length = 600 := by
    rw [records,List.nil_append,List.length_replicate]
  have small : ∀ r ∈ t.records, r.Small := by
    intro r member
    rw [records,List.nil_append] at member
    rw [List.eq_of_mem_replicate member]
    decide
  refine ⟨s,t,constructed,ran,length,?_,?_⟩
  · rw [last.tracked.content_eq,Wal.logged_stream t.records small,length]
  · rw [Bounded,length]
    decide

end LoggedStore

end KvCache
