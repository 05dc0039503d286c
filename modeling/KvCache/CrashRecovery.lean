import KvCache.RestartDurability

/-! Recovery from a log that a crash has cut, and what becomes of the operations logged
behind the cut. The reader stops at the torn record; the writer goes on after it. -/
namespace KvCache

namespace WalRecord

theorem serialize_shape (r : WalRecord) :
    ∃ b0 b1 b2 b3 rest, r.serialize =
      [b0,b1,b2,b3,r.op.code,byteOf (BitVec.ofNat 16 r.key.length) 0,
        byteOf (BitVec.ofNat 16 r.key.length) 1] ++ (r.key ++ rest) := by
  let crc := crc32 r.payload
  refine ⟨byteOf crc 0,byteOf crc 1,byteOf crc 2,byteOf crc 3,
    le16 (BitVec.ofNat 16 r.value.length) ++ r.value,?_⟩
  rw [serialize_eq]
  simp [payload,le16,le32,crc]

theorem keyLength_of_header (r r' : WalRecord) (small : r.Small) (small' : r'.Small)
    (same : r.serialize.take 7 = r'.serialize.take 7) : r.key.length = r'.key.length := by
  obtain ⟨_,_,_,_,_,shape⟩ := r.serialize_shape
  obtain ⟨_,_,_,_,_,shape'⟩ := r'.serialize_shape
  rw [shape,shape'] at same
  simp only [List.cons_append,List.nil_append,List.take_succ_cons,List.take_zero,List.cons.injEq,
    and_true] at same
  obtain ⟨_,_,_,_,_,low,high⟩ := same
  have lengths := read16_byteOf (BitVec.ofNat 16 r.key.length)
  rw [low,high,read16_byteOf] at lengths
  rw [← ofNat16_toNat _ small.1,← ofNat16_toNat _ small'.1,lengths]

theorem serialize_keyByte (r : WalRecord) (i : Nat) (inside : i < r.key.length) :
    r.serialize[7 + i]? = r.key[i]? := by
  obtain ⟨b0,b1,b2,b3,rest,shape⟩ := r.serialize_shape
  rw [shape,List.getElem?_append_right (by simp),List.getElem?_append_left (by simpa using inside)]
  simp

theorem serialize_keyLengthByte (r : WalRecord) :
    r.serialize[6]? = some (byteOf (BitVec.ofNat 16 r.key.length) 1) := by
  obtain ⟨b0,b1,b2,b3,rest,shape⟩ := r.serialize_shape
  simp [shape]

def fence (n : Nat) : Bytes := List.replicate n 0xFF#8

/-- The record that is read across the torn tail has not the key of the record behind it. -/
theorem key_across_tear (torn first next : WalRecord) (n : Nat) (tail rest : Bytes)
    (tornSmall : torn.Small) (firstSmall : first.Small) (part : tail <+: torn.serialize)
    (nonempty : tail ≠ []) (long : 6 ≤ n) (short : n < 256) (other : n ≠ torn.key.length)
    (key : next.key = fence n) (read : tail ++ next.serialize = first.serialize ++ rest) :
    first.key ≠ fence n := by
  intro same
  have firstLength : first.key.length = n := by simp [same,fence]
  by_cases header : 7 ≤ tail.length
  · -- the length of its key is the one the torn record gives
    have heads : first.serialize.take 7 = torn.serialize.take 7 := by
      have front := congrArg (List.take 7) read
      rw [List.take_append_of_le_length header,List.take_append_of_le_length (by simp; omega)] at front
      obtain ⟨_,whole⟩ := part
      rw [← front,← whole,List.take_append_of_le_length header]
    exact other (firstLength ▸ keyLength_of_header first torn firstSmall tornSmall heads)
  · -- a zero byte of the next record's key length falls into its key
    have positive := List.length_pos_iff.mpr nonempty
    have zero : (tail ++ next.serialize)[7 + (tail.length - 1)]? = some 0#8 := by
      rw [show 7 + (tail.length - 1) = tail.length + 6 by omega,List.getElem?_append_right (by omega),
        Nat.add_sub_cancel_left,serialize_keyLengthByte,key]
      refine congrArg some (BitVec.eq_of_toNat_eq ?_)
      simp [fence,byteOf,Nat.shiftRight_eq_div_pow]
      omega
    have one : (first.serialize ++ rest)[7 + (tail.length - 1)]? = some 0xFF#8 := by
      have inside : tail.length - 1 < first.key.length := by omega
      rw [List.getElem?_append_left (by simp; omega),serialize_keyByte _ _ inside,same,fence]
      simp [List.getElem?_replicate]; omega
    rw [read,one] at zero
    exact absurd (Option.some.inj zero) (by decide)

theorem first_ends_behind_tear (torn first : WalRecord) (tail rest more : Bytes)
    (tornSmall : torn.Small) (firstSmall : first.Small) (part : tail <+: torn.serialize)
    (strict : tail ≠ torn.serialize) (read : tail ++ more = first.serialize ++ rest) :
    tail.length < first.serialize.length := by
  by_contra short
  have inside : first.serialize <+: tail :=
    List.prefix_of_prefix_length_le ⟨rest,read.symm⟩ (List.prefix_append tail more)
      (Nat.not_lt.mp short)
  obtain ⟨left,whole⟩ := inside.trans part
  obtain ⟨rfl,-⟩ := framing.encode_unique first torn left [] firstSmall tornSmall (by
    rw [List.append_nil]
    exact whole)
  exact strict (part.eq_of_length_le (Nat.not_lt.mp short))

/-- What a torn tail hides. No record with the key of the one behind the tear is read. -/
theorem hidden_behind_tear (torn next : WalRecord) (n : Nat) (tail : Bytes)
    (tornSmall : torn.Small) (part : tail <+: torn.serialize) (strict : tail ≠ torn.serialize)
    (nonempty : tail ≠ []) (long : 6 ≤ n) (short : n < 256) (other : n ≠ torn.key.length)
    (key : next.key = fence n) (value : next.value = []) :
    ∀ r ∈ Wal.logged (tail ++ next.serialize), r.key ≠ fence n := by
  obtain ⟨rest,split,smalls,_⟩ := Wal.logged_sound (tail ++ next.serialize)
  intro r member
  cases found : Wal.logged (tail ++ next.serialize) with
  | nil => rw [found] at member; cases member
  | cons first later =>
    rw [found] at split smalls member
    rw [Framing.stream_cons,List.append_assoc] at split
    have firstSmall := smalls first List.mem_cons_self
    rcases List.mem_cons.mp member with rfl | member
    · exact key_across_tear torn r next n tail _ tornSmall firstSmall part nonempty long short
        other key split
    · -- the records after the first have fewer than `9 + n` bytes left
      have ends := first_ends_behind_tear torn first tail _ _ tornSmall firstSmall part strict split
      have bound := framing.encode_length_le_stream r later member
      have total := congrArg List.length split
      have encoded (x : WalRecord) : (framing.encode x).length = 9 + x.key.length + x.value.length :=
        x.serialize_length
      simp only [List.length_append,encoded,serialize_length,key,value,fence,
        List.length_replicate,List.length_nil] at bound total ends
      intro same
      rw [same,fence,List.length_replicate] at bound
      omega

end WalRecord

namespace PersistentKvStore

/-- The snapshot file is missing, or `Load` accepts it with these entries. -/
def Accepted (files : SnapshotFiles) (entries : List SnapshotEntry) : Prop :=
  files.dat = none ∧ entries = [] ∨ Snapshot.load files.dat = .ok (some entries)

theorem Accepted.baseMap_eq {files : SnapshotFiles} {entries : List SnapshotEntry}
    (accepted : Accepted files entries) : baseMap files.dat = .ok (insertEntries ∅ entries) := by
  rcases accepted with ⟨none,rfl⟩ | loaded
  · rw [none]; rfl
  · rw [baseMap,loaded]; rfl

def logBytes (ops : List Mutation) : Bytes :=
  WalRecord.framing.stream (ops.map Mutation.record)

theorem records_small (ops : List Mutation) (small : ∀ m ∈ ops, m.Small) :
    ∀ r ∈ ops.map Mutation.record, r.Small := by
  intro r member
  obtain ⟨m,inside,rfl⟩ := List.mem_map.mp member
  exact small m inside

/-- Prefix consistency. From a log cut at any byte, the operations whose records lie
wholly in front of the cut are recovered, and nothing else. -/
theorem recover_cut_log (io : Io) (succeeds : io.Succeeds) (dataDir : String) (wal : Wal)
    (snapshot : SnapshotFiles) (entries : List SnapshotEntry) (accepted : Accepted snapshot entries)
    (ops : List Mutation) (small : ∀ m ∈ ops, m.Small) (cut : Nat)
    (file : wal.file = some ((logBytes ops).take cut)) :
    ∃ s k, construct io dataDir wal snapshot = .ok () s ∧
      (∀ j ≤ ops.length, (logBytes (ops.take j)).length ≤ cut ↔ j ≤ k) ∧
      s.data.toFinmap =
        Update.replay (insertEntries ∅ entries).toFinmap ((ops.take k).map Mutation.update) := by
  obtain ⟨w,_,constructed⟩ := construct_ready io succeeds dataDir wal snapshot
  have content : wal.content = (logBytes ops).take cut := by simp [Wal.content,file]
  obtain ⟨data,found,map⟩ := rebuilt_map snapshot.dat wal.content _ ⟨_,accepted.baseMap_eq,rfl⟩
  rw [found] at constructed
  refine ⟨_,WalRecord.framing.completed (ops.map Mutation.record) cut,constructed,?_,map.trans ?_⟩
  · intro j inside
    rw [logBytes,List.map_take]
    exact WalRecord.framing.fits_iff_le_completed _ cut j (by simpa using inside)
  · rw [content,logBytes,Wal.logged_take _ (records_small ops small),← List.map_take,
      records_updates]

/-- Two records, the second cut inside its key length, over a snapshot of one entry. -/
theorem recover_cut_log_two :
    ∃ s k, construct .faultless "data"
        (.unopened (some ((logBytes [.set (ascii "a") (ascii "1"),.delete (ascii "b")]).take 17)))
        ⟨some (Snapshot.content [⟨ascii "b",ascii "2"⟩]),none⟩ = .ok () s ∧
      (∀ j ≤ 2, (logBytes ([.set (ascii "a") (ascii "1"),.delete (ascii "b")].take j)).length ≤ 17 ↔
        j ≤ k) ∧
      s.data.toFinmap = Update.replay (insertEntries ∅ [⟨ascii "b",ascii "2"⟩]).toFinmap
        (([.set (ascii "a") (ascii "1"),.delete (ascii "b")].take k).map Mutation.update) :=
  recover_cut_log .faultless Io.faultless_succeeds "data" _ _ [⟨ascii "b",ascii "2"⟩]
    (.inr (by decide +kernel)) [.set (ascii "a") (ascii "1"),.delete (ascii "b")]
    (by decide) 17 rfl

theorem foldl_applyRecord_over_take (base : KvMap) (ops : List WalRecord) (k : Nat) :
    (ops.foldl applyRecord ((ops.take k).foldl applyRecord base)).toFinmap =
      (ops.foldl applyRecord base).toFinmap := by
  obtain ⟨n,front⟩ : ∃ n, (ops.take k).filterMap WalRecord.update? =
      (ops.filterMap WalRecord.update?).take n := by
    have split : ops.filterMap WalRecord.update? =
        (ops.take k).filterMap WalRecord.update? ++ (ops.drop k).filterMap WalRecord.update? := by
      rw [← List.filterMap_append,List.take_append_drop]
    exact ⟨_,by rw [split,List.take_left]⟩
  rw [foldl_applyRecord_toFinmap,foldl_applyRecord_toFinmap,foldl_applyRecord_toFinmap,front,
    Update.replay_over_take]

/-- A log over a later snapshot. Replaying a whole log over the map of its first `k`
records gives the map of the log. So the constructor recovers that map from a snapshot of
the first `k` records and the log not yet truncated; in particular after a crash between
the rename of a snapshot and the truncation. -/
theorem replay_over_later_snapshot (base : KvMap) (ops : List WalRecord) (k : Nat) :
    (ops.foldl applyRecord ((ops.take k).foldl applyRecord base)).toFinmap =
        (ops.foldl applyRecord base).toFinmap ∧
      (∀ io dataDir wal files, io.Succeeds → wal.file = some (WalRecord.framing.stream ops) →
        (∀ r ∈ ops, r.Small) →
        (∃ data, baseMap files.dat = .ok data ∧
          data.toFinmap = ((ops.take k).foldl applyRecord base).toFinmap) →
        ∃ s, construct io dataDir wal files = .ok () s ∧
          s.data.toFinmap = (ops.foldl applyRecord base).toFinmap) ∧
      ∀ s start log order, Backed s start log → s.data.entries.length < 2 ^ 32 →
        RestartKeeps { s with snapshot := snapshotAfter order s.data s.snapshot } := by
  have replayed := foldl_applyRecord_over_take base ops k
  refine ⟨replayed,?_,?_⟩
  · intro io dataDir wal files succeeds file small loaded
    obtain ⟨w,_,constructed⟩ := construct_ready io succeeds dataDir wal files
    have content : wal.content = WalRecord.framing.stream ops := by rw [Wal.content,file]; rfl
    obtain ⟨data,found,map⟩ := rebuilt_map files.dat wal.content _ loaded
    rw [found] at constructed
    refine ⟨_,constructed,map.trans ?_⟩
    rw [content,Wal.logged_stream ops small,← foldl_applyRecord_toFinmap,replayed]
  · intro s start log order backed count
    by_cases empty : s.data.entries = []
    · rw [snapshotAfter,if_pos empty]
      exact backed.restartKeeps
    rw [restartKeeps_iff,snapshotAfter,if_neg empty]
    have loaded := baseMap_content order s.data backed.smallData count
    obtain ⟨data,found,map⟩ := rebuilt_map _ s.wal.content _ loaded
    refine ⟨data,found,map.trans ?_⟩
    rw [backed.ready.content_eq,Wal.logged_stream _ (records_small log backed.small),records_updates,
      ← backed.current]
    have whole := Update.replay_over_take start (log.map Mutation.update) (log.map Mutation.update).length
    rwa [List.take_length] at whole

/-- Operations on this store that take no snapshot are all found by the next restart. -/
def WritesDurable (s : PersistentKvStore) : Prop :=
  ∀ calls, (∀ c ∈ calls, c.env.io.Succeeds ∧ c.op.Small) →
    Machine.Guarded StoreCall.step (fun s c => c.snapshots s = false) s calls →
    ∃ s', Machine.run StoreCall.step s calls = some s' ∧ RestartKeeps s'

theorem Backed.writesDurable {s : PersistentKvStore} {base : PlainMap} {log : List Mutation}
    (backed : Backed s base log) : WritesDurable s := by
  intro calls admitted quiet
  induction calls generalizing s log with
  | nil => exact ⟨s,rfl,backed.restartKeeps⟩
  | cons c calls ih =>
    obtain ⟨succeeds,small⟩ := admitted c List.mem_cons_self
    obtain ⟨noSnapshot,later⟩ := quiet
    obtain ⟨t,taken,data,after⟩ := c.step_ready succeeds s _ backed.ready
    rw [if_neg (by simp [noSnapshot])] at after
    have next := StoreCall.backed_logged backed small data after.1 after.2
    obtain ⟨s',ran,keeps⟩ := ih next (fun x member => admitted x (List.mem_cons_of_mem c member))
      (later t taken)
    exact ⟨s',(Machine.run_cons_iff ..).mpr ⟨t,taken,ran⟩,keeps⟩

/-- An operation that changes the image of a key. -/
def toggle (data : KvMap) (key : Bytes) : Mutation :=
  if (data.lookup key).isSome then .delete key else .set key []

theorem toggle_record (data : KvMap) (key : Bytes) :
    (toggle data key).record.key = key ∧ (toggle data key).record.value = [] := by
  unfold toggle
  split <;> exact ⟨rfl,rfl⟩

theorem toggle_changes (data : KvMap) (key : Bytes) :
    ((toggle data key).applyTo data).toFinmap.lookup key ≠ data.toFinmap.lookup key := by
  rw [Mutation.applyTo_toFinmap,Update.lookup_apply,KvStore.toFinmap_lookup]
  unfold toggle
  split
  · next present =>
    obtain ⟨value,found⟩ := Option.isSome_iff_exists.mp present
    simp [Mutation.update,found]
  · next absent =>
    rw [Bool.not_eq_true,Option.isSome_eq_false_iff,Option.isNone_iff_eq_none] at absent
    simp [Mutation.update,absent]

theorem lookup_replay_records (m : PlainMap) (records : List WalRecord) (key : Bytes)
    (untouched : ∀ r ∈ records, r.key ≠ key) :
    (Update.replay m (records.filterMap WalRecord.update?)).lookup key = m.lookup key := by
  refine Update.lookup_replay_of_untouched m _ key fun u member => ?_
  obtain ⟨r,inside,update⟩ := List.mem_filterMap.mp member
  have sameKey : u.key = r.key := by
    unfold WalRecord.update? at update
    split at update
    · cases update; rfl
    · split at update <;> cases update; rfl
  rw [sameKey]
  exact untouched r inside

section Torn

variable {wal : Wal} {snapshot : SnapshotFiles} {base : PlainMap} {log : List Mutation}
  {torn : Mutation} {tail : Bytes} {data : KvMap}

theorem logged_tail (small : ∀ m ∈ log, m.Small) (tornSmall : torn.Small)
    (part : tail <+: torn.record.serialize) (strict : tail ≠ torn.record.serialize) :
    Wal.logged (logBytes log ++ tail) = log.map Mutation.record := by
  rw [logBytes,Wal.logged_append _ (records_small log small),
    Wal.logged_torn torn.record tornSmall tail part strict,List.append_nil]

/-- Behind a torn record there is always an operation that the next restart does not find. -/
theorem torn_loses (s : PersistentKvStore) (small : ∀ m ∈ log, m.Small) (tornSmall : torn.Small)
    (part : tail <+: torn.record.serialize) (strict : tail ≠ torn.record.serialize)
    (nonempty : tail ≠ []) (ready : s.wal.Ready (logBytes log ++ tail))
    (loaded : ∃ data, baseMap s.snapshot.dat = .ok data ∧ data.toFinmap = base)
    (current : s.data.toFinmap = Update.replay base (log.map Mutation.update))
    (fresh : s.opCount = 0 ∧ s.burstWindow = ⟨kBurstMaxOps,kBurstWindow,[]⟩) :
    ¬WritesDurable s := by
  intro durable
  -- one of two key lengths differs from that of the torn record
  obtain ⟨n,long,short,other⟩ : ∃ n, 6 ≤ n ∧ n < 8 ∧ n ≠ torn.record.key.length := by
    by_cases six : torn.record.key.length = 6
    · exact ⟨7,by omega,by omega,by omega⟩
    · exact ⟨6,by omega,by omega,by omega⟩
  let m := toggle s.data (WalRecord.fence n)
  obtain ⟨key,value⟩ : m.record.key = WalRecord.fence n ∧ m.record.value = [] :=
    toggle_record s.data (WalRecord.fence n)
  have mSmall : m.Small := by
    simp [Mutation.Small,WalRecord.Small,key,value,WalRecord.fence]
    omega
  have opSmall : (StoreOp.mutation m).Small := fun x member => List.mem_singleton.mp member ▸ mSmall
  let c := StoreCall.ofOp (.mutation m)
  have quiet : c.snapshots s = false := by
    simp [c,StoreCall.ofOp,StoreCall.snapshots,shouldSnapshot,countOp,fresh.1,fresh.2]
    decide
  obtain ⟨s',taken,after,files⟩ := c.step_ready Io.faultless_succeeds s _ ready
  rw [if_neg (by simp [quiet])] at files
  obtain ⟨s'',ran,keeps⟩ := durable [c] (by simp [c,StoreCall.ofOp,Io.faultless_succeeds,opSmall])
    ⟨quiet,fun _ _ => trivial⟩
  obtain ⟨t,first,rfl⟩ : ∃ t, c.step s = some t ∧ t = s'' := by
    simpa [Machine.run] using ran
  cases taken.symm.trans first
  obtain ⟨found,rebuilds,same⟩ := (restartKeeps_iff s').mp keeps
  obtain ⟨found',rebuilds',map⟩ := rebuilt_map s'.snapshot.dat s'.wal.content base (files.1 ▸ loaded)
  cases rebuilds.symm.trans rebuilds'
  have hidden := WalRecord.hidden_behind_tear torn.record m.record n tail tornSmall part strict
    nonempty long (by omega) other key value
  have content : s'.wal.content = logBytes log ++ (tail ++ m.record.serialize) := by
    rw [files.2.content_eq]
    simp [c,StoreCall.ofOp,StoreOp.mutations,WalRecord.framing,Framing.stream]
  have behind := lookup_replay_records (Update.replay base (log.map Mutation.update)) _ _ hidden
  rw [content,logBytes,Wal.logged_append _ (records_small log small),List.filterMap_append,
    Update.replay_append,records_updates] at map
  refine toggle_changes s.data (WalRecord.fence n) ?_
  have memory : s'.data = m.applyTo s.data := after
  rw [← memory,← same,map,behind,current]

/-- Writes after the recovery of a log. Where whole records are followed by a strict
prefix of one more, later operations are durable exactly when that prefix is empty. -/
theorem writes_durable_iff_not_torn (io : Io) (succeeds : io.Succeeds) (dataDir : String) (wal : Wal)
    (snapshot : SnapshotFiles) (entries : List SnapshotEntry) (accepted : Accepted snapshot entries)
    (log : List Mutation) (small : ∀ m ∈ log, m.Small) (torn : Mutation) (tornSmall : torn.Small)
    (tail : Bytes) (part : tail <+: torn.record.serialize)
    (strict : tail ≠ torn.record.serialize) (file : wal.file = some (logBytes log ++ tail)) :
    ∃ s, construct io dataDir wal snapshot = .ok () s ∧ (WritesDurable s ↔ tail = []) := by
  obtain ⟨w,ready,constructed⟩ := construct_ready io succeeds dataDir wal snapshot
  have content : wal.content = logBytes log ++ tail := by simp [Wal.content,file]
  have loaded : ∃ data, baseMap snapshot.dat = .ok data ∧
      data.toFinmap = (insertEntries ∅ entries).toFinmap := ⟨_,accepted.baseMap_eq,rfl⟩
  obtain ⟨data,found,map⟩ := rebuilt_map snapshot.dat wal.content _ loaded
  rw [content,logged_tail small tornSmall part strict,records_updates] at map
  rw [found] at constructed
  rw [content] at ready
  refine ⟨_,constructed,?_,?_⟩
  · intro durable
    by_contra nonempty
    exact torn_loses _ small tornSmall part strict nonempty ready loaded map ⟨rfl,rfl⟩ durable
  · rintro rfl
    rw [List.append_nil] at ready
    exact Backed.writesDurable ⟨⟨ready,small,loaded⟩,map.symm,rebuilt_small _ _ _ found⟩

end Torn

theorem writes_durable_iff_not_torn_three :
    ∃ s, construct .faultless "data" (.unopened (some (logBytes [.set (ascii "a") (ascii "1")] ++
        (Mutation.delete (ascii "b")).record.serialize.take 3))) ⟨none,none⟩ = .ok () s ∧
      (WritesDurable s ↔ (Mutation.delete (ascii "b")).record.serialize.take 3 = []) :=
  writes_durable_iff_not_torn .faultless Io.faultless_succeeds "data" _ _ [] (.inl ⟨rfl,rfl⟩)
    [.set (ascii "a") (ascii "1")] (by decide) (.delete (ascii "b")) (by decide) _
    (List.take_prefix 3 _) (by decide +kernel) rfl

/-- Three bytes of a torn record, a Set after the recovery, and a restart that does not
find it. -/
theorem set_after_torn_log_lost :
    (do let start ← Act.final (construct .faultless "data"
          (.unopened (some ((Mutation.delete (ascii "b")).record.serialize.take 3))) ⟨none,none⟩)
        let s ← StoreCall.step start (.ofOp (.mutation (.set (ascii "k") (ascii "v"))))
        let s' ← Act.final (restart .faultless true s)
        return (s.data.lookup (ascii "k"),s'.data.lookup (ascii "k"))) =
      some (some (ascii "v"),none) := by
  decide +kernel

end PersistentKvStore

end KvCache
