import KvCache.Wal

/-! Reading a log file, whatever its bytes are: the decoder stays inside the length it is
given, and the records read are the longest run of encodings in front of the file. A record
hit by a short burst in its checksum, its key or its value ends that run. -/
namespace KvCache

open CyclicCode (Burst)

namespace WalRecord

theorem deserialize_returned (data more : Bytes) (len : Nat) :
    Returned (deserialize data len) (deserialize (data ++ more) len) := by
  have stored : Returned (Crc.readChecksum data) (Crc.readChecksum (data ++ more)) :=
    Crc.readChecksum_returned data more
  refine .ite _ (.refl _) (.bind stored fun _ => .bind (.byteAt data more 4) fun _ => ?_)
  refine .bind (.byteAt data more 5) fun _ => .bind (.byteAt data more 6) fun _ => ?_
  refine .ite _ (.refl _) (.bind (.slice data more _ _) fun _ => ?_)
  refine .bind (.byteAt data more _) fun _ => .bind (.byteAt data more _) fun _ => ?_
  exact .ite _ (.refl _) (.bind (.slice data more _ _) fun _ => .refl _)

theorem deserialize_inside (data : Bytes) (len : Nat) (inside : len ≤ data.length) :
    ∃ r consumed, deserialize (data.take len) len = .ok (r,consumed) ∧
      deserialize data len = .ok (r,consumed) ∧ consumed ≤ len := by
  have size : (data.take len).length = len := by rw [List.length_take]; omega
  have extended (r : WalRecord) (consumed : Nat)
      (decoded : deserialize (data.take len) len = .ok (r,consumed)) :
      deserialize data len = .ok (r,consumed) := by
    have same := deserialize_returned (data.take len) (data.drop len) len (r,consumed) decoded
    rwa [List.take_append_drop] at same
  have cases := deserialize_cases (data.take len)
  rw [size] at cases
  rcases cases with nothing | ⟨r,rest,_,shape,decoded⟩
  · exact ⟨default,0,nothing,extended _ _ nothing,Nat.zero_le len⟩
  · have lengths := congrArg List.length shape
    rw [List.length_append,size] at lengths
    exact ⟨r,r.serialize.length,decoded,extended _ _ decoded,by omega⟩

/-- Records that decode one after the other in front of some bytes, and what is behind them. -/
inductive Decodes : Bytes → List WalRecord → Bytes → Prop where
  | nil (data : Bytes) : Decodes data [] data
  | cons (data rest : Bytes) (r : WalRecord) (records : List WalRecord) (consumed : Nat)
      (decoded : deserialize data data.length = .ok (r,consumed)) (moved : consumed ≠ 0)
      (later : Decodes (data.drop consumed) records rest) : Decodes data (r :: records) rest

theorem Decodes.split {data rest : Bytes} {records : List WalRecord}
    (decodes : Decodes data records rest) :
    (∀ r ∈ records, r.Small) ∧ data = framing.stream records ++ rest := by
  induction decodes with
  | nil data => exact ⟨by simp,rfl⟩
  | cons data rest r records consumed decoded moved later ih =>
    rcases deserialize_cases data with nothing | ⟨found,after,small,shape,whole⟩
    · cases nothing.symm.trans decoded
      exact absurd rfl moved
    cases whole.symm.trans decoded
    have tail : data.drop r.serialize.length = after := by rw [shape,List.drop_left]
    rw [tail] at ih
    obtain ⟨smalls,split⟩ := ih
    refine ⟨?_,?_⟩
    · intro x member
      rcases List.mem_cons.mp member with rfl | member
      · exact small
      · exact smalls x member
    · rw [shape,split,Framing.stream_cons,List.append_assoc]
      rfl

theorem decodes_stream (records : List WalRecord) (small : ∀ r ∈ records, r.Small) (rest : Bytes) :
    Decodes (framing.stream records ++ rest) records rest := by
  induction records with
  | nil => exact .nil rest
  | cons r records ih =>
    have head := small r List.mem_cons_self
    have later := ih fun x member => small x (List.mem_cons_of_mem r member)
    have decoded := deserialize_serialize r head (framing.stream records ++ rest)
    rw [Framing.stream_cons,List.append_assoc]
    refine .cons _ rest r records r.serialize.length decoded (by simp) ?_
    rw [show framing.encode r = r.serialize from rfl,List.drop_left]
    exact later

/-- Reading an arbitrary log. The decoder stays inside the length it is given. The
records `ReadAll` returns encode to the front of the file, nothing decodes behind them, and
every other run of decodable records is a front part of theirs. -/
theorem readAll_maximal_prefix (w : Wal) (position : Nat) (opened : w.isOpen = true)
    (descriptor : w.fd = some position) :
    (∀ data len, len ≤ data.length → ∃ r consumed, deserialize (data.take len) len = .ok (r,consumed) ∧
      deserialize data len = .ok (r,consumed) ∧ (consumed = 0 ∨ 0 < consumed ∧ consumed ≤ len)) ∧
    ∃ records rest w', Wal.readAll w = .ok records w' ∧
      w.content = records.flatMap serialize ++ rest ∧ Decodes w.content records rest ∧
      deserialize rest rest.length = .ok (default,0) ∧
      ∀ others more, Decodes w.content others more → others <+: records ∧
        (deserialize more more.length = .ok (default,0) → others = records ∧ more = rest) := by
  refine ⟨fun data len inside => ?_,?_⟩
  · obtain ⟨r,consumed,part,whole,bound⟩ := deserialize_inside data len inside
    exact ⟨r,consumed,part,whole,by omega⟩
  obtain ⟨rest,split,small,stop⟩ := Wal.logged_sound w.content
  have decodes := decodes_stream (Wal.logged w.content) small rest
  rw [← split] at decodes
  refine ⟨_,rest,_,Wal.readAll_open w position opened descriptor,split,decodes,
    (decode_eq_none_iff rest).mp stop,fun others more decoded => ?_⟩
  obtain ⟨smalls,shape⟩ := decoded.split
  refine ⟨?_,fun nothing => ?_⟩
  · rw [shape,Wal.logged_append others smalls]
    exact List.prefix_append _ _
  · exact framing.stream_unique _ _ more rest smalls small ((decode_eq_none_iff more).mpr nothing) stop
      (shape.symm.trans split)

theorem readAll_maximal_prefix_unnamed :
    ∃ records rest w', Wal.readAll
        ⟨"wal.log",some ((⟨⟨7#8⟩,ascii "k",[]⟩ : WalRecord).serialize ++ [0#8]),some 0,0,true,true,.NO⟩ =
          .ok records w' ∧
      (⟨⟨7#8⟩,ascii "k",[]⟩ : WalRecord).serialize ++ [0#8] = records.flatMap serialize ++ rest := by
  obtain ⟨_,records,rest,w',read,split,_⟩ := readAll_maximal_prefix
    ⟨"wal.log",some ((⟨⟨7#8⟩,ascii "k",[]⟩ : WalRecord).serialize ++ [0#8]),some 0,0,true,true,.NO⟩ 0
    rfl rfl
  exact ⟨records,rest,w',read,split⟩

inductive Field where
  | crc
  | key
  | value
  deriving DecidableEq, Repr

def Field.start (r : WalRecord) : Field → Nat
  | crc => 0
  | key => 7
  | value => 9 + r.key.length

def Field.size (r : WalRecord) : Field → Nat
  | crc => 4
  | key => r.key.length
  | value => r.value.length

theorem burst_behind_checksum {front part back bytes : Bytes} {start width : Nat}
    (burst : Burst (le32 (crc32 (front ++ part ++ back)) ++ (front ++ part ++ back)) bytes start width)
    (short : width ≤ 4) (low : 4 + front.length ≤ start)
    (high : start + width ≤ 4 + front.length + part.length) :
    ∃ part', part'.length = part.length ∧
      bytes = le32 (crc32 (front ++ part ++ back)) ++ (front ++ part' ++ back) ∧
      crc32 (front ++ part ++ back) ≠ crc32 (front ++ part' ++ back) := by
  let crc := le32 (crc32 (front ++ part ++ back))
  have regroup (x : Bytes) : crc ++ (front ++ x ++ back) = crc ++ front ++ x ++ back := by simp
  have size : (crc ++ front).length = 4 + front.length := by simp [crc]
  rw [show le32 (crc32 (front ++ part ++ back)) = crc from rfl,regroup] at burst
  obtain ⟨part',rfl,hit⟩ := burst.inside (by omega) (by omega)
  exact ⟨part',hit.length,(regroup part').symm,(crc32_burst (hit.around front back) short).symm⟩

/-- A burst inside one of the fields leaves the fields of a record behind a checksum that
is not theirs. -/
theorem burst_payload (r : WalRecord) (field : Field) {bytes : Bytes} {start width : Nat}
    (small : r.Small) (burst : Burst r.serialize bytes start width) (short : width ≤ 4)
    (low : field.start r ≤ start) (high : start + width ≤ field.start r + field.size r) :
    ∃ (x : BitVec 32) (hit : WalRecord), hit.Small ∧ bytes = le32 x ++ hit.payload ∧
      x ≠ crc32 hit.payload := by
  obtain ⟨op,key,value⟩ := r
  let keyLen := le16 (BitVec.ofNat 16 key.length)
  let valLen := le16 (BitVec.ofNat 16 value.length)
  rw [serialize_eq] at burst
  cases field with
  | crc =>
    have framed : Burst ([] ++ le32 (crc32 (payload ⟨op,key,value⟩)) ++ payload ⟨op,key,value⟩)
        bytes start width := burst
    obtain ⟨stored,rfl,hit⟩ := framed.inside low high
    obtain ⟨x,split,_⟩ := le32_at stored 0 (by rw [hit.length]; simp)
    rw [List.drop_zero,List.drop_eq_nil_of_le (by rw [hit.length]; simp),List.append_nil] at split
    refine ⟨x,⟨op,key,value⟩,small,by rw [split]; rfl,?_⟩
    rintro rfl
    exact hit.changed split
  | key =>
    have covered (k : Bytes) (size : k.length = key.length) : payload ⟨op,k,value⟩ =
        ([op.code] ++ keyLen) ++ k ++ (valLen ++ value) := by
      simp [payload,keyLen,valLen,size]
    rw [covered key rfl] at burst
    obtain ⟨key',size,shape,differ⟩ := burst_behind_checksum burst short low high
    rw [← covered key' size] at shape differ
    exact ⟨_,⟨op,key',value⟩,⟨by rw [size]; exact small.1,small.2⟩,shape,differ⟩
  | value =>
    have covered (v : Bytes) (size : v.length = value.length) : payload ⟨op,key,v⟩ =
        ([op.code] ++ keyLen ++ key ++ valLen) ++ v ++ [] := by
      simp [payload,keyLen,valLen,size]
    have front : ([op.code] ++ keyLen ++ key ++ valLen).length = 5 + key.length := by
      simp [keyLen,valLen]
      omega
    simp only [Field.start,Field.size] at low high
    rw [covered value rfl] at burst
    obtain ⟨value',size,shape,differ⟩ := burst_behind_checksum burst short (by omega) (by omega)
    rw [← covered value' size] at shape differ
    exact ⟨_,⟨op,key,value'⟩,⟨small.1,by rw [size]; exact small.2⟩,shape,differ⟩

/-- Corruption is contained. A change within four bytes in a row, inside the checksum,
the key or the value of a record, makes `ReadAll` return exactly the records before it. -/
theorem corrupted_log_contained (records : List WalRecord) (small : ∀ r ∈ records, r.Small) (i : Nat)
    (r : WalRecord) (record : records[i]? = some r) (field : Field) (start width : Nat)
    (short : width ≤ 4)
    (low : (framing.stream (records.take i)).length + field.start r ≤ start)
    (high : start + width ≤ (framing.stream (records.take i)).length + field.start r + field.size r)
    (modified : Bytes) (burst : Burst (framing.stream records) modified start width)
    (w : Wal) (position : Nat) (opened : w.isOpen = true) (descriptor : w.fd = some position)
    (file : w.file = some modified) :
    ∃ w', Wal.readAll w = .ok (records.take i) w' := by
  obtain ⟨inside,rfl⟩ := List.getElem?_eq_some_iff.mp record
  have split : framing.stream records = framing.stream (records.take i) ++ records[i].serialize ++
      framing.stream (records.drop (i + 1)) := by
    conv => lhs; rw [← List.take_append_drop i records,List.drop_eq_getElem_cons inside]
    rw [Framing.stream_append,Framing.stream_cons,← List.append_assoc]
    rfl
  rw [split] at burst
  have bound : field.start records[i] + field.size records[i] ≤ records[i].serialize.length := by
    cases field <;> simp [Field.start,Field.size] <;> omega
  obtain ⟨bytes,rfl,hit⟩ := burst.inside (by omega) (by omega)
  obtain ⟨x,other,otherSmall,rfl,differ⟩ := burst_payload records[i] field
    (small _ (List.getElem_mem inside)) hit short (by omega) (by omega)
  -- at the altered record nothing decodes
  have decoded := deserialize_checked x other otherSmall (framing.stream (records.drop (i + 1)))
  rw [if_neg differ] at decoded
  have nothing := Wal.logged_nothing _ ((decode_eq_none_iff _).mpr decoded)
  have content : w.content = framing.stream (records.take i) ++
      (le32 x ++ other.payload ++ framing.stream (records.drop (i + 1))) := by
    rw [Wal.content,file,Option.getD_some,List.append_assoc]
  refine ⟨{ w with fd := some w.content.length },?_⟩
  rw [Wal.readAll_open w position opened descriptor,content,
    Wal.logged_append _ (fun x member => small x (List.mem_of_mem_take member)),nothing,List.append_nil]

theorem corrupted_log_contained_second :
    ∃ w', Wal.readAll ⟨"wal.log",
        some ((framing.stream [⟨.SET,ascii "a",ascii "1"⟩,⟨.SET,ascii "b",ascii "2"⟩,⟨.DEL,ascii "a",[]⟩]).set
          21 0#8),some 0,0,true,true,.NO⟩ = .ok [⟨.SET,ascii "a",ascii "1"⟩] w' :=
  corrupted_log_contained [⟨.SET,ascii "a",ascii "1"⟩,⟨.SET,ascii "b",ascii "2"⟩,⟨.DEL,ascii "a",[]⟩]
    (by decide) 1 ⟨.SET,ascii "b",ascii "2"⟩ rfl .value 21 1 (by decide) (by decide +kernel)
    (by decide +kernel) _
    ⟨List.length_set,fun i apart => List.getElem?_set_ne (by omega),by decide +kernel⟩
    ⟨"wal.log",_,some 0,0,true,true,.NO⟩ 0 rfl rfl rfl

end WalRecord

end KvCache
