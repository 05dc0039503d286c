import KvCache.Bytes
import KvCache.Replay

/-! The in-memory store. `flat_hash_map` is an association list without repeated keys; two
of them are the same map when they agree as finite maps, in whatever order they iterate. -/
namespace KvCache

/-- `data_`. -/
abbrev KvMap := AList fun _ : Bytes => Bytes

/-- The key-value map a store stands for. -/
abbrev PlainMap := Finmap fun _ : Bytes => Bytes

namespace KvStore

def set (data : KvMap) (key value : Bytes) : KvMap := data.insert key value

def get (data : KvMap) (key : Bytes) : Option Bytes := data.lookup key

/-- The number of erased elements is tested against zero. -/
def delete (data : KvMap) (key : Bytes) : Bool × KvMap :=
  ((data.lookup key).isSome,data.erase key)

def existsKey (data : KvMap) (key : Bytes) : Bool := (data.lookup key).isSome

def allKeys (data : KvMap) : List Bytes := data.keys

def size (data : KvMap) : Nat := data.entries.length

@[simp] theorem set_toFinmap (data : KvMap) (key value : Bytes) :
    (set data key value).toFinmap = Update.apply data.toFinmap ⟨key,some value⟩ := by
  rw [set,← Finmap.insert_toFinmap]
  rfl

@[simp] theorem delete_toFinmap (data : KvMap) (key : Bytes) :
    (delete data key).2.toFinmap = Update.apply data.toFinmap ⟨key,none⟩ := by
  rw [delete,← Finmap.erase_toFinmap]
  rfl

theorem toFinmap_lookup (data : KvMap) (key : Bytes) :
    data.toFinmap.lookup key = data.lookup key := Finmap.lookup_toFinmap key data

theorem toFinmap_eq_empty (data : KvMap) : data.toFinmap = ∅ ↔ data.entries = [] := by
  rw [← Finmap.empty_toFinmap,AList.toFinmap_eq]
  exact List.perm_nil

theorem set_length_le (data : KvMap) (key value : Bytes) :
    (set data key value).entries.length ≤ data.entries.length + 1 := by
  have erased := (List.kerase_sublist key data.entries).length_le
  simpa [set,AList.entries_insert] using erased

end KvStore

end KvCache
