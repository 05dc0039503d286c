import Mathlib.Data.Finmap

/-! Logs of updates over finite maps. An update gives the new image of one key, `none`
for a removal; replaying a log leaves every key with the image of its last update. -/
namespace KvCache

structure Update (κ ν : Type) where
  key : κ
  image : Option ν
  deriving DecidableEq, Repr

namespace Update

variable {κ ν : Type} [DecidableEq κ]

def apply (m : Finmap fun _ : κ => ν) (u : Update κ ν) : Finmap fun _ : κ => ν :=
  match u.image with
  | some v => m.insert u.key v
  | none => m.erase u.key

def replay (m : Finmap fun _ : κ => ν) (log : List (Update κ ν)) : Finmap fun _ : κ => ν :=
  log.foldl apply m

theorem lookup_apply (m : Finmap fun _ : κ => ν) (u : Update κ ν) (k : κ) :
    (apply m u).lookup k = if k = u.key then u.image else m.lookup k := by
  obtain ⟨key,image⟩ := u
  by_cases same : k = key
  · subst same
    cases image <;> simp [apply]
  · cases image with
    | none => simp [apply,same,Finmap.lookup_erase_ne same]
    | some v => simp [apply,same,Finmap.lookup_insert_of_ne m same]

@[simp] theorem replay_cons (m : Finmap fun _ : κ => ν) (u : Update κ ν) (log : List (Update κ ν)) :
    replay m (u :: log) = replay (apply m u) log := rfl

theorem replay_append (m : Finmap fun _ : κ => ν) (first second : List (Update κ ν)) :
    replay m (first ++ second) = replay (replay m first) second := by
  simp [replay]

theorem lookup_replay_of_untouched (m : Finmap fun _ : κ => ν) (log : List (Update κ ν)) (k : κ)
    (untouched : ∀ u ∈ log, u.key ≠ k) : (replay m log).lookup k = m.lookup k := by
  induction log generalizing m with
  | nil => rfl
  | cons u log ih =>
    have head := untouched u List.mem_cons_self
    rw [replay_cons,ih _ fun x member => untouched x (List.mem_cons_of_mem u member),lookup_apply,
      if_neg (Ne.symm head)]

theorem lookup_replay_last (m : Finmap fun _ : κ => ν) (before after : List (Update κ ν))
    (u : Update κ ν) (last : ∀ x ∈ after, x.key ≠ u.key) :
    (replay m (before ++ u :: after)).lookup u.key = u.image := by
  rw [replay_append,replay_cons,lookup_replay_of_untouched _ _ _ last,lookup_apply,if_pos rfl]

theorem lookup_replay_congr (m m' : Finmap fun _ : κ => ν) (log : List (Update κ ν)) (k : κ)
    (agree : m.lookup k = m'.lookup k ∨ ∃ u ∈ log, u.key = k) :
    (replay m log).lookup k = (replay m' log).lookup k := by
  induction log generalizing m m' with
  | nil =>
    rcases agree with same | ⟨u,member,_⟩
    · exact same
    · cases member
  | cons u log ih =>
    rw [replay_cons,replay_cons]
    refine ih _ _ ?_
    rw [lookup_apply,lookup_apply]
    by_cases named : k = u.key
    · left
      rw [if_pos named,if_pos named]
    rw [if_neg named,if_neg named]
    rcases agree with same | ⟨x,member,key⟩
    · exact .inl same
    · rcases List.mem_cons.mp member with rfl | later
      · exact absurd key.symm named
      · exact .inr ⟨x,later,key⟩

/-- Replaying a log over a front part of itself is replaying it once. -/
theorem replay_over_take (m : Finmap fun _ : κ => ν) (log : List (Update κ ν)) (n : Nat) :
    replay (replay m (log.take n)) log = replay m log := by
  refine Finmap.ext_lookup fun k => lookup_replay_congr _ _ log k ?_
  by_cases named : ∃ u ∈ log, u.key = k
  · exact .inr named
  · refine .inl (lookup_replay_of_untouched m _ k fun u member same => ?_)
    exact named ⟨u,List.mem_of_mem_take member,same⟩

section Writers

variable {τ : Type} [DecidableEq τ]

def ofWriter (t : τ) (log : List (τ × Update κ ν)) : List (Update κ ν) :=
  (log.filter fun e => e.1 = t).map Prod.snd

omit [DecidableEq κ] in
theorem mem_ofWriter (t : τ) (log : List (τ × Update κ ν)) (u : Update κ ν) :
    u ∈ ofWriter t log ↔ (t,u) ∈ log := by
  simp [ofWriter]

theorem lookup_replay_ofWriter (m : Finmap fun _ : κ => ν) (log : List (τ × Update κ ν)) (t : τ)
    (k : κ) (others : ∀ e ∈ log, e.1 ≠ t → e.2.key ≠ k) :
    (replay m (log.map Prod.snd)).lookup k = (replay m (ofWriter t log)).lookup k := by
  induction log generalizing m with
  | nil => rfl
  | cons e log ih =>
    have later := ih (apply m e.2) fun x member => others x (List.mem_cons_of_mem e member)
    rw [List.map_cons,replay_cons,later]
    by_cases own : e.1 = t
    · simp [ofWriter,own]
    · have left : ofWriter t (e :: log) = ofWriter t log := by simp [ofWriter,own]
      have unnamed := others e List.mem_cons_self own
      rw [left]
      refine lookup_replay_congr _ _ _ k (.inl ?_)
      rw [lookup_apply,if_neg (Ne.symm unnamed)]

/-- Writers of different keys commute: two logs in which each writer has the same updates in
the same order replay to one map. -/
theorem replay_eq_of_writers (m : Finmap fun _ : κ => ν) (first second : List (τ × Update κ ν))
    (apart : ∀ e ∈ first, ∀ e' ∈ first, e.1 ≠ e'.1 → e.2.key ≠ e'.2.key)
    (same : ∀ t, ofWriter t first = ofWriter t second) :
    replay m (first.map Prod.snd) = replay m (second.map Prod.snd) := by
  have members (e : τ × Update κ ν) : e ∈ second ↔ e ∈ first := by
    rw [← mem_ofWriter e.1 second e.2,← same,mem_ofWriter]
  refine Finmap.ext_lookup fun k => ?_
  by_cases named : ∃ e ∈ first, e.2.key = k
  · obtain ⟨e,member,rfl⟩ := named
    have others (x : τ × Update κ ν) (inside : x ∈ first) (other : x.1 ≠ e.1) : x.2.key ≠ e.2.key :=
      apart x inside e member other
    rw [lookup_replay_ofWriter m first e.1 _ others,same,← lookup_replay_ofWriter m second e.1]
    exact fun x inside => others x ((members x).mp inside)
  · have untouched (log : List (τ × Update κ ν)) (part : ∀ e ∈ log, e ∈ first) :
        ∀ u ∈ log.map Prod.snd, u.key ≠ k := by
      intro u member key
      obtain ⟨e,inside,rfl⟩ := List.mem_map.mp member
      exact named ⟨e,part e inside,key⟩
    rw [lookup_replay_of_untouched m _ k (untouched first fun _ => id),
      lookup_replay_of_untouched m _ k (untouched second fun e => (members e).mp)]

/-- The writers' updates one writer after the other. -/
def inTurn (order : List τ) (updates : τ → List (Update κ ν)) : List (τ × Update κ ν) :=
  order.flatMap fun t => (updates t).map fun u => (t,u)

omit [DecidableEq κ] in
theorem ofWriter_inTurn_absent (order : List τ) (updates : τ → List (Update κ ν)) (t : τ)
    (absent : t ∉ order) : ofWriter t (inTurn order updates) = [] := by
  refine List.eq_nil_iff_forall_not_mem.mpr fun u member => ?_
  obtain ⟨w,inside,shape⟩ := List.mem_flatMap.mp ((mem_ofWriter t _ u).mp member)
  obtain ⟨v,-,same⟩ := List.mem_map.mp shape
  cases same
  exact absent inside

omit [DecidableEq κ] in
theorem ofWriter_inTurn (order : List τ) (updates : τ → List (Update κ ν)) (once : order.Nodup)
    (t : τ) (named : updates t ≠ [] → t ∈ order) : ofWriter t (inTurn order updates) = updates t := by
  induction order with
  | nil =>
    by_contra none
    exact absurd (named (Ne.symm none)) List.not_mem_nil
  | cons w order ih =>
    obtain ⟨fresh,once⟩ := List.nodup_cons.mp once
    have split : ofWriter t (inTurn (w :: order) updates) =
        ofWriter t ((updates w).map fun u => (w,u)) ++ ofWriter t (inTurn order updates) := by
      simp [ofWriter,inTurn]
    rw [split]
    by_cases own : w = t
    · subst own
      rw [ofWriter_inTurn_absent order updates w fresh]
      simp [ofWriter,List.filter_map,Function.comp_def]
    · rw [ih once fun some => (List.mem_cons.mp (named some)).resolve_left (Ne.symm own)]
      simp [ofWriter,List.filter_map,Function.comp_def,own]

end Writers

end Update

end KvCache
