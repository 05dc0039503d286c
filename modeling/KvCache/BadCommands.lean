import KvCache.ParserSoundness
import KvCache.ServerRefinement

/-! Commands that should be refused. The dispatcher answers an error where the type of the
command is `UNKNOWN`; the reader reports its errors in a command whose type is the first of
the enumeration, which is `SET`, and the dispatcher then reads arguments it does not have. -/
namespace KvCache

/-- The strings name no command, or do not hold the arguments of the one they name. -/
def badArray (tokens : List Bytes) : Bool :=
  (tokens.head?.bind commandNamed).isNone || tooFew tokens

theorem commandOf_array (tokens : List Bytes) (sendable : Sendable tokens) :
    (badArray tokens = true ∧ (commandOf tokens = .error .outOfBounds ∨
        ∃ error, commandOf tokens = .ok ⟨.SET,[],error⟩)) ∨
      (badArray tokens = false ∧ ∃ cmd, commandOf tokens = .ok cmd ∧ cmd.WellFormed) := by
  obtain ⟨name,args,rfl⟩ := List.exists_cons_of_ne_nil sendable.some
  have readable : ∀ arg ∈ args, Readable arg :=
    fun arg member => sendable.readable arg (List.mem_cons_of_mem name member)
  rw [commandOf_cons]
  cases named : commandNamed name with
  | none => exact .inl ⟨by simp [badArray,named],.inr ⟨_,rfl⟩⟩
  | some type =>
    have bad : badArray (name :: args) = tooFew (name :: args) := by simp [badArray,named]
    simp only [bad,tooFew,named,Option.bind_some]
    cases type with
    | SET =>
      obtain _ | ⟨key,_ | ⟨value,args⟩⟩ := args
      · exact .inl ⟨rfl,.inr ⟨_,rfl⟩⟩
      · exact .inl ⟨rfl,.inr ⟨_,rfl⟩⟩
      · exact .inr ⟨by simp [CommandType.arity],_,rfl,rfl,fun arg member =>
          readable arg ((List.prefix_append [key,value] args).subset member),rfl⟩
    | KEYS => exact .inr ⟨rfl,_,rfl,rfl,by simp,rfl⟩
    | UNKNOWN => exact absurd named (commandNamed_ne_unknown name)
    | GET | DEL | EXISTS =>
      obtain _ | ⟨key,args⟩ := args
      · exact .inl ⟨rfl,.inl rfl⟩
      · exact .inr ⟨by simp [CommandType.arity],_,rfl,rfl,fun arg member =>
          readable arg ((List.prefix_append [key] args).subset member),rfl⟩

namespace Session

theorem answer_badArray (env : Env) (tokens : List Bytes) (sendable : Sendable tokens)
    (bad : badArray tokens = true) (rest : Bytes) (store : PersistentKvStore) :
    ∃ s, answer env ⟨⟨respArray tokens ++ rest⟩,store⟩ = .error .outOfBounds s := by
  have parsed := RespReader.tryParse_array tokens sendable rest
  rcases commandOf_array tokens sendable with ⟨-,failed | ⟨error,built⟩⟩ | ⟨good,-⟩
  · rw [failed] at parsed
    exact ⟨_,by simp [answer,onReader,Act.zoom,parsed]; rfl⟩
  · rw [built] at parsed
    exact ⟨_,by simp [answer,onReader,onStore,Act.zoom,parsed,execute,stringAt]; rfl⟩
  · cases good.symm.trans bad

theorem answer_goodArray (env : Env) (tokens : List Bytes) (sendable : Sendable tokens)
    (good : badArray tokens = false) (rest : Bytes) (store : PersistentKvStore) :
    (∃ e s, answer env ⟨⟨respArray tokens ++ rest⟩,store⟩ = .error e s ∧
        ∀ map, Holds store map → ¬env.io.Succeeds) ∨
      ∃ reply store', answer env ⟨⟨respArray tokens ++ rest⟩,store⟩ = .ok (some reply) ⟨⟨rest⟩,store'⟩ ∧
        ∀ map, Holds store map → env.io.Succeeds → ∃ map', Holds store' map' := by
  rcases commandOf_array tokens sendable with ⟨bad,-⟩ | ⟨-,cmd,built,wellFormed⟩
  · cases good.symm.trans bad
  have parsed := RespReader.tryParse_array tokens sendable rest
  simp only [built] at parsed
  cases executed : execute env cmd store with
  | error e store' =>
    refine .inl ⟨e,⟨⟨rest⟩,store'⟩,?_,fun map holds succeeds => ?_⟩
    · simp [answer,onReader,onStore,Act.zoom,parsed,wellFormed.known,executed]
    · obtain ⟨_,ran,-⟩ := holds.execute env succeeds cmd wellFormed
      cases executed.symm.trans ran
  | ok response store' =>
    refine .inr ⟨_,store',answer_command env _ rest cmd response store store' wellFormed.known parsed
      executed,fun map holds succeeds => ?_⟩
    obtain ⟨_,ran,after⟩ := holds.execute env succeeds cmd wellFormed
    cases executed.symm.trans ran
    exact ⟨_,after⟩

/-- The loop never gets past a bad array. Where every system call succeeds it comes to the first
one, and there reads out of bounds. -/
theorem serve_badArray (arrays : List (List Bytes)) (sendable : ∀ tokens ∈ arrays, Sendable tokens)
    (bad : ∃ tokens ∈ arrays, badArray tokens = true) (fuel : Nat) (envs : Nat → Env)
    (result : Bytes) (store : PersistentKvStore) :
    ∃ e s, serve fuel envs result ⟨⟨arrays.flatMap respArray⟩,store⟩ = .error e s ∧
      ∀ map, Holds store map → (∀ i, (envs i).io.Succeeds) → arrays.length < fuel →
        e = .outOfBounds := by
  induction arrays generalizing fuel envs result store with
  | nil =>
    obtain ⟨tokens,member,-⟩ := bad
    cases member
  | cons tokens arrays ih =>
    have head := sendable tokens List.mem_cons_self
    have tail := fun t member => sendable t (List.mem_cons_of_mem tokens member)
    rw [List.flatMap_cons]
    cases fuel with
    | zero => exact ⟨_,_,rfl,fun _ _ _ enough => absurd enough (Nat.not_lt_zero _)⟩
    | succ fuel =>
      cases kind : badArray tokens with
      | true =>
        obtain ⟨s,stopped⟩ := answer_badArray (envs 0) tokens head kind (arrays.flatMap respArray) store
        exact ⟨.outOfBounds,s,by simp [serve,stopped],fun _ _ _ _ => rfl⟩
      | false =>
        have later : ∃ t ∈ arrays, badArray t = true := by simpa [kind] using bad
        rcases answer_goodArray (envs 0) tokens head kind (arrays.flatMap respArray) store
          with ⟨e,s,stopped,fails⟩ | ⟨reply,store',answered,keeps⟩
        · exact ⟨e,s,by simp [serve,stopped],
            fun map holds succeed _ => absurd (succeed 0) (fails map holds)⟩
        · obtain ⟨e,s,failed,cause⟩ := ih tail later fuel (fun i => envs (i + 1)) (result ++ reply) store'
          refine ⟨e,s,by simp [serve,answered,failed],fun map holds succeed enough => ?_⟩
          obtain ⟨map',after⟩ := keeps map holds (succeed 0)
          exact cause map' after (fun i => succeed (i + 1)) (by simpa using enough)

/-- A bad array is never answered. Whatever stands around it in the stream, the callback does
not return; where every file-system call succeeds, it is the array that stops it. -/
theorem bad_array_unanswered (arrays : List (List Bytes))
    (sendable : ∀ tokens ∈ arrays, Sendable tokens)
    (bad : ∃ tokens ∈ arrays, badArray tokens = true) (envs : Nat → Env)
    (store : PersistentKvStore) :
    (∀ fuel out s, onMessage fuel envs (arrays.flatMap respArray) ⟨.empty,store⟩ ≠ .ok out s) ∧
      ((∃ content, store.wal.Ready content) → (∀ i, (envs i).io.Succeeds) →
        ∀ fuel, arrays.length < fuel →
          ∃ s, onMessage fuel envs (arrays.flatMap respArray) ⟨.empty,store⟩ =
            .error .outOfBounds s) := by
  have fed : ∀ fuel, onMessage fuel envs (arrays.flatMap respArray) ⟨.empty,store⟩ =
      serve fuel envs [] ⟨⟨arrays.flatMap respArray⟩,store⟩ := by
    intro fuel
    simp [onMessage,onReader,Act.zoom,RespReader.feed,RespReader.empty]
  refine ⟨fun fuel out s returned => ?_,fun ready succeed fuel enough => ?_⟩
  · obtain ⟨e,s',failed,-⟩ := serve_badArray arrays sendable bad fuel envs [] store
    rw [fed,failed] at returned
    cases returned
  · obtain ⟨e,s',failed,cause⟩ := serve_badArray arrays sendable bad fuel envs [] store
    obtain rfl := cause _ ⟨ready,rfl⟩ succeed enough
    exact ⟨s',by rw [fed,failed]⟩

def strayName : List (List Bytes) := [[ascii "SET",ascii "a",ascii "7"],[ascii "FOO"],[ascii "KEYS"]]

theorem bad_array_unanswered_stray :
    ∃ s, onMessage 4 (fun _ => .faultless) (strayName.flatMap respArray) ⟨.empty,.opened⟩ =
      .error .outOfBounds s := by
  have sendable : ∀ tokens ∈ strayName, Sendable tokens := by
    simp only [strayName,List.forall_mem_cons]
    exact ⟨⟨by simp,by decide,by decide⟩,⟨by simp,by decide,by decide⟩,⟨by simp,by decide,by decide⟩,
      by simp⟩
  exact (bad_array_unanswered strayName sendable ⟨[ascii "FOO"],by simp [strayName],by decide⟩
    (fun _ => .faultless) .opened).2 ⟨[],rfl,rfl,rfl,rfl,rfl⟩ (fun _ => Io.faultless_succeeds) 4 (by decide)

theorem unknown_name_out_of_bounds :
    RespReader.tryParse ⟨ascii "*1\r\n$3\r\nFOO\r\n"⟩ = .ok (.OK ⟨.SET,[],.UNKNOWN_COMMAND⟩) ⟨[]⟩ ∧
      ∀ env, answer env ⟨⟨ascii "*1\r\n$3\r\nFOO\r\n"⟩,.opened⟩ = .error .outOfBounds ⟨⟨[]⟩,.opened⟩ := by
  have parsed : RespReader.tryParse ⟨ascii "*1\r\n$3\r\nFOO\r\n"⟩ =
      .ok (.OK ⟨.SET,[],.UNKNOWN_COMMAND⟩) ⟨[]⟩ :=
    ((RespReader.takeResult_some_iff ..).mp (by decide +kernel)).1
  refine ⟨parsed,fun env => ?_⟩
  simp [answer,onReader,onStore,Act.zoom,parsed,execute,stringAt]

end Session

end KvCache
