import KvCache.ParserReads
import KvCache.KvServer
import KvCache.Incremental

/-! Whether the reader gets on. A negative length can send the read position back, even to the
front of the buffer, and the callback's loop then finds the same bytes for ever; where no length
does, each call leaves fewer bytes and the loop ends. -/
namespace KvCache

/-- The values of the read position after `pos` while a loop over `count` strings reads them:
behind each length line, and behind each string. -/
def moves (buf : Bytes) : Nat → Nat → List Nat
  | 0, _ => []
  | count + 1, pos =>
    match lengthLine buf pos with
    | none => []
    | some (_,start) =>
      start :: match readBulkString buf pos with
        | .ok (some (_,next)) => next :: moves buf count next
        | _ => []

def positions (buf : Bytes) : List Nat :=
  0 :: match countLine buf with
    | none => []
    | some (text,start) =>
      start :: match stoi text with
        | .error _ => []
        | .ok count => moves buf count.toNat start

/-- The length does not lead back: it is at least -2, or so small that the sum wraps and the
string is taken to be missing. -/
def leadsForward (line : Bytes × Nat) : Bool :=
  match stoi line.1 with
  | .error _ => true
  | .ok len => decide (-2 ≤ len) || decide (line.2 + len + 2 < 0)

/-- No length that `TryParse` comes to leads back. -/
def Forward (buf : Bytes) : Prop := ∀ line ∈ lengthsReached buf, leadsForward line = true

instance (buf : Bytes) : Decidable (Forward buf) := inferInstanceAs (Decidable (∀ _ ∈ _, _))

section

variable {buf : Bytes} (storable : Storable buf)
include storable

theorem next_forward_iff (pos : Nat) (text : Bytes) (start : Nat) (token : Bytes) (next : Nat)
    (line : lengthLine buf pos = some (text,start))
    (read : readBulkString buf pos = .ok (some (token,next))) :
    start ≤ next ↔ leadsForward (text,start) = true := by
  obtain ⟨text,start,len,same,number,after⟩ := (readBulkString_some_iff buf storable ..).mp read
  cases line.symm.trans same
  obtain ⟨-,low,-,-,-,rfl⟩ := (afterLength_some_iff ..).mp after
  simp only [leadsForward,number,Bool.or_eq_true,decide_eq_true_eq]
  omega

theorem forward_of_missing (pos : Nat) (text : Bytes) (start : Nat)
    (line : lengthLine buf pos = some (text,start))
    (missing : ∀ token next, readBulkString buf pos ≠ .ok (some (token,next))) :
    leadsForward (text,start) = true := by
  obtain ⟨-,-,inside⟩ := lengthLine_split buf pos text start line
  unfold leadsForward
  split
  next => rfl
  next len number =>
    by_contra back
    simp only [Bool.or_eq_true,decide_eq_true_eq,not_or] at back
    refine missing _ _ ((readBulkString_some_iff buf storable pos _ _).mpr
      ⟨text,start,len,line,number,(afterLength_some_iff ..).mpr ⟨?_,?_,?_,?_,rfl,rfl⟩⟩) <;> omega

theorem moves_chain_iff (count pos : Nat) :
    (pos :: moves buf count pos).IsChain (· ≤ ·) ↔
      ∀ line ∈ lengthLines buf count pos, leadsForward line = true := by
  induction count generalizing pos with
  | zero => simp [moves,lengthLines]
  | succ count ih =>
    cases line : lengthLine buf pos with
    | none =>
      have none : readBulkString buf pos = .ok none := by rw [readBulkString_eq buf storable,line]
      simp [moves,lengthLines,line,none]
    | some found =>
      obtain ⟨text,start⟩ := found
      obtain ⟨-,behind,-⟩ := lengthLine_split buf pos text start line
      have first : pos ≤ start := by omega
      rcases read : readBulkString buf pos with e | _ | ⟨token,next⟩
      · have forward := forward_of_missing storable pos text start line (by simp [read])
        simp [moves,lengthLines,line,read,first,forward]
      · have forward := forward_of_missing storable pos text start line (by simp [read])
        simp [moves,lengthLines,line,read,first,forward]
      · have step := next_forward_iff storable pos text start token next line read
        have later := ih next
        simp only [moves,lengthLines,line,read,Option.toList_some,List.singleton_append,
          List.forall_mem_cons,List.isChain_cons_cons,first,true_and,step,later]

theorem positions_chain_iff : (positions buf).IsChain (· ≤ ·) ↔ Forward buf := by
  unfold positions Forward lengthsReached
  rcases countLine buf with _ | ⟨text,start⟩
  · simp
  · cases number : stoi text with
    | error e => simp [number]
    | ok count => simpa [number] using moves_chain_iff storable count.toNat start

theorem readTokens_forward (count pos : Nat) (tokens : List Bytes) (last : Nat)
    (forward : ∀ line ∈ lengthLines buf count pos, leadsForward line = true)
    (read : readTokens buf count pos = .ok (some (tokens,last))) : pos ≤ last := by
  induction count generalizing pos tokens with
  | zero => cases read; exact Nat.le_refl _
  | succ count ih =>
    obtain ⟨token,next,rest,string,later,rfl⟩ := (readTokens_some_iff buf count pos tokens last).mp read
    obtain ⟨text,start,len,line,-⟩ := (readBulkString_some_iff buf storable ..).mp string
    simp only [lengthLines,line,string,Option.toList_some,List.singleton_append,
      List.forall_mem_cons] at forward
    obtain ⟨-,behind,-⟩ := lengthLine_split buf pos text start line
    have step := (next_forward_iff storable pos text start token next line string).mpr forward.1
    have end_ := ih next rest forward.2 later
    omega

theorem tryParse_shorter (forward : Forward buf) (result : ParseResult) (reader : RespReader)
    (run : RespReader.tryParse ⟨buf⟩ = .ok result reader) (goes : result ≠ .PARTIAL) :
    reader.buf.length < buf.length := by
  have ends := RespReader.outcome buf
  rw [run] at ends
  cases ends with
  | noLine => exact absurd rfl goes
  | noString => exact absurd rfl goes
  | noArray line pos found =>
    obtain ⟨-,behind,inside⟩ := readLine_split buf 0 line pos found
    simp only [List.length_drop]
    omega
  | notPositive text start count found =>
    obtain ⟨-,behind,inside⟩ := countLine_split buf text start found
    simp only [List.length_drop]
    omega
  | command tokens pos cmd read =>
    obtain ⟨text,start,count,found,number,-,strings⟩ := (tokensOf_some_iff ..).mp read
    obtain ⟨-,behind,inside⟩ := countLine_split buf text start found
    simp only [Forward,lengthsReached,found,number] at forward
    have ahead := readTokens_forward storable count.toNat start tokens pos forward strings
    simp only [List.length_drop]
    omega

end

theorem tryParse_failsWith : Act.FailsWith (· ≠ .outOfFuel) RespReader.tryParse := by
  rintro ⟨buf⟩ e reader ran
  have ends := RespReader.outcome buf
  rw [ran] at ends
  have reading (e : Fault) (number : e.ofReading) : e ≠ .outOfFuel := by
    rcases number with rfl | rfl | rfl <;> simp
  cases ends with
  | badCount text start e found refused => exact reading e (stoi_error text e refused)
  | badString text start count e found number positive failed =>
    exact reading e (readTokens_error buf _ _ e failed)
  | badCommand tokens pos e read failed => simp [commandOf_error tokens e failed]

theorem execute_failsWith (env : Env) (cmd : Command) :
    Act.FailsWith (fun e => e.isRuntimeError ∨ e = .outOfBounds) (execute env cmd) := by
  have arg (i : Nat) : Act.FailsWith (fun e => e.isRuntimeError ∨ e = .outOfBounds)
      (ofExcept (stringAt cmd.args i) : Act PersistentKvStore Bytes) := by
    refine Act.failsWith_ofExcept _ fun e failed => ?_
    unfold stringAt at failed
    split at failed <;> cases failed
    exact .inr rfl
  unfold execute
  split
  · refine Act.failsWith_bind (arg 0) fun key => Act.failsWith_bind (arg 1) fun value => ?_
    exact Act.failsWith_bind (Act.failsWith_mono (PersistentKvStore.set_failsWith env key value)
      fun e => .inl) fun _ => Act.failsWith_pure _
  · refine Act.failsWith_bind (arg 0) fun key => Act.failsWith_bind Act.failsWith_get fun s => ?_
    split <;> exact Act.failsWith_pure _
  · refine Act.failsWith_bind (arg 0) fun key => ?_
    exact Act.failsWith_bind (Act.failsWith_mono (PersistentKvStore.delete_failsWith env key)
      fun e => .inl) fun _ => Act.failsWith_pure _
  · refine Act.failsWith_bind (arg 0) fun key => Act.failsWith_bind Act.failsWith_get fun s => ?_
    exact Act.failsWith_ite _ (Act.failsWith_pure _) (Act.failsWith_pure _)
  · exact Act.failsWith_bind Act.failsWith_get fun s => Act.failsWith_pure _
  · exact Act.failsWith_pure _

namespace Session

theorem answer_failsWith (env : Env) : Act.FailsWith (· ≠ .outOfFuel) (answer env) := by
  refine Act.failsWith_bind (Act.failsWith_zoom _ _ tryParse_failsWith) fun result => ?_
  split
  · exact Act.failsWith_pure _
  · exact Act.failsWith_pure _
  next cmd =>
    refine Act.failsWith_ite _ (Act.failsWith_ite _ (Act.failsWith_pure _) (Act.failsWith_pure _)) ?_
    refine Act.failsWith_bind (Act.failsWith_zoom _ _ ?_) fun _ => Act.failsWith_pure _
    refine Act.failsWith_mono (execute_failsWith env cmd) fun e among same => ?_
    subst same
    rcases among with store | bounds
    · cases store
    · cases bounds

theorem answer_takes (env : Env) (s s' : Session) (reply : Bytes)
    (ran : answer env s = .ok (some reply) s') :
    ∃ result, RespReader.takeResult s.reader.buf = some (result,s'.reader.buf) := by
  obtain ⟨⟨buf⟩,store⟩ := s
  cases run : RespReader.tryParse ⟨buf⟩ with
  | error e reader => simp [answer,onReader,Act.zoom,run] at ran
  | ok result reader =>
    have taken (goes : result ≠ .PARTIAL) :
        RespReader.takeResult buf = some (result,reader.buf) :=
      (RespReader.takeResult_some_iff ..).mpr ⟨run,goes⟩
    cases result with
    | PARTIAL => simp [answer,onReader,Act.zoom,run] at ran
    | PROTOCOL_ERROR =>
      simp only [answer,onReader,Act.zoom,run,Act.bind_apply,Act.pure_apply] at ran
      cases ran
      exact ⟨_,taken (by simp)⟩
    | OK cmd =>
      refine ⟨.OK cmd,?_⟩
      rw [taken (by simp)]
      simp only [answer,onReader,Act.zoom,run,Act.bind_apply] at ran
      split at ran
      · split at ran <;> cases ran <;> rfl
      · simp only [onStore,Act.zoom,Act.bind_apply] at ran
        cases executed : execute env cmd store with
        | error e store' => simp [executed] at ran
        | ok response store' =>
          simp only [executed,Act.pure_apply] at ran
          cases ran
          rfl

/-- The loop makes at most one pass for each byte in the buffer. -/
theorem serve_ends (fuel : Nat) (envs : Nat → Env) (result : Bytes) (s s' : Session) (e : Fault)
    (storable : Storable s.reader.buf) (calls : Nat) (enough : s.reader.buf.length < fuel)
    (counted : s.reader.buf.length < calls)
    (forward : ∀ b ∈ Incremental.tried RespReader.takeResult calls s.reader.buf, Forward b)
    (failed : serve fuel envs result s = .error e s') : e ≠ .outOfFuel := by
  induction fuel generalizing envs result s calls with
  | zero => cases enough
  | succ fuel ih =>
    obtain ⟨calls,rfl⟩ := Nat.exists_eq_add_one_of_ne_zero (Nat.ne_of_gt (Nat.zero_lt_of_lt counted))
    rw [serve,Act.bind_apply] at failed
    split at failed
    next reply m ran =>
      split at failed
      · cases failed
      next reply =>
        obtain ⟨taken,found⟩ := answer_takes (envs 0) s m reply ran
        obtain ⟨parsed,goes⟩ := (RespReader.takeResult_some_iff ..).mp found
        simp only [Incremental.tried,found,List.forall_mem_cons] at forward
        have shorter := tryParse_shorter storable forward.1 taken _ parsed goes
        have room : m.reader.buf.length < 2 ^ 63 := Nat.lt_trans shorter storable
        exact ih _ _ m room calls (by simp only at shorter; omega) (by simp only at shorter; omega)
          forward.2 failed
    next e' m ran =>
      cases failed
      exact answer_failsWith (envs 0) s e s' ran

/-- Progress. The read position never moves back exactly where no length leads back; there
a call that does not wait leaves fewer bytes, and the loop of the callback ends once that holds
in each of its passes. -/
theorem progress_where_forward (buf : Bytes) (storable : Storable buf) :
    ((positions buf).IsChain (· ≤ ·) ↔ Forward buf) ∧
      (Forward buf → ∀ result reader, RespReader.tryParse ⟨buf⟩ = .ok result reader →
        result ≠ .PARTIAL → reader.buf.length < buf.length) ∧
      ((∀ b ∈ Incremental.tried RespReader.takeResult (buf.length + 1) buf, Forward b) →
        ∀ fuel envs result store e s', buf.length < fuel →
          serve fuel envs result ⟨⟨buf⟩,store⟩ = .error e s' → e ≠ .outOfFuel) := by
  refine ⟨positions_chain_iff storable,tryParse_shorter storable,?_⟩
  intro forward fuel envs result store e s' enough failed
  exact serve_ends fuel envs result ⟨⟨buf⟩,store⟩ s' e storable (buf.length + 1) enough
    (Nat.lt_succ_self _) forward failed

/-- A command between two refused lines, and a length of -2 with the rest of the buffer for
its string. -/
def mixedLines : Bytes := ascii "x\r\n*1\r\n$4\r\nKEYS\r\n*0\r\n*1\r\n$-2\r\nKEYS"

theorem progress_where_forward_mixed :
    (positions mixedLines).IsChain (· ≤ ·) ∧
      ∀ envs result store e s', serve 100 envs result ⟨⟨mixedLines⟩,store⟩ = .error e s' →
        e ≠ .outOfFuel := by
  obtain ⟨chain,-,ends⟩ := progress_where_forward mixedLines (by decide)
  exact ⟨chain.mpr (by decide +kernel),fun envs result store e s' =>
    ends (by decide +kernel) 100 envs result store e s' (by decide)⟩

/-- A length of -12 leads back to the front of the buffer. -/
def spinning : Bytes := ascii "*1\r\n$-12\r\nKEYS"

/-- The call returns a command and keeps every byte, so the loop never ends. -/
theorem negative_length_spins :
    RespReader.tryParse ⟨spinning⟩ = .ok (.OK ⟨.KEYS,[],.NONE⟩) ⟨spinning⟩ ∧
      ∀ fuel envs result store,
        serve fuel envs result ⟨⟨spinning⟩,store⟩ = .error .outOfFuel ⟨⟨spinning⟩,store⟩ := by
  have parsed : RespReader.tryParse ⟨spinning⟩ = .ok (.OK ⟨.KEYS,[],.NONE⟩) ⟨spinning⟩ :=
    ((RespReader.takeResult_some_iff ..).mp (by decide +kernel)).1
  refine ⟨parsed,fun fuel => ?_⟩
  induction fuel with
  | zero => intro envs result store; rfl
  | succ fuel ih =>
    intro envs result store
    have pass := answer_command (envs 0) spinning spinning ⟨.KEYS,[],.NONE⟩ _ store store (by simp)
      parsed rfl
    simp [serve,pass,ih]

end Session

end KvCache
