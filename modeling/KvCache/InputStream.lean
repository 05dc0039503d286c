import Mathlib.Data.List.TakeWhile

/-! Input from a string stream, with its end-of-file and fail bits. Every input function
constructs a sentry first: on a stream that is not good it only sets the fail bit, and leaves
the variable it was to fill as it was. -/
namespace KvCache

/-- A stream over a string: the characters that have not been extracted, and its bits. -/
structure InputStream (α : Type) where
  rest : List α
  eof : Bool
  fail : Bool
  deriving DecidableEq, Repr

namespace InputStream

variable {α : Type} (isSpace : α → Bool)

def ofList (text : List α) : InputStream α := ⟨text,false,false⟩

def good (s : InputStream α) : Bool := !s.eof && !s.fail

/-- The sentry of an input function, with or without skipping white space. -/
def sentry (skipws : Bool) (s : InputStream α) : Bool × InputStream α :=
  if s.good then
    if skipws then
      match s.rest.dropWhile isSpace with
      | [] => (false,⟨[],true,true⟩)
      | c :: rest => (true,{ s with rest := c :: rest })
    else (true,s)
  else (false,{ s with fail := true })

/-- `stream >> str`: the next word. -/
def extract (s : InputStream α) (str : List α) : List α × InputStream α :=
  match sentry isSpace true s with
  | (false,s) => (str,s)
  | (true,s) =>
    let word := s.rest.takeWhile fun c => !isSpace c
    let rest := s.rest.dropWhile fun c => !isSpace c
    (word,⟨rest,rest.isEmpty,word.isEmpty⟩)

/-- `stream >> ws`: white space is skipped; the end sets the end-of-file bit alone. -/
def ws (s : InputStream α) : InputStream α :=
  match sentry isSpace false s with
  | (false,s) => s
  | (true,s) =>
    let rest := s.rest.dropWhile isSpace
    { s with rest := rest, eof := rest.isEmpty }

/-- `getline(stream,str)`: up to the delimiter, which is extracted and not stored. -/
def getline [DecidableEq α] (delimiter : α) (s : InputStream α) (str : List α) : List α × InputStream α :=
  match sentry isSpace false s with
  | (false,s) => (str,s)
  | (true,s) =>
    let line := s.rest.takeWhile fun c => decide (c ≠ delimiter)
    match s.rest.dropWhile fun c => decide (c ≠ delimiter) with
    | [] => (line,⟨[],true,line.isEmpty⟩)
    | _ :: rest => (line,⟨rest,false,false⟩)

def word (text : List α) : List α := (text.dropWhile isSpace).takeWhile fun c => !isSpace c

def behindWord (text : List α) : List α := (text.dropWhile isSpace).dropWhile fun c => !isSpace c

/-- A stream that has not failed, and that stands at the end when its end-of-file bit is set. -/
structure Sound (s : InputStream α) : Prop where
  fresh : s.fail = false
  ended : s.eof = true → s.rest = []

theorem ofList_sound (text : List α) : (ofList text).Sound := ⟨rfl,fun never => by cases never⟩

theorem sound_at (text : List α) : Sound ⟨text,text.isEmpty,false⟩ :=
  ⟨rfl,List.isEmpty_iff.mp⟩

theorem dropWhile_head (text : List α) (c : α) (rest : List α)
    (left : text.dropWhile isSpace = c :: rest) : isSpace c = false := by
  have head := List.head_dropWhile_not isSpace (l := text) (by simp [left])
  simpa [left] using head

theorem word_eq_nil_iff (text : List α) : word isSpace text = [] ↔ ∀ c ∈ text, isSpace c = true := by
  rw [word,← List.dropWhile_eq_nil_iff]
  cases left : text.dropWhile isSpace with
  | nil => simp
  | cons c rest => simp [dropWhile_head isSpace text c rest left]

/-- Extraction. A sound stream gives its next word, and nothing where there is none; with
a word it stays sound, behind the word. -/
theorem extract_word (s : InputStream α) (sound : s.Sound) :
    (extract isSpace s []).1 = word isSpace s.rest ∧
      (word isSpace s.rest ≠ [] → (extract isSpace s []).2 =
        ⟨behindWord isSpace s.rest,(behindWord isSpace s.rest).isEmpty,false⟩) := by
  obtain ⟨rest,eof,fail⟩ := s
  obtain ⟨rfl,ended⟩ := sound
  cases eof with
  | true =>
    obtain rfl := ended rfl
    simp [extract,sentry,good,word]
  | false =>
    cases left : rest.dropWhile isSpace with
    | nil => simp [extract,sentry,good,word,left]
    | cons c more =>
      have first := dropWhile_head isSpace rest c more left
      simp [extract,sentry,good,word,behindWord,left,first]

/-- The rest of the line. Behind white space, a text without the delimiter is read to its
end; nothing is read, and nothing is stored, where there is no more. -/
theorem getline_rest [DecidableEq α] (delimiter : α) (text : List α) (oneLine : delimiter ∉ text) :
    (getline isSpace delimiter (ws isSpace ⟨text,text.isEmpty,false⟩) []).1 =
      text.dropWhile isSpace := by
  cases text with
  | nil => simp [getline,ws,sentry,good]
  | cons c text =>
    have skipped : ws isSpace ⟨c :: text,(c :: text).isEmpty,false⟩ =
        ⟨(c :: text).dropWhile isSpace,((c :: text).dropWhile isSpace).isEmpty,false⟩ := by
      simp [ws,sentry,good]
    rw [skipped]
    cases left : (c :: text).dropWhile isSpace with
    | nil => simp [getline,sentry,good]
    | cons d rest =>
      have inside : ∀ x ∈ d :: rest, x ≠ delimiter := by
        rintro x member rfl
        exact oneLine ((List.dropWhile_sublist isSpace).mem (left ▸ member))
      have whole : (d :: rest).takeWhile (fun x => decide (x ≠ delimiter)) = d :: rest :=
        List.takeWhile_eq_self_iff.mpr fun x member => decide_eq_true (inside x member)
      have nothing : (d :: rest).dropWhile (fun x => decide (x ≠ delimiter)) = [] :=
        List.dropWhile_eq_nil_iff.mpr fun x member => decide_eq_true (inside x member)
      simp only [getline,sentry,good,List.isEmpty_cons,Bool.not_false,Bool.and_self,↓reduceIte,
        Bool.false_eq_true,nothing,whole]

theorem sentry_rest (skipws : Bool) (s : InputStream α) :
    (sentry isSpace skipws s).2.rest.Sublist s.rest := by
  unfold sentry
  split
  · split
    · split
      · exact List.nil_sublist _
      next left =>
        rw [← left]
        exact List.dropWhile_sublist _
    · exact List.Sublist.refl _
  · exact List.Sublist.refl _

theorem extract_sublist (s : InputStream α) :
    (extract isSpace s []).1.Sublist s.rest ∧ (extract isSpace s []).2.rest.Sublist s.rest := by
  have kept := sentry_rest isSpace true s
  unfold extract
  split
  next entered =>
    rw [entered] at kept
    exact ⟨List.nil_sublist _,kept⟩
  next entered =>
    rw [entered] at kept
    exact ⟨(List.takeWhile_sublist _).trans kept,(List.dropWhile_sublist _).trans kept⟩

theorem ws_sublist (s : InputStream α) : (ws isSpace s).rest.Sublist s.rest := by
  have kept := sentry_rest isSpace false s
  unfold ws
  split
  next entered =>
    rw [entered] at kept
    exact kept
  next entered =>
    rw [entered] at kept
    exact (List.dropWhile_sublist _).trans kept

theorem getline_sublist [DecidableEq α] (delimiter : α) (s : InputStream α) :
    (getline isSpace delimiter s []).1.Sublist s.rest := by
  have kept := sentry_rest isSpace false s
  unfold getline
  split
  · exact List.nil_sublist _
  next entered =>
    rw [entered] at kept
    split <;> exact (List.takeWhile_sublist _).trans kept

section Lines

variable [DecidableEq α] {delimiter : α}

theorem split_at (front rest : List α) (none : delimiter ∉ front) :
    (front ++ delimiter :: rest).takeWhile (fun c => decide (c ≠ delimiter)) = front ∧
      (front ++ delimiter :: rest).dropWhile (fun c => decide (c ≠ delimiter)) = delimiter :: rest := by
  have inside : ∀ c ∈ front, decide (c ≠ delimiter) = true := by
    intro c member
    apply decide_eq_true
    rintro rfl
    exact none member
  rw [List.takeWhile_append_of_pos inside,List.dropWhile_append_of_pos inside]
  simp

/-- `while (std::getline(file, line))`. -/
def readLines (delimiter : α) : Nat → InputStream α → List (List α)
  | 0, _ => []
  | fuel + 1, file =>
    let (line,file) := getline isSpace delimiter file []
    if file.fail then [] else line :: readLines delimiter fuel file

theorem getline_line (line rest : List α) (oneLine : delimiter ∉ line) :
    getline isSpace delimiter (.ofList (line ++ delimiter :: rest)) [] = (line,.ofList rest) := by
  have split := split_at line rest oneLine
  simp only [getline,sentry,good,ofList,Bool.not_false,Bool.and_self,if_true,split.1,split.2,
    Bool.false_eq_true,if_false]

theorem readLines_line (fuel : Nat) (line rest : List α) (oneLine : delimiter ∉ line) :
    readLines isSpace delimiter (fuel + 1) (.ofList (line ++ delimiter :: rest)) =
      line :: readLines isSpace delimiter fuel (.ofList rest) := by
  simp only [readLines,getline_line isSpace line rest oneLine]
  rfl

theorem readLines_nil (fuel : Nat) : readLines isSpace delimiter fuel (.ofList []) = [] := by
  cases fuel with
  | zero => rfl
  | succ fuel => simp [readLines,getline,sentry,good,ofList]

theorem readLines_last (fuel : Nat) (line : List α) (oneLine : delimiter ∉ line) (filled : line ≠ []) :
    readLines isSpace delimiter (fuel + 1) (.ofList line) = [line] := by
  have inside : ∀ c ∈ line, decide (c ≠ delimiter) = true := by
    intro c member
    apply decide_eq_true
    rintro rfl
    exact oneLine member
  have ended : readLines isSpace delimiter fuel ⟨[],true,false⟩ = [] := by
    cases fuel with
    | zero => rfl
    | succ fuel => simp [readLines,getline,sentry,good]
  simp only [readLines,getline,sentry,good,ofList,Bool.not_false,Bool.and_self,if_true,
    List.takeWhile_eq_self_iff.mpr inside,List.dropWhile_eq_nil_iff.mpr inside,
    List.isEmpty_eq_false_iff.mpr filled,Bool.false_eq_true,if_false,ended]

theorem readLines_enough (fuel more : Nat) (text : List α) (enough : text.length < fuel) :
    readLines isSpace delimiter (fuel + more) (.ofList text) =
      readLines isSpace delimiter fuel (.ofList text) := by
  induction fuel generalizing text with
  | zero => cases enough
  | succ fuel ih =>
    rw [Nat.add_right_comm]
    by_cases ended : delimiter ∈ text
    · obtain ⟨line,rest,rfl,oneLine⟩ := List.eq_append_cons_of_mem ended
      rw [readLines_line _ _ _ _ oneLine,readLines_line _ _ _ _ oneLine,ih rest]
      simp only [List.length_append,List.length_cons] at enough
      omega
    · by_cases filled : text = []
      · rw [filled,readLines_nil,readLines_nil]
      · rw [readLines_last isSpace _ text ended filled,readLines_last isSpace _ text ended filled]

def allLines (delimiter : α) (text : List α) : List (List α) :=
  readLines isSpace delimiter (text.length + 1) (.ofList text)

theorem allLines_line (line rest : List α) (oneLine : delimiter ∉ line) :
    allLines isSpace delimiter (line ++ delimiter :: rest) =
      line :: allLines isSpace delimiter rest := by
  rw [allLines,readLines_line _ _ _ _ oneLine]
  have length : (line ++ delimiter :: rest).length = rest.length + 1 + line.length := by
    simp only [List.length_append,List.length_cons]
    omega
  rw [length,readLines_enough isSpace _ _ rest (Nat.lt_succ_self _),allLines]

theorem allLines_written (lines : List (List α)) (oneLine : ∀ line ∈ lines, delimiter ∉ line) :
    allLines isSpace delimiter (lines.flatMap fun line => line ++ [delimiter]) = lines := by
  induction lines with
  | nil => exact readLines_nil isSpace _
  | cons line lines ih =>
    obtain ⟨own,others⟩ := List.forall_mem_cons.mp oneLine
    rw [List.flatMap_cons,List.append_assoc,List.singleton_append,allLines_line _ _ _ own,ih others]

theorem readLines_oneLine (fuel : Nat) (file : InputStream α) :
    ∀ line ∈ readLines isSpace delimiter fuel file, delimiter ∉ line := by
  induction fuel generalizing file with
  | zero => simp [readLines]
  | succ fuel ih =>
    intro line member
    simp only [readLines] at member
    split at member
    · cases member
    obtain rfl | later := List.mem_cons.mp member
    · unfold getline
      split
      · exact List.not_mem_nil
      · split
        all_goals
          intro inside
          simpa using List.mem_takeWhile_imp inside
    · exact ih _ line later

end Lines

end InputStream

end KvCache
