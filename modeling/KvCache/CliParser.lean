import KvCache.Protocol
import KvCache.InputStream

/-! The command line of the client. A line is taken apart by one string stream, whose bits
decide what each later read does: a word, skipped white space, or the rest of the line. -/
namespace KvCache

namespace CliParser

open InputStream (extract ws getline word behindWord)

def oneKey (type : CommandType) (iss : InputStream Byte) : Command :=
  let (key,_) := extract isSpace iss []
  if key.isEmpty then ⟨.UNKNOWN,[],.WRONG_ARG_COUNT⟩ else ⟨type,[key],.NONE⟩

def parse (line : Bytes) : Option Command :=
  let (token,iss) := extract isSpace (.ofList line) []
  if token.isEmpty then none
  else
    let upper := toUpper token
    if upper = ascii "SET" then
      let (key,iss) := extract isSpace iss []
      if key.isEmpty then some ⟨.UNKNOWN,[],.WRONG_ARG_COUNT⟩
      else
        let (value,_) := getline isSpace 10#8 (ws isSpace iss) []
        some ⟨.SET,[key,value],.NONE⟩
    else if upper = ascii "GET" then some (oneKey .GET iss)
    else if upper = ascii "DEL" then some (oneKey .DEL iss)
    else if upper = ascii "EXISTS" then some (oneKey .EXISTS iss)
    else if upper = ascii "KEYS" then some ⟨.KEYS,[],.NONE⟩
    else some ⟨.UNKNOWN,[],.UNKNOWN_COMMAND⟩

/-- The command that the words of a line stand for: its name in any case, its first argument
and, behind the blanks, whatever follows that. -/
def grammar (line : Bytes) : Option Command :=
  let name := toUpper (word isSpace line)
  let key := word isSpace (behindWord isSpace line)
  let value := (behindWord isSpace (behindWord isSpace line)).dropWhile isSpace
  if ∀ c ∈ line, isSpace c = true then none
  else if name ∈ [ascii "SET",ascii "GET",ascii "DEL",ascii "EXISTS"] ∧ key = [] then
    some ⟨.UNKNOWN,[],.WRONG_ARG_COUNT⟩
  else if name = ascii "SET" then some ⟨.SET,[key,value],.NONE⟩
  else if name = ascii "GET" then some ⟨.GET,[key],.NONE⟩
  else if name = ascii "DEL" then some ⟨.DEL,[key],.NONE⟩
  else if name = ascii "EXISTS" then some ⟨.EXISTS,[key],.NONE⟩
  else if name = ascii "KEYS" then some ⟨.KEYS,[],.NONE⟩
  else some ⟨.UNKNOWN,[],.UNKNOWN_COMMAND⟩

theorem oneKey_eq (type : CommandType) (rest : Bytes) :
    oneKey type ⟨rest,rest.isEmpty,false⟩ =
      if word isSpace rest = [] then ⟨.UNKNOWN,[],.WRONG_ARG_COUNT⟩
      else ⟨type,[word isSpace rest],.NONE⟩ := by
  have found := (InputStream.extract_word isSpace _ (InputStream.sound_at rest)).1
  simp only [oneKey,found,List.isEmpty_iff]

theorem set_words (rest : Bytes) (oneLine : 10#8 ∉ rest) (key : word isSpace rest ≠ []) :
    ∃ iss, extract isSpace ⟨rest,rest.isEmpty,false⟩ [] = (word isSpace rest,iss) ∧
      (getline isSpace 10#8 (ws isSpace iss) []).1 = (behindWord isSpace rest).dropWhile isSpace := by
  obtain ⟨found,left⟩ := InputStream.extract_word isSpace _ (InputStream.sound_at rest)
  refine ⟨_,Prod.ext found (left key),InputStream.getline_rest isSpace 10#8 _ fun member => ?_⟩
  exact oneLine ((List.dropWhile_sublist _).mem ((List.dropWhile_sublist _).mem member))

/-- The grammar of a line. -/
theorem parse_eq_grammar (line : Bytes) (oneLine : 10#8 ∉ line) : parse line = grammar line := by
  have blank := InputStream.word_eq_nil_iff isSpace line
  obtain ⟨token,left⟩ := InputStream.extract_word isSpace _ (InputStream.ofList_sound line)
  by_cases empty : word isSpace line = []
  · have nothing : (extract isSpace (.ofList line) []).1 = [] := token.trans empty
    rw [grammar,if_pos (blank.mp empty)]
    simp [parse,nothing]
  have first : extract isSpace (.ofList line) [] = (word isSpace line,⟨behindWord isSpace line,
      (behindWord isSpace line).isEmpty,false⟩) := Prod.ext token (left empty)
  have behind : 10#8 ∉ behindWord isSpace line := fun member =>
    oneLine ((List.dropWhile_sublist _).mem ((List.dropWhile_sublist _).mem member))
  rw [grammar,if_neg (mt blank.mpr empty),parse,first]
  simp only [oneKey_eq,List.isEmpty_iff,empty,↓reduceIte]
  generalize toUpper (word isSpace line) = name
  by_cases isSet : name = ascii "SET"
  · subst isSet
    by_cases key : word isSpace (behindWord isSpace line) = []
    · have none := (InputStream.extract_word isSpace _
        (InputStream.sound_at (behindWord isSpace line))).1
      simp [none,key]
    · obtain ⟨iss,second,value⟩ := set_words _ behind key
      simp [second,key,value]
  · by_cases key : word isSpace (behindWord isSpace line) = []
    · -- without a key the three queries stand for the same error
      by_cases query : name = ascii "GET" ∨ name = ascii "DEL" ∨ name = ascii "EXISTS"
      · rcases query with rfl | rfl | rfl <;> simp [key,isSet]
      · obtain ⟨get,del,ex⟩ : name ≠ ascii "GET" ∧ name ≠ ascii "DEL" ∧ name ≠ ascii "EXISTS" := by
          simpa only [not_or] using query
        simp [isSet,get,del,ex]
    · simp [key,isSet]

/-- Blanks inside and behind the value are kept. -/
theorem parse_eq_grammar_blanks :
    parse (ascii "  set k\t a  b ") = some ⟨.SET,[ascii "k",ascii "a  b "],.NONE⟩ :=
  (parse_eq_grammar (ascii "  set k\t a  b ") (by decide)).trans (by decide)

end CliParser

end KvCache
