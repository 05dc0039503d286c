import KvCache.Decimal
import KvCache.InputStream
import Mathlib.Data.List.DropRight

/-! The server's configuration: the file it is loaded from and saved to, and the command line that
overrides it. -/
namespace KvCache

structure ServerConfig where
  port : BitVec 16
  dataDir : Bytes
  logLevel : Bytes
  logDir : Bytes
  logMaxFiles : BitVec 64
  logMaxSizeMb : BitVec 64
  deriving DecidableEq, Repr

namespace ServerConfig

def default : ServerConfig := ⟨6379#16,ascii "./data",ascii "info",ascii "logs",5#64,5#64⟩

def isBlank (b : Byte) : Bool := b == 32#8 || b == 9#8 || b == 13#8 || b == 10#8

def trim (s : Bytes) : Bytes := (s.dropWhile isBlank).rdropWhile isBlank

/-- `tolower` in the C locale. -/
def lower (b : Byte) : Byte := if 65 ≤ b.toNat ∧ b.toNat ≤ 90 then b + 32#8 else b

def toLower (s : Bytes) : Bytes := s.map lower

/-- `std::stoul`: a minus sign negates within the type. -/
def stoul (text : Bytes) : Except Fault (BitVec 64) :=
  let (negative,digits) := signedDigits text
  if digits.isEmpty then .error .invalidArgument
  else if 2 ^ 64 ≤ digitsValue digits then .error .outOfRange
  else .ok (if negative then -BitVec.ofNat 64 (digitsValue digits)
    else BitVec.ofNat 64 (digitsValue digits))

def lines (text : Bytes) : List Bytes := InputStream.allLines isSpace 10#8 text

/-- The key and the value of a line, unless it is empty, a comment or without `=`. -/
def setting? (line : Bytes) : Option (Bytes × Bytes) :=
  let line := trim line
  if line.isEmpty || line.head? == some 35#8 then none
  else
    match line.dropWhile fun b => decide (b ≠ 61#8) with
    | [] => none
    | _ :: value => some (toLower (trim (line.takeWhile fun b => decide (b ≠ 61#8))),trim value)

def assign (config : ServerConfig) (key value : Bytes) : Except Fault ServerConfig :=
  if key = ascii "port" then do return { config with port := BitVec.ofInt 16 (← stoi value) }
  else if key = ascii "data_dir" then .ok { config with dataDir := value }
  else if key = ascii "log_level" then .ok { config with logLevel := toLower value }
  else if key = ascii "log_dir" then .ok { config with logDir := value }
  else if key = ascii "log_max_files" then do return { config with logMaxFiles := ← stoul value }
  else if key = ascii "log_max_size_mb" then do return { config with logMaxSizeMb := ← stoul value }
  else .ok config

def readLine (config : ServerConfig) (line : Bytes) : Except Fault ServerConfig :=
  match setting? line with
  | none => .ok config
  | some (key,value) => assign config key value

/-- The file is its content; `none` if it cannot be opened. -/
def load (file : Option Bytes) : Except Fault ServerConfig :=
  match file with
  | none => .ok default
  | some text => (lines text).foldlM readLine default

def savedLines (config : ServerConfig) : List Bytes :=
  [ascii "# kv_cache server config",
    ascii "port=" ++ decimal config.port.toNat,
    ascii "data_dir=" ++ config.dataDir,
    ascii "log_level=" ++ config.logLevel,
    ascii "log_dir=" ++ config.logDir,
    ascii "log_max_files=" ++ decimal config.logMaxFiles.toNat,
    ascii "log_max_size_mb=" ++ decimal config.logMaxSizeMb.toNat]

def save (config : ServerConfig) : Bytes := config.savedLines.flatMap fun line => line ++ [10#8]

theorem dropWhile_solid (front back : Bytes) (b : Byte) (solid : isBlank b = false) :
    (front ++ b :: back).dropWhile isBlank = front.dropWhile isBlank ++ b :: back := by
  rw [List.dropWhile_append]
  split
  next none => simp [List.isEmpty_iff.mp none,solid]
  next => rfl

theorem rdropWhile_solid (front back : Bytes) (b : Byte) (solid : isBlank b = false) :
    (front ++ b :: back).rdropWhile isBlank = front ++ b :: back.rdropWhile isBlank := by
  simp [List.rdropWhile,dropWhile_solid _ _ b solid]

theorem blank_or_solid (s : Bytes) :
    (∀ b ∈ s, isBlank b = true) ∨ ∃ front b back, s = front ++ b :: back ∧
      (∀ c ∈ front, isBlank c = true) ∧ isBlank b = false := by
  cases left : s.dropWhile isBlank with
  | nil => exact .inl (List.dropWhile_eq_nil_iff.mp left)
  | cons b back =>
    refine .inr ⟨s.takeWhile isBlank,b,back,?_,fun c member => List.mem_takeWhile_imp member,
      InputStream.dropWhile_head isBlank s b back left⟩
    rw [← left,List.takeWhile_append_dropWhile]

theorem trim_blank (s : Bytes) (blank : ∀ b ∈ s, isBlank b = true) : trim s = [] := by
  rw [trim,List.dropWhile_eq_nil_iff.mpr blank]
  rfl

theorem trim_solid (front back : Bytes) (b : Byte) (blank : ∀ c ∈ front, isBlank c = true)
    (solid : isBlank b = false) : trim (front ++ b :: back) = b :: back.rdropWhile isBlank := by
  rw [trim,dropWhile_solid front back b solid,List.dropWhile_eq_nil_iff.mpr blank]
  exact rdropWhile_solid [] back b solid

theorem trim_trim (s : Bytes) : trim (trim s) = trim s := by
  obtain blank | ⟨front,b,back,rfl,blank,solid⟩ := blank_or_solid s
  · rw [trim_blank s blank]
    rfl
  · rw [trim_solid front back b blank solid]
    exact (trim_solid [] _ b (by simp) solid).trans (by rw [List.rdropWhile_idempotent])

theorem trim_rdropWhile (s : Bytes) : trim (s.rdropWhile isBlank) = trim s := by
  obtain blank | ⟨front,b,back,rfl,blank,solid⟩ := blank_or_solid s
  · rw [trim_blank s blank,List.rdropWhile_eq_nil_iff.mpr blank]
    rfl
  · rw [rdropWhile_solid front back b solid,trim_solid front _ b blank solid,
      trim_solid front back b blank solid,List.rdropWhile_idempotent]

theorem isBlank_lower (b : Byte) : isBlank (lower b) = isBlank b := by
  revert b
  decide

theorem lower_lower (b : Byte) : lower (lower b) = lower b := by
  revert b
  decide

theorem lower_newline (b : Byte) (same : lower b = 10#8) : b = 10#8 := by
  revert b
  decide

theorem toLower_toLower (s : Bytes) : toLower (toLower s) = toLower s := by
  simp [toLower,lower_lower]

theorem trim_toLower (s : Bytes) : trim (toLower s) = toLower (trim s) := by
  have same : isBlank ∘ lower = isBlank := funext isBlank_lower
  simp [trim,toLower,List.rdropWhile,List.dropWhile_map,← List.map_reverse,same]

theorem trim_subset (s : Bytes) (b : Byte) (member : b ∈ trim s) : b ∈ s :=
  (List.dropWhile_sublist isBlank).mem ((List.rdropWhile_prefix isBlank _).sublist.mem member)

/-- A name as it stands before `=`. -/
structure Name (name : Bytes) : Prop where
  first : ∃ b ∈ name.head?, isBlank b = false ∧ b ≠ 35#8
  trimmed : trim name = name
  low : toLower name = name
  plain : 61#8 ∉ name

instance (name : Bytes) : Decidable (Name name) :=
  decidable_of_iff ((∃ b ∈ name.head?, isBlank b = false ∧ b ≠ 35#8) ∧ trim name = name ∧
    toLower name = name ∧ 61#8 ∉ name)
    ⟨fun ⟨first,trimmed,low,plain⟩ => ⟨first,trimmed,low,plain⟩,
      fun ⟨first,trimmed,low,plain⟩ => ⟨first,trimmed,low,plain⟩⟩

theorem setting_line (name value : Bytes) (isName : Name name) :
    setting? (name ++ 61#8 :: value) = some (name,trim value) := by
  obtain ⟨b,isFirst,solid,comment⟩ := isName.first
  obtain ⟨rest,rfl⟩ : ∃ rest, name = b :: rest := by
    cases name with
    | nil => cases isFirst
    | cons c rest =>
      cases isFirst
      exact ⟨rest,rfl⟩
  have trimmed := trim_solid [] (rest ++ 61#8 :: value) b (by simp) solid
  rw [List.nil_append,rdropWhile_solid rest value 61#8 (by decide),← List.cons_append,
    ← List.cons_append] at trimmed
  have split := InputStream.split_at (b :: rest) (value.rdropWhile isBlank) isName.plain
  simp only [setting?,trimmed,split.1,split.2,isName.trimmed,isName.low,trim_rdropWhile]
  simp [comment]

theorem readLine_setting (config : ServerConfig) (name value : Bytes) (isName : Name name) :
    readLine config (name ++ 61#8 :: value) = assign config name (trim value) := by
  rw [readLine,setting_line name value isName]

/-- Neither blanks at its ends nor the end of a line within. -/
def Tidy (s : Bytes) : Prop := trim s = s ∧ 10#8 ∉ s

/-- The texts can be told from the lines around them. -/
structure Plain (config : ServerConfig) : Prop where
  dataDir : Tidy config.dataDir
  logLevel : Tidy config.logLevel ∧ toLower config.logLevel = config.logLevel
  logDir : Tidy config.logDir

theorem default_plain : default.Plain :=
  ⟨⟨by decide,by decide⟩,⟨⟨by decide,by decide⟩,by decide⟩,⟨by decide,by decide⟩⟩

theorem trim_of_solid (s : Bytes) (solid : ∀ b ∈ s, isBlank b = false) : trim s = s := by
  cases s with
  | nil => rfl
  | cons b s =>
    obtain ⟨own,others⟩ := List.forall_mem_cons.mp solid
    have trimmed := trim_solid [] s b (by simp) own
    rw [List.nil_append] at trimmed
    rw [trimmed,List.rdropWhile_eq_self_iff.mpr]
    intro filled
    simp [others _ (List.getLast_mem filled)]

theorem digit_solid (b : Byte) (digit : isDigit b = true) : isBlank b = false ∧ b ≠ 10#8 := by
  revert b
  decide

theorem decimal_tidy (n : Nat) : Tidy (decimal n) := by
  have solid (b : Byte) (member : b ∈ decimal n) := digit_solid b (decimal_isDigit n b member)
  exact ⟨trim_of_solid _ fun b member => (solid b member).1,fun member => (solid _ member).2 rfl⟩

theorem stoul_decimal (n : BitVec 64) : stoul (decimal n.toNat) = .ok n := by
  have plain : KvCache.Plain (decimal n.toNat) := ⟨decimal_ne_nil _,decimal_isDigit _⟩
  simp [stoul,signedDigits_plain _ plain,digitsValue_decimal,decimal_ne_nil]
  exact n.isLt

theorem stoi_port (port : BitVec 16) : stoi (decimal port.toNat) = .ok port.toNat :=
  stoi_decimal _ (Nat.lt_trans port.isLt (by decide))

theorem setting_tidy (line key value : Bytes) (oneLine : 10#8 ∉ line)
    (found : setting? line = some (key,value)) : Tidy value := by
  simp only [setting?] at found
  split at found
  · cases found
  · split at found
    · cases found
    next b rest cut =>
      cases found
      refine ⟨trim_trim rest,fun member => oneLine (trim_subset line _ ?_)⟩
      apply (List.dropWhile_sublist fun b => decide (b ≠ 61#8)).mem
      rw [cut]
      exact List.mem_cons_of_mem b (trim_subset rest _ member)

theorem assign_plain (config config' : ServerConfig) (plain : config.Plain) (key value : Bytes)
    (tidy : Tidy value) (assigned : assign config key value = .ok config') : config'.Plain := by
  unfold assign at assigned
  split at assigned
  · obtain ⟨n,_,same⟩ := (Fault.bind_ok_iff _ _ _).mp assigned
    cases same
    exact ⟨plain.dataDir,plain.logLevel,plain.logDir⟩
  split at assigned
  · cases assigned
    exact ⟨tidy,plain.logLevel,plain.logDir⟩
  split at assigned
  · cases assigned
    refine ⟨plain.dataDir,⟨⟨?_,?_⟩,toLower_toLower value⟩,plain.logDir⟩
    · rw [trim_toLower,tidy.1]
    · intro member
      obtain ⟨b,inside,same⟩ := List.mem_map.mp member
      exact tidy.2 (lower_newline b same ▸ inside)
  split at assigned
  · cases assigned
    exact ⟨plain.dataDir,plain.logLevel,tidy⟩
  split at assigned
  · obtain ⟨n,_,same⟩ := (Fault.bind_ok_iff _ _ _).mp assigned
    cases same
    exact ⟨plain.dataDir,plain.logLevel,plain.logDir⟩
  split at assigned
  · obtain ⟨n,_,same⟩ := (Fault.bind_ok_iff _ _ _).mp assigned
    cases same
    exact ⟨plain.dataDir,plain.logLevel,plain.logDir⟩
  · cases assigned
    exact plain

theorem readLine_plain (config config' : ServerConfig) (plain : config.Plain) (line : Bytes)
    (oneLine : 10#8 ∉ line) (read : readLine config line = .ok config') : config'.Plain := by
  unfold readLine at read
  split at read
  · cases read
    exact plain
  next key value found =>
    exact assign_plain config config' plain key value (setting_tidy line key value oneLine found) read

theorem foldlM_plain (texts : List Bytes) (oneLine : ∀ line ∈ texts, 10#8 ∉ line)
    (config config' : ServerConfig) (plain : config.Plain)
    (read : texts.foldlM readLine config = .ok config') : config'.Plain := by
  induction texts generalizing config with
  | nil =>
    cases read
    exact plain
  | cons line texts ih =>
    obtain ⟨own,others⟩ := List.forall_mem_cons.mp oneLine
    rw [List.foldlM_cons] at read
    obtain ⟨next,first,later⟩ := (Fault.bind_ok_iff _ _ _).mp read
    exact ih others next (readLine_plain config next plain line own first) later

theorem load_plain (file : Option Bytes) (config : ServerConfig) (loaded : load file = .ok config) :
    config.Plain := by
  cases file with
  | none =>
    cases loaded
    exact default_plain
  | some text =>
    exact foldlM_plain _ (InputStream.readLines_oneLine isSpace _ _) default config default_plain loaded

theorem savedLines_oneLine (config : ServerConfig) (plain : config.Plain) :
    ∀ line ∈ config.savedLines, 10#8 ∉ line := by
  have port := (decimal_tidy config.port.toNat).2
  have files := (decimal_tidy config.logMaxFiles.toNat).2
  have size := (decimal_tidy config.logMaxSizeMb.toNat).2
  simp only [savedLines,List.forall_mem_cons,List.mem_append,not_or]
  refine ⟨by decide,⟨by decide,port⟩,⟨by decide,plain.dataDir.2⟩,⟨by decide,plain.logLevel.1.2⟩,
    ⟨by decide,plain.logDir.2⟩,⟨by decide,files⟩,⟨by decide,size⟩,by simp⟩

theorem names_nodup : [ascii "log_max_size_mb",ascii "log_max_files",ascii "log_dir",ascii "log_level",
    ascii "data_dir",ascii "port"].Nodup := by
  decide +kernel

/-- Each name that is saved is assigned to its own field. -/
theorem assign_named (c : ServerConfig) (value : Bytes) :
    assign c (ascii "port") value =
        (stoi value).bind (fun n => .ok { c with port := BitVec.ofInt 16 n }) ∧
      assign c (ascii "data_dir") value = .ok { c with dataDir := value } ∧
      assign c (ascii "log_level") value = .ok { c with logLevel := toLower value } ∧
      assign c (ascii "log_dir") value = .ok { c with logDir := value } ∧
      assign c (ascii "log_max_files") value =
        (stoul value).bind (fun n => .ok { c with logMaxFiles := n }) ∧
      assign c (ascii "log_max_size_mb") value =
        (stoul value).bind (fun n => .ok { c with logMaxSizeMb := n }) := by
  have names := names_nodup
  simp only [List.nodup_cons,List.mem_cons,List.not_mem_nil,or_false,not_or] at names
  simp only [assign,names,if_false,if_true,true_and]
  exact ⟨rfl,rfl,rfl⟩

/-- The settings that are saved, with their names apart from their values. -/
def savedSettings (config : ServerConfig) : List (Bytes × Bytes) :=
  [(ascii "port",decimal config.port.toNat),(ascii "data_dir",config.dataDir),
    (ascii "log_level",config.logLevel),(ascii "log_dir",config.logDir),
    (ascii "log_max_files",decimal config.logMaxFiles.toNat),
    (ascii "log_max_size_mb",decimal config.logMaxSizeMb.toNat)]

theorem savedLines_eq (config : ServerConfig) : config.savedLines =
    ascii "# kv_cache server config" :: config.savedSettings.map fun s => s.1 ++ 61#8 :: s.2 := by
  simp [savedLines,savedSettings,ascii]

theorem names_are_names (config : ServerConfig) : ∀ s ∈ config.savedSettings, Name s.1 := by
  simp only [savedSettings,List.forall_mem_cons]
  decide +kernel

theorem readLine_saved (settings : List (Bytes × Bytes)) (names : ∀ s ∈ settings, Name s.1)
    (c : ServerConfig) : (settings.map fun s => s.1 ++ 61#8 :: s.2).foldlM readLine c =
      settings.foldlM (fun c s => assign c s.1 (trim s.2)) c := by
  induction settings generalizing c with
  | nil => rfl
  | cons s settings ih =>
    obtain ⟨own,others⟩ := List.forall_mem_cons.mp names
    rw [List.map_cons,List.foldlM_cons,List.foldlM_cons,readLine_setting c s.1 s.2 own]
    exact congrArg _ (funext (ih others))

theorem load_saved (config : ServerConfig) (plain : config.Plain) :
    load (some config.save) = .ok config := by
  have read : lines config.save = config.savedLines :=
    InputStream.allLines_written isSpace _ (savedLines_oneLine config plain)
  have comment : readLine default (ascii "# kv_cache server config") = .ok default := rfl
  rw [load,read,savedLines_eq,List.foldlM_cons,comment]
  apply (readLine_saved _ (names_are_names config) default).trans
  simp only [savedSettings,List.foldlM_cons,List.foldlM_nil,assign_named,(decimal_tidy _).1,
    plain.dataDir.1,plain.logLevel.1.1,plain.logLevel.2,plain.logDir.1,stoi_port,stoul_decimal,bind,
    Except.bind,BitVec.ofInt_natCast]
  simp [pure,Except.pure]

/-- Save and load. What is saved is loaded again if and only if its texts can be told from the
lines around them, which is to say that some file gives this configuration at all. -/
theorem load_save_iff (config : ServerConfig) :
    (load (some config.save) = .ok config ↔ config.Plain) ∧
      (config.Plain ↔ ∃ file, load file = .ok config) := by
  refine ⟨⟨load_plain _ config,load_saved config⟩,fun plain => ⟨_,load_saved config plain⟩,?_⟩
  rintro ⟨file,loaded⟩
  exact load_plain file config loaded

/-- A line end in a text is a line of its own when it is loaded: here it changes the port. -/
example : (load (some { default with dataDir := ascii "d\nport=1" }.save)).map ServerConfig.port =
    .ok 1#16 := by
  decide +kernel

/-- How the start of the server ends before there is a configuration: `exit(0)` after the help
text, or an exception. -/
inductive Ended where
  | helped
  | threw (fault : Fault)
  deriving DecidableEq, Repr

def named (short long arg : Bytes) : Bool := arg == short || arg == long

/-- The arguments behind the program's name. -/
def overrideFromArgs (config : ServerConfig) : List Bytes → Except Ended ServerConfig
  | [] => .ok config
  | [arg] => if named (ascii "-h") (ascii "--help") arg then .error .helped else .ok config
  | arg :: value :: args =>
    if named (ascii "-p") (ascii "--port") arg then
      match stoi value with
      | .ok n => overrideFromArgs { config with port := BitVec.ofInt 16 n } args
      | .error fault => .error (.threw fault)
    else if named (ascii "-d") (ascii "--data-dir") arg then
      overrideFromArgs { config with dataDir := value } args
    else if named (ascii "-l") (ascii "--log-level") arg then
      overrideFromArgs { config with logLevel := toLower value } args
    else if named (ascii "-h") (ascii "--help") arg then .error .helped
    else overrideFromArgs config (value :: args)

/-- The first loop of `main`. -/
def configPath (path : Bytes) : List Bytes → Bytes
  | [] | [_] => path
  | arg :: value :: args =>
    if named (ascii "-c") (ascii "--config") arg then configPath value args
    else configPath path (value :: args)

def configure (files : Bytes → Option Bytes) (args : List Bytes) : Except Ended ServerConfig :=
  match load (files (configPath (ascii "config.txt") args)) with
  | .ok config => overrideFromArgs config args
  | .error fault => .error (.threw fault)

/-- A setting on the command line, by either of its names. -/
inductive Setting where
  | config (long : Bool) (path : Bytes)
  | port (long : Bool) (text : Bytes)
  | dataDir (long : Bool) (dir : Bytes)
  | logLevel (long : Bool) (level : Bytes)
  deriving DecidableEq, Repr

namespace Setting

def args : Setting → List Bytes
  | config long path => [if long then ascii "--config" else ascii "-c",path]
  | port long text => [if long then ascii "--port" else ascii "-p",text]
  | dataDir long dir => [if long then ascii "--data-dir" else ascii "-d",dir]
  | logLevel long level => [if long then ascii "--log-level" else ascii "-l",level]

def path? : Setting → Option Bytes
  | config _ path => some path
  | _ => none

def apply (c : ServerConfig) : Setting → Except Ended ServerConfig
  | config _ _ => .ok c
  | port _ text =>
    match stoi text with
    | .ok n => .ok { c with port := BitVec.ofInt 16 n }
    | .error fault => .error (.threw fault)
  | dataDir _ dir => .ok { c with dataDir := dir }
  | logLevel _ level => .ok { c with logLevel := toLower level }

/-- Each of the two loops steps over the names that are the other's, and looks at what follows
them as at another name. -/
def Clear : Setting → Prop
  | config _ path => path ∉ [ascii "-p",ascii "--port",ascii "-d",ascii "--data-dir",ascii "-l",
      ascii "--log-level",ascii "-h",ascii "--help"]
  | port _ text | dataDir _ text | logLevel _ text => text ∉ [ascii "-c",ascii "--config"]

end Setting

theorem named_either (short long : Bytes) (choice : Bool) :
    named short long (if choice then long else short) = true := by
  cases choice <;> simp [named]

theorem configPath_skip (path arg : Bytes) (args : List Bytes)
    (other : arg ∉ [ascii "-c",ascii "--config"]) : configPath path (arg :: args) = configPath path args := by
  simp only [List.mem_cons,List.not_mem_nil,or_false,not_or] at other
  cases args with
  | nil => rfl
  | cons value args => simp [configPath,named,other]

theorem override_skip (config : ServerConfig) (arg : Bytes) (args : List Bytes)
    (other : arg ∉ [ascii "-p",ascii "--port",ascii "-d",ascii "--data-dir",ascii "-l",
      ascii "--log-level",ascii "-h",ascii "--help"]) :
    overrideFromArgs config (arg :: args) = overrideFromArgs config args := by
  simp only [List.mem_cons,List.not_mem_nil,or_false,not_or] at other
  cases args with
  | nil => simp [overrideFromArgs,named,other]
  | cons value args => simp [overrideFromArgs,named,other]

theorem configPath_settings (settings : List Setting) (clear : ∀ s ∈ settings, s.Clear) (path : Bytes) :
    configPath path (settings.flatMap Setting.args) =
      (settings.filterMap Setting.path?).getLastD path := by
  induction settings generalizing path with
  | nil => rfl
  | cons s settings ih =>
    obtain ⟨own,others⟩ := List.forall_mem_cons.mp clear
    rw [List.flatMap_cons]
    cases s with
    | config long chosen =>
      simp only [Setting.args,List.cons_append,List.nil_append,configPath,named_either,if_true]
      rw [ih others,List.filterMap_cons_some (rfl : Setting.path? (.config long chosen) = some chosen),
        List.getLastD_cons]
    | port long value | dataDir long value | logLevel long value =>
      simp only [Setting.args,List.cons_append,List.nil_append]
      rw [configPath_skip _ _ _ (by cases long <;> decide),configPath_skip _ _ _ own,ih others]
      rfl

theorem override_settings (settings : List Setting) (clear : ∀ s ∈ settings, s.Clear)
    (config : ServerConfig) :
    overrideFromArgs config (settings.flatMap Setting.args) = settings.foldlM Setting.apply config := by
  induction settings generalizing config with
  | nil => rfl
  | cons s settings ih =>
    obtain ⟨own,others⟩ := List.forall_mem_cons.mp clear
    rw [List.flatMap_cons,List.foldlM_cons]
    cases s with
    | config long path =>
      simp only [Setting.args,List.cons_append,List.nil_append]
      rw [override_skip _ _ _ (by cases long <;> decide),override_skip _ _ _ own,ih others]
      rfl
    | port long text =>
      simp only [Setting.args,List.cons_append,List.nil_append,overrideFromArgs,named_either,if_true,
        Setting.apply]
      cases stoi text with
      | error fault => rfl
      | ok n => exact ih others _
    | dataDir long dir =>
      have other : named (ascii "-p") (ascii "--port")
          (if long then ascii "--data-dir" else ascii "-d") = false := by
        cases long <;> decide
      simp only [Setting.args,List.cons_append,List.nil_append,overrideFromArgs,named_either,other,if_true,
        Bool.false_eq_true,if_false]
      exact ih others _
    | logLevel long level =>
      have port : named (ascii "-p") (ascii "--port")
          (if long then ascii "--log-level" else ascii "-l") = false := by
        cases long <;> decide
      have dataDir : named (ascii "-d") (ascii "--data-dir")
          (if long then ascii "--log-level" else ascii "-l") = false := by
        cases long <;> decide
      simp only [Setting.args,List.cons_append,List.nil_append,overrideFromArgs,named_either,port,dataDir,
        if_true,Bool.false_eq_true,if_false]
      exact ih others _

/-- The start of the server. The two loops over the command line agree on which arguments are
names and which are values: the last file named is loaded, and the other settings are applied to it
in their order. -/
theorem configure_settings (files : Bytes → Option Bytes) (settings : List Setting)
    (clear : ∀ s ∈ settings, s.Clear) :
    configure files (settings.flatMap Setting.args) =
      match load (files ((settings.filterMap Setting.path?).getLastD (ascii "config.txt"))) with
      | .ok config => settings.foldlM Setting.apply config
      | .error fault => .error (.threw fault) := by
  rw [configure,configPath_settings settings clear]
  cases load (files ((settings.filterMap Setting.path?).getLastD (ascii "config.txt"))) with
  | error fault => rfl
  | ok config => exact override_settings settings clear config

instance : (s : Setting) → Decidable s.Clear
  | .config _ _ => inferInstanceAs (Decidable (_ ∉ _))
  | .port _ _ | .dataDir _ _ | .logLevel _ _ => inferInstanceAs (Decidable (_ ∉ _))

/-- Two files and two ports are named; the later ones count. -/
theorem configure_settings_twice :
    configure (fun path => if path = ascii "b" then some (ascii "log_dir = L\nPORT=1") else none)
        (List.flatMap Setting.args [.config false (ascii "a"),.port true (ascii "2"),
          .config true (ascii "b"),.port false (ascii "65539")]) =
      .ok { default with logDir := ascii "L", port := 3#16 } := by
  rw [configure_settings _ _ (by decide)]
  decide +kernel

/-- A value that is one of the other loop's names is read differently by the two. -/
example : configPath (ascii "config.txt") [ascii "-d",ascii "-c",ascii "x"] = ascii "x" ∧
    overrideFromArgs default [ascii "-d",ascii "-c",ascii "x"] =
      .ok { default with dataDir := ascii "-c" } := by
  decide +kernel

end ServerConfig
end KvCache
