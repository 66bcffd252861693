import FastdlMm.Config.ConfigParser
import Mathlib.Data.List.Nodup

namespace FastdlMm.Config

/-- The name and the registered default of a `cvar_t`. -/
structure Cvar where
  name : Text
  string : Text

structure Setting where
  cvar : Cvar
  help : Text

/-- Registration order, and the order a generated config is written in. -/
def g_settings : List Setting := [
  ⟨⟨text "fastdl_enabled", text "1"⟩, text "toggle fastdl hosting"⟩,
  ⟨⟨text "fastdl_bind", text "0.0.0.0"⟩, text "listen address"⟩,
  ⟨⟨text "fastdl_port", text "0"⟩, text "listen port (TCP); 0 uses the game port number"⟩,
  ⟨⟨text "fastdl_root", text "cstrike"⟩, text "game mod directory"⟩,
  ⟨⟨text "fastdl_serve_dirs", text "sprites,sound,sounds,overviews,models,maps,gfx"⟩,
    text "subdirectories served, comma separated"⟩,
  ⟨⟨text "fastdl_serve_types",
      text "bsp,nav,res,wad,mdl,spr,wav,mp3,bmp,tga,txt,htm,html,gz,bz2"⟩,
    text "extensions served, comma separated"⟩,
  ⟨⟨text "fastdl_serve_root_types", text "wad"⟩,
    text "root-level extensions served, comma separated"⟩,
  ⟨⟨text "fastdl_max_file_mb", text "250"⟩, text "refuse files larger than this"⟩,
  ⟨⟨text "fastdl_threads", text "1"⟩,
    text "HTTP workers; use 2 only for measured concurrent/slow transfers"⟩,
  ⟨⟨text "fastdl_max_connections", text "64"⟩, text "global concurrent connection limit"⟩,
  ⟨⟨text "fastdl_max_connections_ip", text "32"⟩, text "concurrent connections per IP"⟩,
  ⟨⟨text "fastdl_connection_timeout", text "30"⟩, text "idle connection timeout in seconds"⟩,
  ⟨⟨text "fastdl_requests_minute", text "500"⟩, text "requests per minute per IP"⟩,
  ⟨⟨text "fastdl_denials_minute", text "36"⟩, text "denials per minute before a temporary block"⟩,
  ⟨⟨text "fastdl_block_seconds", text "180"⟩, text "how long a block lasts, in seconds"⟩,
  ⟨⟨text "fastdl_bandwidth_max_mbps", text "0"⟩,
    text "global response payload limit in Mbps; 0 is unlimited"⟩,
  ⟨⟨text "fastdl_bandwidth_ip_mbps", text "0"⟩,
    text "shared response payload limit per IP; 0 is unlimited"⟩,
  ⟨⟨text "fastdl_steam_only", text "1"⟩, text "only accept the Steam downloader User-Agent"⟩,
  ⟨⟨text "fastdl_gzip", text "0"⟩, text "serve cached gzip when the client accepts it"⟩,
  ⟨⟨text "fastdl_gzip_cache", text "1"⟩,
    text "prepare gzip representations on a background thread"⟩,
  ⟨⟨text "fastdl_gzip_cache_path", text "fastdl_cache"⟩,
    text "disk cache path outside fastdl_root"⟩,
  ⟨⟨text "fastdl_gzip_cache_max_mb", text "256"⟩, text "maximum compressed cache size"⟩,
  ⟨⟨text "fastdl_auto_downloadurl", text "0"⟩,
    text "set sv_downloadurl after a successful start"⟩,
  ⟨⟨text "fastdl_public_url", text ""⟩, text "explicit public HTTP URL used by automatic mode"⟩,
  ⟨⟨text "fastdl_log", text "logs/fastdl/fastdl.log"⟩, text "log base path; one file per day"⟩,
  ⟨⟨text "fastdl_log_age", text "7"⟩, text "days of logs to keep, 0 keeps all"⟩]

def knownNames : List Text := g_settings.map (fun setting => setting.cvar.name)

/-- The game engine's console variables: setting a registered one changes its string and no other. -/
structure Engine where
  Cvars : Type
  cvarString : Cvars → Text → Text
  cvarSetString : Cvars → Text → Text → Cvars
  string_set : ∀ cvars, ∀ name ∈ knownNames, ∀ value other,
    cvarString (cvarSetString cvars name value) other =
      if other = name then value else cvarString cvars other

variable (engine : Engine)

/-- The longest name and four more. -/
def column : Nat := (knownNames.map List.length).foldl max 0 + 4

/-- `std::left << std::setw(width)`. -/
def padded (width : Nat) (name : Text) : Text := name ++ List.replicate (width - name.length) ' '

def assignmentLine (name value : Text) : Text := padded column name ++ '"' :: (value ++ ['"'])

def helpLine (setting : Setting) (value : Text) : Text :=
  text "// " ++ padded column setting.cvar.name ++ setting.help ++ text " (default \"" ++ value ++
    text "\")"

def notice : List Text :=
  [[], text "// remember to set sv_downloadurl to \"http://your-ip:port/\"", [], text "// CVARs:"]

/-- The lines of a generated config; each is written with a newline behind it. -/
def configLines (cvars : engine.Cvars) : List Text :=
  g_settings.map (fun setting =>
    assignmentLine setting.cvar.name (engine.cvarString cvars setting.cvar.name)) ++
  notice ++
  g_settings.map (fun setting => helpLine setting (engine.cvarString cvars setting.cvar.name))

/-- The file's text, or the error. The stream tells whether it opened and took everything. -/
def writeDefaultConfig (cvars : engine.Cvars) (path : Text) (opened flushed : Bool) :
    Except Text Text :=
  if !opened then .error (text "could not create " ++ path)
  else if !flushed then .error (text "could not write " ++ path)
  else .ok ((configLines engine cvars).flatMap (fun line => line ++ ['\n']))

/-- `std::getline` until it fails: what follows the last newline is a line unless it is empty. -/
def getLines : Text → List Text
  | [] => []
  | c :: rest =>
      if c = '\n' then [] :: getLines rest
      else
        match getLines rest with
        | [] => [[c]]
        | line :: lines => (c :: line) :: lines

structure Loading where
  cvars : engine.Cvars
  loaded : Nat := 0
  skipped : Nat := 0
  printed : List Text := []

/-- One line of the config: applied, reported and skipped, or passed over if nothing is left of it
without its comment. -/
def loadLine (l : Loading engine) (lineNumber : Nat) (line : Text) : Loading engine :=
  match parseAssignment line with
  | none =>
      if trim (stripComment line) = [] then l
      else
        { l with
          skipped := l.skipped + 1
          printed := l.printed ++
            [text "config: skipping invalid assignment on line " ++ decimal lineNumber] }
  | some (name, value) =>
      if g_settings.any (fun setting => decide (name = setting.cvar.name)) then
        { l with
          cvars := engine.cvarSetString l.cvars (cString name) (cString value)
          loaded := l.loaded + 1 }
      else
        { l with
          skipped := l.skipped + 1
          printed := l.printed ++
            [text "config: skipping unknown setting '" ++ name ++ text "' on line " ++
              decimal lineNumber] }

/-- The loop over the lines; `lineNumber` lines were read before. -/
def loadLines (l : Loading engine) (lineNumber : Nat) : List Text → Loading engine
  | [] => l
  | line :: lines => loadLines (loadLine engine l (lineNumber + 1) line) (lineNumber + 1) lines

/-- Loads the text of a file that could be opened; a read that fails leaves what was applied. -/
def loadConfigFile (cvars : engine.Cvars) (path : Text) (file : Option Text) (bad : Bool) :
    Loading engine × Option Text :=
  match file with
  | none => ({ cvars := cvars }, some (text "could not open " ++ path))
  | some contents =>
      (loadLines engine { cvars := cvars } 0 (getLines contents),
        if bad then some (text "failed while reading " ++ path) else none)

/-- What the proofs use of the names, checked on their characters at once. -/
theorem knownNames_checked : knownNames.Nodup ∧ ∀ name ∈ knownNames, name ≠ [] ∧
    cString name = name ∧
    ∀ c ∈ name, isSpace c = false ∧ c ≠ '"' ∧ c ≠ '/' := by
  have hchars : ∃ names, knownNames = names ∧ names.Nodup ∧ ∀ name ∈ names, name ≠ [] ∧
      cString name = name ∧
      name.all (fun c => decide (isSpace c = false ∧ c ≠ '"' ∧ c ≠ '/')) = true := by
    apply Exists.intro
    apply And.intro
    · simp only [knownNames, g_settings, List.map_cons, List.map_nil]
      repeat' apply congrArg₂ List.cons
      all_goals first | exact text_eq rfl | rfl
    · decide +kernel
  obtain ⟨names, rfl, hnodup, hnames⟩ := hchars
  refine ⟨hnodup, fun name hname => ?_⟩
  obtain ⟨hne, hstring, hall⟩ := hnames name hname
  exact ⟨hne, hstring, forall_of_all hall⟩

theorem knownNames_plain {name : Text} (h : name ∈ knownNames) : PlainName name :=
  ⟨(knownNames_checked.2 name h).1, (knownNames_checked.2 name h).2.2⟩

/-- The lines that are not assignments hold no newline of their own. -/
theorem comments_checked : (∀ help ∈ g_settings.map Setting.help, '\n' ∉ help) ∧
    ∀ line ∈ notice, '\n' ∉ line ∧ stripComment line = [] := by
  constructor
  · have hchars : ∃ helps, g_settings.map Setting.help = helps ∧ ∀ help ∈ helps, '\n' ∉ help := by
      apply Exists.intro
      apply And.intro
      · simp only [g_settings, List.map_cons, List.map_nil]
        repeat' apply congrArg₂ List.cons
        all_goals first | exact text_eq rfl | rfl
      · decide +kernel
    obtain ⟨helps, rfl, hhelps⟩ := hchars
    exact hhelps
  · have hchars : ∃ lines, notice = lines ∧
        ∀ line ∈ lines, '\n' ∉ line ∧ stripComment line = [] := by
      apply Exists.intro
      apply And.intro
      · simp only [notice]
        repeat' apply congrArg₂ List.cons
        all_goals first | exact text_eq rfl | rfl
      · decide +kernel
    obtain ⟨lines, rfl, hlines⟩ := hchars
    exact hlines

theorem getLines_cons {line : Text} (h : '\n' ∉ line) (rest : Text) :
    getLines (line ++ '\n' :: rest) = line :: getLines rest := by
  induction line with
  | nil => simp [getLines]
  | cons c cs ih =>
    have hc : c ≠ '\n' := fun he => h (by simp [he])
    have hrest := ih fun hm => h (List.mem_cons_of_mem _ hm)
    simp only [List.cons_append, getLines, hc, if_false, hrest]

/-- Reading takes the lines apart that writing put together. -/
theorem getLines_flatMap {lines : List Text} (h : ∀ line ∈ lines, '\n' ∉ line) :
    getLines (lines.flatMap (fun line => line ++ ['\n'])) = lines := by
  induction lines with
  | nil => rfl
  | cons line lines ih =>
    have hline := h line List.mem_cons_self
    have hrest := ih fun l hl => h l (List.mem_cons_of_mem _ hl)
    simp only [List.flatMap_cons, List.append_assoc, List.cons_append, List.nil_append,
      getLines_cons hline, hrest]

theorem le_foldl_max {n : Nat} {ns : List Nat} (start : Nat) (h : n ∈ ns ∨ n ≤ start) :
    n ≤ ns.foldl max start := by
  induction ns generalizing start with
  | nil => simpa using h
  | cons m ns ih =>
    rw [List.foldl_cons]
    apply ih
    rcases h with h | h
    · rcases List.mem_cons.mp h with rfl | h
      · exact .inr (Nat.le_max_right _ _)
      · exact .inl h
    · exact .inr (h.trans (Nat.le_max_left _ _))

theorem assignmentLine_eq {name : Text} (hn : name ∈ knownNames) (value : Text) :
    ∃ pad, assignmentLine name value =
      name ++ List.replicate (pad + 1) ' ' ++ '"' :: (value ++ ['"']) := by
  have hwidth : name.length + 4 ≤ column :=
    Nat.add_le_add_right (le_foldl_max 0 (.inl (List.mem_map_of_mem hn))) 4
  obtain ⟨pad, hpad⟩ : ∃ pad, column - name.length = pad + 1 :=
    ⟨column - name.length - 1, by omega⟩
  exact ⟨pad, by rw [assignmentLine, padded, hpad]⟩

theorem padded_newline {name : Text} (hn : name ∈ knownNames) : '\n' ∉ padded column name := by
  intro hm
  rcases List.mem_append.mp hm with hm | hm
  · have hplain := ((knownNames_plain hn).plain _ hm).1
    exact absurd hplain (by decide)
  · exact absurd (List.eq_of_mem_replicate hm) (by decide)

/-- Every line of a generated config is one line, whatever the values are. -/
theorem configLines_newline {cvars : engine.Cvars}
    (hv : ∀ name ∈ knownNames, PlainValue (engine.cvarString cvars name)) :
    ∀ line ∈ configLines engine cvars, '\n' ∉ line := by
  have hslashes : '\n' ∉ text "// " := by rw [text_eq rfl]; decide
  have hdefault : '\n' ∉ text " (default \"" := by rw [text_eq rfl]; decide
  have hclose : '\n' ∉ text "\")" := by rw [text_eq rfl]; decide
  intro line hl
  simp only [configLines, List.mem_append, List.mem_map] at hl
  rcases hl with (⟨setting, hs, rfl⟩ | hl) | ⟨setting, hs, rfl⟩
  · have hn : setting.cvar.name ∈ knownNames := List.mem_map_of_mem hs
    have hvalue : '\n' ∉ engine.cvarString cvars setting.cvar.name :=
      fun hm => (hv _ hn _ hm).2.2.1 rfl
    have hpad := padded_newline hn
    simp [assignmentLine, hpad, hvalue]
  · exact (comments_checked.2 line hl).1
  · have hn : setting.cvar.name ∈ knownNames := List.mem_map_of_mem hs
    have hvalue : '\n' ∉ engine.cvarString cvars setting.cvar.name :=
      fun hm => (hv _ hn _ hm).2.2.1 rfl
    have hpad := padded_newline hn
    have hhelp := comments_checked.1 _ (List.mem_map_of_mem hs)
    simp [helpLine, hslashes, hpad, hhelp, hdefault, hvalue, hclose]

/-- A comment line or an empty one leaves everything as it is. -/
def Passed (line : Text) : Prop := stripComment line = []

theorem loadLine_passed (l : Loading engine) (n : Nat) {line : Text} (h : Passed line) :
    loadLine engine l n line = l := by
  have hparse : parseAssignment line = none := by
    rw [parseAssignment, h]
    rfl
  rw [loadLine, hparse, h]
  rfl

theorem loadLines_passed (l : Loading engine) (n : Nat) {lines : List Text}
    (h : ∀ line ∈ lines, Passed line) : loadLines engine l n lines = l := by
  induction lines generalizing n with
  | nil => rfl
  | cons line lines ih =>
    rw [loadLines, loadLine_passed engine l _ (h line List.mem_cons_self)]
    exact ih _ fun l hl => h l (List.mem_cons_of_mem _ hl)

theorem loadLines_append (l : Loading engine) (n : Nat) (front back : List Text) :
    loadLines engine l n (front ++ back) =
      loadLines engine (loadLines engine l n front) (n + front.length) back := by
  induction front generalizing l n with
  | nil => rfl
  | cons line front ih =>
    simp only [List.cons_append, loadLines, ih, List.length_cons]
    congr 1
    omega

theorem helpLine_passed (setting : Setting) (value : Text) : Passed (helpLine setting value) := by
  have hslashes : text "// " = ['/', '/', ' '] := text_eq rfl
  simp only [Passed, helpLine, hslashes, List.cons_append]
  exact stripComment_comment _

theorem cString_plain {value : Text} (h : PlainValue value) : cString value = value := by
  apply List.takeWhile_eq_self_iff.mpr
  intro c hc
  simpa using (h c hc).2.2.2

/-- A written assignment is applied, or reported when its value is empty. -/
theorem loadLine_written (l : Loading engine) (n : Nat) {name value : Text}
    (hn : name ∈ knownNames) (hv : PlainValue value) :
    loadLine engine l n (assignmentLine name value) =
      if value = [] then
        { l with
          skipped := l.skipped + 1
          printed := l.printed ++
            [text "config: skipping invalid assignment on line " ++ decimal n] }
      else { l with cvars := engine.cvarSetString l.cvars name value, loaded := l.loaded + 1 } := by
  have hplain := knownNames_plain hn
  obtain ⟨pad, hline⟩ := assignmentLine_eq hn value
  have hquote : '"' ∉ value := fun hm => (hv _ hm).1 rfl
  have htrim := trim_written hplain pad hquote
  have hparse := parseAssignment_written hplain hv pad
  have hsome : name ++ List.replicate (pad + 1) ' ' ++ '"' :: (value ++ ['"']) ≠ [] := by simp
  have hknown : g_settings.any (fun setting => decide (name = setting.cvar.name)) = true := by
    obtain ⟨setting, hs, he⟩ := List.mem_map.mp hn
    exact List.any_eq_true.mpr ⟨setting, hs, by simp [he]⟩
  rw [hline, loadLine, hparse, htrim]
  by_cases hempty : value = []
  · rw [if_pos hempty, if_pos hempty, if_neg hsome]
  · rw [if_neg hempty, if_neg hempty]
    simp only [hknown, if_true, (knownNames_checked.2 name hn).2.1, cString_plain hv]

/-- What loading the written lines of some settings does, in any state. -/
theorem loadLines_written {names : List Text} {values : Text → Text}
    (hk : ∀ name ∈ names, name ∈ knownNames) (hnd : names.Nodup)
    (hv : ∀ name ∈ names, PlainValue (values name)) (l : Loading engine) (n : Nat) :
    let r := loadLines engine l n (names.map (fun name => assignmentLine name (values name)))
    r.skipped = l.skipped + (names.filter (fun name => decide (values name = []))).length ∧
    (∀ name, engine.cvarString r.cvars name =
      if name ∈ names ∧ values name ≠ [] then values name else engine.cvarString l.cvars name) ∧
    ((∀ name ∈ names, values name ≠ []) → r.printed = l.printed) := by
  induction names generalizing l n with
  | nil => simp [loadLines]
  | cons first names ih =>
    obtain ⟨hfirst, hnd'⟩ := List.nodup_cons.mp hnd
    have hset := engine.string_set l.cvars first (hk first List.mem_cons_self)
    have hstep := loadLine_written engine l (n + 1) (hk first List.mem_cons_self)
      (hv first List.mem_cons_self)
    obtain ⟨hskipped, hcvars, hprinted⟩ := ih (fun m hm => hk m (List.mem_cons_of_mem _ hm)) hnd'
      (fun m hm => hv m (List.mem_cons_of_mem _ hm))
      (loadLine engine l (n + 1) (assignmentLine first (values first))) (n + 1)
    simp only [List.map_cons, loadLines, hskipped, hcvars]
    by_cases hempty : values first = []
    · rw [hstep, if_pos hempty]
      refine ⟨?_, ?_, ?_⟩
      · simp only [List.filter_cons, hempty, decide_true, if_true, List.length_cons]
        omega
      · intro name
        by_cases he : name = first
        · subst he
          simp [hempty]
        · simp [he]
      · intro hall
        exact absurd hempty (hall first List.mem_cons_self)
    · rw [hstep, if_neg hempty] at hprinted ⊢
      refine ⟨?_, ?_, ?_⟩
      · simp [hempty]
      · intro name
        by_cases he : name = first
        · subst he
          simp [hempty, hset, hfirst]
        · simp [he, hset]
      · intro hall
        exact hprinted fun m hm => hall m (List.mem_cons_of_mem _ hm)

/-- Every registered setting holds what one line can carry. -/
def Writable (cvars : engine.Cvars) : Prop :=
  ∀ name ∈ knownNames, PlainValue (engine.cvarString cvars name)

/-- Reading a generated config back comes down to its assignment lines: the notice and the help
pass, whatever the values are. -/
theorem loadConfigFile_written {written : engine.Cvars} (hw : Writable engine written)
    (fresh : engine.Cvars) (path : Text) :
    ∃ file, writeDefaultConfig engine written path true true = .ok file ∧
      loadConfigFile engine fresh path (some file) false =
        (loadLines engine { cvars := fresh } 0 (knownNames.map (fun name =>
          assignmentLine name (engine.cvarString written name))), none) := by
  refine ⟨_, rfl, ?_⟩
  have hassigned : g_settings.map (fun setting =>
      assignmentLine setting.cvar.name (engine.cvarString written setting.cvar.name)) =
      knownNames.map (fun name => assignmentLine name (engine.cvarString written name)) := by
    rw [knownNames, List.map_map]
    rfl
  have hpassed : ∀ line ∈ notice ++ g_settings.map (fun setting =>
      helpLine setting (engine.cvarString written setting.cvar.name)), Passed line := by
    intro line hl
    rcases List.mem_append.mp hl with hl | hl
    · exact (comments_checked.2 line hl).2
    · obtain ⟨setting, -, rfl⟩ := List.mem_map.mp hl
      exact helpLine_passed setting _
  simp only [loadConfigFile, getLines_flatMap (configLines_newline engine hw), Bool.false_eq_true,
    if_false]
  rw [configLines, List.append_assoc, loadLines_append, loadLines_passed engine _ _ hpassed,
    hassigned]

/-- A generated config restores every setting and reports nothing exactly when no value is
empty. -/
theorem config_round_trip_iff (written fresh : engine.Cvars) (path : Text)
    (hw : Writable engine written) :
    ∃ file, writeDefaultConfig engine written path true true = .ok file ∧
      (((∀ setting ∈ g_settings,
          engine.cvarString (loadConfigFile engine fresh path (some file) false).1.cvars
            setting.cvar.name = engine.cvarString written setting.cvar.name) ∧
        (loadConfigFile engine fresh path (some file) false).1.skipped = 0 ∧
        (loadConfigFile engine fresh path (some file) false).1.printed = []) ↔
      ∀ setting ∈ g_settings, engine.cvarString written setting.cvar.name ≠ []) := by
  obtain ⟨file, hfile, hload⟩ := loadConfigFile_written engine hw fresh path
  obtain ⟨hskipped, hcvars, hprinted⟩ := loadLines_written engine (fun _ hn => hn) knownNames_checked.1
    hw { cvars := fresh } 0
  refine ⟨file, hfile, ?_⟩
  rw [hload]
  simp only [hskipped, hcvars]
  have hmem : ∀ setting ∈ g_settings, setting.cvar.name ∈ knownNames :=
    fun setting hs => List.mem_map_of_mem hs
  constructor
  · intro hexact setting hs hempty
    have hcounted : setting.cvar.name ∈ knownNames.filter
        (fun name => decide (engine.cvarString written name = [])) := by
      simp [hmem setting hs, hempty]
    have hpos := List.length_pos_of_mem hcounted
    have hzero := hexact.2.1
    omega
  · intro hall
    have hnames : ∀ name ∈ knownNames, engine.cvarString written name ≠ [] := by
      intro name hn
      obtain ⟨setting, hs, rfl⟩ := List.mem_map.mp hn
      exact hall setting hs
    have hnone : knownNames.filter (fun name => decide (engine.cvarString written name = [])) = [] := by
      simpa [List.filter_eq_nil_iff] using hnames
    refine ⟨?_, ?_, hprinted hnames⟩
    · intro setting hs
      rw [if_pos ⟨hmem setting hs, hall setting hs⟩]
    · rw [hnone]
      rfl

/-- Console variables as a plain map. -/
def mapEngine : Engine where
  Cvars := Text → Text
  cvarString cvars name := cvars name
  cvarSetString cvars name value := fun other => if other = name then value else cvars other
  string_set _ _ _ _ _ := rfl

/-- The strings the settings are registered with. -/
def registered (name : Text) : Text :=
  ((g_settings.find? (fun setting => decide (setting.cvar.name = name))).map
    (fun setting => setting.cvar.string)).getD []

/-- An address with slashes and blanks comes back as it was. -/
theorem config_round_trip_iff_url :
    ∃ file, writeDefaultConfig mapEngine (fun _ => text "http://a b//c") [] true true = .ok file ∧
      (loadConfigFile mapEngine registered [] (some file) false).1.skipped = 0 := by
  have hurl : text "http://a b//c" =
    ['h', 't', 't', 'p', ':', '/', '/', 'a', ' ', 'b', '/', '/', 'c'] := text_eq rfl
  have hplain : PlainValue (text "http://a b//c") := by
    rw [hurl]
    exact forall_of_all rfl
  obtain ⟨file, hfile, hiff⟩ := config_round_trip_iff mapEngine (fun _ => text "http://a b//c")
    registered [] (fun _ _ => hplain)
  have hsome : text "http://a b//c" ≠ [] := by simp [hurl]
  exact ⟨file, hfile, (hiff.mpr fun _ _ => hsome).2.1⟩

/-- The root-level files denied by an empty value, everything else set. -/
def denyRoot (name : Text) : Text :=
  if name = text "fastdl_serve_root_types" then [] else text "1"

/-- The empty value is skipped with a report. -/
theorem empty_value_not_restored :
    ¬ ∀ (engine : Engine) (written fresh : engine.Cvars) (path : Text), Writable engine written →
      ∃ file, writeDefaultConfig engine written path true true = .ok file ∧
        (∀ setting ∈ g_settings,
          engine.cvarString (loadConfigFile engine fresh path (some file) false).1.cvars
            setting.cvar.name = engine.cvarString written setting.cvar.name) ∧
        (loadConfigFile engine fresh path (some file) false).1.skipped = 0 := by
  intro hclaim
  have hone : text "1" = ['1'] := text_eq rfl
  have hw : Writable mapEngine denyRoot := by
    intro name _
    change PlainValue (denyRoot name)
    unfold denyRoot
    split
    · simp [PlainValue]
    · rw [hone]
      exact forall_of_all rfl
  obtain ⟨file, hfile, hcvars, hskipped⟩ := hclaim mapEngine denyRoot registered [] hw
  obtain ⟨file', hfile', hload⟩ := loadConfigFile_written mapEngine hw registered []
  obtain ⟨hcount, -⟩ := loadLines_written mapEngine (fun _ hn => hn) knownNames_checked.1 hw
    { cvars := registered } 0
  have hsame : file = file' := by
    rw [hfile] at hfile'
    exact Except.ok.inj hfile'
  have hmem : text "fastdl_serve_root_types" ∈
      knownNames.filter (fun name => decide (mapEngine.cvarString denyRoot name = [])) := by
    have hempty : mapEngine.cvarString denyRoot (text "fastdl_serve_root_types") = [] := if_pos rfl
    have hknown : text "fastdl_serve_root_types" ∈ knownNames := by simp [knownNames, g_settings]
    simp [hempty, hknown]
  have hpos := List.length_pos_of_mem hmem
  rw [hsame, hload] at hskipped
  simp only [hcount] at hskipped
  omega

end FastdlMm.Config
