import FastdlMm.Config.ConfigParser

namespace FastdlMm.MetaPlugin

/-- What the engine holds as the string of a console variable. -/
structure CvarString where
  value : Text
  plain : ∀ c ∈ value, c ≠ '\x00'

/-- The engine takes what it is given as a C string. -/
def cvarString (value : Text) : CvarString :=
  ⟨cString value, fun _ hc => by simpa using List.mem_takeWhile_imp hc⟩

theorem cvarString_value (v : CvarString) : cvarString v.value = v := by
  have hself : cString v.value = v.value :=
    List.takeWhile_eq_self_iff.mpr (by simpa using v.plain)
  cases v
  simpa [cvarString] using hself

/-- What `readConfig` reads for the public URL. -/
structure FastdlConfig where
  enabled : Bool
  autoDownloadUrl : Bool
  publicUrl : Text

/-- How `FastdlServer::start` ends. -/
inductive StartOutcome where
  | started
  | failed
  | threw
  deriving DecidableEq

/-- The plugin's record of `sv_downloadurl`, beside the variable itself. -/
structure PluginState where
  sv_downloadurl : CvarString
  g_downloadUrlManaged : Bool
  g_previousDownloadUrl : Text

def normalizedPublicUrl (configured : Text) : Option Text :=
  let normalized := Config.trim configured
  if ¬ (text "http://").isPrefixOf normalized ∨ normalized.length < 8 then none
  else if normalized.any (fun c => c.toNat ≤ 0x20 || c.toNat = 0x7f || c = '"' || c = '#') then none
  else
    let authority := (normalized.drop 7).takeWhile (· ≠ '/')
    if authority = [] ∨ authority.head? = some ':' ∨ authority.getLast? = some ':' then none
    else
      let normalized :=
        if normalized.getLast? = some '/' then normalized else normalized ++ ['/']
      if normalized.length ≤ 127 then some normalized else none

def restoreDownloadUrl (s : PluginState) : PluginState :=
  if s.g_downloadUrlManaged then
    { sv_downloadurl := cvarString s.g_previousDownloadUrl
      g_previousDownloadUrl := []
      g_downloadUrlManaged := false }
  else s

def configureDownloadUrl (config : FastdlConfig) (s : PluginState) : PluginState :=
  if ¬ config.autoDownloadUrl then s
  else
    match normalizedPublicUrl config.publicUrl with
    | none => s
    | some url =>
        { sv_downloadurl := cvarString url
          g_previousDownloadUrl := s.sv_downloadurl.value
          g_downloadUrlManaged := true }

def startServer (config : FastdlConfig) (outcome : StartOutcome) (s : PluginState) : PluginState :=
  let s := restoreDownloadUrl s
  if ¬ config.enabled then s
  else
    match outcome with
    | .started => configureDownloadUrl config s
    | .failed => s
    | .threw => s

def metaDetach (s : PluginState) : PluginState := restoreDownloadUrl s

/-- What may happen: the plugin is started or restarted, it is detached, or somebody else sets the
variable. -/
inductive Event where
  | startServer (config : FastdlConfig) (outcome : StartOutcome)
  | metaDetach
  | write (value : Text)

def step (s : PluginState) : Event → PluginState
  | .startServer config outcome => startServer config outcome s
  | .metaDetach => metaDetach s
  | .write value => { s with sv_downloadurl := cvarString value }

/-- The plugin as it is loaded, with any value of the variable. -/
def loaded (initial : CvarString) : PluginState := ⟨initial, false, []⟩

/-- The plugin with what others gave the variable: their last value, and their last value while the
plugin did not manage the variable. -/
structure Session where
  plugin : PluginState
  given : CvarString
  givenUnmanaged : CvarString

def Session.step (s : Session) : Event → Session
  | .write value =>
      { plugin := MetaPlugin.step s.plugin (.write value)
        given := cvarString value
        givenUnmanaged :=
          if s.plugin.g_downloadUrlManaged then s.givenUnmanaged else cvarString value }
  | event => { s with plugin := MetaPlugin.step s.plugin event }

/-- The session after some events; until somebody sets the variable, it counts as given its first
value. -/
def session (initial : CvarString) (events : List Event) : Session :=
  events.foldl Session.step ⟨loaded initial, initial, initial⟩

/-- The value given while unmanaged is in the variable, or saved while the plugin manages it. -/
structure Session.Remembers (s : Session) : Prop where
  unmanaged : s.plugin.g_downloadUrlManaged = false → s.plugin.sv_downloadurl = s.givenUnmanaged
  managed : s.plugin.g_downloadUrlManaged = true →
    s.plugin.g_previousDownloadUrl = s.givenUnmanaged.value

theorem restoreDownloadUrl_unmanaged (s : PluginState) :
    (restoreDownloadUrl s).g_downloadUrlManaged = false := by
  unfold restoreDownloadUrl
  split_ifs with h
  · rfl
  · simpa using h

/-- A published URL is plain: nothing of it is lost to a C string, and it ends with a slash. -/
theorem normalizedPublicUrl_plain {configured url : Text}
    (h : normalizedPublicUrl configured = some url) :
    (∀ c ∈ url, c ≠ '\x00') ∧ url.getLast? = some '/' ∧ url.length ≤ 127 := by
  unfold normalizedPublicUrl at h
  simp only at h
  split_ifs at h with _ hcontrol _ hlast hlong hlong
  · cases h
    refine ⟨?_, hlast, hlong⟩
    rintro c hc rfl
    exact hcontrol (List.any_eq_true.mpr ⟨_, hc, by decide⟩)
  · cases h
    refine ⟨?_, by simp, hlong⟩
    rintro c hc rfl
    rcases List.mem_append.mp hc with hc | hc
    · exact hcontrol (List.any_eq_true.mpr ⟨_, hc, by decide⟩)
    · simp at hc

/-- After a start that succeeds in automatic mode, clients read the normalized URL. -/
theorem startServer_published {config : FastdlConfig} {url : Text} (s : PluginState)
    (henabled : config.enabled = true) (hauto : config.autoDownloadUrl = true)
    (hurl : normalizedPublicUrl config.publicUrl = some url) :
    (startServer config .started s).g_downloadUrlManaged = true ∧
      (startServer config .started s).sv_downloadurl.value = url := by
  have hplain : cString url = url :=
    List.takeWhile_eq_self_iff.mpr (by simpa using (normalizedPublicUrl_plain hurl).1)
  simp only [startServer, henabled, configureDownloadUrl, hauto, hurl, not_true_eq_false, if_false]
  exact ⟨trivial, hplain⟩

/-- Restoring brings back the value given while unmanaged. -/
theorem Session.Remembers.restore {s : Session} (h : s.Remembers) :
    (restoreDownloadUrl s.plugin).sv_downloadurl = s.givenUnmanaged := by
  unfold restoreDownloadUrl
  split_ifs with hmanaged
  · show cvarString s.plugin.g_previousDownloadUrl = s.givenUnmanaged
    rw [h.managed hmanaged, cvarString_value]
  · exact h.unmanaged (by simpa using hmanaged)

/-- What managing saves is the value that was there. -/
theorem configureDownloadUrl_saves (config : FastdlConfig) {s : PluginState}
    (h : s.g_downloadUrlManaged = false) :
    ((configureDownloadUrl config s).g_downloadUrlManaged = false →
        (configureDownloadUrl config s).sv_downloadurl = s.sv_downloadurl) ∧
      ((configureDownloadUrl config s).g_downloadUrlManaged = true →
        (configureDownloadUrl config s).g_previousDownloadUrl = s.sv_downloadurl.value) := by
  have hself : (s.g_downloadUrlManaged = false → s.sv_downloadurl = s.sv_downloadurl) ∧
      (s.g_downloadUrlManaged = true → s.g_previousDownloadUrl = s.sv_downloadurl.value) := by
    refine ⟨fun _ => rfl, fun hmanaged => ?_⟩
    rw [h] at hmanaged
    cases hmanaged
  unfold configureDownloadUrl
  by_cases hauto : config.autoDownloadUrl = true
  · rw [if_neg (not_not.mpr hauto)]
    split
    · exact hself
    · exact ⟨fun hfalse => by simp at hfalse, fun _ => rfl⟩
  · rw [if_pos hauto]
    exact hself

theorem Session.Remembers.startServer {s : Session} (h : s.Remembers) (config : FastdlConfig)
    (outcome : StartOutcome) : (s.step (.startServer config outcome)).Remembers := by
  have hrestore := h.restore
  have hunmanaged := restoreDownloadUrl_unmanaged s.plugin
  have hplain : Session.Remembers { s with plugin := restoreDownloadUrl s.plugin } := by
    refine ⟨fun _ => hrestore, fun hmanaged => ?_⟩
    rw [hunmanaged] at hmanaged
    cases hmanaged
  show Session.Remembers { s with plugin := MetaPlugin.startServer config outcome s.plugin }
  unfold MetaPlugin.startServer
  by_cases henabled : config.enabled = true
  · simp only [if_neg (not_not.mpr henabled)]
    cases outcome with
    | started =>
      obtain ⟨hfalse, htrue⟩ := configureDownloadUrl_saves config hunmanaged
      rw [hrestore] at hfalse htrue
      exact ⟨hfalse, htrue⟩
    | failed => exact hplain
    | threw => exact hplain
  · simp only [if_pos henabled]
    exact hplain

theorem Session.Remembers.step {s : Session} (h : s.Remembers) (event : Event) :
    (s.step event).Remembers := by
  cases event with
  | startServer config outcome => exact h.startServer config outcome
  | metaDetach =>
    refine ⟨fun _ => h.restore, fun hmanaged => ?_⟩
    have hunmanaged := restoreDownloadUrl_unmanaged s.plugin
    exact absurd (hmanaged.symm.trans hunmanaged) (by decide)
  | write value =>
    constructor
    · intro hunmanaged
      have hfalse : s.plugin.g_downloadUrlManaged = false := hunmanaged
      simp [Session.step, MetaPlugin.step, hfalse]
    · intro hmanaged
      have htrue : s.plugin.g_downloadUrlManaged = true := hmanaged
      simpa [Session.step, MetaPlugin.step, htrue] using h.managed htrue

theorem session_remembers (initial : CvarString) (events : List Event) :
    (session initial events).Remembers := by
  have hrun : ∀ s : Session, s.Remembers → (events.foldl Session.step s).Remembers := by
    induction events with
    | nil => exact fun _ h => h
    | cons event rest ih => exact fun s h => ih _ (h.step event)
  apply hrun
  exact ⟨fun _ => rfl, fun hmanaged => by cases hmanaged⟩

/-- Whenever the plugin does not manage the variable, it holds the last value that somebody else
gave it while the plugin did not. -/
theorem sv_downloadurl_kept (initial : CvarString) (events : List Event)
    (h : (session initial events).plugin.g_downloadUrlManaged = false) :
    (session initial events).plugin.sv_downloadurl = (session initial events).givenUnmanaged :=
  (session_remembers initial events).unmanaged h

/-- Automatic mode with the URL `http://h`. -/
def autoConfig : FastdlConfig := ⟨true, true, ['h', 't', 't', 'p', ':', '/', '/', 'h']⟩

theorem normalizedPublicUrl_autoConfig : normalizedPublicUrl autoConfig.publicUrl =
    some ['h', 't', 't', 'p', ':', '/', '/', 'h', '/'] := by
  have hscheme : text "http://" = ['h', 't', 't', 'p', ':', '/', '/'] := text_eq rfl
  rw [normalizedPublicUrl, hscheme]
  decide

/-- An operator edits the variable while the plugin manages it, then disables the plugin. -/
def editWhileManaged : List Event :=
  [.startServer autoConfig .started, .write ['b'], .startServer ⟨false, true, []⟩ .failed]

theorem session_editWhileManaged : session (cvarString ['a']) editWhileManaged =
    ⟨⟨cvarString ['a'], false, []⟩, cvarString ['b'], cvarString ['a']⟩ := by
  have hsaved : (cvarString ['a']).value = ['a'] := by decide
  have hurl := normalizedPublicUrl_autoConfig
  have hstarted : startServer autoConfig .started (loaded (cvarString ['a'])) =
      ⟨cvarString ['h', 't', 't', 'p', ':', '/', '/', 'h', '/'], true, ['a']⟩ := by
    have henabled : autoConfig.enabled = true := rfl
    have hauto : autoConfig.autoDownloadUrl = true := rfl
    simp [startServer, restoreDownloadUrl, loaded, configureDownloadUrl, hurl, hsaved, henabled,
      hauto]
  have hfirst : Session.step ⟨loaded (cvarString ['a']), cvarString ['a'], cvarString ['a']⟩
      (.startServer autoConfig .started) =
        ⟨⟨cvarString ['h', 't', 't', 'p', ':', '/', '/', 'h', '/'], true, ['a']⟩,
          cvarString ['a'], cvarString ['a']⟩ := by
    simp only [Session.step, MetaPlugin.step, hstarted]
  rw [session, editWhileManaged, List.foldl_cons, hfirst]
  rfl

/-- A value given while the plugin manages the variable is lost when the plugin is disabled. -/
theorem given_lost :
    (session (cvarString ['a']) editWhileManaged).plugin.g_downloadUrlManaged = false ∧
      (session (cvarString ['a']) editWhileManaged).plugin.sv_downloadurl ≠
        (session (cvarString ['a']) editWhileManaged).given := by
  rw [session_editWhileManaged]
  refine ⟨rfl, fun h => ?_⟩
  have hvalue : (cvarString ['a']).value = (cvarString ['b']).value := congrArg CvarString.value h
  revert hvalue
  decide

theorem sv_downloadurl_kept_edit :
    (session (cvarString ['a']) editWhileManaged).plugin.sv_downloadurl =
      (session (cvarString ['a']) editWhileManaged).givenUnmanaged :=
  sv_downloadurl_kept (cvarString ['a']) editWhileManaged (by rw [session_editWhileManaged])

end FastdlMm.MetaPlugin
