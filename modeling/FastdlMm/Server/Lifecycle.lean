import FastdlMm.Config.ReadConfig
import FastdlMm.Framework.Script

namespace FastdlMm.Lifecycle

/-- What the calls inside one `FastdlServer::start` answer. The cache explains why it does not run. -/
structure StartCalls where
  resolver : Except Text PathResolver
  compression : Option Text
  explained : compression ≠ some []
  logger : Bool
  inetPton : Bool
  daemon : Bool

/-- What the game thread does to the members of the server and of the plugin. -/
inductive Act where
  | stopBandwidth
  | stopDaemon
  | stopCompression
  | stopLogger
  | clearLogging
  | clearLimiter
  | setConfig (config : FastdlConfig)
  | configureResolver (result : Except Text PathResolver)
  | clearCompressionError
  | startCompression (calls : StartCalls)
  | startLogger (ok : Bool)
  | configureBandwidth
  | resetMetrics
  | startDaemon (ok : Bool)
  | restoreDownloadUrl
  | configureDownloadUrl (config : FastdlConfig)
  | register
  | takePending

def stop : List Act :=
  [.stopBandwidth, .stopDaemon, .stopCompression, .stopLogger, .clearLogging, .clearLimiter]

/-- What `start` stops where it fails after the logger. -/
def abandon : List Act := [.stopLogger, .stopBandwidth, .stopCompression, .clearLogging]

def anyAddress (bindAddress : Text) : Bool :=
  decide (bindAddress = [] ∨ bindAddress = text "0.0.0.0" ∨ bindAddress = ['*'])

/-- The acts of `start`, and whether it succeeds. -/
def start (config : FastdlConfig) (calls : StartCalls) : List Act × Bool :=
  let begin := stop ++ [.setConfig config]
  if !config.enabled then (begin, true)
  else
    match calls.resolver with
    | .error _ => (begin ++ [.configureResolver calls.resolver], false)
    | .ok _ =>
        let ready := begin ++ [.configureResolver calls.resolver, .clearCompressionError] ++
          (if config.gzip && config.gzipCache then [.startCompression calls] else []) ++
          [.startLogger calls.logger, .configureBandwidth, .resetMetrics]
        if !anyAddress config.bindAddress && !calls.inetPton then (ready ++ abandon, false)
        else if !calls.daemon then (ready ++ [.startDaemon false] ++ abandon, false)
        else (ready ++ [.startDaemon true], true)

def startServer (config : FastdlConfig) (calls : StartCalls) : List Act :=
  if !config.enabled then .restoreDownloadUrl :: stop
  else if !(start config calls).2 then .restoreDownloadUrl :: (start config calls).1
  else .restoreDownloadUrl :: (start config calls).1 ++ [.configureDownloadUrl config]

/-- The members of the server and of the plugin. Of the parts with threads of their own only whether
these are to run; the resolver is none before its first `configure`. -/
structure Parts where
  config : FastdlConfig := {}
  resolver : Option PathResolver := none
  daemon : Bool := false
  compression : Bool := false
  compressionError : Text := []
  logger : Bool := false
  logging : Bool := false
  bandwidth : Bool := false
  url : MetaPlugin.PluginState
  g_registered : Bool := false
  g_startPending : Bool := false
  /-- History: the starts that `startFrame` has made. -/
  deferredStarts : Nat := 0

namespace Act

def perform : Act → Parts → Parts
  | .stopBandwidth, p => { p with bandwidth := false }
  | .stopDaemon, p => { p with daemon := false }
  | .stopCompression, p => { p with compression := false }
  | .stopLogger, p => { p with logger := false }
  | .clearLogging, p => { p with logging := false }
  | .clearLimiter, p => p
  | .setConfig config, p => { p with config := config }
  | .configureResolver result, p =>
      match result with
      | .ok resolver => { p with resolver := some resolver }
      | .error _ => p
  | .clearCompressionError, p => { p with compressionError := [] }
  | .startCompression calls, p =>
      match calls.compression with
      | none => { p with compression := true }
      | some error => { p with compressionError := error }
  | .startLogger ok, p => { p with logger := ok, logging := ok }
  | .configureBandwidth, p => { p with bandwidth := true }
  | .resetMetrics, p => p
  | .startDaemon ok, p => { p with daemon := ok }
  | .restoreDownloadUrl, p => { p with url := MetaPlugin.restoreDownloadUrl p.url }
  | .configureDownloadUrl config, p =>
      { p with url := MetaPlugin.configureDownloadUrl config.download p.url }
  | .register, p => { p with g_registered := true, g_startPending := true }
  | .takePending, p => { p with g_startPending := false, deferredStarts := p.deferredStarts + 1 }

/-- An exception in it is caught by the plugin; else `start` catches it and stops. -/
def ofPlugin : Act → Bool
  | .restoreDownloadUrl | .configureDownloadUrl _ | .register | .takePending => true
  | _ => false

/-- Stopping does not throw, nor does libmicrohttpd. -/
def mayThrow : Act → Bool
  | .stopBandwidth | .stopDaemon | .stopCompression | .stopLogger | .clearLogging | .clearLimiter
  | .startDaemon _ => false
  | _ => true

/-- What the act changes, threads of the server read or write without a lock: the callbacks of
libmicrohttpd, the worker of the cache, or that of the logger. -/
def Alone (p : Parts) : Act → Prop
  | .setConfig _ | .configureBandwidth | .resetMetrics | .stopLogger => p.daemon = false
  | .configureResolver _ | .startCompression _ => p.daemon = false ∧ p.compression = false
  | .startLogger _ => p.daemon = false ∧ p.logger = false
  | .startDaemon _ => p.daemon = false ∧ p.bandwidth = true
  | _ => True

end Act

/-- The server between two commands: the daemon runs with its bandwidth limits, and logs if the
logger runs, or nothing of the server runs. A URL is managed for a running server only, and a cache
that the settings ask for runs or says why not. -/
structure AtRest (p : Parts) : Prop where
  stopped : p.daemon = false →
    p.bandwidth = false ∧ p.compression = false ∧ p.logger = false ∧ p.logging = false
  running : p.daemon = true → p.bandwidth = true ∧ p.logging = p.logger
  cache : p.daemon = true → p.compression = false → p.config.gzip = true →
    p.config.gzipCache = true → p.compressionError ≠ []
  managed : p.url.g_downloadUrlManaged = true → p.daemon = true ∧ p.config.autoDownloadUrl = true

/-- What callbacks of libmicrohttpd count on. -/
def Ready (p : Parts) : Prop :=
  p.daemon = true → p.config.enabled = true ∧ p.resolver.isSome

/-- The plugin starts the server once after it has registered. -/
def Deferred (p : Parts) : Prop :=
  p.deferredStarts + p.g_startPending.toNat = p.g_registered.toNat

/-- What an act needs. Where it can throw, the plugin gives up at once and has to be at rest, or the
server stops, without a URL that it manages. -/
def Needs (a : Act) (p : Parts) : Prop :=
  a.Alone p ∧ Ready (a.perform p) ∧ Deferred (a.perform p) ∧
    (a.mayThrow = true →
      if a.ofPlugin then AtRest p ∧ AtRest (a.perform p)
      else p.url.g_downloadUrlManaged = false)

/-- The process: what the game thread still has to do, and how many callbacks run. -/
structure Process where
  parts : Parts
  acts : List Act := []
  inRequest : Nat := 0

inductive Event where
  | gameInit
  | startFrame (config : FastdlConfig) (calls : StartCalls)
  | commandRestart (config : FastdlConfig) (calls : StartCalls)
  | metaDetach
  /-- The game thread performs its next act, or that throws, performed or not. -/
  | act
  | throws (performed : Bool)
  /-- A thread of libmicrohttpd enters a callback or leaves it. -/
  | enter
  | leave

/-- What the game thread calls of the plugin, one call at a time. -/
def Process.call (s : Process) (acts : List Act) : Option Process :=
  if s.acts = [] then some { s with acts := acts } else none

def Process.step (s : Process) : Event → Option Process
  | .gameInit => s.call (if s.parts.g_registered then [] else [.register])
  | .startFrame config calls =>
      s.call (if s.parts.g_startPending then .takePending :: startServer config calls else [])
  | .commandRestart config calls => s.call (startServer config calls)
  | .metaDetach => s.call (.restoreDownloadUrl :: stop)
  | .act =>
      match s.acts with
      | [] => none
      | a :: rest =>
          -- `MHD_stop_daemon` waits for the callbacks
          if s.parts.daemon && !(a.perform s.parts).daemon && s.inRequest ≠ 0 then none
          else some { s with parts := a.perform s.parts, acts := rest }
  | .throws performed =>
      match s.acts with
      | [] => none
      | a :: _ =>
          if !a.mayThrow then none
          else
            some { s with
              parts := if performed then a.perform s.parts else s.parts
              acts := if a.ofPlugin then [] else stop }
  | .enter => if s.parts.daemon then some { s with inRequest := s.inRequest + 1 } else none
  | .leave => if s.inRequest = 0 then none else some { s with inRequest := s.inRequest - 1 }

/-- A script that leads to rest if each of its acts finds what it needs. -/
abbrev Leads (ends : Parts → Prop) (acts : List Act) (p : Parts) : Prop :=
  Checked Act.perform Needs ends acts p

/-- No daemon, and no URL managed. -/
structure Idle (p : Parts) : Prop where
  daemon : p.daemon = false
  unmanaged : p.url.g_downloadUrlManaged = false
  deferred : Deferred p

/-- All is stopped. -/
structure Down (p : Parts) : Prop extends Idle p where
  bandwidth : p.bandwidth = false
  compression : p.compression = false
  logger : p.logger = false
  logging : p.logging = false

theorem Idle.ready {p : Parts} (h : Idle p) : Ready p := by
  intro hup
  rw [h.daemon] at hup
  cases hup

theorem Down.atRest {p : Parts} (h : Down p) : AtRest p where
  stopped := fun _ => ⟨h.bandwidth, h.compression, h.logger, h.logging⟩
  running := fun hup => by simp [h.daemon] at hup
  cache := fun hup => by simp [h.daemon] at hup
  managed := fun hmanaged => by simp [h.unmanaged] at hmanaged

/-- An act of the server that leaves it idle needs no more than to be alone. -/
theorem needs_of_idle {a : Act} {p : Parts} (hplugin : a.ofPlugin = false) (halone : a.Alone p)
    (hidle : Idle p) (hkeeps : Idle (a.perform p)) : Needs a p := by
  refine ⟨halone, hkeeps.ready, hkeeps.deferred, fun _ => ?_⟩
  rw [hplugin, if_neg Bool.false_ne_true]
  exact hidle.unmanaged

theorem leads_stop {p : Parts} (hready : Ready p) (hdeferred : Deferred p)
    (hurl : p.url.g_downloadUrlManaged = false) : Leads Down stop p := by
  have hidle : Idle { p with bandwidth := false, daemon := false } := ⟨rfl, hurl, hdeferred⟩
  refine ⟨⟨trivial, hready, hdeferred, nofun⟩, ⟨trivial, hidle.ready, hdeferred, nofun⟩, ?_⟩
  refine ⟨needs_of_idle rfl trivial hidle ⟨rfl, hurl, hdeferred⟩, ?_⟩
  refine ⟨needs_of_idle rfl rfl ⟨rfl, hurl, hdeferred⟩ ⟨rfl, hurl, hdeferred⟩, ?_⟩
  refine ⟨needs_of_idle rfl trivial ⟨rfl, hurl, hdeferred⟩ ⟨rfl, hurl, hdeferred⟩, ?_⟩
  refine ⟨needs_of_idle rfl trivial ⟨rfl, hurl, hdeferred⟩ ⟨rfl, hurl, hdeferred⟩, ?_⟩
  exact ⟨⟨rfl, hurl, hdeferred⟩, rfl, rfl, rfl, rfl⟩

/-- The calls succeed that `start` gives up without. The logger and the cache are not among them. -/
structure StartCalls.Suffice (calls : StartCalls) (config : FastdlConfig) : Prop where
  resolver : ∃ r, calls.resolver = .ok r
  address : anyAddress config.bindAddress = true ∨ calls.inetPton = true
  daemon : calls.daemon = true

/-- Whether the cache runs after a start that is not given up. -/
def StartCalls.caches (calls : StartCalls) (config : FastdlConfig) : Bool :=
  config.gzip && config.gzipCache && calls.compression.isNone

/-- A start with these settings has come to its cache: it runs, or it is off, or it says why not. -/
structure Prepared (config : FastdlConfig) (calls : StartCalls) (p : Parts) : Prop
    extends Idle p where
  config_eq : p.config = config
  resolver : p.resolver.isSome
  compression : p.compression = calls.caches config
  cache : p.compression = false → config.gzip = true → config.gzipCache = true →
    p.compressionError ≠ []
  logger : p.logger = false

/-- Then the other parts run, and the daemon may be started. -/
structure Launching (config : FastdlConfig) (calls : StartCalls) (p : Parts) : Prop
    extends Idle p where
  config_eq : p.config = config
  resolver : p.resolver.isSome
  compression : p.compression = calls.caches config
  cache : p.compression = false → config.gzip = true → config.gzipCache = true →
    p.compressionError ≠ []
  bandwidth : p.bandwidth = true
  logger : p.logger = calls.logger
  logging : p.logging = p.logger

/-- The daemon of a start with these settings is up, and the URL is as the operator left it. -/
structure Up (config : FastdlConfig) (calls : StartCalls) (p : Parts) : Prop where
  daemon : p.daemon = true
  config_eq : p.config = config
  compression : p.compression = calls.caches config
  logger : p.logger = calls.logger
  ready : Ready p
  deferred : Deferred p
  rest : AtRest p
  unmanaged : p.url.g_downloadUrlManaged = false

section Start

variable {config : FastdlConfig} {calls : StartCalls} {p : Parts}

theorem leads_begin (hready : Ready p) (hdeferred : Deferred p)
    (hurl : p.url.g_downloadUrlManaged = false) :
    Leads (fun p => Down p ∧ p.config = config) (stop ++ [.setConfig config]) p := by
  refine checked_append.mpr ((leads_stop hready hdeferred hurl).mono ?_)
  intro p hdown
  have hset : Idle (Act.perform (.setConfig config) p) :=
    ⟨hdown.daemon, hdown.unmanaged, hdown.deferred⟩
  refine ⟨needs_of_idle rfl hdown.daemon hdown.toIdle hset, ?_, rfl⟩
  exact ⟨hset, hdown.bandwidth, hdown.compression, hdown.logger, hdown.logging⟩

theorem leads_resolver (h : Down p) (hconfig : p.config = config) (r : PathResolver) :
    Leads (Prepared config calls) ([.configureResolver (.ok r), .clearCompressionError] ++
      (if config.gzip && config.gzipCache then [.startCompression calls] else [])) p := by
  have hidle (resolver : Option PathResolver) (compression : Bool) (error : Text) :
      Idle { p with resolver := resolver, compression := compression, compressionError := error } :=
    ⟨h.daemon, h.unmanaged, h.deferred⟩
  refine ⟨needs_of_idle rfl ⟨h.daemon, h.compression⟩ h.toIdle (hidle (some r) p.compression _), ?_⟩
  refine ⟨needs_of_idle rfl trivial (hidle (some r) p.compression _)
    (hidle (some r) p.compression []), ?_⟩
  split_ifs with hgzip
  · cases herror : calls.compression with
    | none =>
      have hperform : Act.perform (.startCompression calls)
          { p with resolver := some r, compressionError := [] } =
            { p with resolver := some r, compressionError := [], compression := true } := by
        rw [Act.perform, herror]
      refine ⟨needs_of_idle rfl ⟨h.daemon, h.compression⟩ (hidle (some r) p.compression []) ?_, ?_⟩
      · show Idle (Act.perform (.startCompression calls)
          { p with resolver := some r, compressionError := [] })
        rw [hperform]
        exact hidle (some r) true []
      · show Prepared config calls (Act.perform (.startCompression calls)
          { p with resolver := some r, compressionError := [] })
        rw [hperform]
        refine ⟨hidle (some r) true [], hconfig, rfl, ?_, nofun, h.logger⟩
        simp [StartCalls.caches, hgzip, herror]
    | some error =>
      have hperform : Act.perform (.startCompression calls)
          { p with resolver := some r, compressionError := [] } =
            { p with resolver := some r, compressionError := error } := by
        rw [Act.perform, herror]
      have hne : error ≠ [] := by
        rintro rfl
        exact calls.explained herror
      refine ⟨needs_of_idle rfl ⟨h.daemon, h.compression⟩ (hidle (some r) p.compression []) ?_, ?_⟩
      · show Idle (Act.perform (.startCompression calls)
          { p with resolver := some r, compressionError := [] })
        rw [hperform]
        exact hidle (some r) p.compression error
      · show Prepared config calls (Act.perform (.startCompression calls)
          { p with resolver := some r, compressionError := [] })
        rw [hperform]
        refine ⟨hidle (some r) p.compression error, hconfig, rfl, ?_, fun _ _ _ => hne, h.logger⟩
        simp [StartCalls.caches, h.compression, herror]
  · refine ⟨hidle (some r) p.compression [], hconfig, rfl, ?_, fun _ hzip hcache => ?_, h.logger⟩
    · show p.compression = _
      rw [h.compression, StartCalls.caches, Bool.eq_false_iff.mpr hgzip, Bool.false_and]
    · exact absurd (by rw [hzip, hcache]; rfl) hgzip

theorem leads_logger (h : Prepared config calls p) :
    Leads (Launching config calls) [.startLogger calls.logger, .configureBandwidth, .resetMetrics]
      p := by
  have hidle (logger bandwidth : Bool) :
      Idle { p with logger := logger, logging := logger, bandwidth := bandwidth } :=
    ⟨h.daemon, h.unmanaged, h.deferred⟩
  refine ⟨needs_of_idle rfl ⟨h.daemon, h.logger⟩ h.toIdle (hidle _ p.bandwidth), ?_⟩
  refine ⟨needs_of_idle rfl h.daemon (hidle _ p.bandwidth) (hidle _ true), ?_⟩
  refine ⟨needs_of_idle rfl h.daemon (hidle _ true) (hidle _ true), ?_⟩
  exact ⟨hidle _ true, h.config_eq, h.resolver, h.compression, h.cache, rfl, rfl, rfl⟩

theorem leads_abandon (h : Idle p) : Leads Down abandon p := by
  have hidle (logger bandwidth compression logging : Bool) :
      Idle { p with logger := logger, bandwidth := bandwidth, compression := compression,
                    logging := logging } :=
    ⟨h.daemon, h.unmanaged, h.deferred⟩
  refine ⟨needs_of_idle rfl h.daemon h (hidle _ _ _ _), ?_⟩
  refine ⟨needs_of_idle rfl trivial (hidle _ _ _ _) (hidle _ _ _ _), ?_⟩
  refine ⟨needs_of_idle rfl trivial (hidle _ _ _ _) (hidle _ _ _ _), ?_⟩
  refine ⟨needs_of_idle rfl trivial (hidle _ _ _ _) (hidle _ _ _ _), ?_⟩
  exact ⟨hidle false false false false, rfl, rfl, rfl, rfl⟩

theorem leads_daemon (henabled : config.enabled = true) (h : Launching config calls p) :
    Leads (Up config calls) [.startDaemon true] p := by
  have hready : Ready { p with daemon := true } := by
    intro _
    show p.config.enabled = true ∧ p.resolver.isSome
    rw [h.config_eq]
    exact ⟨henabled, h.resolver⟩
  refine ⟨⟨⟨h.daemon, h.bandwidth⟩, hready, h.deferred, nofun⟩, rfl, h.config_eq, h.compression,
    h.logger, hready, h.deferred,
    ⟨nofun, fun _ => ⟨h.bandwidth, h.logging⟩, fun _ hdown => ?_, fun hmanaged => ?_⟩, h.unmanaged⟩
  · show p.config.gzip = true → p.config.gzipCache = true → p.compressionError ≠ []
    rw [h.config_eq]
    exact h.cache hdown
  · have htrue : p.url.g_downloadUrlManaged = true := hmanaged
    rw [h.unmanaged] at htrue
    cases htrue

/-- A start that succeeds ends with the daemon up, and one that fails with everything stopped. -/
theorem leads_start (henabled : config.enabled = true) (hready : Ready p) (hdeferred : Deferred p)
    (hurl : p.url.g_downloadUrlManaged = false) :
    Leads (fun p => if (start config calls).2 then Up config calls p else Down p)
      (start config calls).1 p := by
  have hbegin : Leads (fun p => Down p ∧ p.config = config) (stop ++ [.setConfig config]) p :=
    leads_begin hready hdeferred hurl
  have hoff : ¬ (!config.enabled) = true := by simp [henabled]
  unfold start
  simp only [if_neg hoff]
  cases hresolver : calls.resolver with
  | error e =>
    refine checked_append.mpr (hbegin.mono ?_)
    intro p h
    exact ⟨needs_of_idle rfl ⟨h.1.daemon, h.1.compression⟩ h.1.toIdle h.1.toIdle, h.1⟩
  | ok r =>
    -- the part that every start with a root makes
    have hlaunch : Leads (Launching config calls) (stop ++ [.setConfig config] ++
        [.configureResolver (.ok r), .clearCompressionError] ++
        (if config.gzip && config.gzipCache then [.startCompression calls] else []) ++
        [.startLogger calls.logger, .configureBandwidth, .resetMetrics]) p := by
      have hcache : Leads (Prepared config calls) ((stop ++ [.setConfig config]) ++
          ([.configureResolver (.ok r), .clearCompressionError] ++
            (if config.gzip && config.gzipCache then [.startCompression calls] else []))) p :=
        checked_append.mpr (hbegin.mono fun p h => leads_resolver h.1 h.2 r)
      rw [← List.append_assoc] at hcache
      exact checked_append.mpr (hcache.mono fun p h => leads_logger h)
    dsimp only
    generalize stop ++ [.setConfig config] ++ [.configureResolver (.ok r), .clearCompressionError] ++
      (if config.gzip && config.gzipCache then [.startCompression calls] else []) ++
      [.startLogger calls.logger, .configureBandwidth, .resetMetrics] = ready at hlaunch ⊢
    by_cases haddress : (!anyAddress config.bindAddress && !calls.inetPton) = true
    · simp only [if_pos haddress, Bool.false_eq_true, if_false]
      exact checked_append.mpr (hlaunch.mono fun p h => leads_abandon h.toIdle)
    · by_cases hdaemon : (!calls.daemon) = true
      · simp only [if_neg haddress, if_pos hdaemon, Bool.false_eq_true, if_false]
        refine checked_append.mpr (checked_append.mpr (hlaunch.mono fun p h => ?_))
        have hidle : Idle { p with daemon := false } := ⟨rfl, h.unmanaged, h.deferred⟩
        exact ⟨needs_of_idle rfl ⟨h.daemon, h.bandwidth⟩ h.toIdle hidle, leads_abandon hidle⟩
      · simp only [if_neg haddress, if_neg hdaemon, if_true]
        exact checked_append.mpr (hlaunch.mono fun p h => leads_daemon henabled h)

/-- Restoring the URL is safe at rest, and leaves it to the operator. -/
theorem needs_restore (h : AtRest p) (hready : Ready p) (hdeferred : Deferred p) :
    Needs .restoreDownloadUrl p := by
  refine ⟨trivial, hready, hdeferred, fun _ => ?_⟩
  rw [if_pos (show Act.ofPlugin .restoreDownloadUrl = true from rfl)]
  have hunmanaged := MetaPlugin.restoreDownloadUrl_unmanaged p.url
  refine ⟨h, h.stopped, h.running, h.cache, fun hmanaged => ?_⟩
  have hfalse : (MetaPlugin.restoreDownloadUrl p.url).g_downloadUrlManaged = true := hmanaged
  rw [hunmanaged] at hfalse
  cases hfalse

/-- The URL is managed only where the settings ask for it. -/
theorem needs_configure (h : Up config calls p) : Needs (.configureDownloadUrl config) p ∧
    AtRest (Act.perform (.configureDownloadUrl config) p) := by
  have hrest : AtRest (Act.perform (.configureDownloadUrl config) p) := by
    refine ⟨h.rest.stopped, h.rest.running, h.rest.cache, fun hmanaged => ⟨h.daemon, ?_⟩⟩
    have hset : (MetaPlugin.configureDownloadUrl config.download p.url).g_downloadUrlManaged =
      true := hmanaged
    show p.config.autoDownloadUrl = true
    rw [h.config_eq]
    by_contra hauto
    have hskip : MetaPlugin.configureDownloadUrl config.download p.url = p.url :=
      if_pos (show ¬ config.download.autoDownloadUrl = true from hauto)
    rw [hskip, h.unmanaged] at hset
    cases hset
  refine ⟨⟨trivial, h.ready, h.deferred, fun _ => ?_⟩, hrest⟩
  rw [if_pos (show Act.ofPlugin (.configureDownloadUrl config) = true from rfl)]
  exact ⟨h.rest, hrest⟩

/-- A start with the server enabled succeeds exactly if the calls that it needs do. -/
theorem start_ok_iff (henabled : config.enabled = true) :
    (start config calls).2 = true ↔ calls.Suffice config := by
  have hoff : ¬ (!config.enabled) = true := by simp [henabled]
  unfold start
  simp only [if_neg hoff]
  cases hresolver : calls.resolver with
  | error e =>
    refine iff_of_false Bool.false_ne_true fun h => ?_
    obtain ⟨r, hr⟩ := h.resolver
    rw [hresolver] at hr
    cases hr
  | ok r =>
    by_cases haddress : (!anyAddress config.bindAddress && !calls.inetPton) = true
    · simp only [if_pos haddress]
      refine iff_of_false Bool.false_ne_true fun h => ?_
      rcases h.address with hany | hpton
      · simp [hany] at haddress
      · simp [hpton] at haddress
    · have haddress' : anyAddress config.bindAddress = true ∨ calls.inetPton = true := by
        simpa [Classical.or_iff_not_imp_left] using haddress
      by_cases hdaemon : (!calls.daemon) = true
      · simp only [if_neg haddress, if_pos hdaemon]
        refine iff_of_false Bool.false_ne_true fun h => ?_
        simp [h.daemon] at hdaemon
      · simp only [if_neg haddress, if_neg hdaemon]
        exact iff_of_true trivial ⟨⟨r, hresolver⟩, haddress', by simpa using hdaemon⟩

/-- After a command the server runs with its settings if these enable it and the calls suffice, and
else not at all. Its logger and its cache run if they could be started. -/
structure Outcome (config : FastdlConfig) (calls : StartCalls) (p : Parts) : Prop where
  rest : AtRest p
  daemon : p.daemon = true ↔ config.enabled = true ∧ calls.Suffice config
  config_eq : p.daemon = true → p.config = config
  logger : p.daemon = true → p.logger = calls.logger
  compression : p.daemon = true → p.compression = calls.caches config

theorem Down.outcome (h : Down p) (hno : ¬ (config.enabled = true ∧ calls.Suffice config)) :
    Outcome config calls p := by
  have hdown : ¬ p.daemon = true := by simp [h.daemon]
  exact ⟨h.atRest, iff_of_false hdown hno, fun hup => absurd hup hdown,
    fun hup => absurd hup hdown, fun hup => absurd hup hdown⟩

theorem leads_startServer (h : AtRest p) (hready : Ready p) (hdeferred : Deferred p) :
    Leads (Outcome config calls) (startServer config calls) p := by
  have hrestore := needs_restore h hready hdeferred
  have hunmanaged := MetaPlugin.restoreDownloadUrl_unmanaged p.url
  have hready' : Ready (Act.perform .restoreDownloadUrl p) := hready
  have hdeferred' : Deferred (Act.perform .restoreDownloadUrl p) := hdeferred
  unfold startServer
  split_ifs with hdisabled hfailed
  · refine ⟨hrestore, (leads_stop hready' hdeferred' hunmanaged).mono fun _ h => h.outcome ?_⟩
    simp only [Bool.not_eq_true'] at hdisabled
    simp [hdisabled]
  · have henabled : config.enabled = true := by simpa using hdisabled
    refine ⟨hrestore, (leads_start henabled hready' hdeferred' hunmanaged).mono ?_⟩
    intro p h
    rw [if_neg (by simpa using hfailed)] at h
    refine h.outcome fun hyes => ?_
    simp [(start_ok_iff henabled).mpr hyes.2] at hfailed
  · have henabled : config.enabled = true := by simpa using hdisabled
    have hstarted : (start config calls).2 = true := by simpa using hfailed
    refine ⟨hrestore, checked_append.mpr ?_⟩
    refine (leads_start henabled hready' hdeferred' hunmanaged).mono ?_
    intro p h
    rw [if_pos hstarted] at h
    obtain ⟨hneeds, hrest⟩ := needs_configure h
    exact ⟨hneeds, hrest, iff_of_true h.daemon ⟨henabled, (start_ok_iff henabled).mp hstarted⟩,
      fun _ => h.config_eq, fun _ => h.logger, fun _ => h.compression⟩

end Start

/-- What every step keeps: the script that the game thread is in leads to rest, and callbacks run
while the daemon is up only. -/
structure Process.Kept (s : Process) : Prop where
  leads : Leads AtRest s.acts s.parts
  ready : Ready s.parts
  deferred : Deferred s.parts
  callbacks : s.inRequest ≠ 0 → s.parts.daemon = true

/-- The states that the process can come to. -/
inductive Reaches (initial : MetaPlugin.CvarString) : Process → Prop
  | start : Reaches initial { parts := { url := MetaPlugin.loaded initial } }
  | step {s s' : Process} (e : Event) : Reaches initial s → s.step e = some s' → Reaches initial s'

theorem perform_url {a : Act} (h : a.ofPlugin = false) (p : Parts) : (a.perform p).url = p.url := by
  cases a with
  | restoreDownloadUrl | configureDownloadUrl | register | takePending => cases h
  | configureResolver result => cases result <;> rfl
  | startCompression calls =>
    unfold Act.perform
    dsimp only
    split <;> rfl
  | _ => rfl

theorem perform_daemon {a : Act} (h : a.mayThrow = true) (p : Parts) :
    (a.perform p).daemon = p.daemon := by
  cases a with
  | stopDaemon | startDaemon => cases h
  | configureResolver result => cases result <;> rfl
  | startCompression calls =>
    unfold Act.perform
    dsimp only
    split <;> rfl
  | _ => rfl

theorem step_call {s s' : Process} {acts : List Act} (h : s.call acts = some s') :
    s.acts = [] ∧ s' = { s with acts := acts } := by
  unfold Process.call at h
  split_ifs at h with hidle
  exact ⟨hidle, (Option.some.inj h).symm⟩

/-- A call of the plugin begins at rest. -/
theorem Process.Kept.call {s s' : Process} (h : s.Kept) {acts : List Act} (hcall : s.call acts = some s')
    (hacts : AtRest s.parts → Leads AtRest acts s.parts) : s'.Kept := by
  obtain ⟨hidle, rfl⟩ := step_call hcall
  have hleads := h.leads
  rw [hidle] at hleads
  exact ⟨hacts hleads, h.ready, h.deferred, h.callbacks⟩

theorem needs_register {p : Parts} (h : AtRest p) (hready : Ready p) (hdeferred : Deferred p)
    (hnew : p.g_registered = false) : Needs .register p := by
  refine ⟨trivial, hready, ?_, fun _ => ?_⟩
  · have hnone : p.deferredStarts + p.g_startPending.toNat = 0 := by
      unfold Deferred at hdeferred
      rwa [hnew] at hdeferred
    show p.deferredStarts + 1 = 1
    omega
  · rw [if_pos (show Act.ofPlugin .register = true from rfl)]
    exact ⟨h, h.stopped, h.running, h.cache, h.managed⟩

theorem needs_takePending {p : Parts} (h : AtRest p) (hready : Ready p) (hdeferred : Deferred p)
    (hpending : p.g_startPending = true) : Needs .takePending p := by
  refine ⟨trivial, hready, ?_, fun _ => ?_⟩
  · show p.deferredStarts + 1 + 0 = p.g_registered.toNat
    unfold Deferred at hdeferred
    rwa [hpending] at hdeferred
  · rw [if_pos (show Act.ofPlugin .takePending = true from rfl)]
    exact ⟨h, h.stopped, h.running, h.cache, h.managed⟩

/-- An exception ends at rest, or on the way there. -/
theorem Process.Kept.caught {s : Process} (h : s.Kept) {p : Parts} {a : Act} (hready : Ready p)
    (hdeferred : Deferred p) (hdaemon : p.daemon = s.parts.daemon)
    (hrest : if a.ofPlugin then AtRest p else p.url.g_downloadUrlManaged = false) :
    Kept { s with parts := p, acts := if a.ofPlugin then [] else stop } := by
  refine ⟨?_, hready, hdeferred, fun hbusy => hdaemon.trans (h.callbacks hbusy)⟩
  show Leads AtRest (if a.ofPlugin then [] else stop) p
  cases hplugin : a.ofPlugin with
  | true =>
    rw [hplugin, if_pos rfl] at hrest
    exact hrest
  | false =>
    rw [hplugin, if_neg Bool.false_ne_true] at hrest
    exact (leads_stop hready hdeferred hrest).mono fun _ h => h.atRest

theorem Process.Kept.throws {s s' : Process} (h : s.Kept) {performed : Bool}
    (hstep : s.step (.throws performed) = some s') : s'.Kept := by
  have hleads := h.leads
  simp only [Process.step] at hstep
  split at hstep
  · cases hstep
  · rename_i a rest hacts
    rw [hacts] at hleads
    obtain ⟨⟨-, hready, hdeferred, hthrow⟩, -⟩ := hleads
    cases hmay : a.mayThrow with
    | false =>
      rw [hmay] at hstep
      cases hstep
    | true =>
      have hthrow := hthrow hmay
      rw [hmay] at hstep
      cases performed with
      | false =>
        cases hstep
        refine h.caught h.ready h.deferred rfl ?_
        cases hplugin : a.ofPlugin with
        | true =>
          rw [hplugin, if_pos rfl] at hthrow
          exact hthrow.1
        | false =>
          rw [hplugin, if_neg Bool.false_ne_true] at hthrow
          exact hthrow
      | true =>
        cases hstep
        refine h.caught hready hdeferred (perform_daemon hmay s.parts) ?_
        cases hplugin : a.ofPlugin with
        | true =>
          rw [hplugin, if_pos rfl] at hthrow
          exact hthrow.2
        | false =>
          rw [hplugin, if_neg Bool.false_ne_true] at hthrow
          show (a.perform s.parts).url.g_downloadUrlManaged = false
          rw [perform_url hplugin]
          exact hthrow

theorem Process.Kept.step {s s' : Process} (h : s.Kept) {e : Event} (hstep : s.step e = some s') :
    s'.Kept := by
  cases e with
  | gameInit =>
    refine h.call hstep fun hrest => ?_
    cases hregistered : s.parts.g_registered with
    | true => exact hrest
    | false =>
      exact ⟨needs_register hrest h.ready h.deferred hregistered, hrest.stopped, hrest.running,
        hrest.cache, hrest.managed⟩
  | startFrame config calls =>
    refine h.call hstep fun hrest => ?_
    cases hpending : s.parts.g_startPending with
    | false => exact hrest
    | true =>
      have hneeds := needs_takePending hrest h.ready h.deferred hpending
      have hrest' : AtRest (Act.perform .takePending s.parts) :=
        ⟨hrest.stopped, hrest.running, hrest.cache, hrest.managed⟩
      exact ⟨hneeds, (leads_startServer hrest' hneeds.2.1 hneeds.2.2.1).mono fun _ h => h.rest⟩
  | commandRestart config calls =>
    refine h.call hstep fun hrest => ?_
    exact (leads_startServer hrest h.ready h.deferred).mono fun _ h => h.rest
  | metaDetach =>
    refine h.call hstep fun hrest => ?_
    have hrestore := needs_restore hrest h.ready h.deferred
    exact ⟨hrestore, (leads_stop hrestore.2.1 hrestore.2.2.1
      (MetaPlugin.restoreDownloadUrl_unmanaged s.parts.url)).mono fun _ h => h.atRest⟩
  | act =>
    have hleads := h.leads
    simp only [Process.step] at hstep
    split at hstep
    · cases hstep
    · rename_i a rest hacts
      rw [hacts] at hleads
      split_ifs at hstep with hwaits
      cases hstep
      refine ⟨hleads.2, hleads.1.2.1, hleads.1.2.2.1, fun hbusy => ?_⟩
      by_contra hdown
      exact hwaits (by simpa [h.callbacks hbusy, hbusy] using hdown)
  | throws performed => exact h.throws hstep
  | enter =>
    simp only [Process.step] at hstep
    split_ifs at hstep with hup
    cases hstep
    exact ⟨h.leads, h.ready, h.deferred, fun _ => hup⟩
  | leave =>
    simp only [Process.step] at hstep
    split_ifs at hstep with hnone
    cases hstep
    exact ⟨h.leads, h.ready, h.deferred, fun _ => h.callbacks hnone⟩

section Runs

variable {initial : MetaPlugin.CvarString} {s : Process}

theorem Reaches.kept (h : Reaches initial s) : s.Kept := by
  induction h with
  | start =>
    have hrest : AtRest { url := MetaPlugin.loaded initial } :=
      ⟨fun _ => ⟨rfl, rfl, rfl, rfl⟩, nofun, nofun, nofun⟩
    exact ⟨hrest, nofun, rfl, fun hbusy => absurd rfl hbusy⟩
  | step e _ hstep ih => exact ih.step hstep

/-- At every point of every command, with exceptions wherever they can be thrown: what the game
thread changes without a lock, no other thread uses at the time; and a callback of libmicrohttpd
finds an enabled server with a configured resolver. -/
theorem acts_alone (h : Reaches initial s) :
    (∀ a rest, s.acts = a :: rest → a.Alone s.parts) ∧
      (s.parts.daemon = false → s.inRequest = 0) ∧
      (s.inRequest ≠ 0 → s.parts.config.enabled = true ∧ s.parts.resolver.isSome) := by
  have hkept := h.kept
  refine ⟨?_, ?_, fun hbusy => hkept.ready (hkept.callbacks hbusy)⟩
  · intro a rest hacts
    have hleads := hkept.leads
    rw [hacts] at hleads
    exact hleads.1.1
  · intro hdown
    by_contra hbusy
    have hup := hkept.callbacks hbusy
    rw [hdown] at hup
    cases hup

/-- Between two commands the daemon runs with its bandwidth limits, and logs if the logger runs, or
nothing of the server runs; a URL is managed for a running server only, a missing cache has its
reason on record, and the start that `gameInit` asks for has been made at most once. -/
theorem between_commands (h : Reaches initial s) (hacts : s.acts = []) :
    AtRest s.parts ∧ Deferred s.parts := by
  have hkept := h.kept
  have hleads := hkept.leads
  rw [hacts] at hleads
  exact ⟨hleads, hkept.deferred⟩

/-- A restart that no exception ends does not depend on what ran before: the server then runs, with
the new settings, exactly if these enable it and the root, the address and the daemon are fine; a
logger or a cache that cannot be started does not stop it. -/
theorem restart_outcome (h : Reaches initial s) (hacts : s.acts = []) (config : FastdlConfig)
    (calls : StartCalls) :
    Outcome config calls (performAll Act.perform (startServer config calls) s.parts) := by
  have hkept := h.kept
  have hrest := hkept.leads
  rw [hacts] at hrest
  exact (leads_startServer hrest hkept.ready hkept.deferred).ends

end Runs

def run : List Event → Process → Option Process
  | [], s => some s
  | e :: es, s => (s.step e).bind (run es)

theorem reaches_of_run {initial : MetaPlugin.CvarString} (es : List Event) {s s' : Process}
    (h : Reaches initial s) (hrun : run es s = some s') : Reaches initial s' := by
  induction es generalizing s with
  | nil =>
    cases hrun
    exact h
  | cons e es ih =>
    obtain ⟨s₁, hstep, hrest⟩ := Option.bind_eq_some_iff.mp hrun
    exact ih (h.step e hstep) hrest

/-- A start without a cache. -/
def sampleCalls : StartCalls where
  resolver := .ok ⟨[text "cstrike"], [text "maps"], [text ".bsp"], [], false, false, false⟩
  compression := none
  explained := nofun
  logger := true
  inetPton := false
  daemon := true

/-- The plugin is loaded and starts its server with the default settings. -/
def sampleStart : List Event :=
  [.gameInit, .act, .startFrame {} sampleCalls] ++ List.replicate 16 .act

/-- A command to disable it comes while a callback runs, and gets as far as the daemon. -/
def sampleRestart : List Event :=
  sampleStart ++ [.enter, .commandRestart { enabled := false } sampleCalls, .act, .act]

def atLoad : Process := { parts := { url := MetaPlugin.loaded (MetaPlugin.cvarString []) } }

theorem exists_of_run {es : List Event} {test : Process → Bool}
    (h : (run es atLoad).any test = true) :
    ∃ s, Reaches (MetaPlugin.cvarString []) s ∧ test s = true := by
  cases hrun : run es atLoad with
  | none =>
    rw [hrun] at h
    cases h
  | some s =>
    rw [hrun] at h
    exact ⟨s, reaches_of_run es .start hrun, h⟩

theorem sampleStart_ends : ∃ s, Reaches (MetaPlugin.cvarString []) s ∧ s.acts = [] ∧
    s.parts.daemon = true := by
  have hends : (run sampleStart atLoad).any (fun s => s.acts.isEmpty && s.parts.daemon) = true := by
    decide +kernel
  obtain ⟨s, hreach, htest⟩ := exists_of_run hends
  rw [Bool.and_eq_true, List.isEmpty_iff] at htest
  exact ⟨s, hreach, htest⟩

/-- The callback still finds the settings it began with. -/
theorem acts_alone_waiting : ∃ s : Process, s.inRequest = 1 ∧ s.parts.bandwidth = false ∧
    s.parts.config.enabled = true ∧ s.parts.resolver.isSome := by
  have hends : (run sampleRestart atLoad).any
      (fun s => decide (s.inRequest = 1) && !s.parts.bandwidth) = true := by
    decide +kernel
  obtain ⟨s, hreach, htest⟩ := exists_of_run hends
  rw [Bool.and_eq_true, decide_eq_true_eq, Bool.not_eq_true'] at htest
  exact ⟨s, htest.1, htest.2, (acts_alone hreach).2.2 (by omega)⟩

theorem between_commands_started : ∃ s : Process, s.parts.daemon = true ∧ AtRest s.parts := by
  obtain ⟨s, hreach, hacts, hup⟩ := sampleStart_ends
  exact ⟨s, hup, (between_commands hreach hacts).1⟩

/-- A start for which neither the cache nor the logger can be brought up. -/
def troubledCalls : StartCalls :=
  { sampleCalls with compression := some (text "cannot create cache"), explained := by simp [text]
                     logger := false }

/-- From a running server, one restart ends with the daemon down and the other with it up. -/
theorem restart_outcome_started : ∃ s : Process, s.parts.daemon = true ∧
    (performAll Act.perform (startServer { enabled := false } sampleCalls) s.parts).daemon ≠ true ∧
    (performAll Act.perform (startServer {} troubledCalls) s.parts).daemon = true ∧
    (performAll Act.perform (startServer {} troubledCalls) s.parts).logger = false ∧
    (performAll Act.perform (startServer {} troubledCalls) s.parts).compression = false := by
  obtain ⟨s, hreach, hacts, hup⟩ := sampleStart_ends
  have hoff := restart_outcome hreach hacts { enabled := false } sampleCalls
  have hon := restart_outcome hreach hacts {} troubledCalls
  have hup' := hon.daemon.mpr ⟨rfl, ⟨_, rfl⟩, .inl (by decide +kernel), rfl⟩
  refine ⟨s, hup, fun hdaemon => ?_, hup', hon.logger hup', hon.compression hup'⟩
  have henabled := (hoff.daemon.mp hdaemon).1
  cases henabled

end FastdlMm.Lifecycle
