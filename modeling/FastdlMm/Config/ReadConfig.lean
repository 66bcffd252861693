import FastdlMm.Config.DownloadUrl
import FastdlMm.Limits.Durations
import FastdlMm.Logging.Retention
import Mathlib.Algebra.Order.Floor.Semiring
import Mathlib.Data.Rat.Floor
import Mathlib.Tactic.Linarith

namespace FastdlMm

/-- The settings of one start. Paths are kept as the operator wrote them. -/
structure FastdlConfig where
  enabled : Bool := true
  bindAddress : Text := text "0.0.0.0"
  port : Nat := 0
  root : Text := []
  baseDir : Text := []
  serveDirs : Text := text "sprites,sound,sounds,overviews,models,maps,gfx"
  serveTypes : Text := text "bsp,nav,res,wad,mdl,spr,wav,mp3,bmp,tga,txt,htm,html,gz,bz2"
  serveRootTypes : Text := text "wad"
  maxFileBytes : Nat := 250 * 1024 * 1024
  threads : Nat := 1
  maxConnections : Nat := 64
  maxConnectionsPerIp : Nat := 32
  connectionTimeoutSeconds : Nat := 30
  requestsPerMinute : Nat := 500
  denialsPerMinute : Nat := 36
  blockSeconds : Nat := 180
  bandwidthMaxMbps : Rat := 0
  bandwidthIpMbps : Rat := 0
  steamOnly : Bool := true
  gzip : Bool := false
  gzipCache : Bool := true
  gzipCachePath : Text := text "fastdl_cache"
  gzipCacheMaxBytes : Nat := 256 * 1024 * 1024
  autoDownloadUrl : Bool := false
  publicUrl : Text := []
  logPath : Text := text "logs/fastdl/fastdl.log"
  logAgeDays : Nat := 7
  deriving DecidableEq

/-- What `startServer` reads of the settings for the URL. -/
def FastdlConfig.download (config : FastdlConfig) : MetaPlugin.FastdlConfig where
  enabled := config.enabled
  autoDownloadUrl := config.autoDownloadUrl
  publicUrl := config.publicUrl

namespace BandwidthLimiter

/-- A `float` has few enough digits that its product and quotient are exact in a `long double`. -/
def rateFromMbps (mbps : Rat) : Nat :=
  if mbps ≤ 0 then 0
  else
    let bytes := mbps * 1000000 / 8
    if (2 ^ 64 - 1 : Rat) ≤ bytes then 2 ^ 64 - 1 else max 1 ⌊bytes⌋₊

end BandwidthLimiter

namespace MetaPlugin

/-- The console variables by their names: the value as a `float`, none where it is not finite, and
as a string. -/
structure Cvars where
  float : Text → Option Rat
  string : Text → Text

def clamp (value lo hi : Rat) : Rat := if value < lo then lo else if hi < value then hi else value

def boundedUnsigned (value : Option Rat) (minimum maximum fallback : Nat) : Nat :=
  match value with
  | none => fallback
  | some value => ⌊clamp value minimum maximum⌋₊

/-- `0.1f`. -/
def tenth : Rat := 13421773 / 134217728

def boundedRate (value : Option Rat) : Rat :=
  match value with
  | none => 0
  | some value => if value ≤ 0 then 0 else clamp value tenth 10000

/-- The value of a cvar as a port number. -/
def asPort (value : Option Rat) : Option Nat :=
  value.bind (fun value => if 1 ≤ value ∧ value ≤ 65535 then some ⌊value⌋₊ else none)

def gamePort (cvars : Cvars) : Nat :=
  ((asPort (cvars.float (text "hostport"))).or (asPort (cvars.float (text "port")))).getD 27015

/-- A variable is on unless it is zero. -/
def isOn (value : Option Rat) : Bool := decide (value ≠ some 0)

def readConfig (cvars : Cvars) (g_baseDir : Text) : FastdlMm.FastdlConfig :=
  let port := boundedUnsigned (cvars.float (text "fastdl_port")) 0 65535 0
  let maxConnections := boundedUnsigned (cvars.float (text "fastdl_max_connections")) 8 128 64
  { enabled := isOn (cvars.float (text "fastdl_enabled"))
    bindAddress := cvars.string (text "fastdl_bind")
    port := if port = 0 then gamePort cvars else port
    root := cvars.string (text "fastdl_root")
    baseDir := g_baseDir
    serveDirs := cvars.string (text "fastdl_serve_dirs")
    serveTypes := cvars.string (text "fastdl_serve_types")
    serveRootTypes := cvars.string (text "fastdl_serve_root_types")
    maxFileBytes :=
      boundedUnsigned (cvars.float (text "fastdl_max_file_mb")) 1 2048 250 * 1024 * 1024
    threads := boundedUnsigned (cvars.float (text "fastdl_threads")) 1 4 1
    maxConnections := maxConnections
    maxConnectionsPerIp :=
      boundedUnsigned (cvars.float (text "fastdl_max_connections_ip")) 1 maxConnections 32
    connectionTimeoutSeconds :=
      boundedUnsigned (cvars.float (text "fastdl_connection_timeout")) 5 300 30
    requestsPerMinute := boundedUnsigned (cvars.float (text "fastdl_requests_minute")) 1 10000 500
    denialsPerMinute := boundedUnsigned (cvars.float (text "fastdl_denials_minute")) 1 1000 36
    blockSeconds := boundedUnsigned (cvars.float (text "fastdl_block_seconds")) 1 86400 180
    bandwidthMaxMbps := boundedRate (cvars.float (text "fastdl_bandwidth_max_mbps"))
    bandwidthIpMbps := boundedRate (cvars.float (text "fastdl_bandwidth_ip_mbps"))
    steamOnly := isOn (cvars.float (text "fastdl_steam_only"))
    gzip := isOn (cvars.float (text "fastdl_gzip"))
    gzipCache := isOn (cvars.float (text "fastdl_gzip_cache"))
    gzipCachePath := cvars.string (text "fastdl_gzip_cache_path")
    gzipCacheMaxBytes :=
      boundedUnsigned (cvars.float (text "fastdl_gzip_cache_max_mb")) 16 1024 256 * 1024 * 1024
    autoDownloadUrl := isOn (cvars.float (text "fastdl_auto_downloadurl"))
    publicUrl := cvars.string (text "fastdl_public_url")
    logPath := cvars.string (text "fastdl_log")
    logAgeDays := boundedUnsigned (cvars.float (text "fastdl_log_age")) 0 3650 7 }

theorem clamp_mem {lo hi : Rat} (h : lo ≤ hi) (value : Rat) :
    lo ≤ clamp value lo hi ∧ clamp value lo hi ≤ hi := by
  unfold clamp
  split_ifs with hlow hhigh
  · exact ⟨le_refl lo, h⟩
  · exact ⟨h, le_refl hi⟩
  · exact ⟨not_lt.mp hlow, not_lt.mp hhigh⟩

/-- A bounded value is in its range; what takes the place of one that is not finite has to be. -/
theorem boundedUnsigned_mem {minimum maximum fallback : Nat} (hmin : minimum ≤ fallback)
    (hmax : fallback ≤ maximum) (value : Option Rat) :
    minimum ≤ boundedUnsigned value minimum maximum fallback ∧
      boundedUnsigned value minimum maximum fallback ≤ maximum := by
  cases value with
  | none => exact ⟨hmin, hmax⟩
  | some value =>
    have hle : (minimum : Rat) ≤ maximum := Nat.cast_le.mpr (hmin.trans hmax)
    obtain ⟨hlow, hhigh⟩ := clamp_mem hle value
    refine ⟨Nat.le_floor hlow, ?_⟩
    have hfloor := Nat.floor_le_floor hhigh
    rwa [Nat.floor_natCast] at hfloor

theorem asPort_mem {value : Option Rat} {port : Nat} (h : asPort value = some port) :
    1 ≤ port ∧ port ≤ 65535 := by
  obtain ⟨v, -, hv⟩ := Option.bind_eq_some_iff.mp h
  split_ifs at hv with hrange
  cases hv
  have hlow : ((1 : Nat) : Rat) ≤ v := by simpa using hrange.1
  have hhigh : v ≤ ((65535 : Nat) : Rat) := by simpa using hrange.2
  refine ⟨Nat.le_floor hlow, ?_⟩
  have hfloor := Nat.floor_le_floor hhigh
  rwa [Nat.floor_natCast] at hfloor

theorem gamePort_mem (cvars : Cvars) : 1 ≤ gamePort cvars ∧ gamePort cvars ≤ 65535 := by
  unfold gamePort
  cases hhost : asPort (cvars.float (text "hostport")) with
  | some port => simpa using asPort_mem hhost
  | none =>
    cases hport : asPort (cvars.float (text "port")) with
    | some port => simpa using asPort_mem hport
    | none => simp

/-- No limit, or one between 12500 and 1250000000 bytes a second. -/
theorem rateFromMbps_boundedRate (value : Option Rat) :
    BandwidthLimiter.rateFromMbps (boundedRate value) = 0 ∨
      (12500 ≤ BandwidthLimiter.rateFromMbps (boundedRate value) ∧
        BandwidthLimiter.rateFromMbps (boundedRate value) ≤ 1250000000) := by
  have hnone : BandwidthLimiter.rateFromMbps 0 = 0 := by simp [BandwidthLimiter.rateFromMbps]
  cases value with
  | none => exact .inl hnone
  | some value =>
    unfold boundedRate
    dsimp only
    split_ifs with hpos
    · exact .inl hnone
    · right
      obtain ⟨hlow, hhigh⟩ := @clamp_mem tenth 10000 (by norm_num [tenth]) value
      generalize clamp value tenth 10000 = mbps at hlow hhigh
      have hlow' : (13421773 / 134217728 : Rat) ≤ mbps := hlow
      have hrate : ¬ mbps ≤ 0 := by linarith
      have hsmall : ¬ ((2 ^ 64 - 1 : Rat) ≤ mbps * 1000000 / 8) := by
        intro hle
        have : mbps * 1000000 / 8 ≤ 1250000000 := by linarith
        norm_num at hle
        linarith
      have hfloor : 12500 ≤ ⌊mbps * 1000000 / 8⌋₊ := by
        apply Nat.le_floor
        push_cast
        linarith
      have hceiling : ⌊mbps * 1000000 / 8⌋₊ ≤ 1250000000 := by
        have hle : mbps * 1000000 / 8 ≤ ((1250000000 : Nat) : Rat) := by
          push_cast
          linarith
        have hfloor := Nat.floor_le_floor hle
        rwa [Nat.floor_natCast] at hfloor
      simp only [BandwidthLimiter.rateFromMbps, if_neg hrate, if_neg hsmall]
      omega

/-- What the parts of the server count on in their settings. -/
structure Sound (config : FastdlMm.FastdlConfig) : Prop where
  port : 1 ≤ config.port ∧ config.port ≤ 65535
  maxFileBytes : 2 ^ 20 ≤ config.maxFileBytes ∧ config.maxFileBytes ≤ 2 ^ 31
  threads : 1 ≤ config.threads ∧ config.threads ≤ 4
  connections : 8 ≤ config.maxConnections ∧ config.maxConnections ≤ 128
  perIp : 1 ≤ config.maxConnectionsPerIp ∧
    config.maxConnectionsPerIp ≤ max config.maxConnections 32
  timeout : 5 ≤ config.connectionTimeoutSeconds ∧ config.connectionTimeoutSeconds ≤ 300
  requests : 1 ≤ config.requestsPerMinute ∧ config.requestsPerMinute ≤ 10000
  denials : 1 ≤ config.denialsPerMinute ∧ config.denialsPerMinute ≤ 1000
  blocks : 1 ≤ config.blockSeconds ∧ config.blockSeconds ≤ 86400
  cache : 2 ^ 24 ≤ config.gzipCacheMaxBytes ∧ config.gzipCacheMaxBytes ≤ 2 ^ 30
  /-- No reservation at a configured rate wraps. -/
  durations : ∀ mbps ∈ [config.bandwidthMaxMbps, config.bandwidthIpMbps], ∀ bytes < 2 ^ sizeBits,
    BandwidthLimiter.durationFor bytes (BandwidthLimiter.rateFromMbps mbps) =
      BandwidthLimiter.exactDuration bytes (BandwidthLimiter.rateFromMbps mbps)
  /-- The first day kept is in the range of `int`. -/
  retention : ∀ t : Date, 1 ≤ config.logAgeDays →
    AsyncLogger.cutoffDay config.logAgeDays t = t.number - config.logAgeDays + 1

/-- At a rate that the settings allow, durations are exact. -/
theorem durationFor_boundedRate (value : Option Rat) {bytes : Nat} (hbytes : bytes < 2 ^ sizeBits) :
    BandwidthLimiter.durationFor bytes (BandwidthLimiter.rateFromMbps (boundedRate value)) =
      BandwidthLimiter.exactDuration bytes (BandwidthLimiter.rateFromMbps (boundedRate value)) := by
  obtain hnone | ⟨hlow, hhigh⟩ := rateFromMbps_boundedRate value
  · rw [hnone]
    simp [BandwidthLimiter.durationFor, BandwidthLimiter.exactDuration]
  · apply BandwidthLimiter.durationFor_exact (by omega) hbytes
    have hrest := Nat.mod_le bytes (BandwidthLimiter.rateFromMbps (boundedRate value))
    simp only [sizeBits] at hbytes
    simp only [BandwidthLimiter.kNanosecondsPerSecond]
    omega

end MetaPlugin
end FastdlMm
