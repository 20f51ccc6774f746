import BambooNet.Lib.CString
import BambooNet.Lib.Lines

/-!
# The settings in `obn.conf`

`parse_file` reads the lines of the file in order and `apply_key` sets the field that a key names,
so a later line overrides an earlier one. `blockCloud_parseFile` says what is then in force for
`block_cloud`: off, when some line sets it and no line sets it to a true value.
-/

namespace BambooNet.Config

open CString (atoi lower trim)

def newline : UInt8 := 0x0a

inductive CloudPrintMode where
  | cloudOnly
  | tryLanFirst
  | lanOnly
  | cloudForMakerWorldOnly
  deriving DecidableEq

/-- The defaults are those of a file without any key. -/
structure Settings where
  logLevel : Bytes := []
  logStderr : Bytes := []
  logToFile : Bytes := []
  logFile : Bytes := []
  cloudGlobalApiHost : Bytes := []
  cloudGlobalWebHost : Bytes := []
  cloudGlobalMqttHost : Bytes := []
  cloudCnApiHost : Bytes := []
  cloudCnWebHost : Bytes := []
  cloudCnMqttHost : Bytes := []
  lanTlsSkipVerify : Bool := false
  cloudMqttPort : ℤ := 8883
  blockCloud : Bool := true
  cloudPrint : CloudPrintMode := .cloudOnly
  cloudHideHistory : Bool := false
  cloudPushallOnConnect : Bool := true
  forceTimelapseExternal : Bool := false
  forceFtps : Bool := false
  disableCameraPreview : Bool := false
  preferLanOverTutk : Bool := false
  mqttKeepConnection : Bool := true
  overrideLanIp : Bool := false
  patchMqttHomeFlag : Bool := false
  patchMqttIpcamFile : Bool := false
  patchMqttInternalStorage : Bool := false
  filterMqttHms65543 : Bool := true
  expNumericSequenceId : Bool := false
  slicerKeyPem : Bytes := []
  slicerCertPem : Bytes := []
  slicerCrlPem : Bytes := []
  clientName : Bytes := []
  cloudOsType : Bytes := []
  executableInfo : Bytes := []
  mytaskPop : Bool := false
  mytaskPopSet : Bool := false
  bambusourceLogLevel : Bytes := []
  bambusourceLogStderr : Bytes := []
  bambusourceLogToFile : Bytes := []
  bambusourceLogFile : Bytes := []
  deriving DecidableEq

def truthy (val : Bytes) (fallback : Bool) : Bool :=
  let lc := lower val
  if lc = ascii "1" ∨ lc = ascii "true" ∨ lc = ascii "yes" then true
  else if lc = ascii "0" ∨ lc = ascii "false" ∨ lc = ascii "no" then false
  else fallback

def parseLine (line : Bytes) : Option (Bytes × Bytes) :=
  if line.head? = some 0x23 then none
  else
    match cutAt 0x3d line with
    | none => none
    | some (k, v) =>
      if k = [] then none
      else if trim k = [] then none
      else some (trim k, trim v)

def cloudPrintMode (val : Bytes) : CloudPrintMode :=
  let v := lower val
  if v = ascii "cloud_only" then .cloudOnly
  else if v = ascii "try_lan_first" then .tryLanFirst
  else if v = ascii "lan_only" then .lanOnly
  else if v = ascii "cloud_for_makerworld_only" then .cloudForMakerWorldOnly
  else .cloudOnly

/-- Every key with what its value does, in the order of the comparisons. -/
def setters : List (Bytes × (Settings → Bytes → Settings)) :=
  [(ascii "log_level", fun out val => { out with logLevel := val }),
   (ascii "log_stderr", fun out val => { out with logStderr := val }),
   (ascii "log_to_file", fun out val => { out with logToFile := val }),
   (ascii "log_file", fun out val => { out with logFile := val }),
   (ascii "cloud_global_api_host", fun out val => { out with cloudGlobalApiHost := val }),
   (ascii "cloud_global_web_host", fun out val => { out with cloudGlobalWebHost := val }),
   (ascii "cloud_global_mqtt_host", fun out val => { out with cloudGlobalMqttHost := val }),
   (ascii "cloud_cn_api_host", fun out val => { out with cloudCnApiHost := val }),
   (ascii "cloud_cn_web_host", fun out val => { out with cloudCnWebHost := val }),
   (ascii "cloud_cn_mqtt_host", fun out val => { out with cloudCnMqttHost := val }),
   (ascii "lan_tls_skip_verify", fun out val => { out with lanTlsSkipVerify := truthy val false }),
   (ascii "cloud_mqtt_port", fun out val =>
      if 0 < atoi val ∧ atoi val ≤ 65535 then { out with cloudMqttPort := atoi val } else out),
   (ascii "cloud_os_type", fun out val =>
      if lower val = ascii "windows" ∨ lower val = ascii "macos" ∨ lower val = ascii "linux" then
        { out with cloudOsType := lower val }
      else out),
   (ascii "block_cloud", fun out val => { out with blockCloud := truthy val false }),
   (ascii "cloud_hide_history", fun out val => { out with cloudHideHistory := truthy val false }),
   (ascii "cloud_pushall_on_connect", fun out val =>
      { out with cloudPushallOnConnect := truthy val false }),
   (ascii "cloud_print", fun out val => { out with cloudPrint := cloudPrintMode val }),
   (ascii "force_timelapse_external", fun out val =>
      { out with forceTimelapseExternal := truthy val false }),
   (ascii "force_ftps", fun out val => { out with forceFtps := truthy val false }),
   (ascii "disable_camera_preview", fun out val =>
      { out with disableCameraPreview := truthy val false }),
   (ascii "prefer_lan_over_tutk", fun out val =>
      { out with preferLanOverTutk := truthy val false }),
   (ascii "mqtt_keep_connection", fun out val =>
      { out with mqttKeepConnection := truthy val false }),
   (ascii "override_lan_ip", fun out val => { out with overrideLanIp := truthy val false }),
   (ascii "patch_mqtt_home_flag", fun out val =>
      { out with patchMqttHomeFlag := truthy val false }),
   (ascii "patch_mqtt_ipcam_file", fun out val =>
      { out with patchMqttIpcamFile := truthy val false }),
   (ascii "patch_mqtt_internal_storage", fun out val =>
      { out with patchMqttInternalStorage := truthy val false }),
   (ascii "exp_numeric_sequence_id", fun out val =>
      { out with expNumericSequenceId := truthy val false }),
   (ascii "filter_mqtt_hms_65543", fun out val =>
      { out with filterMqttHms65543 := truthy val false }),
   (ascii "slicer_key_pem", fun out val => { out with slicerKeyPem := val }),
   (ascii "slicer_cert_pem", fun out val => { out with slicerCertPem := val }),
   (ascii "slicer_crl_pem", fun out val => { out with slicerCrlPem := val }),
   (ascii "client_name", fun out val => { out with clientName := val }),
   (ascii "executable_info", fun out val => { out with executableInfo := val }),
   (ascii "mytask_pop", fun out val =>
      { out with
        mytaskPopSet := lower val ≠ ascii "auto"
        mytaskPop := if lower val ≠ ascii "auto" then truthy val false else false }),
   (ascii "bambusource_log_level", fun out val => { out with bambusourceLogLevel := val }),
   (ascii "bambusource_log_stderr", fun out val => { out with bambusourceLogStderr := val }),
   (ascii "bambusource_log_to_file", fun out val => { out with bambusourceLogToFile := val }),
   (ascii "bambusource_log_file", fun out val => { out with bambusourceLogFile := val })]

@[grind =] def applyKey (out : Settings) (key val : Bytes) : Settings :=
  match setters.find? (·.1 = key) with
  | none => out
  | some s => s.2 out val

def applyLine (out : Settings) (line : Bytes) : Settings :=
  match parseLine line with
  | none => out
  | some (key, val) => applyKey out key val

/-- The settings of a file, those of an empty one when it cannot be opened. -/
def parseFile : Option Bytes → Settings
  | none => {}
  | some text => (splitLines newline text).foldl applyLine {}

/-! ## The line in force -/

/-- The value that a line gives to `block_cloud`. -/
def blockCloudOf (line : Bytes) : Option Bytes :=
  match parseLine line with
  | none => none
  | some (key, val) => if key = ascii "block_cloud" then some val else none

theorem applyKey_blockCloud (out : Settings) (val : Bytes) :
    (applyKey out (ascii "block_cloud") val).blockCloud = truthy val false := by
  have hfind : setters.find? (·.1 = ascii "block_cloud") =
      some (ascii "block_cloud", fun out val => { out with blockCloud := truthy val false }) := by
    rfl
  rw [applyKey, hfind]

theorem setters_keep : ∀ s ∈ setters, s.1 = ascii "block_cloud" ∨
    ∀ out val, (s.2 out val).blockCloud = out.blockCloud := by
  unfold setters
  repeat' refine List.forall_mem_cons.2 ⟨?_, ?_⟩
  all_goals
    first
    | exact .inr fun _ _ => rfl
    | exact .inr fun _ _ => (apply_ite Settings.blockCloud _ _ _).trans (ite_self _)
    | exact .inl rfl
    | exact List.forall_mem_nil _

theorem applyKey_of_ne {key : Bytes} (h : key ≠ ascii "block_cloud") (out : Settings)
    (val : Bytes) : (applyKey out key val).blockCloud = out.blockCloud := by
  unfold applyKey
  cases hfind : setters.find? (·.1 = key) with
  | none => rfl
  | some s =>
    have hkey : s.1 = key := by simpa using List.find?_some hfind
    rcases setters_keep s (List.mem_of_find?_eq_some hfind) with heq | hkeep
    · exact absurd (hkey ▸ heq) h
    · exact hkeep out val

theorem applyLine_blockCloud (out : Settings) (line : Bytes) :
    (applyLine out line).blockCloud =
      match blockCloudOf line with
      | none => out.blockCloud
      | some val => truthy val false := by
  unfold applyLine blockCloudOf
  cases parseLine line with
  | none => rfl
  | some kv =>
    obtain ⟨key, val⟩ := kv
    by_cases hkey : key = ascii "block_cloud"
    · subst hkey
      exact applyKey_blockCloud out val
    · simp only [if_neg hkey]
      exact applyKey_of_ne hkey out val

theorem blockCloud_foldl {ls : List Bytes} {out : Settings}
    (hoff : ∀ l ∈ ls, ∀ val, blockCloudOf l = some val → truthy val false = false)
    (hset : out.blockCloud = false ∨ ∃ l ∈ ls, blockCloudOf l ≠ none) :
    (ls.foldl applyLine out).blockCloud = false := by
  induction ls generalizing out with
  | nil =>
    rcases hset with hset | ⟨l, hl, -⟩
    · exact hset
    · cases hl
  | cons l ls ih =>
    obtain ⟨hl, hls⟩ := List.forall_mem_cons.1 hoff
    have hline := applyLine_blockCloud out l
    apply ih hls
    cases hval : blockCloudOf l with
    | some val =>
      rw [hval] at hline
      exact .inl (hline.trans (hl val hval))
    | none =>
      rw [hval] at hline
      rcases hset with hset | ⟨l', hl', hne⟩
      · exact .inl (hline.trans hset)
      · rcases List.mem_cons.1 hl' with rfl | hl'
        · exact absurd hval hne
        · exact .inr ⟨l', hl', hne⟩

/-- Some line sets `block_cloud`, and none to a true value. -/
theorem blockCloud_parseFile {text : Bytes}
    (hoff : ∀ l ∈ splitLines newline text, ∀ val,
      blockCloudOf l = some val → truthy val false = false)
    (hset : ∃ l ∈ splitLines newline text, blockCloudOf l ≠ none) :
    (parseFile (some text)).blockCloud = false :=
  blockCloud_foldl hoff (.inr hset)

end BambooNet.Config
