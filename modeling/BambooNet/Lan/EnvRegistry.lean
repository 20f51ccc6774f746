import BambooNet.Lan.StateFile
import BambooNet.Lib.Runs
import Mathlib.Data.List.TakeWhile

/-!
# The LAN registry

The registry of the networking library: which serial and which certificate belong to an address,
and where the CA file is. The first call that needs it reads the first `obn.env` on a search path,
which the process environment and the configuration directory determine. Every change is mirrored
into the environment, and the file in the configuration directory is written anew.

Logging and the access mode of the file are left out, and the temporary file, which is renamed
into place, is the outcome of a write (`Disk`).
-/

namespace BambooNet.Lan.EnvRegistry

/-! ## The environment -/

abbrev Env := Bytes → Option Bytes

/-- A string up to its first NUL, as C reads it. -/
def cstr (s : Bytes) : Bytes := s.takeWhile (· ≠ 0)

/-- `setenv`, which fails for an empty key and for one with an equals sign. -/
def setEnvVar (key val : Bytes) (env : Env) : Env :=
  if cstr key = [] || (cstr key).contains equals then env
  else Function.update env (cstr key) (some (cstr val))

def envVarGetOs (env : Env) (key : Bytes) : Option Bytes :=
  if cstr key = [] then none else (env (cstr key)).filter (· ≠ [])

def isLanTlsIpcKey (key : Bytes) : Bool := ascii "OBN_LAN_TLS_" <+: key

def isObnIpcEnvKey (key : Bytes) : Bool :=
  key = kEnvForceFtps || key = kEnvSkipVerify || key = kEnvDisableCameraPreview ||
    key = kEnvBsLogLevel || key = kEnvBsLogStderr || key = kEnvBsLogToFile ||
    key = kEnvBsLogFile || isLanTlsIpcKey key

/-- A value that is in the environment already is newer than the file. -/
def applyStateLine (env : Env) (line : Bytes) : Env :=
  if line = [] ∨ line.head? = some 0x23 then env
  else
    match cutAt equals line with
    | none => env
    | some (key, val) =>
      if key = [] then env
      else if key ≠ kEnvConfigDir ∧ isObnIpcEnvKey (cstr key) = false then env
      else if (envVarGetOs env key).isSome then env
      else setEnvVar key val env

/-! ## Paths -/

/-- `operator/` of a path and a relative one. -/
def joinPath (base name : Bytes) : Bytes :=
  if base = [] then name
  else if base.getLast? = some 0x2f then base ++ name
  else base ++ 0x2f :: name

def statePath (dir : Bytes) : Bytes := joinPath dir kLanTlsStateFile

/-- Where the state file is looked for, the best place first. -/
def stateFileSearchPaths (configDir : Bytes) (env : Env) : List Bytes :=
  let add (base : Bytes) : List Bytes := if base = [] then [] else [statePath base]
  add configDir ++
  (match envVarGetOs env kEnvConfigDir with
    | none => []
    | some cfg => add cfg) ++
  (match env (ascii "XDG_CONFIG_HOME") with
    | none => []
    | some xdg =>
      add (joinPath xdg (ascii "OrcaSlicer")) ++ add (joinPath xdg (ascii "BambuStudio"))) ++
  (match env (ascii "HOME") with
    | none => []
    | some home =>
      let config := joinPath home (ascii ".config")
      add (joinPath config (ascii "OrcaSlicer")) ++ add (joinPath config (ascii "BambuStudio")))

/-! ## States -/

structure State where
  env : Env
  /-- The regular files that can be read, by path. -/
  files : Bytes → Option Bytes
  configDir : Bytes := []
  reg : Registry := {}
  /-- The state file has been looked for. -/
  hydrated : Bool := false

/-- A process that has called nothing yet. -/
def fresh (env : Env) (files : Bytes → Option Bytes) : State := { env, files }

/-- What the outside decides in one call: whether a write succeeds, and the order of the maps. -/
structure Disk where
  ok : Bool
  order : IterOrder

def hydrateOnce (s : State) : State :=
  if s.hydrated then s
  else
    match (stateFileSearchPaths s.configDir s.env).findSome? s.files with
    | none => { s with hydrated := true }
    | some text =>
      let lines := splitLines newline text
      { s with
        env := lines.foldl applyStateLine s.env
        reg := lines.foldl mergeLine s.reg
        hydrated := true }

def writeStateFile (d : Disk) (s : State) : State :=
  if s.configDir = [] then s
  else if d.ok then
    { s with
      files := Function.update s.files (statePath s.configDir) (some (stateText d.order s.reg)) }
  else s

def syncCaEnv (r : Registry) (env : Env) : Env :=
  if r.caFile = [] then setEnvVar kEnvCaFile [] env else setEnvVar kEnvCaFile r.caFile env

def syncIpEnv (ip serial : Bytes) (env : Env) : Env := setEnvVar (envKeyForIp ip) serial env

def syncPeerEnv (ip path : Bytes) (env : Env) : Env := setEnvVar (peerEnvKeyForIp ip) path env

def syncRegistry (d : Disk) (s : State) : State :=
  let serials := d.order.serials s.reg.ipToSerial.entries
  let peers := d.order.peers s.reg.ipToPeerCert.entries
  let env := syncCaEnv s.reg s.env
  let env := serials.foldl (fun env e => syncIpEnv e.1 e.2 env) env
  let env := peers.foldl (fun env e => syncPeerEnv e.1 e.2 env) env
  writeStateFile d { s with env }

/-! ## Calls -/

def registrySetConfigDir (d : Disk) (dir : Bytes) (s : State) : State :=
  let s := hydrateOnce s
  if s.configDir = dir then s
  else
    let s := { s with configDir := dir }
    syncRegistry d (if dir = [] then s else { s with env := setEnvVar kEnvConfigDir dir s.env })

def registrySetCaFile (d : Disk) (path : Bytes) (s : State) : State :=
  let s := hydrateOnce s
  if s.reg.caFile = path then s
  else
    let r := { s.reg with caFile := path }
    writeStateFile d { s with reg := r, env := syncCaEnv r s.env }

def registryPutIpSerial (d : Disk) (ip serial : Bytes) (s : State) : State :=
  if ip = [] ∨ serial = [] then s
  else
    let s := hydrateOnce s
    if s.reg.ipToSerial.get? ip = some serial then s
    else
      writeStateFile d { s with
        reg := { s.reg with ipToSerial := s.reg.ipToSerial.insert ip serial }
        env := syncIpEnv ip serial s.env }

/-- The empty path takes the certificate out. -/
def registrySetPeerCert (d : Disk) (ip path : Bytes) (s : State) : State :=
  if ip = [] then s
  else
    let s := hydrateOnce s
    if path = [] then
      if s.reg.ipToPeerCert.get? ip = none then s
      else
        writeStateFile d { s with
          reg := { s.reg with ipToPeerCert := s.reg.ipToPeerCert.erase ip }
          env := syncPeerEnv ip path s.env }
    else if s.reg.ipToPeerCert.get? ip = some path then s
    else
      writeStateFile d { s with
        reg := { s.reg with ipToPeerCert := s.reg.ipToPeerCert.insert ip path }
        env := syncPeerEnv ip path s.env }

def setIfNonempty (key val : Bytes) (env : Env) : Env :=
  if val = [] then env else setEnvVar key val env

def setFlag (key : Bytes) (flag : Bool) (env : Env) : Env :=
  setEnvVar key (if flag then [0x31] else [0x30]) env

def propagateCrossSoEnv (d : Disk) (cfg : Settings) (s : State) : State :=
  let s := hydrateOnce s
  let env := setFlag kEnvForceFtps cfg.forceFtps s.env
  let env := setFlag kEnvSkipVerify cfg.lanTlsSkipVerify env
  let env := setFlag kEnvDisableCameraPreview cfg.disableCameraPreview env
  let env := setIfNonempty kEnvBsLogLevel cfg.bambusourceLogLevel env
  let env := setIfNonempty kEnvBsLogStderr cfg.bambusourceLogStderr env
  let env := setIfNonempty kEnvBsLogToFile cfg.bambusourceLogToFile env
  let env := setIfNonempty kEnvBsLogFile cfg.bambusourceLogFile env
  writeStateFile d { s with reg := { s.reg with cfg }, env }

def registryLookupSerial (ip : Bytes) (s : State) : Option Bytes × State :=
  let s := hydrateOnce s
  (s.reg.ipToSerial.get? ip, s)

/-- The first address with a serial, and the empty string where there is none. -/
def registryIpForSerial (o : IterOrder) (serial : Bytes) (s : State) : Bytes × State :=
  if serial = [] then ([], s)
  else
    let s := hydrateOnce s
    (((o.serials s.reg.ipToSerial.entries).find? fun e => e.2 = serial).elim [] (·.1), s)

def envVarGet (key : Bytes) (s : State) : Option Bytes × State :=
  if cstr key = [] then (none, s)
  else
    match envVarGetOs s.env key with
    | some v => (some v, s)
    | none =>
      if isObnIpcEnvKey (cstr key) then
        let s := hydrateOnce s
        (envVarGetOs s.env key, s)
      else (none, s)

def peerCertPathForIp (ip : Bytes) (s : State) : Option Bytes × State :=
  if cstr ip = [] then (none, s) else envVarGet (peerEnvKeyForIp (cstr ip)) s

inductive Call
  | setConfigDir (dir : Bytes)
  | setCaFile (path : Bytes)
  | putIpSerial (ip serial : Bytes)
  | setPeerCert (ip path : Bytes)
  | propagate (cfg : Settings)
  | lookupSerial (ip : Bytes)
  | ipForSerial (serial : Bytes)
  /-- A look at the environment, also for the certificate of an address or the CA file. -/
  | envVar (key : Bytes)

structure Event where
  call : Call
  disk : Disk

def step (s : State) (e : Event) : State :=
  match e.call with
  | .setConfigDir dir => registrySetConfigDir e.disk dir s
  | .setCaFile path => registrySetCaFile e.disk path s
  | .putIpSerial ip serial => registryPutIpSerial e.disk ip serial s
  | .setPeerCert ip path => registrySetPeerCert e.disk ip path s
  | .propagate cfg => propagateCrossSoEnv e.disk cfg s
  | .lookupSerial ip => (registryLookupSerial ip s).2
  | .ipForSerial serial => (registryIpForSerial e.disk.order serial s).2
  | .envVar key => (envVarGet key s).2

/-- The lines of the state file in a directory. -/
def stateFile (dir : Bytes) (s : State) : List Bytes :=
  ((s.files (statePath dir)).map (splitLines newline)).getD []

/-! ## Frames of the environment -/

theorem setEnvVar_of_ne {key k : Bytes} (h : cstr key ≠ k) (val : Bytes) (env : Env) :
    setEnvVar key val env k = env k := by
  rw [setEnvVar]
  split
  · rfl
  · exact Function.update_of_ne (Ne.symm h) _ _

theorem setEnvVar_self {key k : Bytes} (h : cstr key = k) (hne : k ≠ []) (heq : equals ∉ k)
    (val : Bytes) (env : Env) : setEnvVar key val env k = some (cstr val) := by
  subst h
  rw [setEnvVar, if_neg (by simp [hne, heq]), Function.update_self]

theorem cstr_append {a : Bytes} (h : 0 ∉ a) (b : Bytes) : cstr (a ++ b) = a ++ cstr b := by
  refine List.takeWhile_append_of_pos fun c hc => decide_eq_true ?_
  rintro rfl
  exact h hc

theorem cstr_eq_self_iff {a : Bytes} : cstr a = a ↔ 0 ∉ a := by
  rw [cstr, List.takeWhile_eq_self_iff]
  constructor
  · intro h hmem
    exact of_decide_eq_true (h 0 hmem) rfl
  · rintro h c hc
    refine decide_eq_true ?_
    rintro rfl
    exact h hc

/-- The variables of the certificates are not written under any other name. -/
theorem cstr_ne_peerKey {a : Bytes} (h0 : 0 ∉ a) (hab : ¬ a <+: kEnvPeerPrefix)
    (hba : ¬ kEnvPeerPrefix <+: a) (x ip : Bytes) : cstr (a ++ x) ≠ Table.peer.key ip := by
  rw [cstr_append h0]
  exact append_ne_append hab hba _ _

theorem plainKey_ne_peerKey {key : Bytes}
    (h : key ∈ kEnvCaFile :: kEnvConfigDir :: plainKeys) (ip : Bytes) :
    cstr key ≠ Table.peer.key ip := by
  have hkeys : ∀ key ∈ kEnvCaFile :: kEnvConfigDir :: plainKeys,
      0 ∉ key ∧ ¬ key <+: kEnvPeerPrefix ∧ ¬ kEnvPeerPrefix <+: key := by decide
  obtain ⟨h0, hab, hba⟩ := hkeys key h
  simpa using cstr_ne_peerKey h0 hab hba [] ip

theorem syncIpEnv_peerKey (ip serial ip' : Bytes) (env : Env) :
    syncIpEnv ip serial env (Table.peer.key ip') = env (Table.peer.key ip') :=
  setEnvVar_of_ne (cstr_ne_peerKey (by decide) (by decide) (by decide) _ _) _ _

theorem syncCaEnv_peerKey (r : Registry) (ip : Bytes) (env : Env) :
    syncCaEnv r env (Table.peer.key ip) = env (Table.peer.key ip) := by
  have hne : cstr kEnvCaFile ≠ Table.peer.key ip := plainKey_ne_peerKey List.mem_cons_self ip
  rw [syncCaEnv]
  split <;> exact setEnvVar_of_ne hne _ _

/-- After the mirroring of certificates a variable has the value of the entries for it. -/
theorem foldl_syncPeerEnv {l : List (Bytes × Bytes)} {k v : Bytes} (hk : k ≠ [])
    (heq : equals ∉ k) (hl : ∀ e ∈ l, cstr (peerEnvKeyForIp e.1) = k → cstr e.2 = v) (env : Env)
    (h : env k = some v ∨ ∃ e ∈ l, cstr (peerEnvKeyForIp e.1) = k) :
    l.foldl (fun env e => syncPeerEnv e.1 e.2 env) env k = some v := by
  induction l generalizing env with
  | nil => exact h.resolve_right fun ⟨e, he, _⟩ => List.not_mem_nil he
  | cons e l ih =>
    refine ih (fun e' he' => hl e' (List.mem_cons_of_mem _ he')) _ ?_
    by_cases hkey : cstr (peerEnvKeyForIp e.1) = k
    · left
      exact (setEnvVar_self hkey hk heq _ _).trans (congrArg some (hl e List.mem_cons_self hkey))
    · rcases h with h | ⟨e', he', hkey'⟩
      · exact .inl ((setEnvVar_of_ne hkey _ _).trans h)
      · rcases List.mem_cons.1 he' with rfl | he'
        · exact absurd hkey' hkey
        · exact .inr ⟨e', he', hkey'⟩

theorem setFlag_peerKey {key : Bytes} (h : key ∈ plainKeys) (flag : Bool) (ip : Bytes) (env : Env) :
    setFlag key flag env (Table.peer.key ip) = env (Table.peer.key ip) :=
  setEnvVar_of_ne (plainKey_ne_peerKey (by simp [h]) ip) _ _

theorem setIfNonempty_peerKey {key : Bytes} (h : key ∈ plainKeys) (val ip : Bytes) (env : Env) :
    setIfNonempty key val env (Table.peer.key ip) = env (Table.peer.key ip) := by
  rw [setIfNonempty]
  split
  · rfl
  · exact setEnvVar_of_ne (plainKey_ne_peerKey (by simp [h]) ip) _ _

/-! ## Frames of the calls -/

@[simp] theorem writeStateFile_env (d : Disk) (s : State) : (writeStateFile d s).env = s.env := by
  unfold writeStateFile
  split_ifs <;> rfl

@[simp] theorem writeStateFile_reg (d : Disk) (s : State) : (writeStateFile d s).reg = s.reg := by
  unfold writeStateFile
  split_ifs <;> rfl

@[simp] theorem writeStateFile_configDir (d : Disk) (s : State) :
    (writeStateFile d s).configDir = s.configDir := by
  unfold writeStateFile
  split_ifs <;> rfl

@[simp] theorem writeStateFile_hydrated (d : Disk) (s : State) :
    (writeStateFile d s).hydrated = s.hydrated := by
  unfold writeStateFile
  split_ifs <;> rfl

theorem hydrateOnce_of_hydrated {s : State} (h : s.hydrated = true) : hydrateOnce s = s :=
  if_pos h

@[simp] theorem hydrateOnce_hydrated (s : State) : (hydrateOnce s).hydrated = true := by
  unfold hydrateOnce
  split
  · assumption
  · split <;> rfl

@[simp] theorem hydrateOnce_configDir (s : State) : (hydrateOnce s).configDir = s.configDir := by
  unfold hydrateOnce
  split
  · rfl
  · split <;> rfl

@[simp] theorem hydrateOnce_files (s : State) : (hydrateOnce s).files = s.files := by
  unfold hydrateOnce
  split
  · rfl
  · split <;> rfl

@[simp] theorem hydrateOnce_hydrateOnce (s : State) : hydrateOnce (hydrateOnce s) = hydrateOnce s :=
  hydrateOnce_of_hydrated (hydrateOnce_hydrated s)

/-- A call returns at once or looks for the state file first. -/
theorem step_hydrateOnce (s : State) (e : Event) :
    step s e = s ∨ step s e = step (hydrateOnce s) e := by
  obtain ⟨call, d⟩ := e
  cases call with
  | setConfigDir dir => exact .inr (by simp [step, registrySetConfigDir])
  | setCaFile path => exact .inr (by simp [step, registrySetCaFile])
  | putIpSerial ip serial =>
    by_cases h : ip = [] ∨ serial = []
    · exact .inl (if_pos h)
    · exact .inr (by simp only [step, registryPutIpSerial, if_neg h, hydrateOnce_hydrateOnce])
  | setPeerCert ip path =>
    by_cases h : ip = []
    · exact .inl (if_pos h)
    · exact .inr (by simp only [step, registrySetPeerCert, if_neg h, hydrateOnce_hydrateOnce])
  | propagate cfg => exact .inr (by simp [step, propagateCrossSoEnv])
  | lookupSerial ip => exact .inr (by simp [step, registryLookupSerial])
  | ipForSerial serial =>
    by_cases h : serial = []
    · exact .inl (by simp [step, registryIpForSerial, h])
    · exact .inr (by simp [step, registryIpForSerial, h])
  | envVar key =>
    simp only [step, envVarGet]
    split
    · exact .inl rfl
    · split
      · exact .inl rfl
      · split
        · refine .inr ?_
          split
          · rfl
          · exact (hydrateOnce_hydrateOnce s).symm
        · exact .inl rfl

theorem configDir_step (s : State) (e : Event) : (step s e).configDir =
    match e.call with
    | .setConfigDir dir => dir
    | _ => s.configDir := by
  obtain ⟨call, d⟩ := e
  cases call with
  | setConfigDir dir =>
    simp only [step, registrySetConfigDir, syncRegistry]
    split
    · assumption
    · split <;> simp
  | setCaFile path =>
    simp only [step, registrySetCaFile]
    split <;> simp
  | putIpSerial ip serial =>
    simp only [step, registryPutIpSerial]
    split_ifs <;> simp
  | setPeerCert ip path =>
    simp only [step, registrySetPeerCert]
    split_ifs <;> simp
  | propagate cfg => simp [step, propagateCrossSoEnv]
  | lookupSerial ip => simp [step, registryLookupSerial]
  | ipForSerial serial =>
    simp only [step, registryIpForSerial]
    split <;> simp
  | envVar key =>
    simp only [step, envVarGet]
    split
    · rfl
    · split
      · rfl
      · split <;> simp

theorem stateFile_writeStateFile {d : Disk} {s : State} (hdir : s.configDir ≠ [])
    (hok : d.ok = true) : stateFile s.configDir (writeStateFile d s) =
      splitLines newline (stateText d.order s.reg) := by
  rw [writeStateFile, if_neg hdir, if_pos hok, stateFile]
  simp

/-- A line that is written again stays, also where the write fails. -/
theorem mem_stateFile_writeStateFile {dir l : Bytes} {s : State}
    (hdirs : s.configDir = [] ∨ s.configDir = dir) (hold : l ∈ stateFile dir s)
    (hl : newline ∉ l) (d : Disk)
    (hnew : d.ok = true → s.configDir ≠ [] → l ∈ stateLines d.order s.reg) :
    l ∈ stateFile dir (writeStateFile d s) := by
  by_cases hdir : s.configDir = []
  · rwa [writeStateFile, if_pos hdir]
  · cases hok : d.ok with
    | false => rwa [writeStateFile, if_neg hdir, hok, if_neg Bool.false_ne_true]
    | true =>
      have hfile := stateFile_writeStateFile hdir hok
      rw [hdirs.resolve_left hdir] at hfile
      rw [hfile]
      exact mem_splitLines_unlines (hnew hok hdir) hl

end BambooNet.Lan.EnvRegistry
