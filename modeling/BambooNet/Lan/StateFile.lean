import BambooNet.Lib.Decimal
import BambooNet.Lib.Lines
import BambooNet.Lib.SortedMap

/-!
# The state file of the LAN registry

`obn.env` holds one `KEY=value` line for each entry of the registry. The two maps, from an address
to its serial and to its peer certificate, are written under keys that spell the address with
underscores, and read back by the first line for each address (`statePairs`). Whatever the order in
which the maps are walked, what is written is read back (`get?_statePairs_stateLines`).
-/

namespace BambooNet.Lan.EnvRegistry

/-! ## Keys -/

def kEnvCaFile : Bytes := ascii "OBN_LAN_TLS_CA_FILE"

def kEnvConfigDir : Bytes := ascii "OBN_CONFIG_DIR"

def kEnvIpPrefix : Bytes := ascii "OBN_LAN_TLS_IP_"

def kEnvPeerPrefix : Bytes := ascii "OBN_LAN_TLS_PEER_"

def kEnvSkipVerify : Bytes := ascii "OBN_SKIP_TLS_VERIFY"

def kEnvForceFtps : Bytes := ascii "OBN_FORCE_FTPS"

def kEnvDisableCameraPreview : Bytes := ascii "OBN_DISABLE_CAMERA_PREVIEW"

def kEnvBsLogLevel : Bytes := ascii "OBN_BAMBUSOURCE_LOG_LEVEL"

def kEnvBsLogStderr : Bytes := ascii "OBN_BAMBUSOURCE_LOG_STDERR"

def kEnvBsLogToFile : Bytes := ascii "OBN_BAMBUSOURCE_LOG_TO_FILE"

def kEnvBsLogFile : Bytes := ascii "OBN_BAMBUSOURCE_LOG_FILE"

def kLanTlsStateFile : Bytes := ascii "obn.env"

def newline : UInt8 := 0x0a

def equals : UInt8 := 0x3d

def dot : UInt8 := 0x2e

def underscore : UInt8 := 0x5f

/-- One byte put in another's place. -/
def replaceByte (a b c : UInt8) : UInt8 := if c = a then b else c

def envKeyForIpPrefix (ip pfx : Bytes) : Bytes := pfx ++ ip.map (replaceByte dot underscore)

def envKeyForIp (ip : Bytes) : Bytes := envKeyForIpPrefix ip kEnvIpPrefix

def peerEnvKeyForIp (ip : Bytes) : Bytes := envKeyForIpPrefix ip kEnvPeerPrefix

/-- The reverse of `envKeyForIpPrefix`. -/
def ipFromStateKey (key pfx : Bytes) : Option Bytes :=
  if key.length ≤ pfx.length ∨ ¬ pfx <+: key then none
  else
    let ip := key.drop pfx.length
    if (ip.all fun c => c = underscore || isDigit c) ∧ ip.count underscore = 3 then
      some (ip.map (replaceByte underscore dot))
    else none

/-- Digits and three separators, as in every IPv4 address. -/
structure Quad (sep : UInt8) (ip : Bytes) : Prop where
  chars : ∀ c ∈ ip, c = sep ∨ isDigit c = true
  seps : ip.count sep = 3

theorem Quad.ne_nil {sep : UInt8} {ip : Bytes} (h : Quad sep ip) : ip ≠ [] := by
  rintro rfl
  cases h.seps

theorem Quad.replace {a b : UInt8} {ip : Bytes} (h : Quad a ip) (hb : isDigit b = false) :
    Quad b (ip.map (replaceByte a b)) := by
  refine ⟨fun c hc => ?_, ?_⟩
  · obtain ⟨c', hc', rfl⟩ := List.mem_map.1 hc
    by_cases heq : c' = a
    · exact .inl (if_pos heq)
    · rw [replaceByte, if_neg heq]
      exact .inr ((h.chars c' hc').resolve_left heq)
  · rw [← h.seps, List.count_eq_countP, List.countP_map, List.count_eq_countP]
    refine List.countP_congr fun c hc => ?_
    by_cases heq : c = a
    · simp [replaceByte, heq]
    · have hd := (h.chars c hc).resolve_left heq
      have hne : c ≠ b := fun hcb => Bool.false_ne_true (hb.symm.trans (hcb ▸ hd))
      simp [replaceByte, heq, hne]

theorem Quad.map_map {a b : UInt8} {ip : Bytes} (h : Quad a ip) (hb : isDigit b = false) :
    (ip.map (replaceByte a b)).map (replaceByte b a) = ip := by
  rw [List.map_map]
  conv_rhs => rw [← List.map_id ip]
  refine List.map_congr_left fun c hc => ?_
  rw [Function.comp_apply, id]
  by_cases heq : c = a
  · simp [replaceByte, heq]
  · have hd := (h.chars c hc).resolve_left heq
    have hne : c ≠ b := fun hcb => Bool.false_ne_true (hb.symm.trans (hcb ▸ hd))
    simp [replaceByte, heq, hne]

/-- The keys that are read back are those of such addresses. -/
theorem ipFromStateKey_eq_some_iff {key pfx ip : Bytes} :
    ipFromStateKey key pfx = some ip ↔ key = envKeyForIpPrefix ip pfx ∧ Quad dot ip := by
  constructor
  · intro h
    simp only [ipFromStateKey] at h
    split at h
    · cases h
    · next hlen =>
      obtain ⟨rest, rfl⟩ := not_not.1 (not_or.1 hlen).2
      rw [List.drop_left] at h
      split at h
      · next hrest =>
        have hquad : Quad underscore rest := ⟨by simpa using hrest.1, hrest.2⟩
        cases h
        rw [envKeyForIpPrefix, hquad.map_map (by decide)]
        exact ⟨rfl, hquad.replace (by decide)⟩
      · cases h
  · rintro ⟨rfl, h⟩
    have hrest := h.replace (b := underscore) (by decide)
    have hlen : 0 < (ip.map (replaceByte dot underscore)).length :=
      List.length_pos_iff.2 hrest.ne_nil
    have hkey : ¬ ((envKeyForIpPrefix ip pfx).length ≤ pfx.length ∨
        ¬ pfx <+: envKeyForIpPrefix ip pfx) := by
      rw [envKeyForIpPrefix, List.length_append]
      exact not_or.2 ⟨by omega, not_not.2 (List.prefix_append _ _)⟩
    have hdrop : (envKeyForIpPrefix ip pfx).drop pfx.length = ip.map (replaceByte dot underscore) :=
      List.drop_left
    rw [ipFromStateKey, if_neg hkey, hdrop]
    exact (if_pos ⟨by simpa using hrest.chars, hrest.seps⟩).trans
      (congrArg some (h.map_map (by decide)))

theorem Quad.key_injective {ip ip' pfx : Bytes} (h : Quad dot ip) (h' : Quad dot ip')
    (heq : envKeyForIpPrefix ip pfx = envKeyForIpPrefix ip' pfx) : ip = ip' := by
  rw [← h.map_map (b := underscore) (by decide), ← h'.map_map (b := underscore) (by decide),
    List.append_cancel_left heq]

/-- A byte that is neither a digit nor an underscore is not in the key of an address. -/
theorem Quad.not_mem_key {ip pfx : Bytes} (h : Quad dot ip) {c : UInt8} (hpfx : c ∉ pfx)
    (hc : isDigit c = false) (hne : c ≠ underscore) : c ∉ envKeyForIpPrefix ip pfx := by
  intro hmem
  rcases List.mem_append.1 hmem with hmem | hmem
  · exact hpfx hmem
  · rcases (h.replace (b := underscore) (by decide)).chars c hmem with h | h
    · exact hne h
    · exact Bool.false_ne_true (hc.symm.trans h)

/-! ## The registry -/

/-- The settings that are mirrored for the other library. -/
structure Settings where
  forceFtps : Bool := false
  lanTlsSkipVerify : Bool := false
  disableCameraPreview : Bool := false
  bambusourceLogLevel : Bytes := []
  bambusourceLogStderr : Bytes := []
  bambusourceLogToFile : Bytes := []
  bambusourceLogFile : Bytes := []

/-- The globals that the file is written from. -/
structure Registry where
  caFile : Bytes := []
  ipToSerial : SortedMap Bytes Bytes := ∅
  ipToPeerCert : SortedMap Bytes Bytes := ∅
  cfg : Settings := {}

/-- The two maps of the registry. -/
inductive Table
  | serial
  | peer
  deriving DecidableEq

def Table.pfx : Table → Bytes
  | .serial => kEnvIpPrefix
  | .peer => kEnvPeerPrefix

def Table.key (t : Table) (ip : Bytes) : Bytes := envKeyForIpPrefix ip t.pfx

def Registry.table (r : Registry) : Table → SortedMap Bytes Bytes
  | .serial => r.ipToSerial
  | .peer => r.ipToPeerCert

/-- The order in which the hash maps are walked, which nothing promises. -/
structure IterOrder where
  serials : List (Bytes × Bytes) → List (Bytes × Bytes)
  peers : List (Bytes × Bytes) → List (Bytes × Bytes)
  serials_perm (l : List (Bytes × Bytes)) : (serials l).Perm l
  peers_perm (l : List (Bytes × Bytes)) : (peers l).Perm l

/-! ## Writing -/

def entryLine (key val : Bytes) : Bytes := key ++ equals :: val

/-- A line for a value that is set. -/
def optLine (key val : Bytes) : List Bytes := if val = [] then [] else [entryLine key val]

def flagLine (key : Bytes) (flag : Bool) : Bytes := entryLine key (if flag then [0x31] else [0x30])

def headerLine : Bytes := ascii "# Open Bamboo Networking LAN TLS IPC (auto-generated)"

def cfgLines (cfg : Settings) : List Bytes :=
  [flagLine kEnvForceFtps cfg.forceFtps, flagLine kEnvSkipVerify cfg.lanTlsSkipVerify,
    flagLine kEnvDisableCameraPreview cfg.disableCameraPreview] ++
  optLine kEnvBsLogLevel cfg.bambusourceLogLevel ++
  optLine kEnvBsLogStderr cfg.bambusourceLogStderr ++
  optLine kEnvBsLogToFile cfg.bambusourceLogToFile ++
  optLine kEnvBsLogFile cfg.bambusourceLogFile

/-- The lines that `write_state_file_locked` writes. -/
def stateLines (o : IterOrder) (r : Registry) : List Bytes :=
  headerLine :: (optLine kEnvCaFile r.caFile ++
    ((o.serials r.ipToSerial.entries).flatMap fun e => optLine (envKeyForIp e.1) e.2) ++
    ((o.peers r.ipToPeerCert.entries).flatMap fun e => optLine (peerEnvKeyForIp e.1) e.2) ++
    cfgLines r.cfg)

def stateText (o : IterOrder) (r : Registry) : Bytes := unlines newline (stateLines o r)

/-! ## Reading -/

/-- What a line adds to a map. -/
def linePair (t : Table) (line : Bytes) : Option (Bytes × Bytes) :=
  (cutAt equals line).bind fun e =>
    if e.2 = [] then none else (ipFromStateKey e.1 t.pfx).map (·, e.2)

/-- The pairs of a map, in the order of their lines. -/
def statePairs (t : Table) (lines : List Bytes) : List (Bytes × Bytes) :=
  lines.filterMap (linePair t)

/-- `unordered_map::emplace`, which keeps the value of a key that is there. -/
def emplace (m : SortedMap Bytes Bytes) (k v : Bytes) : SortedMap Bytes Bytes :=
  if (m.get? k).isSome then m else m.insert k v

/-- The merge of one line into the maps. -/
def mergeLine (r : Registry) (line : Bytes) : Registry :=
  match cutAt equals line with
  | none => r
  | some (key, val) =>
    if key = [] then r
    else if val = [] then r
    else
      match ipFromStateKey key kEnvIpPrefix with
      | some ip => { r with ipToSerial := emplace r.ipToSerial ip val }
      | none =>
        match ipFromStateKey key kEnvPeerPrefix with
        | some pip => { r with ipToPeerCert := emplace r.ipToPeerCert pip val }
        | none => r

/-! ## Lines and tables -/

/-- No line of one map has the key of the other. -/
theorem Table.key_ne {t t' : Table} (h : t ≠ t') (ip ip' : Bytes) : t.key ip ≠ t'.key ip' := by
  cases t <;> cases t' <;>
    first | exact absurd rfl h | exact append_ne_append (by decide) (by decide) _ _

theorem Table.equals_not_mem_key {t : Table} {ip : Bytes} (h : Quad dot ip) :
    equals ∉ t.key ip :=
  h.not_mem_key (by cases t <;> decide) (by decide) (by decide)

theorem Table.newline_not_mem_key {t : Table} {ip : Bytes} (h : Quad dot ip) :
    newline ∉ t.key ip :=
  h.not_mem_key (by cases t <;> decide) (by decide) (by decide)

theorem Table.zero_not_mem_key {t : Table} {ip : Bytes} (h : Quad dot ip) : 0 ∉ t.key ip :=
  h.not_mem_key (by cases t <;> decide) (by decide) (by decide)

theorem linePair_eq_some_iff {t : Table} {line ip v : Bytes} :
    linePair t line = some (ip, v) ↔ line = entryLine (t.key ip) v ∧ Quad dot ip ∧ v ≠ [] := by
  rw [linePair, Option.bind_eq_some_iff]
  constructor
  · rintro ⟨⟨key, val⟩, hcut, h⟩
    obtain ⟨rfl, -⟩ := cutAt_eq_some_iff.1 hcut
    split at h
    · cases h
    · next hval =>
      obtain ⟨ip', hip, heq⟩ := Option.map_eq_some_iff.1 h
      cases heq
      obtain ⟨rfl, hquad⟩ := ipFromStateKey_eq_some_iff.1 hip
      exact ⟨rfl, hquad, hval⟩
  · rintro ⟨rfl, hquad, hv⟩
    have hip : ipFromStateKey (t.key ip) t.pfx = some ip :=
      ipFromStateKey_eq_some_iff.2 ⟨rfl, hquad⟩
    exact ⟨(t.key ip, v), cutAt_eq_some_iff.2 ⟨rfl, Table.equals_not_mem_key hquad⟩,
      by simp [hv, hip]⟩

theorem get?_emplace (m : SortedMap Bytes Bytes) (k v k' : Bytes) :
    (emplace m k v).get? k' = (m.get? k').or (if k' = k then some v else none) := by
  rw [emplace]
  by_cases hk : k' = k
  · subst hk
    cases hm : m.get? k' <;> simp [hm]
  · cases hm : m.get? k <;> simp [hk]

/-- A line is merged into the map that its key names, unless the address is there already. -/
theorem table_mergeLine (r : Registry) (line : Bytes) (t : Table) (ip : Bytes) :
    ((mergeLine r line).table t).get? ip =
      ((r.table t).get? ip).or (Entries.get? ip (linePair t line).toList) := by
  have hnone (h : linePair t line = none) :
      ((r.table t).get? ip).or (Entries.get? ip (linePair t line).toList) =
        (r.table t).get? ip := by
    rw [h]
    exact Option.or_none
  rw [mergeLine]
  cases hcut : cutAt equals line with
  | none => exact (hnone (by rw [linePair, hcut]; rfl)).symm
  | some e =>
    obtain ⟨key, val⟩ := e
    dsimp only
    split
    · next hkey =>
      have hip : ipFromStateKey key t.pfx = none := by subst hkey; cases t <;> rfl
      exact (hnone (by rw [linePair, hcut]; simp [hip])).symm
    · split
      · next hval => exact (hnone (by rw [linePair, hcut]; simp [hval])).symm
      · next hval =>
        have hpair : linePair t line = (ipFromStateKey key t.pfx).map (·, val) := by
          rw [linePair, hcut]
          exact if_neg hval
        have hsome (ip' : Bytes) (h : ipFromStateKey key t.pfx = some ip') :
            Entries.get? ip (linePair t line).toList = if ip = ip' then some val else none := by
          rw [hpair, h]
          simp [Entries.get?]
        cases hs : ipFromStateKey key kEnvIpPrefix with
        | some ip' =>
          cases t with
          | serial => exact (get?_emplace _ _ _ _).trans (congrArg _ (hsome ip' hs).symm)
          | peer =>
            -- the key of a serial is not the key of a certificate
            have hip : ipFromStateKey key kEnvPeerPrefix = none := by
              refine Option.eq_none_iff_forall_ne_some.2 fun pip hpip => ?_
              have hkey := (ipFromStateKey_eq_some_iff.1 hs).1
              exact Table.key_ne (show Table.serial ≠ .peer from fun h => by cases h) ip' pip
                (hkey.symm.trans (ipFromStateKey_eq_some_iff.1 hpip).1)
            exact (hnone (by rw [hpair]; exact congrArg _ hip)).symm
        | none =>
          cases hp : ipFromStateKey key kEnvPeerPrefix with
          | some pip =>
            cases t with
            | serial => exact (hnone (by rw [hpair]; exact congrArg _ hs)).symm
            | peer => exact (get?_emplace _ _ _ _).trans (congrArg _ (hsome pip hp).symm)
          | none =>
            have hip : ipFromStateKey key t.pfx = none := by
              cases t with
              | serial => exact hs
              | peer => exact hp
            exact (hnone (by rw [hpair, hip]; rfl)).symm

theorem get?_append (ip : Bytes) (l l' : List (Bytes × Bytes)) :
    Entries.get? ip (l ++ l') = (Entries.get? ip l).or (Entries.get? ip l') := by
  induction l with
  | nil => rfl
  | cons e l ih =>
    simp only [List.cons_append, Entries.get?]
    split
    · rfl
    · exact ih

/-- **Of the lines for an address the first one counts**, and only if the map has none yet. -/
theorem table_mergeLines (lines : List Bytes) (r : Registry) (t : Table) (ip : Bytes) :
    ((lines.foldl mergeLine r).table t).get? ip =
      ((r.table t).get? ip).or (Entries.get? ip (statePairs t lines)) := by
  induction lines generalizing r with
  | nil => exact Option.or_none.symm
  | cons line lines ih =>
    have hpairs : statePairs t (line :: lines) =
        (linePair t line).toList ++ statePairs t lines := by
      rw [statePairs, List.filterMap_cons]
      cases linePair t line <;> rfl
    rw [List.foldl_cons, ih, table_mergeLine, hpairs, get?_append, Option.or_assoc]

/-! ## Round trip -/

theorem mem_stateLines {o : IterOrder} {r : Registry} {l : Bytes} :
    l ∈ stateLines o r ↔ l = headerLine ∨ l ∈ optLine kEnvCaFile r.caFile ∨
      (∃ t : Table, ∃ ip v, (r.table t).get? ip = some v ∧ v ≠ [] ∧ l = entryLine (t.key ip) v) ∨
      l ∈ cfgLines r.cfg := by
  have hopt (key v : Bytes) : l ∈ optLine key v ↔ v ≠ [] ∧ l = entryLine key v := by
    rw [optLine]
    split
    · next h => simp [h]
    · next h => simp [h]
  have htable (m : SortedMap Bytes Bytes) (key : Bytes → Bytes) (es : List (Bytes × Bytes))
      (hes : es.Perm m.entries) : l ∈ es.flatMap (fun e => optLine (key e.1) e.2) ↔
        ∃ ip v, m.get? ip = some v ∧ v ≠ [] ∧ l = entryLine (key ip) v := by
    rw [List.mem_flatMap]
    constructor
    · rintro ⟨⟨ip, v⟩, he, hl⟩
      exact ⟨ip, v, SortedMap.mem_entries.1 (hes.mem_iff.1 he), (hopt _ _).1 hl⟩
    · rintro ⟨ip, v, hget, hl⟩
      exact ⟨(ip, v), hes.mem_iff.2 (SortedMap.mem_entries.2 hget), (hopt _ _).2 hl⟩
  rw [stateLines, List.mem_cons, List.mem_append, List.mem_append, List.mem_append,
    htable _ _ _ (o.serials_perm _), htable _ _ _ (o.peers_perm _), or_assoc, or_assoc]
  refine or_congr_right (or_congr_right ?_)
  rw [← or_assoc]
  refine or_congr_left ⟨fun h => ?_, ?_⟩
  · rcases h with h | h
    · exact ⟨.serial, h⟩
    · exact ⟨.peer, h⟩
  · rintro ⟨t, h⟩
    cases t with
    | serial => exact .inl h
    | peer => exact .inr h

/-- The keys of the lines that come from no map. -/
def plainKeys : List Bytes :=
  [kEnvForceFtps, kEnvSkipVerify, kEnvDisableCameraPreview, kEnvBsLogLevel, kEnvBsLogStderr,
    kEnvBsLogToFile, kEnvBsLogFile]

/-- The values of the lines that come from no map. -/
def cfgValues (cfg : Settings) : List Bytes :=
  [[0x30], [0x31], cfg.bambusourceLogLevel, cfg.bambusourceLogStderr, cfg.bambusourceLogToFile,
    cfg.bambusourceLogFile]

theorem exists_key_of_mem_cfgLines {cfg : Settings} {l : Bytes} (h : l ∈ cfgLines cfg) :
    ∃ key ∈ plainKeys, ∃ v ∈ cfgValues cfg, l = entryLine key v := by
  have hopt {key v : Bytes} (hkey : key ∈ plainKeys) (hv : v ∈ cfgValues cfg)
      (h : l ∈ optLine key v) : ∃ key ∈ plainKeys, ∃ v ∈ cfgValues cfg, l = entryLine key v := by
    rw [optLine] at h
    split at h
    · cases h
    · exact ⟨key, hkey, v, hv, List.mem_singleton.1 h⟩
  have hflag {key : Bytes} {b : Bool} (hkey : key ∈ plainKeys) (h : l = flagLine key b) :
      ∃ key ∈ plainKeys, ∃ v ∈ cfgValues cfg, l = entryLine key v := by
    refine ⟨key, hkey, if b then [0x31] else [0x30], ?_, h⟩
    cases b <;> simp [cfgValues]
  simp only [cfgLines, List.mem_append, List.mem_cons, List.not_mem_nil, or_false] at h
  rcases h with ((((h | h | h) | h) | h) | h) | h
  · exact hflag (by simp [plainKeys]) h
  · exact hflag (by simp [plainKeys]) h
  · exact hflag (by simp [plainKeys]) h
  · exact hopt (by simp [plainKeys]) (by simp [cfgValues]) h
  · exact hopt (by simp [plainKeys]) (by simp [cfgValues]) h
  · exact hopt (by simp [plainKeys]) (by simp [cfgValues]) h
  · exact hopt (by simp [plainKeys]) (by simp [cfgValues]) h

/-- The header and the settings have keys of their own. -/
theorem plain_ne {pfx : Bytes} (hpfx : pfx ∈ [kEnvCaFile, kEnvIpPrefix, kEnvPeerPrefix])
    (cfg : Settings) (x : Bytes) : pfx ++ x ≠ headerLine ∧ pfx ++ x ∉ cfgLines cfg := by
  have hkeys : ∀ pfx ∈ [kEnvCaFile, kEnvIpPrefix, kEnvPeerPrefix],
      ∀ key ∈ headerLine :: plainKeys, ¬ pfx <+: key ∧ ¬ key <+: pfx := by decide
  constructor
  · intro h
    obtain ⟨hab, hba⟩ := hkeys pfx hpfx headerLine List.mem_cons_self
    exact append_ne_append hab hba x [] (h.trans (List.append_nil _).symm)
  · intro h
    obtain ⟨key, hkey, v, -, heq⟩ := exists_key_of_mem_cfgLines h
    obtain ⟨hab, hba⟩ := hkeys pfx hpfx key (List.mem_cons_of_mem _ hkey)
    exact append_ne_append hab hba x _ heq

theorem Table.pfx_mem (t : Table) : t.pfx ∈ [kEnvCaFile, kEnvIpPrefix, kEnvPeerPrefix] := by
  cases t <;> simp [Table.pfx]

/-- The addresses of a registry are all of the kind that is read back. -/
def Registry.Quads (r : Registry) : Prop :=
  ∀ t ip v, (r.table t).get? ip = some v → Quad dot ip

/-- No value of a registry breaks its line. -/
structure Registry.OneLine (r : Registry) : Prop where
  caFile : newline ∉ r.caFile
  table : ∀ t ip v, (r.table t).get? ip = some v → newline ∉ v
  logLevel : newline ∉ r.cfg.bambusourceLogLevel
  logStderr : newline ∉ r.cfg.bambusourceLogStderr
  logToFile : newline ∉ r.cfg.bambusourceLogToFile
  logFile : newline ∉ r.cfg.bambusourceLogFile

theorem entryLine_injective {key key' v v' : Bytes} (h : equals ∉ key) (h' : equals ∉ key')
    (heq : entryLine key v = entryLine key' v') : key = key' ∧ v = v' :=
  append_cons_inj h h' heq

/-- The line of a pair is written for that pair alone. -/
theorem get?_of_mem_stateLines {o : IterOrder} {r : Registry} {t : Table} {ip v : Bytes}
    (hr : r.Quads) (hip : Quad dot ip) (h : entryLine (t.key ip) v ∈ stateLines o r) :
    (r.table t).get? ip = some v := by
  have hline : entryLine (t.key ip) v =
      t.pfx ++ (ip.map (replaceByte dot underscore) ++ equals :: v) := List.append_assoc _ _ _
  rcases mem_stateLines.1 h with h | h | ⟨t', ip', v', hget, -, heq⟩ | h
  · exact absurd (hline.symm.trans h) (plain_ne t.pfx_mem r.cfg _).1
  · rw [optLine] at h
    split at h
    · cases h
    · have heq := (List.mem_singleton.1 h).symm.trans hline
      cases t <;> exact absurd heq (append_ne_append (by decide) (by decide) _ _)
  · obtain ⟨hkey, rfl⟩ := entryLine_injective (Table.equals_not_mem_key hip)
      (Table.equals_not_mem_key (hr _ _ _ hget)) heq
    by_cases ht : t = t'
    · subst ht
      rwa [hip.key_injective (hr _ _ _ hget) hkey]
    · exact absurd hkey (Table.key_ne ht _ _)
  · exact absurd (hline ▸ h) (plain_ne t.pfx_mem r.cfg _).2

/-- The line of the CA file is written for the CA file alone. -/
theorem caFile_of_mem_stateLines {o : IterOrder} {r : Registry} {v : Bytes}
    (h : entryLine kEnvCaFile v ∈ stateLines o r) : r.caFile = v ∧ v ≠ [] := by
  have hpfx : kEnvCaFile ∈ [kEnvCaFile, kEnvIpPrefix, kEnvPeerPrefix] := List.mem_cons_self
  rcases mem_stateLines.1 h with h | h | ⟨t, ip, v', -, -, heq⟩ | h
  · exact absurd h (plain_ne hpfx r.cfg _).1
  · rw [optLine] at h
    split at h
    · cases h
    · next hne =>
      have heq := (entryLine_injective (by decide) (by decide) (List.mem_singleton.1 h)).2
      exact ⟨heq.symm, heq ▸ hne⟩
  · have heq : kEnvCaFile ++ equals :: v = t.pfx ++
        (ip.map (replaceByte dot underscore) ++ equals :: v') :=
      heq.trans (List.append_assoc _ _ _)
    cases t <;> exact absurd heq (append_ne_append (by decide) (by decide) _ _)
  · exact absurd h (plain_ne hpfx r.cfg _).2

theorem splitLines_stateText {o : IterOrder} {r : Registry} (hr : r.Quads) (h : r.OneLine) :
    splitLines newline (stateText o r) = stateLines o r := by
  have hentry {key v : Bytes} (hkey : newline ∉ key) (hv : newline ∉ v) :
      newline ∉ entryLine key v := by
    simp only [entryLine, List.mem_append, List.mem_cons, not_or]
    exact ⟨hkey, by decide, hv⟩
  refine splitLines_unlines fun l hl => ?_
  rcases mem_stateLines.1 hl with rfl | hl | ⟨t, ip, v, hget, -, rfl⟩ | hl
  · decide
  · rw [optLine] at hl
    split at hl
    · cases hl
    · rw [List.mem_singleton.1 hl]
      exact hentry (by decide) h.caFile
  · exact hentry (Table.newline_not_mem_key (hr t ip v hget)) (h.table t ip v hget)
  · obtain ⟨key, hkey, v, hv, rfl⟩ := exists_key_of_mem_cfgLines hl
    have hkeys : ∀ key ∈ plainKeys, newline ∉ key := by decide
    refine hentry (hkeys key hkey) ?_
    simp only [cfgValues, List.mem_cons, List.not_mem_nil, or_false] at hv
    rcases hv with rfl | rfl | rfl | rfl | rfl | rfl
    · decide
    · decide
    · exact h.logLevel
    · exact h.logStderr
    · exact h.logToFile
    · exact h.logFile

theorem get?_eq_some_of_unique {l : List (Bytes × Bytes)} {ip v : Bytes} (hmem : (ip, v) ∈ l)
    (huniq : ∀ w, (ip, w) ∈ l → w = v) : Entries.get? ip l = some v := by
  induction l with
  | nil => cases hmem
  | cons e l ih =>
    obtain ⟨ip', w⟩ := e
    rw [Entries.get?]
    split
    · next heq =>
      subst heq
      rw [huniq w List.mem_cons_self]
    · next hne =>
      refine ih ?_ fun w hw => huniq w (List.mem_cons_of_mem _ hw)
      rcases List.mem_cons.1 hmem with heq | hmem
      · exact absurd (Prod.mk.inj heq).1 hne
      · exact hmem

/-- **What is written is read back.** -/
theorem get?_statePairs_stateLines {o : IterOrder} {r : Registry} (hr : r.Quads) {t : Table}
    {ip v : Bytes} (hget : (r.table t).get? ip = some v) (hv : v ≠ []) :
    Entries.get? ip (statePairs t (stateLines o r)) = some v := by
  have hip := hr t ip v hget
  refine get?_eq_some_of_unique ?_ fun w hw => ?_
  · refine List.mem_filterMap.2 ⟨entryLine (t.key ip) v, ?_, linePair_eq_some_iff.2 ⟨rfl, hip, hv⟩⟩
    exact mem_stateLines.2 (.inr (.inr (.inl ⟨t, ip, v, hget, hv, rfl⟩)))
  · obtain ⟨l, hl, hpair⟩ := List.mem_filterMap.1 hw
    obtain ⟨rfl, -, -⟩ := linePair_eq_some_iff.1 hpair
    exact Option.some.inj ((get?_of_mem_stateLines hr hip hl).symm.trans hget)

end BambooNet.Lan.EnvRegistry
