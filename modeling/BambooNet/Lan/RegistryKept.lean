import BambooNet.Lan.EnvRegistry

/-!
# Pairs that survive a restart

A fresh process reads the state file before it knows its configuration directory, and it reads one
file only. Then the file in the configuration directory is written from what was read.

**Theorem (`registry_kept_iff`).** The pairs that were saved are found and stay in the file, over
every run of calls that do not overwrite them, exactly when the first file on the search path of the
environment has them, and no saved path of a certificate contains a NUL.

The CA file is never read back. Its line stays in runs where every other call that writes the file
comes after the path was set again. The run that only configures the directory loses it.
-/

namespace BambooNet.Lan.EnvRegistry

/-! ## Runs -/

/-- The pair is in a map that was saved. -/
def Persisted (r₀ : Registry) (t : Table) (ip v : Bytes) : Prop :=
  (r₀.table t).get? ip = some v ∧ v ≠ []

/-- What the directory `dir` holds was written from `r₀`. -/
structure Saved (dir : Bytes) (r₀ : Registry) (o : IterOrder) (files : Bytes → Option Bytes) :
    Prop where
  dir_ne : dir ≠ []
  file : files (statePath dir) = some (stateText o r₀)
  quads : r₀.Quads
  oneLine : r₀.OneLine

/-- Only this directory is configured. -/
def OnlyDir (dir : Bytes) (es : List Event) : Prop :=
  ∀ e ∈ es, ∀ d, e.call = .setConfigDir d → d = dir

/-- The call gives the address another value. A certificate is looked up by its variable, so that a
call for an address with the same variable counts. -/
def Overwrites (t : Table) (ip v : Bytes) (c : Call) : Prop :=
  match t, c with
  | .serial, .putIpSerial ip' serial => ip' = ip ∧ serial ≠ [] ∧ serial ≠ v
  | .peer, .setPeerCert ip' path => cstr (peerEnvKeyForIp ip') = Table.peer.key ip ∧ path ≠ v
  | _, _ => False

/-- The lookups of the pair, for a serial in both directions. -/
def FoundBy (t : Table) (ip v : Bytes) (s : State) : Prop :=
  match t with
  | .serial => (registryLookupSerial ip s).1 = some v ∧
      ∀ o, (registryLookupSerial (registryIpForSerial o v s).1 s).1 = some v
  | .peer => (peerCertPathForIp ip s).1 = some v

/-- **Every pair that was saved and not overwritten is found and is in the file**, over every run
that configures the directory. -/
def PairsKept (dir : Bytes) (r₀ : Registry) (env : Env) (files : Bytes → Option Bytes) : Prop :=
  ∀ es, OnlyDir dir es → (∃ e ∈ es, e.call = .setConfigDir dir) →
    ∀ t ip v, Persisted r₀ t ip v → (∀ e ∈ es, ¬ Overwrites t ip v e.call) →
      FoundBy t ip v (run step (fresh env files) es) ∧
        entryLine (t.key ip) v ∈ stateFile dir (run step (fresh env files) es)

/-- The CA file is only ever set to the path that was saved. -/
def OnlyCa (r₀ : Registry) (es : List Event) : Prop :=
  ∀ e ∈ es, ∀ path, e.call = .setCaFile path → path = r₀.caFile

/-- **The line of the CA file stays**, over every run of updates of other entries. -/
def CaKept (dir : Bytes) (r₀ : Registry) (env : Env) (files : Bytes → Option Bytes) : Prop :=
  r₀.caFile ≠ [] → ∀ es, OnlyDir dir es → OnlyCa r₀ es →
    entryLine kEnvCaFile r₀.caFile ∈ stateFile dir (run step (fresh env files) es)

/-- The lines of the first file on the search path of a fresh process. -/
def foundLines (env : Env) (files : Bytes → Option Bytes) : List Bytes :=
  (((stateFileSearchPaths [] env).findSome? files).map (splitLines newline)).getD []

/-- The first line for each saved address in the file that a fresh process finds has the saved
value, and no saved path has a NUL. -/
structure Restorable (r₀ : Registry) (env : Env) (files : Bytes → Option Bytes) : Prop where
  first : ∀ t ip v, Persisted r₀ t ip v →
    Entries.get? ip (statePairs t (foundLines env files)) = some v
  noNul : ∀ ip v, Persisted r₀ .peer ip v → 0 ∉ v

/-- The file of the directory itself is such a file. -/
theorem restorable_of_found {dir : Bytes} {r₀ : Registry} {o : IterOrder} {env : Env}
    {files : Bytes → Option Bytes} (h : Saved dir r₀ o files)
    (hfound : (stateFileSearchPaths [] env).findSome? files = some (stateText o r₀))
    (hnul : ∀ ip v, Persisted r₀ .peer ip v → 0 ∉ v) : Restorable r₀ env files := by
  refine ⟨fun t ip v hp => ?_, hnul⟩
  have hlines : foundLines env files = stateLines o r₀ := by
    rw [foundLines, hfound]
    exact splitLines_stateText h.quads h.oneLine
  rw [hlines]
  exact get?_statePairs_stateLines h.quads hp.1 hp.2

/-! ## Saved pairs -/

/-- A pair that has been read stays in its map and in the file. The variable of a certificate has
its value as soon as the directory is configured. -/
structure Kept (dir : Bytes) (t : Table) (ip v : Bytes) (s : State) : Prop where
  hydrated : s.hydrated = true
  pair : (s.reg.table t).get? ip = some v
  line : entryLine (t.key ip) v ∈ stateFile dir s
  dirs : s.configDir = [] ∨ s.configDir = dir
  peers : t = .peer → ∀ ip' w, s.reg.ipToPeerCert.get? ip' = some w →
    cstr (peerEnvKeyForIp ip') = t.key ip → w = v
  env : t = .peer → s.configDir ≠ [] → s.env (t.key ip) = some v

section

variable {dir : Bytes} {t : Table} {ip v : Bytes} {s : State}

theorem Kept.write (h : Kept dir t ip v s) (hv : v ≠ []) (hline : newline ∉ entryLine (t.key ip) v)
    (d : Disk) : Kept dir t ip v (writeStateFile d s) where
  hydrated := (writeStateFile_hydrated d s).trans h.hydrated
  pair := by rw [writeStateFile_reg]; exact h.pair
  line := mem_stateFile_writeStateFile h.dirs h.line hline d fun _ _ =>
    mem_stateLines.2 (.inr (.inr (.inl ⟨t, ip, v, h.pair, hv, rfl⟩)))
  dirs := by rw [writeStateFile_configDir]; exact h.dirs
  peers := by rw [writeStateFile_reg]; exact h.peers
  env := by rw [writeStateFile_configDir, writeStateFile_env]; exact h.env

/-- A change that spares the maps and the variables of the certificates. -/
theorem Kept.of_env (h : Kept dir t ip v s) {r : Registry} {env : Env}
    (hreg : r.table = s.reg.table) (henv : env (Table.peer.key ip) = s.env (Table.peer.key ip)) :
    Kept dir t ip v { s with reg := r, env := env } where
  hydrated := h.hydrated
  pair := (congrArg (fun f => (f t).get? ip) hreg).trans h.pair
  line := h.line
  dirs := h.dirs
  peers ht ip' w hget := h.peers ht ip' w
    ((congrArg (fun f => (f .peer).get? ip') hreg).symm.trans hget)
  env ht hne := by
    subst ht
    exact henv.trans (h.env rfl hne)

/-- Configuring the directory mirrors the pair into its variable. -/
theorem Kept.configure (h : Kept dir t ip v s) (hip : Quad dot ip) (hnul : t = .peer → 0 ∉ v)
    (o : IterOrder) (env : Env) :
    Kept dir t ip v { s with
      configDir := dir
      env := (o.peers s.reg.ipToPeerCert.entries).foldl (fun env e => syncPeerEnv e.1 e.2 env)
        env } where
  hydrated := h.hydrated
  pair := h.pair
  line := h.line
  dirs := .inr rfl
  peers := h.peers
  env := by
    intro ht _
    subst ht
    have hmem (e : Bytes × Bytes) : e ∈ o.peers s.reg.ipToPeerCert.entries ↔
        s.reg.ipToPeerCert.get? e.1 = some e.2 :=
      (o.peers_perm _).mem_iff.trans SortedMap.mem_entries
    have hself : cstr (peerEnvKeyForIp ip) = Table.peer.key ip :=
      cstr_eq_self_iff.2 (Table.zero_not_mem_key hip : 0 ∉ Table.peer.key ip)
    refine foldl_syncPeerEnv ?_ (Table.equals_not_mem_key hip) (fun e he hkey => ?_) _
      (.inr ⟨(ip, v), (hmem _).2 h.pair, hself⟩)
    · exact List.append_ne_nil_of_left_ne_nil (by decide) _
    · rw [h.peers rfl e.1 e.2 ((hmem e).1 he) hkey]
      exact cstr_eq_self_iff.2 (hnul rfl)

/-- A serial for another address, or the same serial. -/
theorem Kept.put_serial (h : Kept dir t ip v s) {ip' serial : Bytes} (hne : serial ≠ [])
    (hover : ¬ Overwrites t ip v (.putIpSerial ip' serial)) :
    Kept dir t ip v { s with
      reg := { s.reg with ipToSerial := s.reg.ipToSerial.insert ip' serial }
      env := syncIpEnv ip' serial s.env } where
  hydrated := h.hydrated
  pair := by
    cases t with
    | serial =>
      refine (SortedMap.get?_insert _ _ _ _).trans ?_
      split
      · next heq => exact congrArg some (by_contra fun hv => hover ⟨heq.symm, hne, hv⟩)
      · exact h.pair
    | peer => exact h.pair
  line := h.line
  dirs := h.dirs
  peers := h.peers
  env ht hdir := by
    subst ht
    exact (syncIpEnv_peerKey _ _ _ _).trans (h.env rfl hdir)

/-- A path for an address with another variable, or the same path. -/
theorem Kept.set_peer (h : Kept dir t ip v s) (hip : Quad dot ip) (hv : v ≠ [])
    (hnul : t = .peer → 0 ∉ v) {ip' path : Bytes}
    (hover : ¬ Overwrites t ip v (.setPeerCert ip' path)) {m : SortedMap Bytes Bytes}
    (hm : ∀ k, m.get? k = if k = ip' then (if path = [] then none else some path)
      else s.reg.ipToPeerCert.get? k) :
    Kept dir t ip v { s with
      reg := { s.reg with ipToPeerCert := m }
      env := syncPeerEnv ip' path s.env } := by
  cases t with
  | serial =>
    exact ⟨h.hydrated, h.pair, h.line, h.dirs, (fun ht => by cases ht), fun ht => by cases ht⟩
  | peer =>
    have hself : cstr (peerEnvKeyForIp ip) = Table.peer.key ip :=
      cstr_eq_self_iff.2 (Table.zero_not_mem_key hip : 0 ∉ Table.peer.key ip)
    have hsame (hkey : cstr (peerEnvKeyForIp ip') = Table.peer.key ip) : path = v :=
      by_contra fun hne => hover ⟨hkey, hne⟩
    refine ⟨h.hydrated, ?_, h.line, h.dirs, fun _ ip'' w hget hkey => ?_, fun _ hdir => ?_⟩
    · refine (hm ip).trans ?_
      split
      · next heq =>
        obtain rfl := hsame (heq ▸ hself)
        exact if_neg hv
      · exact h.pair
    · have hget := (hm ip'').symm.trans hget
      split at hget
      · next heq =>
        split at hget
        · cases hget
        · exact (Option.some.inj hget).symm.trans (hsame (heq ▸ hkey))
      · exact h.peers rfl ip'' w hget hkey
    · by_cases hkey : cstr (peerEnvKeyForIp ip') = Table.peer.key ip
      · obtain rfl := hsame hkey
        refine (setEnvVar_self hkey ?_ (Table.equals_not_mem_key hip) _ _).trans
          (congrArg some (cstr_eq_self_iff.2 (hnul rfl)))
        exact List.append_ne_nil_of_left_ne_nil (by decide) _
      · exact (setEnvVar_of_ne hkey _ _).trans (h.env rfl hdir)

theorem Kept.step (h : Kept dir t ip v s) (hip : Quad dot ip) (hv : v ≠ [])
    (hone : newline ∉ v) (hnul : t = .peer → 0 ∉ v) (e : Event)
    (hdir : ∀ d, e.call = .setConfigDir d → d = dir) (hover : ¬ Overwrites t ip v e.call) :
    Kept dir t ip v (EnvRegistry.step s e) := by
  have hline : newline ∉ entryLine (t.key ip) v := by
    simp only [entryLine, List.mem_append, List.mem_cons, not_or]
    exact ⟨Table.newline_not_mem_key hip, by decide, hone⟩
  have hs : hydrateOnce s = s := hydrateOnce_of_hydrated h.hydrated
  obtain ⟨call, d⟩ := e
  cases call with
  | setConfigDir dir' =>
    obtain rfl := hdir dir' rfl
    simp only [EnvRegistry.step, registrySetConfigDir, syncRegistry, hs]
    split
    · exact h
    · split
      · exact (h.configure hip hnul d.order _).write hv hline d
      · exact (h.configure hip hnul d.order _).write hv hline d
  | setCaFile path =>
    simp only [EnvRegistry.step, registrySetCaFile, hs]
    split
    · exact h
    · refine (h.of_env ?_ (syncCaEnv_peerKey _ _ _)).write hv hline d
      funext t
      cases t <;> rfl
  | putIpSerial ip' serial =>
    simp only [EnvRegistry.step, registryPutIpSerial, hs]
    split
    · exact h
    · next hne =>
      split
      · exact h
      · exact (h.put_serial (not_or.1 hne).2 hover).write hv hline d
  | setPeerCert ip' path =>
    simp only [EnvRegistry.step, registrySetPeerCert, hs]
    split
    · exact h
    · split
      · next hpath =>
        split
        · exact h
        · refine (h.set_peer hip hv hnul hover fun k => ?_).write hv hline d
          rw [SortedMap.get?_erase]
          by_cases hk : k = ip' <;> simp [hk, hpath]
      · next hpath =>
        split
        · exact h
        · refine (h.set_peer hip hv hnul hover fun k => ?_).write hv hline d
          rw [SortedMap.get?_insert]
          by_cases hk : k = ip' <;> simp [hk, hpath]
  | propagate cfg =>
    simp only [EnvRegistry.step, propagateCrossSoEnv, hs]
    refine (h.of_env ?_ ?_).write hv hline d
    · funext t
      cases t <;> rfl
    · rw [setIfNonempty_peerKey (by simp [plainKeys]), setIfNonempty_peerKey (by simp [plainKeys]),
        setIfNonempty_peerKey (by simp [plainKeys]), setIfNonempty_peerKey (by simp [plainKeys]),
        setFlag_peerKey (by simp [plainKeys]), setFlag_peerKey (by simp [plainKeys]),
        setFlag_peerKey (by simp [plainKeys])]
  | lookupSerial ip' =>
    simp only [EnvRegistry.step, registryLookupSerial, hs]
    exact h
  | ipForSerial serial =>
    simp only [EnvRegistry.step, registryIpForSerial, hs]
    split <;> exact h
  | envVar key =>
    simp only [EnvRegistry.step, envVarGet, hs]
    split
    · exact h
    · split
      · exact h
      · split <;> exact h

end

theorem peerCertPathForIp_fst {ip : Bytes} {s : State} (hip : Quad dot ip)
    (hs : s.hydrated = true) :
    (peerCertPathForIp ip s).1 = (s.env (Table.peer.key ip)).filter (· ≠ []) := by
  have hkey : cstr (peerEnvKeyForIp ip) = Table.peer.key ip :=
    cstr_eq_self_iff.2 (Table.zero_not_mem_key hip : 0 ∉ Table.peer.key ip)
  have hne : Table.peer.key ip ≠ [] := List.append_ne_nil_of_left_ne_nil (by decide) _
  have hzero : cstr ip = ip := cstr_eq_self_iff.2 fun h0 => by
    rcases hip.chars 0 h0 with h | h <;> exact absurd h (by decide)
  have hget : envVarGetOs s.env (peerEnvKeyForIp ip) =
      (s.env (Table.peer.key ip)).filter (· ≠ []) := by
    rw [envVarGetOs, hkey, if_neg hne]
  rw [peerCertPathForIp, hzero, if_neg hip.ne_nil, envVarGet, hkey, if_neg hne, ← hget]
  cases hval : envVarGetOs s.env (peerEnvKeyForIp ip) with
  | some v => rfl
  | none =>
    dsimp only
    split
    · rw [hydrateOnce_of_hydrated hs]
      exact hval
    · rfl

theorem Kept.found {dir : Bytes} {t : Table} {ip v : Bytes} {s : State} (h : Kept dir t ip v s)
    (hip : Quad dot ip) (hv : v ≠ []) (hdir : s.configDir ≠ []) : FoundBy t ip v s := by
  cases t with
  | serial =>
    have hs : hydrateOnce s = s := hydrateOnce_of_hydrated h.hydrated
    have hlookup (ip' : Bytes) : (registryLookupSerial ip' s).1 = s.reg.ipToSerial.get? ip' := by
      rw [registryLookupSerial, hs]
    refine ⟨(hlookup ip).trans h.pair, fun o => (hlookup _).trans ?_⟩
    have hmem : (ip, v) ∈ o.serials s.reg.ipToSerial.entries :=
      (o.serials_perm _).mem_iff.2 (SortedMap.mem_entries.2 h.pair)
    rw [registryIpForSerial, if_neg hv, hs]
    dsimp only
    cases hfind : (o.serials s.reg.ipToSerial.entries).find? fun e => e.2 = v with
    | none => exact absurd (decide_eq_true rfl) (List.find?_eq_none.1 hfind (ip, v) hmem)
    | some e =>
      have hval : e.2 = v := by simpa using List.find?_some hfind
      have he := (o.serials_perm _).mem_iff.1 (List.mem_of_find?_eq_some hfind)
      exact (SortedMap.mem_entries.1 he).trans (congrArg some hval)
  | peer =>
    rw [FoundBy, peerCertPathForIp_fst hip h.hydrated, h.env rfl hdir]
    simpa using hv

/-! ## From the start -/

section

variable {env : Env} {files : Bytes → Option Bytes}

theorem hydrateOnce_fresh_reg : (hydrateOnce (fresh env files)).reg =
    (foundLines env files).foldl mergeLine {} := by
  have hfresh : ¬ (fresh env files).hydrated = true := fun h => by cases h
  rw [hydrateOnce, if_neg hfresh, foundLines]
  dsimp only [fresh]
  cases (stateFileSearchPaths [] env).findSome? files <;> rfl

theorem get?_hydrateOnce_fresh (t : Table) (ip : Bytes) :
    ((hydrateOnce (fresh env files)).reg.table t).get? ip =
      Entries.get? ip (statePairs t (foundLines env files)) := by
  rw [hydrateOnce_fresh_reg, table_mergeLines]
  cases t <;> rfl

/-- What was read came from a line of its own. -/
theorem mem_foundLines {t : Table} {ip v : Bytes}
    (h : ((hydrateOnce (fresh env files)).reg.table t).get? ip = some v) :
    entryLine (t.key ip) v ∈ foundLines env files ∧ Quad dot ip := by
  rw [get?_hydrateOnce_fresh] at h
  obtain ⟨l, hl, hpair⟩ := List.mem_filterMap.1 (Entries.mem_of_get?_eq_some h)
  obtain ⟨rfl, hip, -⟩ := linePair_eq_some_iff.1 hpair
  exact ⟨hl, hip⟩

theorem quads_hydrateOnce_fresh : (hydrateOnce (fresh env files)).reg.Quads :=
  fun _ _ _ h => (mem_foundLines h).2

/-- The CA file and the settings are not read back. -/
theorem mergeLines_plain (lines : List Bytes) (r : Registry) :
    (lines.foldl mergeLine r).caFile = r.caFile ∧ (lines.foldl mergeLine r).cfg = r.cfg := by
  induction lines generalizing r with
  | nil => exact ⟨rfl, rfl⟩
  | cons line lines ih =>
    have hline : (mergeLine r line).caFile = r.caFile ∧ (mergeLine r line).cfg = r.cfg := by
      unfold mergeLine
      split
      · exact ⟨rfl, rfl⟩
      · split
        · exact ⟨rfl, rfl⟩
        · split
          · exact ⟨rfl, rfl⟩
          · split
            · exact ⟨rfl, rfl⟩
            · split <;> exact ⟨rfl, rfl⟩
    exact ⟨(ih _).1.trans hline.1, (ih _).2.trans hline.2⟩

theorem oneLine_hydrateOnce_fresh : (hydrateOnce (fresh env files)).reg.OneLine := by
  have hplain := mergeLines_plain (foundLines env files) {}
  rw [← hydrateOnce_fresh_reg] at hplain
  refine ⟨?_, fun t ip v h => ?_, ?_, ?_, ?_, ?_⟩
  · rw [hplain.1]
    exact List.not_mem_nil
  · have hline := (mem_foundLines h).1
    rw [foundLines] at hline
    cases hfile : (stateFileSearchPaths [] env).findSome? files with
    | none => rw [hfile] at hline; exact absurd hline List.not_mem_nil
    | some text =>
      rw [hfile] at hline
      have hnot := not_mem_of_mem_splitLines hline
      exact fun hmem => hnot (List.mem_append_right _ (List.mem_cons_of_mem _ hmem))
  all_goals
    rw [hplain.2]
    exact List.not_mem_nil

theorem kept_hydrateOnce_fresh {dir : Bytes} {r₀ : Registry} {o : IterOrder} {t : Table}
    {ip v : Bytes} (hsaved : Saved dir r₀ o files) (h : Restorable r₀ env files)
    (hp : Persisted r₀ t ip v) : Kept dir t ip v (hydrateOnce (fresh env files)) where
  hydrated := hydrateOnce_hydrated _
  pair := (get?_hydrateOnce_fresh t ip).trans (h.first t ip v hp)
  line := by
    have hfile : (hydrateOnce (fresh env files)).files (statePath dir) = some (stateText o r₀) :=
      (congrFun (hydrateOnce_files _) _).trans hsaved.file
    rw [stateFile, hfile, Option.map_some, splitLines_stateText hsaved.quads hsaved.oneLine]
    exact mem_stateLines.2 (.inr (.inr (.inl ⟨t, ip, v, hp.1, hp.2, rfl⟩)))
  dirs := .inl (hydrateOnce_configDir _)
  peers ht ip' w hget hkey := by
    subst ht
    -- what was read has addresses of its own
    have hget' : ((hydrateOnce (fresh env files)).reg.table .peer).get? ip' = some w := hget
    have hip' : Quad dot ip' := quads_hydrateOnce_fresh _ _ _ hget'
    have hself : cstr (peerEnvKeyForIp ip') = Table.peer.key ip' :=
      cstr_eq_self_iff.2 (Table.zero_not_mem_key hip' : 0 ∉ Table.peer.key ip')
    obtain rfl := hip'.key_injective (hsaved.quads _ _ _ hp.1) (hself.symm.trans hkey)
    exact Option.some.inj (hget'.symm.trans ((get?_hydrateOnce_fresh _ _).trans (h.first _ _ _ hp)))
  env _ hne := absurd (hydrateOnce_configDir _) hne

/-- A run that starts fresh has called nothing that counts, or the pair is kept. -/
theorem run_kept {dir : Bytes} {r₀ : Registry} {o : IterOrder} {t : Table} {ip v : Bytes}
    (hsaved : Saved dir r₀ o files) (h : Restorable r₀ env files) (hp : Persisted r₀ t ip v)
    {es : List Event} (hdir : OnlyDir dir es) (hover : ∀ e ∈ es, ¬ Overwrites t ip v e.call) :
    run step (fresh env files) es = fresh env files ∨
      Kept dir t ip v (run step (fresh env files) es) := by
  have hip : Quad dot ip := hsaved.quads t ip v hp.1
  have hone : newline ∉ v := hsaved.oneLine.table t ip v hp.1
  have hnul : t = .peer → 0 ∉ v := fun ht => h.noNul ip v (ht ▸ hp)
  have hok : ∀ e ∈ es, (∀ d, e.call = .setConfigDir d → d = dir) ∧ ¬ Overwrites t ip v e.call :=
    fun e he => ⟨hdir e he, hover e he⟩
  have hstep (s : State) (e : Event) (hs : s = fresh env files ∨ Kept dir t ip v s)
      (he : (∀ d, e.call = .setConfigDir d → d = dir) ∧ ¬ Overwrites t ip v e.call) :
      step s e = fresh env files ∨ Kept dir t ip v (step s e) := by
    rcases hs with rfl | hs
    · rcases step_hydrateOnce (fresh env files) e with heq | heq
      · exact .inl heq
      · rw [heq]
        exact .inr ((kept_hydrateOnce_fresh hsaved h hp).step hip hp.2 hone hnul e he.1 he.2)
    · exact .inr (hs.step hip hp.2 hone hnul e he.1 he.2)
  exact run_invariant hstep (.inl rfl) (Along.of_forall hok _)

theorem configDir_run {dir : Bytes} {es : List Event} (hdir : OnlyDir dir es)
    (h : ∃ e ∈ es, e.call = .setConfigDir dir) (s : State) : (run step s es).configDir = dir := by
  obtain ⟨e, he, hcall⟩ := h
  obtain ⟨es₁, es₂, rfl⟩ := List.append_of_mem he
  rw [run_append, run_cons]
  have hstep (s : State) (e : Event) (hs : s.configDir = dir)
      (he : ∀ d, e.call = .setConfigDir d → d = dir) : (step s e).configDir = dir := by
    rw [configDir_step]
    split
    · next d hd => exact he d hd
    · exact hs
  have hrest : ∀ e ∈ es₂, ∀ d, e.call = .setConfigDir d → d = dir := fun e he =>
    hdir e (List.mem_append_right _ (List.mem_cons_of_mem _ he))
  refine run_invariant hstep ?_ (Along.of_forall hrest _)
  rw [configDir_step, hcall]

/-- **What was saved and can be restored is kept.** -/
theorem pairsKept_of_restorable {dir : Bytes} {r₀ : Registry} {o : IterOrder}
    (hsaved : Saved dir r₀ o files) (h : Restorable r₀ env files) :
    PairsKept dir r₀ env files := by
  intro es hdir hconf t ip v hp hover
  have hend := configDir_run hdir hconf (fresh env files)
  rcases run_kept hsaved h hp hdir hover with heq | hkept
  · rw [heq] at hend
    exact absurd hend.symm hsaved.dir_ne
  · refine ⟨hkept.found (hsaved.quads t ip v hp.1) hp.2 ?_, hkept.line⟩
    rw [hend]
    exact hsaved.dir_ne

/-! ## The first call -/

/-- The maps in the order of their entries. -/
def keyOrder : IterOrder := ⟨id, id, .refl, .refl⟩

/-- Only the directory is configured, and the file is written. -/
def configured (dir : Bytes) : List Event := [⟨.setConfigDir dir, ⟨true, keyOrder⟩⟩]

theorem run_configured (env : Env) (files : Bytes → Option Bytes) {dir : Bytes} (hne : dir ≠ []) :
    ∃ env', run step (fresh env files) (configured dir) =
      writeStateFile ⟨true, keyOrder⟩ { hydrateOnce (fresh env files) with
        configDir := dir
        env := (hydrateOnce (fresh env files)).reg.ipToPeerCert.entries.foldl
          (fun env e => syncPeerEnv e.1 e.2 env) env' } := by
  have hdir : ¬ (hydrateOnce (fresh env files)).configDir = dir := fun h =>
    hne (h.symm.trans (hydrateOnce_configDir _))
  have hrun : run step (fresh env files) (configured dir) =
      syncRegistry ⟨true, keyOrder⟩ (if dir = [] then
        { hydrateOnce (fresh env files) with configDir := dir } else
        { hydrateOnce (fresh env files) with
          configDir := dir
          env := setEnvVar kEnvConfigDir dir (hydrateOnce (fresh env files)).env }) := if_neg hdir
  rw [if_neg hne] at hrun
  exact ⟨_, hrun⟩

theorem stateFile_configured {dir : Bytes} (hne : dir ≠ []) :
    stateFile dir (run step (fresh env files) (configured dir)) =
      stateLines keyOrder (hydrateOnce (fresh env files)).reg := by
  obtain ⟨env', hrun⟩ := run_configured env files hne
  rw [hrun]
  refine (stateFile_writeStateFile hne rfl).trans ?_
  exact splitLines_stateText quads_hydrateOnce_fresh oneLine_hydrateOnce_fresh

theorem onlyDir_configured (dir : Bytes) : OnlyDir dir (configured dir) := by
  intro e he d hd
  rw [List.mem_singleton.1 he] at hd
  cases hd
  rfl

/-- **What is kept could be restored.** The run that only configures the directory shows it. -/
theorem restorable_of_pairsKept {dir : Bytes} {r₀ : Registry} {o : IterOrder}
    (hsaved : Saved dir r₀ o files) (h : PairsKept dir r₀ env files) :
    Restorable r₀ env files := by
  have hkept {t : Table} {ip v : Bytes} (hp : Persisted r₀ t ip v) :
      FoundBy t ip v (run step (fresh env files) (configured dir)) ∧
        entryLine (t.key ip) v ∈ stateFile dir (run step (fresh env files) (configured dir)) := by
    refine h _ (onlyDir_configured dir) ⟨_, List.mem_singleton_self _, rfl⟩ t ip v hp ?_
    intro e he
    rw [List.mem_singleton.1 he]
    cases t <;> exact id
  have hread {t : Table} {ip v : Bytes} (hp : Persisted r₀ t ip v) :
      ((hydrateOnce (fresh env files)).reg.table t).get? ip = some v := by
    have hline := (hkept hp).2
    rw [stateFile_configured hsaved.dir_ne] at hline
    exact get?_of_mem_stateLines quads_hydrateOnce_fresh (hsaved.quads t ip v hp.1) hline
  refine ⟨fun t ip v hp => (get?_hydrateOnce_fresh t ip).symm.trans (hread hp), fun ip v hp => ?_⟩
  have hip : Quad dot ip := hsaved.quads .peer ip v hp.1
  have hfound : (peerCertPathForIp ip (run step (fresh env files) (configured dir))).1 = some v :=
    (hkept hp).1
  obtain ⟨env', hrun⟩ := run_configured env files hsaved.dir_ne
  have hself : cstr (peerEnvKeyForIp ip) = Table.peer.key ip :=
    cstr_eq_self_iff.2 (Table.zero_not_mem_key hip : 0 ∉ Table.peer.key ip)
  have henv : (run step (fresh env files) (configured dir)).env (Table.peer.key ip) =
      some (cstr v) := by
    rw [hrun, writeStateFile_env]
    refine foldl_syncPeerEnv (List.append_ne_nil_of_left_ne_nil (by decide) _)
      (Table.equals_not_mem_key hip) (fun e he hkey => ?_) _
      (.inr ⟨(ip, v), SortedMap.mem_entries.2 (hread hp), hself⟩)
    have hget := SortedMap.mem_entries.1 he
    have hip' : Quad dot e.1 := quads_hydrateOnce_fresh .peer e.1 e.2 hget
    have hself' : cstr (peerEnvKeyForIp e.1) = Table.peer.key e.1 :=
      cstr_eq_self_iff.2 (Table.zero_not_mem_key hip' : 0 ∉ Table.peer.key e.1)
    have heq : e.1 = ip := hip'.key_injective hip (hself'.symm.trans hkey)
    rw [heq] at hget
    exact congrArg cstr (Option.some.inj (hget.symm.trans (hread hp)))
  have hhydrated : (run step (fresh env files) (configured dir)).hydrated = true := by
    rw [hrun, writeStateFile_hydrated]
    exact hydrateOnce_hydrated _
  rw [peerCertPathForIp_fst hip hhydrated, henv] at hfound
  exact cstr_eq_self_iff.1 (Option.some.inj (Option.filter_eq_some_iff.1 hfound).1)

/-! ## The CA file -/

/-- The call writes the file because another entry changed. -/
def WritesOther (s : State) (e : Event) : Prop :=
  e.disk.ok = true ∧
  match e.call with
  | .setConfigDir dir => s.configDir ≠ dir ∧ dir ≠ []
  | .putIpSerial ip serial => s.configDir ≠ [] ∧ ip ≠ [] ∧ serial ≠ [] ∧
      s.reg.ipToSerial.get? ip ≠ some serial
  | .setPeerCert ip path => s.configDir ≠ [] ∧ ip ≠ [] ∧
      s.reg.ipToPeerCert.get? ip ≠ if path = [] then none else some path
  | .propagate _ => s.configDir ≠ []
  | _ => False

/-- Such a call comes after a path of the CA file was set. -/
def CaKnown (s : State) (e : Event) : Prop := WritesOther s e → s.reg.caFile ≠ []

/-- The CA file is not set or has the path that was saved, whose line is in the file. -/
structure CaInv (dir ca : Bytes) (s : State) : Prop where
  dirs : s.configDir = [] ∨ s.configDir = dir
  known : s.reg.caFile = [] ∨ s.reg.caFile = ca
  line : entryLine kEnvCaFile ca ∈ stateFile dir s
  hydrated : s.configDir ≠ [] → s.hydrated = true

section

variable {dir ca : Bytes} {s : State}

theorem hydrateOnce_caFile (s : State) : (hydrateOnce s).reg.caFile = s.reg.caFile := by
  unfold hydrateOnce
  split
  · rfl
  · split
    · rfl
    · exact (mergeLines_plain _ _).1

theorem CaInv.hydrateOnce (h : CaInv dir ca s) : CaInv dir ca (hydrateOnce s) where
  dirs := by rw [hydrateOnce_configDir]; exact h.dirs
  known := by rw [hydrateOnce_caFile]; exact h.known
  line := by rw [stateFile, hydrateOnce_files]; exact h.line
  hydrated _ := hydrateOnce_hydrated s

theorem CaInv.of_reg (h : CaInv dir ca s) {r : Registry} {env : Env}
    (hr : r.caFile = s.reg.caFile) : CaInv dir ca { s with reg := r, env := env } where
  dirs := h.dirs
  known := by rw [hr]; exact h.known
  line := h.line
  hydrated := h.hydrated

theorem CaInv.write (h : CaInv dir ca s) (hne : ca ≠ []) (hone : newline ∉ ca) (d : Disk)
    (hknown : d.ok = true → s.configDir ≠ [] → s.reg.caFile ≠ []) :
    CaInv dir ca (writeStateFile d s) where
  dirs := by rw [writeStateFile_configDir]; exact h.dirs
  known := by rw [writeStateFile_reg]; exact h.known
  line := by
    refine mem_stateFile_writeStateFile h.dirs h.line ?_ d fun hok hdir => ?_
    · simp only [entryLine, List.mem_append, List.mem_cons, not_or]
      exact ⟨by decide, by decide, hone⟩
    · refine mem_stateLines.2 (.inr (.inl ?_))
      rw [h.known.resolve_left (hknown hok hdir), optLine, if_neg hne]
      exact List.mem_singleton_self _
  hydrated hdir := by
    rw [writeStateFile_configDir] at hdir
    exact (writeStateFile_hydrated d s).trans (h.hydrated hdir)

theorem CaInv.step (h : CaInv dir ca s) (hne : ca ≠ []) (hone : newline ∉ ca) (e : Event)
    (hdir : ∀ d, e.call = .setConfigDir d → d = dir)
    (hca : ∀ path, e.call = .setCaFile path → path = ca) (hknown : CaKnown s e) :
    CaInv dir ca (EnvRegistry.step s e) := by
  have h₁ : CaInv dir ca (EnvRegistry.hydrateOnce s) := h.hydrateOnce
  -- a configured directory means that the state file was looked for
  have hsame (hc : (EnvRegistry.hydrateOnce s).configDir ≠ []) :
      EnvRegistry.hydrateOnce s = s ∧ s.configDir ≠ [] := by
    rw [hydrateOnce_configDir] at hc
    exact ⟨hydrateOnce_of_hydrated (h.hydrated hc), hc⟩
  obtain ⟨call, d⟩ := e
  cases call with
  | setConfigDir dir' =>
    obtain rfl := hdir dir' rfl
    simp only [EnvRegistry.step, registrySetConfigDir, syncRegistry]
    split
    · exact h₁
    · next hnew =>
      have hwrite (hok : d.ok = true) (hc : dir' ≠ []) :
          (EnvRegistry.hydrateOnce s).reg.caFile ≠ [] := by
        rw [hydrateOnce_caFile]
        exact hknown ⟨hok, hydrateOnce_configDir s ▸ hnew, hc⟩
      have hdone (env : Env) : CaInv dir' ca { EnvRegistry.hydrateOnce s with
          configDir := dir', env := env } :=
        ⟨.inr rfl, h₁.known, h₁.line, fun _ => hydrateOnce_hydrated s⟩
      split
      · exact (hdone _).write hne hone d hwrite
      · exact (hdone _).write hne hone d hwrite
  | setCaFile path =>
    obtain rfl := hca path rfl
    simp only [EnvRegistry.step, registrySetCaFile]
    split
    · exact h₁
    · refine CaInv.write ?_ hne hone d fun _ _ => hne
      exact ⟨h₁.dirs, .inr rfl, h₁.line, h₁.hydrated⟩
  | putIpSerial ip serial =>
    simp only [EnvRegistry.step, registryPutIpSerial]
    split
    · exact h
    · next hargs =>
      split
      · exact h₁
      · next hnew =>
        refine CaInv.write (h₁.of_reg ?_) hne hone d fun hok hc => ?_
        · rfl
        · obtain ⟨heq, hc⟩ := hsame hc
          rw [heq] at hnew ⊢
          exact hknown ⟨hok, hc, (not_or.1 hargs).1, (not_or.1 hargs).2, hnew⟩
  | setPeerCert ip path =>
    simp only [EnvRegistry.step, registrySetPeerCert]
    split
    · exact h
    · next hip =>
      split
      · next hpath =>
        split
        · exact h₁
        · next hnew =>
          refine CaInv.write (h₁.of_reg ?_) hne hone d fun hok hc => ?_
          · rfl
          · obtain ⟨heq, hc⟩ := hsame hc
            rw [heq] at hnew ⊢
            exact hknown ⟨hok, hc, hip, by rwa [if_pos hpath]⟩
      · next hpath =>
        split
        · exact h₁
        · next hnew =>
          refine CaInv.write (h₁.of_reg ?_) hne hone d fun hok hc => ?_
          · rfl
          · obtain ⟨heq, hc⟩ := hsame hc
            rw [heq] at hnew ⊢
            exact hknown ⟨hok, hc, hip, by rwa [if_neg hpath]⟩
  | propagate cfg =>
    simp only [EnvRegistry.step, propagateCrossSoEnv]
    refine CaInv.write (h₁.of_reg ?_) hne hone d fun hok hc => ?_
    · rfl
    · obtain ⟨heq, hc⟩ := hsame hc
      rw [heq]
      exact hknown ⟨hok, hc⟩
  | lookupSerial ip => exact h₁
  | ipForSerial serial =>
    simp only [EnvRegistry.step, registryIpForSerial]
    split
    · exact h
    · exact h₁
  | envVar key =>
    simp only [EnvRegistry.step, envVarGet]
    split
    · exact h
    · split
      · exact h
      · split
        · exact h₁
        · exact h

end

/-- **The line of the CA file stays where the path is set before other entries are written.** -/
theorem caLine_run {dir : Bytes} {r₀ : Registry} {o : IterOrder} (hsaved : Saved dir r₀ o files)
    (hne : r₀.caFile ≠ []) {es : List Event} (hdir : OnlyDir dir es) (hca : OnlyCa r₀ es)
    (hknown : Along step CaKnown (fresh env files) es) :
    entryLine kEnvCaFile r₀.caFile ∈ stateFile dir (run step (fresh env files) es) := by
  have hline : entryLine kEnvCaFile r₀.caFile ∈ stateFile dir (fresh env files) := by
    have hfile : (fresh env files).files (statePath dir) = some (stateText o r₀) := hsaved.file
    rw [stateFile, hfile, Option.map_some, splitLines_stateText hsaved.quads hsaved.oneLine]
    refine mem_stateLines.2 (.inr (.inl ?_))
    rw [optLine, if_neg hne]
    exact List.mem_singleton_self _
  have hstep (s : State) (e : Event) (h : CaInv dir r₀.caFile s)
      (he : CaKnown s e ∧ (∀ d, e.call = .setConfigDir d → d = dir) ∧
        ∀ path, e.call = .setCaFile path → path = r₀.caFile) :
      CaInv dir r₀.caFile (step s e) :=
    h.step hne hsaved.oneLine.caFile e he.2.1 he.2.2 he.1
  have hstart : CaInv dir r₀.caFile (fresh env files) :=
    ⟨.inl rfl, .inl rfl, hline, fun h => absurd rfl h⟩
  refine (run_invariant hstep hstart (hknown.and ?_)).line
  exact Along.of_forall (fun e he => ⟨hdir e he, hca e he⟩) _

/-- **The line of a CA file is kept over every run only where there is none.** -/
theorem caKept_iff {dir : Bytes} {r₀ : Registry} {o : IterOrder} (hsaved : Saved dir r₀ o files) :
    CaKept dir r₀ env files ↔ r₀.caFile = [] := by
  constructor
  · intro h
    by_contra hne
    have hca : OnlyCa r₀ (configured dir) := by
      intro e he path hp
      rw [List.mem_singleton.1 he] at hp
      cases hp
    have hline := h hne _ (onlyDir_configured dir) hca
    rw [stateFile_configured hsaved.dir_ne] at hline
    have hread := (caFile_of_mem_stateLines hline).1
    rw [hydrateOnce_caFile] at hread
    exact hne hread.symm
  · intro h hne
    exact absurd h hne

/-- **The saved pairs and the saved CA file over every run.** The last part is about single runs:
the line of the CA file is there at the end of every run in which the other calls write the file
after its path was set. -/
theorem registry_kept_iff {dir : Bytes} {r₀ : Registry} {o : IterOrder}
    (hsaved : Saved dir r₀ o files) :
    (PairsKept dir r₀ env files ↔ Restorable r₀ env files) ∧
    (CaKept dir r₀ env files ↔ r₀.caFile = []) ∧
    (r₀.caFile ≠ [] → ∀ es, OnlyDir dir es → OnlyCa r₀ es →
      Along step CaKnown (fresh env files) es →
      entryLine kEnvCaFile r₀.caFile ∈ stateFile dir (run step (fresh env files) es)) :=
  ⟨⟨restorable_of_pairsKept hsaved, pairsKept_of_restorable hsaved⟩, caKept_iff hsaved,
    fun hne _ hdir hca hknown => caLine_run hsaved hne hdir hca hknown⟩

end

/-! ## A printer and a restart -/

/-- One printer with its certificate. -/
def onePrinter : Registry where
  caFile := ascii "/c"
  ipToSerial := (∅ : SortedMap Bytes Bytes).insert (ascii "10.0.0.1") (ascii "S")
  ipToPeerCert := (∅ : SortedMap Bytes Bytes).insert (ascii "10.0.0.1") (ascii "/p")

def oneDir : Bytes := ascii "/d"

def oneFile (path : Bytes) : Option Bytes :=
  if path = statePath oneDir then some (stateText keyOrder onePrinter) else none

/-- An environment in which only the directory is set. -/
def dirEnv (key : Bytes) : Option Bytes := if key = kEnvConfigDir then some oneDir else none

theorem onePrinter_table {t : Table} {ip v : Bytes} (h : (onePrinter.table t).get? ip = some v) :
    ip = ascii "10.0.0.1" ∧ (v = ascii "S" ∨ v = ascii "/p") := by
  have hinsert (w : Bytes)
      (h : ((∅ : SortedMap Bytes Bytes).insert (ascii "10.0.0.1") w).get? ip = some v) :
      ip = ascii "10.0.0.1" ∧ v = w := by
    rw [SortedMap.get?_insert] at h
    split at h
    · next heq => exact ⟨heq, (Option.some.inj h).symm⟩
    · cases h
  cases t with
  | serial => exact (hinsert _ h).imp_right .inl
  | peer => exact (hinsert _ h).imp_right .inr

theorem saved_onePrinter : Saved oneDir onePrinter keyOrder oneFile where
  dir_ne := by decide
  file := if_pos rfl
  quads t ip v h := by
    have hchars : ((ascii "10.0.0.1").all fun c => c = dot || isDigit c) = true := by decide
    rw [(onePrinter_table h).1]
    exact ⟨by simpa using hchars, by decide⟩
  oneLine := by
    refine ⟨by decide, fun t ip v h => ?_, by decide, by decide, by decide, by decide⟩
    rcases (onePrinter_table h).2 with rfl | rfl <;> decide

theorem registry_kept_onePrinter :
    PairsKept oneDir onePrinter dirEnv oneFile ∧
      entryLine kEnvCaFile (ascii "/c") ∈ stateFile oneDir (run step (fresh dirEnv oneFile)
        (⟨.setCaFile (ascii "/c"), ⟨true, keyOrder⟩⟩ :: configured oneDir)) := by
  have hkept := @registry_kept_iff dirEnv _ _ _ _ saved_onePrinter
  refine ⟨hkept.1.2 (restorable_of_found saved_onePrinter ?_ fun ip v hp => ?_),
    hkept.2.2 (by decide) _ ?_ ?_ ⟨fun h => h.2.elim, fun _ => ?_, trivial⟩⟩
  · have hpaths : stateFileSearchPaths [] dirEnv = [statePath oneDir] := by decide
    rw [hpaths]
    rfl
  · rcases (onePrinter_table hp.1).2 with rfl | rfl <;> decide
  · intro e he d hd
    rcases List.mem_cons.1 he with rfl | he
    · cases hd
    · exact onlyDir_configured _ e he d hd
  · intro e he path hp
    rcases List.mem_cons.1 he with rfl | he
    · cases hp
      rfl
    · rw [List.mem_singleton.1 he] at hp
      cases hp
  · decide

/-- **Without the directory in the environment the printer is forgotten**, as soon as the directory
is configured. -/
theorem registry_lost_onePrinter :
    Saved oneDir onePrinter keyOrder oneFile ∧
      ¬ PairsKept oneDir onePrinter (fun _ => none) oneFile ∧
      ¬ CaKept oneDir onePrinter (fun _ => none) oneFile := by
  refine ⟨saved_onePrinter, fun h => ?_, fun h => ?_⟩
  · have hp : Persisted onePrinter .serial (ascii "10.0.0.1") (ascii "S") :=
      ⟨by decide, by decide⟩
    have hfirst := (restorable_of_pairsKept saved_onePrinter h).first _ _ _ hp
    exact absurd hfirst (by decide)
  · exact absurd ((caKept_iff saved_onePrinter).1 h) (by decide)

end BambooNet.Lan.EnvRegistry
