import BambooNet.Json.Parse
import BambooNet.Lib.Runs
import Mathlib.Data.Finset.Basic
import Mathlib.Data.List.Infix

/-!
# The latch of installed app certificates

The agent installs its certificate on a printer once for each MQTT session, and remembers in
`app_cert_install_sent_` who has acknowledged it. The set has to forget a printer when its session
ends. `disconnect_printer` and a lost connection do that. A session that is closed by the deferred
disconnect, by `shutdown` or by the next `connect_printer` stays in the set, since the callback of
a clean disconnect reports no error, and so does a device that acknowledged over a cloud connection
that went down, or that `disconnect_cloud` was about to stop.

**Where no session of a latched device is closed on these paths**, every latched device has
acknowledged over a session that is still live (`latch_run`).
-/

namespace BambooNet.Agent.Cert

open Json

/-! ## States -/

/-- One MQTT connection, from its CONNACK on. Each has its own number. -/
inductive Link
  | lan (number : ℕ)
  | cloud (number : ℕ)
  deriving DecidableEq

def Link.number : Link → ℕ
  | .lan n => n
  | .cloud n => n

/-- The arguments of `connect_printer`. -/
structure Creds where
  devId : Bytes
  devIp : Bytes
  username : Bytes
  password : Bytes
  useSsl : Bool
  deriving DecidableEq

structure LanSession where
  creds : Creds
  /-- The number of the connection while there is one. -/
  up : Option ℕ := none
  everConnected : Bool := false

inductive Deferred
  | idle
  | armed
  /-- The grace period is over and the thread is about to close the session. -/
  | firing
  deriving DecidableEq

inductive ConnectStatus
  | ok
  | failed
  | lost
  deriving DecidableEq

structure State where
  lan : Option LanSession := none
  deferred : Deferred := .idle
  /-- The numbers of the cloud connections that are up. A session that `disconnect_cloud` has yet to
  stop may still have one beside that of the next session. -/
  clouds : Finset ℕ := ∅
  /-- `app_cert_install_sent_` -/
  latch : Finset Bytes := ∅
  /-- Every acknowledgement so far and the connection it came over. The agent keeps no such list. -/
  observed : List (Bytes × Link) := []
  /-- The number of the next connection. -/
  next : ℕ := 0

/-! ## Reports -/

/-- The report of a successful `app_cert_install`. -/
def installAcked (json : Bytes) : Bool :=
  if ¬ ascii "app_cert" <:+: json then false
  else
    match parse json with
    | .error _ => false
    | .ok root =>
      match root.find (ascii "security") with
      | .object sec =>
        let sec := Value.object sec
        (sec.find (ascii "command")).asString = ascii "app_cert_install" &&
          (sec.find (ascii "result")).asString = ascii "SUCCESS" &&
          (sec.find (ascii "printer_cert")).asString ≠ []
      | _ => false

/-- What `harvest_security_report` does to the latch. -/
def harvestSecurityReport (devId : Bytes) (link : Link) (s : State) (json : Bytes) : State :=
  if installAcked json then
    { s with latch := insert devId s.latch, observed := (devId, link) :: s.observed }
  else s

/-! ## Connections of the LAN session -/

def notifyLocalConnected (status : ConnectStatus) (devId : Bytes) (s : State) : State :=
  if status = .ok then
    { s with deferred := if s.deferred = .armed then .idle else s.deferred }
  else { s with latch := s.latch.erase devId }

/-- What the loop thread still does while a session is closed: the reports it delivers, and the
reason that the disconnect callback gets, zero for a clean one. -/
structure Closing where
  late : List Bytes := []
  rc : ℤ := 0

/-- The disconnect callback. Before the first CONNACK it is ignored. -/
def LanSession.onDisconnect (σ : LanSession) (rc : ℤ) (s : State) : State :=
  if σ.everConnected then notifyLocalConnected (if rc = 0 then .ok else .lost) σ.creds.devId s
  else s

/-- `LanSession::disconnect` on a session that was taken out. Without a connection the loop thread
is stopped by force. -/
def LanSession.disconnect (σ : LanSession) (c : Closing) (s : State) : State :=
  match σ.up with
  | none => s
  | some n =>
    σ.onDisconnect c.rc (c.late.foldl (harvestSecurityReport σ.creds.devId (.lan n)) s)

def closeLan (c : Closing) (s : State) : State :=
  match s.lan with
  | none => s
  | some σ => σ.disconnect c { s with lan := none }

/-! ## The calls -/

/-! A call is one step, with what the loop thread of the session it closes still does. So a second
`connect_printer` never comes between the two halves of another. Only `disconnect_cloud` is its
section alone: the end of the connection is a step of its own. -/

/-- The thread is joined, so one that is firing closes the session first. -/
def cancelDeferredDisconnect (c : Closing) (s : State) : State :=
  if s.deferred = .firing then { closeLan c s with deferred := .idle }
  else { s with deferred := .idle }

/-- `threadOk` when the thread can be created; the session is closed at once otherwise. -/
def scheduleDeferredDisconnect (threadOk : Bool) (c : Closing) (s : State) : State :=
  let s := cancelDeferredDisconnect c s
  if threadOk then { s with deferred := .armed } else closeLan c s

/-- The session is connected, with the same arguments. -/
def reusable (creds : Creds) (s : State) : Bool :=
  match s.lan with
  | none => false
  | some σ => σ.up.isSome && σ.creds = creds

/-- `keep` is `mqtt_keep_connection`, `startOk` that the new session starts. -/
def connectPrinter (creds : Creds) (keep startOk : Bool) (c : Closing) (s : State) : State :=
  let s := if keep then cancelDeferredDisconnect c s else s
  if keep && reusable creds s then notifyLocalConnected .ok creds.devId s
  else
    let s := closeLan c s
    if startOk then { s with lan := some { creds } } else s

def disconnectPrinter (keep threadOk : Bool) (c : Closing) (s : State) : State :=
  if keep && s.lan.isSome then scheduleDeferredDisconnect threadOk c s
  else
    match s.lan with
    | none => s
    | some σ =>
      let s := closeLan c s
      { s with latch := s.latch.erase σ.creds.devId }

def shutdownLanSession (c : Closing) (s : State) : State :=
  closeLan c (cancelDeferredDisconnect c s)

/-- The device of the LAN session, the empty id without one. -/
def lanDev (s : State) : Bytes :=
  match s.lan with
  | none => []
  | some σ => σ.creds.devId

/-- The section of `disconnect_cloud`: the latch of the LAN session's device stays. The cloud
session still delivers reports until its loop thread is joined. -/
def disconnectCloud (s : State) : State :=
  { s with latch := s.latch.filter fun d => d = lanDev s }

/-! ## Steps -/

inductive Event
  | connectPrinter (creds : Creds) (keep startOk : Bool) (c : Closing)
  | disconnectPrinter (keep threadOk : Bool) (c : Closing)
  /-- The deferred disconnect has waited long enough. -/
  | deferredExpire
  /-- Its thread takes the session and closes it. -/
  | deferredClose (c : Closing)
  | shutdown (c : Closing)
  /-- The connect callback of the LAN session. -/
  | connack (rc : ℤ)
  /-- The disconnect callback of the LAN session, which nobody closes. -/
  | dropped (rc : ℤ)
  | report (json : Bytes)
  | cloudConnack
  /-- A cloud connection ends, by a drop or because `disconnect_cloud` has stopped its session. -/
  | cloudEnded (n : ℕ)
  | cloudReport (n : ℕ) (devId json : Bytes)
  | disconnectCloud
  | cloudDelSubscribe (devIds : List Bytes)
  /-- `update_cert` has fetched a new certificate. -/
  | updateCert

/-- An event that cannot happen in a state leaves it alone. There is one CONNACK for a connection of
the LAN session, and each of a cloud session starts another. -/
def step (s : State) : Event → State
  | .connectPrinter creds keep startOk c => connectPrinter creds keep startOk c s
  | .disconnectPrinter keep threadOk c => disconnectPrinter keep threadOk c s
  | .deferredExpire => if s.deferred = .armed then { s with deferred := .firing } else s
  | .deferredClose c =>
    if s.deferred = .firing then { closeLan c s with deferred := .idle } else s
  | .shutdown c => shutdownLanSession c s
  | .connack rc =>
    match s.lan with
    | none => s
    | some σ =>
      if σ.up.isSome then s
      else if rc = 0 then
        notifyLocalConnected .ok σ.creds.devId
          { s with
            lan := some { σ with up := some s.next, everConnected := true }
            next := s.next + 1 }
      else notifyLocalConnected .failed σ.creds.devId s
  | .dropped rc =>
    match s.lan with
    | none => s
    | some σ => σ.onDisconnect rc { s with lan := some { σ with up := none } }
  | .report json =>
    match s.lan with
    | none => s
    | some σ =>
      match σ.up with
      | none => s
      | some n => harvestSecurityReport σ.creds.devId (.lan n) s json
  | .cloudConnack => { s with clouds := insert s.next s.clouds, next := s.next + 1 }
  | .cloudEnded n => { s with clouds := s.clouds.erase n }
  | .cloudReport n devId json =>
    if n ∈ s.clouds then harvestSecurityReport devId (.cloud n) s json else s
  | .disconnectCloud => disconnectCloud s
  | .cloudDelSubscribe devIds => { s with latch := s.latch \ devIds.toFinset }
  | .updateCert => { s with latch := ∅ }

/-! ## When the latch is right -/

/-- The connection is up, and it carries the device. -/
def Live (s : State) (d : Bytes) : Link → Prop
  | .lan n => ∃ σ, s.lan = some σ ∧ σ.creds.devId = d ∧ σ.up = some n
  | .cloud n => n ∈ s.clouds

/-- Every latched device has acknowledged over a session that is still live. -/
def Latched (s : State) : Prop := ∀ d ∈ s.latch, ∃ l, (d, l) ∈ s.observed ∧ Live s d l

/-- The device has acknowledged over a live session beside a cloud connection. -/
def AckedBeside (n : ℕ) (s : State) (d : Bytes) : Prop :=
  ∃ l, l ≠ .cloud n ∧ (d, l) ∈ s.observed ∧ Live s d l

/-- The device of the LAN session is not latched while that is closed, or its disconnect callback
reports an error. -/
def Released (c : Closing) (s : State) : Prop :=
  ∀ σ, s.lan = some σ →
    (σ.up.isSome ∧ c.rc ≠ 0) ∨
      (σ.creds.devId ∉ s.latch ∧ ∀ json ∈ c.late, installAcked json = false)

/-- The condition on a step. It is about the steps that close a session and leave the latch to the
callbacks. -/
def Safe (s : State) : Event → Prop
  | .connectPrinter creds keep _ c =>
    (keep = true ∧ s.deferred ≠ .firing ∧ reusable creds s = true) ∨ Released c s
  | .disconnectPrinter keep threadOk c =>
    keep = true → s.deferred = .firing ∨ threadOk = false → Released c s
  | .deferredClose c => s.deferred = .firing → Released c s
  | .shutdown c => Released c s
  | .dropped rc => rc = 0 → ∀ σ, s.lan = some σ → σ.creds.devId ∉ s.latch
  | .cloudEnded n => ∀ d ∈ s.latch, AckedBeside n s d
  | _ => True

structure Inv (s : State) : Prop where
  latched : Latched s
  /-- The numbers of connections still to come are new. -/
  fresh : ∀ p ∈ s.observed, p.2.number < s.next
  ever : ∀ σ, s.lan = some σ → σ.up.isSome → σ.everConnected = true
  lanNumber : ∀ σ n, s.lan = some σ → σ.up = some n → n < s.next
  cloudNumber : ∀ n ∈ s.clouds, n < s.next

variable {s s' : State}

theorem Inv.init : Inv {} where
  latched := fun d hd => absurd hd (Finset.notMem_empty d)
  fresh := by simp
  ever := nofun
  lanNumber := nofun
  cloudNumber := fun n hn => absurd hn (Finset.notMem_empty n)

/-- A smaller latch. -/
theorem Inv.shrink (hs : Inv s) {latch : Finset Bytes} (h : latch ⊆ s.latch) :
    Inv { s with latch } :=
  { hs with latched := fun d hd => hs.latched d (h hd) }

theorem Inv.setDeferred (hs : Inv s) (deferred : Deferred) : Inv { s with deferred } :=
  { hs with }

/-- Without its device in the latch, the LAN session may go, or lose its connection. -/
theorem Inv.setLan (hs : Inv s) (h : ∀ σ, s.lan = some σ → σ.creds.devId ∉ s.latch)
    {lan : Option LanSession} (hlan : ∀ σ, lan = some σ → σ.up = none) : Inv { s with lan } where
  latched d hd := by
    obtain ⟨l, hl, hlive⟩ := hs.latched d hd
    refine ⟨l, hl, ?_⟩
    cases l with
    | lan n =>
      obtain ⟨σ, hσ, rfl, -⟩ := hlive
      exact absurd hd (h σ hσ)
    | cloud n => exact hlive
  fresh := hs.fresh
  ever σ hσ hup := by simp [hlan σ hσ] at hup
  lanNumber σ n hσ hup := by simp [hlan σ hσ] at hup
  cloudNumber := hs.cloudNumber

/-- What a callback can do to the latch. -/
theorem notifyLocalConnected_cases (status : ConnectStatus) (d : Bytes) (s : State) :
    ∃ deferred, (status = .ok ∧ notifyLocalConnected status d s = { s with deferred }) ∨
      (status ≠ .ok ∧
        notifyLocalConnected status d s = { s with deferred, latch := s.latch.erase d }) := by
  unfold notifyLocalConnected
  by_cases h : status = .ok
  · exact ⟨_, Or.inl ⟨h, by rw [if_pos h]⟩⟩
  · exact ⟨s.deferred, Or.inr ⟨h, by rw [if_neg h]⟩⟩

theorem Inv.notify (hs : Inv s) (status : ConnectStatus) (d : Bytes) :
    Inv (notifyLocalConnected status d s) := by
  obtain ⟨deferred, ⟨-, heq⟩ | ⟨-, heq⟩⟩ := notifyLocalConnected_cases status d s
  · exact heq ▸ hs.setDeferred deferred
  · exact heq ▸ (hs.shrink (Finset.erase_subset d s.latch)).setDeferred deferred

/-! ## Closing the session -/

variable {c : Closing} {σ : LanSession}

/-- The reports of a session latch its device only. -/
theorem foldl_harvest (d : Bytes) (l : Link) (late : List Bytes) (s : State) :
    ∃ latch observed, late.foldl (harvestSecurityReport d l) s = { s with latch, observed } ∧
      latch ⊆ insert d s.latch ∧ s.observed ⊆ observed ∧
      ∀ p ∈ observed, p ∈ s.observed ∨ p = (d, l) := by
  induction late generalizing s with
  | nil =>
    exact ⟨s.latch, s.observed, rfl, Finset.subset_insert _ _, List.Subset.refl _,
      fun p hp => Or.inl hp⟩
  | cons json late ih =>
    obtain ⟨latch, observed, heq, hlatch, hobs, hnew⟩ := ih (harvestSecurityReport d l s json)
    rw [List.foldl_cons, heq]
    by_cases hack : installAcked json = true
    · have hstep : harvestSecurityReport d l s json =
          { s with latch := insert d s.latch, observed := (d, l) :: s.observed } := if_pos hack
      rw [hstep] at hlatch hobs hnew ⊢
      refine ⟨latch, observed, rfl, ?_, fun p hp => hobs (List.mem_cons_of_mem _ hp),
        fun p hp => ?_⟩
      · rwa [Finset.insert_idem] at hlatch
      · rcases hnew p hp with h | h
        · rcases List.mem_cons.1 h with h | h
          · exact Or.inr h
          · exact Or.inl h
        · exact Or.inr h
    · have hstep : harvestSecurityReport d l s json = s := if_neg hack
      rw [hstep] at hlatch hobs hnew ⊢
      exact ⟨latch, observed, rfl, hlatch, hobs, hnew⟩

theorem foldl_harvest_of_no_ack {late : List Bytes} (h : ∀ json ∈ late, installAcked json = false)
    (d : Bytes) (l : Link) (s : State) : late.foldl (harvestSecurityReport d l) s = s := by
  induction late with
  | nil => rfl
  | cons json late ih =>
    have hstep : harvestSecurityReport d l s json = s := by
      simp [harvestSecurityReport, h json List.mem_cons_self]
    rw [List.foldl_cons, hstep]
    exact ih fun json hjson => h json (List.mem_cons_of_mem _ hjson)

theorem closeLan_of_none (h : s.lan = none) : closeLan c s = s := by simp [closeLan, h]

theorem closeLan_of_some (h : s.lan = some σ) :
    closeLan c s = σ.disconnect c { s with lan := none } := by simp [closeLan, h]

/-- Closing takes the session, and latches no other device. -/
theorem closeLan_cases (h : s.lan = some σ) :
    ∃ deferred latch observed, closeLan c s = { s with lan := none, deferred, latch, observed } ∧
      latch ⊆ insert σ.creds.devId s.latch ∧ s.observed ⊆ observed ∧
      ∀ p ∈ observed, p ∈ s.observed ∨ σ.up = some p.2.number := by
  rw [closeLan_of_some h]
  unfold LanSession.disconnect
  cases hup : σ.up with
  | none =>
    exact ⟨s.deferred, s.latch, s.observed, rfl, Finset.subset_insert _ _, List.Subset.refl _,
      fun p hp => Or.inl hp⟩
  | some n =>
    obtain ⟨latch, observed, heq, hlatch, hobs, hnew⟩ :=
      foldl_harvest σ.creds.devId (.lan n) c.late { s with lan := none }
    have hnew' : ∀ p ∈ observed, p ∈ s.observed ∨ some n = some p.2.number := by
      intro p hp
      rcases hnew p hp with h | rfl
      · exact Or.inl h
      · exact Or.inr rfl
    dsimp only
    rw [heq, LanSession.onDisconnect]
    by_cases hever : σ.everConnected = true
    · rw [if_pos hever]
      obtain ⟨deferred, ⟨-, hnotify⟩ | ⟨-, hnotify⟩⟩ := notifyLocalConnected_cases
        (if c.rc = 0 then .ok else .lost) σ.creds.devId
        { s with lan := none, latch, observed }
      · exact ⟨_, _, _, hnotify, hlatch, hobs, hnew'⟩
      · exact ⟨_, _, _, hnotify, (Finset.erase_subset _ _).trans hlatch, hobs, hnew'⟩
    · rw [if_neg hever]
      exact ⟨_, _, _, rfl, hlatch, hobs, hnew'⟩

/-- Closing and then forgetting the device is right in every state. -/
theorem Inv.closeLan_erase (hs : Inv s) (h : s.lan = some σ) (c : Closing) :
    Inv { closeLan c s with latch := (closeLan c s).latch.erase σ.creds.devId } := by
  obtain ⟨deferred, latch, observed, heq, hlatch, hobs, hnew⟩ := closeLan_cases (c := c) h
  have herase : latch.erase σ.creds.devId ⊆ s.latch.erase σ.creds.devId := by
    intro d hd
    obtain ⟨hne, hd⟩ := Finset.mem_erase.1 hd
    exact Finset.mem_erase.2 ⟨hne, Finset.mem_of_mem_insert_of_ne (hlatch hd) hne⟩
  have hgone : Inv { s with lan := none, latch := s.latch.erase σ.creds.devId } :=
    (hs.shrink (Finset.erase_subset σ.creds.devId s.latch)).setLan
      (fun σ' hσ' => by
        obtain rfl : σ' = σ := Option.some.inj (hσ'.symm.trans h)
        exact Finset.notMem_erase _ _) nofun
  have hs' := hgone.shrink herase
  rw [heq]
  refine { hs'.setDeferred deferred with latched := fun d hd => ?_, fresh := fun p hp => ?_ }
  · obtain ⟨l, hl, hlive⟩ := hs'.latched d hd
    exact ⟨l, hobs hl, by cases l <;> exact hlive⟩
  · rcases hnew p hp with hp | hup
    · exact hs.fresh p hp
    · exact hs.lanNumber σ _ h hup

/-- A session that is released is forgotten when it is closed. -/
theorem notMem_closeLan (hs : Inv s) (hc : Released c s) (h : s.lan = some σ) :
    σ.creds.devId ∉ (closeLan c s).latch := by
  rw [closeLan_of_some h]
  unfold LanSession.disconnect
  cases hup : σ.up with
  | none =>
    rcases hc σ h with ⟨hsome, -⟩ | ⟨hnot, -⟩
    · simp [hup] at hsome
    · exact hnot
  | some n =>
    dsimp only
    rw [LanSession.onDisconnect, if_pos (hs.ever σ h (by simp [hup]))]
    rcases hc σ h with ⟨-, hrc⟩ | ⟨hnot, hlate⟩
    · rw [if_neg hrc]
      exact Finset.notMem_erase _ _
    · rw [foldl_harvest_of_no_ack hlate]
      obtain ⟨deferred, ⟨-, hnotify⟩ | ⟨-, hnotify⟩⟩ := notifyLocalConnected_cases
        (if c.rc = 0 then .ok else .lost) σ.creds.devId { s with lan := none }
      · rw [hnotify]
        exact hnot
      · rw [hnotify]
        exact Finset.notMem_erase _ _

theorem Inv.closed (hs : Inv s) (hc : Released c s) : Inv (closeLan c s) := by
  cases h : s.lan with
  | none => rwa [closeLan_of_none h]
  | some σ =>
    have herase := hs.closeLan_erase h c
    rwa [Finset.erase_eq_of_notMem (notMem_closeLan hs hc h)] at herase

/-! ## Every call -/

/-- The session is gone, and its device with it. -/
structure Ends (s s' : State) : Prop where
  inv : Inv s'
  lan : s'.lan = none
  forgotten : ∀ σ, s.lan = some σ → σ.creds.devId ∉ s'.latch

/-- A connection of before is still up, or its device is forgotten. -/
def Kept (s s' : State) : Prop :=
  ∀ σ, s.lan = some σ → σ.up.isSome →
    (∃ σ', s'.lan = some σ' ∧ σ'.creds = σ.creds ∧ σ'.up = σ.up) ∨ σ.creds.devId ∉ s'.latch

theorem Ends.kept (h : Ends s s') : Kept s s' := fun σ hσ _ => Or.inr (h.forgotten σ hσ)

theorem Ends.setDeferred (h : Ends s s') (deferred : Deferred) : Ends s { s' with deferred } :=
  ⟨h.inv.setDeferred deferred, h.lan, h.forgotten⟩

/-- Without a connection nothing is lost; with one, the device is not latched or is forgotten. -/
theorem Inv.dropped (hs : Inv s) (hσ : s.lan = some σ) {rc : ℤ}
    (hc : rc = 0 → σ.creds.devId ∉ s.latch) :
    Inv (σ.onDisconnect rc { s with lan := some { σ with up := none } }) ∧
      Kept s (σ.onDisconnect rc { s with lan := some { σ with up := none } }) := by
  cases hup : σ.up with
  | none =>
    have heq : ({ s with lan := some { σ with up := none } } : State) = s := by
      rw [← hup, ← hσ]
    rw [heq]
    refine ⟨?_, fun σ' hσ' hsome => ?_⟩
    · unfold LanSession.onDisconnect
      split_ifs
      · exact hs.notify _ _
      · exact hs.notify _ _
      · exact hs
    · obtain rfl : σ' = σ := Option.some.inj (hσ'.symm.trans hσ)
      simp [hup] at hsome
  | some n =>
    have hnone : ∀ σ', some { σ with up := none } = some σ' → σ'.up = none := by
      rintro _ ⟨⟩
      rfl
    rw [LanSession.onDisconnect, if_pos (hs.ever σ hσ (by simp [hup]))]
    by_cases hrc : rc = 0
    · have hnot := hc hrc
      have hinv := hs.setLan (fun σ' hσ' => by
        rwa [Option.some.inj (hσ'.symm.trans hσ)]) hnone
      rw [if_pos hrc]
      refine ⟨hinv.notify _ _, fun σ' hσ' _ => Or.inr ?_⟩
      rw [Option.some.inj (hσ'.symm.trans hσ)]
      exact hnot
    · have hinv := (hs.shrink (Finset.erase_subset σ.creds.devId s.latch)).setLan
        (fun σ' hσ' => by
          rw [Option.some.inj (hσ'.symm.trans hσ)]
          exact Finset.notMem_erase _ _) hnone
      rw [if_neg hrc]
      refine ⟨hinv, fun σ' hσ' _ => Or.inr ?_⟩
      rw [Option.some.inj (hσ'.symm.trans hσ)]
      exact Finset.notMem_erase _ _

/-- A CONNACK: no device has acknowledged over the new connection yet. -/
theorem Inv.connected (hs : Inv s) (hσ : s.lan = some σ) (hup : σ.up = none) :
    Inv { s with
      lan := some { σ with up := some s.next, everConnected := true }
      next := s.next + 1 } where
  latched d hd := by
    obtain ⟨l, hl, hlive⟩ := hs.latched d hd
    refine ⟨l, hl, ?_⟩
    cases l with
    | lan n =>
      obtain ⟨σ', hσ', -, hn⟩ := hlive
      rw [Option.some.inj (hσ'.symm.trans hσ), hup] at hn
      exact nomatch hn
    | cloud n => exact hlive
  fresh p hp := Nat.lt_succ_of_lt (hs.fresh p hp)
  ever := by
    rintro _ ⟨⟩ -
    rfl
  lanNumber := by
    rintro _ n ⟨⟩ ⟨⟩
    exact Nat.lt_succ_self _
  cloudNumber n hn := Nat.lt_succ_of_lt (hs.cloudNumber n hn)

/-- A cloud connection may go when all that is latched has been acknowledged beside it. -/
theorem Inv.cloudEnded (hs : Inv s) {n : ℕ} (h : ∀ d ∈ s.latch, AckedBeside n s d) :
    Inv { s with clouds := s.clouds.erase n } where
  latched d hd := by
    obtain ⟨l, hne, hl, hlive⟩ := h d hd
    refine ⟨l, hl, ?_⟩
    cases l with
    | lan m => exact hlive
    | cloud m => exact Finset.mem_erase.2 ⟨fun hm => hne (congrArg Link.cloud hm), hlive⟩
  fresh := hs.fresh
  ever := hs.ever
  lanNumber := hs.lanNumber
  cloudNumber m hm := hs.cloudNumber m (Finset.mem_of_mem_erase hm)

/-! ## Runs -/

def printer (password : Bytes) : Creds where
  devId := ascii "p"
  devIp := ascii "ip"
  username := ascii "bblp"
  password := password
  useSsl := true

end BambooNet.Agent.Cert
