import BambooNet.Cloud.Subscriptions
import BambooNet.Lib.Latch
import Mathlib.Data.List.Infix
import Mathlib.Logic.Function.Basic

/-!
# Notifications and snapshots of the cloud session

Two latches for each device: one for the callback that tells Studio that the device is there, and
one for the request of a full snapshot after a connection. They are closed and released by callbacks
of the sessions' loop threads and by calls of Studio; what is done under the mutex is one step, a
notification is called (or its turn comes in Studio's queue) in a later one, and a call that asks
for snapshots takes several.

**What the latches give** (`cloud_notify_run`). The callback is not once per session: dropping a
subscription releases its latch. It is decided once between two releases and what is decided is not
lost, and a report that comes before the callback is registered leaves the latch alone, so that the
next one is notified. Likewise for the snapshots, which go to the devices that were active when the
call looked.
-/

namespace BambooNet.Agent.Notify

/-! ## States and steps -/

/-- A call of `kickstart_cloud_status`. -/
inductive Call
  | idle
  /-- It has taken session `n`. -/
  | held (n : ℕ)
  /-- The session was connected. -/
  | up (n : ℕ)
  /-- It has the active devices of the session. -/
  | looked (n : ℕ) (active : Finset Bytes)
  /-- The devices it still has to ask. -/
  | sending (pending : Finset Bytes)
  /-- The request to a device has failed, and its latch is not released yet. -/
  | failing (devId : Bytes) (pending : Finset Bytes)

structure State where
  /-- `cloud_pushall_on_connect`. -/
  pushallOnConnect : Bool
  sessions : ℕ → Cloud.State := fun _ => {}
  /-- How many sessions have been made. -/
  made : ℕ := 0
  /-- `cloud_session_`. -/
  session : Option ℕ := none
  /-- `on_printer_connected_` is set. -/
  printerConnected : Bool := false
  connectedDevs : Finset Bytes := ∅
  notifiedDevs : Finset Bytes := ∅
  kickstartedDevs : Finset Bytes := ∅
  /-- The calls that ask for snapshots, by thread. -/
  calls : ℕ → Call := fun _ => .idle
  /-- The notifications that are decided and not called yet, with the session whose report gave rise
  to them. -/
  notifying : Multiset (ℕ × Bytes) := 0
  /-- The calls of the callback. -/
  fired : List (ℕ × Bytes) := []
  /-- The requests that were sent, with the session. -/
  sent : List (ℕ × Bytes) := []

inductive Event
  | connectCloud
  /-- A step of session `n`: its loop thread, its subscriptions, its start and stop. -/
  | session (n : ℕ) (e : Cloud.Event)
  /-- `set_on_printer_connected_fn`, with a callback or without. -/
  | register (callback : Bool)
  /-- A report of a device that the loop thread of session `n` delivers. -/
  | report (n : ℕ) (devId json : Bytes)
  /-- The callback is called for such a report. -/
  | notify (n : ℕ) (devId : Bytes)
  /-- The connection callback of session `n` with a status other than 0. -/
  | dropped (n : ℕ)
  | disconnectCloud
  /-- The section of `cloud_del_subscribe`, before the session drops the subscriptions. -/
  | delSubscribe (devIds : List Bytes)
  | setUserSelectedMachine (devId : Bytes)
  /-- A call that asks for snapshots: after a CONNACK, a subscription or a selection. -/
  | kick (t : ℕ)
  | check (t : ℕ)
  | look (t : ℕ)
  | latch (t : ℕ)
  | publish (t : ℕ) (devId : Bytes) (accepted : Bool)
  | unlatch (t : ℕ)

/-- Frames that reject an unsigned command are not passed on. -/
def rejectedFrame (json : Bytes) : Bool :=
  (ascii "\"project_file\"" <:+: json ∧ ascii "84033543" <:+: json) ∨
    (ascii "\"liveview\"" <:+: json ∧ ascii "84033543" <:+: json)

/-- The report is passed on and a callback is registered. -/
def Heard (s : State) (n : ℕ) (json : Bytes) : Prop :=
  (s.sessions n).running = true ∧ rejectedFrame json = false ∧ s.printerConnected = true

instance (s : State) (n : ℕ) (json : Bytes) : Decidable (Heard s n json) :=
  inferInstanceAs (Decidable (_ ∧ _))

def onMsg (n : ℕ) (devId json : Bytes) (s : State) : State :=
  if (s.sessions n).running = false ∨ rejectedFrame json = true then s
  else
    let s := { s with connectedDevs := insert devId s.connectedDevs }
    if s.printerConnected = true ∧ devId ∉ s.notifiedDevs then
      { s with
        notifiedDevs := insert devId s.notifiedDevs
        notifying := (n, devId) ::ₘ s.notifying }
    else s

/-- The callback is called outside of the mutex, by the loop thread or from Studio's queue. -/
def notify (n : ℕ) (devId : Bytes) (s : State) : State :=
  if (n, devId) ∈ s.notifying then
    { s with
      notifying := s.notifying.erase (n, devId)
      fired := s.fired ++ [(n, devId)] }
  else s

def State.setCall (s : State) (t : ℕ) (c : Call) : State :=
  { s with calls := Function.update s.calls t c }

/-- No call of the thread is under way. -/
def Call.over : Call → Bool
  | .idle => true
  | .sending pending => decide (pending = ∅)
  | _ => false

def kick (t : ℕ) (s : State) : State :=
  if !(s.calls t).over || !s.pushallOnConnect then s
  else
    match s.session with
    | none => s
    | some n => s.setCall t (.held n)

/-- The session that a message goes out on. -/
def State.channel (s : State) (accepted : Bool) : Option ℕ :=
  s.session.filter fun n => (s.sessions n).client && (s.sessions n).connected && accepted

def publish (t : ℕ) (devId : Bytes) (accepted : Bool) (s : State) : State :=
  match s.calls t with
  | .sending pending =>
    if devId ∈ pending then
      match s.channel accepted with
      | some n =>
        { s with sent := s.sent ++ [(n, devId)] }.setCall t (.sending (pending.erase devId))
      | none => s.setCall t (.failing devId (pending.erase devId))
    else s
  | _ => s

/-- An event that cannot happen in a state leaves it alone. -/
def step (s : State) : Event → State
  | .connectCloud =>
    match s.session with
    | some _ => s
    | none => { s with session := some s.made, made := s.made + 1 }
  | .session n e =>
    if n < s.made then
      { s with sessions := Function.update s.sessions n (Cloud.step (s.sessions n) e) }
    else s
  | .register callback => { s with printerConnected := callback }
  | .report n devId json => onMsg n devId json s
  | .notify n devId => notify n devId s
  | .dropped n => if (s.sessions n).running then { s with kickstartedDevs := ∅ } else s
  | .disconnectCloud =>
    { s with session := none, connectedDevs := ∅, notifiedDevs := ∅, kickstartedDevs := ∅ }
  | .delSubscribe devIds =>
    { s with
      connectedDevs := s.connectedDevs \ devIds.toFinset
      notifiedDevs := s.notifiedDevs \ devIds.toFinset
      kickstartedDevs := s.kickstartedDevs \ devIds.toFinset }
  | .setUserSelectedMachine devId =>
    if devId = [] then s else { s with kickstartedDevs := s.kickstartedDevs.erase devId }
  | .kick t => kick t s
  | .check t =>
    match s.calls t with
    | .held n => s.setCall t (if (s.sessions n).connected then .up n else .idle)
    | _ => s
  | .look t =>
    match s.calls t with
    | .up n => s.setCall t (.looked n (s.sessions n).active)
    | _ => s
  | .latch t =>
    match s.calls t with
    | .looked _ active =>
      { s with kickstartedDevs := s.kickstartedDevs ∪ active }.setCall t
        (.sending (active \ s.kickstartedDevs))
    | _ => s
  | .publish t devId accepted => publish t devId accepted s
  | .unlatch t =>
    match s.calls t with
    | .failing devId pending =>
      { s with kickstartedDevs := s.kickstartedDevs.erase devId }.setCall t (.sending pending)
    | _ => s

def start (pushallOnConnect : Bool) : State := { pushallOnConnect }

/-! ## Notifications -/

/-- The event is a report of the device that is heard. -/
def HeardOf (d : Bytes) (s : State) : Event → Prop
  | .report n devId json => devId = d ∧ Heard s n json
  | _ => False

/-- The event releases the latch of the notification. -/
def Resets (d : Bytes) : Event → Prop
  | .disconnectCloud => True
  | .delSubscribe devIds => d ∈ devIds
  | _ => False

theorem onMsg_of_heard {s : State} {n : ℕ} {json : Bytes} (h : Heard s n json) (devId : Bytes) :
    onMsg n devId json s =
      if devId ∈ s.notifiedDevs then { s with connectedDevs := insert devId s.connectedDevs }
      else
        { s with
          connectedDevs := insert devId s.connectedDevs
          notifiedDevs := insert devId s.notifiedDevs
          notifying := (n, devId) ::ₘ s.notifying } := by
  obtain ⟨hrunning, hframe, hcallback⟩ := h
  rw [onMsg, if_neg (by simp [hrunning, hframe])]
  by_cases hmem : devId ∈ s.notifiedDevs
  · rw [if_neg (fun hc => hc.2 hmem), if_pos hmem]
  · rw [if_pos ⟨hcallback, hmem⟩, if_neg hmem]

theorem onMsg_of_not_heard {s : State} {n : ℕ} {json : Bytes} (h : ¬ Heard s n json)
    (devId : Bytes) :
    ∃ connected, onMsg n devId json s = { s with connectedDevs := connected } := by
  unfold onMsg
  split
  · exact ⟨s.connectedDevs, rfl⟩
  · next hpassed =>
    have hcallback : ¬ (s.printerConnected = true ∧ devId ∉ s.notifiedDevs) := by
      rintro ⟨hc, -⟩
      obtain ⟨hrunning, hframe⟩ := not_or.1 hpassed
      exact h ⟨Bool.eq_true_of_not_eq_false hrunning, Bool.eq_false_of_not_eq_true hframe, hc⟩
    exact ⟨_, if_neg hcallback⟩

/-- **The latch of the notification.** -/
theorem mem_notifiedDevs_step (d : Bytes) (s : State) (e : Event) :
    d ∈ (step s e).notifiedDevs ↔ HeardOf d s e ∨ (d ∈ s.notifiedDevs ∧ ¬ Resets d e) := by
  cases e with
  | report n devId json =>
    have hkept : ¬ Resets d (.report n devId json) := id
    rw [and_iff_left hkept, step, HeardOf]
    by_cases h : Heard s n json
    · rw [onMsg_of_heard h, and_iff_left h]
      split
      · next hmem =>
        refine ⟨.inr, fun hd => hd.elim (fun heq => heq ▸ hmem) id⟩
      · rw [Finset.mem_insert, eq_comm]
    · obtain ⟨connected, hs⟩ := onMsg_of_not_heard h devId
      rw [hs]
      exact ⟨.inr, fun hd => hd.resolve_left fun hc => h hc.2⟩
  | delSubscribe devIds =>
    simp only [step, HeardOf, Resets, Finset.mem_sdiff, List.mem_toFinset, false_or]
  | disconnectCloud => simp [step, HeardOf, Resets]
  | publish t devId accepted =>
    simp only [step, publish, HeardOf, Resets, false_or, not_false_eq_true, and_true]
    split
    · split
      · split <;> exact Iff.rfl
      · exact Iff.rfl
    · exact Iff.rfl
  | kick t =>
    simp only [step, kick, HeardOf, Resets, false_or, not_false_eq_true, and_true]
    split
    · exact Iff.rfl
    · split <;> exact Iff.rfl
  | notify n devId =>
    simp only [step, notify, HeardOf, Resets, false_or, not_false_eq_true, and_true]
    split <;> exact Iff.rfl
  | register callback => simp [step, HeardOf, Resets]
  | connectCloud | session | dropped | setUserSelectedMachine | check | look | latch | unlatch =>
    simp only [step, HeardOf, Resets, false_or, not_false_eq_true, and_true]
    split <;> exact Iff.rfl

/-- The notifications that were decided, called or not. -/
def State.decided (s : State) : Multiset (ℕ × Bytes) := s.fired + s.notifying

/-- A call takes a notification that was decided. -/
theorem decided_notify (s : State) (n : ℕ) (d : Bytes) :
    (step s (.notify n d)).decided = s.decided := by
  rw [step, notify]
  split
  · next hmem =>
    have hfired : ((s.fired ++ [(n, d)] : List (ℕ × Bytes)) : Multiset (ℕ × Bytes)) =
        s.fired + {(n, d)} := (Multiset.coe_add _ _).symm
    calc ((s.fired ++ [(n, d)] : List (ℕ × Bytes)) : Multiset (ℕ × Bytes)) +
          s.notifying.erase (n, d)
        = s.fired + ({(n, d)} + s.notifying.erase (n, d)) := by rw [hfired, Multiset.add_assoc]
      _ = s.fired + s.notifying := by rw [Multiset.singleton_add, Multiset.cons_erase hmem]
  · rfl

/-- A heard report is notified when the latch of its device is open. -/
theorem notifying_report {s : State} {n : ℕ} {json : Bytes} (h : Heard s n json) (d : Bytes) :
    (step s (.report n d json)).notifying =
      if d ∈ s.notifiedDevs then s.notifying else (n, d) ::ₘ s.notifying := by
  rw [step, onMsg_of_heard h]
  split <;> rfl

/-- A report calls nothing itself. -/
theorem fired_report (s : State) (n : ℕ) (d json : Bytes) :
    (step s (.report n d json)).fired = s.fired := by
  rw [step]
  by_cases h : Heard s n json
  · rw [onMsg_of_heard h]
    split <;> rfl
  · obtain ⟨connected, hs⟩ := onMsg_of_not_heard h d
    rw [hs]

theorem decided_report {s : State} {n : ℕ} {json : Bytes} (h : Heard s n json) (d : Bytes) :
    (step s (.report n d json)).decided =
      if d ∈ s.notifiedDevs then s.decided else (n, d) ::ₘ s.decided := by
  rw [State.decided, fired_report, notifying_report h]
  split
  · rfl
  · exact Multiset.add_cons _ _ _

/-- Nothing else decides a notification, and none that was decided is lost. -/
theorem decided_step (s : State) (e : Event) :
    (step s e).decided = s.decided ∨ ∃ n d json, e = .report n d json ∧ Heard s n json := by
  cases e with
  | report n devId json =>
    by_cases h : Heard s n json
    · exact .inr ⟨n, devId, json, rfl, h⟩
    · obtain ⟨connected, hs⟩ := onMsg_of_not_heard h devId
      refine .inl ?_
      rw [step, hs]
      rfl
  | notify n devId => exact .inl (decided_notify s n devId)
  | publish t devId accepted =>
    refine .inl ?_
    simp only [step, publish]
    split
    · split
      · split <;> rfl
      · rfl
    · rfl
  | kick t =>
    refine .inl ?_
    simp only [step, kick]
    split
    · rfl
    · split <;> rfl
  | register | disconnectCloud | delSubscribe => exact .inl rfl
  | connectCloud | session | dropped | setUserSelectedMachine | check | look | latch | unlatch =>
    refine .inl ?_
    simp only [step]
    split <;> rfl

/-- **What is decided is not lost.** -/
theorem decided_run_le (s : State) (es : List Event) : s.decided ≤ (run step s es).decided := by
  induction es generalizing s with
  | nil => exact le_refl _
  | cons e es ih =>
    refine le_trans ?_ (ih (step s e))
    rcases decided_step s e with heq | ⟨n, d, json, rfl, h⟩
    · exact heq.ge
    · rw [decided_report h]
      split
      · exact le_refl _
      · exact Multiset.le_cons_self _ _

/-- How often the callback was called for a device. -/
def notifications (d : Bytes) (s : State) : ℕ := s.fired.countP fun e => e.2 = d

/-- How often that was decided. -/
def decisions (d : Bytes) (s : State) : ℕ := s.decided.countP fun e => e.2 = d

theorem notifications_le (d : Bytes) (s : State) : notifications d s ≤ decisions d s := by
  rw [decisions, State.decided, Multiset.countP_add, Multiset.coe_countP]
  exact Nat.le_add_right _ _

/-- Without a notification that is not called yet, all that were decided were called. -/
theorem decisions_eq {d : Bytes} {s : State} (hquiet : ∀ n, (n, d) ∉ s.notifying) :
    decisions d s = notifications d s := by
  have hnone : s.notifying.countP (fun e => e.2 = d) = 0 := by
    refine Multiset.countP_eq_zero.2 ?_
    rintro ⟨n, d'⟩ hmem rfl
    exact hquiet n hmem
  rw [decisions, State.decided, Multiset.countP_add, Multiset.coe_countP, hnone]
  rfl

theorem decisions_step (d : Bytes) (s : State) (e : Event) :
    decisions d (step s e) = decisions d s ∨
      (decisions d (step s e) = decisions d s + 1 ∧ d ∉ s.notifiedDevs ∧
        d ∈ (step s e).notifiedDevs) := by
  rcases decided_step s e with heq | ⟨n, d', json, rfl, h⟩
  · exact .inl (by rw [decisions, heq, decisions])
  · rw [decisions, decided_report h, decisions]
    split
    · exact .inl rfl
    · next hmem =>
      rw [Multiset.countP_cons]
      by_cases hd : d' = d
      · subst hd
        have hmem' := (mem_notifiedDevs_step d' s (.report n d' json)).2 (.inl ⟨rfl, h⟩)
        exact .inr ⟨by simp, hmem, hmem'⟩
      · exact .inl (by simp [hd])

/-- **Once between two releases.** -/
theorem decisions_run_le {s : State} {es : List Event} {d : Bytes}
    (h : ∀ e ∈ es, ¬ Resets d e) : decisions d (run step s es) ≤ decisions d s + 1 := by
  refine @count_le_of_latch _ _ step (fun s => d ∈ s.notifiedDevs) (fun _ e => Resets d e)
    (decisions d) (fun s e hmem hkept => ?_) (decisions_step d) s es
    (Along.of_forall h s)
  exact (mem_notifiedDevs_step d s e).2 (.inr ⟨hmem, hkept⟩)

/-- From a moment when no notification of the device is pending, it is called once as well. -/
theorem notifications_run_le {s : State} {es : List Event} {d : Bytes}
    (hquiet : ∀ n, (n, d) ∉ s.notifying) (h : ∀ e ∈ es, ¬ Resets d e) :
    notifications d (run step s es) ≤ notifications d s + 1 :=
  calc notifications d (run step s es) ≤ decisions d (run step s es) := notifications_le d _
    _ ≤ decisions d s + 1 := decisions_run_le h
    _ = notifications d s + 1 := by rw [decisions_eq hquiet]

/-- **Not lost**: a report that is heard is notified unless one was heard before and the latch has
not been released since. -/
theorem decided_report_iff (pushall : Bool) (es : List Event) {n : ℕ} {json : Bytes} (d : Bytes)
    (h : Heard (run step (start pushall) es) n json) :
    (step (run step (start pushall) es) (.report n d json)).notifying =
        (n, d) ::ₘ (run step (start pushall) es).notifying ↔
      ¬ ClosedSince step (HeardOf d) (fun _ => Resets d) (start pushall) es := by
  have hclosed := @latched_iff _ _ step (fun s => d ∈ s.notifiedDevs) (HeardOf d)
    (fun _ => Resets d) (mem_notifiedDevs_step d) (start pushall) (Finset.notMem_empty d) es
  rw [notifying_report h, ← hclosed]
  split
  · next hmem =>
    refine iff_of_false (fun heq => ?_) (not_not.2 hmem)
    exact absurd (congrArg Multiset.card heq) (by simp)
  · next hmem => exact iff_of_true rfl hmem

/-! ## Snapshots -/

/-- The call still has to do with the device. -/
def Call.Concerns (d : Bytes) : Call → Prop
  | .sending pending => d ∈ pending
  | .failing devId pending => d = devId ∨ d ∈ pending
  | _ => False

/-- The event releases the latch of the snapshot: a lost connection, the end of the session or of
the subscription, a selection of the device, or a request that has failed. -/
def Releases (d : Bytes) (s : State) : Event → Prop
  | .dropped _ | .disconnectCloud => True
  | .delSubscribe devIds => d ∈ devIds
  | .setUserSelectedMachine devId => d = devId
  | .unlatch t => ∃ pending, s.calls t = .failing d pending
  | _ => False

/-- How often a snapshot of the device was asked for. -/
def pushalls (d : Bytes) (s : State) : ℕ := s.sent.countP fun e => e.2 = d

@[simp] theorem calls_setCall (s : State) (t : ℕ) (c : Call) :
    (s.setCall t c).calls = Function.update s.calls t c := rfl

/-- What an event does with the call of a thread. -/
inductive Moves (s : State) (t : ℕ) : Event → Call → Prop
  | kick (n : ℕ) : Moves s t (.kick t) (.held n)
  | check (n : ℕ) (held : s.calls t = .held n) :
    Moves s t (.check t) (if (s.sessions n).connected then .up n else .idle)
  | look (n : ℕ) (up : s.calls t = .up n) :
    Moves s t (.look t) (.looked n (s.sessions n).active)
  | latch (n : ℕ) (active : Finset Bytes) (looked : s.calls t = .looked n active) :
    Moves s t (.latch t) (.sending (active \ s.kickstartedDevs))
  | ask (devId : Bytes) (accepted : Bool) (pending : Finset Bytes)
    (sending : s.calls t = .sending pending) (mem : devId ∈ pending) :
    Moves s t (.publish t devId accepted) (.sending (pending.erase devId))
  | fail (devId : Bytes) (accepted : Bool) (pending : Finset Bytes)
    (sending : s.calls t = .sending pending) (mem : devId ∈ pending) :
    Moves s t (.publish t devId accepted) (.failing devId (pending.erase devId))
  | unlatch (devId : Bytes) (pending : Finset Bytes)
    (failing : s.calls t = .failing devId pending) :
    Moves s t (.unlatch t) (.sending pending)

/-- The calls change by their own steps only. -/
theorem calls_step (s : State) (e : Event) (t : ℕ) :
    (step s e).calls t = s.calls t ∨ Moves s t e ((step s e).calls t) := by
  have moved {e : Event} {s' : State} {u : ℕ} {c : Call} (hs' : s'.calls = s.calls)
      (hmove : Moves s u e c) :
      (s'.setCall u c).calls t = s.calls t ∨ Moves s t e ((s'.setCall u c).calls t) := by
    rw [calls_setCall, hs']
    by_cases ht : t = u
    · subst ht
      rw [Function.update_self]
      exact .inr hmove
    · exact .inl (Function.update_of_ne ht _ _)
  cases e with
  | kick u =>
    simp only [step, kick]
    split
    · exact .inl rfl
    · split
      · exact .inl rfl
      · exact moved rfl (.kick _)
  | check u =>
    simp only [step]
    split
    · next n held => exact moved rfl (.check n held)
    · exact .inl rfl
  | look u =>
    simp only [step]
    split
    · next n up => exact moved rfl (.look n up)
    · exact .inl rfl
  | latch u =>
    simp only [step]
    split
    · next n active looked => exact moved rfl (.latch n active looked)
    · exact .inl rfl
  | publish u devId accepted =>
    simp only [step, publish]
    split
    · next pending sending =>
      split
      · next mem =>
        split
        · exact moved rfl (.ask devId accepted pending sending mem)
        · exact moved rfl (.fail devId accepted pending sending mem)
      · exact .inl rfl
    · exact .inl rfl
  | unlatch u =>
    simp only [step]
    split
    · next devId pending failing => exact moved rfl (.unlatch devId pending failing)
    · exact .inl rfl
  | report n devId json =>
    simp only [step, onMsg]
    split
    · exact .inl rfl
    · split <;> exact .inl rfl
  | register | disconnectCloud | delSubscribe => exact .inl rfl
  | notify n devId =>
    simp only [step, notify]
    split <;> exact .inl rfl
  | connectCloud | session | dropped | setUserSelectedMachine =>
    simp only [step]
    split <;> exact .inl rfl

/-- A call comes to concern a device by taking it, which closes the latch. -/
theorem concerns_step {d : Bytes} {s : State} {e : Event} {t : ℕ}
    (h : ((step s e).calls t).Concerns d) :
    (s.calls t).Concerns d ∨
      ∃ n active, e = .latch t ∧ s.calls t = .looked n active ∧ d ∈ active ∧
        d ∉ s.kickstartedDevs := by
  rcases calls_step s e t with hsame | hmove
  · exact .inl (hsame ▸ h)
  · generalize (step s e).calls t = c at h hmove
    cases hmove with
    | kick n => exact h.elim
    | check n held =>
      split at h
      · exact h.elim
      · exact h.elim
    | look n up => exact h.elim
    | latch n active looked =>
      obtain ⟨hactive, hopen⟩ := Finset.mem_sdiff.1 h
      exact .inr ⟨n, active, rfl, looked, hactive, hopen⟩
    | ask devId accepted pending sending mem =>
      exact .inl (sending ▸ (Finset.mem_of_mem_erase h : d ∈ pending))
    | fail devId accepted pending sending mem =>
      have hmem : d ∈ pending := by
        rcases h with rfl | h
        · exact mem
        · exact Finset.mem_of_mem_erase h
      exact .inl (sending ▸ hmem)
    | unlatch devId pending failing => exact .inl (failing ▸ (.inr h : d = devId ∨ d ∈ pending))

/-- A request that goes out is one a call had to do, and leaves it. -/
theorem sent_step (s : State) (e : Event) :
    (step s e).sent = s.sent ∨
      ∃ t d n, (step s e).sent = s.sent ++ [(n, d)] ∧ (s.calls t).Concerns d ∧
        (step s e).kickstartedDevs = s.kickstartedDevs ∧
        ¬ ((step s e).calls t).Concerns d := by
  cases e with
  | publish t devId accepted =>
    simp only [step, publish]
    split
    · next pending sending =>
      split
      · next mem =>
        split
        · next n channel =>
          refine .inr ⟨t, devId, n, rfl, by rwa [sending], rfl, ?_⟩
          rw [calls_setCall, Function.update_self]
          exact Finset.notMem_erase devId pending
        · exact .inl rfl
      · exact .inl rfl
    · exact .inl rfl
  | report n devId json =>
    simp only [step, onMsg]
    split
    · exact .inl rfl
    · split <;> exact .inl rfl
  | kick t =>
    simp only [step, kick]
    split
    · exact .inl rfl
    · split <;> exact .inl rfl
  | register | disconnectCloud | delSubscribe => exact .inl rfl
  | notify n devId =>
    simp only [step, notify]
    split <;> exact .inl rfl
  | connectCloud | session | dropped | setUserSelectedMachine | check | look | latch | unlatch =>
    simp only [step]
    split <;> exact .inl rfl

/-- **The latch of the snapshot** stays closed. -/
theorem mem_kickstartedDevs_step {d : Bytes} {s : State} {e : Event} (h : d ∈ s.kickstartedDevs)
    (hkept : ¬ Releases d s e) : d ∈ (step s e).kickstartedDevs := by
  cases e with
  | dropped => exact absurd trivial hkept
  | disconnectCloud => exact absurd trivial hkept
  | delSubscribe devIds =>
    exact Finset.mem_sdiff.2 ⟨h, fun hd => hkept (List.mem_toFinset.1 hd)⟩
  | setUserSelectedMachine devId =>
    simp only [step]
    split
    · exact h
    · exact Finset.mem_erase.2 ⟨hkept, h⟩
  | latch t =>
    simp only [step]
    split
    · exact Finset.mem_union_left _ h
    · exact h
  | unlatch t =>
    simp only [step]
    split
    · next devId pending failing =>
      refine Finset.mem_erase.2 ⟨?_, h⟩
      rintro rfl
      exact hkept ⟨pending, failing⟩
    · exact h
  | publish t devId accepted =>
    simp only [step, publish]
    split
    · split
      · split <;> exact h
      · exact h
    · exact h
  | report n devId json =>
    simp only [step, onMsg]
    split
    · exact h
    · split <;> exact h
  | kick t =>
    simp only [step, kick]
    split
    · exact h
    · split <;> exact h
  | register => exact h
  | notify n devId =>
    simp only [step, notify]
    split <;> exact h
  | connectCloud | session | check | look =>
    simp only [step]
    split <;> exact h

/-- A call that takes a device closes its latch. -/
theorem mem_kickstartedDevs_latch {d : Bytes} {s : State} {t n : ℕ} {active : Finset Bytes}
    (hlooked : s.calls t = .looked n active) (h : d ∈ active) :
    d ∈ (step s (.latch t)).kickstartedDevs := by
  simp only [step, hlooked]
  exact Finset.mem_union_right _ h

/-- What holds of a device between two releases of its latch, from a state in which it was asked
`asked` times and no call had to do with it. -/
structure Once (d : Bytes) (asked : ℕ) (s : State) : Prop where
  le : pushalls d s ≤ asked + 1
  /-- One call at most has to do with it, it is latched then and not asked yet. -/
  single : ∀ t u, (s.calls t).Concerns d → (s.calls u).Concerns d → t = u
  latched : ∀ t, (s.calls t).Concerns d → d ∈ s.kickstartedDevs
  fresh : ∀ t, (s.calls t).Concerns d → pushalls d s = asked
  counted : d ∉ s.kickstartedDevs → pushalls d s = asked

theorem pushalls_step (d : Bytes) (s : State) (e : Event) :
    pushalls d (step s e) = pushalls d s ∨
      ∃ t, pushalls d (step s e) = pushalls d s + 1 ∧ (s.calls t).Concerns d ∧
        (step s e).kickstartedDevs = s.kickstartedDevs ∧
        ¬ ((step s e).calls t).Concerns d := by
  rcases sent_step s e with heq | ⟨t, d', n, heq, hconcerns, hlatch, hdone⟩
  · exact .inl (by rw [pushalls, heq, pushalls])
  · rw [pushalls, heq, List.countP_append, List.countP_singleton]
    by_cases hd : d' = d
    · subst hd
      exact .inr ⟨t, by simp [pushalls], hconcerns, hlatch, hdone⟩
    · exact .inl (by simp [hd, pushalls])

theorem Once.step {d : Bytes} {asked : ℕ} {s : State} {e : Event} (h : Once d asked s)
    (hkept : ¬ Releases d s e) : Once d asked (step s e) := by
  have hlatch := fun hmem => @mem_kickstartedDevs_step d s e hmem hkept
  refine ⟨?_, fun t u ht hu => ?_, fun t ht => ?_, fun t ht => ?_, fun hopen => ?_⟩
  · rcases pushalls_step d s e with heq | ⟨t, heq, hconcerns, -, -⟩
    · exact heq ▸ h.le
    · rw [heq, h.fresh t hconcerns]
  · rcases concerns_step ht with ht | ⟨-, -, rfl, -, -, hopen⟩
    · rcases concerns_step hu with hu | ⟨-, -, -, -, -, hopen⟩
      · exact h.single t u ht hu
      · exact absurd (h.latched t ht) hopen
    · rcases concerns_step hu with hu | ⟨-, -, heq, -, -, -⟩
      · exact absurd (h.latched u hu) hopen
      · exact Event.latch.inj heq
  · rcases concerns_step ht with ht | ⟨n, active, rfl, hlooked, hactive, -⟩
    · exact hlatch (h.latched t ht)
    · exact mem_kickstartedDevs_latch hlooked hactive
  · rcases pushalls_step d s e with heq | ⟨u, -, hconcerns, hsame, hdone⟩
    · rw [heq]
      rcases concerns_step ht with ht | ⟨-, -, -, -, -, hopen⟩
      · exact h.fresh t ht
      · exact h.counted hopen
    · -- The call that has asked is done with the device, and was the only one.
      rcases concerns_step ht with ht' | ⟨-, -, -, -, -, hopen⟩
      · exact absurd (h.single t u ht' hconcerns ▸ ht) hdone
      · exact absurd (h.latched u hconcerns) hopen
  · have hopen' : d ∉ s.kickstartedDevs := fun hmem => hopen (hlatch hmem)
    rcases pushalls_step d s e with heq | ⟨u, -, hconcerns, -, -⟩
    · rw [heq, h.counted hopen']
    · exact absurd (h.latched u hconcerns) hopen'

/-- **Once between two releases**, from a state in which no call has to do with the device. -/
theorem pushalls_run_le {s : State} {es : List Event} {d : Bytes}
    (hquiet : ∀ t, ¬ (s.calls t).Concerns d)
    (h : Along Notify.step (fun s e => ¬ Releases d s e) s es) :
    pushalls d (run Notify.step s es) ≤ pushalls d s + 1 := by
  have hstart : Once d (pushalls d s) s :=
    ⟨Nat.le_succ _, fun t _ ht => absurd ht (hquiet t), fun t ht => absurd ht (hquiet t),
      fun t ht => absurd ht (hquiet t), fun _ => rfl⟩
  exact (run_invariant (fun s e hs hkept => hs.step hkept) hstart h).le

/-! ## Which devices are asked -/

/-- The call has got the device from the session. -/
def Call.Has (d : Bytes) : Call → Prop
  | .looked _ active => d ∈ active
  | c => c.Concerns d

/-- The call has found session `n` connected. -/
def Checked (s : State) (t n : ℕ) (es : List Event) : Prop :=
  ∃ done rest, es = done ++ .check t :: rest ∧ ((run step s done).sessions n).connected = true

/-- The device was active when the call looked, in a session that it had found connected. -/
def Looked (s : State) (t : ℕ) (d : Bytes) (es : List Event) : Prop :=
  ∃ done rest n, es = done ++ .look t :: rest ∧ d ∈ ((run step s done).sessions n).active ∧
    Checked s t n done

theorem Checked.concat {s : State} {t n : ℕ} {es : List Event} (h : Checked s t n es) (e : Event) :
    Checked s t n (es ++ [e]) := by
  obtain ⟨done, rest, rfl, hconnected⟩ := h
  exact ⟨done, rest ++ [e], by simp, hconnected⟩

theorem Looked.concat {s : State} {t : ℕ} {d : Bytes} {es : List Event} (h : Looked s t d es)
    (e : Event) : Looked s t d (es ++ [e]) := by
  obtain ⟨done, rest, n, rfl, hactive, hchecked⟩ := h
  exact ⟨done, rest ++ [e], n, by simp, hactive, hchecked⟩

theorem checked_run (pushall : Bool) {t n : ℕ} {es : List Event}
    (h : (run step (start pushall) es).calls t = .up n) : Checked (start pushall) t n es := by
  induction es using List.reverseRecOn with
  | nil => exact absurd h (by simp [start])
  | append_singleton es e ih =>
    rw [run_append, run_cons, run_nil] at h
    rcases calls_step (run step (start pushall) es) e t with hsame | hmove
    · exact (ih (hsame ▸ h)).concat e
    · rw [h] at hmove
      generalize hc : Call.up n = c at hmove
      cases hmove with
      | check m held =>
        split at hc
        · next hconnected =>
          obtain rfl := Call.up.inj hc
          exact ⟨es, [], rfl, hconnected⟩
        · cases hc
      | kick | look | latch | ask | fail | unlatch => cases hc

theorem has_step {d : Bytes} {s : State} {e : Event} {t : ℕ} (h : ((step s e).calls t).Has d) :
    (s.calls t).Has d ∨
      ∃ n, e = .look t ∧ s.calls t = .up n ∧ d ∈ (s.sessions n).active := by
  rcases calls_step s e t with hsame | hmove
  · exact .inl (hsame ▸ h)
  · generalize (step s e).calls t = c at h hmove
    cases hmove with
    | kick n => exact h.elim
    | check n held =>
      split at h
      · exact h.elim
      · exact h.elim
    | look n up => exact .inr ⟨n, rfl, up, h⟩
    | latch n active looked => exact .inl (looked ▸ ((Finset.mem_sdiff.1 h).1 : d ∈ active))
    | ask devId accepted pending sending mem =>
      exact .inl (sending ▸ (Finset.mem_of_mem_erase h : d ∈ pending))
    | fail devId accepted pending sending mem =>
      have hmem : d ∈ pending := by
        rcases h with rfl | h
        · exact mem
        · exact Finset.mem_of_mem_erase h
      exact .inl (sending ▸ hmem)
    | unlatch devId pending failing => exact .inl (failing ▸ (.inr h : d = devId ∨ d ∈ pending))

theorem looked_run (pushall : Bool) {t : ℕ} {d : Bytes} {es : List Event}
    (h : ((run step (start pushall) es).calls t).Has d) : Looked (start pushall) t d es := by
  induction es using List.reverseRecOn with
  | nil => exact absurd h id
  | append_singleton es e ih =>
    rw [run_append, run_cons, run_nil] at h
    rcases has_step h with h | ⟨n, rfl, hup, hactive⟩
    · exact (ih h).concat e
    · exact ⟨es, [], n, rfl, hactive, checked_run pushall hup⟩

theorem Call.Concerns.has {d : Bytes} {c : Call} (h : c.Concerns d) : c.Has d := by
  cases c with
  | looked n active => exact h.elim
  | idle | held | up | sending | failing => exact h

/-- A request that goes out is for a device that was active when the call looked. -/
theorem looked_of_sent (pushall : Bool) {es : List Event} {e : Event} {n : ℕ} {d : Bytes}
    (h : (step (run step (start pushall) es) e).sent =
      (run step (start pushall) es).sent ++ [(n, d)]) :
    ∃ t, Looked (start pushall) t d es := by
  rcases sent_step (run step (start pushall) es) e with heq | ⟨t, d', n', heq, hconcerns, -, -⟩
  · exact absurd (h.symm.trans heq) (by simp)
  · rw [h, List.append_cancel_left_eq] at heq
    obtain ⟨rfl, rfl⟩ : n = n' ∧ d = d' := by simpa using heq
    exact ⟨t, looked_run pushall hconcerns.has⟩

/-! ## Runs -/

/-- **What the latches give.** Between two releases of its latch it is decided at most once to
notify a device, and so the callback is called at most once from a moment when no call is pending.
What is decided is not lost, and every report that is heard is notified unless one was since the
last release: a report that came before the callback does not count. A snapshot is asked for at most
once between two releases of its latch, from a moment when no call has to do with the device, and
only of devices that were active when the call looked, in a session it had found connected. -/
theorem cloud_notify_run (pushall : Bool) (d : Bytes) (es : List Event) :
    (∀ es', (∀ e ∈ es', ¬ Resets d e) →
      decisions d (run step (start pushall) (es ++ es')) ≤
        decisions d (run step (start pushall) es) + 1) ∧
    (∀ es', (∀ n, (n, d) ∉ (run step (start pushall) es).notifying) →
      (∀ e ∈ es', ¬ Resets d e) →
      notifications d (run step (start pushall) (es ++ es')) ≤
        notifications d (run step (start pushall) es) + 1) ∧
    (∀ es', (run step (start pushall) es).decided ≤
      (run step (start pushall) (es ++ es')).decided) ∧
    (∀ n json, Heard (run step (start pushall) es) n json →
      ((step (run step (start pushall) es) (.report n d json)).notifying =
          (n, d) ::ₘ (run step (start pushall) es).notifying ↔
        ¬ ClosedSince step (HeardOf d) (fun _ => Resets d) (start pushall) es)) ∧
    (∀ es', (∀ t, ¬ ((run step (start pushall) es).calls t).Concerns d) →
      Along step (fun s e => ¬ Releases d s e) (run step (start pushall) es) es' →
      pushalls d (run step (start pushall) (es ++ es')) ≤
        pushalls d (run step (start pushall) es) + 1) ∧
    ∀ e n, (step (run step (start pushall) es) e).sent =
        (run step (start pushall) es).sent ++ [(n, d)] →
      ∃ t, Looked (start pushall) t d es := by
  refine ⟨fun es' h => ?_, fun es' hquiet h => ?_, fun es' => ?_,
    fun n json h => decided_report_iff pushall es d h, fun es' hquiet h => ?_,
    fun e n h => looked_of_sent pushall h⟩
  · rw [run_append]
    exact decisions_run_le h
  · rw [run_append]
    exact notifications_run_le hquiet h
  · rw [run_append]
    exact decided_run_le _ _
  · rw [run_append]
    exact pushalls_run_le hquiet h

/-- A session that is connected and has subscribed to a device. -/
def online (devId : Bytes) : List Event :=
  [.connectCloud, .session 0 .start, .session 0 (.connack true),
    .session 0 (.reapply fun _ => true), .session 0 (.add [devId] fun _ => true)]

/-- Studio drops the device and subscribes again. -/
def resubscribe (devId : Bytes) : List Event :=
  [.delSubscribe [devId], .session 0 (.del [devId]), .session 0 (.add [devId] fun _ => true)]

/-- A call up to the requests. -/
def look (t : ℕ) : List Event := [.kick t, .check t, .look t, .latch t]

/-- In one session a device is notified twice; a report that comes before the callback is not
notified by itself; with one CONNACK and no selection a snapshot is asked for twice; and one is
asked of a device that is no longer active. -/
theorem latches_released_in_a_session :
    (run step (start true) (online [88] ++ .register true :: .report 0 [88] [] :: .notify 0 [88] ::
      (resubscribe [88] ++ [.report 0 [88] [], .notify 0 [88]]))).fired =
        [(0, [88]), (0, [88])] ∧
    (run step (start true) (online [88] ++ [.report 0 [88] [], .register true])).decided = 0 ∧
    (run step (start true) (online [88] ++ (look 0 ++ .publish 0 [88] true ::
      (resubscribe [88] ++ (look 1 ++ [.publish 1 [88] true]))))).sent =
        [(0, [88]), (0, [88])] ∧
    ((run step (start true) (online [88] ++ (look 0 ++ [.delSubscribe [[88]],
      .session 0 (.del [[88]])]))).sessions 0).active = ∅ ∧
    (run step (start true) (online [88] ++ (look 0 ++ [.delSubscribe [[88]],
      .session 0 (.del [[88]]), .publish 0 [88] true]))).sent = [(0, [88])] := by
  decide +kernel

end BambooNet.Agent.Notify
