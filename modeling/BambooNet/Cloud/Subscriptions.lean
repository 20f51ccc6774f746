import BambooNet.Lib.Bytes
import BambooNet.Lib.Runs
import Mathlib.Data.Finset.Basic

/-!
# Subscriptions of the cloud session

The session keeps the devices that are wanted and those it has subscribed to on the broker. Three
threads change them: calls of Studio, the callbacks of the MQTT loop, and `stop`. What one thread
does under the mutex is one step. The flag `connected` is written outside of it, and the subscribes
that fail are reported behind it, so that each call, each callback and `stop` take several steps,
and the others come in between.

**Three windows** follow. Between the write of the flag and the section of the disconnect callback
(and of `stop`) the flag is down while subscriptions are still listed; a CONNACK that comes in
while `stop` has already taken the client subscribes to nothing; and a call that has left the mutex
still owes the reports of its failed subscribes. Outside of them no device is lost
(`subscriptions_run`).
-/

namespace BambooNet.Cloud

/-! ## States and steps -/

/-- What the loop thread is in the middle of. -/
inductive Loop
  | idle
  /-- A CONNACK: `connected` is set, the subscriptions are not applied yet. -/
  | connack
  /-- A CONNACK whose section is over: these subscribes have failed and are not reported yet. -/
  | reporting (owed : Finset Bytes)
  /-- A disconnect: `connected` is down, `active` is not cleared yet. -/
  | disconnect
  deriving DecidableEq

/-- The reports that the connect callback still has to make. -/
def Loop.owed : Loop → Finset Bytes
  | .reporting owed => owed
  | _ => ∅

/-- The connect callback goes on with these reports, and is over without any. -/
def Loop.after (owed : Finset Bytes) : Loop := if owed = ∅ then .idle else .reporting owed

/-- How far `stop` has come. -/
inductive Stopping
  | no
  /-- The client is taken, the loop thread still runs. -/
  | taken
  /-- The loop thread has ended and `connected` is down, `active` is not cleared yet. -/
  | joined
  deriving DecidableEq

structure State where
  /-- The wanted devices. -/
  subscribed : Finset Bytes := ∅
  active : Finset Bytes := ∅
  connected : Bool := false
  started : Bool := false
  /-- `client_` is not null. -/
  client : Bool := false
  /-- The loop thread runs. -/
  running : Bool := false
  loop : Loop := .idle
  stopping : Stopping := .no
  /-- The reports that calls of `add_subscribe` still have to make, each its own. -/
  owed : Multiset Bytes := 0
  /-- The devices reported as failed subscribes since the last CONNACK. -/
  reported : Finset Bytes := ∅

inductive Event
  /-- `start` gets a client to run, after a `stop` is over. -/
  | start
  /-- The section of `add_subscribe`; `accepts` is what the client answers to a SUBSCRIBE. -/
  | add (devIds : List Bytes) (accepts : Bytes → Bool)
  /-- A call of `add_subscribe` reports a failed subscribe. -/
  | report (devId : Bytes)
  | del (devIds : List Bytes)
  /-- The connect callback sets `connected`. There is one CONNACK for a connection. -/
  | connack (ok : Bool)
  /-- The connect callback applies the subscriptions. -/
  | reapply (accepts : Bytes → Bool)
  /-- The connect callback reports a failed subscribe. -/
  | loopReport (devId : Bytes)
  /-- The disconnect callback sets `connected`. -/
  | disconnect
  /-- The disconnect callback clears `active`. -/
  | clear
  /-- `stop` takes the client. -/
  | stop
  /-- `stop` has joined the loop thread, or has cut it off, and sets `connected`. -/
  | joined
  /-- `stop` clears `active`. -/
  | stopped

/-- `apply_subscriptions_locked_` up to its unlock: the state and the subscribes that failed. -/
def applySubscriptions (accepts : Bytes → Bool) (s : State) : State × Finset Bytes :=
  if !s.client then (s, ∅)
  else
    let toSub := s.subscribed \ s.active
    ({ s with active := s.active ∪ toSub.filter fun d => accepts d },
      toSub.filter fun d => !accepts d)

def addSubscribe (devIds : List Bytes) (accepts : Bytes → Bool) (s : State) : State :=
  let s := { s with subscribed := s.subscribed ∪ (devIds.filter (· ≠ [])).toFinset }
  if s.connected then
    let r := applySubscriptions accepts s
    { r.1 with owed := r.1.owed + r.2.val }
  else s

/-- The section of the connect callback. -/
def reapply (accepts : Bytes → Bool) (s : State) : State :=
  let r := applySubscriptions accepts { s with active := ∅, reported := ∅ }
  { r.1 with loop := .after r.2 }

def delSubscribe (devIds : List Bytes) (s : State) : State :=
  { s with
    subscribed := s.subscribed \ devIds.toFinset
    active := s.active \ devIds.toFinset }

/-- An event that cannot happen in a state leaves it alone. -/
def step (s : State) : Event → State
  | .start =>
    if !s.started && s.stopping = .no then
      { s with started := true, client := true, running := true }
    else s
  | .add devIds accepts => addSubscribe devIds accepts s
  | .report d =>
    if d ∈ s.owed then { s with owed := s.owed.erase d, reported := insert d s.reported } else s
  | .del devIds => delSubscribe devIds s
  | .connack ok =>
    if s.running && s.loop = .idle && !s.connected then
      if ok then { s with connected := true, loop := .connack } else { s with connected := false }
    else s
  | .reapply accepts => if s.loop = .connack then reapply accepts s else s
  | .loopReport d =>
    if d ∈ s.loop.owed then
      { s with loop := .after (s.loop.owed.erase d), reported := insert d s.reported }
    else s
  | .disconnect =>
    if s.running && s.loop = .idle then { s with connected := false, loop := .disconnect } else s
  | .clear => if s.loop = .disconnect then { s with active := ∅, loop := .idle } else s
  | .stop =>
    if s.started then { s with started := false, client := false, stopping := .taken } else s
  | .joined =>
    if s.stopping = .taken then
      { s with connected := false, running := false, loop := .idle, stopping := .joined }
    else s
  | .stopped => if s.stopping = .joined then { s with active := ∅, stopping := .no } else s

/-! ## The invariant -/

/-- The device is active, or was reported, or a report of it is still to be made. -/
def Settled (s : State) (d : Bytes) : Prop :=
  d ∈ s.active ∨ d ∈ s.reported ∨ d ∈ s.owed ∨ d ∈ s.loop.owed

structure Inv (s : State) : Prop where
  subset : s.active ⊆ s.subscribed
  /-- Outside of the two sections that follow the write of the flag, nothing is listed then. -/
  down : s.connected = false → s.loop ≠ .disconnect → s.stopping ≠ .joined → s.active = ∅
  settled : s.connected = true → s.client = true → s.loop ≠ .connack →
    ∀ d ∈ s.subscribed, Settled s d
  /-- The client is there while the session is started. -/
  client : s.client = s.started
  stopping : s.stopping ≠ .no → s.started = false
  running : s.running = true → s.started = true ∨ s.stopping = .taken
  /-- Without a loop thread there is no connection and no callback. -/
  idle : s.running = false → s.connected = false ∧ s.loop = .idle
  connack : s.loop = .connack → s.connected = true
  disconnect : s.loop = .disconnect → s.connected = false

/-! ## Applying the subscriptions -/

@[simp] theorem owed_after (owed : Finset Bytes) : (Loop.after owed).owed = owed := by
  unfold Loop.after
  split
  · next h => exact h.symm
  · rfl

theorem after_ne (owed : Finset Bytes) :
    Loop.after owed ≠ .connack ∧ Loop.after owed ≠ .disconnect := by
  unfold Loop.after
  split <;> exact ⟨nofun, nofun⟩

/-- All that applying the subscriptions can do: `active` grows by wanted devices, and with a client
every wanted device is active then or has failed. -/
theorem applySubscriptions_cases (accepts : Bytes → Bool) (s : State) :
    ∃ active failed, applySubscriptions accepts s = ({ s with active }, failed) ∧
      active ⊆ s.active ∪ s.subscribed ∧
      (s.client = true → ∀ d ∈ s.subscribed, d ∈ active ∨ d ∈ failed) := by
  unfold applySubscriptions
  by_cases hc : s.client = true
  · refine ⟨_, _, by rw [if_neg (by simp [hc])], ?_, fun _ d hd => ?_⟩
    · intro d hd
      simp only [Finset.mem_union, Finset.mem_filter, Finset.mem_sdiff] at hd ⊢
      exact hd.imp_right fun h => h.1.1
    · simp only [Finset.mem_union, Finset.mem_filter, Finset.mem_sdiff]
      by_cases ha : d ∈ s.active
      · exact Or.inl (Or.inl ha)
      · cases hacc : accepts d
        · exact Or.inr ⟨⟨hd, ha⟩, rfl⟩
        · exact Or.inl (Or.inr ⟨⟨hd, ha⟩, rfl⟩)
  · exact ⟨s.active, ∅, by rw [if_pos (by simpa using hc)], Finset.subset_union_left,
      fun h => absurd h hc⟩

/-- All that the section of `add_subscribe` can do. -/
theorem addSubscribe_cases (devIds : List Bytes) (accepts : Bytes → Bool) (s : State) :
    ∃ active failed, addSubscribe devIds accepts s =
        { s with
          subscribed := s.subscribed ∪ (devIds.filter (· ≠ [])).toFinset
          active
          owed := s.owed + Finset.val failed } ∧
      active ⊆ s.active ∪ (s.subscribed ∪ (devIds.filter (· ≠ [])).toFinset) ∧
      (s.connected = false → active = s.active) ∧
      (s.connected = true → s.client = true →
        ∀ d ∈ s.subscribed ∪ (devIds.filter (· ≠ [])).toFinset, d ∈ active ∨ d ∈ failed) := by
  unfold addSubscribe
  by_cases hcon : s.connected = true
  · obtain ⟨active, failed, heq, hact, hset⟩ := applySubscriptions_cases accepts
      { s with subscribed := s.subscribed ∪ (devIds.filter (· ≠ [])).toFinset }
    refine ⟨active, failed, ?_, hact, fun h => ?_, fun _ => hset⟩
    · rw [if_pos hcon, heq]
    · rw [hcon] at h
      cases h
  · refine ⟨s.active, ∅, ?_, Finset.subset_union_left, fun _ => rfl, fun h => absurd h hcon⟩
    rw [if_neg hcon, Finset.empty_val, Multiset.add_zero]

/-- All that the section of the connect callback can do. -/
theorem reapply_cases (accepts : Bytes → Bool) (s : State) :
    ∃ active failed, reapply accepts s =
        { s with active, reported := ∅, loop := .after failed } ∧
      active ⊆ s.subscribed ∧
      (s.client = true → ∀ d ∈ s.subscribed, d ∈ active ∨ d ∈ failed) := by
  obtain ⟨active, failed, heq, hact, hset⟩ := applySubscriptions_cases accepts
    { s with active := ∅, reported := ∅ }
  refine ⟨active, failed, by rw [reapply, heq], fun d hd => ?_, hset⟩
  simpa using hact hd

/-! ## What a step keeps -/

theorem Inv.init : Inv {} where
  subset := Finset.empty_subset _
  down _ _ _ := rfl
  settled h := nomatch h
  client := rfl
  stopping h := absurd rfl h
  running h := nomatch h
  idle _ := ⟨rfl, rfl⟩
  connack h := nomatch h
  disconnect h := nomatch h

/-- The loop thread has ended once `stop` is over or was never called. -/
theorem Inv.not_running {s : State} (hs : Inv s) (hst : s.started = false)
    (hstop : s.stopping ≠ .taken) : s.running = false := by
  cases hr : s.running
  · rfl
  · rcases hs.running hr with h | h
    · rw [hst] at h
      exact h.symm
    · exact absurd h hstop

theorem Inv.add {s : State} (hs : Inv s) (devIds : List Bytes) (accepts : Bytes → Bool) :
    Inv (addSubscribe devIds accepts s) := by
  obtain ⟨active, failed, heq, hact, hsame, hset⟩ := addSubscribe_cases devIds accepts s
  have hsub : s.active ⊆ s.subscribed ∪ (devIds.filter (· ≠ [])).toFinset :=
    hs.subset.trans Finset.subset_union_left
  rw [heq]
  exact
    { hs with
      subset := hact.trans (Finset.union_subset hsub (Finset.Subset.refl _))
      down := fun hcon hloop hstop => (hsame hcon).trans (hs.down hcon hloop hstop)
      settled := fun hcon hc _ d hd => by
        rcases hset hcon hc d hd with h | h
        · exact Or.inl h
        · exact Or.inr (Or.inr (Or.inl (Multiset.mem_add.mpr (Or.inr h)))) }

/-- A report of a call: what it no longer owes is reported. -/
theorem Inv.report {s : State} (hs : Inv s) (d : Bytes) :
    Inv { s with owed := s.owed.erase d, reported := insert d s.reported } :=
  { hs with
    settled := fun hcon hc hloop d' hd' => by
      by_cases heq : d' = d
      · exact Or.inr (Or.inl (heq ▸ Finset.mem_insert_self d s.reported))
      · rcases hs.settled hcon hc hloop d' hd' with h | h | h | h
        · exact Or.inl h
        · exact Or.inr (Or.inl (Finset.mem_insert_of_mem h))
        · exact Or.inr (Or.inr (Or.inl ((Multiset.mem_erase_of_ne heq).mpr h)))
        · exact Or.inr (Or.inr (Or.inr h)) }

/-- A report of the connect callback. -/
theorem Inv.loopReport {s : State} (hs : Inv s) {d : Bytes} (hd : d ∈ s.loop.owed) :
    Inv { s with loop := .after (s.loop.owed.erase d), reported := insert d s.reported } := by
  have hloop : s.loop ≠ .connack ∧ s.loop ≠ .disconnect ∧ s.loop ≠ .idle := by
    refine ⟨?_, ?_, ?_⟩ <;> intro h <;> rw [h] at hd <;> exact absurd hd (Finset.notMem_empty d)
  exact
    { hs with
      down := fun hcon _ hstop => hs.down hcon hloop.2.1 hstop
      settled := fun hcon hc _ d' hd' => by
        by_cases heq : d' = d
        · exact Or.inr (Or.inl (heq ▸ Finset.mem_insert_self d s.reported))
        · rcases hs.settled hcon hc hloop.1 d' hd' with h | h | h | h
          · exact Or.inl h
          · exact Or.inr (Or.inl (Finset.mem_insert_of_mem h))
          · exact Or.inr (Or.inr (Or.inl h))
          · refine Or.inr (Or.inr (Or.inr ?_))
            rw [owed_after]
            exact Finset.mem_erase.mpr ⟨heq, h⟩
      idle := fun h => absurd (hs.idle h).2 hloop.2.2
      connack := fun h => absurd h (after_ne _).1
      disconnect := fun h => absurd h (after_ne _).2 }

theorem Inv.del {s : State} (hs : Inv s) (devIds : List Bytes) : Inv (delSubscribe devIds s) :=
  { hs with
    subset := Finset.sdiff_subset_sdiff hs.subset (Finset.Subset.refl _)
    down := fun hcon hloop hstop => by
      show s.active \ _ = ∅
      rw [hs.down hcon hloop hstop, Finset.empty_sdiff]
    settled := fun hcon hc hloop d hd => by
      obtain ⟨hd, hnot⟩ := Finset.mem_sdiff.mp hd
      exact (hs.settled hcon hc hloop d hd).imp_left fun h => Finset.mem_sdiff.mpr ⟨h, hnot⟩ }

/-- The section of the connect callback. -/
theorem Inv.reapply {s : State} (hs : Inv s) (hloop : s.loop = .connack)
    (accepts : Bytes → Bool) : Inv (reapply accepts s) := by
  obtain ⟨active, failed, heq, hact, hset⟩ := reapply_cases accepts s
  have hcon : s.connected = true := hs.connack hloop
  rw [heq]
  exact
    { hs with
      subset := hact
      down := fun h => absurd hcon (by simp [show s.connected = false from h])
      settled := fun _ hc _ d hd => by
        rcases hset hc d hd with h | h
        · exact Or.inl h
        · exact Or.inr (Or.inr (Or.inr (by rwa [owed_after])))
      idle := fun h => absurd (hs.idle h).1 (by simp [hcon])
      connack := fun h => absurd h (after_ne _).1
      disconnect := fun h => absurd h (after_ne _).2 }

theorem Inv.start {s : State} (hs : Inv s) (hst : s.started = false) (hno : s.stopping = .no) :
    Inv { s with started := true, client := true, running := true } := by
  have hidle := hs.idle (hs.not_running hst (by simp [hno]))
  exact
    { hs with
      settled := fun hcon => absurd hidle.1 (by simp [show s.connected = true from hcon])
      client := rfl
      stopping := fun h => absurd hno h
      running := fun _ => Or.inl rfl
      idle := nofun }

/-- A callback of the loop thread sets `connected`, and its section is still to come. -/
theorem Inv.callback {s : State} (hs : Inv s) (hr : s.running = true) {up : Bool} {loop : Loop}
    (hup : up = true ∧ loop = .connack ∨ up = false ∧ loop = .disconnect) :
    Inv { s with connected := up, loop } := by
  have hidle (h : s.running = false) : up = false ∧ loop = .idle :=
    absurd hr (by simp [h])
  rcases hup with ⟨rfl, rfl⟩ | ⟨rfl, rfl⟩
  · exact
      { hs with
        down := nofun
        settled := fun _ _ h => absurd rfl h
        idle := hidle
        connack := fun _ => rfl
        disconnect := nofun }
  · exact
      { hs with
        down := fun _ h => absurd rfl h
        settled := nofun
        idle := hidle
        connack := nofun
        disconnect := fun _ => rfl }

theorem Inv.clear {s : State} (hs : Inv s) (hloop : s.loop = .disconnect) :
    Inv { s with active := ∅, loop := .idle } := by
  have hcon := hs.disconnect hloop
  exact
    { hs with
      subset := Finset.empty_subset _
      down := fun _ _ _ => rfl
      settled := fun h => absurd hcon (by simp [show s.connected = true from h])
      idle := fun _ => ⟨hcon, rfl⟩
      connack := nofun
      disconnect := nofun }

theorem Inv.stop {s : State} (hs : Inv s) (hst : s.started = true) :
    Inv { s with started := false, client := false, stopping := .taken } := by
  have hno : s.stopping ≠ .joined := by
    intro h
    have := hs.stopping (by simp [h])
    simp [hst] at this
  exact
    { hs with
      down := fun hcon hloop _ => hs.down hcon hloop hno
      settled := nofun
      client := rfl
      stopping := fun _ => rfl
      running := fun _ => Or.inr rfl }

theorem Inv.joined {s : State} (hs : Inv s) (hstop : s.stopping = .taken) :
    Inv { s with connected := false, running := false, loop := .idle, stopping := .joined } :=
  { hs with
    down := fun _ _ h => absurd rfl h
    settled := nofun
    stopping := fun _ => hs.stopping (by simp [hstop])
    running := nofun
    idle := fun _ => ⟨rfl, rfl⟩
    connack := nofun
    disconnect := nofun }

theorem Inv.stopped {s : State} (hs : Inv s) (hstop : s.stopping = .joined) :
    Inv { s with active := ∅, stopping := .no } := by
  have hr := hs.not_running (hs.stopping (by simp [hstop])) (by simp [hstop])
  have hcon := (hs.idle hr).1
  exact
    { hs with
      subset := Finset.empty_subset _
      down := fun _ _ _ => rfl
      settled := fun h => absurd hcon (by simp [show s.connected = true from h])
      stopping := fun h => absurd rfl h
      running := fun h => absurd hr (by simp [show s.running = true from h]) }

theorem Inv.step {s : State} (hs : Inv s) (e : Event) : Inv (step s e) := by
  cases e with
  | add devIds accepts => exact hs.add devIds accepts
  | del devIds => exact hs.del devIds
  | report d =>
    simp only [Cloud.step]
    split_ifs
    · exact hs.report d
    · exact hs
  | loopReport d =>
    simp only [Cloud.step]
    split_ifs with h
    · exact hs.loopReport h
    · exact hs
  | start =>
    simp only [Cloud.step]
    split_ifs with h
    · rw [Bool.and_eq_true, Bool.not_eq_true', decide_eq_true_eq] at h
      exact hs.start h.1 h.2
    · exact hs
  | connack ok =>
    simp only [Cloud.step]
    split_ifs with h hok
    · simp only [Bool.and_eq_true] at h
      exact hs.callback h.1.1 (Or.inl ⟨rfl, rfl⟩)
    · -- a refused connection leaves the flag down
      simp only [Bool.and_eq_true, Bool.not_eq_true'] at h
      have heq : { s with connected := false } = s := by rw [← h.2]
      rwa [heq]
    · exact hs
  | reapply accepts =>
    simp only [Cloud.step]
    split_ifs with h
    · exact hs.reapply h accepts
    · exact hs
  | disconnect =>
    simp only [Cloud.step]
    split_ifs with h
    · simp only [Bool.and_eq_true] at h
      exact hs.callback h.1 (Or.inr ⟨rfl, rfl⟩)
    · exact hs
  | clear =>
    simp only [Cloud.step]
    split_ifs with h
    · exact hs.clear h
    · exact hs
  | stop =>
    simp only [Cloud.step]
    split_ifs with h
    · exact hs.stop h
    · exact hs
  | joined =>
    simp only [Cloud.step]
    split_ifs with h
    · exact hs.joined h
    · exact hs
  | stopped =>
    simp only [Cloud.step]
    split_ifs with h
    · exact hs.stopped h
    · exact hs

theorem run_inv (es : List Event) : Inv (run step {} es) :=
  @run_invariant _ _ step Inv (fun _ _ => True) (fun _ e hs _ => hs.step e) _ es Inv.init
    (Along.of_forall (fun _ _ => trivial) _)

/-! ## Wanted devices -/

/-- Nobody asks to drop `d`. -/
def Keeps (d : Bytes) : Event → Prop
  | .del devIds => d ∉ devIds
  | _ => True

theorem mem_subscribed_step {d : Bytes} {s : State} {e : Event} (hd : d ∈ s.subscribed)
    (he : Keeps d e) : d ∈ (step s e).subscribed := by
  cases e with
  | add devIds accepts =>
    obtain ⟨_, _, heq, -⟩ := addSubscribe_cases devIds accepts s
    rw [step, heq]
    exact Finset.mem_union_left _ hd
  | del devIds => exact Finset.mem_sdiff.mpr ⟨hd, by simpa [Keeps] using he⟩
  | reapply accepts =>
    simp only [step]
    split_ifs
    · obtain ⟨_, _, heq, -⟩ := reapply_cases accepts s
      rwa [heq]
    · exact hd
  | start | report | loopReport | connack | disconnect | clear | stop | joined | stopped =>
    simp only [step]
    split_ifs <;> exact hd

theorem mem_subscribed_add (s : State) {d : Bytes} {devIds : List Bytes} (hd : d ∈ devIds)
    (hne : d ≠ []) (accepts : Bytes → Bool) : d ∈ (step s (.add devIds accepts)).subscribed := by
  obtain ⟨_, _, heq, -⟩ := addSubscribe_cases devIds accepts s
  rw [step, heq]
  exact Finset.mem_union_right _ (by simpa using ⟨hd, hne⟩)

/-! ## Owed reports -/

/-- **A report that a call owes stays owed until it is made.** -/
theorem owed_step {d : Bytes} {s : State} (hd : d ∈ s.owed) (e : Event) :
    d ∈ (step s e).owed ∨ d ∈ (step s e).reported := by
  cases e with
  | add devIds accepts =>
    obtain ⟨_, _, heq, -⟩ := addSubscribe_cases devIds accepts s
    rw [step, heq]
    exact Or.inl (Multiset.mem_add.mpr (Or.inl hd))
  | report d' =>
    simp only [step]
    split_ifs
    · by_cases heq : d = d'
      · exact Or.inr (heq ▸ Finset.mem_insert_self d s.reported)
      · exact Or.inl ((Multiset.mem_erase_of_ne heq).mpr hd)
    · exact Or.inl hd
  | reapply accepts =>
    simp only [step]
    split_ifs
    · obtain ⟨_, _, heq, -⟩ := reapply_cases accepts s
      rw [heq]
      exact Or.inl hd
    · exact Or.inl hd
  | del => exact Or.inl hd
  | start | loopReport | connack | disconnect | clear | stop | joined | stopped =>
    simp only [step]
    split_ifs <;> exact Or.inl hd

/-- And so does one of the connect callback, unless its thread is ended. -/
theorem loop_owed_step {d : Bytes} {s : State} (hd : d ∈ s.loop.owed) {e : Event}
    (he : e ≠ .joined) : d ∈ (step s e).loop.owed ∨ d ∈ (step s e).reported := by
  have hloop {l : Loop} (h : l.owed = ∅) : s.loop ≠ l := by
    intro heq
    rw [heq, h] at hd
    exact Finset.notMem_empty d hd
  cases e with
  | add devIds accepts =>
    obtain ⟨_, _, heq, -⟩ := addSubscribe_cases devIds accepts s
    rw [step, heq]
    exact Or.inl hd
  | loopReport d' =>
    simp only [step]
    split_ifs
    · by_cases heq : d = d'
      · exact Or.inr (heq ▸ Finset.mem_insert_self d s.reported)
      · refine Or.inl ?_
        rw [owed_after]
        exact Finset.mem_erase.mpr ⟨heq, hd⟩
    · exact Or.inl hd
  | reapply accepts =>
    rw [step, if_neg (hloop rfl)]
    exact Or.inl hd
  | connack ok =>
    rw [step, if_neg (by simp [hloop (l := .idle) rfl])]
    exact Or.inl hd
  | disconnect =>
    rw [step, if_neg (by simp [hloop (l := .idle) rfl])]
    exact Or.inl hd
  | clear =>
    rw [step, if_neg (hloop rfl)]
    exact Or.inl hd
  | joined => exact absurd rfl he
  | del => exact Or.inl hd
  | start | report | stop | stopped =>
    simp only [step]
    split_ifs <;> exact Or.inl hd

/-- **No device is lost.** In every state that a run reaches:

* what is active is wanted,
* nothing is active while the connection is down, outside of the sections that clear the list,
* the section of a CONNACK leaves every wanted device active or with a report to make, unless
  `stop` has taken the client,
* while the connection is up, every wanted device is active, was reported, or has a report to make,
* a report to make stays until it is made, and
* a device that was added and not deleted since is wanted. -/
theorem subscriptions_run (es : List Event) :
    let s := run step {} es
    s.active ⊆ s.subscribed ∧
    (s.connected = false → s.loop ≠ .disconnect → s.stopping ≠ .joined → s.active = ∅) ∧
    (∀ accepts, s.loop = .connack → s.client = true → ∀ d ∈ s.subscribed,
      d ∈ (step s (.reapply accepts)).active ∨ d ∈ (step s (.reapply accepts)).loop.owed) ∧
    (s.connected = true → s.client = true → s.loop ≠ .connack → ∀ d ∈ s.subscribed,
      Settled s d) ∧
    (∀ d ∈ s.owed, ∀ e, d ∈ (step s e).owed ∨ d ∈ (step s e).reported) ∧
    (∀ d ∈ s.loop.owed, ∀ e, e ≠ .joined →
      d ∈ (step s e).loop.owed ∨ d ∈ (step s e).reported) ∧
    (∀ es₁ es₂ devIds accepts, es = es₁ ++ .add devIds accepts :: es₂ →
      ∀ d ∈ devIds, d ≠ [] → (∀ e ∈ es₂, Keeps d e) → d ∈ s.subscribed) := by
  have hs := run_inv es
  refine ⟨hs.subset, hs.down, fun accepts hloop hc d hd => ?_, hs.settled,
    fun d hd e => owed_step hd e, fun d hd e he => loop_owed_step hd he, ?_⟩
  · obtain ⟨active, failed, heq, -, hset⟩ := reapply_cases accepts (run step {} es)
    have hstep : step (run step {} es) (.reapply accepts) = _ := (if_pos hloop).trans heq
    rw [hstep, owed_after]
    exact hset hc d hd
  · rintro es₁ es₂ devIds accepts rfl d hd hne hkeep
    rw [run_append, run_cons]
    exact @run_invariant _ _ step (fun s => d ∈ s.subscribed) (fun _ e => Keeps d e)
      (fun _ _ => mem_subscribed_step) _ _ (mem_subscribed_add _ hd hne accepts)
      (Along.of_forall hkeep _)

/-- Of two devices the broker takes one, and the other is reported. -/
theorem subscriptions_run_connected :
    let s := run step {} [.start, .add [[1], [2]] fun _ => true, .connack true,
      .reapply (· = [1]), .loopReport [2]]
    Settled s [1] ∧ Settled s [2] ∧ s.owed = 0 ∧ s.loop = .idle := by
  have hsettled := (subscriptions_run [.start, .add [[1], [2]] fun _ => true, .connack true,
    .reapply (· = [1]), .loopReport [2]]).2.2.2.1 rfl rfl (by decide)
  exact ⟨hsettled [1] (by decide), hsettled [2] (by decide), rfl, by decide⟩

/-- The three windows: the flag is down and a device is still listed; a CONNACK is over with a
device neither listed nor reported; and so again while a call has still to report the device. -/
theorem subscriptions_windows :
    (let s := run step {} [.start, .add [[1]] fun _ => true, .connack true,
      .reapply fun _ => true, .disconnect]
    s.connected = false ∧ s.active ≠ ∅) ∧
    (let s := run step {} [.start, .add [[1]] fun _ => true, .stop, .connack true,
      .reapply fun _ => true]
    ([1] : Bytes) ∈ s.subscribed ∧ ([1] : Bytes) ∉ s.active ∧ ([1] : Bytes) ∉ s.reported) ∧
    let s := run step {} [.start, .add [[1]] fun _ => true, .connack true,
      .reapply fun _ => false, .add [[2]] fun _ => false, .loopReport [1]]
    s.connected = true ∧ s.client = true ∧ s.loop = .idle ∧
      ([2] : Bytes) ∈ s.subscribed ∧ ([2] : Bytes) ∉ s.active ∧ ([2] : Bytes) ∉ s.reported := by
  refine ⟨⟨rfl, ?_⟩, ⟨?_, ?_, ?_⟩, rfl, rfl, ?_, ?_, ?_, ?_⟩ <;> decide

end BambooNet.Cloud
