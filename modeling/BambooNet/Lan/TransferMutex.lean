import BambooNet.Lan.FileTransfer
import BambooNet.Lib.Mutex

/-!
# The mutex of a tunnel

`lan_mu` is in the hands of the thread whose place is a locked one, and of no other. A thread's
place is that of its innermost call, or that of its job when it is in no call.

**Theorem (`Inv.step`).** Every step keeps this, whatever the threads do.
-/

namespace BambooNet.Lan.FileTransfer

/-! ## What a step of a job leaves alone -/

section
variable {s s' : State} {n : ℕ} {io : Io}

@[simp] theorem jobs_setPhase_self (s : State) (n : ℕ) (p : Phase) :
    (s.setPhase n p).jobs n = { s.jobs n with phase := p } := Function.update_self ..

@[simp] theorem lanMu_setPhase (s : State) (n : ℕ) (p : Phase) :
    (s.setPhase n p).lanMu = s.lanMu := rfl

@[simp] theorem lanMu_learn (s : State) (k : Kind) (o : Outcome) :
    (s.learn k o).lanMu = s.lanMu := by
  cases k with
  | ability => rw [State.learn]; split <;> rfl
  | upload | download => rfl

@[simp] theorem holds_dispatch (disable : Bool) (j : Job) : (dispatch disable j).holds = false := by
  unfold dispatch
  split_ifs <;> rfl

@[simp] theorem jobs_learn (s : State) (k : Kind) (o : Outcome) :
    (s.learn k o).jobs = s.jobs := by
  cases k with
  | ability => rw [State.learn]; split <;> rfl
  | upload | download => rfl

/-- What threads see of each other stays, but for the job, the mutex and the connection. -/
structure Frame (s : State) (n : ℕ) (s' : State) : Prop where
  calls : s'.calls = s.calls
  jobs : ∀ m, m ≠ n → s'.jobs m = s.jobs m
  final : s'.final = s.final
  late : s'.late = s.late
  reconnecting : s'.reconnecting = s.reconnecting

theorem Frame.of_update {j : Job} (hjobs : s'.jobs = Function.update s.jobs n j)
    (hcalls : s'.calls = s.calls) (hfinal : s'.final = s.final) (hlate : s'.late = s.late)
    (hreconnecting : s'.reconnecting = s.reconnecting) : Frame s n s' :=
  ⟨hcalls, fun m hm => by rw [hjobs, Function.update_of_ne hm], hfinal, hlate, hreconnecting⟩

theorem Frame.learn (s : State) (n : ℕ) (k : Kind) (o : Outcome) (p : Phase) :
    Frame s n ((s.unlock.learn k o).setPhase n p) := by
  cases k with
  | ability =>
    rw [State.learn]
    split
    · exact .of_update rfl rfl rfl rfl rfl
    · exact .of_update rfl rfl rfl rfl rfl
  | upload | download => exact .of_update rfl rfl rfl rfl rfl

theorem Moved.frame (h : Moved s n io s') : Frame s n s' := by
  cases h with
  | stay => exact ⟨rfl, fun _ _ => rfl, rfl, rfl, rfl⟩
  | returned => exact .learn s n _ _ _
  | dialed =>
    rename_i d _ _
    cases d with
    | refused | rejected | up | threw => exact .of_update rfl rfl rfl rfl rfl
  | delivered =>
    rw [State.deliver]
    split
    · exact .of_update rfl rfl rfl rfl rfl
    · exact .of_update rfl rfl rfl rfl rfl
  | _ => exact .of_update rfl rfl rfl rfl rfl

/-- How the job of a thread goes in and out of the locked sections. -/
theorem Moved.mutex (h : Moved s n io s') : Mutex.Move (.job n) s.lanMu
    ((s.jobs n).phase.holds = true) ((s'.jobs n).phase.holds = true) s'.lanMu := by
  cases h with
  | stay => exact .keep Iff.rfl
  | acquired hp hfree | handled hp hfree => exact .enter hfree (by simp [Phase.holds])
  | reused hp | message hp | resumed hp =>
    exact .keep (by simp [hp, Phase.holds])
  | cached hp | cancelled hp | dropped hp =>
    exact .leave (by rw [hp]; rfl) (by simp [Phase.holds])
  | returned hp =>
    rw [lanMu_setPhase, lanMu_learn]
    exact .leave (by rw [hp]; rfl) (by simp [Phase.holds])
  | threw hp =>
    refine .leave ?_ (by simp [Phase.holds])
    rcases hp with hp | hp
    · rw [hp]
      rfl
    · rw [hp]
      rfl
  | dialed hp =>
    rename_i d _
    cases d with
    | refused | rejected | threw =>
      exact .leave (by rw [hp]; rfl) (by simp [State.jobDial, Phase.holds])
    | up => exact .keep (by simp [State.jobDial, hp, Phase.holds])
  | dispatched hp =>
    refine .keep ?_
    rw [jobs_setPhase_self, holds_dispatch, hp]
    rfl
  | delivered hp =>
    rw [State.deliver]
    split
    · exact .keep (by simp [hp, Phase.holds])
    · exact .keep (by simp [hp, Phase.holds])
  | left hp | raised hp => exact .keep (by simp [hp, Phase.holds])
  | checked hp =>
    refine .keep ?_
    rw [jobs_setPhase_self, hp]
    split
    · exact Iff.rfl
    · exact Iff.rfl

end

/-! ## The mutex -/

/-- A thread is in a locked section: that of its innermost call, or that of its job. -/
def Inside (s : State) (t : Thread) : Prop :=
  (∃ c ∈ (s.calls t).head?, c.holds = true) ∨ ∃ n, t = .job n ∧ (s.jobs n).phase.holds = true

/-- **The mutex is where its holder is**, a call comes out of a callback, and who connects is known
to be connecting. -/
structure Inv (s : State) : Prop where
  guards : Mutex.Guards s.lanMu (Inside s)
  /-- A call gets the mutex from a thread that does not have it. -/
  exclusive : ∀ n, ∀ c ∈ (s.calls (.job n)).head?, c.holds = true →
    (s.jobs n).phase.holds = false
  nested : ∀ t, ∀ d ∈ (s.calls t).tail, d.inCallback = true
  within : ∀ n, s.calls (.job n) ≠ [] → (s.jobs n).phase.inCallback = true
  connecting : ∀ t, ∀ c ∈ s.calls t, c.connects = true → t ∈ s.reconnecting

theorem inv_initial : Inv initial where
  guards t := ⟨fun h => by rcases h with ⟨c, hc, -⟩ | ⟨n, -, hn⟩ <;> contradiction, nofun⟩
  exclusive n c hc := by contradiction
  nested t d hd := by contradiction
  within n h := absurd rfl h
  connecting t c hc := by contradiction

section
variable {s s' : State} {n : ℕ} {io : Io} {t : Thread}

theorem inside_of_calls {cs : List Call} (h : s.calls t = cs) : Inside s t ↔
    (∃ c ∈ cs.head?, c.holds = true) ∨ ∃ n, t = .job n ∧ (s.jobs n).phase.holds = true := by
  rw [← h, Inside]

theorem inside_congr {u : Thread} (hcalls : s'.calls u = s.calls u)
    (hjobs : ∀ n, u = .job n → s'.jobs n = s.jobs n) : Inside s' u ↔ Inside s u := by
  rw [Inside, Inside, hcalls]
  exact or_congr Iff.rfl (exists_congr fun n => and_congr_right fun h => by rw [hjobs n h])

/-- A step of a job keeps the invariant. -/
theorem Inv.moved (hs : Inv s) (hcalls : s.calls (.job n) = []) (h : Moved s n io s') :
    Inv s' := by
  have hframe := h.frame
  have hinside (s : State) (hcalls : s.calls (.job n) = []) :
      Inside s (.job n) ↔ (s.jobs n).phase.holds = true := by
    simp [Inside, hcalls]
  have hne {m : ℕ} (hm : s.calls (.job m) ≠ []) : m ≠ n := fun h => hm (h ▸ hcalls)
  refine ⟨hs.guards.move (t := .job n) ?_ fun u hu => ?_, fun m c hc => ?_, ?_, fun m hm => ?_, ?_⟩
  · exact h.mutex.congr (hinside s hcalls).symm (hinside s' (by rw [hframe.calls, hcalls])).symm
  · exact inside_congr (by rw [hframe.calls]) fun m hm => hframe.jobs m fun h => hu (h ▸ hm)
  · rw [hframe.calls] at hc
    rw [hframe.jobs m (hne fun h => by rw [h] at hc; cases hc)]
    exact hs.exclusive m c hc
  · rw [hframe.calls]
    exact hs.nested
  · rw [hframe.calls] at hm
    rw [hframe.jobs m (hne hm)]
    exact hs.within m hm
  · rw [hframe.calls, hframe.reconnecting]
    exact hs.connecting

/-- So does a step that changes the calls of one thread. -/
theorem Inv.recall (hs : Inv s) {cs : List Call} (hcalls : s'.calls = Function.update s.calls t cs)
    (hjobs : s'.jobs = s.jobs) (hmove : Mutex.Move t s.lanMu (Inside s t) (Inside s' t) s'.lanMu)
    (hexclusive : ∀ n, t = .job n → ∀ c ∈ cs.head?, c.holds = true →
      (s.jobs n).phase.holds = false)
    (hnested : ∀ d ∈ cs.tail, d.inCallback = true)
    (hwithin : ∀ n, t = .job n → cs ≠ [] → (s.jobs n).phase.inCallback = true)
    (hconnecting : ∀ c ∈ cs, c.connects = true → t ∈ s'.reconnecting)
    (hreconnecting : ∀ u, u ≠ t → u ∈ s.reconnecting → u ∈ s'.reconnecting) : Inv s' := by
  have hself : s'.calls t = cs := by rw [hcalls, Function.update_self]
  have hother (u : Thread) (hu : u ≠ t) : s'.calls u = s.calls u := by
    rw [hcalls, Function.update_of_ne hu]
  refine ⟨hs.guards.move hmove fun u hu => inside_congr (hother u hu) fun _ _ => by rw [hjobs],
    fun n c hc => ?_, fun u => ?_, fun n hn => ?_, fun u c hc hconnects => ?_⟩
  · rw [hjobs]
    by_cases h : Thread.job n = t
    · rw [h, hself] at hc
      exact hexclusive n h.symm c hc
    · rw [hother _ h] at hc
      exact hs.exclusive n c hc
  · by_cases h : u = t
    · rw [h, hself]
      exact hnested
    · rw [hother u h]
      exact hs.nested u
  · rw [hjobs]
    by_cases h : Thread.job n = t
    · rw [h, hself] at hn
      exact hwithin n h.symm hn
    · rw [hother _ h] at hn
      exact hs.within n hn
  · by_cases h : u = t
    · rw [h, hself] at hc
      exact h ▸ hconnecting c hc hconnects
    · rw [hother u h] at hc
      exact hreconnecting u h (hs.connecting u c hc hconnects)

theorem Call.holds_of_inCallback {c : Call} (h : c.inCallback = true) : c.holds = false := by
  cases c with
  | inConnectCb | inStatusCb => rfl
  | _ => cases h

theorem Call.connects_of_inCallback {c : Call} (h : c.inCallback = true) :
    c.connects = false := by
  cases c with
  | inConnectCb | inStatusCb => rfl
  | _ => cases h

/-- The innermost call goes on, or returns (`cs'` is `cs`). -/
theorem Inv.replace (hs : Inv s) {c : Call} {cs cs' : List Call} (hold : s.calls t = c :: cs)
    (hcalls : s'.calls = Function.update s.calls t cs') (hjobs : s'.jobs = s.jobs)
    (hcs' : cs' = cs ∨ ∃ c', cs' = c' :: cs ∧ (c'.holds = true → s.lanMu = none) ∧
      (c'.connects = true → t ∈ s'.reconnecting))
    (hmove : Mutex.Move t s.lanMu (Inside s t) (Inside s' t) s'.lanMu)
    (hreconnecting : ∀ u, u ≠ t → u ∈ s.reconnecting → u ∈ s'.reconnecting) : Inv s' := by
  have hcs : ∀ d ∈ cs, d.inCallback = true := by
    have := hs.nested t
    rwa [hold] at this
  have htop : ∀ d ∈ cs.head?, d.holds = false := fun d hd =>
    Call.holds_of_inCallback (hcs d (List.mem_of_head? hd))
  refine hs.recall hcalls hjobs hmove ?_ ?_ ?_ ?_ hreconnecting
  · intro n ht d hd hholds
    rcases hcs' with rfl | ⟨c', rfl, hfree, -⟩
    · rw [htop d hd] at hholds
      cases hholds
    · obtain rfl := Option.some.inj hd
      by_contra hphase
      have := (hs.guards t).1 (.inr ⟨n, ht, by simpa using hphase⟩)
      rw [hfree hholds] at this
      cases this
  · rcases hcs' with rfl | ⟨c', rfl, -⟩
    · exact fun d hd => hcs d (List.mem_of_mem_tail hd)
    · exact hcs
  · intro n ht _
    exact hs.within n (by rw [← ht, hold]; exact List.cons_ne_nil _ _)
  · intro d hd hconnects
    have hno : d ∉ cs := fun hd => by
      rw [Call.connects_of_inCallback (hcs d hd)] at hconnects
      cases hconnects
    rcases hcs' with rfl | ⟨c', rfl, -, hc'⟩
    · exact absurd hd hno
    · rcases List.mem_cons.1 hd with rfl | hd
      · exact hc' hconnects
      · exact absurd hd hno

/-- A step of a call keeps the invariant. -/
theorem Inv.called (hs : Inv s) {c : Call} {cs : List Call} (hcalls : s.calls t = c :: cs)
    (h : Called s t cs io c s') : Inv s' := by
  have hcs : ∀ d ∈ cs.head?, d.holds = false := by
    intro d hd
    have := hs.nested t
    rw [hcalls] at this
    exact Call.holds_of_inCallback (this d (List.mem_of_head? hd))
  have hin : Inside s t ↔ c.holds = true ∨ ∃ n, t = .job n ∧ (s.jobs n).phase.holds = true := by
    rw [inside_of_calls hcalls]
    simp
  -- the calls that are left do not have the mutex
  have hout (cs' : List Call) (hcs' : ∀ d ∈ cs'.head?, d.holds = false) {s' : State}
      (hcalls' : s'.calls = Function.update s.calls t cs') (hjobs : s'.jobs = s.jobs) :
      Inside s' t ↔ ∃ n, t = .job n ∧ (s.jobs n).phase.holds = true := by
    rw [inside_of_calls (by rw [hcalls', Function.update_self]), hjobs, or_iff_right]
    rintro ⟨d, hd, hholds⟩
    rw [hcs' d hd] at hholds
    cases hholds
  have hkeep (cs' : List Call) (hcs' : ∀ d ∈ cs'.head?, d.holds = false) {s' : State}
      (hcalls' : s'.calls = Function.update s.calls t cs') (hjobs : s'.jobs = s.jobs)
      (hc : c.holds = false) : Mutex.Move t s.lanMu (Inside s t) (Inside s' t) s.lanMu := by
    refine .keep ((hout cs' hcs' hcalls' hjobs).trans ?_)
    rw [hin, hc]
    simp
  have hleave (cs' : List Call) (hcs' : ∀ d ∈ cs'.head?, d.holds = false) {s' : State}
      (hcalls' : s'.calls = Function.update s.calls t cs') (hjobs : s'.jobs = s.jobs)
      (hc : c.holds = true) : Mutex.Move t s.lanMu (Inside s t) (Inside s' t) none := by
    refine .leave (hin.2 (.inl hc)) fun hin' => ?_
    obtain ⟨n, rfl, hholds⟩ := (hout cs' hcs' hcalls' hjobs).1 hin'
    rw [hs.exclusive n c (by rw [hcalls]; rfl) hc] at hholds
    cases hholds
  cases h with
  | stay => exact hs
  | shutdownAcquired hfree =>
    refine hs.replace hcalls rfl rfl (.inr ⟨_, rfl, fun _ => hfree, nofun⟩) ?_ fun _ _ h => h
    exact .enter hfree (.inl ⟨.shutdownHolds, by simp [State.setCalls], rfl⟩)
  | @connectAcquired sync cb hfree =>
    have hconnecting := hs.connecting t _ (by rw [hcalls]; exact List.mem_cons_self) rfl
    refine hs.replace hcalls rfl rfl (.inr ⟨_, rfl, fun _ => hfree, fun _ => hconnecting⟩) ?_
      fun _ _ h => h
    exact .enter hfree (.inl ⟨.connectHolds sync cb, by simp [State.setCalls], rfl⟩)
  | shutdown =>
    unfold State.shutdownReturns
    split
    · exact hs.replace hcalls rfl rfl (.inl rfl) (hleave cs hcs rfl rfl rfl) fun _ _ h => h
    · exact hs.replace hcalls rfl rfl (.inl rfl) (hleave cs hcs rfl rfl rfl) fun _ _ h => h
  | @reused sync cb =>
    have herase (u : Thread) (hu : u ≠ t) (h : u ∈ s.reconnecting) : u ∈ s.reconnecting.erase t :=
      (List.mem_erase_of_ne hu).2 h
    cases sync with
    | true => exact hs.replace hcalls rfl rfl (.inl rfl) (hleave cs hcs rfl rfl rfl) herase
    | false =>
      refine hs.replace hcalls rfl rfl (.inr ⟨_, rfl, nofun, nofun⟩)
        (hleave (.connectDone true cb :: cs) ?_ rfl rfl rfl) herase
      rintro d ⟨⟩
      rfl
  | @dialed sync cb d =>
    have herase (u : Thread) (hu : u ≠ t) (h : u ∈ s.reconnecting) : u ∈ s.reconnecting.erase t :=
      (List.mem_erase_of_ne hu).2 h
    cases sync with
    | true => exact hs.replace hcalls rfl rfl (.inl rfl) (hleave cs hcs rfl rfl rfl) herase
    | false =>
      refine hs.replace hcalls rfl rfl (.inr ⟨_, rfl, nofun, nofun⟩)
        (hleave (.connectDone d.stays cb :: cs) ?_ rfl rfl rfl) herase
      rintro e ⟨⟩
      rfl
  | @invoked _ c' k hc hc' =>
    have hholds := Call.holds_of_inCallback hc'
    refine hs.replace hcalls rfl rfl (.inr ⟨c', rfl, fun h => ?_, fun h => ?_⟩)
      (hkeep (c' :: cs) ?_ rfl rfl hc) fun _ _ h => h
    · rw [hholds] at h
      cases h
    · rw [Call.connects_of_inCallback hc'] at h
      cases h
    · rintro d ⟨⟩
      exact hholds
  | @moved _ c' hc hc' hconnects =>
    refine hs.replace hcalls rfl rfl (.inr ⟨c', rfl, fun h => ?_, fun h => ?_⟩)
      (hkeep (c' :: cs) ?_ rfl rfl hc) fun _ _ h => h
    · rw [hc'] at h
      cases h
    · rw [hconnects] at h
      cases h
    · rintro d ⟨⟩
      exact hc'
  | left hc =>
    exact hs.replace hcalls rfl rfl (.inl rfl) (hkeep cs hcs rfl rfl hc) fun _ _ h => h

/-- A new call within a callback, or of the host. -/
theorem Inv.push (hs : Inv s) {c : Call} (hmay : s.mayCall t = true) (hc : c.holds = false)
    (hcalls : s'.calls = Function.update s.calls t (c :: s.calls t)) (hjobs : s'.jobs = s.jobs)
    (hmu : s'.lanMu = s.lanMu) (hconnecting : c.connects = true → t ∈ s'.reconnecting)
    (hreconnecting : ∀ u ∈ s.reconnecting, u ∈ s'.reconnecting) : Inv s' := by
  have htop : ∀ d ∈ (s.calls t).head?, d.inCallback = true := by
    intro d hd
    cases hold : s.calls t with
    | nil =>
      rw [hold] at hd
      cases hd
    | cons e cs =>
      rw [hold] at hd
      obtain rfl := Option.some.inj hd
      simpa [State.mayCall, hold] using hmay
  have hcs : ∀ d ∈ s.calls t, d.inCallback = true := by
    intro d hd
    cases hold : s.calls t with
    | nil =>
      rw [hold] at hd
      cases hd
    | cons e cs =>
      have hnested := hs.nested t
      rw [hold] at hd hnested htop
      rcases List.mem_cons.1 hd with rfl | hd
      · exact htop d rfl
      · exact hnested d hd
  refine hs.recall hcalls hjobs ?_ ?_ hcs ?_ ?_ fun u _ => hreconnecting u
  · rw [hmu]
    refine .keep ?_
    rw [inside_of_calls (by rw [hcalls, Function.update_self]), Inside, hjobs]
    refine or_congr ⟨?_, ?_⟩ Iff.rfl
    · rintro ⟨d, ⟨⟩, hholds⟩
      rw [hc] at hholds
      cases hholds
    · rintro ⟨d, hd, hholds⟩
      rw [Call.holds_of_inCallback (htop d hd)] at hholds
      cases hholds
  · rintro n - d ⟨⟩ hholds
    rw [hc] at hholds
    cases hholds
  · rintro n rfl -
    cases hold : s.calls (.job n) with
    | nil => simpa [State.mayCall, hold] using hmay
    | cons e cs => exact hs.within n (by rw [hold]; exact List.cons_ne_nil _ _)
  · intro d hd hconnects
    rcases List.mem_cons.1 hd with rfl | hd
    · exact hconnecting hconnects
    · rw [Call.connects_of_inCallback (hcs d hd)] at hconnects
      cases hconnects

/-- A step that leaves the places of all threads alone. -/
theorem Inv.same (hs : Inv s) (hcalls : s'.calls = s.calls) (hmu : s'.lanMu = s.lanMu)
    (hreconnecting : s'.reconnecting = s.reconnecting)
    (hholds : ∀ n, (s'.jobs n).phase.holds = (s.jobs n).phase.holds)
    (hcallback : ∀ n, (s.jobs n).phase.inCallback = true → (s'.jobs n).phase.inCallback = true) :
    Inv s' := by
  refine ⟨fun u => ?_, fun n c => ?_, ?_, fun n hn => ?_, ?_⟩
  · rw [hmu, ← hs.guards u, Inside, Inside, hcalls]
    exact or_congr Iff.rfl (exists_congr fun n => and_congr_right fun _ => by rw [hholds])
  · rw [hcalls, hholds]
    exact hs.exclusive n c
  · rw [hcalls]
    exact hs.nested
  · rw [hcalls] at hn
    exact hcallback n (hs.within n hn)
  · rw [hcalls, hreconnecting]
    exact hs.connecting

/-- A step that writes a job and does not move its thread into or out of a locked section. -/
theorem Inv.setJob (hs : Inv s) {j : Job} (hjobs : s'.jobs = Function.update s.jobs n j)
    (hcalls : s'.calls = s.calls) (hmu : s'.lanMu = s.lanMu)
    (hreconnecting : s'.reconnecting = s.reconnecting)
    (hholds : j.phase.holds = (s.jobs n).phase.holds)
    (hcallback : (s.jobs n).phase.inCallback = true → j.phase.inCallback = true) : Inv s' := by
  refine hs.same hcalls hmu hreconnecting (fun m => ?_) fun m => ?_
  · rw [hjobs]
    by_cases h : m = n
    · rw [h, Function.update_self, hholds]
    · rw [Function.update_of_ne h]
  · rw [hjobs]
    by_cases h : m = n
    · rw [h, Function.update_self]
      exact hcallback
    · rw [Function.update_of_ne h]
      exact id

/-- **Every step keeps the mutex where its holder is.** -/
theorem Inv.step (hs : Inv s) (e : Event) : Inv (step s e) := by
  cases e with
  | startJob n cmdType downloadPath resultCb msgCb =>
    simp only [FileTransfer.step]
    split
    · rename_i habsent
      exact hs.setJob rfl rfl rfl rfl (by rw [habsent]; rfl) (by rw [habsent]; nofun)
    · exact hs
  | cancel n => exact hs.setJob rfl rfl rfl rfl rfl id
  | setStatusCb statusCb => exact hs.same rfl rfl rfl (fun _ => rfl) fun _ h => h
  | configure disable => exact hs.same rfl rfl rfl (fun _ => rfl) fun _ h => h
  | shutdown t =>
    simp only [FileTransfer.step]
    split
    · exact hs.push ‹_› rfl rfl rfl rfl nofun fun _ h => h
    · exact hs
  | connect t sync cb =>
    simp only [FileTransfer.step]
    split
    · exact hs.push ‹_› rfl rfl rfl rfl (fun _ => List.mem_cons_self)
        fun _ h => List.mem_cons_of_mem _ h
    · exact hs
  | job n io =>
    simp only [FileTransfer.step]
    split
    · exact hs.moved ‹_› (jobStep_moved s n io)
    · exact hs
  | call t io =>
    simp only [FileTransfer.step]
    cases hcalls : s.calls t with
    | nil => exact hs
    | cons c cs => exact hs.called hcalls (callStep_called s t c cs io)

end

end BambooNet.Lan.FileTransfer
