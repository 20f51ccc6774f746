import BambooNet.Lan.TransferCallbacks

/-!
# Shutting a tunnel down

`ft_tunnel_shutdown` sets a flag that no job reads: a job that comes to `lan_mu` afterwards connects
the tunnel again.

**Theorem (`final_run`).** After a shutdown, and until the host connects, no session is opened and
the jobs that had not come to `lan_mu` fail, as long as the printer refuses each connection that
such a job tries and none of them finds the ability of the printer in the cache.
-/

namespace BambooNet.Lan.FileTransfer

/-- After a shutdown the printer refuses a job's connection, and the cache has no ability. -/
def Refused (s : State) : Event → Prop
  | .job n io => s.final = true → ∀ k, (s.jobs n).phase = .connecting k →
      (k = .ability → s.abilityProbed = false) ∧ ∀ d, io = .dial d → d.opens = false
  | _ => True

/-- No success is delivered, nor is one about to be. -/
structure Job.Fails (j : Job) : Prop where
  results : ∀ r ∈ j.results, r.ec ≠ 0
  delivering : ∀ r handler, j.phase = .delivering r handler → r.ec ≠ 0

/-- A job talks to the printer. -/
def Phase.talks : Phase → Bool
  | .transferring _ | .progressing _ => true
  | _ => false

/-- What a shutdown is for: no session is opened until the host connects, and the jobs that were
early at that time, or came later, fail. -/
structure Final (s : State) : Prop where
  opened : ∀ b ∈ s.opened, b = false
  fails : ∀ n, s.late n = true → ∀ r ∈ (s.jobs n).results, r.ec ≠ 0
  reported : ∀ n, s.late n = true → (s.jobs n).phase = .ended → (s.jobs n).resultCb = true →
    ∃ r, (s.jobs n).results = [r] ∧ r.ec ≠ 0

structure Shut (s : State) : Prop where
  inv : Inv s
  counts : ∀ n, (s.jobs n).Counts
  opened : ∀ b ∈ s.opened, b = false
  connected : s.final = true → s.connected = false
  reconnecting : s.final = true → s.reconnecting = []
  talks : s.final = true → ∀ n, (s.jobs n).phase.talks = false
  final : ∀ n, s.late n = true → s.final = true
  fails : ∀ n, s.late n = true → (s.jobs n).Fails

section
variable {s s' : State} {n : ℕ} {io : Io} {t : Thread}

theorem Shut.lawful (hs : Shut s) : Final s where
  opened := hs.opened
  fails n hn := (hs.fails n hn).results
  reported n hn hp hcb := by
    have hresults := (hs.counts n).results
    rw [(hs.counts n).finished true (by rw [hp]; rfl), hcb] at hresults
    obtain ⟨r, hr⟩ := List.length_eq_one_iff.1 hresults
    exact ⟨r, hr, (hs.fails n hn).results r (by rw [hr]; exact List.mem_singleton_self r)⟩

theorem Job.Fails.setPhase {j : Job} (h : j.Fails) {p : Phase}
    (hp : ∀ r handler, p = .delivering r handler → r.ec ≠ 0) :
    Job.Fails { j with phase := p } := ⟨h.results, hp⟩

theorem ec_failed : (JobResult.failed ftEio 0).ec ≠ 0 := by decide

theorem dispatch_delivering {disable : Bool} {j : Job} {r : JobResult} {handler : Bool}
    (h : dispatch disable j = .delivering r handler) : r.ec ≠ 0 := by
  unfold dispatch at h
  split_ifs at h
  · cases h
    exact ec_failed
  · cases h
    exact ec_failed

theorem talks_dispatch (disable : Bool) (j : Job) : (dispatch disable j).talks = false := by
  unfold dispatch
  split_ifs <;> rfl

/-- **After a shutdown a job does not get to talk to the printer**, and fails. -/
theorem Moved.fails (h : Moved s n io s') (hs : Shut s) (hfinal : s.final = true)
    (hrefused : Refused s (.job n io)) :
    s'.connected = false ∧ s'.opened = s.opened ∧ (s'.jobs n).phase.talks = false ∧
      ((s.jobs n).Fails → (s'.jobs n).Fails) := by
  have hconnected := hs.connected hfinal
  have htalks := hs.talks hfinal n
  cases h with
  | stay => exact ⟨hconnected, rfl, htalks, id⟩
  | cancelled hp | message hp | returned hp | resumed hp =>
    rw [hp] at htalks
    cases htalks
  | threw hp =>
    rcases hp with hp | hp
    · rw [hp] at htalks
      cases htalks
    · rw [hp] at htalks
      cases htalks
  | reused hp hc =>
    rw [hconnected] at hc
    cases hc
  | cached hp hprobed =>
    rw [(hrefused hfinal _ hp).1 rfl] at hprobed
    cases hprobed
  | @dialed k d hp hio =>
    have hopens := (hrefused hfinal _ hp).2 d hio
    cases d with
    | refused =>
      refine ⟨rfl, rfl, ?_, fun hj => ?_⟩
      · rw [State.jobDial, jobs_setPhase_self]
        rfl
      · rw [State.jobDial, jobs_setPhase_self]
        refine hj.setPhase fun r handler h => ?_
        cases h
        exact ec_failed
    | threw =>
      obtain rfl := hopens
      refine ⟨rfl, rfl, ?_, fun hj => ?_⟩
      · rw [State.jobDial, jobs_setPhase_self]
        rfl
      · rw [State.jobDial, jobs_setPhase_self]
        exact hj.setPhase fun _ _ h => by cases h
    | rejected | up => cases hopens
  | dispatched hp =>
    refine ⟨hconnected, rfl, ?_, fun hj => ?_⟩
    · rw [jobs_setPhase_self]
      exact talks_dispatch _ _
    · rw [jobs_setPhase_self]
      exact hj.setPhase fun r handler h => dispatch_delivering h
  | acquired hp | handled hp | left hp | raised hp =>
    refine ⟨hconnected, rfl, ?_, fun hj => ?_⟩
    · rw [jobs_setPhase_self]
      rfl
    · rw [jobs_setPhase_self]
      exact hj.setPhase fun _ _ h => by cases h
  | dropped hp =>
    have hself : ({ s.unlock.setPhase n .checking with connected := false } : State).jobs n =
        { s.jobs n with phase := .checking } := jobs_setPhase_self s n .checking
    refine ⟨rfl, rfl, ?_, fun hj => ?_⟩
    · rw [hself]
      rfl
    · rw [hself]
      exact hj.setPhase fun _ _ h => by cases h
  | checked hp =>
    refine ⟨hconnected, rfl, ?_, fun hj => ?_⟩
    · rw [jobs_setPhase_self]
      dsimp only
      split
      · rfl
      · rfl
    · rw [jobs_setPhase_self]
      refine hj.setPhase fun r handler h => ?_
      split at h
      · cases h
      · cases h
        exact ec_failed
  | @delivered r handler hp =>
    rw [State.deliver]
    split
    · refine ⟨hconnected, rfl, ?_, fun hj => ?_⟩
      · dsimp only
        rw [Function.update_self]
        rfl
      · dsimp only
        rw [Function.update_self]
        refine ⟨fun q hq => ?_, fun _ _ h => by cases h⟩
        rcases List.mem_append.1 hq with hq | hq
        · exact hj.results q hq
        · rw [List.mem_singleton.1 hq]
          exact hj.delivering r handler hp
    · refine ⟨hconnected, rfl, ?_, fun hj => ?_⟩
      · dsimp only
        rw [Function.update_self]
        rfl
      · dsimp only
        rw [Function.update_self]
        exact ⟨hj.results, fun _ _ h => by cases h⟩

/-- A session that is opened before a shutdown, or after the host has connected again. -/
theorem opened_dial (hopened : ∀ b ∈ s.opened, b = false) (hfinal : s.final = false) (d : Dial) :
    ∀ b ∈ (s.dial d).opened, b = false := by
  intro b hb
  rw [State.dial] at hb
  dsimp only at hb
  split at hb
  · rcases List.mem_append.1 hb with hb | hb
    · exact hopened b hb
    · rw [List.mem_singleton.1 hb, hfinal]
  · exact hopened b hb

theorem Moved.opened (h : Moved s n io s') (hopened : ∀ b ∈ s.opened, b = false)
    (hfinal : s.final = false) : ∀ b ∈ s'.opened, b = false := by
  have hdial := opened_dial hopened hfinal
  cases h with
  | @dialed k d hp =>
    cases d with
    | refused => exact hdial .refused
    | rejected => exact hdial .rejected
    | up => exact hdial .up
    | threw b => exact hdial (.threw b)
  | @returned k o hp =>
    cases k with
    | ability => rw [State.learn]; split <;> exact hopened
    | upload | download => exact hopened
  | delivered hp =>
    rw [State.deliver]
    split
    · exact hopened
    · exact hopened
  | _ => exact hopened

theorem Shut.moved (hs : Shut s) (hcalls : s.calls (.job n) = []) (h : Moved s n io s')
    (hrefused : Refused s (.job n io)) : Shut s' := by
  have hframe := h.frame
  refine ⟨hs.inv.moved hcalls h, forall_jobs hs.counts hframe.jobs (h.counts (hs.counts n)),
    ?_, fun hfinal => ?_, fun hfinal => ?_, fun hfinal => ?_, fun m hm => ?_, fun m hm => ?_⟩
  · cases hfinal : s.final with
    | true =>
      rw [(h.fails hs hfinal hrefused).2.1]
      exact hs.opened
    | false => exact h.opened hs.opened hfinal
  · rw [hframe.final] at hfinal
    exact (h.fails hs hfinal hrefused).1
  · rw [hframe.final] at hfinal
    rw [hframe.reconnecting, hs.reconnecting hfinal]
  · rw [hframe.final] at hfinal
    exact forall_jobs (p := fun j => j.phase.talks = false) (hs.talks hfinal) hframe.jobs
      (h.fails hs hfinal hrefused).2.2.1
  · rw [hframe.late] at hm
    rw [hframe.final, hs.final m hm]
  · rw [hframe.late] at hm
    by_cases hmn : m = n
    · subst hmn
      exact (h.fails hs (hs.final m hm) hrefused).2.2.2 (hs.fails m hm)
    · rw [hframe.jobs m hmn]
      exact hs.fails m hm

/-- A step that moves threads only. -/
theorem Shut.same (hs : Shut s) (hinv : Inv s') (hjobs : s'.jobs = s.jobs)
    (hopened : s'.opened = s.opened) (hconnected : s'.connected = s.connected)
    (hreconnecting : s'.reconnecting = s.reconnecting) (hfinal : s'.final = s.final)
    (hlate : s'.late = s.late) : Shut s' := by
  refine ⟨hinv, ?_, ?_, ?_, ?_, ?_, ?_, ?_⟩
  · rw [hjobs]
    exact hs.counts
  · rw [hopened]
    exact hs.opened
  · rw [hfinal, hconnected]
    exact hs.connected
  · rw [hfinal, hreconnecting]
    exact hs.reconnecting
  · rw [hfinal, hjobs]
    exact hs.talks
  · rw [hfinal, hlate]
    exact hs.final
  · rw [hlate, hjobs]
    exact hs.fails

/-- When it is not shut down, there is nothing to keep but the past. -/
theorem Shut.of_open (hinv : Inv s') (hcounts : ∀ n, (s'.jobs n).Counts)
    (hopened : ∀ b ∈ s'.opened, b = false) (hfinal : s'.final = false)
    (hlate : ∀ n, s'.late n = false) : Shut s' := by
  have hno {p : Prop} (h : s'.final = true) : p := by
    rw [hfinal] at h
    cases h
  have hnone {p : Prop} {n : ℕ} (h : s'.late n = true) : p := by
    rw [hlate n] at h
    cases h
  exact ⟨hinv, hcounts, hopened, hno, hno, hno, fun _ h => hnone h, fun _ h => hnone h⟩

/-- **When a shutdown returns** nobody talks to the printer, and the early jobs have nothing to
report. -/
theorem Shut.shutdown (hs : Shut s) {cs : List Call} (hcalls : s.calls t = .shutdownHolds :: cs) :
    Shut ({ s with connected := false }.unlock.setCalls t cs).shutdownReturns := by
  have hinv := hs.inv.called hcalls (.shutdown : Called s t cs .tick _ _)
  have htalks (n : ℕ) : (s.jobs n).phase.talks = false := by
    by_contra h
    have hholds : (s.jobs n).phase.holds = true := by
      cases hp : (s.jobs n).phase with
      | transferring | progressing => rfl
      | _ => exact absurd (by rw [hp]; rfl) h
    have ht : t = .job n := hs.inv.guards.unique
      ((inside_of_calls hcalls).2 (.inl ⟨_, rfl, rfl⟩)) (.inr ⟨n, rfl, hholds⟩)
    subst ht
    rw [hs.inv.exclusive n .shutdownHolds (by rw [hcalls]; rfl) rfl] at hholds
    cases hholds
  have hearly (n : ℕ) (h : (s.jobs n).phase.early = true) : (s.jobs n).Fails := by
    have hresults := (hs.counts n).results
    cases hp : (s.jobs n).phase with
    | spawned | waiting =>
      rw [(hs.counts n).unfinished hp rfl] at hresults
      rw [Bool.false_and, if_neg Bool.false_ne_true, List.length_eq_zero_iff] at hresults
      exact ⟨by rw [hresults]; nofun, by rw [hp]; nofun⟩
    | _ =>
      rw [hp] at h
      cases h
  unfold State.shutdownReturns at hinv ⊢
  split at hinv
  · rename_i hreconnecting
    rw [if_pos hreconnecting]
    refine ⟨hinv, hs.counts, hs.opened, fun _ => rfl, fun _ => hreconnecting, fun _ => htalks,
      fun _ _ => rfl, fun n hn => ?_⟩
    rcases Bool.or_eq_true_iff.1 hn with hn | hn
    · exact hs.fails n hn
    · exact hearly n hn
  · rename_i hreconnecting
    rw [if_neg hreconnecting]
    exact ⟨hinv, hs.counts, hs.opened, fun _ => rfl, hs.reconnecting, fun _ => htalks, hs.final,
      hs.fails⟩

theorem Shut.called (hs : Shut s) {c : Call} {cs : List Call} (hcalls : s.calls t = c :: cs)
    (h : Called s t cs io c s') : Shut s' := by
  have hinv := hs.inv.called hcalls h
  -- a call to connect that is going on
  have hopen (hc : c.connects = true) : s.final = false := by
    have hmem := hs.inv.connecting t c (by rw [hcalls]; exact List.mem_cons_self) hc
    refine Bool.eq_false_iff.2 fun hfinal => ?_
    rw [hs.reconnecting hfinal] at hmem
    cases hmem
  have hlate (hfinal : s.final = false) (n : ℕ) : s.late n = false := by
    refine Bool.eq_false_iff.2 fun hn => ?_
    rw [hs.final n hn] at hfinal
    cases hfinal
  cases h with
  | stay => exact hs
  | shutdown => exact hs.shutdown hcalls
  | reused => exact .of_open hinv hs.counts hs.opened (hopen rfl) (hlate (hopen rfl))
  | @dialed sync cb d =>
    exact .of_open hinv hs.counts (opened_dial hs.opened (hopen rfl) d) (hopen rfl)
      (hlate (hopen rfl))
  | shutdownAcquired | connectAcquired | invoked | moved | left =>
    exact hs.same hinv rfl rfl rfl rfl rfl rfl

theorem Shut.step (hs : Shut s) {e : Event} (hrefused : Refused s e) :
    Shut (FileTransfer.step s e) := by
  have hinv := hs.inv.step e
  have hcounts := counts_step hs.counts e
  cases e with
  | startJob n cmdType downloadPath resultCb msgCb =>
    simp only [FileTransfer.step] at hinv hcounts ⊢
    split at hinv
    · rw [if_pos ‹_›] at hcounts ⊢
      refine ⟨hinv, hcounts, hs.opened, hs.connected, hs.reconnecting, fun hfinal => ?_,
        fun m hm => ?_, fun m hm => ?_⟩
      · refine forall_jobs (p := fun j => j.phase.talks = false) (n := n) (hs.talks hfinal)
          (fun m hm => Function.update_of_ne hm ..) ?_
        dsimp only
        rw [Function.update_self]
        rfl
      · by_cases hmn : m = n
        · subst hmn
          exact (Function.update_self ..).symm.trans hm
        · exact hs.final m ((Function.update_of_ne hmn ..).symm.trans hm)
      · dsimp only
        by_cases hmn : m = n
        · subst hmn
          rw [Function.update_self]
          exact ⟨fun _ h => (by cases h), fun _ _ h => by cases h⟩
        · rw [Function.update_of_ne hmn]
          exact hs.fails m ((Function.update_of_ne hmn ..).symm.trans hm)
    · rw [if_neg ‹_›]
      exact hs
  | cancel n =>
    refine ⟨hinv, hcounts, hs.opened, hs.connected, hs.reconnecting, fun hfinal => ?_, hs.final,
      fun m hm => ?_⟩
    · refine forall_jobs (p := fun j => j.phase.talks = false) (hs.talks hfinal)
        (fun m hm => jobs_cancel_of_ne s hm) ?_
      rw [jobs_cancel_self]
      exact hs.talks hfinal n
    · by_cases hmn : m = n
      · subst hmn
        rw [jobs_cancel_self]
        exact ⟨(hs.fails m hm).results, (hs.fails m hm).delivering⟩
      · rw [jobs_cancel_of_ne s hmn]
        exact hs.fails m hm
  | setStatusCb | configure => exact hs.same hinv rfl rfl rfl rfl rfl rfl
  | shutdown t =>
    simp only [FileTransfer.step] at hinv ⊢
    split at hinv
    · rw [if_pos ‹_›]
      exact hs.same hinv rfl rfl rfl rfl rfl rfl
    · rw [if_neg ‹_›]
      exact hs
  | connect t sync cb =>
    simp only [FileTransfer.step] at hinv ⊢
    split at hinv
    · rw [if_pos ‹_›]
      exact .of_open hinv hs.counts hs.opened rfl fun _ => rfl
    · rw [if_neg ‹_›]
      exact hs
  | job n io =>
    simp only [FileTransfer.step]
    split
    · exact hs.moved ‹_› (jobStep_moved s n io) hrefused
    · exact hs
  | call t io =>
    simp only [FileTransfer.step]
    cases hcalls : s.calls t with
    | nil => exact hs
    | cons c cs => exact hs.called hcalls (callStep_called s t c cs io)

theorem shut_initial : Shut initial where
  inv := inv_initial
  counts := counts_initial
  opened := nofun
  connected := nofun
  reconnecting := nofun
  talks := nofun
  final := nofun
  fails := nofun

/-- **A shutdown is final as long as the printer refuses**: in a run in which every connection that
a job tries after a shutdown is refused, and none of them finds an ability in the cache, no session
is opened until the host connects, and the jobs that come to `lan_mu` until then fail. -/
theorem final_run {es : List Event} (h : Along FileTransfer.step Refused initial es) :
    Final (run FileTransfer.step initial es) :=
  (run_invariant (fun _ _ hs hok => hs.step hok) shut_initial h).lawful

/-- The printer refuses the connection of an upload that was waiting: it fails. -/
theorem final_run_refused :
    ∃ r, ((run FileTransfer.step initial [.startJob 0 kCmdTypeUpload [] true true, .job 0 .tick,
      .shutdown (.host 0), .call (.host 0) .tick, .call (.host 0) .tick, .job 0 .tick,
      .job 0 (.dial .refused), .job 0 .tick, .job 0 .tick]).jobs 0).results = [r] ∧ r.ec ≠ 0 := by
  have hrefused : Along FileTransfer.step Refused initial [.startJob 0 kCmdTypeUpload [] true true,
      .job 0 .tick, .shutdown (.host 0), .call (.host 0) .tick, .call (.host 0) .tick,
      .job 0 .tick, .job 0 (.dial .refused), .job 0 .tick, .job 0 .tick] := by
    refine ⟨trivial, nofun, trivial, trivial, trivial, nofun, fun _ _ _ => ⟨fun _ => rfl, ?_⟩,
      nofun, nofun, trivial⟩
    intro d hd
    cases hd
    rfl
  exact (final_run hrefused).reported 0 rfl rfl rfl

/-- **A job that was waiting when the tunnel was shut down opens a session** and succeeds. -/
theorem upload_after_shutdown :
    let s := run FileTransfer.step initial [.startJob 0 kCmdTypeUpload [] true true, .job 0 .tick,
      .shutdown (.host 0), .call (.host 0) .tick, .call (.host 0) .tick, .job 0 .tick,
      .job 0 (.dial .up), .job 0 (.returned ⟨true, [], 0, [], []⟩), .job 0 .tick, .job 0 .tick]
    s.shutDown = true ∧ s.final = true ∧ s.late 0 = true ∧ s.opened = [true] ∧
      s.connected = true ∧ (s.jobs 0).results = [⟨0, 0, [], []⟩] :=
  ⟨rfl, rfl, rfl, rfl, rfl, rfl⟩

end

end BambooNet.Lan.FileTransfer
