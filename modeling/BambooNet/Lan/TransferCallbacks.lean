import BambooNet.Lan.TransferMutex

/-!
# Callbacks of file transfer jobs

**Theorem (`lawful_run`).** As long as no upload or download reports its progress, each job gets
one result, whatever its transfer does, no callback is called by a thread that has `lan_mu`, and
the thread that has `lan_mu` is in a locked section and can go on: a callback may shut the tunnel
down.

A transfer that reports its progress calls the message callback from within its locked section
(`progress_locked`).
-/

namespace BambooNet.Lan.FileTransfer

/-! ## Results -/

/-- Whether a job has been reported, where its place says so. -/
def Phase.reported : Phase → Option Bool
  | .absent | .spawned | .waiting _ | .connecting _ | .transferring _ | .progressing _
  | .delivering _ _ => some false
  | .resulting _ | .ended => some true
  | .caught | .dropping | .checking => none

/-- The result was delivered once, or not yet. -/
structure Job.Counts (j : Job) : Prop where
  finished : ∀ b ∈ j.phase.reported, j.finished = b
  results : j.results.length = if j.finished && j.resultCb then 1 else 0

theorem Job.Counts.setPhase {j : Job} (h : j.Counts) {p : Phase}
    (hp : ∀ b ∈ p.reported, j.finished = b) : Job.Counts { j with phase := p } := ⟨hp, h.results⟩

section
variable {s s' : State} {n : ℕ} {io : Io} {t : Thread}

theorem Job.Counts.unfinished {j : Job} (h : j.Counts) {p : Phase} (hp : j.phase = p)
    (hreported : p.reported = some false) : j.finished = false :=
  h.finished false (by rw [hp, hreported]; rfl)

theorem reported_dispatch (disable : Bool) (j : Job) :
    (dispatch disable j).reported = some false := by
  unfold dispatch
  split_ifs <;> rfl

/-- A step of a job delivers its result at most once. -/
theorem Moved.counts (h : Moved s n io s') (hj : (s.jobs n).Counts) : (s'.jobs n).Counts := by
  have hsame {p : Phase} (hfinished : (s.jobs n).finished = false)
      (hp : p.reported = some false ∨ p.reported = none) :
      Job.Counts { s.jobs n with phase := p } := by
    refine hj.setPhase fun b hb => ?_
    rcases hp with hp | hp
    · rw [hp] at hb
      rw [hfinished, ← Option.some.inj hb]
    · rw [hp] at hb
      cases hb
  cases h with
  | stay => exact hj
  | dispatched hp =>
    rw [jobs_setPhase_self]
    exact hsame (hj.unfinished hp rfl) (.inl (reported_dispatch _ _))
  | acquired hp | cached hp | reused hp | cancelled hp | resumed hp =>
    rw [jobs_setPhase_self]
    exact hsame (hj.unfinished hp rfl) (.inl rfl)
  | message hp =>
    rw [jobs_setPhase_self]
    exact hsame (hj.unfinished hp rfl) (.inl rfl)
  | returned hp =>
    rw [jobs_setPhase_self, jobs_learn]
    exact hsame (hj.unfinished hp rfl) (.inl rfl)
  | threw | handled =>
    rw [jobs_setPhase_self]
    exact hj.setPhase fun b hb => by cases hb
  | raised hp =>
    rw [jobs_setPhase_self]
    exact hj.setPhase fun b hb => by cases hb
  | dropped =>
    show ((s.unlock.setPhase n .checking).jobs n).Counts
    rw [jobs_setPhase_self]
    exact hj.setPhase fun b hb => by cases hb
  | @dialed k d hp =>
    cases d with
    | refused | rejected | up =>
      rw [State.jobDial, jobs_setPhase_self]
      exact hsame (hj.unfinished hp rfl) (.inl rfl)
    | threw =>
      rw [State.jobDial, jobs_setPhase_self]
      exact hj.setPhase fun b hb => by cases hb
  | left hp =>
    rw [jobs_setPhase_self]
    exact hj.setPhase fun b hb => hj.finished b (by rw [hp]; exact hb)
  | checked hp =>
    rw [jobs_setPhase_self]
    refine hj.setPhase fun b hb => ?_
    cases hfinished : (s.jobs n).finished with
    | true =>
      rw [if_pos hfinished] at hb
      exact Option.some.inj hb
    | false =>
      rw [if_neg (by rw [hfinished]; exact Bool.false_ne_true)] at hb
      exact Option.some.inj hb
  | delivered hp =>
    have hresults := hj.results
    rw [hj.unfinished hp rfl, Bool.false_and, if_neg Bool.false_ne_true] at hresults
    rw [State.deliver]
    split
    · rename_i hcb
      dsimp only
      rw [Function.update_self]
      exact ⟨fun _ hb => Option.some.inj hb, by simp [hcb, hresults]⟩
    · rename_i hcb
      dsimp only
      rw [Function.update_self]
      exact ⟨fun _ hb => Option.some.inj hb, by simp [hcb, hresults]⟩

/-- A property of all jobs, after a step that changes one of them. -/
theorem forall_jobs {p : Job → Prop} (hs : ∀ m, p (s.jobs m))
    (hother : ∀ m, m ≠ n → s'.jobs m = s.jobs m) (hn : p (s'.jobs n)) (m : ℕ) : p (s'.jobs m) := by
  by_cases h : m = n
  · rw [h]
    exact hn
  · rw [hother m h]
    exact hs m

/-- A call does not touch the jobs. -/
theorem Called.jobs {c : Call} {cs : List Call} (h : Called s t cs io c s') :
    s'.jobs = s.jobs := by
  cases h with
  | shutdown =>
    unfold State.shutdownReturns
    split
    · rfl
    · rfl
  | _ => rfl

theorem jobs_cancel_self (s : State) (n : ℕ) :
    (FileTransfer.step s (.cancel n)).jobs n = { s.jobs n with cancelled := true } :=
  Function.update_self ..

theorem jobs_cancel_of_ne (s : State) {m n : ℕ} (h : m ≠ n) :
    (FileTransfer.step s (.cancel n)).jobs m = s.jobs m :=
  Function.update_of_ne h ..

theorem counts_initial (n : ℕ) : (initial.jobs n).Counts :=
  ⟨fun _ hb => Option.some.inj hb, rfl⟩

/-- **Each job is reported once or not yet**, in every run. -/
theorem counts_step (hs : ∀ n, (s.jobs n).Counts) (e : Event) :
    ∀ n, ((FileTransfer.step s e).jobs n).Counts := by
  cases e with
  | startJob n cmdType downloadPath resultCb msgCb =>
    simp only [FileTransfer.step]
    split
    · refine forall_jobs (n := n) hs (fun m hm => Function.update_of_ne hm ..) ?_
      dsimp only
      rw [Function.update_self]
      exact ⟨fun _ hb => Option.some.inj hb, rfl⟩
    · exact hs
  | cancel n =>
    refine forall_jobs hs (fun m hm => jobs_cancel_of_ne s hm) ?_
    rw [jobs_cancel_self]
    exact ⟨(hs n).finished, (hs n).results⟩
  | setStatusCb | configure => exact hs
  | shutdown t | connect t =>
    simp only [FileTransfer.step]
    split
    · exact hs
    · exact hs
  | job n io =>
    simp only [FileTransfer.step]
    split
    · have h := jobStep_moved s n io
      exact forall_jobs hs h.frame.jobs (h.counts (hs n))
    · exact hs
  | call t io =>
    simp only [FileTransfer.step]
    cases hcalls : s.calls t with
    | nil => exact hs
    | cons c cs =>
      dsimp only
      rw [(callStep_called s t c cs io).jobs]
      exact hs

/-! ## Callbacks -/

/-- A transfer does not report its progress to a message callback. -/
def Quiet (s : State) : Event → Prop
  | .job n (.progress _) => ∀ k, (s.jobs n).phase = .transferring k → k ≠ .ability →
      (s.jobs n).msgCb = false
  | _ => True

/-- The thread that has the mutex is in a locked section, and in no callback. -/
def Busy (s : State) (t : Thread) : Prop :=
  (∃ c cs, s.calls t = c :: cs ∧ c.holds = true) ∨
    s.calls t = [] ∧ ∃ n, t = .job n ∧ (s.jobs n).phase.holds = true ∧
      (s.jobs n).phase.inCallback = false

/-- No callback is called under `lan_mu`, whose holder can go on, and each job gets one result. -/
structure Lawful (s : State) : Prop where
  unlocked : ∀ i ∈ s.invoked, i.locked = false
  busy : ∀ t, s.lanMu = some t → Busy s t
  once : ∀ n, (s.jobs n).results.length ≤ 1
  delivered : ∀ n, (s.jobs n).phase = .ended → (s.jobs n).resultCb = true →
    (s.jobs n).results.length = 1

/-- What holds in a run without progress reports. -/
structure Silent (s : State) : Prop where
  inv : Inv s
  unlocked : ∀ i ∈ s.invoked, i.locked = false
  phase : ∀ n k, (s.jobs n).phase ≠ .progressing k
  counts : ∀ n, (s.jobs n).Counts

/-- A place that is both locked and in a callback is that of a progress report. -/
theorem Phase.holds_of_inCallback {p : Phase} (h : p.inCallback = true)
    (hp : ∀ k, p ≠ .progressing k) : p.holds = false := by
  cases p with
  | progressing k => exact absurd rfl (hp k)
  | resulting => rfl
  | _ => cases h

theorem Silent.lawful (hs : Silent s) : Lawful s where
  unlocked := hs.unlocked
  busy t ht := by
    have hin := (hs.inv.guards t).2 ht
    -- a job that is in a callback has left its locked section
    have hout (n : ℕ) (h : (s.jobs n).phase.inCallback = true) :
        (s.jobs n).phase.holds = false := Phase.holds_of_inCallback h (hs.phase n)
    cases hcalls : s.calls t with
    | cons c cs =>
      rw [inside_of_calls hcalls] at hin
      rcases hin with ⟨d, hd, hholds⟩ | ⟨n, rfl, hholds⟩
      · obtain rfl := Option.some.inj hd
        exact .inl ⟨c, cs, hcalls, hholds⟩
      · rw [hout n (hs.inv.within n (by rw [hcalls]; exact List.cons_ne_nil _ _))] at hholds
        cases hholds
    | nil =>
      rw [inside_of_calls hcalls] at hin
      rcases hin with ⟨d, hd, -⟩ | ⟨n, rfl, hholds⟩
      · cases hd
      · refine .inr ⟨hcalls, n, rfl, hholds, Bool.eq_false_iff.2 fun h => ?_⟩
        rw [hout n h] at hholds
        cases hholds
  once n := by
    rw [(hs.counts n).results]
    split
    · exact Nat.le_refl 1
    · exact Nat.zero_le 1
  delivered n hp hcb := by
    rw [(hs.counts n).results, (hs.counts n).finished true (by rw [hp]; rfl), hcb]
    rfl

/-- A thread outside of the locked sections calls a callback without the mutex. -/
theorem Inv.not_locked (hs : Inv s) (h : ¬ Inside s t) : decide (s.lanMu = some t) = false :=
  decide_eq_false fun hmu => h ((hs.guards t).2 hmu)

/-- A callback that a job calls without reporting progress is that of its result. -/
theorem Moved.callbacks (h : Moved s n io s') (hquiet : Quiet s (.job n io)) :
    s'.invoked = s.invoked ∨ ∃ r handler, (s.jobs n).phase = .delivering r handler ∧
      s'.invoked = s.invoked ++ [⟨.job n, .result n r, decide (s.lanMu = some (.job n))⟩] := by
  cases h with
  | message hp hk hcb hio =>
    subst hio
    rw [hquiet _ hp hk] at hcb
    cases hcb
  | @delivered r handler hp =>
    rw [State.deliver]
    split
    · exact .inr ⟨r, handler, hp, rfl⟩
    · exact .inl rfl
  | @returned k o hp =>
    left
    cases k with
    | ability => rw [State.learn]; split <;> rfl
    | upload | download => rfl
  | @dialed k d hp =>
    cases d with
    | refused | rejected | up | threw => exact .inl rfl
  | _ => exact .inl rfl

/-- Nor does it come into the message callback. -/
theorem Moved.phase_ne (h : Moved s n io s') (hquiet : Quiet s (.job n io))
    (hs : ∀ k, (s.jobs n).phase ≠ .progressing k) (k : Kind) :
    (s'.jobs n).phase ≠ .progressing k := by
  cases h with
  | stay => exact hs k
  | message hp hk hcb hio =>
    subst hio
    rw [hquiet _ hp hk] at hcb
    cases hcb
  | dispatched =>
    rw [jobs_setPhase_self]
    intro h
    have hholds := holds_dispatch s.disableCameraPreview (s.jobs n)
    dsimp only at h
    rw [h] at hholds
    cases hholds
  | checked =>
    rw [jobs_setPhase_self]
    dsimp only
    split
    · exact fun h => by cases h
    · exact fun h => by cases h
  | @dialed k d =>
    cases d with
    | refused | rejected | up | threw =>
      rw [State.jobDial, jobs_setPhase_self]
      exact fun h => by cases h
  | delivered =>
    rw [State.deliver]
    split
    · dsimp only
      rw [Function.update_self]
      exact fun h => by cases h
    · dsimp only
      rw [Function.update_self]
      exact fun h => by cases h
  | dropped =>
    show ((s.unlock.setPhase n .checking).jobs n).phase ≠ _
    rw [jobs_setPhase_self]
    exact fun h => by cases h
  | _ =>
    rw [jobs_setPhase_self]
    exact fun h => by cases h

theorem forall_invoked (hs : ∀ i ∈ s.invoked, i.locked = false) {t : Thread} {k : Callback}
    {b : Bool} (hb : b = false) : ∀ i ∈ s.invoked ++ [⟨t, k, b⟩], i.locked = false := by
  intro i hi
  rcases List.mem_append.1 hi with hi | hi
  · exact hs i hi
  · rw [List.mem_singleton.1 hi, hb]

theorem Silent.moved (hs : Silent s) (hcalls : s.calls (.job n) = []) (h : Moved s n io s')
    (hquiet : Quiet s (.job n io)) : Silent s' where
  inv := hs.inv.moved hcalls h
  unlocked := by
    rcases h.callbacks hquiet with heq | ⟨r, handler, hp, heq⟩
    · rw [heq]
      exact hs.unlocked
    · rw [heq]
      refine forall_invoked hs.unlocked (hs.inv.not_locked fun hin => ?_)
      rw [inside_of_calls hcalls] at hin
      rcases hin with ⟨c, hc, -⟩ | ⟨m, hm, hholds⟩
      · cases hc
      · cases hm
        rw [hp] at hholds
        cases hholds
  phase m k := forall_jobs (p := fun j => j.phase ≠ .progressing k) (fun m => hs.phase m k)
    h.frame.jobs (h.phase_ne hquiet (hs.phase n) k) m
  counts := forall_jobs hs.counts h.frame.jobs (h.counts (hs.counts n))

theorem Called.callbacks {c : Call} {cs : List Call} (h : Called s t cs io c s') :
    s'.invoked = s.invoked ∨ c.holds = false ∧
      ∃ k, s'.invoked = s.invoked ++ [⟨t, k, decide (s.lanMu = some t)⟩] := by
  cases h with
  | invoked hc => exact .inr ⟨hc, _, rfl⟩
  | shutdown =>
    unfold State.shutdownReturns
    split
    · exact .inl rfl
    · exact .inl rfl
  | _ => exact .inl rfl

theorem Silent.called (hs : Silent s) {c : Call} {cs : List Call} (hcalls : s.calls t = c :: cs)
    (h : Called s t cs io c s') : Silent s' where
  inv := hs.inv.called hcalls h
  unlocked := by
    rcases h.callbacks with heq | ⟨hc, k, heq⟩
    · rw [heq]
      exact hs.unlocked
    · rw [heq]
      refine forall_invoked hs.unlocked (hs.inv.not_locked fun hin => ?_)
      rw [inside_of_calls hcalls] at hin
      rcases hin with ⟨d, hd, hholds⟩ | ⟨n, rfl, hholds⟩
      · rw [← Option.some.inj hd, hc] at hholds
        cases hholds
      · have hcallback := hs.inv.within n (by rw [hcalls]; exact List.cons_ne_nil _ _)
        rw [Phase.holds_of_inCallback hcallback (hs.phase n)] at hholds
        cases hholds
  phase := by
    rw [h.jobs]
    exact hs.phase
  counts := by
    rw [h.jobs]
    exact hs.counts

theorem Silent.step (hs : Silent s) {e : Event} (hquiet : Quiet s e) :
    Silent (FileTransfer.step s e) := by
  have hinv := hs.inv.step e
  have hcounts := counts_step hs.counts e
  cases e with
  | startJob n cmdType downloadPath resultCb msgCb =>
    simp only [FileTransfer.step] at hinv hcounts ⊢
    split at hinv
    · rw [if_pos ‹_›] at hcounts ⊢
      refine ⟨hinv, hs.unlocked, fun m k => ?_, hcounts⟩
      refine forall_jobs (p := fun j => j.phase ≠ .progressing k) (fun m => hs.phase m k)
        (fun m hm => Function.update_of_ne hm ..) ?_ m
      dsimp only
      rw [Function.update_self]
      exact fun h => by cases h
    · rw [if_neg ‹_›]
      exact hs
  | cancel n =>
    refine ⟨hinv, hs.unlocked, fun m k => ?_, hcounts⟩
    refine forall_jobs (p := fun j => j.phase ≠ .progressing k) (fun m => hs.phase m k)
      (fun m hm => jobs_cancel_of_ne s hm) ?_ m
    rw [jobs_cancel_self]
    exact hs.phase n k
  | setStatusCb | configure => exact ⟨hinv, hs.unlocked, hs.phase, hcounts⟩
  | shutdown t | connect t =>
    simp only [FileTransfer.step] at hinv hcounts ⊢
    split at hinv
    · rw [if_pos ‹_›] at hcounts ⊢
      exact ⟨hinv, hs.unlocked, hs.phase, hcounts⟩
    · rw [if_neg ‹_›]
      exact hs
  | job n io =>
    simp only [FileTransfer.step]
    split
    · exact hs.moved ‹_› (jobStep_moved s n io) hquiet
    · exact hs
  | call t io =>
    simp only [FileTransfer.step]
    cases hcalls : s.calls t with
    | nil => exact hs
    | cons c cs => exact hs.called hcalls (callStep_called s t c cs io)

theorem silent_initial : Silent initial where
  inv := inv_initial
  unlocked := nofun
  phase := nofun
  counts := counts_initial

/-- **Without progress reports every run is lawful**: no callback is called under `lan_mu`, whose
holder can go on, and each job gets one result. -/
theorem lawful_run {es : List Event} (h : Along FileTransfer.step Quiet initial es) :
    Lawful (run FileTransfer.step initial es) :=
  (run_invariant (fun _ _ hs hok => hs.step hok) silent_initial h).lawful

/-- A transfer that throws is reported once, by the handler. -/
theorem lawful_run_threw :
    ((run FileTransfer.step initial [.startJob 0 kCmdTypeUpload [] true true, .job 0 .tick,
      .job 0 .tick, .job 0 (.dial .up), .job 0 .threw, .job 0 .tick, .job 0 .tick, .job 0 .tick,
      .job 0 .tick, .job 0 .tick]).jobs 0).results.length = 1 := by
  have hquiet : Along FileTransfer.step Quiet initial [.startJob 0 kCmdTypeUpload [] true true,
      .job 0 .tick, .job 0 .tick, .job 0 (.dial .up), .job 0 .threw, .job 0 .tick, .job 0 .tick,
      .job 0 .tick, .job 0 .tick, .job 0 .tick] :=
    ⟨trivial, trivial, trivial, trivial, trivial, trivial, trivial, trivial, trivial, trivial,
      trivial⟩
  exact (lawful_run hquiet).delivered 0 rfl rfl

/-- **A progress report is made under `lan_mu`**; when its callback shuts the tunnel down, the
thread waits for the mutex that it has. -/
theorem progress_locked :
    let s := run FileTransfer.step initial [.startJob 0 kCmdTypeUpload [] true true, .job 0 .tick,
      .job 0 .tick, .job 0 (.dial .up), .job 0 (.progress 100), .shutdown (.job 0)]
    (∃ i ∈ s.invoked, i.thread = .job 0 ∧ i.locked = true) ∧ s.lanMu = some (.job 0) ∧
      s.calls (.job 0) = [.shutdownWait] ∧ (s.jobs 0).results = [] :=
  ⟨⟨_, List.mem_singleton.2 rfl, rfl, rfl⟩, rfl, rfl, rfl⟩

end

end BambooNet.Lan.FileTransfer
