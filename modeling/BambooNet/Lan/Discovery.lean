import BambooNet.Lib.Runs
import Mathlib.Data.Nat.Basic
import Mathlib.Logic.Function.Basic

/-!
# The SSDP listener

`Discovery` owns a socket and a worker thread. `start` and `stop` run under `start_mu_`, one at a
time; the worker runs beside them and may end on its own when the socket fails. One atomic exchange
of `running_` decides who closes the socket: `stop` or the worker, whoever finds the flag up.

**Theorem (`lifecycle`).** In every interleaving each socket is closed at most once and none is
used after that, no two workers run, and when `stop` returns every socket is closed. A `start` that
was called with the flag down fails or returns with a worker that was not there before.

The proof follows the socket. While nobody is changing the listener (`Quiet`) it belongs to a
running worker, or to one that is about to close it, or there is none; `start` and `stop` take it
through the stages of `Fits`, and a step of the worker stays within each of them.
-/

namespace BambooNet.Lan.Discovery

variable {τ β : Type*}

/-! ## The listener and its workers -/

/-- A worker in `run_`, with its own copy of `fd_`. A socket is a number, `none` the invalid one. -/
inductive Phase
  | absent
  | spawned
  /-- Before the test of `running_`. -/
  | head (fd : Option ℕ)
  | polling (fd : Option ℕ)
  | reading (fd : Option ℕ)
  /-- About to call the callback. -/
  | calling (fd : Option ℕ)
  /-- After the loop, before the exchange of `running_`. -/
  | leaving (fd : Option ℕ)
  /-- The exchange was won. -/
  | owner (fd : Option ℕ)
  | closing (fd : Option ℕ)
  | ended
  deriving DecidableEq

def Phase.Runs (p : Phase) : Prop := p ≠ .absent ∧ p ≠ .ended

instance Phase.decidableRuns (p : Phase) : Decidable p.Runs :=
  inferInstanceAs (Decidable (_ ∧ _))

structure Listener (β : Type*) where
  /-- `running_`. -/
  running : Bool := false
  /-- `fd_`. -/
  fd : Option ℕ := none
  /-- `worker_`, when it is joinable. -/
  worker : Option ℕ := none
  cb : Option β := none
  phase : ℕ → Phase := fun _ => .absent
  /-- The number of workers that were started. -/
  spawned : ℕ := 0
  /-- The number of sockets that were opened. -/
  opened : ℕ := 0
  /-- How often a socket was closed. -/
  closes : ℕ → ℕ := fun _ => 0
  /-- A socket was polled or read after it was closed. -/
  misused : Bool := false
  /-- The callbacks that were called. -/
  called : List β := []

namespace Listener

def setPhase (l : Listener β) (w : ℕ) (p : Phase) : Listener β :=
  { l with phase := Function.update l.phase w p }

@[simp] theorem phase_setPhase_self (l : Listener β) (w : ℕ) (p : Phase) :
    (l.setPhase w p).phase w = p := Function.update_self ..

theorem phase_setPhase_of_ne (l : Listener β) {v w : ℕ} (h : v ≠ w) (p : Phase) :
    (l.setPhase w p).phase v = l.phase v := Function.update_of_ne h ..

def close (l : Listener β) : Option ℕ → Listener β
  | none => l
  | some x => { l with closes := Function.update l.closes x (l.closes x + 1) }

/-- `poll` or `recvfrom`. -/
def use (l : Listener β) : Option ℕ → Listener β
  | none => l
  | some x => { l with misused := l.misused || l.closes x != 0 }

/-- `socket`. -/
def socket (l : Listener β) : Listener β := { l with opened := l.opened + 1 }

/-- The constructor of the thread. -/
def spawn (l : Listener β) : Listener β :=
  { l.setPhase l.spawned .spawned with worker := some l.spawned, spawned := l.spawned + 1 }

/-- `worker_.join()`, when it is joinable; none while the worker runs. -/
def join (l : Listener β) : Option (Listener β) :=
  match l.worker with
  | none => some l
  | some w => if (l.phase w).Runs then none else some { l with worker := none }

end Listener

/-- What a system call of the worker comes to: nothing to do (a timeout, an interruption, a datagram
to be skipped), an error, or data. -/
inductive Io
  | again
  | fail
  | ready

/-- Where the loop goes on after a system call. -/
def afterIo (fd : Option ℕ) (ready : Phase) : Io → Phase
  | .again => .head fd
  | .fail => .leaving fd
  | .ready => ready

/-- The next step of a worker. -/
def workerStep (l : Listener β) (w : ℕ) (io : Io) : Listener β :=
  match l.phase w with
  | .absent | .ended => l
  | .spawned => l.setPhase w (.head l.fd)
  | .head fd => l.setPhase w (if l.running then .polling fd else .leaving fd)
  | .polling fd => (l.use fd).setPhase w (afterIo fd (.reading fd) io)
  | .reading fd => (l.use fd).setPhase w (afterIo fd (.calling fd) io)
  | .calling fd => { l.setPhase w (.head fd) with called := l.called ++ l.cb.toList }
  | .leaving fd =>
    if l.running then { l.setPhase w (.owner fd) with running := false } else l.setPhase w .ended
  | .owner fd => { l.setPhase w (.closing fd) with fd := none }
  | .closing fd => (l.close fd).setPhase w .ended

/-! ## Calls -/

/-- A call of `start`, with what its caller could see when it was made. -/
structure Start (β : Type*) where
  cb : β
  /-- `running_` was false. -/
  down : Bool
  spawned : ℕ
  opened : ℕ

inductive Call (β : Type*)
  | start (call : Start β)
  /-- `stop`, or the destructor. -/
  | stop

inductive Result
  /-- The listener was running. -/
  | already
  | failed
  /-- A socket and a worker were started. -/
  | opened (x w : ℕ)

/-- How far the thread that holds `start_mu_` has come. -/
inductive Stage (β : Type*)
  | startCheck (call : Start β)
  | startReap (call : Start β)
  | startSocket (call : Start β)
  | startBind (call : Start β) (x : ℕ)
  | startStore (call : Start β) (x : ℕ)
  | startRun (call : Start β) (x : ℕ)
  | startSpawn (call : Start β) (x : ℕ)
  /-- The thread could not be created. -/
  | undoRun (call : Start β) (x : ℕ)
  | undoStore (call : Start β) (x : ℕ)
  | undoClose (call : Start β) (x : ℕ)
  | startDone (call : Start β) (result : Result)
  | stopExchange
  /-- `running_` was down. -/
  | stopReap
  | stopClear
  | stopJoin
  | stopTake
  | stopClose (fd : Option ℕ)
  | stopDone

/-- The next step of the thread that holds the mutex, `ok` when a socket, a bind or a thread is to
be had. A join waits for the worker. -/
def stageStep (l : Listener β) (ok : Bool) : Stage β → Listener β × Stage β
  | .startCheck call =>
    if l.running then ({ l with cb := some call.cb }, .startDone call .already)
    else (l, .startReap call)
  | .startReap call =>
    match l.join with
    | none => (l, .startReap call)
    | some l => ({ l with cb := some call.cb }, .startSocket call)
  | .startSocket call =>
    if ok then (l.socket, .startBind call l.opened) else (l, .startDone call .failed)
  | .startBind call x =>
    if ok then (l, .startStore call x) else (l.close (some x), .startDone call .failed)
  | .startStore call x => ({ l with fd := some x }, .startRun call x)
  | .startRun call x => ({ l with running := true }, .startSpawn call x)
  | .startSpawn call x =>
    if ok then (l.spawn, .startDone call (.opened x l.spawned)) else (l, .undoRun call x)
  | .undoRun call x => ({ l with running := false }, .undoStore call x)
  | .undoStore call x => ({ l with fd := none }, .undoClose call x)
  | .undoClose call x => (l.close (some x), .startDone call .failed)
  | .startDone call result => (l, .startDone call result)
  | .stopExchange => if l.running then ({ l with running := false }, .stopClear) else (l, .stopReap)
  | .stopReap =>
    match l.join with
    | none => (l, .stopReap)
    | some l => (l, .stopDone)
  | .stopClear => ({ l with cb := none }, .stopJoin)
  | .stopJoin =>
    match l.join with
    | none => (l, .stopJoin)
    | some l => (l, .stopTake)
  | .stopTake => ({ l with fd := none }, .stopClose l.fd)
  | .stopClose fd => (l.close fd, .stopDone)
  | .stopDone => (l, .stopDone)

/-- The calls that wait for the mutex, and the thread that holds it. -/
structure State (τ β : Type*) where
  listener : Listener β := {}
  waiting : τ → Option (Call β) := fun _ => none
  holder : Option (τ × Stage β) := none

inductive Event (τ β : Type*)
  | start (t : τ) (cb : β)
  /-- `stop`, or the destructor. -/
  | stop (t : τ)
  /-- A thread gets the mutex. -/
  | acquire (t : τ)
  /-- The thread that holds the mutex goes on. -/
  | advance (ok : Bool)
  /-- It returns. -/
  | release
  | worker (w : ℕ) (io : Io)

def Call.stage : Call β → Stage β
  | .start call => .startCheck call
  | .stop => .stopExchange

/-- An event that cannot happen in a state leaves it alone. -/
def step [DecidableEq τ] (s : State τ β) : Event τ β → State τ β
  | .start t cb =>
    if s.waiting t = none ∧ s.holder.map (·.1) ≠ some t then
      let call := ⟨cb, !s.listener.running, s.listener.spawned, s.listener.opened⟩
      { s with waiting := Function.update s.waiting t (some (.start call)) }
    else s
  | .stop t =>
    if s.waiting t = none ∧ s.holder.map (·.1) ≠ some t then
      { s with waiting := Function.update s.waiting t (some .stop) }
    else s
  | .acquire t =>
    match s.holder, s.waiting t with
    | none, some call =>
      { s with waiting := Function.update s.waiting t none, holder := some (t, call.stage) }
    | _, _ => s
  | .advance ok =>
    match s.holder with
    | none => s
    | some (t, g) =>
      let (l, g) := stageStep s.listener ok g
      { s with listener := l, holder := some (t, g) }
  | .release =>
    match s.holder with
    | some (_, .startDone _ _) | some (_, .stopDone) => { s with holder := none }
    | _ => s
  | .worker w io => { s with listener := workerStep s.listener w io }

/-! ## Where the socket is -/

variable {l : Listener β} {x w : ℕ} {io : Io}

def NoWorker (l : Listener β) : Prop := ∀ w, ¬ (l.phase w).Runs

def OnlyWorker (l : Listener β) (w : ℕ) : Prop := ∀ v, (l.phase v).Runs → v = w

def AllClosed (l : Listener β) : Prop := ∀ y, l.closes y = if y < l.opened then 1 else 0

/-- Socket `x` is open and all others are closed. -/
def OnlyOpen (l : Listener β) (x : ℕ) : Prop :=
  x < l.opened ∧ ∀ y, l.closes y = if y < l.opened ∧ y ≠ x then 1 else 0

/-- A worker that uses socket `x` and has not done its exchange. -/
def Works (x : ℕ) : Phase → Prop
  | .spawned => True
  | .head fd | .polling fd | .reading fd | .calling fd | .leaving fd => fd = some x
  | _ => False

/-- No socket and no worker. -/
def Idle (l : Listener β) : Prop := l.running = false ∧ NoWorker l ∧ AllClosed l

/-- The socket is in the hands of the worker, which runs. -/
def Live (l : Listener β) (x : ℕ) : Prop :=
  l.running = true ∧ l.fd = some x ∧ OnlyOpen l x ∧
    ∃ w, l.worker = some w ∧ Works x (l.phase w) ∧ OnlyWorker l w

/-- The worker has won the exchange and is about to close the socket. -/
def Dying (l : Listener β) (x : ℕ) : Prop :=
  l.running = false ∧ OnlyOpen l x ∧ ∃ w, l.worker = some w ∧
    (l.phase w = .owner (some x) ∨ l.phase w = .closing (some x)) ∧ OnlyWorker l w

def Down (l : Listener β) : Prop := Idle l ∨ ∃ x, Dying l x

/-- Nobody is changing the listener. -/
def Quiet (l : Listener β) : Prop := (∃ x, Live l x) ∨ Down l

/-- `stop` has won the exchange; the worker may still be there. -/
def Stopping (l : Listener β) : Prop :=
  l.running = false ∧ ∃ x, l.fd = some x ∧ OnlyOpen l x ∧
    (NoWorker l ∨ ∃ w, l.worker = some w ∧ Works x (l.phase w) ∧ OnlyWorker l w)

/-- The socket is in the hands of `start`. -/
def Held (l : Listener β) (running : Bool) (x : ℕ) : Prop :=
  l.running = running ∧ l.worker = none ∧ NoWorker l ∧ OnlyOpen l x

/-- What a call saw is not ahead of the listener. -/
def Seen (l : Listener β) (call : Start β) : Prop :=
  call.spawned ≤ l.spawned ∧ call.opened ≤ l.opened

/-- When the flag was down at the call and is up now, a worker was started in between. -/
def Renewed (l : Listener β) (call : Start β) : Prop :=
  call.down = true → l.running = true → call.spawned < l.spawned

/-- What the result of `start` says. -/
def Answers (l : Listener β) (call : Start β) : Result → Prop
  | .already => call.down = true → call.spawned < l.spawned
  | .failed => True
  | .opened x w => call.opened ≤ x ∧ x < l.opened ∧ call.spawned ≤ w ∧ w < l.spawned

/-- The stages of `start` and `stop`. -/
def Fits (l : Listener β) : Stage β → Prop
  | .startCheck call => Quiet l ∧ Seen l call ∧ Renewed l call
  | .startReap call => Down l ∧ Seen l call
  | .startSocket call => Idle l ∧ l.worker = none ∧ Seen l call
  | .startBind call x | .startStore call x | .undoStore call x | .undoClose call x =>
    Held l false x ∧ Seen l call ∧ call.opened ≤ x
  | .startRun call x => Held l false x ∧ l.fd = some x ∧ Seen l call ∧ call.opened ≤ x
  | .startSpawn call x => Held l true x ∧ l.fd = some x ∧ Seen l call ∧ call.opened ≤ x
  | .undoRun call x => Held l true x ∧ Seen l call ∧ call.opened ≤ x
  | .startDone call result => Quiet l ∧ Answers l call result
  | .stopExchange => Quiet l
  | .stopReap => Down l
  | .stopClear | .stopJoin => Stopping l
  | .stopTake => l.running = false ∧ NoWorker l ∧ ∃ x, l.fd = some x ∧ OnlyOpen l x
  | .stopClose fd => l.running = false ∧ NoWorker l ∧ ∃ x, fd = some x ∧ OnlyOpen l x
  | .stopDone => Idle l

/-- A stage with the flag up and the worker still to come. -/
def Stage.Spawning : Stage β → Prop
  | .startSpawn _ _ | .undoRun _ _ => True
  | _ => False

structure Inv (s : State τ β) : Prop where
  quiet : s.holder = none → Quiet s.listener
  fits : ∀ t g, s.holder = some (t, g) → Fits s.listener g
  seen : ∀ t call, s.waiting t = some (.start call) → Seen s.listener call
  renewed : ∀ t call, s.waiting t = some (.start call) →
    (∀ t g, s.holder = some (t, g) → ¬ g.Spawning) → Renewed s.listener call
  /-- Only workers that were started have a phase. -/
  fresh : ∀ w, s.listener.spawned ≤ w → s.listener.phase w = .absent
  unused : s.listener.misused = false

/-! ## What a worker does -/

theorem OnlyOpen.closes_eq_zero (h : OnlyOpen l x) : l.closes x = 0 := by
  rw [h.2 x, if_neg (fun hx => hx.2 rfl)]

theorem Works.runs {p : Phase} (h : Works x p) : p.Runs := by
  cases p with
  | absent | owner | closing | ended => exact h.elim
  | spawned | head | polling | reading | calling | leaving => exact ⟨nofun, nofun⟩

/-- Using an open socket changes nothing. -/
theorem use_open (h : l.closes x = 0) : l.use (some x) = l := by
  simp [Listener.use, h]

theorem workerStep_of_not_runs (h : ¬ (l.phase w).Runs) : workerStep l w io = l := by
  unfold workerStep
  cases hp : l.phase w with
  | absent | ended => rfl
  | _ => exact absurd ⟨nofun, nofun⟩ (hp ▸ h)

/-- **All that a worker can do before its exchange is over.** -/
theorem workerStep_cases (io : Io) (hw : Works x (l.phase w)) (hfd : l.fd = some x)
    (hopen : l.closes x = 0) :
    (∃ p called, Works x p ∧ workerStep l w io = { l.setPhase w p with called }) ∨
      (l.running = true ∧
        workerStep l w io = { l.setPhase w (.owner (some x)) with running := false }) ∨
      l.running = false ∧ workerStep l w io = l.setPhase w .ended := by
  have hio {p : Phase} (hp : Works x p) : Works x (afterIo (some x) p io) := by
    cases io with
    | again | fail => rfl
    | ready => exact hp
  cases hp : l.phase w with
  | absent | ended | owner | closing =>
    rw [hp] at hw
    exact hw.elim
  | spawned => exact .inl ⟨.head l.fd, l.called, hfd, by simp only [workerStep, hp]; rfl⟩
  | head fd =>
    rw [hp] at hw
    refine .inl ⟨if l.running then .polling fd else .leaving fd, l.called, ?_, ?_⟩
    · split <;> exact hw
    · simp only [workerStep, hp]
      rfl
  | polling fd =>
    obtain rfl : fd = some x := by simpa [hp, Works] using hw
    refine .inl ⟨afterIo (some x) (.reading (some x)) io, l.called, hio rfl, ?_⟩
    simp only [workerStep, hp, use_open hopen]
    rfl
  | reading fd =>
    obtain rfl : fd = some x := by simpa [hp, Works] using hw
    refine .inl ⟨afterIo (some x) (.calling (some x)) io, l.called, hio rfl, ?_⟩
    simp only [workerStep, hp, use_open hopen]
    rfl
  | calling fd =>
    rw [hp] at hw
    exact .inl ⟨.head fd, l.called ++ l.cb.toList, hw, by simp only [workerStep, hp]⟩
  | leaving fd =>
    obtain rfl : fd = some x := by simpa [hp, Works] using hw
    cases hr : l.running with
    | true => exact .inr (.inl ⟨rfl, by simp only [workerStep, hp, hr, if_true]⟩)
    | false => exact .inr (.inr ⟨rfl, by simp only [workerStep, hp, hr]; rfl⟩)

/-! ### The worker stays within a stage -/

theorem NoWorker.step (h : NoWorker l) (w : ℕ) (io : Io) : workerStep l w io = l :=
  workerStep_of_not_runs (h w)

/-- Setting the phase of the only worker. -/
theorem OnlyWorker.setPhase {p : Phase} (h : OnlyWorker l w) : OnlyWorker (l.setPhase w p) w := by
  intro v hv
  by_contra hne
  rw [l.phase_setPhase_of_ne hne] at hv
  exact hne (h v hv)

theorem OnlyWorker.ended (h : OnlyWorker l w) : NoWorker (l.setPhase w .ended) := by
  intro v hv
  obtain rfl := h.setPhase v hv
  rw [l.phase_setPhase_self] at hv
  exact hv.2 rfl

theorem OnlyWorker.step_of_ne {v : ℕ} (h : OnlyWorker l w) (hne : v ≠ w) :
    workerStep l v io = l :=
  workerStep_of_not_runs fun hv => hne (h v hv)

theorem AllClosed.of_close (h : OnlyOpen l x) : AllClosed (l.close (some x)) := by
  intro y
  by_cases hy : y = x
  · subst hy
    simp [Listener.close, h.closes_eq_zero, h.1]
  · by_cases hlt : y < l.opened <;> simp [Listener.close, hy, h.2 y, hlt]

theorem Live.worker (h : Live l x) (w : ℕ) (io : Io) :
    Live (workerStep l w io) x ∨ Dying (workerStep l w io) x := by
  obtain ⟨hrun, hfd, hopen, v, hv, hworks, honly⟩ := h
  by_cases hwv : w = v
  · subst hwv
    rcases workerStep_cases io hworks hfd hopen.closes_eq_zero with
      ⟨p, called, hp, heq⟩ | ⟨-, heq⟩ | ⟨hdown, -⟩
    · rw [heq]
      exact .inl ⟨hrun, hfd, hopen, w, hv, (l.phase_setPhase_self w p).symm ▸ hp, honly.setPhase⟩
    · rw [heq]
      exact .inr ⟨rfl, hopen, w, hv, .inl (l.phase_setPhase_self w _), honly.setPhase⟩
    · rw [hrun] at hdown
      contradiction
  · rw [honly.step_of_ne hwv]
    exact .inl ⟨hrun, hfd, hopen, v, hv, hworks, honly⟩

theorem Dying.worker (h : Dying l x) (w : ℕ) (io : Io) :
    Dying (workerStep l w io) x ∨ Idle (workerStep l w io) := by
  obtain ⟨hdown, hopen, v, hv, hphase, honly⟩ := h
  by_cases hwv : w = v
  · subst hwv
    rcases hphase with hp | hp
    · refine .inl ?_
      simp only [workerStep, hp]
      exact ⟨hdown, hopen, w, hv, .inr (l.phase_setPhase_self w _), honly.setPhase⟩
    · refine .inr ?_
      simp only [workerStep, hp]
      exact ⟨hdown, OnlyWorker.ended (l := l.close (some x)) honly, AllClosed.of_close hopen⟩
  · rw [honly.step_of_ne hwv]
    exact .inl ⟨hdown, hopen, v, hv, hphase, honly⟩

theorem Down.worker (h : Down l) (w : ℕ) (io : Io) : Down (workerStep l w io) := by
  rcases h with hidle | ⟨x, hdying⟩
  · rw [hidle.2.1.step]
    exact .inl hidle
  · exact (hdying.worker w io).symm.imp_right fun h => ⟨x, h⟩

theorem Quiet.worker (h : Quiet l) (w : ℕ) (io : Io) : Quiet (workerStep l w io) := by
  rcases h with ⟨x, hlive⟩ | hdown
  · exact (hlive.worker w io).imp (fun h => ⟨x, h⟩) fun h => .inr ⟨x, h⟩
  · exact .inr (hdown.worker w io)

theorem Stopping.worker (h : Stopping l) (w : ℕ) (io : Io) : Stopping (workerStep l w io) := by
  obtain ⟨hdown, x, hfd, hopen, hnone | ⟨v, hv, hworks, honly⟩⟩ := h
  · rw [hnone.step]
    exact ⟨hdown, x, hfd, hopen, .inl hnone⟩
  by_cases hwv : w = v
  · subst hwv
    rcases workerStep_cases io hworks hfd hopen.closes_eq_zero with
      ⟨p, called, hp, heq⟩ | ⟨hup, -⟩ | ⟨-, heq⟩
    · rw [heq]
      exact ⟨hdown, x, hfd, hopen, .inr
        ⟨w, hv, (l.phase_setPhase_self w p).symm ▸ hp, honly.setPhase⟩⟩
    · rw [hdown] at hup
      contradiction
    · rw [heq]
      exact ⟨hdown, x, hfd, hopen, .inl honly.ended⟩
  · rw [honly.step_of_ne hwv]
    exact ⟨hdown, x, hfd, hopen, .inr ⟨v, hv, hworks, honly⟩⟩

theorem Seen.mono {l' : Listener β} {call : Start β} (h : Seen l call)
    (hspawned : l.spawned ≤ l'.spawned) (hopened : l.opened ≤ l'.opened) : Seen l' call :=
  ⟨Nat.le_trans h.1 hspawned, Nat.le_trans h.2 hopened⟩

/-- A running worker has an open socket to use, or is done with it. -/
def Guarded (l : Listener β) : Prop :=
  ∀ w, (l.phase w).Runs → (∃ x, Works x (l.phase w) ∧ l.fd = some x ∧ l.closes x = 0) ∨
    ∃ fd, l.phase w = .owner fd ∨ l.phase w = .closing fd

/-- What a step of a worker leaves alone. -/
structure Frame (l l' : Listener β) : Prop where
  spawned : l'.spawned = l.spawned
  opened : l'.opened = l.opened
  running : l'.running = true → l.running = true
  misused : l'.misused = l.misused
  absent : ∀ v, l.phase v = .absent → l'.phase v = .absent

theorem workerStep_frame (h : Guarded l) (w : ℕ) (io : Io) : Frame l (workerStep l w io) := by
  by_cases hruns : (l.phase w).Runs
  · have habsent (p : Phase) (v : ℕ) (hv : l.phase v = .absent) :
        (l.setPhase w p).phase v = .absent := by
      have hne : v ≠ w := by
        rintro rfl
        exact hruns.1 hv
      rw [l.phase_setPhase_of_ne hne, hv]
    rcases h w hruns with ⟨x, hworks, hfd, hopen⟩ | ⟨fd, hp | hp⟩
    · rcases workerStep_cases io hworks hfd hopen with
        ⟨p, called, -, heq⟩ | ⟨hup, heq⟩ | ⟨-, heq⟩
      · rw [heq]
        exact ⟨rfl, rfl, id, rfl, habsent p⟩
      · rw [heq]
        exact ⟨rfl, rfl, nofun, rfl, habsent _⟩
      · rw [heq]
        exact ⟨rfl, rfl, id, rfl, habsent _⟩
    · simp only [workerStep, hp]
      exact ⟨rfl, rfl, id, rfl, habsent _⟩
    · simp only [workerStep, hp]
      cases fd with
      | none => exact ⟨rfl, rfl, id, rfl, habsent _⟩
      | some x => exact ⟨rfl, rfl, id, rfl, habsent _⟩
  · rw [workerStep_of_not_runs hruns]
    exact ⟨rfl, rfl, id, rfl, fun _ h => h⟩

theorem NoWorker.guarded (h : NoWorker l) : Guarded l := fun w hw => absurd hw (h w)

theorem Down.guarded (h : Down l) : Guarded l := by
  rcases h with hidle | ⟨x, -, -, v, -, hphase, honly⟩
  · exact hidle.2.1.guarded
  · intro w hw
    obtain rfl := honly w hw
    exact .inr ⟨_, hphase⟩

theorem Quiet.guarded (h : Quiet l) : Guarded l := by
  rcases h with ⟨x, -, hfd, hopen, v, -, hworks, honly⟩ | hdown
  · intro w hw
    obtain rfl := honly w hw
    exact .inl ⟨x, hworks, hfd, hopen.closes_eq_zero⟩
  · exact hdown.guarded

theorem Stopping.guarded (h : Stopping l) : Guarded l := by
  obtain ⟨-, x, hfd, hopen, hnone | ⟨v, -, hworks, honly⟩⟩ := h
  · exact hnone.guarded
  · intro w hw
    obtain rfl := honly w hw
    exact .inl ⟨x, hworks, hfd, hopen.closes_eq_zero⟩

theorem Fits.guarded {g : Stage β} (h : Fits l g) : Guarded l := by
  cases g with
  | startCheck | startDone => exact h.1.guarded
  | stopExchange => exact Quiet.guarded h
  | startReap => exact h.1.guarded
  | stopReap => exact Down.guarded h
  | startSocket => exact h.1.2.1.guarded
  | startBind | startStore | undoStore | undoClose | startRun | startSpawn | undoRun =>
    exact h.1.2.2.1.guarded
  | stopClear | stopJoin => exact Stopping.guarded h
  | stopTake | stopClose => exact h.2.1.guarded
  | stopDone => exact h.2.1.guarded

/-- **The worker stays within each stage.** -/
theorem Fits.worker {g : Stage β} (h : Fits l g) (w : ℕ) (io : Io) :
    Fits (workerStep l w io) g := by
  have hframe := workerStep_frame h.guarded w io
  have hseen {call : Start β} (hs : Seen l call) : Seen (workerStep l w io) call :=
    hs.mono (Nat.le_of_eq hframe.spawned.symm) (Nat.le_of_eq hframe.opened.symm)
  cases g with
  | startCheck call =>
    obtain ⟨hquiet, hs, hrenewed⟩ := h
    refine ⟨hquiet.worker w io, hseen hs, fun hdown hup => ?_⟩
    rw [hframe.spawned]
    exact hrenewed hdown (hframe.running hup)
  | startReap call => exact ⟨h.1.worker w io, hseen h.2⟩
  | startDone call result =>
    refine ⟨h.1.worker w io, ?_⟩
    have hanswers := h.2
    cases result with
    | already | opened =>
      simp only [Answers, hframe.spawned, hframe.opened] at hanswers ⊢
      exact hanswers
    | failed => trivial
  | stopExchange => exact Quiet.worker h w io
  | stopReap => exact Down.worker h w io
  | stopClear | stopJoin => exact Stopping.worker h w io
  | startSocket | stopDone =>
    rw [NoWorker.step (by first | exact h.1.2.1 | exact h.2.1)]
    exact h
  | startBind | startStore | undoStore | undoClose | startRun | startSpawn | undoRun =>
    rw [h.1.2.2.1.step]
    exact h
  | stopTake | stopClose =>
    rw [h.2.1.step]
    exact h

/-! ## What `start` and `stop` do -/

/-- A join comes back when the worker has ended. -/
theorem join_eq_some {l' : Listener β} (h : l.join = some l') :
    l' = { l with worker := none } ∧ ∀ w, l.worker = some w → ¬ (l.phase w).Runs := by
  unfold Listener.join at h
  cases hw : l.worker with
  | none =>
    simp only [hw, Option.some.injEq] at h
    subst h
    exact ⟨by rw [← hw], nofun⟩
  | some w =>
    simp only [hw] at h
    split at h
    · contradiction
    · next hruns =>
      obtain rfl := Option.some.inj h
      exact ⟨rfl, fun v hv => Option.some.inj hv ▸ hruns⟩

theorem Down.join {l' : Listener β} (h : Down l) (hjoin : l.join = some l') :
    Idle l' ∧ l' = { l with worker := none } := by
  obtain ⟨rfl, hended⟩ := join_eq_some hjoin
  refine ⟨?_, rfl⟩
  rcases h with hidle | ⟨x, -, -, w, hw, hphase, -⟩
  · exact hidle
  · refine absurd ?_ (hended w hw)
    rcases hphase with hp | hp <;> rw [hp] <;> exact ⟨nofun, nofun⟩

theorem Stopping.join {l' : Listener β} (h : Stopping l) (hjoin : l.join = some l') :
    l'.running = false ∧ NoWorker l' ∧ ∃ x, l'.fd = some x ∧ OnlyOpen l' x := by
  obtain ⟨rfl, hended⟩ := join_eq_some hjoin
  obtain ⟨hdown, x, hfd, hopen, hnone | ⟨w, hw, hworks, -⟩⟩ := h
  · exact ⟨hdown, hnone, x, hfd, hopen⟩
  · exact absurd hworks.runs (hended w hw)

theorem AllClosed.socket (h : AllClosed l) : OnlyOpen l.socket l.opened := by
  refine ⟨Nat.lt_succ_self _, fun y => ?_⟩
  have hiff : y < l.opened + 1 ∧ y ≠ l.opened ↔ y < l.opened := by omega
  simp only [Listener.socket, h y, hiff]

theorem NoWorker.spawn (h : NoWorker l) : OnlyWorker l.spawn l.spawned :=
  OnlyWorker.setPhase (l := l) fun v hv => absurd hv (h v)

/-- `start` hands the socket to a new worker. -/
theorem Held.spawn (h : Held l true x) (hfd : l.fd = some x) : Live l.spawn x := by
  obtain ⟨hup, -, hnone, hopen⟩ := h
  refine ⟨hup, hfd, hopen, l.spawned, rfl, ?_, hnone.spawn⟩
  rw [show l.spawn.phase l.spawned = .spawned from l.phase_setPhase_self _ _]
  trivial

theorem Held.close (h : Held l false x) : Idle (l.close (some x)) :=
  ⟨h.1, h.2.2.1, AllClosed.of_close h.2.2.2⟩

/-- **`start` and `stop` go from stage to stage.** -/
theorem Fits.advance {g : Stage β} (h : Fits l g) (ok : Bool) :
    Fits (stageStep l ok g).1 (stageStep l ok g).2 := by
  cases g with
  | startCheck call =>
    obtain ⟨hquiet, hseen, hrenewed⟩ := h
    rw [stageStep]
    split
    · next hup => exact ⟨hquiet, fun hdown => hrenewed hdown hup⟩
    · next hdown =>
      refine ⟨hquiet.resolve_left ?_, hseen⟩
      rintro ⟨x, hup, -⟩
      exact hdown hup
  | startReap call =>
    rw [stageStep]
    split
    · exact h
    · next l' hjoin =>
      obtain ⟨hidle, rfl⟩ := h.1.join hjoin
      exact ⟨hidle, rfl, h.2⟩
  | startSocket call =>
    obtain ⟨⟨hdown, hnone, hclosed⟩, hworker, hseen⟩ := h
    cases ok with
    | true =>
      exact ⟨⟨hdown, hworker, hnone, hclosed.socket⟩,
        hseen.mono (Nat.le_refl _) (Nat.le_succ _), hseen.2⟩
    | false => exact ⟨.inr (.inl ⟨hdown, hnone, hclosed⟩), trivial⟩
  | startBind call x =>
    cases ok with
    | true => exact h
    | false => exact ⟨.inr (.inl h.1.close), trivial⟩
  | startStore call x => exact ⟨h.1, rfl, h.2⟩
  | startRun call x =>
    obtain ⟨⟨-, hworker, hnone, hopen⟩, hfd, hseen⟩ := h
    exact ⟨⟨rfl, hworker, hnone, hopen⟩, hfd, hseen⟩
  | startSpawn call x =>
    obtain ⟨hheld, hfd, hseen, hx⟩ := h
    cases ok with
    | true =>
      exact ⟨.inl ⟨x, hheld.spawn hfd⟩, hx, hheld.2.2.2.1, hseen.1, Nat.lt_succ_self _⟩
    | false => exact ⟨hheld, hseen, hx⟩
  | undoRun call x =>
    obtain ⟨⟨-, hworker, hnone, hopen⟩, hseen⟩ := h
    exact ⟨⟨rfl, hworker, hnone, hopen⟩, hseen⟩
  | undoStore call x => exact h
  | undoClose call x => exact ⟨.inr (.inl h.1.close), trivial⟩
  | startDone call result => exact h
  | stopExchange =>
    rw [stageStep]
    split
    · next hup =>
      rcases h with ⟨x, -, hfd, hopen, w, hw⟩ | hidle | ⟨x, hdown, -⟩
      · exact ⟨rfl, x, hfd, hopen, .inr ⟨w, hw⟩⟩
      · exact absurd hup (by simp [hidle.1])
      · exact absurd hup (by simp [hdown])
    · next hdown =>
      refine h.resolve_left ?_
      rintro ⟨x, hup, -⟩
      exact hdown hup
  | stopReap =>
    rw [stageStep]
    split
    · exact h
    · next l' hjoin => exact (Down.join h hjoin).1
  | stopClear => exact h
  | stopJoin =>
    rw [stageStep]
    split
    · exact h
    · next l' hjoin => exact Stopping.join h hjoin
  | stopTake =>
    obtain ⟨hdown, hnone, x, hfd, hopen⟩ := h
    exact ⟨hdown, hnone, x, hfd, hopen⟩
  | stopClose fd =>
    obtain ⟨hdown, hnone, x, rfl, hopen⟩ := h
    exact ⟨hdown, hnone, AllClosed.of_close hopen⟩
  | stopDone => exact h

/-- What a step of `start` or `stop` does to the workers and to the count of sockets. -/
structure Grows (l l' : Listener β) : Prop where
  workers : l'.spawned = l.spawned ∧ l'.phase = l.phase ∨
    l'.spawned = l.spawned + 1 ∧ l'.phase = Function.update l.phase l.spawned .spawned
  opened : l.opened ≤ l'.opened
  misused : l'.misused = l.misused

theorem stageStep_grows (l : Listener β) (ok : Bool) (g : Stage β) :
    Grows l (stageStep l ok g).1 := by
  have hrefl : Grows l l := ⟨.inl ⟨rfl, rfl⟩, Nat.le_refl _, rfl⟩
  have hjoin {l' : Listener β} (h : l.join = some l') : Grows l l' := by
    obtain ⟨rfl, -⟩ := join_eq_some h
    exact ⟨.inl ⟨rfl, rfl⟩, Nat.le_refl _, rfl⟩
  have hclose (x : ℕ) : Grows l (l.close (some x)) := ⟨.inl ⟨rfl, rfl⟩, Nat.le_refl _, rfl⟩
  cases g with
  | startCheck | stopExchange =>
    rw [stageStep]
    split <;> exact ⟨.inl ⟨rfl, rfl⟩, Nat.le_refl _, rfl⟩
  | startReap | stopReap | stopJoin =>
    rw [stageStep]
    split
    · exact hrefl
    · next hl => exact ⟨(hjoin hl).workers, (hjoin hl).opened, (hjoin hl).misused⟩
  | startSocket =>
    cases ok with
    | true => exact ⟨.inl ⟨rfl, rfl⟩, Nat.le_succ _, rfl⟩
    | false => exact hrefl
  | startBind call x =>
    cases ok with
    | true => exact hrefl
    | false => exact hclose x
  | startSpawn =>
    cases ok with
    | true => exact ⟨.inr ⟨rfl, rfl⟩, Nat.le_refl _, rfl⟩
    | false => exact hrefl
  | startStore | startRun | undoRun | undoStore | stopClear | stopTake =>
    exact ⟨.inl ⟨rfl, rfl⟩, Nat.le_refl _, rfl⟩
  | undoClose call x => exact hclose x
  | stopClose fd =>
    cases fd with
    | none => exact hrefl
    | some x => exact hclose x
  | startDone | stopDone => exact hrefl

theorem Grows.spawned_le {l' : Listener β} (h : Grows l l') : l.spawned ≤ l'.spawned := by
  rcases h.workers with ⟨heq, -⟩ | ⟨heq, -⟩ <;> omega

theorem Grows.absent {l' : Listener β} (h : Grows l l')
    (hfresh : ∀ w, l.spawned ≤ w → l.phase w = .absent) (w : ℕ) (hw : l'.spawned ≤ w) :
    l'.phase w = .absent := by
  rcases h.workers with ⟨hs, hp⟩ | ⟨hs, hp⟩
  · rw [hp]
    exact hfresh w (by omega)
  · rw [hp, Function.update_of_ne (by omega)]
    exact hfresh w (by omega)

/-- **The flag comes up only with a worker**, once the step of the two is over. -/
theorem stageStep_running (l : Listener β) (ok : Bool) (g : Stage β)
    (hg : ¬ (stageStep l ok g).2.Spawning) (hup : (stageStep l ok g).1.running = true) :
    (l.running = true ∧ ¬ g.Spawning) ∨ l.spawned < (stageStep l ok g).1.spawned := by
  cases g with
  | startCheck =>
    rw [stageStep] at hup
    split at hup <;> exact .inl ⟨hup, id⟩
  | startReap | stopReap | stopJoin =>
    rw [stageStep] at hup
    split at hup
    · exact .inl ⟨hup, id⟩
    · next hjoin =>
      obtain ⟨rfl, -⟩ := join_eq_some hjoin
      exact .inl ⟨hup, id⟩
  | startSocket | startBind => cases ok <;> exact .inl ⟨hup, id⟩
  | startRun => exact absurd trivial hg
  | startSpawn =>
    cases ok with
    | true => exact .inr (Nat.lt_succ_self _)
    | false => exact absurd trivial hg
  | undoRun => contradiction
  | stopExchange =>
    rw [stageStep] at hup
    split at hup
    · contradiction
    · exact .inl ⟨hup, id⟩
  | stopClose fd => cases fd <;> exact .inl ⟨hup, id⟩
  | startStore | undoStore | undoClose | startDone | stopClear | stopTake | stopDone =>
    exact .inl ⟨hup, id⟩

/-! ## Runs -/

theorem Inv.init : Inv ({} : State τ β) where
  quiet _ := .inr (.inl ⟨rfl, fun _ h => h.1 rfl, fun _ => rfl⟩)
  fits _ _ h := nomatch h
  seen _ _ h := nomatch h
  renewed _ _ h := nomatch h
  fresh _ _ := rfl
  unused := rfl

theorem Inv.guarded {s : State τ β} (hs : Inv s) : Guarded s.listener := by
  cases hh : s.holder with
  | none => exact (hs.quiet hh).guarded
  | some a => exact (hs.fits a.1 a.2 hh).guarded

/-- A call is made. -/
theorem Inv.call [DecidableEq τ] {s : State τ β} (hs : Inv s) (t : τ) {call : Call β}
    (hcall : ∀ c, call = .start c → Seen s.listener c ∧
      (c.down = true → s.listener.running = false)) :
    Inv { s with waiting := Function.update s.waiting t (some call) } := by
  have hwait (u : τ) (c : Start β)
      (h : Function.update s.waiting t (some call) u = some (.start c)) :
      s.waiting u = some (.start c) ∨ call = .start c := by
    by_cases hu : u = t
    · rw [hu, Function.update_self] at h
      exact .inr (Option.some.inj h)
    · rw [Function.update_of_ne hu] at h
      exact .inl h
  exact
    { hs with
      seen := fun u c h => (hwait u c h).elim (hs.seen u c) fun h => (hcall c h).1
      renewed := fun u c h hg => by
        rcases hwait u c h with h | h
        · exact hs.renewed u c h hg
        · exact fun hdown hup => absurd hup (by simp [(hcall c h).2 hdown]) }

theorem Inv.acquire [DecidableEq τ] {s : State τ β} (hs : Inv s) {t : τ} {call : Call β}
    (hh : s.holder = none) (hw : s.waiting t = some call) :
    Inv { s with
      waiting := Function.update s.waiting t none
      holder := some (t, call.stage) } := by
  have hwait (u : τ) (c : Start β)
      (h : Function.update s.waiting t none u = some (.start c)) :
      s.waiting u = some (.start c) := by
    by_cases hu : u = t
    · rw [hu, Function.update_self] at h
      contradiction
    · rwa [Function.update_of_ne hu] at h
  have hnone (t : τ) (g : Stage β) (h : s.holder = some (t, g)) : ¬ g.Spawning := by
    rw [hh] at h
    contradiction
  exact
    { hs with
      quiet := nofun
      fits := fun u g h => by
        obtain ⟨rfl, rfl⟩ := Prod.mk.inj (Option.some.inj h)
        cases call with
        | start c => exact ⟨hs.quiet hh, hs.seen t c hw, hs.renewed t c hw hnone⟩
        | stop => exact hs.quiet hh
      seen := fun u c h => hs.seen u c (hwait u c h)
      renewed := fun u c h _ => hs.renewed u c (hwait u c h) hnone }

theorem Inv.advance {s : State τ β} (hs : Inv s) {t : τ} {g : Stage β}
    (hh : s.holder = some (t, g)) (ok : Bool) :
    Inv { s with
      listener := (stageStep s.listener ok g).1
      holder := some (t, (stageStep s.listener ok g).2) } := by
  have hgrows := stageStep_grows s.listener ok g
  exact
    { quiet := nofun
      fits := fun u g' h => by
        obtain ⟨-, rfl⟩ := Prod.mk.inj (Option.some.inj h)
        exact (hs.fits t g hh).advance ok
      seen := fun u c h => (hs.seen u c h).mono hgrows.spawned_le hgrows.opened
      renewed := fun u c h hg hdown hup => by
        have hle := (hs.seen u c h).1
        rcases stageStep_running s.listener ok g (hg t _ rfl) hup with ⟨hup', hg'⟩ | hlt
        · have hlt := hs.renewed u c h (fun v g₁ h₁ => by
            rw [hh] at h₁
            obtain ⟨-, rfl⟩ := Prod.mk.inj (Option.some.inj h₁)
            exact hg') hdown hup'
          exact Nat.lt_of_lt_of_le hlt hgrows.spawned_le
        · exact Nat.lt_of_le_of_lt hle hlt
      fresh := hgrows.absent hs.fresh
      unused := hgrows.misused.trans hs.unused }

theorem Inv.release {s : State τ β} (hs : Inv s) {t : τ} {g : Stage β}
    (hh : s.holder = some (t, g))
    (hg : (∃ call result, g = .startDone call result) ∨ g = .stopDone) :
    Inv { s with holder := none } := by
  have hquiet : Quiet s.listener ∧ ¬ g.Spawning := by
    rcases hg with ⟨call, result, rfl⟩ | rfl
    · exact ⟨(hs.fits t _ hh).1, id⟩
    · exact ⟨.inr (.inl (hs.fits t _ hh)), id⟩
  exact
    { hs with
      quiet := fun _ => hquiet.1
      fits := nofun
      renewed := fun u c h _ => hs.renewed u c h fun v g' h' => by
        rw [hh] at h'
        obtain ⟨-, rfl⟩ := Prod.mk.inj (Option.some.inj h')
        exact hquiet.2 }

theorem Inv.worker {s : State τ β} (hs : Inv s) (w : ℕ) (io : Io) :
    Inv { s with listener := workerStep s.listener w io } := by
  have hframe := workerStep_frame hs.guarded w io
  exact
    { quiet := fun hh => (hs.quiet hh).worker w io
      fits := fun t g hh => (hs.fits t g hh).worker w io
      seen := fun t c h => (hs.seen t c h).mono (Nat.le_of_eq hframe.spawned.symm)
        (Nat.le_of_eq hframe.opened.symm)
      renewed := fun t c h hg hdown hup => by
        rw [show (workerStep s.listener w io).spawned = _ from hframe.spawned]
        exact hs.renewed t c h hg hdown (hframe.running hup)
      fresh := fun v hv => hframe.absent v (hs.fresh v (by
        rwa [show (workerStep s.listener w io).spawned = _ from hframe.spawned] at hv))
      unused := hframe.misused.trans hs.unused }

theorem Inv.step [DecidableEq τ] {s : State τ β} (hs : Inv s) (e : Event τ β) : Inv (step s e) := by
  cases e with
  | start t cb =>
    rw [Discovery.step]
    split
    · refine hs.call t fun c hc => ?_
      obtain rfl := Call.start.inj hc
      exact ⟨⟨Nat.le_refl _, Nat.le_refl _⟩, by simp⟩
    · exact hs
  | stop t =>
    rw [Discovery.step]
    split
    · exact hs.call t nofun
    · exact hs
  | acquire t =>
    simp only [Discovery.step]
    split
    · next hh hw => exact hs.acquire hh hw
    · exact hs
  | advance ok =>
    simp only [Discovery.step]
    split
    · exact hs
    · next t g hh => exact hs.advance hh ok
  | release =>
    simp only [Discovery.step]
    split
    · next t call result hh => exact hs.release hh (.inl ⟨call, result, rfl⟩)
    · next t hh => exact hs.release hh (.inr rfl)
    · exact hs
  | worker w io => exact hs.worker w io

/-! ## The lifecycle -/

/-- At most one socket is open and at most one worker runs. -/
def Settled (l : Listener β) : Prop :=
  (AllClosed l ∨ ∃ x, OnlyOpen l x) ∧ (NoWorker l ∨ ∃ w, OnlyWorker l w)

theorem Down.settled (h : Down l) : Settled l := by
  rcases h with ⟨-, hnone, hclosed⟩ | ⟨x, -, hopen, w, -, -, honly⟩
  · exact ⟨.inl hclosed, .inl hnone⟩
  · exact ⟨.inr ⟨x, hopen⟩, .inr ⟨w, honly⟩⟩

theorem Quiet.settled (h : Quiet l) : Settled l := by
  rcases h with ⟨x, -, -, hopen, w, -, -, honly⟩ | hdown
  · exact ⟨.inr ⟨x, hopen⟩, .inr ⟨w, honly⟩⟩
  · exact hdown.settled

theorem Stopping.settled (h : Stopping l) : Settled l := by
  obtain ⟨-, x, -, hopen, hnone | ⟨w, -, -, honly⟩⟩ := h
  · exact ⟨.inr ⟨x, hopen⟩, .inl hnone⟩
  · exact ⟨.inr ⟨x, hopen⟩, .inr ⟨w, honly⟩⟩

theorem Fits.settled {g : Stage β} (h : Fits l g) : Settled l := by
  cases g with
  | startCheck | startDone => exact h.1.settled
  | stopExchange => exact Quiet.settled h
  | startReap => exact h.1.settled
  | stopReap => exact Down.settled h
  | startSocket => exact ⟨.inl h.1.2.2, .inl h.1.2.1⟩
  | startBind | startStore | undoStore | undoClose | startRun | startSpawn | undoRun =>
    exact ⟨.inr ⟨_, h.1.2.2.2⟩, .inl h.1.2.2.1⟩
  | stopClear | stopJoin => exact Stopping.settled h
  | stopTake | stopClose =>
    obtain ⟨-, hnone, x, -, hopen⟩ := h
    exact ⟨.inr ⟨x, hopen⟩, .inl hnone⟩
  | stopDone => exact ⟨.inl h.2.2, .inl h.2.1⟩

theorem Inv.settled {s : State τ β} (hs : Inv s) : Settled s.listener := by
  cases hh : s.holder with
  | none => exact (hs.quiet hh).settled
  | some a => exact (hs.fits a.1 a.2 hh).settled

/-- What is promised in every state of a run. -/
structure Lawful (s : State τ β) : Prop where
  once : ∀ x, s.listener.closes x ≤ 1
  /-- When `stop` returns every socket is closed. -/
  closed : ∀ t, s.holder = some (t, .stopDone) →
    ∀ x < s.listener.opened, s.listener.closes x = 1
  unused : s.listener.misused = false
  single : ∀ v w, (s.listener.phase v).Runs → (s.listener.phase w).Runs → v = w
  /-- When `start` returns, its socket and worker are new. If it only found the flag up that was
  down at the call, a worker was started since. -/
  renewed : ∀ t call result, s.holder = some (t, .startDone call result) →
    Answers s.listener call result
  /-- While nobody holds the mutex, a listener that counts as running has a worker. -/
  alive : s.holder = none → s.listener.running = true → ∃ w, (s.listener.phase w).Runs

theorem Inv.lawful {s : State τ β} (hs : Inv s) : Lawful s where
  once x := by
    rcases hs.settled.1 with hclosed | ⟨y, -, hopen⟩
    · rw [hclosed x]
      split <;> decide
    · rw [hopen x]
      split <;> decide
  closed t hh x hx := by
    rw [(hs.fits t _ hh).2.2 x, if_pos hx]
  unused := hs.unused
  single v w hv hw := by
    rcases hs.settled.2 with hnone | ⟨u, honly⟩
    · exact absurd hv (hnone v)
    · rw [honly v hv, honly w hw]
  renewed t call result hh := (hs.fits t _ hh).2
  alive hh hup := by
    rcases hs.quiet hh with ⟨x, -, -, -, w, -, hworks, -⟩ | hidle | ⟨x, hdown, -⟩
    · exact ⟨w, hworks.runs⟩
    · exact absurd hup (by simp [hidle.1])
    · exact absurd hup (by simp [hdown])

/-- **Every interleaving of calls with the worker is lawful.** -/
theorem lifecycle [DecidableEq τ] (es : List (Event τ β)) : Lawful (run step {} es) := by
  have hrun : Inv (run step ({} : State τ β) es) :=
    run_invariant (fun _ e hs _ => hs.step e) Inv.init (Along.of_forall (p := fun _ => True)
      (fun _ _ => trivial) _)
  exact hrun.lawful

end BambooNet.Lan.Discovery
