import BambooNet.Lib.Bytes
import BambooNet.Lib.Runs
import Mathlib.Logic.Function.Basic

/-!
# File transfer jobs on a tunnel

Each job runs on a thread of its own. It waits for `lan_mu`, connects the tunnel when it is not
connected, talks to the printer, releases `lan_mu` and delivers its result. The host may connect
and shut down the tunnel from any thread, also from within a callback, so that a thread has a stack
of calls.

What the printer and the network do is an input of a step: how dialing ends, and what the code of
a transfer does with the closures it was given, until it returns or throws.

`jobStep_moved` and `callStep_called` say all that a thread can do in a step; invariants are
derived from them.
-/

namespace BambooNet.Lan.FileTransfer

/-! ## Jobs -/

def kCmdTypeDownload : ℤ := 4

def kCmdTypeUpload : ℤ := 5

def kCmdTypeMediaAbility : ℤ := 7

/-- `FT_EIO`. -/
def ftEio : ℤ := -3

/-- `FT_ECANCELLED`. -/
def ftEcancelled : ℤ := -5

def kCameraPreviewMemPath : Bytes := ascii "mem:/26"

structure JobResult where
  ec : ℤ
  respEc : ℤ
  json : Bytes
  bin : Bytes
  deriving DecidableEq

def JobResult.failed (ec : ℤ) (respEc : ℤ) : JobResult := ⟨ec, respEc, [], []⟩

/-- What `query_media_ability`, `upload` and `download` return. -/
structure Outcome where
  ok : Bool
  error : Bytes
  wireResult : ℤ
  jsonBody : Bytes
  data : Bytes

inductive Kind
  | ability
  | upload
  | download
  deriving DecidableEq

/-- The failure of an upload or a download. -/
def failure (o : Outcome) : JobResult :=
  if o.error = ascii "cancelled" then .failed ftEcancelled 0
  else .failed ftEio (if 0 ≤ o.wireResult then o.wireResult else 0)

/-- What a job delivers after its transfer has returned. -/
def resultOf : Kind → Outcome → JobResult
  | .ability, o => if o.ok ∧ o.jsonBody ≠ [] then ⟨0, 0, o.jsonBody, []⟩ else .failed ftEio 0
  | .upload, o => if o.ok then ⟨0, o.wireResult, [], []⟩ else failure o
  | .download, o => if o.ok then ⟨0, o.wireResult, o.jsonBody, o.data⟩ else failure o

/-- Where the thread of a job is; `handler` says that it is in `fail_job_after_exception`. -/
inductive Phase
  | absent
  | spawned
  | waiting (k : Kind)
  /-- With `lan_mu`, before the cache and `connect_lan_tunnel`. -/
  | connecting (k : Kind)
  | transferring (k : Kind)
  /-- In the message callback, which the transfer has called. -/
  | progressing (k : Kind)
  | delivering (r : JobResult) (handler : Bool)
  /-- In the result callback. -/
  | resulting (handler : Bool)
  /-- An exception was caught; `lan_mu` is wanted once more. -/
  | caught
  | dropping
  | checking
  | ended
  deriving DecidableEq

def Phase.holds : Phase → Bool
  | .connecting _ | .transferring _ | .progressing _ | .dropping => true
  | _ => false

def Phase.inCallback : Phase → Bool
  | .progressing _ | .resulting _ => true
  | _ => false

/-- Not yet at `lan_mu`. -/
def Phase.early : Phase → Bool
  | .spawned | .waiting _ => true
  | _ => false

structure Job where
  cmdType : ℤ := 0
  downloadPath : Bytes := []
  /-- `result_cb` is set. -/
  resultCb : Bool := false
  /-- `msg_cb` is set. -/
  msgCb : Bool := false
  cancelled : Bool := false
  finished : Bool := false
  phase : Phase := .absent
  /-- The results that the callback was given. -/
  results : List JobResult := []

/-! ## The tunnel -/

/-- A thread of the host, or that of a job. -/
inductive Thread
  | host (h : ℕ)
  | job (n : ℕ)
  deriving DecidableEq

/-- A call of the interface, by how far it has come. -/
inductive Call
  | shutdownWait
  | shutdownHolds
  /-- `ft_tunnel_start_connect`, or `ft_tunnel_sync_connect`. -/
  | connectWait (sync cb : Bool)
  | connectHolds (sync cb : Bool)
  | connectDone (ok cb : Bool)
  | inConnectCb (ok : Bool)
  | statusNext (ok : Bool)
  | inStatusCb
  deriving DecidableEq

def Call.holds : Call → Bool
  | .shutdownHolds | .connectHolds _ _ => true
  | _ => false

def Call.inCallback : Call → Bool
  | .inConnectCb _ | .inStatusCb => true
  | _ => false

/-- Not yet connected. -/
def Call.connects : Call → Bool
  | .connectWait _ _ | .connectHolds _ _ => true
  | _ => false

inductive Callback
  | connect (ok : Bool)
  | status (ok : Bool)
  | result (n : ℕ) (r : JobResult)
  | message (n : ℕ) (percent : ℤ)

/-- A callback, with whether its thread had `lan_mu`. -/
structure Invocation where
  thread : Thread
  callback : Callback
  locked : Bool

structure State where
  lanMu : Option Thread := none
  /-- `conn` is there and connected. -/
  connected : Bool := false
  abilityCache : Bytes := []
  abilityProbed : Bool := false
  /-- Written and never read. -/
  shutDown : Bool := false
  /-- `status_cb` is set. -/
  statusCb : Bool := false
  disableCameraPreview : Bool := false
  jobs : ℕ → Job := fun _ => {}
  /-- The calls that a thread is in, the innermost first. -/
  calls : Thread → List Call := fun _ => []
  /-- The callbacks that were called. -/
  invoked : List Invocation := []
  /-- `ft_tunnel_shutdown` has returned, and no call to connect was made or is going on since. -/
  final : Bool := false
  /-- The threads in a call to connect. -/
  reconnecting : List Thread := []
  /-- The jobs that had not come to `lan_mu` when the tunnel was shut down, or started later. -/
  late : ℕ → Bool := fun _ => false
  /-- The TLS sessions that were opened, with `final` at that time. -/
  opened : List Bool := []

namespace State

def setPhase (s : State) (n : ℕ) (p : Phase) : State :=
  { s with jobs := Function.update s.jobs n { s.jobs n with phase := p } }

def setCalls (s : State) (t : Thread) (cs : List Call) : State :=
  { s with calls := Function.update s.calls t cs }

def lock (s : State) (t : Thread) : State := { s with lanMu := some t }

def unlock (s : State) : State := { s with lanMu := none }

def invoke (s : State) (t : Thread) (c : Callback) : State :=
  { s with invoked := s.invoked ++ [⟨t, c, decide (s.lanMu = some t)⟩] }

end State

/-! ## Connecting -/

/-- How `Connection::connect` ends. -/
inductive Dial
  /-- `dial_tls` fails. -/
  | refused
  /-- The handshake behind the TLS session fails. -/
  | rejected
  | up
  /-- With an exception, before or after the TLS session was opened. -/
  | threw (open_ : Bool)

def Dial.opens : Dial → Bool
  | .refused => false
  | .rejected | .up => true
  | .threw b => b

/-- The session is dropped when the handshake fails, and stays when an exception comes. -/
def Dial.stays : Dial → Bool
  | .refused | .rejected => false
  | .up => true
  | .threw b => b

def State.dial (s : State) (d : Dial) : State :=
  { s with
    connected := d.stays
    opened := if d.opens then s.opened ++ [s.final] else s.opened }

/-! ## The thread of a job -/

/-- What comes from outside in a step. -/
inductive Io
  | tick
  | dial (d : Dial)
  /-- The transfer calls `cancelled`. -/
  | poll
  /-- It calls `progress`. -/
  | progress (pct : ℤ)
  | returned (o : Outcome)
  | threw

/-- The percentage that `deliver_progress` sends; 99 is reserved. -/
def clampProgress (pct : ℤ) : ℤ :=
  let percent := if pct = 99 then 98 else pct
  if percent < 0 then 0 else if 100 < percent then 100 else percent

/-- The `switch` on the command. -/
def dispatch (disableCameraPreview : Bool) (j : Job) : Phase :=
  if j.cmdType = kCmdTypeMediaAbility then .waiting .ability
  else if j.cmdType = kCmdTypeUpload then .waiting .upload
  else if j.cmdType = kCmdTypeDownload then
    if disableCameraPreview ∧ j.downloadPath = kCameraPreviewMemPath then
      .delivering (.failed ftEio 0) false
    else .waiting .download
  else .delivering (.failed ftEio 0) false

/-- A transfer has returned: an ability is kept. -/
def State.learn (s : State) : Kind → Outcome → State
  | .ability, o => if o.ok then { s with abilityCache := o.jsonBody, abilityProbed := true } else s
  | _, _ => s

/-- `connect_lan_tunnel` of a job, without a session. -/
def State.jobDial (s : State) (n : ℕ) (k : Kind) (d : Dial) : State :=
  match d with
  | .refused | .rejected => (s.dial d).unlock.setPhase n (.delivering (.failed ftEio 0) false)
  | .up => (s.dial d).setPhase n (.transferring k)
  | .threw _ => (s.dial d).unlock.setPhase n .caught

/-- The code of a transfer and its closures; the ability has none. -/
def State.transfer (s : State) (n : ℕ) (k : Kind) : Io → State
  | .poll =>
    if k ≠ .ability ∧ (s.jobs n).cancelled then
      s.unlock.setPhase n (.delivering (.failed ftEcancelled 0) false)
    else s
  | .progress pct =>
    if k ≠ .ability ∧ (s.jobs n).msgCb then
      (s.invoke (.job n) (.message n (clampProgress pct))).setPhase n (.progressing k)
    else s
  | .returned o => (s.unlock.learn k o).setPhase n (.delivering (resultOf k o) false)
  | .threw => s.unlock.setPhase n .caught
  | _ => s

/-- `deliver_result`. -/
def State.deliver (s : State) (n : ℕ) (r : JobResult) (handler : Bool) : State :=
  let j := s.jobs n
  if j.resultCb then
    { s.invoke (.job n) (.result n r) with
      jobs := Function.update s.jobs n
        { j with finished := true, results := j.results ++ [r], phase := .resulting handler } }
  else
    { s with jobs := Function.update s.jobs n { j with finished := true, phase := .ended } }

/-- The next step of the thread of a job. -/
def jobStep (s : State) (n : ℕ) (io : Io) : State :=
  match (s.jobs n).phase with
  | .absent | .ended => s
  | .spawned => s.setPhase n (dispatch s.disableCameraPreview (s.jobs n))
  | .waiting k => if s.lanMu = none then (s.lock (.job n)).setPhase n (.connecting k) else s
  | .connecting k =>
    if k = .ability ∧ s.abilityProbed then
      s.unlock.setPhase n (.delivering ⟨0, 0, s.abilityCache, []⟩ false)
    else if s.connected then s.setPhase n (.transferring k)
    else
      match io with
      | .dial d => s.jobDial n k d
      | _ => s
  | .transferring k => s.transfer n k io
  | .progressing k =>
    match io with
    | .threw => s.unlock.setPhase n .caught
    | _ => s.setPhase n (.transferring k)
  | .delivering r handler => s.deliver n r handler
  | .resulting handler =>
    match io with
    | .threw => if handler then s else s.setPhase n .caught
    | _ => s.setPhase n .ended
  | .caught => if s.lanMu = none then (s.lock (.job n)).setPhase n .dropping else s
  | .dropping => { s.unlock.setPhase n .checking with connected := false }
  | .checking =>
    s.setPhase n (if (s.jobs n).finished then .ended else .delivering (.failed ftEio 0) true)

/-! ## The calls of the host -/

/-- `ft_tunnel_shutdown` returns. -/
def State.shutdownReturns (s : State) : State :=
  if s.reconnecting = [] then
    { s with final := true, late := fun n => s.late n || (s.jobs n).phase.early }
  else s

/-- `connect_lan_tunnel` of a call has returned. -/
def State.connectReturns (s : State) (t : Thread) (sync cb ok : Bool) (cs : List Call) : State :=
  { s.unlock.setCalls t (if sync then cs else .connectDone ok cb :: cs) with
    reconnecting := s.reconnecting.erase t }

/-- The next step of the innermost call `c` of a thread, within the calls `cs`. -/
def callStep (s : State) (t : Thread) (c : Call) (cs : List Call) (io : Io) : State :=
  match c with
  | .shutdownWait => if s.lanMu = none then (s.lock t).setCalls t (.shutdownHolds :: cs) else s
  | .shutdownHolds => ({ s with connected := false }.unlock.setCalls t cs).shutdownReturns
  | .connectWait sync cb =>
    if s.lanMu = none then (s.lock t).setCalls t (.connectHolds sync cb :: cs) else s
  | .connectHolds sync cb =>
    if s.connected then s.connectReturns t sync cb true cs
    else
      match io with
      | .dial .refused => (s.dial .refused).connectReturns t sync cb false cs
      | .dial .rejected => (s.dial .rejected).connectReturns t sync cb false cs
      | .dial .up => (s.dial .up).connectReturns t sync cb true cs
      | _ => s
  | .connectDone ok cb =>
    if cb then (s.invoke t (.connect ok)).setCalls t (.inConnectCb ok :: cs)
    else s.setCalls t (.statusNext ok :: cs)
  | .inConnectCb ok => s.setCalls t (.statusNext ok :: cs)
  | .statusNext ok =>
    if s.statusCb then (s.invoke t (.status ok)).setCalls t (.inStatusCb :: cs)
    else s.setCalls t cs
  | .inStatusCb => s.setCalls t cs

/-- A thread can make a call: within a callback, or when it is the host's own. -/
def State.mayCall (s : State) (t : Thread) : Bool :=
  match s.calls t, t with
  | c :: _, _ => c.inCallback
  | [], .host _ => true
  | [], .job n => (s.jobs n).phase.inCallback

inductive Event
  /-- `ft_tunnel_start_job`. -/
  | startJob (n : ℕ) (cmdType : ℤ) (downloadPath : Bytes) (resultCb msgCb : Bool)
  /-- `ft_job_cancel`. -/
  | cancel (n : ℕ)
  | setStatusCb (statusCb : Bool)
  | configure (disableCameraPreview : Bool)
  | shutdown (t : Thread)
  | connect (t : Thread) (sync cb : Bool)
  /-- The thread of a job goes on. -/
  | job (n : ℕ) (io : Io)
  /-- The innermost call of a thread goes on. -/
  | call (t : Thread) (io : Io)

def step (s : State) : Event → State
  | .startJob n cmdType downloadPath resultCb msgCb =>
    if (s.jobs n).phase = .absent then
      { s with
        jobs := Function.update s.jobs n
          { cmdType, downloadPath, resultCb, msgCb, phase := .spawned
            cancelled := (s.jobs n).cancelled }
        late := Function.update s.late n s.final }
    else s
  | .cancel n => { s with jobs := Function.update s.jobs n { s.jobs n with cancelled := true } }
  | .setStatusCb statusCb => { s with statusCb }
  | .configure disableCameraPreview => { s with disableCameraPreview }
  | .shutdown t =>
    if s.mayCall t then { s.setCalls t (.shutdownWait :: s.calls t) with shutDown := true } else s
  | .connect t sync cb =>
    if s.mayCall t then
      { s.setCalls t (.connectWait sync cb :: s.calls t) with
        final := false, late := fun _ => false, reconnecting := t :: s.reconnecting }
    else s
  | .job n io => if s.calls (.job n) = [] then jobStep s n io else s
  | .call t io =>
    match s.calls t with
    | [] => s
    | c :: cs => callStep s t c cs io

def initial : State := {}

/-! ## What a step of a job does -/

/-- All that the thread of a job can do in a step. -/
inductive Moved (s : State) (n : ℕ) (io : Io) : State → Prop
  | stay : Moved s n io s
  | dispatched (hp : (s.jobs n).phase = .spawned) :
    Moved s n io (s.setPhase n (dispatch s.disableCameraPreview (s.jobs n)))
  | acquired {k : Kind} (hp : (s.jobs n).phase = .waiting k) (hfree : s.lanMu = none) :
    Moved s n io ((s.lock (.job n)).setPhase n (.connecting k))
  | cached (hp : (s.jobs n).phase = .connecting .ability) (hprobed : s.abilityProbed) :
    Moved s n io (s.unlock.setPhase n (.delivering ⟨0, 0, s.abilityCache, []⟩ false))
  | reused {k : Kind} (hp : (s.jobs n).phase = .connecting k) (hconnected : s.connected) :
    Moved s n io (s.setPhase n (.transferring k))
  | dialed {k : Kind} {d : Dial} (hp : (s.jobs n).phase = .connecting k) (hio : io = .dial d) :
    Moved s n io (s.jobDial n k d)
  | cancelled {k : Kind} (hp : (s.jobs n).phase = .transferring k) :
    Moved s n io (s.unlock.setPhase n (.delivering (.failed ftEcancelled 0) false))
  | message {k : Kind} {pct : ℤ} (hp : (s.jobs n).phase = .transferring k) (hk : k ≠ .ability)
    (hcb : (s.jobs n).msgCb) (hio : io = .progress pct) :
    Moved s n io ((s.invoke (.job n) (.message n (clampProgress pct))).setPhase n (.progressing k))
  | returned {k : Kind} {o : Outcome} (hp : (s.jobs n).phase = .transferring k) :
    Moved s n io ((s.unlock.learn k o).setPhase n (.delivering (resultOf k o) false))
  | threw {k : Kind} (hp : (s.jobs n).phase = .transferring k ∨ (s.jobs n).phase = .progressing k) :
    Moved s n io (s.unlock.setPhase n .caught)
  | resumed {k : Kind} (hp : (s.jobs n).phase = .progressing k) :
    Moved s n io (s.setPhase n (.transferring k))
  | delivered {r : JobResult} {handler : Bool} (hp : (s.jobs n).phase = .delivering r handler) :
    Moved s n io (s.deliver n r handler)
  | left {handler : Bool} (hp : (s.jobs n).phase = .resulting handler) :
    Moved s n io (s.setPhase n .ended)
  | raised (hp : (s.jobs n).phase = .resulting false) : Moved s n io (s.setPhase n .caught)
  | handled (hp : (s.jobs n).phase = .caught) (hfree : s.lanMu = none) :
    Moved s n io ((s.lock (.job n)).setPhase n .dropping)
  | dropped (hp : (s.jobs n).phase = .dropping) :
    Moved s n io { s.unlock.setPhase n .checking with connected := false }
  | checked (hp : (s.jobs n).phase = .checking) : Moved s n io
    (s.setPhase n (if (s.jobs n).finished then .ended else .delivering (.failed ftEio 0) true))

theorem transfer_moved {s : State} {n : ℕ} {k : Kind} (hp : (s.jobs n).phase = .transferring k)
    (io : Io) : Moved s n io (s.transfer n k io) := by
  cases io with
  | tick | dial => exact .stay
  | returned o => exact .returned hp
  | threw => exact .threw (.inl hp)
  | poll =>
    rw [State.transfer]
    split
    · exact .cancelled hp
    · exact .stay
  | progress pct =>
    rw [State.transfer]
    split
    · rename_i h
      exact .message hp h.1 h.2 rfl
    · exact .stay

theorem jobStep_moved (s : State) (n : ℕ) (io : Io) : Moved s n io (jobStep s n io) := by
  unfold jobStep
  cases hp : (s.jobs n).phase with
  | absent | ended => exact .stay
  | spawned => exact .dispatched hp
  | transferring k => exact transfer_moved hp io
  | delivering r handler => exact .delivered hp
  | dropping => exact .dropped hp
  | checking => exact .checked hp
  | waiting k =>
    by_cases hfree : s.lanMu = none
    · simpa only [hfree, if_true] using Moved.acquired hp hfree
    · simpa only [hfree, if_false] using Moved.stay
  | caught =>
    by_cases hfree : s.lanMu = none
    · simpa only [hfree, if_true] using Moved.handled hp hfree
    · simpa only [hfree, if_false] using Moved.stay
  | connecting k =>
    dsimp only
    split
    · rename_i h
      obtain ⟨rfl, hprobed⟩ := h
      exact .cached hp hprobed
    split
    · rename_i hconnected
      exact .reused hp hconnected
    cases io with
    | dial d => exact .dialed hp rfl
    | _ => exact .stay
  | progressing k =>
    cases io with
    | threw => exact .threw (.inr hp)
    | _ => exact .resumed hp
  | resulting handler =>
    cases io with
    | threw =>
      cases handler with
      | true => exact .stay
      | false => exact .raised hp
    | _ => exact .left hp

/-! ## What a step of a call does -/

/-- All that the innermost call `c` of a thread can do in a step. -/
inductive Called (s : State) (t : Thread) (cs : List Call) (io : Io) : Call → State → Prop
  | stay {c : Call} : Called s t cs io c s
  | shutdownAcquired (hfree : s.lanMu = none) :
    Called s t cs io .shutdownWait ((s.lock t).setCalls t (.shutdownHolds :: cs))
  | connectAcquired {sync cb : Bool} (hfree : s.lanMu = none) :
    Called s t cs io (.connectWait sync cb) ((s.lock t).setCalls t (.connectHolds sync cb :: cs))
  | shutdown : Called s t cs io .shutdownHolds
    ({ s with connected := false }.unlock.setCalls t cs).shutdownReturns
  | reused {sync cb : Bool} : Called s t cs io (.connectHolds sync cb)
    (s.connectReturns t sync cb true cs)
  | dialed {sync cb : Bool} {d : Dial} : Called s t cs io (.connectHolds sync cb)
    ((s.dial d).connectReturns t sync cb d.stays cs)
  | invoked {c c' : Call} {k : Callback} (hc : c.holds = false) (hc' : c'.inCallback = true) :
    Called s t cs io c ((s.invoke t k).setCalls t (c' :: cs))
  | moved {c c' : Call} (hc : c.holds = false) (hc' : c'.holds = false)
    (hconnects : c'.connects = false) : Called s t cs io c (s.setCalls t (c' :: cs))
  | left {c : Call} (hc : c.holds = false) : Called s t cs io c (s.setCalls t cs)

theorem callStep_called (s : State) (t : Thread) (c : Call) (cs : List Call) (io : Io) :
    Called s t cs io c (callStep s t c cs io) := by
  cases c with
  | shutdownWait =>
    rw [callStep]
    split
    · exact .shutdownAcquired ‹_›
    · exact .stay
  | shutdownHolds => exact .shutdown
  | connectWait sync cb =>
    rw [callStep]
    split
    · exact .connectAcquired ‹_›
    · exact .stay
  | connectHolds sync cb =>
    unfold callStep
    dsimp only
    split
    · exact .reused
    cases io with
    | dial d =>
      cases d with
      | refused => exact .dialed (d := .refused)
      | rejected => exact .dialed (d := .rejected)
      | up => exact .dialed (d := .up)
      | threw => exact .stay
    | _ => exact .stay
  | connectDone ok cb =>
    rw [callStep]
    split
    · exact .invoked rfl rfl
    · exact .moved rfl rfl rfl
  | inConnectCb ok => exact .moved rfl rfl rfl
  | statusNext ok =>
    rw [callStep]
    split
    · exact .invoked rfl rfl
    · exact .left rfl
  | inStatusCb => exact .left rfl

end BambooNet.Lan.FileTransfer
