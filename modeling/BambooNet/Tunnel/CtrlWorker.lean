import BambooNet.Lib.Runs
import BambooNet.Tunnel.Session

/-!
# The worker of the control channel

Requests are queued by `Bambu_SendMessage` and answered one by one: the worker forwards a request to
the printer and passes on what it reads until a reply is not a Continue.

**What stops it** is any such frame and any read that comes back without a frame. Neither has to do
with the sequence of the request, so a request is known to be answered before the next one is taken
only in runs where both are as they should be (`answered_run`).
-/

namespace BambooNet.Tunnel.Ctrl

open Json

/-! ## Requests and replies -/

def kCmdFileDownload : ℤ := 0x0004

def kResContinue : ℤ := 1

def kCameraPreviewMemPath : Bytes := ascii "mem:/26"

/-- The commands that the FTPS bridge serves. -/
def ftpsCommands : List ℤ := [0x0007, 0x0001, 0x0002, 0x0004, 0x0003, 0x1000]

/-- The text before the first empty line. -/
def jsonPart : Bytes → Bytes
  | 0x0a :: 0x0a :: _ => []
  | c :: wire => c :: jsonPart wire
  | [] => []

/-- `static_cast<int>` of a double: towards zero, and the lowest integer when out of range. -/
def toInt (x : Double) : ℤ :=
  match x.toInt64 with
  | none => -2 ^ 31
  | some i => if -2 ^ 31 ≤ i ∧ i < 2 ^ 31 then i else -2 ^ 31

structure CtrlRequest where
  cmdtype : ℤ
  sequence : ℤ
  req : Value

def parseCtrlRequest (wire : Bytes) : Option CtrlRequest :=
  match parse (jsonPart wire) with
  | .error _ => none
  | .ok v =>
    match v.find (ascii "cmdtype"), v.find (ascii "sequence") with
    | .number cmdtype, .number sequence =>
      some ⟨toInt cmdtype, toInt sequence, v.find (ascii "req")⟩
    | _, _ => none

/-- An integer field of a reply, -1 when the reply does not parse. -/
def replyField (field wire : Bytes) : ℤ := parseWireField field (jsonPart wire)

/-- A reply that ends the request with the given sequence. -/
def Terminal (sequence : ℤ) (wire : Bytes) : Prop :=
  replyField (ascii "result") wire ≠ kResContinue ∧ replyField (ascii "sequence") wire = sequence

structure Config where
  previewDisabled : Bool
  ftpsBridge : Bool

/-- Whether a request is answered without the printer. -/
def servedLocally (cfg : Config) (body : Bytes) : Bool :=
  match parseCtrlRequest body with
  | none => false
  | some r =>
    let path := (r.req.find (ascii "path")).asString
    let path := if path = [] then (r.req.find (ascii "file")).asString else path
    (r.cmdtype = kCmdFileDownload && cfg.previewDisabled && path = kCameraPreviewMemPath) ||
      (cfg.ftpsBridge && r.cmdtype ∈ ftpsCommands)

/-! ## The worker -/

/-- A request that was forwarded, with the replies that were passed on for it. -/
structure Served where
  body : Bytes
  replies : List Bytes

def Served.sequence (srv : Served) : Option ℤ := (parseCtrlRequest srv.body).map (·.sequence)

structure State where
  ctrlIn : List Bytes := []
  ctrlOut : List Bytes := []
  recvBuf : Bytes := []
  /-- The request whose replies are read. -/
  current : Option Served := none
  /-- The requests that were forwarded before. -/
  served : List Served := []
  /-- No send and no read has failed. -/
  up : Bool := true

inductive CtrlEvent
  /-- `Bambu_SendMessage`. -/
  | send (body : Bytes)
  /-- The worker takes the next request. When it is served locally the replies are `replies`; `sent`
  tells whether it can be sent. -/
  | take (replies : List Bytes) (sent : Bool)
  /-- The worker reads, and the transport does `es`. -/
  | recv (es : List Event)

/-- The worker takes a request. -/
def take (cfg : Config) (s : State) (body : Bytes) (replies : List Bytes) (sent : Bool) : State :=
  if servedLocally cfg body then { s with ctrlOut := s.ctrlOut ++ replies }
  else if sent then { s with current := some ⟨body, []⟩ }
  else { s with up := false }

/-- The worker is done with a request. -/
def finish (s : State) (srv : Served) : State :=
  { s with current := none, served := s.served ++ [srv] }

/-- A call of `recv_payload` comes back. -/
def received (s : State) (srv : Served) : Recv → State
  | .payload wire =>
    let srv := { srv with replies := srv.replies ++ [wire] }
    let s := { s with ctrlOut := s.ctrlOut ++ [wire] }
    if replyField (ascii "result") wire ≠ kResContinue then finish s srv
    else { s with current := some srv }
  | .wouldBlock | .late => finish s srv
  | .failed | .fault => { finish s srv with up := false }
  | .waiting => s

/-- `native_ctrl_send_worker` and the requests that come in. Events that are not possible in a
state leave it as it is. -/
def step (cfg : Config) (s : State) : CtrlEvent → State
  | .send body => { s with ctrlIn := s.ctrlIn ++ [body] }
  | .take replies sent =>
    match s.current, s.ctrlIn with
    | none, body :: ctrlIn => take cfg { s with ctrlIn := ctrlIn } body replies sent
    | _, _ => s
  | .recv es =>
    match s.current with
    | none => s
    | some srv =>
      let r := recvPayloadUntil s.recvBuf es
      received { s with recvBuf := r.2.1 } srv r.1

/-! ## When a request is answered -/

/-- A read gives a frame or waits, and a frame that is not a Continue carries the sequence of the
request. What an error of the connection leads to is left open. -/
def InOrder (s : State) : CtrlEvent → Prop
  | .recv es => ∀ srv, s.current = some srv →
    match (recvPayloadUntil s.recvBuf es).1 with
    | .payload wire => replyField (ascii "result") wire ≠ kResContinue →
        ∀ q, srv.sequence = some q → replyField (ascii "sequence") wire = q
    | .wouldBlock | .late => False
    | .failed | .fault | .waiting => True
  | .send _ | .take _ _ => True

/-- While the connection is up, every request that the worker is done with has its terminal reply
among the replies that were passed on for it. -/
def Answered (s : State) : Prop :=
  s.up → ∀ srv ∈ s.served, ∀ q, srv.sequence = some q →
    ∃ wire ∈ srv.replies, wire ∈ s.ctrlOut ∧ Terminal q wire

variable {cfg : Config} {s : State} {srv : Served}

theorem Answered.push (h : Answered s) (wires : List Bytes) :
    Answered { s with ctrlOut := s.ctrlOut ++ wires } := by
  intro hup srv hsrv q hq
  obtain ⟨wire, hwire, hout, hterminal⟩ := h hup srv hsrv q hq
  exact ⟨wire, hwire, List.mem_append_left _ hout, hterminal⟩

theorem Answered.finish (h : Answered s) (hsrv : ∀ q, srv.sequence = some q →
    ∃ wire ∈ srv.replies, wire ∈ s.ctrlOut ∧ Terminal q wire) : Answered (finish s srv) := by
  intro hup
  simp only [Ctrl.finish, List.mem_append, List.mem_singleton]
  rintro srv' (hmem | rfl)
  · exact h hup srv' hmem
  · exact hsrv

theorem Answered.received (h : Answered s) (r : Recv)
    (hr : match r with
      | .payload wire => replyField (ascii "result") wire ≠ kResContinue →
          ∀ q, srv.sequence = some q → replyField (ascii "sequence") wire = q
      | .wouldBlock | .late => False
      | .failed | .fault | .waiting => True) :
    Answered (received s srv r) := by
  cases r with
  | payload wire =>
    rw [Ctrl.received]
    have hpush := h.push [wire]
    split
    · next hresult =>
      refine hpush.finish fun q hq => ⟨wire, ?_, ?_, hresult, hr hresult q hq⟩
      · exact List.mem_append_right _ List.mem_cons_self
      · exact List.mem_append_right _ List.mem_cons_self
    · exact hpush
  | wouldBlock | late => exact hr.elim
  | failed | fault => exact fun hup => nomatch hup
  | waiting => exact h

/-- One step keeps it so. -/
theorem Answered.step (h : Answered s) (e : CtrlEvent) (he : InOrder s e) :
    Answered (step cfg s e) := by
  cases e with
  | send body => exact h
  | take replies sent =>
    rw [Ctrl.step]
    split
    · rw [take]
      split
      · exact Answered.push h replies
      split
      · exact h
      · exact fun hup => nomatch hup
    · exact h
  | recv es =>
    rw [Ctrl.step]
    split
    · exact h
    · next srv hcurrent =>
      exact Answered.received (s := { s with recvBuf := (recvPayloadUntil s.recvBuf es).2.1 }) h _
        (he srv hcurrent)

/-- **No request is taken before the one before it is answered**, in every run whose reads all give
frames, the first that is not a Continue with the sequence of the request. -/
theorem answered_run (cfg : Config) (es : List CtrlEvent) (h : Along (step cfg) InOrder {} es) :
    Answered (run (step cfg) {} es) := by
  have hinit : Answered {} := fun _ srv hsrv => absurd hsrv List.not_mem_nil
  exact @run_invariant _ _ (step cfg) Answered InOrder (fun _ e hs he => hs.step e he)
    _ _ hinit h

/-- A frame with the given payload. -/
def frame (payload : Bytes) : Bytes :=
  UInt8.ofNat payload.length :: List.replicate 15 0 ++ payload

def request (sequence : Bytes) : Bytes :=
  ascii "\x7b\"cmdtype\":9,\"sequence\":" ++ sequence ++ ascii "\x7d"

def reply (sequence : Bytes) : Bytes :=
  ascii "\x7b\"result\":0,\"sequence\":" ++ sequence ++ ascii "\x7d"

def continued (sequence : Bytes) : Bytes :=
  ascii "\x7b\"result\":1,\"sequence\":" ++ sequence ++ ascii "\x7d"

/-- Two requests, of which the first is continued before it is answered. -/
def twoRequests : List CtrlEvent :=
  [.send (request (ascii "1")), .send (request (ascii "2")), .take [] true,
    .recv [.read (frame (continued (ascii "1")))], .recv [.read (frame (reply (ascii "1")))],
    .take [] true, .recv [.read (frame (reply (ascii "2")))]]

theorem answered_run_two :
    let s := run (step ⟨false, false⟩) {} twoRequests
    Answered s ∧ s.up = true ∧ s.served.map Served.sequence = [some 1, some 2] := by
  refine ⟨answered_run _ twoRequests ⟨trivial, trivial, trivial, fun srv hsrv => ?_,
    fun srv hsrv => ?_, trivial, fun srv hsrv => ?_, trivial⟩, rfl, rfl⟩
  · obtain rfl := Option.some.inj hsrv
    intro hend
    exact absurd (show replyField (ascii "result") (continued (ascii "1")) = kResContinue by decide)
      hend
  · obtain rfl := Option.some.inj hsrv
    intro _ q hq
    obtain rfl := Option.some.inj hq
    decide
  · obtain rfl := Option.some.inj hsrv
    intro _ q hq
    obtain rfl := Option.some.inj hq
    decide

/-- A read that has to wait ends the first request, and its reply is passed on for the second. -/
theorem reply_shifted :
    let s := run (step ⟨false, false⟩) {} [.send (request (ascii "1")), .send (request (ascii "2")),
      .take [] true, .recv [.wouldBlock], .take [] true, .recv [.read (frame (reply (ascii "1")))]]
    ¬ Answered s ∧ s.up ∧ ∃ srv ∈ s.served, srv.sequence = some 2 ∧
      ∃ wire ∈ srv.replies, Terminal 1 wire := by
  intro s
  have hserved : s.served =
      [⟨request (ascii "1"), []⟩, ⟨request (ascii "2"), [reply (ascii "1")]⟩] := rfl
  have hup : s.up = true := rfl
  have hfirst : Served.sequence ⟨request (ascii "1"), []⟩ = some 1 := rfl
  refine ⟨fun h => ?_, hup, _, hserved ▸ List.mem_cons_of_mem _ List.mem_cons_self, rfl, _,
    List.mem_cons_self, by unfold Terminal; decide⟩
  obtain ⟨wire, hwire, -⟩ := h hup _ (hserved ▸ List.mem_cons_self) 1 hfirst
  exact absurd hwire List.not_mem_nil

end BambooNet.Tunnel.Ctrl
