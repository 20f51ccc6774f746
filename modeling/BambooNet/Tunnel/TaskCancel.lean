import BambooNet.Tunnel.FtpsHandlers
import Mathlib.Data.Finset.Basic

/-!
# Cancelling a task

In the FTPS bridge a TASK_CANCEL puts the sequences that it names into a set. A transfer asks for
its own sequence now and then, and takes it out of the set when it is done.

**One worker** serves all requests. A TASK_CANCEL that is sent while a transfer is served is taken
when the transfer is over: the transfer is not cancelled by it, and it leaves the sequence of a
request that has ended behind. What is cancelled is a transfer whose sequence was in the set before
the worker took it (`obeyed_run`, `uncancelled_run`).
-/

namespace BambooNet.Tunnel.Ftps

open Json
open Ctrl (CtrlRequest parseCtrlRequest toInt kCameraPreviewMemPath)

/-! ## Requests -/

/-- `static_cast<int>` of a task. -/
def taskNumber : Value → ℤ
  | .number x => toInt x
  | _ => 0

/-- The sequences that a TASK_CANCEL names. -/
def tasksOf (req : Value) : List ℤ := (req.find (ascii "tasks")).asArray.map taskNumber

/-- The sequences that a message asks to cancel. -/
def cancels (body : Bytes) : List ℤ :=
  match parseCtrlRequest body with
  | some r => if r.cmdtype = kCmdTaskCancel then tasksOf r.req else []
  | none => []

/-- What the worker does for a request, and whether it takes the sequence out of the cancelled set
when it is done. -/
structure Task where
  guarded : Bool
  program : Handler Unit

def taskReply (sequence : ℤ) (tasks : List ℤ) : Reply where
  env := makeReplyEnvelope kCmdTaskCancel sequence kResOK
    (.object [(ascii "tasks", .array (tasks.map fun n => .number (.int n)))])
  blob := []

def ftpsHandleTaskCancel (sequence : ℤ) (req : Value) : Handler Unit :=
  .perform (.cancel (tasksOf req)) fun _ => pushReply (taskReply sequence (tasksOf req))

/-- The requests that are served by the bridge. -/
def ftpsDispatch (md5 : Bytes → Bytes) (r : CtrlRequest) (st : Storage) : Option Task :=
  if r.cmdtype = kCmdRequestMediaAbility then some ⟨false, pushReply st.answer⟩
  else if r.cmdtype = kCmdListInfo then some ⟨false, pushReply st.answer⟩
  else if r.cmdtype = kCmdSubFile then
    some ⟨true, Handler.ftpsHandleSubFile r.sequence r.req st⟩
  else if r.cmdtype = kCmdFileDownload then
    some ⟨true, Handler.ftpsHandleFileDownload md5 r.sequence r.req st⟩
  else if r.cmdtype = kCmdFileDel then some ⟨false, pushReply st.answer⟩
  else if r.cmdtype = kCmdTaskCancel then some ⟨false, ftpsHandleTaskCancel r.sequence r.req⟩
  else none

def stubBlockedMemDownload (sequence : ℤ) (path : Bytes) : Reply where
  env := makeReplyEnvelope kCmdFileDownload sequence kResFileNoExist (.object (Entries.ofList
    [(ascii "path", .string path), (ascii "offset", .number (.int 0)),
      (ascii "total", .number (.int 0)), (ascii "size", .number (.int 0))]))
  blob := []

/-- A request that the bridge does not serve is forwarded. -/
def forward (st : Storage) : Task := ⟨false, st.frames.forM pushWire⟩

/-- A download of the preview is not served when the preview is disabled. -/
def blocked (previewDisabled : Bool) (r : CtrlRequest) : Bool :=
  r.cmdtype = kCmdFileDownload && previewDisabled && downloadPath r.req = kCameraPreviewMemPath

def taskOf (md5 : Bytes → Bytes) (previewDisabled : Bool) (r : CtrlRequest) (st : Storage) : Task :=
  if blocked previewDisabled r then
    ⟨false, pushReply (stubBlockedMemDownload r.sequence (downloadPath r.req))⟩
  else (ftpsDispatch md5 r st).getD (forward st)

/-! ## The worker -/

/-- A request that is served. -/
structure Service where
  request : Option CtrlRequest
  task : Task
  /-- What is left to do. -/
  rest : Handler Unit
  /-- Its sequence was in the cancelled set when it was taken. -/
  marked : Bool
  /-- The replies that were pushed for it. -/
  replies : List Reply := []
  /-- A TASK_CANCEL has named it since it was taken. -/
  accepted : Bool := false
  /-- The chunks that were pushed since then. -/
  further : ℕ := 0

def Service.sequence (srv : Service) : Option ℤ := srv.request.map (·.sequence)

/-- FILE_DOWNLOAD and SUB_FILE. -/
def Service.transfer (srv : Service) : Bool :=
  srv.request.any fun r => r.cmdtype = kCmdFileDownload || r.cmdtype = kCmdSubFile

/-- A reply that has a chunk of data. -/
def Reply.isChunk (r : Reply) : Bool :=
  r.result.asInt (-1) = kResOK || r.result.asInt (-1) = kResContinue

structure State where
  ctrlIn : List Bytes := []
  ctrlOut : List Bytes := []
  cancelled : Finset ℤ := ∅
  serving : Option Service := none
  /-- The requests that have ended. -/
  done : List Service := []

/-- The sequences of the requests that have ended. -/
def State.ended (s : State) : List ℤ := s.done.filterMap Service.sequence

inductive CancelEvent
  /-- `Bambu_SendMessage`. -/
  | send (body : Bytes)
  /-- The worker takes the next request, and the printer does `st` for it. -/
  | take (st : Storage)
  /-- The worker does the next thing for its request, or is done with it. -/
  | work

/-- A message comes while a request is served. -/
def Service.note (body : Bytes) (srv : Service) : Service :=
  { srv with accepted := srv.accepted ||
      (srv.transfer && srv.sequence.any fun n => (cancels body).contains n) }

def start (md5 : Bytes → Bytes) (previewDisabled : Bool) (cancelled : Finset ℤ) (body : Bytes)
    (st : Storage) : Service :=
  let request := parseCtrlRequest body
  let task := (request.map fun r => taskOf md5 previewDisabled r st).getD (forward st)
  { request, task, rest := task.program, marked := request.any fun r => r.sequence ∈ cancelled }

def Service.push (srv : Service) (r : Reply) : Service :=
  { srv with
    replies := srv.replies ++ [r]
    further := if srv.accepted && r.isChunk then srv.further + 1 else srv.further }

/-- The cancelled set is emptied when it is large, and takes the tasks in. -/
def addTasks (cancelled : Finset ℤ) (tasks : List ℤ) : Finset ℤ :=
  (if 256 < cancelled.card then ∅ else cancelled) ∪ tasks.toFinset

/-- The worker is done with a request. -/
def finish (s : State) (srv : Service) : State :=
  { s with
    serving := none
    done := s.done ++ [srv]
    cancelled := match srv.sequence with
      | some n => if srv.task.guarded then s.cancelled.erase n else s.cancelled
      | none => s.cancelled }

def work (s : State) (srv : Service) : State :=
  match srv.rest with
  | .pure _ => finish s srv
  | .perform (.isCancelled n) next =>
    { s with serving := some { srv with rest := next (decide (n ∈ s.cancelled)) } }
  | .perform (.pushReply r) next =>
    { s with
      ctrlOut := s.ctrlOut ++ [makeWireReply r]
      serving := some { srv.push r with rest := next () } }
  | .perform (.pushWire wire) next =>
    { s with ctrlOut := s.ctrlOut ++ [wire], serving := some { srv with rest := next () } }
  | .perform (.cancel tasks) next =>
    { s with
      cancelled := addTasks s.cancelled tasks
      serving := some { srv with rest := next () } }
  | .perform .crash _ => s

/-- `native_ctrl_send_worker` and the messages that come in. Events that are not possible in a state
leave it as it is. -/
def cancelStep (md5 : Bytes → Bytes) (previewDisabled : Bool) (s : State) : CancelEvent → State
  | .send body =>
    { s with ctrlIn := s.ctrlIn ++ [body], serving := s.serving.map (Service.note body) }
  | .take st =>
    match s.serving, s.ctrlIn with
    | none, body :: ctrlIn =>
      { s with ctrlIn, serving := some (start md5 previewDisabled s.cancelled body st) }
    | _, _ => s
  | .work =>
    match s.serving with
    | none => s
    | some srv => work s srv

/-! ## When cancelling works -/

/-- A transfer that was named while it was served ends with Cancelled after at most one more chunk,
and the set has no sequence of a request that has ended. -/
structure Obeyed (s : State) : Prop where
  serving : ∀ srv ∈ s.serving, srv.accepted → srv.further ≤ 1
  done : ∀ srv ∈ s.done, srv.accepted → srv.further ≤ 1 ∧
    ∃ r, srv.replies.getLast? = some r ∧ r.result = .number (.int kResErrCancel)
  stale : ∀ n ∈ s.ended, n ∉ s.cancelled

/-- A request that leaves no sequence of an ended one in the set: a guarded one, a TASK_CANCEL that
names neither itself nor an ended one, and another whose sequence is not in the set. A sequence that
is in the set goes when the set is emptied. -/
def Fresh (s : State) (guarded : Bool) (r : CtrlRequest) : Prop :=
  if guarded then True
  else if r.cmdtype = kCmdTaskCancel then
    (∀ n ∈ tasksOf r.req, n ≠ r.sequence ∧ n ∉ s.ended) ∧
      (r.sequence ∈ s.cancelled → 256 < s.cancelled.card)
  else r.sequence ∉ s.cancelled

/-- A transfer is named while it is served only when its sequence is in the set and it asks. -/
def Heeded (md5 : Bytes → Bytes) (previewDisabled : Bool) (s : State) : CancelEvent → Prop
  | .send body => ∀ srv ∈ s.serving, srv.transfer → ∀ n ∈ srv.sequence, n ∈ cancels body →
      n ∈ s.cancelled ∧ srv.task.program.polls
  | .take st => s.serving = none → ∀ body ∈ s.ctrlIn.head?, ∀ r ∈ parseCtrlRequest body,
      Fresh s (taskOf md5 previewDisabled r st).guarded r
  | .work => True

/-! ## Which transfers are cancelled -/

/-- The transfer will be told that it is cancelled. -/
def Service.doomed (srv : Service) : Bool := srv.marked && srv.task.program.polls

/-- A transfer that is told has one reply, Cancelled, and one that is not has none. -/
structure Outcome (srv : Service) : Prop where
  doomed : srv.doomed = true → srv.further = 0 ∧
    ∃ r, srv.replies = [r] ∧ r.result = .number (.int kResErrCancel)
  safe : srv.doomed = false → ∀ r ∈ srv.replies, r.result ≠ .number (.int kResErrCancel)

/-- The stages of a transfer that is told. -/
inductive Telling (n : ℤ) (rest : Handler Unit) (replies : List Reply) : Prop
  | asks (hrest : Handler.Prompt n rest) (hpolls : rest.polls) (hreplies : replies = [])
  | answers (r : Reply) (hr : r.result = .number (.int kResErrCancel))
      (hrest : rest = pushReply r) (hreplies : replies = [])
  | told (r : Reply) (hr : r.result = .number (.int kResErrCancel)) (hrest : rest = .pure ())
      (hreplies : replies = [r])

/-- What holds of a transfer while it is served. -/
structure Tracked (cancelled : Finset ℤ) (srv : Service) (n : ℤ) : Prop where
  sequence : srv.sequence = some n
  marked : srv.marked = decide (n ∈ cancelled)
  doomed : srv.doomed = true → srv.further = 0 ∧ Telling n srv.rest srv.replies
  safe : srv.doomed = false →
    srv.rest.Ensures (Handler.Permit n false) (Handler.Answers srv.marked) (fun _ => True) ∧
      ∀ r ∈ srv.replies, r.result ≠ .number (.int kResErrCancel)

structure Inv (s : State) : Prop where
  serving : ∀ srv ∈ s.serving, srv.transfer → ∃ n, Tracked s.cancelled srv n
  done : ∀ srv ∈ s.done, srv.transfer → Outcome srv

section
variable {md5 : Bytes → Bytes} {previewDisabled : Bool} {s : State} {srv : Service} {n : ℤ}

theorem taskOf_transfer {r : CtrlRequest} (hr : r.cmdtype = kCmdFileDownload ∨
    r.cmdtype = kCmdSubFile) (st : Storage) :
    Handler.Prompt r.sequence (taskOf md5 previewDisabled r st).program ∧
      Handler.Truthful r.sequence (taskOf md5 previewDisabled r st).program := by
  unfold taskOf
  split
  · exact ⟨Handler.prompt_of_silent (Handler.silent_pushReply _),
      fun c => Handler.ensures_pushReply rfl fun h => by cases h⟩
  · rcases hr with hr | hr
    · have htask : ftpsDispatch md5 r st =
          some ⟨true, Handler.ftpsHandleFileDownload md5 r.sequence r.req st⟩ := by
        simp [ftpsDispatch, hr, kCmdFileDownload, kCmdRequestMediaAbility, kCmdListInfo,
          kCmdSubFile]
      rw [htask]
      exact ⟨Handler.prompt_ftpsHandleFileDownload .., Handler.truthful_ftpsHandleFileDownload _ _⟩
    · have htask : ftpsDispatch md5 r st =
          some ⟨true, Handler.ftpsHandleSubFile r.sequence r.req st⟩ := by
        simp [ftpsDispatch, hr, kCmdRequestMediaAbility, kCmdListInfo, kCmdSubFile]
      rw [htask]
      exact ⟨Handler.prompt_ftpsHandleSubFile .., Handler.truthful_ftpsHandleSubFile _ _⟩

/-- A handler that does not ask may be answered in any way. -/
theorem ensures_of_silent {p : Handler Unit} (hsilent : Handler.Silent p)
    (h : Handler.Truthful n p) (c : Bool) :
    p.Ensures (Handler.Permit n false) (Handler.Answers c) fun _ => True := by
  refine ((h false).and hsilent).mono (fun op hop => hop.1) (fun op x hop hx => ?_) fun _ h => h
  cases op with
  | isCancelled m => exact absurd rfl (hop.2 m)
  | pushReply _ | pushWire _ | cancel _ | crash => trivial

theorem silent_of_not_polls {p : Handler Unit} (h : Handler.Prompt n p) (hpolls : p.polls = false) :
    Handler.Silent p := by
  unfold Handler.Prompt at h
  split at h
  · cases hpolls
  · exact h

theorem tracked_start {cancelled : Finset ℤ} {body : Bytes} {st : Storage}
    (htransfer : (start md5 previewDisabled cancelled body st).transfer) :
    ∃ n, Tracked cancelled (start md5 previewDisabled cancelled body st) n := by
  cases hr : parseCtrlRequest body with
  | none =>
    rw [Service.transfer, start, hr] at htransfer
    cases htransfer
  | some r =>
    obtain ⟨task, htask⟩ : ∃ task, task = taskOf md5 previewDisabled r st := ⟨_, rfl⟩
    have hstart : start md5 previewDisabled cancelled body st =
        ⟨some r, task, task.program, decide (r.sequence ∈ cancelled), [], false, 0⟩ := by
      rw [htask, start, hr]
      rfl
    rw [hstart] at htransfer ⊢
    have hcmdtype : r.cmdtype = kCmdFileDownload ∨ r.cmdtype = kCmdSubFile := by
      simpa [Service.transfer] using htransfer
    obtain ⟨hprompt, htruthful⟩ := @taskOf_transfer md5 previewDisabled r hcmdtype st
    rw [← htask] at hprompt htruthful
    refine ⟨r.sequence, rfl, rfl, fun hdoomed => ⟨rfl, .asks hprompt ?_ rfl⟩,
      fun hsafe => ⟨?_, ?_⟩⟩
    · exact (Bool.and_eq_true_iff.1 hdoomed).2
    · rcases Bool.and_eq_false_iff.1 hsafe with hmarked | hpolls
      · rw [hmarked]
        exact htruthful false
      · exact ensures_of_silent (silent_of_not_polls hprompt hpolls) htruthful _
    · exact fun r hr => absurd hr List.not_mem_nil

theorem isChunk_cancel {r : Reply} (h : r.result = .number (.int kResErrCancel)) :
    r.isChunk = false := by
  rw [Reply.isChunk, h]
  rfl

theorem exists_of_polls {p : Handler Unit} (h : p.polls) :
    ∃ n next, p = .perform (.isCancelled n) next := by
  unfold Handler.polls at h
  split at h
  · next n next => exact ⟨n, next, rfl⟩
  · cases h

/-- The handler adds no tasks to the set. -/
def Keeps (p : Handler Unit) : Prop :=
  p.Ensures (fun op => ∀ tasks, op ≠ .cancel tasks) (fun _ _ => True) fun _ => True

/-! ### One operation of the worker -/

theorem work_pure {u : Unit} (h : srv.rest = .pure u) : work s srv = finish s srv := by
  rw [work, h]

theorem work_isCancelled {next : Bool → Handler Unit}
    (h : srv.rest = .perform (.isCancelled n) next) :
    work s srv = { s with
      serving := some { srv with rest := next (decide (n ∈ s.cancelled)) } } := by
  rw [work, h]

theorem work_pushReply {r : Reply} {next : Unit → Handler Unit}
    (h : srv.rest = .perform (.pushReply r) next) :
    work s srv = { s with
      ctrlOut := s.ctrlOut ++ [makeWireReply r]
      serving := some { srv.push r with rest := next () } } := by
  rw [work, h]

theorem work_pushWire {wire : Bytes} {next : Unit → Handler Unit}
    (h : srv.rest = .perform (.pushWire wire) next) :
    work s srv = { s with
      ctrlOut := s.ctrlOut ++ [wire]
      serving := some { srv with rest := next () } } := by
  rw [work, h]

theorem Inv.of_serving (hdone : ∀ srv ∈ s.done, srv.transfer → Outcome srv)
    (hserving : s.serving = some srv) (h : srv.transfer → ∃ n, Tracked s.cancelled srv n) :
    Inv s where
  serving srv' hsrv' := by
    obtain rfl := Option.some.inj (hserving.symm.trans hsrv')
    exact h
  done := hdone

theorem Inv.finish (hdone : ∀ srv ∈ s.done, srv.transfer → Outcome srv)
    (h : srv.transfer → Outcome srv) : Inv (finish s srv) where
  serving srv' hsrv' := by cases hsrv'
  done srv' hsrv' := by
    rcases List.mem_append.1 hsrv' with hmem | hmem
    · exact hdone srv' hmem
    · rw [List.mem_singleton.1 hmem]
      exact h

/-- A transfer that is told goes to its next stage. -/
theorem Tracked.work_doomed (h : Tracked s.cancelled srv n) (hd : srv.doomed = true)
    (hdone : ∀ srv ∈ s.done, srv.transfer → Outcome srv) : Inv (work s srv) := by
  obtain ⟨hfurther, htelling⟩ := h.doomed hd
  have hn : n ∈ s.cancelled := of_decide_eq_true (h.marked ▸ (Bool.and_eq_true_iff.1 hd).1)
  cases htelling with
  | asks hprompt hpolls hreplies =>
    obtain ⟨m, next, hrest⟩ := exists_of_polls hpolls
    rw [hrest] at hprompt
    obtain ⟨rfl, r, hr, hnext⟩ := hprompt
    rw [work_isCancelled hrest, decide_eq_true hn]
    refine .of_serving hdone rfl fun _ => ⟨m, h.sequence, h.marked,
      fun _ => ⟨hfurther, .answers r hr hnext hreplies⟩, fun hs => ?_⟩
    cases hd.symm.trans hs
  | answers r hr hrest hreplies =>
    rw [work_pushReply hrest]
    refine .of_serving hdone rfl fun _ => ⟨n, h.sequence, h.marked, fun _ => ⟨?_, ?_⟩, fun hs => ?_⟩
    · simp only [Service.push, isChunk_cancel hr, Bool.and_false, Bool.false_eq_true, if_false]
      exact hfurther
    · refine .told r hr rfl ?_
      simp only [Service.push, hreplies, List.nil_append]
    · cases hd.symm.trans hs
  | told r hr hrest hreplies =>
    rw [work_pure hrest]
    refine .finish hdone fun _ => ⟨fun _ => ⟨hfurther, r, hreplies, hr⟩, fun hs => ?_⟩
    cases hd.symm.trans hs

/-- A transfer that is not told pushes no reply that is Cancelled. -/
theorem Tracked.work_safe (h : Tracked s.cancelled srv n) (hd : srv.doomed = false)
    (hdone : ∀ srv ∈ s.done, srv.transfer → Outcome srv) (hserving : s.serving = some srv) :
    Inv (work s srv) := by
  obtain ⟨hrest, hreplies⟩ := h.safe hd
  have hnot (hd' : srv.doomed = true) : False := by cases hd.symm.trans hd'
  cases hr : srv.rest with
  | pure u =>
    rw [work_pure hr]
    exact .finish hdone fun _ => ⟨fun hd' => (hnot hd').elim, fun _ => hreplies⟩
  | perform op next =>
    rw [hr] at hrest
    obtain ⟨hop, hnext⟩ := hrest
    cases op with
    | isCancelled m =>
      obtain rfl : m = n := hop
      rw [work_isCancelled hr]
      refine .of_serving hdone rfl fun _ => ⟨m, h.sequence, h.marked, fun hd' => (hnot hd').elim,
        fun _ => ⟨hnext _ h.marked.symm, hreplies⟩⟩
    | pushReply r =>
      rw [work_pushReply hr]
      refine .of_serving hdone rfl fun _ => ⟨n, h.sequence, h.marked, fun hd' => (hnot hd').elim,
        fun _ => ⟨hnext () trivial, fun r' hr' => ?_⟩⟩
      rcases List.mem_append.1 hr' with hmem | hmem
      · exact hreplies r' hmem
      · rw [List.mem_singleton.1 hmem]
        exact hop rfl
    | pushWire wire =>
      rw [work_pushWire hr]
      exact .of_serving hdone rfl fun _ => ⟨n, h.sequence, h.marked, fun hd' => (hnot hd').elim,
        fun _ => ⟨hnext () trivial, hreplies⟩⟩
    | cancel tasks => exact hop.elim
    | crash =>
      rw [Ftps.work, hr]
      exact .of_serving hdone hserving fun _ => ⟨n, h⟩

/-- What an operation of the worker can be: the request ends, tasks are added to the set, or the
request goes on and the set stays as it is. -/
theorem work_cases (hserving : s.serving = some srv) :
    (work s srv = finish s srv ∧ srv.rest = .pure ()) ∨
    (∃ tasks next, srv.rest = .perform (.cancel tasks) next) ∨
    (∃ ctrlOut srv', work s srv = { s with ctrlOut, serving := some srv' } ∧
      (∀ tasks next, srv.rest ≠ .perform (.cancel tasks) next) ∧ srv'.request = srv.request ∧
      srv'.task = srv.task ∧ srv'.accepted = srv.accepted ∧
      srv'.marked = srv.marked ∧ (Keeps srv.rest → Keeps srv'.rest)) := by
  cases hr : srv.rest with
  | pure u => exact .inl ⟨work_pure hr, rfl⟩
  | perform op next =>
    cases op with
    | isCancelled m =>
      exact .inr (.inr ⟨_, _, work_isCancelled hr, fun _ _ h => (by cases h), rfl, rfl, rfl, rfl,
        fun h => h.2 _ trivial⟩)
    | pushReply r =>
      exact .inr (.inr ⟨_, _, work_pushReply hr, fun _ _ h => (by cases h), rfl, rfl, rfl, rfl,
        fun h => h.2 _ trivial⟩)
    | pushWire wire =>
      exact .inr (.inr ⟨_, _, work_pushWire hr, fun _ _ h => (by cases h), rfl, rfl, rfl, rfl,
        fun h => h.2 _ trivial⟩)
    | cancel tasks => exact .inr (.inl ⟨tasks, next, rfl⟩)
    | crash =>
      refine .inr (.inr ⟨s.ctrlOut, srv, ?_, fun _ _ h => (by cases h), rfl, rfl, rfl, rfl,
        fun h => hr ▸ h⟩)
      rw [work, hr, ← hserving]

theorem Inv.work (h : Inv s) (hserving : s.serving = some srv) : Inv (work s srv) := by
  cases ht : srv.transfer with
  | true =>
    obtain ⟨n, htracked⟩ := h.serving srv hserving ht
    cases hd : srv.doomed with
    | true => exact htracked.work_doomed hd h.done
    | false => exact htracked.work_safe hd h.done hserving
  | false =>
    have hnot {srv' : Service} (hrequest : srv'.request = srv.request) : ¬ srv'.transfer := by
      rw [Service.transfer, hrequest]
      exact Bool.eq_false_iff.1 ht
    rcases work_cases hserving with ⟨hwork, -⟩ | ⟨tasks, next, hr⟩ |
      ⟨_, srv', hwork, -, hrequest, -⟩
    · rw [hwork]
      exact .finish h.done fun ht' => absurd ht' (hnot rfl)
    · rw [Ftps.work, hr]
      exact .of_serving h.done rfl fun ht' => absurd ht' (hnot rfl)
    · rw [hwork]
      exact .of_serving h.done rfl fun ht' => absurd ht' (hnot hrequest)

theorem Inv.step (h : Inv s) (e : CancelEvent) : Inv (cancelStep md5 previewDisabled s e) := by
  cases e with
  | send body =>
    refine ⟨fun srv' hsrv' ht => ?_, h.done⟩
    obtain ⟨srv, hsrv, rfl⟩ := Option.map_eq_some_iff.1 hsrv'
    obtain ⟨n, htracked⟩ := h.serving srv hsrv ht
    exact ⟨n, htracked.sequence, htracked.marked, htracked.doomed, htracked.safe⟩
  | take st =>
    rw [cancelStep]
    split
    · exact .of_serving h.done rfl tracked_start
    · exact h
  | work =>
    rw [cancelStep]
    split
    · exact h
    · next srv hserving => exact h.work hserving

/-- **What becomes of a transfer**, in every run: when its sequence was in the set and it asks, its
one reply is Cancelled, and otherwise none of its replies is. -/
theorem outcome_run (md5 : Bytes → Bytes) (previewDisabled : Bool) (es : List CancelEvent) :
    ∀ srv ∈ (run (cancelStep md5 previewDisabled) {} es).done, srv.transfer → Outcome srv := by
  have hinit : Inv {} := ⟨(fun _ h => by cases h), fun _ h => by cases h⟩
  have halong : Along (cancelStep md5 previewDisabled) (fun _ _ => True) {} es :=
    Along.of_forall (fun _ _ => trivial) _
  exact (@run_invariant _ _ (cancelStep md5 previewDisabled) Inv (fun _ _ => True)
    (fun _ e hs _ => hs.step e) _ _ hinit halong).done

/-! ## When cancelling works -/

/-- What a request that is served does to the set: it is a TASK_CANCEL that has yet to add its
tasks, or it adds none and leaves no sequence of its own behind. -/
inductive Keeping (cancelled : Finset ℤ) (ended : List ℤ) (srv : Service) : Prop
  | cancels (r : CtrlRequest) (hrequest : srv.request = some r)
      (hcmdtype : r.cmdtype = kCmdTaskCancel)
      (hrest : srv.rest = ftpsHandleTaskCancel r.sequence r.req)
      (htasks : ∀ n ∈ tasksOf r.req, n ≠ r.sequence ∧ n ∉ ended)
      (hfull : r.sequence ∈ cancelled → 256 < cancelled.card)
  | keeps (hrest : srv.transfer ∨ Keeps srv.rest)
      (hend : srv.task.guarded = true ∨ ∀ n ∈ srv.sequence, n ∉ cancelled)

structure Cautious (s : State) : Prop where
  inv : Inv s
  serving : ∀ srv ∈ s.serving, (srv.accepted → srv.transfer ∧ srv.doomed) ∧
    Keeping s.cancelled s.ended srv
  done : ∀ srv ∈ s.done, srv.accepted → srv.transfer ∧ srv.doomed
  stale : ∀ n ∈ s.ended, n ∉ s.cancelled

theorem keeps_pushReply (r : Reply) : Keeps (pushReply r) :=
  ⟨(fun tasks h => by cases h), fun _ _ => trivial⟩

theorem keeps_forward (st : Storage) : Keeps (forward st).program :=
  .forM fun _ _ => ⟨(fun tasks h => by cases h), fun _ _ => trivial⟩

theorem taskOf_taskCancel {r : CtrlRequest} (hr : r.cmdtype = kCmdTaskCancel) (st : Storage) :
    taskOf md5 previewDisabled r st = ⟨false, ftpsHandleTaskCancel r.sequence r.req⟩ := by
  simp [taskOf, blocked, ftpsDispatch, hr, kCmdTaskCancel, kCmdFileDownload,
    kCmdRequestMediaAbility, kCmdListInfo, kCmdSubFile, kCmdFileDel]

theorem taskOf_keeps {r : CtrlRequest} (hr : r.cmdtype ≠ kCmdTaskCancel) (st : Storage) :
    (r.cmdtype = kCmdFileDownload ∨ r.cmdtype = kCmdSubFile) ∨
      Keeps (taskOf md5 previewDisabled r st).program := by
  refine or_iff_not_imp_left.2 fun htransfer => ?_
  obtain ⟨hdownload, hsubFile⟩ := not_or.1 htransfer
  unfold taskOf
  split
  · exact keeps_pushReply _
  · unfold ftpsDispatch
    rw [if_neg hsubFile, if_neg hdownload, if_neg hr]
    split
    · exact keeps_pushReply _
    split
    · exact keeps_pushReply _
    split
    · exact keeps_pushReply _
    · exact keeps_forward st

theorem keeping_start {body : Bytes} {st : Storage} (h : ∀ r ∈ parseCtrlRequest body,
    Fresh s (taskOf md5 previewDisabled r st).guarded r) :
    Keeping s.cancelled s.ended (start md5 previewDisabled s.cancelled body st) := by
  cases hr : parseCtrlRequest body with
  | none =>
    have hstart : start md5 previewDisabled s.cancelled body st =
        ⟨none, forward st, (forward st).program, false, [], false, 0⟩ := by
      rw [start, hr]
      rfl
    rw [hstart]
    exact .keeps (.inr (keeps_forward st)) (.inr fun n hn => by cases hn)
  | some r =>
    have hstart : start md5 previewDisabled s.cancelled body st =
        ⟨some r, taskOf md5 previewDisabled r st, (taskOf md5 previewDisabled r st).program,
          decide (r.sequence ∈ s.cancelled), [], false, 0⟩ := by
      rw [start, hr]
      rfl
    have hfresh := h r hr
    rw [hstart]
    by_cases hcmdtype : r.cmdtype = kCmdTaskCancel
    · have htask := @taskOf_taskCancel md5 previewDisabled r hcmdtype st
      rw [htask] at hfresh ⊢
      rw [Fresh, if_neg Bool.false_ne_true, if_pos hcmdtype] at hfresh
      exact .cancels r rfl hcmdtype rfl hfresh.1 hfresh.2
    · refine .keeps ((taskOf_keeps hcmdtype st).imp_left fun ht => ?_) ?_
      · simpa [Service.transfer] using ht
      · refine or_iff_not_imp_left.2 fun hguarded n hn => ?_
        obtain rfl := Option.some.inj hn
        rwa [Fresh, if_neg hguarded, if_neg hcmdtype] at hfresh

/-- A transfer does not add tasks. -/
theorem Tracked.not_cancel (h : Tracked s.cancelled srv n) {tasks : List ℤ}
    {next : Unit → Handler Unit} (hrest : srv.rest = .perform (.cancel tasks) next) : False := by
  cases hd : srv.doomed with
  | true =>
    obtain ⟨-, htelling⟩ := h.doomed hd
    cases htelling with
    | asks hprompt hpolls hreplies =>
      rw [hrest] at hpolls
      cases hpolls
    | answers r hr hrest' hreplies => cases hrest.symm.trans hrest'
    | told r hr hrest' hreplies => cases hrest.symm.trans hrest'
  | false =>
    have hpermit := (h.safe hd).1
    rw [hrest] at hpermit
    exact hpermit.1

theorem mem_addTasks {cancelled : Finset ℤ} {tasks : List ℤ} (h : n ∈ addTasks cancelled tasks) :
    n ∈ tasks ∨ n ∈ cancelled ∧ ¬ 256 < cancelled.card := by
  rw [addTasks, Finset.mem_union, List.mem_toFinset] at h
  refine h.symm.imp_right fun hmem => ?_
  split at hmem
  · exact absurd hmem (Finset.notMem_empty n)
  · next hcard => exact ⟨hmem, hcard⟩

theorem mem_ended_finish (h : n ∈ (finish s srv).ended) : n ∈ s.ended ∨ n ∈ srv.sequence := by
  rw [State.ended, finish, List.filterMap_append] at h
  refine (List.mem_append.1 h).imp_right fun hmem => ?_
  simpa using hmem

theorem mem_cancelled_finish (h : n ∈ (finish s srv).cancelled) :
    n ∈ s.cancelled ∧ (n ∈ srv.sequence → srv.task.guarded = false) := by
  unfold finish at h
  dsimp only at h
  cases hseq : srv.sequence with
  | none =>
    rw [hseq] at h
    exact ⟨h, fun hn => by cases hn⟩
  | some m =>
    rw [hseq] at h
    cases hguarded : srv.task.guarded with
    | true =>
      rw [hguarded] at h
      obtain ⟨hne, hmem⟩ := Finset.mem_erase.1 h
      exact ⟨hmem, fun hn => absurd (Option.some.inj hn).symm hne⟩
    | false =>
      rw [hguarded] at h
      exact ⟨h, fun _ => rfl⟩

/-- A request ends, and its sequence is not in the set. -/
theorem Cautious.finish (h : Cautious s) (hserving : s.serving = some srv)
    (hrest : srv.rest = .pure ()) : Cautious (finish s srv) := by
  obtain ⟨haccepted, hkeeping⟩ := h.serving srv hserving
  have hend : srv.task.guarded = true ∨ ∀ n ∈ srv.sequence, n ∉ s.cancelled := by
    cases hkeeping with
    | cancels r hrequest hcmdtype hrest' htasks hfull => cases hrest.symm.trans hrest'
    | keeps hrest' hend => exact hend
  refine ⟨?_, fun srv' hsrv' => (by cases hsrv'), fun srv' hsrv' => ?_, fun n hn hmem => ?_⟩
  · rw [← work_pure hrest]
    exact h.inv.work hserving
  · rcases List.mem_append.1 hsrv' with hsrv' | hsrv'
    · exact h.done srv' hsrv'
    · rw [List.mem_singleton.1 hsrv']
      exact haccepted
  · obtain ⟨hmem, hguarded⟩ := mem_cancelled_finish hmem
    rcases mem_ended_finish hn with hn | hn
    · exact h.stale n hn hmem
    · rcases hend with hend | hend
      · cases hend.symm.trans (hguarded hn)
      · exact hend n hn hmem

theorem Cautious.work (h : Cautious s) (hserving : s.serving = some srv) :
    Cautious (work s srv) := by
  obtain ⟨haccepted, hkeeping⟩ := h.serving srv hserving
  have hinv := h.inv.work hserving
  rcases work_cases hserving with ⟨-, hrest⟩ | ⟨tasks, next, hrest⟩ |
    ⟨ctrlOut, srv', hwork, hnot, hrequest, htask, hacc, hmarked, hkeeps⟩
  · rw [work_pure hrest]
    exact h.finish hserving hrest
  · cases hkeeping with
    | cancels r hrequest hcmdtype hrest' htasks hfull =>
      rw [hrest] at hrest'
      obtain ⟨rfl, rfl⟩ : tasks = tasksOf r.req ∧
          next = fun _ => pushReply (taskReply r.sequence (tasksOf r.req)) := by
        cases hrest'
        exact ⟨rfl, rfl⟩
      rw [Ftps.work, hrest] at hinv ⊢
      refine ⟨hinv, fun srv' hsrv' => ?_, h.done, fun n hn hmem => ?_⟩
      · obtain rfl := Option.some.inj hsrv'
        refine ⟨haccepted, .keeps (.inr (keeps_pushReply _)) (.inr fun n hn hmem => ?_)⟩
        have hn : r.sequence = n := by
          rw [Service.sequence, hrequest] at hn
          exact Option.some.inj hn
        rw [← hn] at hmem
        rcases mem_addTasks hmem with hmem | ⟨hmem, hcard⟩
        · exact (htasks _ hmem).1 rfl
        · exact hcard (hfull hmem)
      · rcases mem_addTasks hmem with hmem | ⟨hmem, -⟩
        · exact (htasks n hmem).2 hn
        · exact h.stale n hn hmem
    | keeps hrest' hend =>
      rcases hrest' with ht | hkeeps
      · obtain ⟨n, htracked⟩ := h.inv.serving srv hserving ht
        exact (htracked.not_cancel hrest).elim
      · rw [hrest] at hkeeps
        exact absurd rfl (hkeeps.1 tasks)
  · rw [hwork] at hinv ⊢
    have hsequence : srv'.sequence = srv.sequence := by rw [Service.sequence, hrequest]; rfl
    have htransfer : srv'.transfer = srv.transfer := by rw [Service.transfer, hrequest]; rfl
    have hdoomed : srv'.doomed = srv.doomed := by rw [Service.doomed, hmarked, htask]; rfl
    refine ⟨hinv, fun srv'' hsrv'' => ?_, h.done, h.stale⟩
    obtain rfl := Option.some.inj hsrv''
    refine ⟨?_, ?_⟩
    · rw [hacc, htransfer, hdoomed]
      exact haccepted
    · cases hkeeping with
      | cancels r hrequest' hcmdtype hrest' htasks hfull => exact absurd hrest' (hnot _ _)
      | keeps hrest' hend =>
        refine .keeps ?_ ?_
        · rw [htransfer]
          exact hrest'.imp_right hkeeps
        · rw [htask, hsequence]
          exact hend

theorem Cautious.obeyed (h : Cautious s) : Obeyed s where
  serving srv hsrv haccepted := by
    obtain ⟨ht, hd⟩ := (h.serving srv hsrv).1 haccepted
    obtain ⟨n, htracked⟩ := h.inv.serving srv hsrv ht
    exact (htracked.doomed hd).1.trans_le (Nat.zero_le 1)
  done srv hsrv haccepted := by
    obtain ⟨ht, hd⟩ := h.done srv hsrv haccepted
    obtain ⟨hfurther, r, hreplies, hr⟩ := (h.inv.done srv hsrv ht).doomed hd
    exact ⟨hfurther.trans_le (Nat.zero_le 1), r, by rw [hreplies]; rfl, hr⟩
  stale := h.stale

theorem Cautious.step (h : Cautious s) (e : CancelEvent) (he : Heeded md5 previewDisabled s e) :
    Cautious (cancelStep md5 previewDisabled s e) := by
  have hinv := @Inv.step md5 previewDisabled s h.inv e
  cases e with
  | send body =>
    refine ⟨hinv, fun srv' hsrv' => ?_, h.done, h.stale⟩
    obtain ⟨srv, hsrv, rfl⟩ := Option.map_eq_some_iff.1 hsrv'
    obtain ⟨haccepted, hkeeping⟩ := h.serving srv hsrv
    refine ⟨fun hacc => ?_, ?_⟩
    · rcases Bool.or_eq_true_iff.1 hacc with hacc | hnamed
      · exact haccepted hacc
      · obtain ⟨ht, hany⟩ := Bool.and_eq_true_iff.1 hnamed
        obtain ⟨n, hn, hcontains⟩ := (Option.any_eq_true _ _).1 hany
        obtain ⟨hmem, hpolls⟩ := he srv hsrv ht n hn (List.contains_iff_mem.1 hcontains)
        obtain ⟨m, htracked⟩ := h.inv.serving srv hsrv ht
        obtain rfl := Option.some.inj (htracked.sequence.symm.trans hn)
        exact ⟨ht, Bool.and_eq_true_iff.2 ⟨htracked.marked.trans (decide_eq_true hmem), hpolls⟩⟩
    · cases hkeeping with
      | cancels r hrequest hcmdtype hrest htasks hfull =>
        exact .cancels r hrequest hcmdtype hrest htasks hfull
      | keeps hrest hend => exact .keeps hrest hend
  | take st =>
    rw [cancelStep] at hinv ⊢
    split
    · next body ctrlIn hserving hctrlIn =>
      rw [hserving, hctrlIn] at hinv
      refine ⟨hinv, fun srv' hsrv' => ?_, h.done, h.stale⟩
      obtain rfl := Option.some.inj hsrv'
      exact ⟨fun hacc => (by cases hacc), keeping_start (he hserving body (by rw [hctrlIn]; rfl))⟩
    · exact h
  | work =>
    rw [cancelStep]
    split
    · exact h
    · next srv hserving => exact h.work hserving

/-- **A cancellation takes effect** in every run in which a transfer is named while it is served
only when its sequence is in the set and it asks, and in which no request leaves the sequence of an
ended one behind. In every other run a transfer has the outcome it was taken with. A download whose
questions are answered as the pieces say pushes what `ftpsHandleFileDownload` pushes. -/
theorem obeyed_run (md5 : Bytes → Bytes) (previewDisabled : Bool) (es : List CancelEvent) :
    (Along (cancelStep md5 previewDisabled) (Heeded md5 previewDisabled) {} es →
      Obeyed (run (cancelStep md5 previewDisabled) {} es)) ∧
    (∀ srv ∈ (run (cancelStep md5 previewDisabled) {} es).done, srv.transfer → Outcome srv) ∧
    ∀ sequence req pr,
      ((Handler.ftpsHandleFileDownload md5 sequence req (Handler.storage pr)).interp
        Handler.answerFrom (Handler.answers pr, [])).map (·.2.2) =
        ftpsHandleFileDownload md5 sequence req pr := by
  refine ⟨fun h => ?_, outcome_run md5 previewDisabled es,
    fun _ => Handler.interp_ftpsHandleFileDownload⟩
  have hinit : Cautious {} := ⟨⟨(fun _ h => by cases h), fun _ h => by cases h⟩,
    (fun _ h => by cases h), (fun _ h => by cases h), fun _ h => by cases h⟩
  exact (@run_invariant _ _ (cancelStep md5 previewDisabled) Cautious
    (Heeded md5 previewDisabled) (fun _ e hs he => hs.step e he) _ _ hinit h).obeyed

end

def cancelRequest (sequence task : Bytes) : Bytes :=
  ascii "\x7b\"cmdtype\":4096,\"req\":\x7b\"tasks\":[" ++ task ++ ascii "]\x7d,\"sequence\":" ++
    sequence ++ ascii "\x7d"

/-- Three thumbnails, with the sequence 7. -/
def thumbnails : Bytes :=
  ascii "\x7b\"cmdtype\":2,\"req\":\x7b\"paths\":[\"a\",\"b\",\"c\"]\x7d,\"sequence\":7\x7d"

def emptyStorage : Storage where
  connects := true
  size := none
  reconnect := .down
  sizeAgain := none
  digest := true
  fetch _ := ⟨⟨[], false⟩, .down, ⟨[], false⟩⟩
  answer := errorReply 0 kResOK
  frames := []

/-- A transfer that is named before it is taken, and again while it is served. -/
theorem obeyed_run_named : Obeyed (run (cancelStep id false) {}
    [.send (cancelRequest (ascii "6") (ascii "7")), .take emptyStorage, .work, .work, .work,
      .send thumbnails, .take emptyStorage, .send (cancelRequest (ascii "8") (ascii "7")),
      .work, .work, .work]) := by
  have hcancel : parseCtrlRequest (cancelRequest (ascii "6") (ascii "7")) =
      some ⟨kCmdTaskCancel, 6, .object [(ascii "tasks", .array [.number (.int 7)])]⟩ := rfl
  have hthumbnails : parseCtrlRequest thumbnails = some ⟨kCmdSubFile, 7, .object
      [(ascii "paths", .array [.string (ascii "a"), .string (ascii "b"), .string (ascii "c")])]⟩ :=
    rfl
  refine (obeyed_run id false _).1 ⟨fun _ h => (by cases h), ?_, trivial, trivial, trivial,
    fun _ h => (by cases h), ?_, ?_, trivial, trivial, trivial, trivial⟩
  · rintro - body hbody r hr
    obtain rfl := Option.some.inj hbody
    obtain rfl := Option.some.inj (hcancel.symm.trans hr)
    unfold Fresh
    decide
  · rintro - body hbody r hr
    obtain rfl := Option.some.inj hbody
    obtain rfl := Option.some.inj (hthumbnails.symm.trans hr)
    unfold Fresh
    decide
  · rintro srv hsrv - n hn -
    obtain rfl := Option.some.inj hsrv
    obtain rfl := Option.some.inj hn
    decide

/-- A transfer that is named while it is served: three more chunks, and its sequence stays in the
set. -/
theorem cancel_ignored :
    let s := run (cancelStep id false) {}
      [.send thumbnails, .take emptyStorage, .send (cancelRequest (ascii "8") (ascii "7")),
        .work, .work, .work, .work, .work, .work, .work, .take emptyStorage, .work]
    ¬ Obeyed s ∧ s.done.map (fun srv => (srv.sequence, srv.accepted, srv.further)) =
      [(some 7, true, 3)] ∧ s.cancelled = {7} := by
  intro s
  have hdone : s.done.map (fun srv => (srv.sequence, srv.accepted, srv.further)) =
    [(some 7, true, 3)] := rfl
  refine ⟨fun h => ?_, hdone, rfl⟩
  obtain ⟨srv, hsrv, hfields⟩ := List.mem_map.1 (hdone ▸ List.mem_singleton_self (some 7, true, 3))
  have haccepted : srv.accepted = true := congrArg (·.2.1) hfields
  have hfurther : srv.further = 3 := congrArg (·.2.2) hfields
  have := (h.done srv hsrv haccepted).1
  omega

end BambooNet.Tunnel.Ftps
