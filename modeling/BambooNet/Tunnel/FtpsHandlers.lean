import BambooNet.Lib.Program
import BambooNet.Tunnel.CtrlWorker
import BambooNet.Tunnel.FtpsDownload

/-!
# The requests that the FTPS bridge serves

The handlers are programs over what they do on the tunnel: they push replies, and the two that move
files ask now and then whether their request has been cancelled. What the printer does for a request
is given beforehand (`Storage`).

**Where a request is asked for** decides what a cancellation can reach. A handler asks before it
pushes anything or not at all, and when the answer is yes it pushes one reply, Cancelled, and is
done (`prompt_ftpsHandleSubFile`, `prompt_ftpsHandleFileDownload`). No reply is Cancelled otherwise.
-/

namespace BambooNet.Tunnel.Ftps

open Json

def kCmdListInfo : ℤ := 0x0001
def kCmdSubFile : ℤ := 0x0002
def kCmdFileDel : ℤ := 0x0003
def kCmdRequestMediaAbility : ℤ := 0x0007
def kCmdTaskCancel : ℤ := 0x1000

def kResApiUnsupport : ℤ := 18

/-! ## Programs on the tunnel -/

/-- What a handler does on the tunnel. -/
inductive Op
  /-- `ctrl_is_cancelled`. -/
  | isCancelled (sequence : ℤ)
  | pushReply (r : Reply)
  /-- A frame of the printer is passed on. -/
  | pushWire (wire : Bytes)
  /-- The tasks are added to the cancelled set. -/
  | cancel (tasks : List ℤ)
  /-- The client is used after it is gone. -/
  | crash

def Op.Ans : Op → Type
  | isCancelled _ => Bool
  | pushReply _ | pushWire _ | cancel _ => Unit
  | crash => Empty

abbrev Handler := Program Op Op.Ans

def isCancelled (sequence : ℤ) : Handler Bool := .lift (Op.isCancelled sequence)

def pushReply (r : Reply) : Handler Unit := .lift (Op.pushReply r)

def pushWire (wire : Bytes) : Handler Unit := .lift (Op.pushWire wire)

def crash {α : Type} : Handler α := .perform .crash Empty.elim

/-! ## The printer -/

/-- What `retr` does: the pieces it delivers, and whether it ends with an error. -/
structure Retr where
  pieces : List Bytes
  failed : Bool

/-- The transfer of a file, and a second one after a reconnect. -/
structure Fetch where
  retr : Retr
  reconnect : Reconnect
  retrAgain : Retr

/-- What the printer does for a request. -/
structure Storage where
  /-- `ensure_ftp` succeeds. -/
  connects : Bool
  /-- The answer to SIZE, the reconnect after it has failed, and the second answer. -/
  size : Option ℕ
  reconnect : Reconnect
  sizeAgain : Option ℕ
  /-- The digest can be set up. -/
  digest : Bool
  /-- The transfer of each file. -/
  fetch : Bytes → Fetch
  /-- The reply of a handler that always pushes one. -/
  answer : Reply
  /-- The frames of a request that is forwarded. -/
  frames : List Bytes

/-- The size that is known before the transfer. -/
def Storage.sizeAnswer (st : Storage) : Option ℕ :=
  match st.size with
  | some n => some n
  | none =>
    match st.reconnect with
    | .up => st.sizeAgain
    | _ => none

namespace Handler

/-! ## Downloads -/

section
variable (md5 : Bytes → Bytes) (sequence : ℤ) (path : Bytes) (total : ℕ)

/-- One transfer, and whether it was cancelled. What the callback flushes is pushed at once. -/
def runRetr (s : Sink) : List Bytes → Handler (Sink × Bool)
  | [] => pure (s, false)
  | data :: pieces => do
    if ← isCancelled sequence then pure (s, true)
    else
      let s := fill md5 sequence path total
        { s with digested := s.digested ++ data, replies := [] } data
      s.replies.forM pushReply
      runRetr s pieces

/-- The last reply of a download. -/
def finishDownload (s : Sink) (cancelled failed : Bool) : Handler Unit :=
  if cancelled then pushReply (errorReply sequence kResErrCancel)
  else if failed then pushReply (errorReply sequence kResFileNoExist)
  else
    let actual := (s.sent + s.buf.length) % 2 ^ 64
    let total := if total = 0 ∨ total ≠ actual then actual else total
    pushReply (chunkReply sequence path kResOK s.sent total (some (md5 s.digested)) s.buf)

/-- The transfer of a file, once more after a reconnect when it fails before anything has come. -/
def transferFile (f : Fetch) : Handler Unit := do
  let r ← runRetr md5 sequence path total { buf := [], room := kChunkSize_pos } f.retr.pieces
  let failed := r.2 || f.retr.failed
  if failed && !r.2 && r.1.sent = 0 && r.1.buf = [] && f.reconnect = .up then
    let again ← runRetr md5 sequence path total { r.1 with digested := [] } f.retrAgain.pieces
    finishDownload md5 sequence path total again.1 again.2 (again.2 || f.retrAgain.failed)
  else finishDownload md5 sequence path total r.1 r.2 failed

end

def ftpsHandleFileDownload (md5 : Bytes → Bytes) (sequence : ℤ) (req : Value) (st : Storage) :
    Handler Unit :=
  if !st.connects then pushReply (errorReply sequence kResStorUnavail)
  else
    let path := downloadPath req
    if path = [] then pushReply (errorReply sequence kResFileNoExist)
    else
      let total := min (st.sizeAnswer.getD 0) (2 ^ 64 - 1)
      if !st.digest then pushReply (errorReply sequence kResFileNoExist)
      else if st.size = none ∧ st.reconnect = .down then crash
      else transferFile md5 sequence path total (st.fetch path)

/-! ## Archives and thumbnails -/

/-- `push_chunk`. -/
def subFileReply (sequence result : ℤ) (extra : List (Bytes × Value)) (blob : Bytes) : Reply where
  env := makeReplyEnvelope kCmdSubFile sequence result (.object (Entries.ofList extra))
  blob := blob

def pushChunk (sequence result : ℤ) (extra : List (Bytes × Value)) (blob : Bytes) : Handler Unit :=
  pushReply (subFileReply sequence result extra blob)

/-- The archives of a request, each once: what stands before `#` in the paths. -/
def archives (paths : List Value) : List Bytes :=
  paths.foldl (fun bases v =>
    let full := v.asString.takeWhile (· ≠ 0x23)
    if bases.contains full then bases else bases ++ [full]) []

section
variable (sequence : ℤ)

/-- One transfer of an archive, `none` when it was cancelled. -/
def retrIntoArchive (archive : Bytes) : List Bytes → Handler (Option Bytes)
  | [] => pure (some archive)
  | data :: pieces => do
    if ← isCancelled sequence then pure none else retrIntoArchive (archive ++ data) pieces

def archiveExtra (full : Bytes) (size offset total : ℕ) (more : Bool) : List (Bytes × Value) :=
  [(ascii "path", .string full), (ascii "mimetype", .string (ascii "application/zip")),
    (ascii "size", .number (.ofNat size)), (ascii "offset", .number (.ofNat offset)),
    (ascii "total", .number (.ofNat total)), (ascii "continue", .bool more)]

/-- The chunks of an archive from an offset on. -/
def pushArchive (full : Bytes) (isLastFile : Bool) (total offset : ℕ) (rest : Bytes) :
    Handler Unit :=
  if rest = [] then pure ()
  else do
    let chunk := rest.take kChunkSize
    let lastChunk : Bool := rest.length ≤ kChunkSize
    pushChunk sequence (if lastChunk && isLastFile then kResOK else kResContinue)
      (archiveExtra full chunk.length offset total !lastChunk) chunk
    pushArchive full isLastFile total (offset + chunk.length) (rest.drop kChunkSize)
termination_by rest.length
decreasing_by
  have := List.length_pos_iff.mpr ‹¬rest = []›
  have := kChunkSize_pos
  simp only [List.length_drop]
  omega

/-- An archive that has arrived. -/
def sendArchive (full : Bytes) (isLastFile : Bool) (archive : Bytes) : Handler Unit :=
  if archive = [] then
    pushChunk sequence (if isLastFile then kResOK else kResContinue)
      (archiveExtra full 0 0 0 false) []
  else pushArchive sequence full isLastFile archive.length 0 archive

def cancelledChunk : Handler Unit := pushChunk sequence kResErrCancel [] []

/-- The loop over the archives. -/
def fetchModel (fetch : Bytes → Fetch) : List Bytes → Handler Unit
  | [] => pure ()
  | full :: bases => do
    if ← isCancelled sequence then cancelledChunk sequence
    else
      let f := fetch full
      match ← retrIntoArchive sequence [] f.retr.pieces with
      | none => cancelledChunk sequence
      | some archive =>
        if !f.retr.failed then
          sendArchive sequence full bases.isEmpty archive
          fetchModel fetch bases
        else if f.reconnect = .up then
          match ← retrIntoArchive sequence [] f.retrAgain.pieces with
          | none => cancelledChunk sequence
          | some archive =>
            if !f.retrAgain.failed then
              sendArchive sequence full bases.isEmpty archive
              fetchModel fetch bases
            else pushChunk sequence kResFileNoExist [] []
        else pushChunk sequence kResFileNoExist [] []

/-- The loop that answers each entry with nothing. -/
def pushEmpty (extra : Value → List (Bytes × Value)) : List Value → Handler Unit
  | [] => pure ()
  | v :: vs => do
    if ← isCancelled sequence then cancelledChunk sequence
    else
      pushChunk sequence (if vs.isEmpty then kResOK else kResContinue) (extra v) []
      pushEmpty extra vs

end

def pathExtra (v : Value) : List (Bytes × Value) :=
  [(ascii "path", .string v.asString),
    (ascii "mimetype", .string (ascii "application/octet-stream")),
    (ascii "size", .number (.int 0)), (ascii "offset", .number (.int 0)),
    (ascii "total", .number (.int 0))]

def fileExtra (v : Value) : List (Bytes × Value) :=
  [(ascii "name", .string v.asString), (ascii "mimetype", .string (ascii "image/jpeg")),
    (ascii "size", .number (.int 0))]

def ftpsHandleSubFile (sequence : ℤ) (req : Value) (st : Storage) : Handler Unit :=
  if !st.connects then pushChunk sequence kResStorUnavail [] []
  else
    let paths := (req.find (ascii "paths")).asArray
    let files := (req.find (ascii "files")).asArray
    let zipMode := (req.find (ascii "zip")).asBool
    if !paths.isEmpty && zipMode then fetchModel sequence st.fetch (archives paths)
    else if !paths.isEmpty then pushEmpty sequence pathExtra paths
    else if !files.isEmpty then pushEmpty sequence fileExtra files
    else pushChunk sequence kResApiUnsupport [] []

/-! ## Where a handler asks -/

/-- The handler asks first of all whether a request has been cancelled. -/
def polls : Handler Unit → Bool
  | .perform (.isCancelled _) _ => true
  | _ => false

/-- The handler does not ask. -/
def Silent (p : Handler Unit) : Prop :=
  p.Ensures (fun op => ∀ n, op ≠ .isCancelled n) (fun _ _ => True) fun _ => True

/-- A handler that asks first, and answers yes with one reply, Cancelled, or that does not ask. -/
def Prompt (sequence : ℤ) : Handler Unit → Prop
  | .perform (.isCancelled n) next =>
    n = sequence ∧ ∃ r : Reply, r.result = .number (.int kResErrCancel) ∧ next true = pushReply r
  | p => Silent p

/-- What a handler may do when its questions are all answered by `c`. -/
def Permit (sequence : ℤ) (c : Bool) : Op → Prop
  | .isCancelled n => n = sequence
  | .pushReply r => c = false → r.result ≠ .number (.int kResErrCancel)
  | .cancel _ => False
  | .pushWire _ | .crash => True

def Answers (c : Bool) : (op : Op) → op.Ans → Prop
  | .isCancelled _, x => x = c
  | _, _ => True

/-- A handler that leaves the cancelled set alone, and whose replies are not Cancelled when it is
not told so. -/
def Truthful (sequence : ℤ) (p : Handler Unit) : Prop :=
  ∀ c, p.Ensures (Permit sequence c) (Answers c) fun _ => True

section
variable {md5 : Bytes → Bytes} {sequence : ℤ} {path : Bytes} {total : ℕ}

theorem silent_pushReply (r : Reply) : Silent (pushReply r) :=
  ⟨(fun n hn => by cases hn), fun _ _ => trivial⟩

theorem silent_finishDownload (s : Sink) (cancelled failed : Bool) :
    Silent (finishDownload md5 sequence path total s cancelled failed) := by
  unfold finishDownload
  split
  · exact silent_pushReply _
  split <;> exact silent_pushReply _

theorem prompt_of_silent {p : Handler Unit} (h : Silent p) : Prompt sequence p := by
  unfold Prompt
  split
  · next n next => exact absurd rfl (h.1 n)
  · exact h

/-- A transfer is prompt with whatever comes after it. -/
theorem prompt_runRetr_bind {s : Sink} {pieces : List Bytes} {f : Sink × Bool → Handler Unit}
    (hdone : Prompt sequence (f (s, false)))
    (hcancelled : f (s, true) = pushReply (errorReply sequence kResErrCancel)) :
    Prompt sequence (runRetr md5 sequence path total s pieces >>= f) := by
  cases pieces with
  | nil => exact hdone
  | cons data pieces => exact ⟨rfl, _, rfl, hcancelled⟩

theorem prompt_transferFile (f : Fetch) :
    Prompt sequence (transferFile md5 sequence path total f) := by
  refine prompt_runRetr_bind ?_ (by simp [finishDownload])
  dsimp only
  split
  · exact prompt_runRetr_bind (prompt_of_silent (silent_finishDownload ..)) rfl
  · exact prompt_of_silent (silent_finishDownload ..)

theorem prompt_ftpsHandleFileDownload (req : Value) (st : Storage) :
    Prompt sequence (ftpsHandleFileDownload md5 sequence req st) := by
  unfold ftpsHandleFileDownload
  dsimp only
  split
  · exact prompt_of_silent (silent_pushReply _)
  split
  · exact prompt_of_silent (silent_pushReply _)
  split
  · exact prompt_of_silent (silent_pushReply _)
  split
  · exact prompt_of_silent ⟨(fun n hn => by cases hn), fun x => Empty.elim x⟩
  · exact prompt_transferFile _

theorem prompt_ftpsHandleSubFile (req : Value) (st : Storage) :
    Prompt sequence (ftpsHandleSubFile sequence req st) := by
  unfold ftpsHandleSubFile
  dsimp only
  split
  · exact prompt_of_silent (silent_pushReply _)
  split
  · cases archives (req.find (ascii "paths")).asArray with
    | nil => trivial
    | cons full bases => exact ⟨rfl, _, rfl, rfl⟩
  split
  · cases (req.find (ascii "paths")).asArray with
    | nil => trivial
    | cons v vs => exact ⟨rfl, _, rfl, rfl⟩
  split
  · cases (req.find (ascii "files")).asArray with
    | nil => trivial
    | cons v vs => exact ⟨rfl, _, rfl, rfl⟩
  · exact prompt_of_silent (silent_pushReply _)

/-! ## What a handler answers -/

theorem result_of_mem_fill {s : Sink} (p : Bytes) {r : Reply}
    (hr : r ∈ (fill md5 sequence path total s p).replies) :
    r ∈ s.replies ∨ r.result = .number (.int kResContinue) := by
  fun_induction fill md5 sequence path total s p with
  | case1 s => exact .inl hr
  | case2 s p hp take buf hfull ih =>
    refine (ih hr).elim (fun hmem => ?_) .inr
    refine (List.mem_append.1 hmem).imp_right fun hlast => ?_
    rw [List.mem_singleton.1 hlast]
    rfl
  | case3 s p hp take buf hfull ih => exact ih hr

variable {c : Bool}

theorem ensures_pushReply {r : Reply} {result : ℤ} (hr : r.result = .number (.int result))
    (hresult : result = kResErrCancel → c = true) :
    (pushReply r).Ensures (Permit sequence c) (Answers c) fun _ => True := by
  refine .lift (fun hc heq => ?_) fun _ _ => trivial
  rw [hr] at heq
  cases hc.symm.trans (hresult (Double.int.inj (Value.number.inj heq)))

theorem ensures_isCancelled :
    (isCancelled sequence).Ensures (Permit sequence c) (Answers c) (· = c) :=
  .lift rfl fun _ hx => hx

theorem ensures_runRetr (s : Sink) (pieces : List Bytes) :
    (runRetr md5 sequence path total s pieces).Ensures (Permit sequence c) (Answers c)
      fun r => r.2 = true → c = true := by
  induction pieces generalizing s with
  | nil => exact fun h => by cases h
  | cons data pieces ih =>
    refine ensures_isCancelled.bind fun x hx => ?_
    subst hx
    split
    · next hc => exact fun _ => hc
    · refine Program.Ensures.bind (Q := fun _ => True) (.forM fun r hr => ?_) fun _ _ => ih _
      have hcontinue := (result_of_mem_fill _ hr).resolve_left List.not_mem_nil
      exact ensures_pushReply hcontinue fun h => by cases h

theorem ensures_finishDownload {s : Sink} {cancelled failed : Bool}
    (h : cancelled = true → c = true) :
    (finishDownload md5 sequence path total s cancelled failed).Ensures (Permit sequence c)
      (Answers c) fun _ => True := by
  unfold finishDownload
  split
  · next hc => exact ensures_pushReply rfl fun _ => h hc
  split
  · exact ensures_pushReply rfl fun h => by cases h
  · exact ensures_pushReply rfl fun h => by cases h

theorem ensures_transferFile (f : Fetch) :
    (transferFile md5 sequence path total f).Ensures (Permit sequence c) (Answers c)
      fun _ => True := by
  refine (ensures_runRetr ..).bind fun r hr => ?_
  dsimp only
  split
  · exact (ensures_runRetr ..).bind fun r hr => ensures_finishDownload hr
  · exact ensures_finishDownload hr

theorem truthful_ftpsHandleFileDownload (req : Value) (st : Storage) :
    Truthful sequence (ftpsHandleFileDownload md5 sequence req st) := by
  intro c
  unfold ftpsHandleFileDownload
  dsimp only
  split
  · exact ensures_pushReply rfl fun h => by cases h
  split
  · exact ensures_pushReply rfl fun h => by cases h
  split
  · exact ensures_pushReply rfl fun h => by cases h
  split
  · exact ⟨trivial, fun x => Empty.elim x⟩
  · exact ensures_transferFile _

theorem ensures_pushChunk {result : ℤ} (hresult : result = kResErrCancel → c = true)
    (extra : List (Bytes × Value)) (blob : Bytes) :
    (pushChunk sequence result extra blob).Ensures (Permit sequence c) (Answers c) fun _ => True :=
  ensures_pushReply rfl hresult

theorem not_cancel_ite (b : Bool) {a a' : ℤ} (ha : a ≠ kResErrCancel) (ha' : a' ≠ kResErrCancel)
    (h : (if b then a else a') = kResErrCancel) : c = true := by
  cases b
  · exact absurd h ha'
  · exact absurd h ha

theorem ensures_retrIntoArchive (archive : Bytes) (pieces : List Bytes) :
    (retrIntoArchive sequence archive pieces).Ensures (Permit sequence c) (Answers c)
      fun r => r = none → c = true := by
  induction pieces generalizing archive with
  | nil => exact fun h => by cases h
  | cons data pieces ih =>
    refine ensures_isCancelled.bind fun x hx => ?_
    subst hx
    split
    · next hc => exact fun _ => hc
    · exact ih _

theorem ensures_pushArchive {full : Bytes} {isLastFile : Bool} {total : ℕ} (offset : ℕ)
    (rest : Bytes) :
    (pushArchive sequence full isLastFile total offset rest).Ensures (Permit sequence c) (Answers c)
      fun _ => True := by
  fun_induction pushArchive sequence full isLastFile total offset rest with
  | case1 offset => exact trivial
  | case2 offset rest hrest chunk lastChunk ih =>
    exact (ensures_pushChunk (not_cancel_ite _ (by decide) (by decide)) _ _).bind fun _ _ => ih

theorem ensures_sendArchive (full : Bytes) (isLastFile : Bool) (archive : Bytes) :
    (sendArchive sequence full isLastFile archive).Ensures (Permit sequence c) (Answers c)
      fun _ => True := by
  unfold sendArchive
  split
  · exact ensures_pushChunk (not_cancel_ite _ (by decide) (by decide)) _ _
  · exact ensures_pushArchive ..

theorem ensures_cancelledChunk (h : c = true) :
    (cancelledChunk sequence).Ensures (Permit sequence c) (Answers c) fun _ => True :=
  ensures_pushChunk (fun _ => h) _ _

theorem ensures_fetchModel (fetch : Bytes → Fetch) (bases : List Bytes) :
    (fetchModel sequence fetch bases).Ensures (Permit sequence c) (Answers c) fun _ => True := by
  induction bases with
  | nil => exact trivial
  | cons full bases ih =>
    refine ensures_isCancelled.bind fun x hx => ?_
    subst hx
    split
    · next hc => exact ensures_cancelledChunk hc
    refine (ensures_retrIntoArchive ..).bind fun r hr => ?_
    split
    · exact ensures_cancelledChunk (hr rfl)
    split
    · exact (ensures_sendArchive ..).bind fun _ _ => ih
    split
    · refine (ensures_retrIntoArchive ..).bind fun r hr => ?_
      split
      · exact ensures_cancelledChunk (hr rfl)
      split
      · exact (ensures_sendArchive ..).bind fun _ _ => ih
      · exact ensures_pushChunk (fun h => by cases h) _ _
    · exact ensures_pushChunk (fun h => by cases h) _ _

theorem ensures_pushEmpty (extra : Value → List (Bytes × Value)) (vs : List Value) :
    (pushEmpty sequence extra vs).Ensures (Permit sequence c) (Answers c) fun _ => True := by
  induction vs with
  | nil => exact trivial
  | cons v vs ih =>
    refine ensures_isCancelled.bind fun x hx => ?_
    subst hx
    split
    · next hc => exact ensures_cancelledChunk hc
    · exact (ensures_pushChunk (not_cancel_ite _ (by decide) (by decide)) _ _).bind fun _ _ => ih

theorem truthful_ftpsHandleSubFile (req : Value) (st : Storage) :
    Truthful sequence (ftpsHandleSubFile sequence req st) := by
  intro c
  unfold ftpsHandleSubFile
  split
  · exact ensures_pushChunk (fun h => by cases h) _ _
  dsimp only
  split
  · exact ensures_fetchModel ..
  split
  · exact ensures_pushEmpty ..
  split
  · exact ensures_pushEmpty ..
  · exact ensures_pushChunk (fun h => by cases h) _ _

end

/-! ## Downloads with the answers given -/

/-- The answers to come, and the replies so far. -/
abbrev Tape := StateT (List Bool × List Reply) Option

def answerFrom : (op : Op) → Tape op.Ans
  | .isCancelled _ => fun t => some (t.1.headD false, t.1.tail, t.2)
  | .pushReply r => fun t => some ((), t.1, t.2 ++ [r])
  | .pushWire _ | .cancel _ => fun t => some ((), t)
  | .crash => fun _ => none

/-- The printer of a download, without the answers. -/
def storage (pr : Printer) : Storage where
  connects := pr.connects
  size := pr.size
  reconnect := pr.reconnect
  sizeAgain := pr.sizeAgain
  digest := pr.digest
  fetch _ := ⟨⟨pr.transfer.pieces.map (·.1), pr.transfer.failed⟩, pr.reconnectTransfer,
    ⟨pr.transferAgain.pieces.map (·.1), pr.transferAgain.failed⟩⟩
  answer := errorReply 0 kResOK
  frames := []

/-- The answers that a download gets. -/
def answers (pr : Printer) : List Bool :=
  pr.transfer.pieces.map (·.2) ++ pr.transferAgain.pieces.map (·.2)

section
variable {md5 : Bytes → Bytes} {sequence : ℤ} {path : Bytes} {total : ℕ}

theorem tape_bind {α β : Type} (x : Tape α) (f : α → Tape β) (t : List Bool × List Reply) :
    (x >>= f) t = (x t).bind fun r => f r.1 r.2 := rfl

theorem interp_pushReply (r : Reply) (t : List Bool × List Reply) :
    (pushReply r).interp answerFrom t = some ((), t.1, t.2 ++ [r]) := rfl

theorem interp_forM_pushReply (rs : List Reply) (t : List Bool × List Reply) :
    (rs.forM pushReply).interp answerFrom t = some ((), t.1, t.2 ++ rs) := by
  induction rs generalizing t with
  | nil => exact congrArg (fun rs => some ((), t.1, rs)) (List.append_nil t.2).symm
  | cons r rs ih =>
    show (pushReply r >>= fun _ => rs.forM pushReply).interp answerFrom t = _
    rw [Program.interp_bind, tape_bind, interp_pushReply, Option.bind_some, ih, List.append_assoc]
    rfl

/-- Replies that are there already stay in front. -/
theorem fill_replies (s : Sink) (rs : List Reply) (p : Bytes) :
    fill md5 sequence path total { s with replies := rs ++ s.replies } p =
      { fill md5 sequence path total s p with
        replies := rs ++ (fill md5 sequence path total s p).replies } := by
  fun_induction fill md5 sequence path total s p with
  | case1 s => rw [fill, dif_pos rfl]
  | case2 s p hp take buf hfull ih =>
    rw [fill, dif_neg hp, dif_pos hfull, ← ih]
    congr 1
    simp only [flushChunk, List.append_assoc]
    rfl
  | case3 s p hp take buf hfull ih =>
    rw [fill, dif_neg hp, dif_neg hfull]
    exact ih

/-- A transfer that is answered as the pieces say. -/
theorem interp_runRetr (s : Sink) (pieces : List (Bytes × Bool)) (rs : List Reply)
    (rest : List Bool) :
    ∃ s' rs' cancelled rest',
      Ftps.runRetr md5 sequence path total { s with replies := rs } pieces =
        ({ s' with replies := rs' }, cancelled) ∧
      (runRetr md5 sequence path total s (pieces.map (·.1))).interp answerFrom
        (pieces.map (·.2) ++ rest, rs) = some ((s', cancelled), rest', rs') ∧
      (cancelled = false → rest' = rest) := by
  induction pieces generalizing s rs with
  | nil => exact ⟨s, rs, false, rest, rfl, rfl, fun _ => rfl⟩
  | cons e pieces ih =>
    obtain ⟨data, cancel⟩ := e
    cases cancel with
    | true => exact ⟨s, rs, true, _, rfl, rfl, fun h => by cases h⟩
    | false =>
      obtain ⟨s₁, hs₁⟩ : ∃ s₁, s₁ = fill md5 sequence path total
        { s with digested := s.digested ++ data, replies := [] } data := ⟨_, rfl⟩
      have hfill : fill md5 sequence path total
          { s with digested := s.digested ++ data, replies := rs } data =
          { s₁ with replies := rs ++ s₁.replies } := by
        rw [hs₁, ← fill_replies, List.append_nil]
      obtain ⟨s', rs', cancelled, rest', hold, hnew, hrest⟩ := ih s₁ (rs ++ s₁.replies)
      refine ⟨s', rs', cancelled, rest', ?_, ?_, hrest⟩
      · rw [Ftps.runRetr, if_neg Bool.false_ne_true, hfill]
        exact hold
      · have hasked : (runRetr md5 sequence path total s (data :: pieces.map (·.1))).interp
            answerFrom (false :: (pieces.map (·.2) ++ rest), rs) =
            (s₁.replies.forM pushReply >>= fun _ => runRetr md5 sequence path total s₁
              (pieces.map (·.1))).interp answerFrom (pieces.map (·.2) ++ rest, rs) := by
          rw [hs₁]
          rfl
        refine hasked.trans ?_
        rw [Program.interp_bind, tape_bind, interp_forM_pushReply]
        exact hnew

theorem interp_finishDownload (s : Sink) (cancelled failed : Bool) (flags : List Bool)
    (rs : List Reply) :
    ((finishDownload md5 sequence path total s cancelled failed).interp answerFrom
      (flags, rs)).map (·.2.2) =
      if cancelled then some (rs ++ [errorReply sequence kResErrCancel])
      else if failed then some (rs ++ [errorReply sequence kResFileNoExist])
      else
        let actual := (s.sent + s.buf.length) % 2 ^ 64
        let total := if total = 0 ∨ total ≠ actual then actual else total
        some (flushChunk md5 sequence path true total s.buf { s with replies := rs }).replies := by
  cases cancelled
  · cases failed <;> rfl
  · rfl

theorem interp_transferFile (pr : Printer) :
    ((transferFile md5 sequence path total ((storage pr).fetch path)).interp answerFrom
      (answers pr, [])).map (·.2.2) =
      let (s, cancelled) := Ftps.runRetr md5 sequence path total {} pr.transfer.pieces
      let failed := cancelled || pr.transfer.failed
      let (s, cancelled, failed) :=
        if failed && !cancelled && s.sent = 0 && s.buf = [] then
          if pr.reconnectTransfer = .up then
            let (s, cancelled) := Ftps.runRetr md5 sequence path total { s with digested := [] }
              pr.transferAgain.pieces
            (s, cancelled, cancelled || pr.transferAgain.failed)
          else (s, cancelled, failed)
        else (s, cancelled, failed)
      if cancelled then some (s.replies ++ [errorReply sequence kResErrCancel])
      else if failed then some (s.replies ++ [errorReply sequence kResFileNoExist])
      else
        let actual := (s.sent + s.buf.length) % 2 ^ 64
        let total := if total = 0 ∨ total ≠ actual then actual else total
        some (flushChunk md5 sequence path true total s.buf s).replies := by
  obtain ⟨s, rs, cancelled, rest, hold, hnew, hrest⟩ :=
    @interp_runRetr md5 sequence path total {} pr.transfer.pieces []
      (pr.transferAgain.pieces.map (·.2))
  have hfirst : (runRetr md5 sequence path total {} ((storage pr).fetch path).retr.pieces).interp
      answerFrom (answers pr, []) = some ((s, cancelled), rest, rs) := hnew
  have hold' : Ftps.runRetr md5 sequence path total {} pr.transfer.pieces =
    ({ s with replies := rs }, cancelled) := hold
  rw [hold']
  unfold transferFile
  rw [Program.interp_bind, tape_bind, hfirst, Option.bind_some]
  dsimp only
  show ((if ((cancelled || pr.transfer.failed) && !cancelled && s.sent = 0 && s.buf = [] &&
      pr.reconnectTransfer = .up) = true then
    runRetr md5 sequence path total { s with digested := [] }
      (pr.transferAgain.pieces.map (·.1)) >>= fun r =>
        finishDownload md5 sequence path total r.1 r.2 (r.2 || pr.transferAgain.failed)
    else finishDownload md5 sequence path total s cancelled (cancelled || pr.transfer.failed) :
      Handler Unit).interp answerFrom (rest, rs)).map (·.2.2) = _
  by_cases hfailed : ((cancelled || pr.transfer.failed) && !cancelled && s.sent = 0 && s.buf = []) =
    true
  · rw [if_pos hfailed]
    by_cases hup : pr.reconnectTransfer = .up
    · rw [if_pos hup, if_pos (Bool.and_eq_true_iff.2 ⟨hfailed, decide_eq_true hup⟩)]
      have hasked : cancelled = false := by
        cases cancelled with
        | false => rfl
        | true => simp at hfailed
      subst hasked
      rw [hrest rfl]
      obtain ⟨s', rs', cancelled, rest', hold, hnew, -⟩ :=
        @interp_runRetr md5 sequence path total { s with digested := [] } pr.transferAgain.pieces
          rs []
      rw [List.append_nil] at hnew
      have hagain : Ftps.runRetr md5 sequence path total
          { s with replies := rs, digested := [] } pr.transferAgain.pieces =
          ({ s' with replies := rs' }, cancelled) := hold
      rw [hagain, Program.interp_bind, tape_bind, hnew]
      exact interp_finishDownload ..
    · rw [if_neg hup, if_neg fun h => hup (of_decide_eq_true (Bool.and_eq_true_iff.1 h).2)]
      exact interp_finishDownload ..
  · rw [if_neg hfailed, if_neg fun h => hfailed (Bool.and_eq_true_iff.1 h).1]
    exact interp_finishDownload ..

/-- **A download whose questions are answered as the pieces say** pushes the replies of
`ftpsHandleFileDownload`. -/
theorem interp_ftpsHandleFileDownload (req : Value) (pr : Printer) :
    ((ftpsHandleFileDownload md5 sequence req (storage pr)).interp answerFrom
      (answers pr, [])).map (·.2.2) = Ftps.ftpsHandleFileDownload md5 sequence req pr := by
  have hsize : (storage pr).sizeAnswer = sizeAnswer pr := rfl
  unfold ftpsHandleFileDownload Ftps.ftpsHandleFileDownload
  rw [hsize]
  by_cases hconnects : (!pr.connects) = true
  · rw [if_pos hconnects, if_pos (show (!(storage pr).connects) = true from hconnects)]
    rfl
  rw [if_neg hconnects, if_neg (show ¬ (!(storage pr).connects) = true from hconnects)]
  dsimp only
  by_cases hpath : downloadPath req = []
  · rw [if_pos hpath, if_pos hpath]
    rfl
  rw [if_neg hpath, if_neg hpath]
  by_cases hdigest : (!pr.digest) = true
  · rw [if_pos hdigest, if_pos (show (!(storage pr).digest) = true from hdigest)]
    rfl
  rw [if_neg hdigest, if_neg (show ¬ (!(storage pr).digest) = true from hdigest)]
  by_cases hclient : pr.size = none ∧ pr.reconnect = .down
  · rw [if_pos hclient, if_pos (show (storage pr).size = none ∧ (storage pr).reconnect = .down
      from hclient)]
    rfl
  rw [if_neg hclient, if_neg (show ¬ ((storage pr).size = none ∧ (storage pr).reconnect = .down)
      from hclient)]
  exact interp_transferFile pr

end

end Handler

end BambooNet.Tunnel.Ftps
