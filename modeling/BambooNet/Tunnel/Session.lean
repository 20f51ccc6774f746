import BambooNet.Tunnel.Messages

/-!
# Receiving on a tunnel session

`recv_payload_until` reads until a frame is complete and returns its payload. It erases all
complete frames from the receive buffer and returns the first of them, so that the others are gone
when one read completes several (`recv_lossless_iff`).

**The environment** is a list of events: what the successive reads of the transport give, and the
checks of the clock that find the deadline passed. A call takes the events it needs and leaves the
rest to the next one.
-/

namespace BambooNet.Tunnel

open Json

/-! ## Calls -/

/-- What the environment does next. -/
inductive Event
  /-- A read gives bytes, or none when the peer has closed. -/
  | read (chunk : Bytes)
  /-- A read has to wait for the socket. -/
  | wouldBlock
  /-- A read fails. -/
  | failed
  /-- The deadline has passed. -/
  | late

/-- What a call comes to. -/
inductive Recv
  | payload (out : Bytes)
  | late
  | wouldBlock
  | failed
  /-- The scan of the buffer does not return. -/
  | fault
  /-- The call waits for what the environment does next. -/
  | waiting

/-- `recv_payload_until`: the result, the receive buffer and the events that are left. -/
def recvPayloadUntil (recvBuf : Bytes) (es : List Event) : Recv × Bytes × List Event :=
  match consumeFrames recvBuf with
  | .done consumed bodies =>
    let recvBuf := recvBuf.drop consumed
    match bodies with
    | out :: _ => (.payload out, recvBuf, es)
    | [] =>
      match es with
      | [] => (.waiting, recvBuf, [])
      | .late :: es => (.late, recvBuf, es)
      | .wouldBlock :: es => (.wouldBlock, recvBuf, es)
      | .failed :: es => (.failed, recvBuf, es)
      | .read chunk :: es =>
        if chunk = [] then (.failed, recvBuf, es) else recvPayloadUntil (recvBuf ++ chunk) es
  | .overread | .running => (.fault, recvBuf, es)

/-- The payloads that `n` successive calls return. A caller calls again after a call that came back
without a payload, and gives up after one that failed. -/
def recvCalls : ℕ → Bytes → List Event → List Bytes
  | 0, _, _ => []
  | n + 1, recvBuf, es =>
    match recvPayloadUntil recvBuf es with
    | (.payload out, recvBuf, es) => out :: recvCalls n recvBuf es
    | (.wouldBlock, recvBuf, es) | (.late, recvBuf, es) => recvCalls n recvBuf es
    | (.failed, _, _) | (.fault, _, _) | (.waiting, _, _) => []

/-- The bytes that are read, up to a failure. -/
def reads : List Event → List Bytes
  | [] | .failed :: _ => []
  | .read chunk :: es => if chunk = [] then [] else chunk :: reads es
  | .wouldBlock :: es | .late :: es => reads es

/-! ## What the calls return -/

variable {recvBuf : Bytes} {es : List Event} {n : ℕ}

/-- A call with complete frames in the buffer returns the first and drops the others. -/
theorem recvPayloadUntil_frames (hw : NoWrap recvBuf) {out : Bytes} {rest : List Bytes}
    (h : (tunnelFraming.split recvBuf).1 = out :: rest) (es : List Event) :
    recvPayloadUntil recvBuf es = (.payload out, (tunnelFraming.split recvBuf).2, es) := by
  have hrest := tunnelFraming.split_rest recvBuf
  rw [h] at hrest
  unfold recvPayloadUntil
  simp only [consumeFrames_of_noWrap hw, h, hrest]

/-- A call without a complete frame waits for the next event. -/
theorem recvPayloadUntil_event (hw : NoWrap recvBuf) (h : (tunnelFraming.split recvBuf).1 = [])
    (es : List Event) :
    recvPayloadUntil recvBuf es =
      match es with
      | [] => (.waiting, recvBuf, [])
      | .late :: es => (.late, recvBuf, es)
      | .wouldBlock :: es => (.wouldBlock, recvBuf, es)
      | .failed :: es => (.failed, recvBuf, es)
      | .read chunk :: es =>
        if chunk = [] then (.failed, recvBuf, es) else recvPayloadUntil (recvBuf ++ chunk) es := by
  conv_lhs => unfold recvPayloadUntil
  simp only [consumeFrames_of_noWrap hw, h, Framing.wireLen_nil, List.drop_zero]

/-- The calls depend on the buffer and the events through the first of them. -/
theorem recvCalls_congr {recvBuf' : Bytes} {es' : List Event}
    (h : recvPayloadUntil recvBuf es = recvPayloadUntil recvBuf' es') (n : ℕ) :
    recvCalls n recvBuf es = recvCalls n recvBuf' es' := by
  cases n with
  | zero => rfl
  | succ n => rw [recvCalls, recvCalls, h]

theorem recvCalls_frames (hw : NoWrap recvBuf) {out : Bytes} {rest : List Bytes}
    (h : (tunnelFraming.split recvBuf).1 = out :: rest) (n : ℕ) (es : List Event) :
    recvCalls (n + 1) recvBuf es = out :: recvCalls n (tunnelFraming.split recvBuf).2 es := by
  rw [recvCalls, recvPayloadUntil_frames hw h]

/-- **One payload for each read that completes a frame**, whatever the number of frames. -/
theorem recvCalls_batches (hbuf : (tunnelFraming.split recvBuf).1 = []) (hn : es.length ≤ n)
    (hw : NoWrap (recvBuf ++ (reads es).flatten)) :
    recvCalls n recvBuf es = (tunnelFraming.batches recvBuf (reads es)).flatMap (·.take 1) := by
  induction es generalizing recvBuf n with
  | nil =>
    cases n with
    | zero => rfl
    | succ n =>
      rw [recvCalls, recvPayloadUntil_event (by simpa [reads] using hw) hbuf]
      rfl
  | cons e es ih =>
    obtain ⟨n, rfl⟩ : ∃ m, n = m + 1 := ⟨n - 1, by simp at hn; omega⟩
    replace hn : es.length ≤ n := by simpa using hn
    have hevent := recvPayloadUntil_event hw.left hbuf (e :: es)
    cases e with
    | failed =>
      rw [recvCalls, hevent]
      rfl
    | wouldBlock =>
      rw [recvCalls, hevent]
      exact ih hbuf hn hw
    | late =>
      rw [recvCalls, hevent]
      exact ih hbuf hn hw
    | read chunk =>
      by_cases hchunk : chunk = []
      · rw [recvCalls, hevent]
        simp [reads, hchunk, Framing.batches]
      · have hreads : reads (.read chunk :: es) = chunk :: reads es := if_neg hchunk
        rw [hreads, List.flatten_cons, ← List.append_assoc] at hw
        rw [recvCalls_congr (hevent.trans (if_neg hchunk)), hreads, Framing.batches,
          List.flatMap_cons]
        cases hsplit : (tunnelFraming.split (recvBuf ++ chunk)).1 with
        | nil =>
          have hrest : (tunnelFraming.split (recvBuf ++ chunk)).2 = recvBuf ++ chunk := by
            rw [tunnelFraming.split_rest, hsplit, Framing.wireLen_nil, List.drop_zero]
          rw [hrest, ih hsplit (by omega) hw]
          rfl
        | cons out rest =>
          have hdone := tunnelFraming.split_of_not_complete
            (tunnelFraming.not_complete_rest (recvBuf ++ chunk))
          rw [recvCalls_frames hw.left hsplit, ih (by rw [hdone]) hn hw.rest]
          rfl

/-- The frames in the buffer count as one read more. -/
theorem recvCalls_eq (hn : es.length < n) (hw : NoWrap (recvBuf ++ (reads es).flatten)) :
    recvCalls n recvBuf es =
      (tunnelFraming.batches [] (recvBuf :: reads es)).flatMap (·.take 1) := by
  rw [Framing.batches, List.nil_append, List.flatMap_cons]
  cases hsplit : (tunnelFraming.split recvBuf).1 with
  | nil =>
    have hrest : (tunnelFraming.split recvBuf).2 = recvBuf := by
      rw [tunnelFraming.split_rest, hsplit, Framing.wireLen_nil, List.drop_zero]
    rw [hrest, recvCalls_batches hsplit hn.le hw]
    rfl
  | cons out rest =>
    obtain ⟨n, rfl⟩ : ∃ m, n = m + 1 := ⟨n - 1, by omega⟩
    have hdone := tunnelFraming.split_of_not_complete (tunnelFraming.not_complete_rest recvBuf)
    rw [recvCalls_frames hw.left hsplit, recvCalls_batches (by rw [hdone]) (by omega) hw.rest]
    rfl

/-- Taking the first of each list gives all of them when none has more than one. -/
theorem flatMap_take_one_iff {α : Type*} {l : List (List α)} :
    l.flatMap (·.take 1) = l.flatten ↔ ∀ b ∈ l, b.length ≤ 1 := by
  have hle (l : List (List α)) : (l.flatMap (·.take 1)).length ≤ l.flatten.length := by
    induction l with
    | nil => simp
    | cons b l ih =>
      rw [List.flatMap_cons, List.flatten_cons, List.length_append, List.length_append,
        List.length_take]
      omega
  constructor
  · intro h
    induction l with
    | nil => simp
    | cons b l ih =>
      rw [List.flatMap_cons, List.flatten_cons] at h
      have hlen := congrArg List.length h
      have hl := hle l
      rw [List.length_append, List.length_append, List.length_take] at hlen
      have hb : b.length ≤ 1 := by omega
      rw [List.take_of_length_le hb] at h
      exact List.forall_mem_cons.2 ⟨hb, ih (List.append_cancel_left h)⟩
  · intro h
    induction l with
    | nil => rfl
    | cons b l ih =>
      obtain ⟨hb, hl⟩ := List.forall_mem_cons.1 h
      rw [List.flatMap_cons, List.flatten_cons, List.take_of_length_le hb, ih hl]

/-! ## Downloads -/

/-- `reply_has_mem_dl_param`. -/
def replyHasMemDlParam (wireJson : Bytes) : Bool :=
  match parse wireJson with
  | .error _ => false
  | .ok root =>
    let reply := root.find (ascii "reply")
    match reply.isObject, reply.find (ascii "mem_dl_param_size") with
    | true, .number size => size.isPos
    | _, _ => false

/-- Why a download ends without its data. The transport describes its own errors. -/
inductive DownloadError
  | missingPath
  | transport
  | cancelled
  | result (code : ℤ)

def DownloadError.text : DownloadError → Bytes
  | missingPath => ascii "missing download path"
  | transport => []
  | cancelled => ascii "cancelled"
  | result code => ascii "download failed wire result=" ++ decimalInt code

structure DownloadOutcome where
  ok : Bool := false
  data : Bytes := []
  wireResult : ℤ := 0
  error : Option DownloadError := none
  jsonBody : Bytes := []

/-- The message and the binary data of a payload. -/
def wireParts (payload : Bytes) : Bytes × Bytes := (splitJsonPrefix payload).getD (payload, [])

/-- The data that a payload adds to a download. -/
def downloadChunk (payload : Bytes) : Bytes :=
  let (wireJson, chunk) := wireParts payload
  if chunk ≠ [] ∧ replyHasMemDlParam wireJson = false then chunk else []

/-- The loop of `run_download` over the payloads that the calls return; `cancelled` tells whether
the download is cancelled after so many frames. -/
def downloadLoop (cancelled : ℕ → Bool) : ℕ → DownloadOutcome → List Bytes → DownloadOutcome
  | frames, out, [] =>
    { out with error := some (if cancelled frames then .cancelled else .transport) }
  | frames, out, payload :: payloads =>
    if cancelled frames then { out with error := some .cancelled }
    else
      let (wireJson, _) := wireParts payload
      let result := parseWireResult wireJson
      let out := { out with wireResult := result, data := out.data ++ downloadChunk payload }
      if result = 1 then downloadLoop cancelled (frames + 1) out payloads
      else if result = 0 then
        let reply := parseWireReplyJson wireJson
        { out with ok := true, jsonBody := if reply = [] then wireJson else reply }
      else { out with error := some (.result result) }

/-- `run_download` with `n` calls; `sent` tells whether the request is sent. What is in the buffer
before the request is drained. `none` when a scan of the buffer does not return. -/
def runDownload (path : Bytes) (sent : Bool) (cancelled : ℕ → Bool) (n : ℕ) (recvBuf : Bytes)
    (es : List Event) : Option DownloadOutcome :=
  if path = [] then some { error := some .missingPath }
  else
    match takePendingWireJson recvBuf with
    | none => none
    | some (_, recvBuf) =>
      if sent then some (downloadLoop cancelled 0 {} (recvCalls n recvBuf es))
      else some { error := some .transport }

/-- The payloads of a transfer: up to the first whose result is not Continue. -/
def transfer : List Bytes → List Bytes
  | [] => []
  | payload :: payloads =>
    payload :: if parseWireResult (wireParts payload).1 = 1 then transfer payloads else []

/-- **Every chunk of the transfer is appended in order.** -/
theorem downloadLoop_data (frames : ℕ) (out : DownloadOutcome) (payloads : List Bytes) :
    (downloadLoop (fun _ => false) frames out payloads).data =
      out.data ++ (transfer payloads).flatMap downloadChunk := by
  induction payloads generalizing frames out with
  | nil => simp [downloadLoop, transfer]
  | cons payload payloads ih =>
    simp only [downloadLoop, transfer, Bool.false_eq_true, if_false]
    split
    · next hcontinue => simp [ih, hcontinue]
    · split <;> simp

/-! ## No frame is lost -/

/-- The calls that the events allow return every frame once and in order, and a download that is
started now gets the data of its whole transfer. -/
structure Lossless (recvBuf : Bytes) (es : List Event) : Prop where
  calls : ∀ n, es.length < n →
    recvCalls n recvBuf es = (tunnelFraming.split (recvBuf ++ (reads es).flatten)).1
  download : ∀ n path, es.length < n → path ≠ [] →
    ∃ out, runDownload path true (fun _ => false) n recvBuf es = some out ∧
      out.data = (transfer (tunnelFraming.split
        ((tunnelFraming.split recvBuf).2 ++ (reads es).flatten)).1).flatMap downloadChunk

/-- Every read completes one frame at most, and so does what is in the buffer before. -/
def OneAtATime (recvBuf : Bytes) (es : List Event) : Prop :=
  ∀ b ∈ tunnelFraming.batches [] (recvBuf :: reads es), b.length ≤ 1

theorem not_complete_nil : ¬ tunnelFraming.Complete [] := by
  simp [Framing.Complete]

theorem batches_flatten (recvBuf : Bytes) (es : List Event) :
    (tunnelFraming.batches [] (recvBuf :: reads es)).flatten =
      (tunnelFraming.split (recvBuf ++ (reads es).flatten)).1 := by
  rw [← tunnelFraming.receive_fst, tunnelFraming.receive_eq not_complete_nil, List.flatten_cons,
    List.nil_append]

/-- The calls return all frames exactly when the frames come one at a time. -/
theorem recvCalls_iff (hn : es.length < n) (hw : NoWrap (recvBuf ++ (reads es).flatten)) :
    recvCalls n recvBuf es = (tunnelFraming.split (recvBuf ++ (reads es).flatten)).1 ↔
      OneAtATime recvBuf es := by
  rw [recvCalls_eq hn hw, ← batches_flatten]
  exact flatMap_take_one_iff

/-- **Nothing is lost if and only if the frames come one at a time**, on a stream without a header
whose frame length wraps. -/
theorem recv_lossless_iff (hw : NoWrap (recvBuf ++ (reads es).flatten)) :
    Lossless recvBuf es ↔ OneAtATime recvBuf es := by
  constructor
  · intro h
    exact (recvCalls_iff (Nat.lt_succ_self _) hw).1 (h.calls _ (Nat.lt_succ_self _))
  · intro h
    refine ⟨fun n hn => (recvCalls_iff hn hw).2 h, fun n path hn hpath => ?_⟩
    have hrest : OneAtATime (tunnelFraming.split recvBuf).2 es := by
      have hdone := tunnelFraming.split_of_not_complete (tunnelFraming.not_complete_rest recvBuf)
      obtain ⟨-, hes⟩ := List.forall_mem_cons.1 h
      rw [List.nil_append] at hes
      refine List.forall_mem_cons.2 ⟨?_, ?_⟩
      · rw [List.nil_append, hdone]
        exact Nat.zero_le 1
      · rwa [List.nil_append, hdone]
    refine ⟨downloadLoop (fun _ => false) 0 {} (recvCalls n (tunnelFraming.split recvBuf).2 es),
      ?_, ?_⟩
    · rw [runDownload, if_neg hpath, takePendingWireJson_eq hw.left]
      rfl
    · rw [downloadLoop_data, (recvCalls_iff hn hw.rest).2 hrest]
      rfl

/-- Two frames in two reads, of which the first ends in the header of the second frame. -/
def twoReads : List Event :=
  [.read (tinyFrame ++ tinyFrame.take 5), .wouldBlock, .read (tinyFrame.drop 5)]

theorem encodes_tinyFrame : tunnelFraming.Encodes tinyFrame [0x7b, 0x7d] :=
  ⟨by decide, by decide, by decide⟩

theorem noWrap_twoFrames : NoWrap (tinyFrame ++ tinyFrame) := by
  intro n hn
  have hheader : tunnelFraming.hdr ≤ (tinyFrame ++ tinyFrame).length := by decide
  have hafter : tunnelFraming.after (tinyFrame ++ tinyFrame) = tinyFrame := by decide
  rw [tunnelFraming.announced_of_le hheader, hafter] at hn
  split at hn
  · rcases List.mem_cons.1 hn with rfl | hn
    · decide
    · exact noWrap_tinyFrame n hn
  · rw [List.mem_singleton.1 hn]
    decide

theorem oneAtATime_twoReads : OneAtATime [] twoReads := by
  have hnone {s : Bytes} (h : ¬ tunnelFraming.Complete s) : tunnelFraming.split s = ([], s) :=
    tunnelFraming.split_of_not_complete h
  have hfirst : tunnelFraming.split (tinyFrame ++ tinyFrame.take 5) =
      ([[0x7b, 0x7d]], tinyFrame.take 5) := by
    rw [tunnelFraming.split_encode_append encodes_tinyFrame, hnone (by decide)]
  have hsecond : tunnelFraming.split (tinyFrame.take 5 ++ tinyFrame.drop 5) =
      ([[0x7b, 0x7d]], []) := by
    have hsplit := tunnelFraming.split_encode (.cons encodes_tinyFrame .nil)
    rwa [List.flatten_singleton] at hsplit
  have hreads : reads twoReads = [tinyFrame ++ tinyFrame.take 5, tinyFrame.drop 5] := rfl
  rw [OneAtATime, hreads, Framing.batches, List.append_nil, hnone not_complete_nil,
    Framing.batches, List.nil_append, hfirst, Framing.batches, hsecond, Framing.batches]
  simp

theorem recv_lossless_twoReads : Lossless [] twoReads :=
  (recv_lossless_iff noWrap_twoFrames).2 oneAtATime_twoReads

/-- Of two frames that one read completes the second is lost. -/
theorem two_frames_lost : ¬ Lossless [] [.read (tinyFrame ++ tinyFrame)] := by
  intro h
  have hsplit : tunnelFraming.split [tinyFrame, tinyFrame].flatten = _ :=
    tunnelFraming.split_encode (.cons encodes_tinyFrame (.cons encodes_tinyFrame .nil))
  have hcalls : recvCalls 2 [] [.read (tinyFrame ++ tinyFrame)] = [[0x7b, 0x7d]] := by decide
  have hall := h.calls 2 (by decide)
  rw [hcalls] at hall
  have hreads : [] ++ (reads [.read (tinyFrame ++ tinyFrame)]).flatten =
      [tinyFrame, tinyFrame].flatten := by decide
  rw [hreads, hsplit] at hall
  simp at hall

end BambooNet.Tunnel
