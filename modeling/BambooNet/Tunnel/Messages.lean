import BambooNet.Json.Dump
import BambooNet.Tunnel.Frame

/-!
# Messages of the tunnel

A payload is a JSON text, with binary data after it in some of them. `take_pending_wire_json`
empties the receive buffer of complete frames and returns their JSON texts.

Main result: `takePending_chunks`, the messages and the bytes that stay in the buffer do not depend
on how the stream was cut into appends.
-/

namespace BambooNet.Tunnel

open Json

/-! ## Payloads -/

/-- The length of the JSON object at the front of `data`: up to the brace that closes the first.
`depth` braces are open, and inside of a string `esc` says that a backslash came last. -/
def scanJson (depth : ℕ) (inStr esc : Bool) : Bytes → Option ℕ
  | [] => none
  | c :: data =>
    if inStr then
      if esc then (scanJson depth true false data).map (· + 1)
      else if c = backslash then (scanJson depth true true data).map (· + 1)
      else (scanJson depth (c ≠ quote) false data).map (· + 1)
    else if c = quote then (scanJson depth true false data).map (· + 1)
    else if c = lbrace then (scanJson (depth + 1) false false data).map (· + 1)
    else if c = rbrace then
      if depth = 1 then some 1 else (scanJson (depth - 1) false false data).map (· + 1)
    else (scanJson depth false false data).map (· + 1)

/-- Binary data follows two line ends, if it has a separator at all. -/
def dropSeparator : Bytes → Bytes
  | 0x0a :: 0x0a :: bin => bin
  | 0x0d :: 0x0a :: 0x0d :: 0x0a :: bin => bin
  | bin => bin

/-- The JSON object at the front of a payload and the binary data after it. -/
def splitJsonPrefix (data : Bytes) : Option (Bytes × Bytes) :=
  if data.head? = some lbrace then
    (scanJson 0 false false data).map fun n => (data.take n, dropSeparator (data.drop n))
  else none

/-- The message of a payload. -/
def wireJson (body : Bytes) : Option Bytes :=
  if body = [] then none
  else
    match splitJsonPrefix body with
    | some (json, _) => if json = [] then none else some json
    | none => some body

/-- `static_cast<int>` of a 64-bit integer. -/
def toInt32 (i : ℤ) : ℤ := i.bmod (2 ^ 32)

/-- An integer field of a wire message, -1 when the message does not parse. -/
def parseWireField (field wireJson : Bytes) : ℤ :=
  match parse wireJson with
  | .error _ => -1
  | .ok root => toInt32 ((root.find field).asInt (-1))

def parseWireResult : Bytes → ℤ := parseWireField (ascii "result")

/-- The inner reply as a text, empty when there is none. -/
def parseWireReplyJson (wireJson : Bytes) : Bytes :=
  match parse wireJson with
  | .error _ => []
  | .ok root =>
    match root.find (ascii "reply") with
    | .object reply => (Value.object reply).dump
    | _ => []

/-! ## The receive buffer -/

/-- The rounds of `take_pending_wire_json`; `none` when a scan of the buffer does not return, or
when there are more rounds than `fuel`. -/
def takeLoop : ℕ → Bytes → List Bytes → Option (List Bytes × Bytes)
  | 0, _, _ => none
  | fuel + 1, recvBuf, msgs =>
    match consumeFrames recvBuf with
    | .done consumed bodies =>
      if consumed = 0 then some (msgs, recvBuf)
      else takeLoop fuel (recvBuf.drop consumed) (msgs ++ bodies.filterMap wireJson)
    | .overread | .running => none

/-- The messages and what stays in the buffer. A round but the last takes a frame at least. -/
def takePendingWireJson (recvBuf : Bytes) : Option (List Bytes × Bytes) :=
  takeLoop (recvBuf.length + 2) recvBuf []

/-- Append the pieces of a stream to the buffer, taking the messages after each. -/
def takeChunks (recvBuf : Bytes) : List Bytes → Option (List Bytes × Bytes)
  | [] => some ([], recvBuf)
  | c :: cs => do
    let (msgs, recvBuf) ← takePendingWireJson (recvBuf ++ c)
    let (msgs', recvBuf) ← takeChunks recvBuf cs
    some (msgs ++ msgs', recvBuf)

theorem consumeFrames_of_noWrap {data : Bytes} (h : NoWrap data) :
    consumeFrames data =
      .done (tunnelFraming.wireLen (tunnelFraming.split data).1) (tunnelFraming.split data).1 := by
  simpa [consumeFrames] using
    scan_of_noWrap data 0 [] (data.length + 1) (by omega) (by simpa using h)

theorem NoWrap.rest {s t : Bytes} (h : NoWrap (s ++ t)) :
    NoWrap ((tunnelFraming.split s).2 ++ t) := fun n hn =>
  h n (tunnelFraming.mem_announced_rest hn)

theorem NoWrap.left {s t : Bytes} (h : NoWrap (s ++ t)) : NoWrap s := fun n hn =>
  h n (tunnelFraming.mem_announced_append hn t)

/-- A frame takes its header at least. -/
theorem wireLen_eq_zero {bodies : List Bytes} : tunnelFraming.wireLen bodies = 0 ↔ bodies = [] := by
  cases bodies with
  | nil => simp
  | cons b bodies => simp

/-- **The buffer is emptied of complete frames**: the first round takes them all, the second finds
none. -/
theorem takePendingWireJson_eq {recvBuf : Bytes} (h : NoWrap recvBuf) :
    takePendingWireJson recvBuf = some ((tunnelFraming.split recvBuf).1.filterMap wireJson,
      (tunnelFraming.split recvBuf).2) := by
  have hlast {fuel : ℕ} {buf : Bytes} {msgs : List Bytes} (hw : NoWrap buf)
      (hc : ¬ tunnelFraming.Complete buf) : takeLoop (fuel + 1) buf msgs = some (msgs, buf) := by
    rw [takeLoop, consumeFrames_of_noWrap hw, tunnelFraming.split_of_not_complete hc]
    rfl
  by_cases hc : tunnelFraming.Complete recvBuf
  · have hrest : NoWrap (tunnelFraming.split recvBuf).2 := by
      have hw : NoWrap (recvBuf ++ []) := by rwa [List.append_nil]
      simpa using hw.rest
    have hne : tunnelFraming.wireLen (tunnelFraming.split recvBuf).1 ≠ 0 := by
      rw [Ne, wireLen_eq_zero, tunnelFraming.split_of_complete hc]
      simp
    rw [takePendingWireJson, takeLoop, consumeFrames_of_noWrap h]
    simp only [if_neg hne, ← tunnelFraming.split_rest]
    exact hlast hrest (tunnelFraming.not_complete_rest _)
  · rw [takePendingWireJson, hlast h hc, tunnelFraming.split_of_not_complete hc]
    rfl

theorem takeChunks_eq {recvBuf : Bytes} (hbuf : ¬ tunnelFraming.Complete recvBuf)
    (cs : List Bytes) (h : NoWrap (recvBuf ++ cs.flatten)) :
    takeChunks recvBuf cs = some ((tunnelFraming.receive recvBuf cs).1.filterMap wireJson,
      (tunnelFraming.receive recvBuf cs).2) := by
  induction cs generalizing recvBuf with
  | nil => rfl
  | cons c cs ih =>
    rw [List.flatten_cons, ← List.append_assoc] at h
    rw [takeChunks, takePendingWireJson_eq h.left]
    simp only [Option.bind_eq_bind, Option.bind_some, ih (tunnelFraming.not_complete_rest _) h.rest,
      Framing.receive, List.filterMap_append]

/-- **The messages do not depend on how the stream is cut.** Two ways of cutting a stream into
appends give the same messages and leave the same bytes in the buffer, as long as no header
announces a payload whose frame length wraps. -/
theorem takePending_chunks {cs cs' : List Bytes} (hcut : cs.flatten = cs'.flatten)
    (h : NoWrap cs.flatten) : ∃ r, takeChunks [] cs = some r ∧ takeChunks [] cs' = some r := by
  have hnil : ¬ tunnelFraming.Complete [] := by
    simp [Framing.Complete]
  have heq (ds : List Bytes) (hds : ds.flatten = cs.flatten) : takeChunks [] ds =
      some ((tunnelFraming.split cs.flatten).1.filterMap wireJson,
        (tunnelFraming.split cs.flatten).2) := by
    rw [takeChunks_eq hnil ds (by rwa [List.nil_append, hds]), tunnelFraming.receive_eq hnil,
      List.nil_append, hds]
  exact ⟨_, heq cs rfl, heq cs' hcut.symm⟩

/-- A frame with an empty object. -/
def tinyFrame : Bytes := [2, 0, 0, 0, 0, 0, 0, 0, 0, 0, 0, 0, 0, 0, 0, 0, 0x7b, 0x7d]

theorem noWrap_tinyFrame : NoWrap tinyFrame := by
  intro n hn
  have hafter : tunnelFraming.announced (tunnelFraming.after tinyFrame) = [] :=
    tunnelFraming.announced_of_lt (by decide)
  rw [tunnelFraming.announced_of_le (by decide), hafter, ite_self, List.mem_singleton] at hn
  rw [hn]
  decide

theorem takePending_chunks_tinyFrame : ∃ r, takeChunks [] [tinyFrame] = some r ∧
    takeChunks [] [tinyFrame.take 7, tinyFrame.drop 7] = some r :=
  takePending_chunks (by decide) (by simpa using noWrap_tinyFrame)

end BambooNet.Tunnel
