import BambooNet.Json.Dump
import BambooNet.Lib.Chunks

/-!
# Downloads over the FTPS bridge

A file is passed on in chunks of 256 KiB, each in a reply of its own. A chunk leaves as soon as it
is full, before it is known whether anything follows.

**The last chunk of a file** therefore goes out as one among others, without the digest, when it is
full and the size was known beforehand. `downloadStream_iff` says that this is the only way in which
the replies fall short of what the receiver relies on.
-/

namespace BambooNet.Tunnel.Ftps

open Json

def kCmdFileDownload : ℤ := 0x0004

def kResOK : ℤ := 0
def kResContinue : ℤ := 1
def kResErrCancel : ℤ := 4
def kResFileNoExist : ℤ := 10
def kResStorUnavail : ℤ := 17

def kChunkSize : ℕ := 256 * 1024

/-! ## Replies -/

/-- A pushed reply: the envelope and the binary part after it. -/
structure Reply where
  env : Value
  blob : Bytes

def makeReplyEnvelope (cmdtype sequence result : ℤ) (reply : Value) : Value :=
  .object (Entries.ofList [(ascii "cmdtype", .number (.int cmdtype)),
    (ascii "sequence", .number (.int sequence)), (ascii "result", .number (.int result)),
    (ascii "reply", reply)])

def makeWireReply (r : Reply) : Bytes :=
  r.env.dump ++ if r.blob = [] then [] else ascii "\n\n" ++ r.blob

/-- A reply without a body. -/
def errorReply (sequence result : ℤ) : Reply where
  env := makeReplyEnvelope kCmdFileDownload sequence result (.object [])
  blob := []

def Reply.result (r : Reply) : Value := r.env.find (ascii "result")

/-- A member of the body. -/
def Reply.field (r : Reply) (name : Bytes) : Value := (r.env.find (ascii "reply")).find name

/-- The body of a reply with a chunk, the digest in the last one only. -/
def chunkReply (sequence : ℤ) (path : Bytes) (result : ℤ) (sent total : ℕ)
    (fileMd5 : Option Bytes) (buf : Bytes) : Reply where
  env := makeReplyEnvelope kCmdFileDownload sequence result (.object (Entries.ofList (
    [(ascii "path", .string path), (ascii "offset", .number (.ofNat sent)),
      (ascii "total", .number (.ofNat total)), (ascii "size", .number (.ofNat buf.length))] ++
    (fileMd5.map fun hex => (ascii "file_md5", .string hex)).toList)))
  blob := buf

/-! ## The printer -/

/-- What `retr` does: the pieces it delivers, each with whether the request has been cancelled by
then, and whether it ends with an error. -/
structure Transfer where
  pieces : List (Bytes × Bool)
  failed : Bool

/-- What `reconnect_ftp` leaves: no client, a client without storage, or a working client. -/
inductive Reconnect
  | down
  | unmounted
  | up
  deriving DecidableEq

structure Printer where
  /-- `ensure_ftp` succeeds. -/
  connects : Bool
  /-- The answer to SIZE. -/
  size : Option ℕ
  /-- The reconnect after SIZE has failed, and the answer to the second SIZE. -/
  reconnect : Reconnect
  sizeAgain : Option ℕ
  /-- The digest can be set up. -/
  digest : Bool
  transfer : Transfer
  /-- The reconnect after a transfer has failed, and the second transfer. -/
  reconnectTransfer : Reconnect
  transferAgain : Transfer

/-- The size that is known before the transfer. -/
def sizeAnswer (pr : Printer) : Option ℕ :=
  match pr.size with
  | some n => some n
  | none =>
    match pr.reconnect with
    | .up => pr.sizeAgain
    | _ => none

/-! ## The chunker -/

/-- What the data callback works on. A full buffer is flushed at once. -/
structure Sink where
  buf : Bytes := []
  sent : ℕ := 0
  /-- The bytes given to the digest. -/
  digested : Bytes := []
  replies : List Reply := []
  room : buf.length < kChunkSize := by decide

section
variable (md5 : Bytes → Bytes) (sequence : ℤ) (path : Bytes) (total : ℕ)

/-- `flush_chunk` with a buffer that may be full. -/
def flushChunk (last : Bool) (total : ℕ) (buf : Bytes) (s : Sink) : Sink where
  buf := []
  sent := (s.sent + buf.length) % 2 ^ 64
  digested := s.digested
  replies := s.replies ++ [chunkReply sequence path (if last then kResOK else kResContinue) s.sent
    total (if last then some (md5 s.digested) else none) buf]

/-- The loop of the data callback. -/
def fill (s : Sink) (p : Bytes) : Sink :=
  if hp : p = [] then s
  else
    let take := min p.length (kChunkSize - s.buf.length)
    let buf := s.buf ++ p.take take
    if hfull : buf.length = kChunkSize then
      fill (flushChunk md5 sequence path false total buf s) (p.drop take)
    else
      fill { s with
        buf := buf
        room := by
          have := s.room
          simp only [buf, take, List.length_append, List.length_take] at hfull ⊢
          omega } (p.drop take)
termination_by p.length
decreasing_by
  all_goals
    have := s.room
    have := List.length_pos_iff.mpr hp
    simp only [List.length_drop]
    omega

/-- One transfer, and whether it was cancelled. -/
def runRetr (s : Sink) : List (Bytes × Bool) → Sink × Bool
  | [] => (s, false)
  | (data, cancel) :: pieces =>
    if cancel then (s, true)
    else
      runRetr (fill md5 sequence path total { s with digested := s.digested ++ data } data) pieces

end

/-- The path of a request. -/
def downloadPath (req : Value) : Bytes :=
  let path := (req.find (ascii "path")).asString
  if path = [] then (req.find (ascii "file")).asString else path

/-- The replies that are pushed; `none` when the client is used after it is gone. `md5` is the
digest in hexadecimal. -/
def ftpsHandleFileDownload (md5 : Bytes → Bytes) (sequence : ℤ) (req : Value) (pr : Printer) :
    Option (List Reply) :=
  if !pr.connects then some [errorReply sequence kResStorUnavail]
  else
    let path := downloadPath req
    if path = [] then some [errorReply sequence kResFileNoExist]
    else
      let total := min ((sizeAnswer pr).getD 0) (2 ^ 64 - 1)
      if !pr.digest then some [errorReply sequence kResFileNoExist]
      else if pr.size = none ∧ pr.reconnect = .down then none
      else
        let (s, cancelled) := runRetr md5 sequence path total {} pr.transfer.pieces
        let failed := cancelled || pr.transfer.failed
        let (s, cancelled, failed) :=
          if failed && !cancelled && s.sent = 0 && s.buf = [] then
            if pr.reconnectTransfer = .up then
              let (s, cancelled) := runRetr md5 sequence path total { s with digested := [] }
                pr.transferAgain.pieces
              (s, cancelled, cancelled || pr.transferAgain.failed)
            else (s, cancelled, failed)
          else (s, cancelled, failed)
        if cancelled then some (s.replies ++ [errorReply sequence kResErrCancel])
        else if failed then some (s.replies ++ [errorReply sequence kResFileNoExist])
        else
          let actual := (s.sent + s.buf.length) % 2 ^ 64
          let total := if total = 0 ∨ total ≠ actual then actual else total
          some (flushChunk md5 sequence path true total s.buf s).replies

/-! ## What the chunker has pushed -/

theorem kChunkSize_pos : 0 < kChunkSize := by decide

section
variable {md5 : Bytes → Bytes} {sequence : ℤ} {path : Bytes} {total : ℕ} {s : Sink}

/-- The reply for chunk `i` of a file, before the last one. -/
def chunkReplyAt (sequence : ℤ) (path : Bytes) (total : ℕ) (i : ℕ) (chunk : Bytes) : Reply :=
  chunkReply sequence path kResContinue (i * kChunkSize % 2 ^ 64) total none chunk

/-- The whole chunks of `d` have been pushed and the rest is in the buffer. -/
structure Fed (sequence : ℤ) (path : Bytes) (total : ℕ) (d : Bytes) (s : Sink) : Prop where
  buf : s.buf = chunkRest kChunkSize d
  sent : s.sent = (wholeChunks kChunkSize d).length * kChunkSize % 2 ^ 64
  replies : s.replies = (wholeChunks kChunkSize d).mapIdx (chunkReplyAt sequence path total)

theorem fed_fill {d : Bytes} (h : Fed sequence path total d s) (p : Bytes) :
    Fed sequence path total (d ++ p) (fill md5 sequence path total s p) ∧
      (fill md5 sequence path total s p).digested = s.digested := by
  have hcut (d p : Bytes) (take : ℕ) : d ++ p = d ++ p.take take ++ p.drop take := by
    rw [List.append_assoc, List.take_append_drop]
  fun_induction fill md5 sequence path total s p generalizing d with
  | case1 s => exact ⟨by rwa [List.append_nil], rfl⟩
  | case2 s p hp take buf hfull =>
    rename_i ih
    have hlen : (chunkRest kChunkSize d).length + (p.take take).length = kChunkSize := by
      rw [← h.buf, ← List.length_append]
      exact hfull
    obtain ⟨hwhole, hrest⟩ := whole_append_of_eq kChunkSize_pos hlen
    rw [hcut d p take]
    refine ih ⟨hrest.symm, ?_, ?_⟩
    · show (s.sent + buf.length) % 2 ^ 64 = _
      rw [h.sent, hfull, hwhole, List.length_append, Nat.mod_add_mod, List.length_singleton,
        Nat.succ_mul]
    · show s.replies ++ [_] = _
      rw [hwhole, List.mapIdx_concat, ← h.replies, chunkReplyAt, ← h.sent, ← h.buf]
      rfl
  | case3 s p hp take buf hfull =>
    rename_i ih
    have hlen : (chunkRest kChunkSize d).length + (p.take take).length < kChunkSize := by
      have hle : buf.length ≤ kChunkSize := by
        have := s.room
        simp only [buf, take, List.length_append, List.length_take]
        omega
      rw [← h.buf, ← List.length_append]
      exact lt_of_le_of_ne hle hfull
    obtain ⟨hwhole, hrest⟩ := whole_append_of_lt hlen
    rw [hcut d p take]
    refine ih ⟨?_, ?_, ?_⟩
    · rw [hrest, ← h.buf]
    · rw [hwhole]
      exact h.sent
    · rw [hwhole]
      exact h.replies

/-- A transfer that is not cancelled feeds all its pieces to chunker and digest. -/
theorem fed_runRetr {d : Bytes} {pieces : List (Bytes × Bool)}
    (hcancel : ∀ e ∈ pieces, e.2 = false) (h : Fed sequence path total d s) :
    ∃ s', runRetr md5 sequence path total s pieces = (s', false) ∧
      Fed sequence path total (d ++ pieces.flatMap (·.1)) s' ∧
      s'.digested = s.digested ++ pieces.flatMap (·.1) := by
  induction pieces generalizing d s with
  | nil => exact ⟨s, rfl, by rwa [List.flatMap_nil, List.append_nil], by simp⟩
  | cons e pieces ih =>
    obtain ⟨data, cancel⟩ := e
    obtain rfl : cancel = false := hcancel _ List.mem_cons_self
    have hdata : Fed sequence path total d { s with digested := s.digested ++ data } :=
      ⟨h.buf, h.sent, h.replies⟩
    obtain ⟨hfed, hdigested⟩ := @fed_fill md5 _ _ _ _ _ hdata data
    obtain ⟨s', hrun, hfed', hdigested'⟩ :=
      ih (fun e he => hcancel e (List.mem_cons_of_mem _ he)) hfed
    refine ⟨s', ?_, ?_, ?_⟩
    · rw [runRetr, if_neg (by decide)]
      exact hrun
    · rwa [List.flatMap_cons, ← List.append_assoc]
    · rw [hdigested', hdigested, List.flatMap_cons, List.append_assoc]

end

/-! ## What the receiver relies on -/

/-- The reply says that the file is complete with it. -/
def Reply.Reaches (r : Reply) : Prop :=
  ∃ offset size : ℤ, r.field (ascii "offset") = .number (.int offset) ∧
    r.field (ascii "size") = .number (.int size) ∧
    r.field (ascii "total") = .number (.int (offset + size))

/-- The offsets follow each other from 0 on, the binary parts are the file, the last reply and no
other is OK, and a reply that completes the file has the digest. -/
structure DownloadStream (md5 : Bytes → Bytes) (file : Bytes) (rs : List Reply) : Prop where
  contiguous : ∀ (i : ℕ) (r : Reply), rs[i]? = some r →
    r.field (ascii "offset") = .number (.int ((rs.take i).flatMap Reply.blob).length)
  content : rs.flatMap Reply.blob = file
  last : ∃ init r, rs = init ++ [r] ∧ r.result = .number (.int kResOK) ∧
    ∀ r' ∈ init, r'.result = .number (.int kResContinue)
  digest : ∀ r ∈ rs, r.Reaches → r.field (ascii "file_md5") = .string (md5 file)

/-- The printer sends the file without an error or a cancellation, in any non-empty pieces, and
SIZE gives its length or fails. -/
structure Clean (pr : Printer) (req : Value) (file : Bytes) : Prop where
  connects : pr.connects = true
  path : downloadPath req ≠ []
  digest : pr.digest = true
  client : pr.size = none → pr.reconnect ≠ .down
  size : sizeAnswer pr = none ∨ sizeAnswer pr = some file.length
  pieces : pr.transfer.pieces.flatMap (·.1) = file
  nonempty : ∀ e ∈ pr.transfer.pieces, e.1 ≠ []
  uncancelled : ∀ e ∈ pr.transfer.pieces, e.2 = false
  done : pr.transfer.failed = false

section
variable (sequence : ℤ) (path : Bytes) (result : ℤ) (sent total : ℕ) (fileMd5 : Option Bytes)
  (buf : Bytes)

theorem result_chunkReply :
    (chunkReply sequence path result sent total fileMd5 buf).result = .number (.int result) := rfl

theorem offset_chunkReply :
    (chunkReply sequence path result sent total fileMd5 buf).field (ascii "offset") =
      .number (.ofNat sent) := by
  cases fileMd5 <;> rfl

theorem size_chunkReply :
    (chunkReply sequence path result sent total fileMd5 buf).field (ascii "size") =
      .number (.ofNat buf.length) := by
  cases fileMd5 <;> rfl

theorem total_chunkReply :
    (chunkReply sequence path result sent total fileMd5 buf).field (ascii "total") =
      .number (.ofNat total) := by
  cases fileMd5 <;> rfl

theorem fileMd5_chunkReply :
    (chunkReply sequence path result sent total fileMd5 buf).field (ascii "file_md5") =
      match fileMd5 with
      | none => .null
      | some hex => .string hex := by
  cases fileMd5 <;> rfl

end

/-! ## Main result -/

/-- The replies for a file whose size was announced as `total`. -/
def downloadReplies (md5 : Bytes → Bytes) (sequence : ℤ) (path : Bytes) (total : ℕ)
    (file : Bytes) : List Reply :=
  (wholeChunks kChunkSize file).mapIdx (chunkReplyAt sequence path total) ++
    [chunkReply sequence path kResOK ((wholeChunks kChunkSize file).length * kChunkSize % 2 ^ 64)
      (file.length % 2 ^ 64) (some (md5 file)) (chunkRest kChunkSize file)]

variable {md5 : Bytes → Bytes} {sequence : ℤ} {req : Value} {pr : Printer} {file : Bytes}

theorem download_eq (h : Clean pr req file) :
    ftpsHandleFileDownload md5 sequence req pr = some (downloadReplies md5 sequence
      (downloadPath req) (min ((sizeAnswer pr).getD 0) (2 ^ 64 - 1)) file) := by
  have hinit : Fed sequence (downloadPath req) (min ((sizeAnswer pr).getD 0) (2 ^ 64 - 1)) [] {} :=
    ⟨rfl, rfl, rfl⟩
  obtain ⟨s, hrun, hfed, hdigested⟩ := @fed_runRetr md5 _ _ _ _ _ _ h.uncancelled hinit
  rw [List.nil_append, h.pieces] at hfed hdigested
  have hactual : (s.sent + s.buf.length) % 2 ^ 64 = file.length % 2 ^ 64 := by
    rw [hfed.sent, hfed.buf, Nat.mod_add_mod, wholeChunks, List.length_map, List.length_range,
      length_chunkRest, Nat.div_add_mod']
  have htotal (t a : ℕ) : (if t = 0 ∨ t ≠ a then a else t) = a := by
    split
    · rfl
    · next hta => exact not_not.mp fun hne => hta (.inr hne)
  have hclient : ¬ (pr.size = none ∧ pr.reconnect = .down) := fun hc => h.client hc.1 hc.2
  unfold ftpsHandleFileDownload
  simp only [h.connects, h.digest, h.path, h.done, hrun, htotal, hclient, Bool.not_true,
    Bool.false_eq_true, if_false, Bool.or_false, Bool.false_and]
  rw [hactual]
  show some (s.replies ++ [chunkReply sequence (downloadPath req) kResOK s.sent
    (file.length % 2 ^ 64) (some (md5 s.digested)) s.buf]) = _
  rw [hfed.replies, hfed.sent, hfed.buf, hdigested]
  rfl

section
variable {path : Bytes} {total : ℕ}

theorem length_wholeChunks : (wholeChunks kChunkSize file).length = file.length / kChunkSize := by
  rw [wholeChunks, List.length_map, List.length_range]

theorem map_blob_downloadReplies :
    (downloadReplies md5 sequence path total file).map Reply.blob =
      wholeChunks kChunkSize file ++ [chunkRest kChunkSize file] := by
  rw [downloadReplies, List.map_append]
  congr 1
  exact List.ext_getElem (by simp) (by simp [chunkReplyAt, chunkReply])

/-- The reply at a position is that of a whole chunk, or the last one. -/
theorem getElem?_downloadReplies {i : ℕ} {r : Reply}
    (h : (downloadReplies md5 sequence path total file)[i]? = some r) :
    (i < file.length / kChunkSize ∧
      r = chunkReplyAt sequence path total i (chunkAt kChunkSize file i)) ∨
    (i = file.length / kChunkSize ∧ r = chunkReply sequence path kResOK (i * kChunkSize % 2 ^ 64)
      (file.length % 2 ^ 64) (some (md5 file)) (chunkRest kChunkSize file)) := by
  have hlen : ((wholeChunks kChunkSize file).mapIdx (chunkReplyAt sequence path total)).length =
      file.length / kChunkSize := by rw [List.length_mapIdx, length_wholeChunks]
  rw [downloadReplies, length_wholeChunks] at h
  by_cases hi : i < file.length / kChunkSize
  · rw [List.getElem?_append_left (by omega), List.getElem?_mapIdx, wholeChunks, List.getElem?_map,
      List.getElem?_range hi] at h
    exact .inl ⟨hi, (Option.some.inj h).symm⟩
  · rw [List.getElem?_append_right (by omega), hlen, List.getElem?_singleton] at h
    split at h
    case isTrue h0 =>
      obtain rfl : i = file.length / kChunkSize := by omega
      exact .inr ⟨rfl, (Option.some.inj h).symm⟩
    case isFalse => cases h

/-- Before the reply at position `i` there are `i` whole chunks. -/
theorem length_sent {i : ℕ} (hi : i ≤ file.length / kChunkSize) :
    (((downloadReplies md5 sequence path total file).take i).flatMap Reply.blob).length =
      i * kChunkSize := by
  have hle : i * kChunkSize ≤ file.length :=
    (Nat.mul_le_mul_right _ hi).trans (Nat.div_mul_le_self _ _)
  rw [List.flatMap_def, List.map_take, map_blob_downloadReplies,
    List.take_append_of_le_length (by rwa [length_wholeChunks]), wholeChunks, ← List.map_take,
    List.take_range, Nat.min_eq_left hi, ← List.flatMap_def, flatMap_chunkAt, List.length_take,
    Nat.min_eq_left hle]

theorem offset_downloadReplies {i : ℕ} {r : Reply}
    (h : (downloadReplies md5 sequence path total file)[i]? = some r) :
    i ≤ file.length / kChunkSize ∧
      r.field (ascii "offset") = .number (.ofNat (i * kChunkSize % 2 ^ 64)) := by
  rcases getElem?_downloadReplies h with ⟨hi, rfl⟩ | ⟨rfl, rfl⟩
  · exact ⟨hi.le, offset_chunkReply ..⟩
  · exact ⟨le_rfl, offset_chunkReply ..⟩

/-- Chunk boundaries below `2 ^ 64` are exact as doubles. -/
theorem ofNat_boundary {i : ℕ} (hi : i * kChunkSize < 2 ^ 64) :
    Double.ofNat (i * kChunkSize) = .int (i * kChunkSize : ℕ) :=
  Double.ofNat_of_dvd hi (Dvd.dvd.mul_left (by decide) i)

/-- A reply before the last one completes the file when the announced total is its end. -/
theorem reaches_chunkReplyAt {i : ℕ} {c : Bytes} (hc : c.length = kChunkSize)
    (hi : i * kChunkSize < 2 ^ 64) :
    (chunkReplyAt sequence path total i c).Reaches ↔
      Double.ofNat total = .int ((i + 1) * kChunkSize : ℕ) := by
  have hsize : Double.ofNat kChunkSize = .int kChunkSize := Double.ofNat_of_le (by decide)
  have hsum : ((i * kChunkSize : ℕ) + kChunkSize : ℤ) = ((i + 1) * kChunkSize : ℕ) := by
    rw [Nat.succ_mul, Nat.cast_add]
  rw [Reply.Reaches, chunkReplyAt, offset_chunkReply, size_chunkReply, total_chunkReply,
    Nat.mod_eq_of_lt hi, ofNat_boundary hi, hc, hsize, ← hsum]
  constructor
  · rintro ⟨offset, size, ho, hs, ht⟩
    cases ho
    cases hs
    exact Value.number.inj ht
  · exact fun h => ⟨_, _, rfl, rfl, congrArg Value.number h⟩

theorem contiguous_iff :
    (∀ (i : ℕ) (r : Reply), (downloadReplies md5 sequence path total file)[i]? = some r →
      r.field (ascii "offset") = .number (.int
        (((downloadReplies md5 sequence path total file).take i).flatMap Reply.blob).length)) ↔
      file.length < 2 ^ 64 := by
  constructor
  · intro h
    by_contra hlong
    -- the counter is back at 0 at this chunk
    have hle : 2 ^ 46 ≤ file.length / kChunkSize := by
      rw [Nat.le_div_iff_mul_le kChunkSize_pos]
      exact Nat.not_lt.mp hlong
    have hlen : 2 ^ 46 < (downloadReplies md5 sequence path total file).length := by
      rw [downloadReplies, List.length_append, List.length_mapIdx, length_wholeChunks,
        List.length_singleton]
      omega
    have hr := List.getElem?_eq_getElem hlen
    have hoff := h _ _ hr
    rw [(offset_downloadReplies hr).2, length_sent hle] at hoff
    have hzero : Double.ofNat (2 ^ 46 * kChunkSize % 2 ^ 64) = .int 0 := rfl
    rw [hzero] at hoff
    have hint := Double.int.inj (Value.number.inj hoff)
    norm_num [kChunkSize] at hint
  · intro hshort i r hr
    obtain ⟨hi, hoff⟩ := offset_downloadReplies hr
    have hlt : i * kChunkSize < 2 ^ 64 :=
      ((Nat.mul_le_mul_right _ hi).trans (Nat.div_mul_le_self _ _)).trans_lt hshort
    rw [hoff, length_sent hi, Nat.mod_eq_of_lt hlt, ofNat_boundary hlt]

/-- The replies are as the receiver needs them exactly when no whole chunk ends at the announced
total. -/
theorem downloadReplies_iff :
    DownloadStream md5 file (downloadReplies md5 sequence path total file) ↔
      file.length < 2 ^ 64 ∧ ∀ i < file.length / kChunkSize,
        Double.ofNat total ≠ .int ((i + 1) * kChunkSize : ℕ) := by
  have hend {i : ℕ} (hi : i < file.length / kChunkSize) : (i + 1) * kChunkSize ≤ file.length :=
    (Nat.mul_le_mul_right _ hi).trans (Nat.div_mul_le_self _ _)
  have hstart {i : ℕ} (hshort : file.length < 2 ^ 64) (hi : i < file.length / kChunkSize) :
      i * kChunkSize < 2 ^ 64 := by
    have := hend hi
    rw [Nat.succ_mul] at this
    omega
  constructor
  · intro h
    have hshort := contiguous_iff.mp h.contiguous
    refine ⟨hshort, fun i hi htotal => ?_⟩
    have hlen : i < ((wholeChunks kChunkSize file).mapIdx
        (chunkReplyAt sequence path total)).length := by
      rwa [List.length_mapIdx, length_wholeChunks]
    have hmem : chunkReplyAt sequence path total i (chunkAt kChunkSize file i) ∈
        downloadReplies md5 sequence path total file := by
      refine List.mem_append_left _ (List.mem_of_getElem? (i := i) ?_)
      rw [List.getElem?_mapIdx, wholeChunks, List.getElem?_map, List.getElem?_range hi]
      rfl
    have hnone : Value.null = .string (md5 file) := by
      rw [← h.digest _ hmem ((reaches_chunkReplyAt (length_chunkAt (hend hi))
        (hstart hshort hi)).mpr htotal)]
      exact (fileMd5_chunkReply _ _ _ _ _ none _).symm
    cases hnone
  · rintro ⟨hshort, hdigest⟩
    refine ⟨contiguous_iff.mpr hshort, ?_, ?_, ?_⟩
    · rw [List.flatMap_def, map_blob_downloadReplies, List.flatten_append, List.flatten_singleton,
        flatten_wholeChunks]
    · refine ⟨_, _, rfl, result_chunkReply .., fun r hr => ?_⟩
      obtain ⟨i, hi, rfl⟩ := List.mem_mapIdx.mp hr
      exact result_chunkReply ..
    · intro r hr hreaches
      obtain ⟨i, hi⟩ := List.getElem?_of_mem hr
      rcases getElem?_downloadReplies hi with ⟨hlt, rfl⟩ | ⟨rfl, rfl⟩
      · exact absurd ((reaches_chunkReplyAt (length_chunkAt (hend hlt)) (hstart hshort hlt)).mp
          hreaches) (hdigest i hlt)
      · exact fileMd5_chunkReply ..

end

/-- The only whole chunk that can end at the announced length of the file is its last one. -/
theorem boundary_iff (hshort : file.length < 2 ^ 64) :
    (∀ i < file.length / kChunkSize,
      Double.ofNat file.length ≠ .int ((i + 1) * kChunkSize : ℕ)) ↔
      file.length < kChunkSize ∨
        Double.ofNat file.length ≠ .int (file.length / kChunkSize * kChunkSize : ℕ) := by
  constructor
  · intro h
    by_cases hlt : file.length < kChunkSize
    · exact .inl hlt
    · have hpos : 0 < file.length / kChunkSize := Nat.div_pos (Nat.not_lt.mp hlt) kChunkSize_pos
      have hlast := h (file.length / kChunkSize - 1) (by omega)
      rw [Nat.sub_add_cancel hpos] at hlast
      exact .inr hlast
  · rintro (hlt | hne) i hi heq
    · rw [Nat.div_eq_of_lt hlt] at hi
      exact absurd hi (Nat.not_lt_zero i)
    · obtain ⟨m, hm, hge⟩ := Double.ofNat_ge hshort
      have hfloor := hge (file.length / kChunkSize * kChunkSize) (Nat.div_mul_le_self _ _)
        (Dvd.dvd.mul_left (by decide) _)
      have hmi : m = (i + 1) * kChunkSize := by
        have := Double.int.inj (hm.symm.trans heq)
        exact_mod_cast this
      have hile : (i + 1) * kChunkSize ≤ file.length / kChunkSize * kChunkSize :=
        Nat.mul_le_mul_right _ hi
      have hfull : m = file.length / kChunkSize * kChunkSize :=
        Nat.le_antisymm (by rw [hmi]; exact hile) hfloor
      exact hne (hm.trans (congrArg (fun k : ℕ => Double.int k) hfull))

/-- **The replies of a download are as the receiver needs them exactly when** the size was not known
beforehand or the file does not end with a whole chunk. Below `2 ^ 53` the length is exact as a
double, so the second condition is that the length is not a positive multiple of 262144. -/
theorem downloadStream_iff (h : Clean pr req file) :
    (∃ rs, ftpsHandleFileDownload md5 sequence req pr = some rs ∧ DownloadStream md5 file rs) ↔
      file.length < 2 ^ 64 ∧ (sizeAnswer pr = none ∨ file.length < kChunkSize ∨
        Double.ofNat file.length ≠ .int (file.length / kChunkSize * kChunkSize : ℕ)) := by
  have hstream : (∃ rs, ftpsHandleFileDownload md5 sequence req pr = some rs ∧
      DownloadStream md5 file rs) ↔ DownloadStream md5 file (downloadReplies md5 sequence
        (downloadPath req) (min ((sizeAnswer pr).getD 0) (2 ^ 64 - 1)) file) := by
    rw [download_eq h]
    exact ⟨fun ⟨rs, hrs, hok⟩ => Option.some.inj hrs ▸ hok, fun hok => ⟨_, rfl, hok⟩⟩
  rw [hstream, downloadReplies_iff]
  refine and_congr_right fun hshort => ?_
  rcases h.size with hnone | hsome
  · refine iff_of_true (fun i _ heq => ?_) (.inl hnone)
    rw [hnone] at heq
    have hzero : Double.ofNat (min ((none : Option ℕ).getD 0) (2 ^ 64 - 1)) = .int 0 := rfl
    have hint := Double.int.inj (hzero.symm.trans heq)
    have hpos : 0 < (i + 1) * kChunkSize := Nat.mul_pos i.succ_pos kChunkSize_pos
    omega
  · have htotal : min ((sizeAnswer pr).getD 0) (2 ^ 64 - 1) = file.length := by
      rw [hsome, Option.getD_some]
      exact Nat.min_eq_left (by omega)
    rw [htotal, boundary_iff hshort, hsome]
    simp

/-- A printer that knows the size and sends the file in these pieces. -/
def sendsPieces (pieces : List Bytes) : Printer where
  connects := true
  size := some pieces.flatten.length
  reconnect := .down
  sizeAgain := none
  digest := true
  transfer := ⟨pieces.map (·, false), false⟩
  reconnectTransfer := .down
  transferAgain := ⟨[], true⟩

def pathRequest : Value := .object [(ascii "path", .string (ascii "/cache/a.3mf"))]

theorem clean_sendsPieces {pieces : List Bytes} (h : ∀ p ∈ pieces, p ≠ []) :
    Clean (sendsPieces pieces) pathRequest pieces.flatten where
  connects := rfl
  path := by decide
  digest := rfl
  client hsize := nomatch hsize
  size := .inr rfl
  pieces := by simp [sendsPieces, List.flatMap_def, Function.comp_def]
  nonempty := by simpa [sendsPieces] using h
  uncancelled := by simp [sendsPieces]
  done := rfl

theorem downloadStream_iff_short :
    ∃ rs, ftpsHandleFileDownload id 7 pathRequest (sendsPieces [[1, 2], [3]]) = some rs ∧
      DownloadStream id [1, 2, 3] rs :=
  (downloadStream_iff (clean_sendsPieces (by decide))).mpr ⟨by decide, .inr (.inl (by decide))⟩

def zeros (n : ℕ) : Bytes := List.replicate n 0

/-- A file of one chunk, sent in four pieces: the reply that completes it has no digest. -/
theorem one_chunk_without_digest :
    ¬ ∃ rs, ftpsHandleFileDownload id 7 pathRequest
        (sendsPieces [zeros 65536, zeros 65536, zeros 65536, zeros 65536]) = some rs ∧
      DownloadStream id (zeros 65536 ++ (zeros 65536 ++ (zeros 65536 ++ zeros 65536))) rs := by
  have hzeros : (zeros 65536).length = 65536 := List.length_replicate
  obtain ⟨quarter, hquarter⟩ : ∃ q, q = zeros 65536 := ⟨_, rfl⟩
  rw [← hquarter] at hzeros ⊢
  have hne : quarter ≠ [] := List.ne_nil_of_length_pos (by omega)
  have hclean := @clean_sendsPieces [quarter, quarter, quarter, quarter] (by simpa using hne)
  have hlen : [quarter, quarter, quarter, quarter].flatten.length = kChunkSize := by
    simp [hzeros, kChunkSize]
  rintro ⟨rs, hrs, hstream⟩
  rw [download_eq hclean] at hrs
  obtain rfl := Option.some.inj hrs
  have hfile : quarter ++ (quarter ++ (quarter ++ quarter)) =
      [quarter, quarter, quarter, quarter].flatten := by simp
  rw [hfile] at hstream
  refine (downloadReplies_iff.mp hstream).2 0 ?_ ?_
  · rw [hlen]
    decide
  · have htotal : sizeAnswer (sendsPieces [quarter, quarter, quarter, quarter]) =
        some kChunkSize := congrArg some hlen
    rw [htotal]
    exact Double.ofNat_of_le (by decide)

end BambooNet.Tunnel.Ftps
