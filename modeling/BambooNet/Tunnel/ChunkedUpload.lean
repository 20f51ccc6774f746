import BambooNet.Tunnel.Messages
import Mathlib.Data.List.Flatten

/-!
# Chunked uploads

A file is sent from the offset that the printer asks for, in chunks of the size it asks for. The
digest covers the whole file: the part before the offset is read and hashed first. Each chunk is a
message of its own, numbered from 0 on, and the one that ends at the end of the file has the digest.

**When nothing is left to send**, because the file is empty or the printer has all of it, the loop
does not run at all: no message has the digest, and none is reported. `uploadStream_iff` says that
the upload is right in all other cases, up to the width of the chunk numbers and the precision of
offsets that are sent as doubles.
-/

namespace BambooNet.Tunnel

open Json

def kCmdFileUpload : ℕ := 5

/-! ## Messages -/

/-- A request and the binary data sent with it. -/
structure UploadMsg where
  abi : Value
  binary : Bytes

/-- A member of the request. -/
def UploadMsg.field (m : UploadMsg) (name : Bytes) : Value := (m.abi.find (ascii "req")).find name

def uploadRoot (sequence : ℕ) (members : List (Bytes × Value)) (req : List (Bytes × Value)) :
    Value :=
  .object (Entries.ofList ([(ascii "cmdtype", .number (.ofNat kCmdFileUpload)),
    (ascii "sequence", .number (.ofNat sequence))] ++ members ++
    [(ascii "req", .object (Entries.ofList req))]))

def buildFileUploadInitAbi (sequence : ℕ) (destStorage destName : Bytes) (total : ℕ) : Value :=
  uploadRoot sequence [] ([(ascii "type", .string (ascii "model")),
    (ascii "path", .string destName), (ascii "total", .number (.ofNat total))] ++
    if destStorage = [] then [] else [(ascii "storage", .string destStorage)])

def buildFileUploadChunkAbi (sequence fragId offset size : ℕ) (fileMd5Lower : Bytes) : Value :=
  uploadRoot sequence [(ascii "frag_id", .number (.ofNat fragId))]
    ([(ascii "offset", .number (.ofNat offset)), (ascii "size", .number (.ofNat size))] ++
    if fileMd5Lower = [] then [] else [(ascii "file_md5", .string fileMd5Lower)])

/-! ## The init reply -/

def kMaxChunkSizeKb : ℤ := 64 * 1024

/-- What an init reply asks for. -/
structure UploadInit where
  chunkSizeKb : ℕ
  offset : ℕ
  positive : 0 < chunkSizeKb
  bounded : chunkSizeKb ≤ 64 * 1024

/-- The size of the buffer. -/
def UploadInit.bufferSize (i : UploadInit) : ℕ := i.chunkSizeKb * 1024

theorem toNat_chunkSizeKb {kb : ℤ} (h : ¬ (kb ≤ 0 ∨ kb > kMaxChunkSizeKb)) :
    0 < kb.toNat ∧ kb.toNat ≤ 64 * 1024 := by
  rw [not_or, not_le, gt_iff_lt, not_lt, kMaxChunkSizeKb] at h
  omega

/-- An init reply is accepted with the result CONTINUE or FILE_EXIST. -/
def parseUploadInitReply (wireJson : Bytes) : Option UploadInit :=
  let rc := parseWireResult wireJson
  if rc ≠ 1 ∧ rc ≠ 19 then none
  else
    match parse wireJson with
    | .error _ => none
    | .ok root =>
      let reply := root.find (ascii "reply")
      if !reply.isObject then none
      else
        let rawKb := (reply.find (ascii "chunk_size")).asInt 0
        if h : rawKb ≤ 0 ∨ rawKb > kMaxChunkSizeKb then none
        else
          let rawOffset := (reply.find (ascii "offset")).asInt 0
          if rawOffset < 0 then none
          else some ⟨rawKb.toNat, rawOffset.toNat, (toNat_chunkSizeKb h).1, (toNat_chunkSizeKb h).2⟩

/-! ## The upload -/

structure UploadRequest where
  localPath : Bytes
  destStorage : Bytes
  destName : Bytes

/-- The outcome, with what has been reported by the time it is returned. -/
structure UploadOutcome where
  ok : Bool := false
  bytes : ℕ := 0
  md5Lower : Bytes := []
  wireResult : ℤ := 0
  error : Bytes := []

/-- A file has a length that `streamoff` holds. -/
structure LocalFile where
  content : Bytes
  fits : content.length < 2 ^ 63

/-- A read from the file: how many bytes it has at most, and whether the digest takes them. -/
structure FileRead where
  got : ℕ
  hashed : Bool

/-- What the upload depends on. -/
structure UploadIo where
  file : Option LocalFile
  /-- The init request can be sent, and the reply to it if it is received. -/
  sendsInit : Bool
  initReply : Option Bytes
  /-- The digest can be set up. -/
  digest : Bool
  /-- The reads of the part before the offset, and those of the chunks. -/
  prefixReads : ℕ → FileRead
  reads : ℕ → FileRead
  /-- The upload is cancelled before a chunk, and a chunk can be sent. -/
  cancelled : ℕ → Bool
  sends : ℕ → Bool
  /-- The messages after the chunks, up to where the connection fails. -/
  finals : List Bytes
  /-- What describes a failure of the connection. -/
  sslError : Bytes

/-- The messages of an upload and its outcome. -/
structure Upload where
  init : Option Value := none
  chunks : List UploadMsg := []
  out : UploadOutcome

section
variable (md5 : Bytes → Bytes) (io : UploadIo) (sequence : ℕ) (file : Bytes) (bufferSize : ℕ)

/-- The bytes of a read of `want` bytes at `pos`. -/
def FileRead.data (r : FileRead) (file : Bytes) (pos want : ℕ) : Bytes :=
  (file.drop pos).take (min want r.got)

theorem FileRead.length_data_le (r : FileRead) (file : Bytes) (pos want : ℕ) :
    (r.data file pos want).length ≤ want := by
  rw [data, List.length_take]
  omega

/-- The part before the offset goes to the digest. -/
def hashPrefix (offset k hashed : ℕ) (digested : Bytes) : Except Bytes Bytes :=
  if _ : hashed < offset then
    let r := io.prefixReads k
    let data := r.data file hashed (min (offset - hashed) bufferSize)
    if _ : data = [] then .error (ascii "read error hashing resume prefix")
    else if !r.hashed then .error (ascii "md5 update failed")
    else hashPrefix offset (k + 1) (hashed + data.length) (digested ++ data)
  else .ok digested
termination_by offset - hashed
decreasing_by
  exact Nat.sub_lt_sub_left ‹_› (Nat.lt_add_of_pos_right (List.length_pos_iff.2 ‹_›))

/-- The loop over the chunks, which starts with chunk `k`: the messages, and the digest or an
error. -/
def sendChunks (k fragId offset : ℕ) (digested digestLower : Bytes) :
    List UploadMsg × Except Bytes Bytes :=
  if hmore : offset < file.length then
    if io.cancelled k then ([], .error (ascii "cancelled"))
    else
      let r := io.reads k
      let data := r.data file offset (min (file.length - offset) bufferSize)
      if hdata : data = [] then ([], .error (ascii "read error"))
      else if !r.hashed then ([], .error (ascii "md5 update failed"))
      else
        let digested := digested ++ data
        let lastChunk : Bool := offset + data.length ≥ file.length
        let fileMd5 := if lastChunk then md5 digested else []
        if lastChunk && fileMd5 = [] then ([], .error (ascii "md5 finalize failed"))
        else if !io.sends k then ([], .error io.sslError)
        else
          let rest := sendChunks (k + 1) ((fragId + 1) % 2 ^ 32) (offset + data.length) digested
            (if lastChunk then fileMd5 else digestLower)
          (⟨buildFileUploadChunkAbi sequence fragId offset data.length fileMd5, data⟩ :: rest.1,
            rest.2)
  else ([], .ok digestLower)
termination_by file.length - offset
decreasing_by
  exact Nat.sub_lt_sub_left hmore (Nat.lt_add_of_pos_right (List.length_pos_iff.2 hdata))

/-- The result after the chunks: the first of at most `attempts` that is not CONTINUE. -/
def awaitResult : ℕ → ℤ → List Bytes → Option ℤ
  | 0, rc, _ => some rc
  | _ + 1, _, [] => none
  | attempts + 1, _, wireJson :: finals =>
    let rc := parseWireResult wireJson
    if rc = 1 then awaitResult attempts rc finals else some rc

/-- The outcome of an upload whose chunks have been sent. -/
def uploadOutcome (digestLower : Bytes) (result : ℤ) : UploadOutcome :=
  if result = 0 ∨ result = 19 then
    { ok := true, bytes := file.length, md5Lower := digestLower, wireResult := result }
  else
    { bytes := file.length, md5Lower := digestLower, wireResult := result,
      error := ascii "upload failed wire result=" ++ decimalInt result }

/-- The upload after the init reply. -/
def uploadFrom (request : Value) (i : UploadInit) : Upload :=
  if !io.digest then { init := some request, out := { error := ascii "md5 init failed" } }
  else
    match hashPrefix io file i.bufferSize i.offset 0 0 [] with
    | .error e => { init := some request, out := { error := e } }
    | .ok digested =>
      let sent := sendChunks md5 io sequence file i.bufferSize 0 0 i.offset digested []
      match sent.2 with
      | .error e => { init := some request, chunks := sent.1, out := { error := e } }
      | .ok digestLower =>
        match awaitResult 32 (-1) io.finals with
        | none => { init := some request, chunks := sent.1, out := { error := io.sslError } }
        | some result =>
          { init := some request, chunks := sent.1, out := uploadOutcome file digestLower result }

end

def runChunkedUpload (md5 : Bytes → Bytes) (sequence : ℕ) (req : UploadRequest) (io : UploadIo) :
    Upload :=
  if req.destStorage = [] ∨ req.destName = [] ∨ req.localPath = [] then
    { out := { error := ascii "missing upload fields" } }
  else
    match io.file with
    | none => { out := { error := ascii "cannot open local file" } }
    | some file =>
      let request := buildFileUploadInitAbi sequence req.destStorage req.destName
        file.content.length
      if !io.sendsInit then { out := { error := io.sslError } }
      else
        match io.initReply with
        | none => { init := some request, out := { error := io.sslError } }
        | some wireJson =>
          match parseUploadInitReply wireJson with
          | none =>
            { init := some request
              out :=
                { wireResult := parseWireResult wireJson, error := ascii "bad upload init reply" } }
          | some i => uploadFrom md5 io sequence file.content request i

/-! ## What an upload promises -/

/-- The chunks are numbered from 0 on, follow each other from the offset to the end of the file and
are declared as they are; the last message and no other has the digest of the file, which is also
reported. -/
structure Upload.Right (md5 : Bytes → Bytes) (file : Bytes) (offset : ℕ) (u : Upload) : Prop where
  fragIds : ∀ (i : ℕ) (m : UploadMsg), u.chunks[i]? = some m →
    m.abi.find (ascii "frag_id") = .number (.int i)
  offsets : ∀ (i : ℕ) (m : UploadMsg), u.chunks[i]? = some m →
    m.field (ascii "offset") =
      .number (.int (offset + ((u.chunks.take i).flatMap UploadMsg.binary).length : ℕ))
  sizes : ∀ m ∈ u.chunks, m.field (ascii "size") = .number (.int m.binary.length)
  content : u.chunks.flatMap UploadMsg.binary = file.drop offset
  request : ∀ abi ∈ u.init, (abi.find (ascii "req")).find (ascii "file_md5") = .null
  digest : ∃ init m, u.chunks = init ++ [m] ∧ m.field (ascii "file_md5") = .string (md5 file) ∧
    ∀ m' ∈ init, m'.field (ascii "file_md5") = .null
  md5Lower : u.out.md5Lower = md5 file

/-- A read that delivers something. -/
def FileRead.Works (r : FileRead) : Prop := 0 < r.got ∧ r.hashed = true

/-- The chunks can be read and sent, and the digest of anything is some text. Reads may be short. -/
structure Smooth (md5 : Bytes → Bytes) (io : UploadIo) : Prop where
  reads : ∀ k, (io.reads k).Works
  uncancelled : ∀ k, io.cancelled k = false
  sends : ∀ k, io.sends k = true
  hex : ∀ d, md5 d ≠ []

/-- The printer accepts the upload from an offset in the file on, nothing fails and nothing is
cancelled. -/
structure UploadClean (md5 : Bytes → Bytes) (req : UploadRequest) (io : UploadIo)
    (file : LocalFile) (i : UploadInit) : Prop extends Smooth md5 io where
  storage : req.destStorage ≠ []
  name : req.destName ≠ []
  path : req.localPath ≠ []
  opens : io.file = some file
  request : io.sendsInit = true
  reply : io.initReply.bind parseUploadInitReply = some i
  offset : i.offset ≤ file.content.length
  digest : io.digest = true
  prefixReads : ∀ k, (io.prefixReads k).Works
  result : awaitResult 32 (-1) io.finals ≠ none

/-! ## Where the chunks are -/

section
variable {md5 : Bytes → Bytes} {io : UploadIo} {sequence : ℕ} {file : Bytes} {bufferSize offset : ℕ}

/-- Where chunk `k` starts, when the file does not end before it. -/
def position (io : UploadIo) (bufferSize offset : ℕ) : ℕ → ℕ
  | 0 => offset
  | k + 1 => position io bufferSize offset k + min bufferSize (io.reads k).got

/-- The bytes of chunk `k`. -/
def chunkBytes (io : UploadIo) (file : Bytes) (bufferSize offset k : ℕ) : Bytes :=
  (file.drop (position io bufferSize offset k)).take (min bufferSize (io.reads k).got)

theorem offset_le_position (k : ℕ) : offset ≤ position io bufferSize offset k := by
  induction k with
  | zero => exact le_refl offset
  | succ k ih => exact ih.trans (Nat.le_add_right _ _)

theorem position_mono {j k : ℕ} (h : j ≤ k) :
    position io bufferSize offset j ≤ position io bufferSize offset k :=
  monotone_nat_of_le_succ (fun _ => Nat.le_add_right _ _) h

theorem take_position_succ (k : ℕ) : file.take (position io bufferSize offset (k + 1)) =
    file.take (position io bufferSize offset k) ++ chunkBytes io file bufferSize offset k :=
  List.take_add

/-- The chunks before chunk `k` are the bytes before it. -/
theorem flatMap_chunkBytes (k : ℕ) :
    (List.range k).flatMap (chunkBytes io file bufferSize offset) =
      (file.drop offset).take (position io bufferSize offset k - offset) := by
  induction k with
  | zero => simp [position]
  | succ k ih =>
    have hle := @offset_le_position io bufferSize offset k
    have hsub : position io bufferSize offset (k + 1) - offset =
        (position io bufferSize offset k - offset) + min bufferSize (io.reads k).got := by
      rw [position]
      omega
    rw [List.range_succ, List.flatMap_append, ih, List.flatMap_singleton, hsub, List.take_add,
      List.drop_drop, Nat.add_sub_cancel' hle]
    rfl

/-- The read for chunk `k` delivers it. -/
theorem data_eq (k : ℕ) : (io.reads k).data file (position io bufferSize offset k)
    (min (file.length - position io bufferSize offset k) bufferSize) =
      chunkBytes io file bufferSize offset k := by
  rw [FileRead.data, chunkBytes, Nat.min_assoc, ← List.take_take, ← List.length_drop,
    List.take_of_length_le (List.length_take_le' _ _)]

/-- The message of chunk `k`, with the digest in the last one. -/
def chunkMsg (md5 : Bytes → Bytes) (io : UploadIo) (sequence : ℕ) (file : Bytes)
    (bufferSize offset k : ℕ) (last : Bool) : UploadMsg where
  abi := buildFileUploadChunkAbi sequence (k % 2 ^ 32) (position io bufferSize offset k)
    (chunkBytes io file bufferSize offset k).length (if last then md5 file else [])
  binary := chunkBytes io file bufferSize offset k

theorem chunkBytes_ne_nil (hbuffer : 0 < bufferSize) {k : ℕ} (hread : (io.reads k).Works)
    (hk : position io bufferSize offset k < file.length) :
    chunkBytes io file bufferSize offset k ≠ [] := by
  have hgot := hread.1
  refine List.ne_nil_of_length_pos ?_
  rw [chunkBytes, List.length_take, List.length_drop]
  omega

/-- One round of the loop sends chunk `k`. -/
theorem sendChunks_chunk (hbuffer : 0 < bufferSize) (h : Smooth md5 io) {k : ℕ}
    (hk : position io bufferSize offset k < file.length) (digestLower : Bytes) :
    sendChunks md5 io sequence file bufferSize k (k % 2 ^ 32) (position io bufferSize offset k)
      (file.take (position io bufferSize offset k)) digestLower =
    if position io bufferSize offset (k + 1) < file.length then
      let rest := sendChunks md5 io sequence file bufferSize (k + 1) ((k + 1) % 2 ^ 32)
        (position io bufferSize offset (k + 1))
        (file.take (position io bufferSize offset (k + 1))) digestLower
      (chunkMsg md5 io sequence file bufferSize offset k false :: rest.1, rest.2)
    else ([chunkMsg md5 io sequence file bufferSize offset k true], .ok (md5 file)) := by
  have hlen : (chunkBytes io file bufferSize offset k).length =
      min (min bufferSize (io.reads k).got)
        (file.length - position io bufferSize offset k) := by
    rw [chunkBytes, List.length_take, List.length_drop]
  have hsucc : position io bufferSize offset (k + 1) =
      position io bufferSize offset k + min bufferSize (io.reads k).got := rfl
  rw [sendChunks, dif_pos hk, if_neg (by simp [h.uncancelled])]
  simp only [data_eq, dif_neg (chunkBytes_ne_nil hbuffer (h.reads k) hk), (h.reads k).2, h.sends,
    Bool.not_true, Bool.false_eq_true, if_false, ← take_position_succ]
  by_cases hmore : position io bufferSize offset (k + 1) < file.length
  · have hnot : ¬ position io bufferSize offset (k + 1) ≥ file.length := Nat.not_le.2 hmore
    have hnext : position io bufferSize offset k +
        (chunkBytes io file bufferSize offset k).length =
          position io bufferSize offset (k + 1) := by omega
    simp only [if_pos hmore, hnot, decide_false, Bool.false_and, Bool.false_eq_true, if_false,
      hnext, Nat.mod_add_mod]
    rfl
  · have hlast : position io bufferSize offset k +
        (chunkBytes io file bufferSize offset k).length ≥ file.length := by omega
    simp only [if_neg hmore, hlast, decide_true, if_true, h.hex, decide_false, Bool.and_false,
      Bool.false_eq_true, if_false, List.take_of_length_le (Nat.not_lt.1 hmore)]
    rw [sendChunks, dif_neg (Nat.not_lt.2 hlast)]
    rfl

/-- **The chunks that are sent** from chunk `k` on, when there are any. -/
theorem sendChunks_spec (hbuffer : 0 < bufferSize) (h : Smooth md5 io) {k : ℕ}
    (hk : position io bufferSize offset k < file.length) (digestLower : Bytes) :
    ∃ n, k ≤ n ∧ position io bufferSize offset n < file.length ∧
      file.length ≤ position io bufferSize offset (n + 1) ∧
      sendChunks md5 io sequence file bufferSize k (k % 2 ^ 32) (position io bufferSize offset k)
        (file.take (position io bufferSize offset k)) digestLower =
      ((List.range' k (n + 1 - k)).map fun i =>
        chunkMsg md5 io sequence file bufferSize offset i (i = n), .ok (md5 file)) := by
  by_cases hmore : position io bufferSize offset (k + 1) < file.length
  · obtain ⟨n, hkn, hn, hend, hrest⟩ := sendChunks_spec hbuffer h hmore digestLower
    refine ⟨n, by omega, hn, hend, ?_⟩
    have hrange : List.range' k (n + 1 - k) = k :: List.range' (k + 1) (n + 1 - (k + 1)) := by
      rw [show n + 1 - k = n + 1 - (k + 1) + 1 by omega, List.range'_succ]
    have hne : k ≠ n := by omega
    rw [sendChunks_chunk hbuffer h hk, if_pos hmore]
    dsimp only
    rw [hrest, hrange, List.map_cons, decide_eq_false hne]
  · refine ⟨k, le_refl k, hk, Nat.not_lt.1 hmore, ?_⟩
    rw [sendChunks_chunk hbuffer h hk, if_neg hmore]
    simp
termination_by file.length - position io bufferSize offset k
decreasing_by
  have hgot := (h.reads k).1
  have hsucc : position io bufferSize offset (k + 1) =
      position io bufferSize offset k + min bufferSize (io.reads k).got := rfl
  omega

/-- The part before the offset is hashed whole. -/
theorem hashPrefix_spec (hbuffer : 0 < bufferSize) (hreads : ∀ k, (io.prefixReads k).Works)
    (hoffset : offset ≤ file.length) (k : ℕ) {hashed : ℕ} (hhashed : hashed ≤ offset) :
    hashPrefix io file bufferSize offset k hashed (file.take hashed) = .ok (file.take offset) := by
  obtain ⟨digested, hdigested⟩ : ∃ digested, digested = file.take hashed := ⟨_, rfl⟩
  rw [← hdigested]
  fun_induction hashPrefix io file bufferSize offset k hashed digested with
  | case1 k hashed digested hmore r data hdata =>
    have hgot := (hreads k).1
    have hpos : 0 < data.length := by
      simp only [data, r, FileRead.data, List.length_take, List.length_drop]
      omega
    exact absurd hdata (List.ne_nil_of_length_pos hpos)
  | case2 k hashed digested hmore r data hdata hfail =>
    rw [(hreads k).2] at hfail
    cases hfail
  | case3 k hashed digested hmore r data hdata hok ih =>
    have hle : data.length ≤ offset - hashed :=
      (FileRead.length_data_le _ _ _ _).trans (Nat.min_le_left _ _)
    refine ih (by omega) ?_
    have hhead : data = (file.drop hashed).take data.length := by
      rw [← List.prefix_iff_eq_take]
      exact List.take_prefix _ _
    rw [hdigested, List.take_add, ← hhead]
  | case4 k hashed digested hdone =>
    obtain rfl : hashed = offset := by omega
    rw [hdigested]

end

/-! ## The members of the messages -/

section
variable (sequence fragId offset size : ℕ) (fileMd5Lower : Bytes)

theorem fragId_chunkAbi : (buildFileUploadChunkAbi sequence fragId offset size fileMd5Lower).find
    (ascii "frag_id") = .number (.ofNat fragId) := by
  cases fileMd5Lower <;> rfl

theorem offset_chunkAbi : ((buildFileUploadChunkAbi sequence fragId offset size fileMd5Lower).find
    (ascii "req")).find (ascii "offset") = .number (.ofNat offset) := by
  cases fileMd5Lower <;> rfl

theorem size_chunkAbi : ((buildFileUploadChunkAbi sequence fragId offset size fileMd5Lower).find
    (ascii "req")).find (ascii "size") = .number (.ofNat size) := by
  cases fileMd5Lower <;> rfl

theorem fileMd5_chunkAbi : ((buildFileUploadChunkAbi sequence fragId offset size fileMd5Lower).find
    (ascii "req")).find (ascii "file_md5") =
      if fileMd5Lower = [] then .null else .string fileMd5Lower := by
  cases fileMd5Lower <;> rfl

theorem fileMd5_initAbi (destStorage destName : Bytes) (total : ℕ) :
    ((buildFileUploadInitAbi sequence destStorage destName total).find (ascii "req")).find
      (ascii "file_md5") = .null := by
  cases destStorage <;> rfl

end

/-! ## Main result -/

section
variable {md5 : Bytes → Bytes} {sequence : ℕ} {req : UploadRequest} {io : UploadIo}
  {file : LocalFile} {i : UploadInit}

theorem bufferSize_pos (i : UploadInit) : 0 < i.bufferSize := Nat.mul_pos i.positive (by decide)

/-- The outcome reports the digest, whatever the printer answers. -/
theorem md5Lower_uploadOutcome (content digestLower : Bytes) (result : ℤ) :
    (uploadOutcome content digestLower result).md5Lower = digestLower := by
  unfold uploadOutcome
  split <;> rfl

theorem runChunkedUpload_eq (h : UploadClean md5 req io file i) {chunks : List UploadMsg}
    {digestLower : Bytes} (hsent : sendChunks md5 io sequence file.content i.bufferSize 0 0 i.offset
      (file.content.take i.offset) [] = (chunks, .ok digestLower)) :
    ∃ result, runChunkedUpload md5 sequence req io =
      { init := some (buildFileUploadInitAbi sequence req.destStorage req.destName
          file.content.length)
        chunks := chunks
        out := uploadOutcome file.content digestLower result } := by
  obtain ⟨wireJson, hreply, hinit⟩ := Option.bind_eq_some_iff.1 h.reply
  obtain ⟨result, hresult⟩ := Option.ne_none_iff_exists'.1 h.result
  have hhead : hashPrefix io file.content i.bufferSize i.offset 0 0 [] =
      .ok (file.content.take i.offset) :=
    hashPrefix_spec (bufferSize_pos i) h.prefixReads h.offset 0 (Nat.zero_le _)
  refine ⟨result, ?_⟩
  rw [runChunkedUpload, if_neg (by simp [h.storage, h.name, h.path]), h.opens]
  simp only [h.request, hreply, hinit, uploadFrom, h.digest, hhead, hsent, hresult, Bool.not_true,
    Bool.false_eq_true, if_false]

/-- The number is exact as a double. -/
def Exact (n : ℕ) : Prop := Double.ofNat n = .int n

/-- Chunk numbers are counted modulo `2 ^ 32`. -/
theorem fragId_exact_iff (k : ℕ) :
    (Value.number (.ofNat (k % 2 ^ 32)) = .number (.int k)) ↔ k < 2 ^ 32 := by
  have hlt : k % 2 ^ 32 < 2 ^ 32 := Nat.mod_lt _ (by decide)
  rw [Double.ofNat_of_le (by omega), Value.number.injEq, Double.int.injEq, Nat.cast_inj]
  exact ⟨fun h => h ▸ hlt, Nat.mod_eq_of_lt⟩

/-- The chunks of an upload that sends some, up to chunk `n`. -/
structure SentUpTo (md5 : Bytes → Bytes) (sequence : ℕ) (io : UploadIo) (file : LocalFile)
    (i : UploadInit) (n : ℕ) (u : Upload) : Prop where
  starts : position io i.bufferSize i.offset n < file.content.length
  ends : file.content.length ≤ position io i.bufferSize i.offset (n + 1)
  request : ∀ abi ∈ u.init, (abi.find (ascii "req")).find (ascii "file_md5") = .null
  chunks : u.chunks = (List.range (n + 1)).map fun k =>
    chunkMsg md5 io sequence file.content i.bufferSize i.offset k (k = n)
  md5Lower : u.out.md5Lower = md5 file.content

variable {n : ℕ} {u : Upload}

theorem SentUpTo.getElem? (h : SentUpTo md5 sequence io file i n u) {k : ℕ} {m : UploadMsg} :
    u.chunks[k]? = some m ↔ k ≤ n ∧
      m = chunkMsg md5 io sequence file.content i.bufferSize i.offset k (k = n) := by
  rw [h.chunks, List.getElem?_map]
  by_cases hk : k < n + 1
  · rw [List.getElem?_range hk, Option.map_some, Option.some_inj,
      and_iff_right (Nat.le_of_lt_succ hk)]
    exact eq_comm
  · rw [List.getElem?_eq_none (by simpa using hk)]
    exact iff_of_false (by simp) fun h => hk (Nat.lt_succ_of_le h.1)

/-- The binary parts of the first messages are the file from the offset to the next chunk. -/
theorem SentUpTo.flatMap_take (h : SentUpTo md5 sequence io file i n u) {k : ℕ} (hk : k ≤ n + 1) :
    (u.chunks.take k).flatMap UploadMsg.binary =
      (file.content.drop i.offset).take (position io i.bufferSize i.offset k - i.offset) := by
  rw [h.chunks, ← List.map_take, List.take_range, Nat.min_eq_left hk, List.flatMap_map,
    ← flatMap_chunkBytes]
  rfl

/-- **When an upload that sends something is right.** -/
theorem SentUpTo.right_iff (hmd5 : ∀ d, md5 d ≠ []) (h : SentUpTo md5 sequence io file i n u) :
    u.Right md5 file.content i.offset ↔
      ∀ k ≤ n, k < 2 ^ 32 ∧ Exact (position io i.bufferSize i.offset k) := by
  have hstart {k : ℕ} (hk : k ≤ n) :
      i.offset + ((u.chunks.take k).flatMap UploadMsg.binary).length =
        position io i.bufferSize i.offset k := by
    have hle := @offset_le_position io i.bufferSize i.offset k
    have hlt := (@position_mono io i.bufferSize i.offset _ _ hk).trans_lt h.starts
    rw [h.flatMap_take (by omega), List.length_take, List.length_drop]
    omega
  constructor
  · intro hright k hk
    have hm := h.getElem?.2 ⟨hk, rfl⟩
    have hid := hright.fragIds k _ hm
    have hoff := hright.offsets k _ hm
    rw [hstart hk] at hoff
    exact ⟨(fragId_exact_iff k).1 ((fragId_chunkAbi ..).symm.trans hid),
      Value.number.inj ((offset_chunkAbi ..).symm.trans hoff)⟩
  · intro hexact
    refine ⟨fun k m hm => ?_, fun k m hm => ?_, fun m hm => ?_, ?_, h.request, ?_, h.md5Lower⟩
    · obtain ⟨hk, rfl⟩ := h.getElem?.1 hm
      exact (fragId_chunkAbi ..).trans ((fragId_exact_iff k).2 (hexact k hk).1)
    · obtain ⟨hk, rfl⟩ := h.getElem?.1 hm
      rw [hstart hk]
      exact (offset_chunkAbi ..).trans (congrArg Value.number (hexact k hk).2)
    · obtain ⟨k, hk⟩ := List.getElem?_of_mem hm
      obtain ⟨hk, rfl⟩ := h.getElem?.1 hk
      have hsmall : (chunkBytes io file.content i.bufferSize i.offset k).length ≤ 2 ^ 53 := by
        have hbounded := i.bounded
        rw [chunkBytes, List.length_take, UploadInit.bufferSize]
        omega
      exact (size_chunkAbi ..).trans (congrArg Value.number (Double.ofNat_of_le hsmall))
    · have hlen : u.chunks.length ≤ n + 1 := by rw [h.chunks]; simp
      have hend := h.ends
      rw [← List.take_of_length_le hlen, h.flatMap_take (le_refl _), List.take_of_length_le]
      rw [List.length_drop]
      omega
    · refine ⟨_, _, by rw [h.chunks, List.range_succ, List.map_append, List.map_singleton], ?_, ?_⟩
      · rw [UploadMsg.field, chunkMsg, fileMd5_chunkAbi, decide_eq_true rfl, if_pos rfl,
          if_neg (hmd5 _)]
      · intro m hm
        obtain ⟨k, hk, rfl⟩ := List.mem_map.1 hm
        rw [UploadMsg.field, chunkMsg, fileMd5_chunkAbi,
          decide_eq_false (List.mem_range.1 hk).ne]
        rfl

/-- An upload that sends nothing has no message for the digest. -/
theorem not_right_of_done (h : UploadClean md5 req io file i)
    (hdone : file.content.length ≤ i.offset) :
    ¬ (runChunkedUpload md5 sequence req io).Right md5 file.content i.offset := by
  intro hright
  have hsent : sendChunks md5 io sequence file.content i.bufferSize 0 0 i.offset
      (file.content.take i.offset) [] = ([], .ok []) := by
    rw [sendChunks, dif_neg (Nat.not_lt.2 hdone)]
  obtain ⟨result, hrun⟩ := runChunkedUpload_eq h hsent
  obtain ⟨init, m, hchunks, -⟩ := hright.digest
  rw [hrun] at hchunks
  cases init <;> cases hchunks

/-- **An upload is right exactly when** something is left to send, no chunk has a number of more
than 32 bits, and the offsets of the chunks are exact as doubles. -/
theorem uploadStream_iff (h : UploadClean md5 req io file i) :
    (runChunkedUpload md5 sequence req io).Right md5 file.content i.offset ↔
      i.offset < file.content.length ∧
        ∀ k, position io i.bufferSize i.offset k < file.content.length →
          k < 2 ^ 32 ∧ Exact (position io i.bufferSize i.offset k) := by
  by_cases hlt : i.offset < file.content.length
  · obtain ⟨n, -, hn, hend, hsent⟩ := @sendChunks_spec md5 io sequence file.content i.bufferSize
      i.offset (bufferSize_pos i) h.toSmooth 0 hlt []
    obtain ⟨result, hrun⟩ := runChunkedUpload_eq h hsent
    have hspec : SentUpTo md5 sequence io file i n (runChunkedUpload md5 sequence req io) := by
      rw [hrun]
      refine ⟨hn, hend, ?_, ?_, md5Lower_uploadOutcome ..⟩
      · rintro abi habi
        obtain rfl := Option.some.inj habi
        exact fileMd5_initAbi ..
      · rw [Nat.sub_zero, ← List.range_eq_range']
    rw [hspec.right_iff h.hex, and_iff_right hlt]
    refine forall_congr' fun k => imp_congr_left ⟨fun hk => ?_, fun hk => ?_⟩
    · exact (position_mono hk).trans_lt hn
    · by_contra hnk
      exact absurd (hend.trans (position_mono (Nat.lt_of_not_le hnk))) (Nat.not_le.2 hk)
  · exact iff_of_false (not_right_of_done h (Nat.not_lt.1 hlt)) fun hc => hlt hc.1

end

def plainRequest : UploadRequest where
  localPath := ascii "/tmp/a.3mf"
  destStorage := ascii "emmc"
  destName := ascii "a.3mf"

/-- An upload that the printer wants in chunks of 64 KiB from an offset on, with reads of at most
`got` bytes. -/
def plainIo (file : LocalFile) (offset : Bytes) (got : ℕ) : UploadIo where
  file := some file
  sendsInit := true
  initReply := some (ascii "\x7b\"result\":1,\"reply\":\x7b\"chunk_size\":64,\"offset\":" ++
    offset ++ ascii "\x7d\x7d")
  digest := true
  prefixReads _ := ⟨got, true⟩
  reads _ := ⟨got, true⟩
  cancelled _ := false
  sends _ := true
  finals := [ascii "\x7b\"result\":0\x7d"]
  sslError := []

def plainInit (offset : ℕ) : UploadInit := ⟨64, offset, Nat.succ_pos _, Nat.le_of_ble_eq_true rfl⟩

theorem clean_plain {md5 : Bytes → Bytes} (hmd5 : ∀ d, md5 d ≠ []) {file : LocalFile}
    {text : Bytes} {offset got : ℕ} (hgot : 0 < got) (hoffset : offset ≤ file.content.length)
    (hreply : (plainIo file text got).initReply.bind parseUploadInitReply =
      some (plainInit offset)) :
    UploadClean md5 plainRequest (plainIo file text got) file (plainInit offset) where
  reads _ := ⟨hgot, rfl⟩
  uncancelled _ := rfl
  sends _ := rfl
  hex := hmd5
  storage := by decide
  name := by decide
  path := by decide
  opens := rfl
  request := rfl
  reply := hreply
  offset := hoffset
  digest := rfl
  prefixReads _ := ⟨hgot, rfl⟩
  result := by
    have hresult : awaitResult 32 (-1) (plainIo file text got).finals = some 0 := rfl
    rw [hresult]
    exact Option.some_ne_none 0

def fiveBytes : LocalFile := ⟨ascii "abcde", by decide⟩

/-- The chunks after the first byte, in reads of two bytes. -/
theorem position_fiveBytes (k : ℕ) :
    position (plainIo fiveBytes (ascii "1") 2) (plainInit 1).bufferSize 1 k = 1 + 2 * k := by
  induction k with
  | zero => rfl
  | succ k ih =>
    have hgot : min (plainInit 1).bufferSize ((plainIo fiveBytes (ascii "1") 2).reads k).got = 2 :=
      min_eq_right (Nat.le_of_ble_eq_true rfl)
    rw [position, ih, hgot]
    omega

/-- A file whose first byte is there already, in two chunks. -/
theorem uploadStream_iff_fiveBytes :
    (runChunkedUpload (fun _ => ascii "ab56b4d92b40713acc5af89985d4b786") 7 plainRequest
      (plainIo fiveBytes (ascii "1") 2)).Right
        (fun _ => ascii "ab56b4d92b40713acc5af89985d4b786") (ascii "abcde") 1 := by
  have hclean : UploadClean (fun _ => ascii "ab56b4d92b40713acc5af89985d4b786") plainRequest
      (plainIo fiveBytes (ascii "1") 2) fiveBytes (plainInit 1) :=
    clean_plain (fun _ => by decide) Nat.two_pos (by decide) rfl
  refine (uploadStream_iff hclean).2 ⟨by decide, fun k hk => ?_⟩
  have hk' : 1 + 2 * k < 5 := (position_fiveBytes k).symm.trans_lt hk
  refine ⟨by omega, ?_⟩
  have hexact : Exact (1 + 2 * k) := Double.ofNat_of_le (by omega)
  exact (position_fiveBytes k).symm ▸ hexact

def emptyFile : LocalFile := ⟨[], by decide⟩

/-- An empty file is uploaded without its digest. -/
theorem empty_file_without_digest :
    UploadClean (fun _ => ascii "d41d8cd98f00b204e9800998ecf8427e") plainRequest
      (plainIo emptyFile (ascii "0") 65536) emptyFile (plainInit 0) ∧
    ¬ (runChunkedUpload (fun _ => ascii "d41d8cd98f00b204e9800998ecf8427e") 7 plainRequest
      (plainIo emptyFile (ascii "0") 65536)).Right
        (fun _ => ascii "d41d8cd98f00b204e9800998ecf8427e") [] 0 := by
  have h : UploadClean (fun _ => ascii "d41d8cd98f00b204e9800998ecf8427e") plainRequest
      (plainIo emptyFile (ascii "0") 65536) emptyFile (plainInit 0) :=
    clean_plain (fun _ => by decide) (Nat.succ_pos _) (le_refl 0) rfl
  exact ⟨h, not_right_of_done h (le_refl 0)⟩

end BambooNet.Tunnel
