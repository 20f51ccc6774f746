import BambooNet.Camera.Avcc
import BambooNet.Camera.SpsGeometry
import BambooNet.Lib.Base64
import BambooNet.Lib.CString
import BambooNet.Lib.Lines

/-!
# The description of the stream

`parse_sdp` finds the H.264 video track in the printer's answer to DESCRIBE. The parameter sets in
it are optional. What is taken for an SPS or a PPS has that type (`sets_parseSdp`).
-/

namespace BambooNet.Camera.Sdp

open Avcc (nalType)
open CString (atoi isSpace lower trim)

/-! ## Text -/

def lc (s : Bytes) : Bytes := lower s

/-- `base64_decode`, with the bits that are waiting in `buf`. -/
def base64Decode : ℕ → ℕ → Bytes → Option Bytes
  | _, _, [] => some []
  | buf, bits, c :: s =>
    if c = 0x3d then some []
    else if c = 0x0d ∨ c = 0x0a ∨ c = 0x20 then base64Decode buf bits s
    else
      match Base64.value c with
      | none => none
      | some v =>
        let buf := (buf <<< 6 ||| v) % 2 ^ 32
        if bits + 6 ≥ 8 then
          (base64Decode buf (bits + 6 - 8) s).map (UInt8.ofNat (buf >>> (bits + 6 - 8)) :: ·)
        else base64Decode buf (bits + 6) s

/-! ## The track -/

structure H264Track where
  sps : Bytes
  pps : Bytes
  clockRate : ℕ
  rtpPt : ℤ
  width : ℤ
  height : ℤ
  fps : ℤ
  deriving DecidableEq

/-- One of the sets of `sprop-parameter-sets`. -/
def addSet (t : H264Track) (b64 : Bytes) : H264Track :=
  match base64Decode 0 0 b64 with
  | none => t
  | some nal =>
    if nal = [] then t
    else if nalType nal = 7 ∧ t.sps = [] then { t with sps := nal }
    else if nalType nal = 8 ∧ t.pps = [] then { t with pps := nal }
    else t

/-- A parameter of `fmtp`. -/
def addParam (t : H264Track) (kv : Bytes) : H264Track :=
  match cutAt 0x3d kv with
  | none => t
  | some (k, v) =>
    if lc (trim k) = ascii "sprop-parameter-sets" then (splitLines 0x2c (trim v)).foldl addSet t
    else t

/-- The parser between two lines. -/
structure State where
  track : H264Track
  control : Bytes
  inVideo : Bool
  seenRtpmap : Bool
  videoPt : ℤ

def State.initial : State := ⟨⟨[], [], 90000, -1, 0, 0, 0⟩, [], false, false, -1⟩

def rtpmapLine (s : State) (rest : Bytes) : Except Bytes State :=
  match cutAt 0x20 rest with
  | none => .ok s
  | some (pt, enc) =>
    if atoi pt ≠ s.videoPt then .ok s
    else
      match cutAt 0x2f enc with
      | none => .ok s
      | some (codec, clock) =>
        if lc codec ≠ ascii "h264" then .error (ascii "rtsp: unsupported codec " ++ lc codec)
        else
          let rate := (atoi clock % 2 ^ 32).toNat
          .ok { s with
            seenRtpmap := true
            track := { s.track with clockRate := if rate = 0 then 90000 else rate } }

def fmtpLine (s : State) (rest : Bytes) : State :=
  match cutAt 0x20 rest with
  | none => s
  | some (pt, params) =>
    if atoi pt ≠ s.videoPt then s
    else { s with track := (splitLines 0x3b params).foldl addParam s.track }

def mediaLine (s : State) (val : Bytes) : State :=
  if ascii "video " <+: val then
    let videoPt :=
      if val.contains 0x20 then atoi (val.reverse.takeWhile (· ≠ 0x20)).reverse else s.videoPt
    { s with inVideo := true, videoPt, track := { s.track with rtpPt := videoPt } }
  else { s with inVideo := false }

def attributeLine (s : State) (val : Bytes) : Except Bytes State :=
  if ascii "control:" <+: val then
    .ok (if s.control = [] then { s with control := trim (val.drop 8) } else s)
  else if ascii "rtpmap:" <+: val then rtpmapLine s (val.drop 7)
  else if ascii "fmtp:" <+: val then .ok (fmtpLine s (val.drop 5))
  else .ok s

def sdpLine (s : State) (line : Bytes) : Except Bytes State :=
  match if line.getLast? = some 0x0d then line.dropLast else line with
  | tag :: eq :: val =>
    if eq ≠ 0x3d then .ok s
    else if tag = 0x6d then .ok (mediaLine s val)
    else if s.inVideo ∧ tag = 0x61 then attributeLine s val
    else .ok s
  | _ => .ok s

/-- The size and rate out of the SPS. -/
def withGeometry (t : H264Track) : H264Track :=
  if t.sps = [] then t
  else
    let r := Sps.parseSpsGeometry t.sps ⟨0, 0, 0⟩
    if r.result then { t with width := r.out.width, height := r.out.height, fps := r.out.fps }
    else t

/-- The track and its control attribute, or the error. -/
def parseSdp (sdp : Bytes) : Except Bytes (H264Track × Bytes) :=
  match (splitLines 0x0a sdp).foldlM sdpLine State.initial with
  | .error e => .error e
  | .ok s =>
    if s.seenRtpmap then .ok (withGeometry s.track, s.control)
    else .error (ascii "rtsp: SDP had no usable H.264 video track")

/-! ## The parameter sets -/

/-- The sets of a track are of their types, or not there. -/
structure Sets (t : H264Track) : Prop where
  sps : t.sps = [] ∨ nalType t.sps = 7
  pps : t.pps = [] ∨ nalType t.pps = 8

theorem Sets.addSet {t : H264Track} (h : Sets t) (b64 : Bytes) : Sets (addSet t b64) := by
  unfold Sdp.addSet
  split
  · exact h
  · split_ifs with hne hsps hpps
    · exact h
    · exact ⟨.inr hsps.1, h.pps⟩
    · exact ⟨h.sps, .inr hpps.1⟩
    · exact h

theorem Sets.foldl {α : Type} {f : H264Track → α → H264Track} (hf : ∀ t a, Sets t → Sets (f t a))
    {t : H264Track} (h : Sets t) (l : List α) : Sets (l.foldl f t) := by
  induction l generalizing t with
  | nil => exact h
  | cons a l ih => exact ih (hf t a h)

theorem Sets.addParam {t : H264Track} (h : Sets t) (kv : Bytes) : Sets (addParam t kv) := by
  unfold Sdp.addParam
  split
  · exact h
  · split_ifs
    · exact h.foldl (fun _ b64 ht => ht.addSet b64) _
    · exact h

theorem Sets.congr {t t' : H264Track} (h : Sets t) (hsps : t'.sps = t.sps) (hpps : t'.pps = t.pps) :
    Sets t' := by
  constructor
  · rw [hsps]
    exact h.sps
  · rw [hpps]
    exact h.pps

theorem Sets.mediaLine {s : State} (h : Sets s.track) (val : Bytes) :
    Sets (mediaLine s val).track := by
  unfold Sdp.mediaLine
  split
  · exact h.congr rfl rfl
  · exact h

theorem Sets.rtpmapLine {s s' : State} {rest : Bytes} (h : Sets s.track)
    (hline : rtpmapLine s rest = .ok s') : Sets s'.track := by
  unfold Sdp.rtpmapLine at hline
  split at hline
  · exact Except.ok.inj hline ▸ h
  · split_ifs at hline
    · exact Except.ok.inj hline ▸ h
    · split at hline
      · exact Except.ok.inj hline ▸ h
      · split_ifs at hline
        exact Except.ok.inj hline ▸ h.congr rfl rfl

theorem Sets.fmtpLine {s : State} (h : Sets s.track) (rest : Bytes) :
    Sets (fmtpLine s rest).track := by
  unfold Sdp.fmtpLine
  split
  · exact h
  · split_ifs
    · exact h
    · exact h.foldl (fun _ kv ht => ht.addParam kv) _

theorem Sets.attributeLine {s s' : State} {val : Bytes} (h : Sets s.track)
    (hline : attributeLine s val = .ok s') : Sets s'.track := by
  unfold Sdp.attributeLine at hline
  split_ifs at hline
  · exact Except.ok.inj hline ▸ h
  · exact Except.ok.inj hline ▸ h
  · exact h.rtpmapLine hline
  · exact Except.ok.inj hline ▸ h.fmtpLine _
  · exact Except.ok.inj hline ▸ h

theorem Sets.sdpLine {s s' : State} {line : Bytes} (h : Sets s.track)
    (hline : sdpLine s line = .ok s') : Sets s'.track := by
  unfold Sdp.sdpLine at hline
  split at hline
  · split_ifs at hline
    · exact Except.ok.inj hline ▸ h
    · exact Except.ok.inj hline ▸ h.mediaLine _
    · exact h.attributeLine hline
    · exact Except.ok.inj hline ▸ h
  · exact Except.ok.inj hline ▸ h

theorem Sets.lines {s s' : State} {ls : List Bytes} (h : Sets s.track)
    (hlines : ls.foldlM Sdp.sdpLine s = .ok s') : Sets s'.track := by
  induction ls generalizing s with
  | nil => exact Except.ok.inj hlines ▸ h
  | cons l ls ih =>
    rw [List.foldlM_cons] at hlines
    cases hline : Sdp.sdpLine s l with
    | error e =>
      rw [hline] at hlines
      cases hlines
    | ok next =>
      rw [hline] at hlines
      exact ih (h.sdpLine hline) hlines

theorem Sets.withGeometry {t : H264Track} (h : Sets t) : Sets (withGeometry t) := by
  unfold Sdp.withGeometry
  split
  · exact h
  · dsimp only
    split
    · exact h.congr rfl rfl
    · exact h

/-- **What the description names as a set is one.** -/
theorem sets_parseSdp {sdp control : Bytes} {t : H264Track}
    (h : parseSdp sdp = .ok (t, control)) : Sets t := by
  unfold parseSdp at h
  split at h
  · cases h
  · next s hlines =>
    have hsets : Sets s.track := Sets.lines ⟨.inl rfl, .inl rfl⟩ hlines
    split_ifs at h
    obtain ⟨rfl, -⟩ := Prod.mk.inj (Except.ok.inj h)
    exact hsets.withGeometry

end BambooNet.Camera.Sdp
