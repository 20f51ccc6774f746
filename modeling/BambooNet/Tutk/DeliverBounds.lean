import BambooNet.Lib.CheckedReads
import BambooNet.Tutk.FrameOrder

/-!
# The reads of `deliver`

`deliver` looks for a keyframe in the bytes of the frame: at the start for a JPEG or an H.264 start
code, and at `[2]` of the frame info trailer. `deliverRead` is `deliver` with every read checked
against the assembled buffer and with what goes to `emit` as a range of it. Where all the reads are
inside it is the `deliver` of the queue, whatever lies behind the buffer (`deliver_eq`).

The reads at the start stand behind checks of the length. The one in the trailer is checked only
against the trailer being shorter than the frame, and a trailer of one or two bytes has no `[2]`
(`inBounds_iff`).
-/

namespace BambooNet.Tutk

/-! ## Probes of the frame's start -/

/-- `is_jpeg` on the first `n` bytes of a buffer. -/
def isJpegRead (p : Bytes) (n : ℕ) : Option Bool :=
  both (some (decide (n ≥ 2))) (bytesAre p 0 [0xff, 0xd8])

def startsWithStartCodeRead (p : Bytes) (n : ℕ) : Option Bool :=
  either (both (some (decide (n ≥ 3))) (bytesAre p 0 [0, 0, 1]))
    (both (some (decide (n ≥ 4))) (bytesAre p 0 [0, 0, 0, 1]))

def h264IsKeyframeRead (p : Bytes) (n : ℕ) : Option Bool := do
  let four ← both (some (decide (n ≥ 4))) (byteIs p 2 0)
  let off := if four then 4 else 3
  if n ≤ off then some false
  else
    let b ← p[off]?
    let nal := b &&& 0x1f
    some (nal == 5 || nal == 7)

/-! ## Delivery -/

/-- A range of the assembled buffer, as the `emit` callback gets it. -/
structure Emitted where
  start : ℕ
  len : ℕ
  key : Bool
  deriving DecidableEq

namespace Frame

/-- Whether the frame is a keyframe, as `deliver` finds out. -/
def keyRead (f : Frame) : Option Bool := do
  let key ← either (some (f.kind == 5)) (isJpegRead f.data f.data.length)
  let key ←
    if f.infoLen ≠ 0 ∧ f.data.length > f.infoLen then
      either (some key) (byteIs f.data (f.videoLen + 2) 1)
    else some key
  let code ← both (some !key) (startsWithStartCodeRead f.data f.videoLen)
  if code then h264IsKeyframeRead f.data f.videoLen else some key

end Frame

namespace FrameQueue

/-- `deliver` with its reads checked: the queue and what is emitted. -/
def deliverRead (q : FrameQueue) (f : Frame) : Option (FrameQueue × Option Emitted) :=
  if f.kind = 4 then some (q, none)
  else do
    let key ← f.keyRead
    if q.needKey && !key && !q.anyFrame then
      some ({ q with dropped := q.dropped + 1 }, none)
    else some ({ q with needKey := false }, some ⟨0, f.videoLen, key⟩)

/-- Every byte that `deliver` reads lies inside the assembled buffer, and so does the range that it
emits. -/
def DeliversInBounds (q : FrameQueue) (f : Frame) : Prop :=
  ∃ q' out, q.deliverRead f = some (q', out) ∧
    ∀ r ∈ out, r.start + r.len ≤ f.data.length

end FrameQueue

/-! ## The probes are inside -/

section Probes

variable {p : Bytes} {n : ℕ} (hn : n ≤ p.length)

include hn

theorem isJpegRead_eq : isJpegRead p n = some (isJpeg (p.take n)) := both_bytesAre hn [0xff, 0xd8]

theorem startsWithStartCodeRead_eq :
    startsWithStartCodeRead p n = some (startsWithStartCode (p.take n)) := by
  have h3 := both_bytesAre hn [0, 0, 1]
  have h4 := both_bytesAre hn [0, 0, 0, 1]
  rw [startsWithStartCodeRead]
  exact (congrArg₂ either h3 h4).trans (either_of fun _ => rfl)

theorem h264IsKeyframeRead_eq : h264IsKeyframeRead p n = some (h264IsKeyframe (p.take n)) := by
  have hlen : (p.take n).length = n := by rw [List.length_take, min_eq_left hn]
  have hget {i : ℕ} (hi : i < n) : (p.take n).getD i 0 = p.getD i 0 := by
    rw [List.getD_eq_getElem?_getD, List.getElem?_take_of_lt hi, List.getD_eq_getElem?_getD]
  have hfour : both (some (decide (n ≥ 4))) (byteIs p 2 0) =
      some (decide (n ≥ 4) && p.getD 2 0 == 0) := by
    refine both_of fun h => ?_
    have hge : 4 ≤ n := of_decide_eq_true h
    exact byteIs_of_lt (by omega) 0
  -- the offset of the NAL header is the same on both sides
  have hoff : (if (decide (n ≥ 4) && p.getD 2 0 == 0) = true then 4 else 3) =
      if (p.take n).length ≥ 4 ∧ (p.take n).getD 2 0 = 0 then 4 else 3 := by
    by_cases hge : 4 ≤ n
    · rw [hget (show 2 < n by omega), hlen]
      simp [hge]
    · simp [hlen, hge]
  simp only [h264IsKeyframeRead, h264IsKeyframe, hfour, Option.bind_eq_bind, Option.bind_some, hoff]
  generalize (if (p.take n).length ≥ 4 ∧ (p.take n).getD 2 0 = 0 then 4 else 3) = off
  rw [hlen]
  split
  · rfl
  · next hgt =>
    have hlt : off < n := by omega
    rw [getElem?_eq_getD (show off < p.length by omega), hget hlt]
    rfl

end Probes

/-! ## The trailer -/

namespace Frame

variable {f : Frame}

theorem videoLen_le (f : Frame) : f.videoLen ≤ f.data.length := by
  unfold videoLen
  split
  · exact Nat.sub_le _ _
  · exact le_refl _

/-- After the flag, the H.264 probe decides, and stays inside. -/
theorem startRead_eq (f : Frame) (key : Bool) :
    (do
      let code ← both (some !key) (startsWithStartCodeRead f.data f.videoLen)
      if code then h264IsKeyframeRead f.data f.videoLen else some key) =
    some (if !key && startsWithStartCode (f.data.take f.videoLen) then
      h264IsKeyframe (f.data.take f.videoLen) else key) := by
  rw [startsWithStartCodeRead_eq f.videoLen_le, h264IsKeyframeRead_eq f.videoLen_le,
    both_of fun _ => rfl]
  simp only [Option.bind_eq_bind, Option.bind_some]
  split <;> rfl

/-- **Where the flag is inside, or not asked for, all probes are**, and what lies behind the buffer
does not matter. -/
theorem keyRead_eq (behind : UInt8) (h : f.kind = 5 ∨ isJpeg f.data = true ∨
      ¬ (f.infoLen = 1 ∨ f.infoLen = 2) ∨ f.data.length ≤ f.infoLen) :
    f.keyRead = some (f.isKey behind) := by
  have hjpeg : either (some (f.kind == 5)) (isJpegRead f.data f.data.length) =
      some (f.kind == 5 || isJpeg f.data) := by
    rw [isJpegRead_eq (le_refl _), List.take_length, either_of fun _ => rfl]
  simp only [keyRead, isKey, hjpeg, Option.bind_eq_bind, Option.bind_some]
  split
  · next hinfo =>
    have hflag : either (some (f.kind == 5 || isJpeg f.data)) (byteIs f.data (f.videoLen + 2) 1) =
        some (f.kind == 5 || isJpeg f.data || f.data.getD (f.videoLen + 2) behind == 1) := by
      refine either_of fun hkey => ?_
      have hin : f.videoLen + 2 < f.data.length := by
        rw [Bool.or_eq_false_iff, beq_eq_false_iff_ne] at hkey
        have hlen : f.videoLen = f.data.length - f.infoLen := by rw [videoLen, if_pos hinfo]
        rcases h with h | h | h | h
        · exact absurd h hkey.1
        · exact absurd h (by simp [hkey.2])
        · omega
        · omega
      rw [byteIs, List.getD_eq_getElem?_getD, List.getElem?_eq_getElem hin, Option.map_some,
        Option.getD_some]
    rw [hflag]
    exact f.startRead_eq _
  · exact f.startRead_eq _

/-- **The flag of a trailer of one or two bytes is outside.** -/
theorem keyRead_eq_none (hkind : f.kind ≠ 5) (hjpeg : isJpeg f.data = false)
    (hinfo : f.infoLen = 1 ∨ f.infoLen = 2) (hlen : f.infoLen < f.data.length) :
    f.keyRead = none := by
  have hkey : either (some (f.kind == 5)) (isJpegRead f.data f.data.length) = some false := by
    rw [isJpegRead_eq (le_refl _), List.take_length, hjpeg, either_of fun _ => rfl,
      Bool.or_false, beq_eq_false_iff_ne.2 hkind]
  have hcond : f.infoLen ≠ 0 ∧ f.data.length > f.infoLen := ⟨by omega, hlen⟩
  have hout : f.data.length ≤ f.videoLen + 2 := by
    rw [videoLen, if_pos hcond]
    omega
  simp only [keyRead, hkey, Option.bind_eq_bind, Option.bind_some, if_pos hcond, either_false,
    byteIs_of_le hout, Option.bind_none]

/-- What the checked reads find is what the queue goes by. -/
theorem keyRead_eq_some {key : Bool} (h : f.keyRead = some key) (behind : UInt8) :
    key = f.isKey behind := by
  by_cases hasks : f.kind = 5 ∨ isJpeg f.data = true ∨
      ¬ (f.infoLen = 1 ∨ f.infoLen = 2) ∨ f.data.length ≤ f.infoLen
  · rw [keyRead_eq behind hasks] at h
    exact (Option.some.inj h).symm
  · simp only [not_or, Bool.not_eq_true, not_le] at hasks
    obtain ⟨hkind, hjpeg, hinfo, hlen⟩ := hasks
    rw [keyRead_eq_none hkind hjpeg (by omega) hlen] at h
    cases h

end Frame

/-! ## Delivery in bounds -/

namespace FrameQueue

/-- **Where no read is outside, this is the delivery of the queue**, and the range that is emitted
holds the bytes of its event. -/
theorem deliver_eq {q q' : FrameQueue} {f : Frame} {out : Option Emitted}
    (h : q.deliverRead f = some (q', out)) (no : BitVec 32) (behind : UInt8) :
    (q.deliver no f behind).1 = q' ∧ ∀ r ∈ out,
      (q.deliver no f behind).2 = .emit no ((f.data.drop r.start).take r.len) r.key := by
  unfold deliverRead at h
  unfold deliver
  split at h
  · next hkind =>
    obtain ⟨rfl, rfl⟩ := Prod.mk.inj (Option.some.inj h)
    rw [if_pos hkind]
    exact ⟨rfl, by simp⟩
  · next hkind =>
    obtain ⟨key, hkey, h⟩ := Option.bind_eq_some_iff.1 h
    obtain rfl := f.keyRead_eq_some hkey behind
    rw [if_neg hkind]
    split at h
    · next hwait =>
      obtain ⟨rfl, rfl⟩ := Prod.mk.inj (Option.some.inj h)
      rw [if_pos hwait]
      exact ⟨rfl, by simp⟩
    · next hgo =>
      obtain ⟨rfl, rfl⟩ := Prod.mk.inj (Option.some.inj h)
      rw [if_neg hgo]
      refine ⟨rfl, fun r hr => ?_⟩
      obtain rfl := Option.some.inj hr
      rfl

/-- The range that is emitted ends with the video data. -/
theorem length_emitted {q q' : FrameQueue} {f : Frame} {r : Emitted}
    (h : q.deliverRead f = some (q', some r)) : r.start + r.len = f.videoLen := by
  unfold deliverRead at h
  split at h
  · cases h
  · obtain ⟨key, -, h⟩ := Option.bind_eq_some_iff.1 h
    split at h
    · cases h
    · obtain ⟨-, hr⟩ := Prod.mk.inj (Option.some.inj h)
      obtain rfl := Option.some.inj hr
      exact Nat.zero_add _

/-- A frame that does not ask a short trailer for its flag is delivered in bounds. -/
theorem inBounds_of_not_asks (q : FrameQueue) {f : Frame} (hasks : ¬ f.AsksShortTrailer) :
    q.DeliversInBounds f := by
  have hread : ∃ q' out, q.deliverRead f = some (q', out) := by
    by_cases hkind : f.kind = 4
    · exact ⟨q, none, if_pos hkind⟩
    · have hkey : f.keyRead = some (f.isKey 0) := by
        apply Frame.keyRead_eq
        by_contra hout
        simp only [not_or, Bool.not_eq_true, not_le] at hout
        obtain ⟨hkind5, hjpeg, hinfo, hlen⟩ := hout
        exact hasks ⟨hkind, hkind5, hjpeg, by omega, hlen⟩
      rw [deliverRead, if_neg hkind, hkey, Option.bind_eq_bind, Option.bind_some]
      split
      · exact ⟨_, _, rfl⟩
      · exact ⟨_, _, rfl⟩
  obtain ⟨q', out, h⟩ := hread
  refine ⟨q', out, h, fun r hr => ?_⟩
  obtain rfl := Option.mem_def.1 hr
  exact (length_emitted h).trans_le f.videoLen_le

/-- **`deliver` stays in bounds exactly when it does not ask a short trailer for its flag.** -/
theorem inBounds_iff (q : FrameQueue) (f : Frame) :
    q.DeliversInBounds f ↔ ¬ f.AsksShortTrailer := by
  refine ⟨?_, q.inBounds_of_not_asks⟩
  rintro ⟨q', out, h, -⟩ ⟨hkind4, hkind5, hjpeg, hinfo, hlen⟩
  rw [deliverRead, if_neg hkind4, Frame.keyRead_eq_none hkind5 hjpeg hinfo hlen] at h
  cases h

/-- An inter frame of one slice: two bytes, the second of which is announced as the trailer. -/
def shortTrailerSlice : Bytes :=
  [7, 1, 0, 0, 1, 0, 1, 0, 2, 0, 0, 0, 0, 0, 0, 0, 0, 0, 0, 0, 0x41, 0]

/-- The slice is accepted and completes its frame, and the flag is looked for behind its end. -/
theorem short_trailer_read_outside : ∃ no f,
    (run {} [.slice shortTrailerSlice]).1.head? = some (no, f) ∧ f.slices.size = f.count ∧
      ¬ (run {} [.slice shortTrailerSlice]).1.DeliversInBounds f := by
  let q := (run {} [.slice shortTrailerSlice]).1
  let f : Frame :=
    { count := 1, infoLen := 1, kind := 7, slices := (∅ : SortedMap ℕ Bytes).insert 0 [0x41, 0] }
  have hread : q.deliverRead f = none := by decide
  refine ⟨0, f, by decide, by decide, ?_⟩
  rintro ⟨q', out, h, -⟩
  rw [hread] at h
  cases h

/-! ## Runs -/

/-- A call of the receiver keeps the frames built from the slices given so far. -/
theorem built_step {ops : List Op} {op : Op} {q : FrameQueue} (h : Every (Built (given ops)) q) :
    Every (Built (given (ops ++ [op]))) (q.step op).1 := by
  cases op with
  | slice p =>
    have hgiven : given (ops ++ [.slice p]) = given ops ++ [p] := by simp [given]
    rw [hgiven]
    exact built_addSlice h
  | flush holes met =>
    have hgiven : given (ops ++ [.flush holes met]) = given ops := by simp [given]
    rw [hgiven]
    exact @flush_induction (fun q _ => Every (Built (given ops)) q) holes met
      (fun q es i q' e hs h => h.flushStep hs) q [] h

/-- The frames of a queue are built from the slices it was given, whatever the run. -/
theorem built_of_run (anyFrame : Bool) (ops : List Op) {no : BitVec 32} {f : Frame}
    (h : (run { anyFrame := anyFrame } ops).1.pending.get? no = some f) :
    Built (given ops) no f := by
  have hempty : Every (Built (given [])) { anyFrame := anyFrame } := by simp [Every]
  have hmeets : ∀ (ops : List Op) (q : FrameQueue) es, Meets (fun _ _ _ => True) q es ops := by
    intro ops
    induction ops with
    | nil => exact fun _ _ => trivial
    | cons op ops ih => exact fun _ _ => ⟨trivial, ih _ _⟩
  have hrun := @run_induction (fun _ _ _ => True) (fun done q _ => Every (Built (given done)) q)
    (fun _ _ _ _ _ hI => built_step hI) ops [] _ [] hempty (hmeets ops _ _)
  exact hrun no f h

/-- **A run whose slices announce no trailer of one or two bytes has only frames that are delivered
in bounds.** -/
theorem inBounds_of_run (anyFrame : Bool) (ops : List Op)
    (hslices : ∀ p ∈ given ops, ∀ h, parseSliceHeader p = some h → h.infoLen ≠ 1 ∧ h.infoLen ≠ 2)
    {no : BitVec 32} {f : Frame}
    (hf : (run { anyFrame := anyFrame } ops).1.pending.get? no = some f) :
    (run { anyFrame := anyFrame } ops).1.DeliversInBounds f := by
  refine inBounds_of_not_asks _ ?_
  rintro ⟨-, -, -, hinfo, -⟩
  rcases (built_of_run anyFrame ops hf).info with h0 | ⟨p, h, hp, hparse, -, hlen⟩
  · omega
  · have := hslices p hp h hparse
    omega

end FrameQueue

end BambooNet.Tutk
