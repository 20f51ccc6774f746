import BambooNet.Lib.Bytes
import BambooNet.Lib.Framing
import Mathlib.Algebra.Order.BigOperators.Group.List

/-!
# Frames of the :6000 tunnel

`consumeFrames` cuts the complete frames off the front of the receive buffer. A frame is a
16-byte header, little-endian payload length first, and the payload.

The scan adds the header length to the wire's 32-bit length in 32 bits. Reads are checked against
the buffer, so the scan can end in three ways: it returns, it reads past the end, or it does not
return. `consumeFrames_exact_iff` says when it returns what the specification `tunnelFraming.split`
gives: exactly when no header it meets announces `2 ^ 32 - 16` bytes or more.
-/

namespace BambooNet.Tunnel

structure FrameHeader where
  payloadLen : UInt32
  magic : UInt32
  seq : UInt32
  deriving DecidableEq, Repr

def readU32Le : Bytes → Option UInt32
  | a :: b :: c :: d :: _ =>
    some (a.toUInt32 ||| b.toUInt32 <<< 8 ||| c.toUInt32 <<< 16 ||| d.toUInt32 <<< 24)
  | _ => none

/-- The outer `none` is a read past the end of `mem`, the inner one a refused length. -/
def parseFrameHeader (mem : Bytes) (len : ℕ) : Option (Option FrameHeader) :=
  if len < 16 then some none
  else do
    let payloadLen ← readU32Le mem
    let magic ← readU32Le (mem.drop 4)
    let seq ← readU32Le (mem.drop 8)
    some (some { payloadLen, magic, seq })

/-- One round of the loop of `consume_frames` at offset `i`. -/
inductive ScanStep
  | stop
  | overread
  | frame (body : Bytes) (i : ℕ)

def scanStep (data : Bytes) (i : ℕ) : ScanStep :=
  if i + 16 ≤ data.length then
    match parseFrameHeader (data.drop i) (data.length - i) with
    | none => .overread
    | some none => .stop
    | some (some hdr) =>
      -- `16 + hdr.payload_len` is computed in 32 bits and widened afterwards
      let frameLen := (16 + hdr.payloadLen).toNat
      if i + frameLen > data.length then .stop
      else
        match readBytes data (i + 16) hdr.payloadLen.toNat with
        | none => .overread
        | some body => .frame body (i + frameLen)
  else .stop

/-- How a scan ends; `running` when it needs more rounds than it was given. -/
inductive Scan
  | done (consumed : ℕ) (bodies : List Bytes)
  | overread
  | running
  deriving DecidableEq, Repr

def scan (data : Bytes) : ℕ → ℕ → List Bytes → Scan
  | 0, _, _ => .running
  | fuel + 1, i, bodies =>
    match scanStep data i with
    | .stop => .done i bodies
    | .overread => .overread
    | .frame body i' => scan data fuel i' (bodies ++ [body])

/-- `consume_frames`. A round that does not stop either moves the offset forward or leaves the
state as it was, so the rounds given here settle whether the scan ends (`scan_fuel`). -/
def consumeFrames (data : Bytes) : Scan := scan data (data.length + 1) 0 []

/-! ## The framing it reads -/

/-- Frames of the tunnel: a 16-byte header, its first four bytes the payload length. -/
def tunnelFraming : Framing UInt8 where
  hdr := 16
  hdr_pos := by decide
  payloadLen := fun h => leNat (h.take 4)

@[simp] theorem tunnelFraming_hdr : tunnelFraming.hdr = 16 := rfl

/-- Payload lengths from here on make `16 + payload_len` wrap. -/
def wrapLen : ℕ := 2 ^ 32 - 16

/-- The scan terminates without reading past the buffer, and returns the complete frames at its
front and the number of bytes they take. -/
def ConsumesExactly (data : Bytes) : Prop :=
  ∃ fuel, scan data fuel 0 [] =
    .done (tunnelFraming.wireLen (tunnelFraming.split data).1) (tunnelFraming.split data).1

/-- No header met in `data` announces a payload whose frame length wraps. -/
def NoWrap (data : Bytes) : Prop := ∀ n ∈ tunnelFraming.announced data, n < wrapLen

theorem lenAt_lt (s : Bytes) : tunnelFraming.lenAt s < 2 ^ 32 := by
  have h := leNat_lt ((s.take 16).take 4)
  have hl : ((s.take 16).take 4).length ≤ 4 := List.length_take_le ..
  calc tunnelFraming.lenAt s < 256 ^ ((s.take 16).take 4).length := h
    _ ≤ 256 ^ 4 := Nat.pow_le_pow_right (by decide) hl
    _ = 2 ^ 32 := by decide

/-- The header at the front of at least 16 bytes is read without fault. -/
theorem parseFrameHeader_of_le {s : Bytes} (h : 16 ≤ s.length) :
    ∃ hdr, parseFrameHeader s s.length = some (some hdr) ∧
      hdr.payloadLen.toNat = tunnelFraming.lenAt s := by
  match s, h with
  | a :: b :: c :: d :: e :: f :: g :: h :: i :: j :: k :: l :: s, hs =>
    simp only [parseFrameHeader, if_neg (Nat.not_lt.2 hs), List.drop_succ_cons, List.drop_zero,
      readU32Le]
    exact ⟨_, rfl, toNat_joinLe a b c d⟩

/-- **What one round does**, in terms of the frame at the offset. -/
theorem scanStep_eq (data : Bytes) (i : ℕ) :
    scanStep data i =
      if i + 16 ≤ data.length then
        if data.length < i + (16 + tunnelFraming.lenAt (data.drop i)) % 2 ^ 32 then .stop
        else if tunnelFraming.Complete (data.drop i) then
          .frame (tunnelFraming.payload (data.drop i))
            (i + (16 + tunnelFraming.lenAt (data.drop i)) % 2 ^ 32)
        else .overread
      else .stop := by
  by_cases h16 : i + 16 ≤ data.length
  · have hlen : (data.drop i).length = data.length - i := List.length_drop
    obtain ⟨hdr, hp, hn⟩ := parseFrameHeader_of_le (s := data.drop i) (by omega)
    have hfl : (16 + hdr.payloadLen).toNat =
        (16 + tunnelFraming.lenAt (data.drop i)) % 2 ^ 32 := by
      rw [UInt32.toNat_add, hn]; rfl
    rw [hlen] at hp
    simp only [scanStep, h16, if_true, hp, hfl, hn, gt_iff_lt]
    congr 1
    by_cases hc : tunnelFraming.Complete (data.drop i)
    · have hc' := hc
      simp only [Framing.Complete, hlen, tunnelFraming] at hc'
      rw [if_pos hc, readBytes_of_le (by simp only [tunnelFraming]; omega)]
      simp only [Framing.payload, List.drop_drop, tunnelFraming]
    · have hc' := hc
      simp only [Framing.Complete, hlen, tunnelFraming] at hc'
      rw [if_neg hc, readBytes_of_lt (by simp only [tunnelFraming]; omega)]
  · simp only [scanStep, h16, if_false]

/-- A wrapped frame length is below the header length, so it never stops the scan. -/
theorem wrapped_lt {n : ℕ} (hn : wrapLen ≤ n) (hlt : n < 2 ^ 32) : (16 + n) % 2 ^ 32 < 16 := by
  unfold wrapLen at hn
  omega

theorem not_wrapped {n : ℕ} (hn : n < wrapLen) : (16 + n) % 2 ^ 32 = 16 + n := by
  unfold wrapLen at hn
  exact Nat.mod_eq_of_lt (by omega)

theorem after_drop (data : Bytes) (i : ℕ) :
    tunnelFraming.after (data.drop i) =
      data.drop (i + (16 + tunnelFraming.lenAt (data.drop i))) := by
  rw [Framing.after, List.drop_drop, tunnelFraming_hdr]

theorem complete_drop {data : Bytes} {i : ℕ} :
    tunnelFraming.Complete (data.drop i) ↔
      16 + tunnelFraming.lenAt (data.drop i) ≤ data.length - i := by
  rw [Framing.Complete, tunnelFraming_hdr, List.length_drop]

theorem scanStep_short {data : Bytes} {i : ℕ} (h : data.length < i + 16) :
    scanStep data i = .stop := by
  rw [scanStep_eq, if_neg (by omega)]

theorem scanStep_complete {data : Bytes} {i : ℕ} (hc : tunnelFraming.Complete (data.drop i))
    (hn : tunnelFraming.lenAt (data.drop i) < wrapLen) :
    scanStep data i = .frame (tunnelFraming.payload (data.drop i))
      (i + (16 + tunnelFraming.lenAt (data.drop i))) := by
  have hle := complete_drop.1 hc
  rw [scanStep_eq, if_pos (by omega), not_wrapped hn, if_neg (by omega), if_pos hc]

theorem scanStep_incomplete {data : Bytes} {i : ℕ} (h16 : i + 16 ≤ data.length)
    (hc : ¬ tunnelFraming.Complete (data.drop i))
    (hn : tunnelFraming.lenAt (data.drop i) < wrapLen) : scanStep data i = .stop := by
  rw [complete_drop] at hc
  rw [scanStep_eq, if_pos h16, not_wrapped hn, if_pos (by omega)]

theorem scanStep_wrapped {data : Bytes} {i : ℕ} (h16 : i + 16 ≤ data.length)
    (hn : wrapLen ≤ tunnelFraming.lenAt (data.drop i)) :
    scanStep data i =
      if tunnelFraming.Complete (data.drop i) then
        .frame (tunnelFraming.payload (data.drop i))
          (i + (16 + tunnelFraming.lenAt (data.drop i)) % 2 ^ 32)
      else .overread := by
  have hlt := wrapped_lt hn (lenAt_lt (data.drop i))
  rw [scanStep_eq, if_pos h16, if_neg (by omega)]

/-! ## Runs of the scan -/

theorem scan_stop {data : Bytes} {i : ℕ} (h : scanStep data i = .stop) (fuel : ℕ)
    (acc : List Bytes) : scan data (fuel + 1) i acc = .done i acc := by
  rw [scan, h]

theorem scan_frame {data body : Bytes} {i j : ℕ} (h : scanStep data i = .frame body j) (fuel : ℕ)
    (acc : List Bytes) : scan data (fuel + 1) i acc = scan data fuel j (acc ++ [body]) := by
  rw [scan, h]

/-- A round that does not move the offset repeats for ever. -/
theorem scan_stuck {data body : Bytes} {i : ℕ} (h : scanStep data i = .frame body i) (fuel : ℕ)
    (acc : List Bytes) : scan data fuel i acc = .running := by
  induction fuel generalizing acc with
  | zero => rfl
  | succ fuel ih => rw [scan_frame h, ih]

theorem scanStep_bounds {data body : Bytes} {i j : ℕ} (h : scanStep data i = .frame body j) :
    i < data.length ∧ i ≤ j ∧ j ≤ data.length := by
  rw [scanStep_eq] at h
  split_ifs at h with h16 hstop hc
  obtain ⟨-, rfl⟩ := ScanStep.frame.inj h
  omega

/-- **One round for each byte and one more settle how a scan ends.** -/
theorem scan_fuel {data : Bytes} {fuel fuel' i : ℕ} {acc : List Bytes}
    (h : scan data fuel i acc ≠ .running) (hfuel : data.length - i < fuel') :
    scan data fuel' i acc = scan data fuel i acc := by
  induction fuel generalizing fuel' i acc with
  | zero => exact absurd rfl h
  | succ fuel ih =>
    obtain ⟨fuel', rfl⟩ : ∃ n, fuel' = n + 1 := ⟨fuel' - 1, by omega⟩
    cases hstep : scanStep data i with
    | stop => rw [scan_stop hstep, scan_stop hstep]
    | overread => simp only [scan, hstep]
    | frame body j =>
      obtain ⟨hi, hij, hj⟩ := scanStep_bounds hstep
      rcases Nat.eq_or_lt_of_le hij with rfl | hlt
      · exact absurd (scan_stuck hstep _ _) h
      · rw [scan_frame hstep] at h
        rw [scan_frame hstep, scan_frame hstep, ih h (by omega)]

/-- Bytes the scan counts for frames with the given payloads. -/
def wrappedLen (bodies : List Bytes) : ℕ := (bodies.map fun b => (16 + b.length) % 2 ^ 32).sum

theorem wrappedLen_le (bodies : List Bytes) : wrappedLen bodies ≤ tunnelFraming.wireLen bodies :=
  List.sum_le_sum fun b _ => Nat.mod_le (16 + b.length) (2 ^ 32)

/-- The payloads a scan returns account for the offset it returns. -/
theorem scan_done {data : Bytes} {fuel i c : ℕ} {acc bs : List Bytes}
    (h : scan data fuel i acc = .done c bs) :
    ∃ new, bs = acc ++ new ∧ c = i + wrappedLen new := by
  induction fuel generalizing i acc with
  | zero => simp [scan] at h
  | succ fuel ih =>
    rw [scan, scanStep_eq] at h
    split_ifs at h with h16 hstop hc
    · exact ⟨[], by simp_all [wrappedLen]⟩
    · obtain ⟨new, rfl, rfl⟩ := ih h
      refine ⟨tunnelFraming.payload (data.drop i) :: new, by simp, ?_⟩
      simp only [wrappedLen, List.map_cons, List.sum_cons, tunnelFraming.length_payload hc]
      omega
    · exact ⟨[], by simp_all [wrappedLen]⟩

/-- **Without a wrapping header the scan returns the complete frames.** Each frame of the
specification takes one round. -/
theorem scan_of_noWrap (data : Bytes) (i : ℕ) (acc : List Bytes) (fuel : ℕ)
    (hfuel : data.length - i < fuel) (hw : NoWrap (data.drop i)) :
    scan data fuel i acc =
      .done (i + tunnelFraming.wireLen (tunnelFraming.split (data.drop i)).1)
        (acc ++ (tunnelFraming.split (data.drop i)).1) := by
  induction fuel generalizing i acc with
  | zero => omega
  | succ fuel ih =>
    by_cases hc : tunnelFraming.Complete (data.drop i)
    · have hle := complete_drop.1 hc
      have hann := tunnelFraming.announced_of_le (tunnelFraming.complete_header hc)
      have hn : tunnelFraming.lenAt (data.drop i) < wrapLen := hw _ (by rw [hann]; simp)
      have hrest : NoWrap (data.drop (i + (16 + tunnelFraming.lenAt (data.drop i)))) :=
        fun n hmem => hw n (by
          rw [hann, if_pos hc, after_drop]
          exact List.mem_cons_of_mem _ hmem)
      rw [scan_frame (scanStep_complete hc hn), ih _ _ (by omega) hrest,
        tunnelFraming.split_of_complete hc, after_drop, Framing.wireLen_cons,
        tunnelFraming.length_payload hc, tunnelFraming_hdr, List.append_assoc,
        List.singleton_append, Nat.add_assoc i]
    · have hstop : scanStep data i = .stop := by
        by_cases h16 : i + 16 ≤ data.length
        · refine scanStep_incomplete h16 hc (hw _ ?_)
          rw [tunnelFraming.announced_of_le (by rw [tunnelFraming_hdr, List.length_drop]; omega)]
          exact List.mem_cons_self
        · exact scanStep_short (by omega)
      rw [scan_stop hstop, tunnelFraming.split_of_not_complete hc]
      simp

/-- **A scan that returns the complete frames met no wrapping header.** A wrapping header of an
unfinished frame is an overread; one of a complete frame is counted short, and nothing later makes
up for it. -/
theorem noWrap_of_scan {data : Bytes} {fuel i : ℕ} {acc : List Bytes}
    (h : scan data fuel i acc =
      .done (i + tunnelFraming.wireLen (tunnelFraming.split (data.drop i)).1)
        (acc ++ (tunnelFraming.split (data.drop i)).1)) :
    NoWrap (data.drop i) := by
  induction fuel generalizing i acc with
  | zero => simp [scan] at h
  | succ fuel ih =>
    have hlen : (data.drop i).length = data.length - i := List.length_drop
    by_cases h16 : i + 16 ≤ data.length
    swap
    · intro n hmem
      rw [tunnelFraming.announced_of_lt (by rw [tunnelFraming_hdr]; omega)] at hmem
      cases hmem
    have hann := tunnelFraming.announced_of_le (s := data.drop i)
      (by rw [tunnelFraming_hdr]; omega)
    rcases Nat.lt_or_ge (tunnelFraming.lenAt (data.drop i)) wrapLen with hn | hn
    · intro n hmem
      rw [hann, List.mem_cons] at hmem
      rcases hmem with rfl | hmem
      · exact hn
      by_cases hc : tunnelFraming.Complete (data.drop i)
      · rw [if_pos hc, after_drop] at hmem
        refine @ih _ (acc ++ [tunnelFraming.payload (data.drop i)]) ?_ n hmem
        rw [scan_frame (scanStep_complete hc hn), tunnelFraming.split_of_complete hc, after_drop,
          Framing.wireLen_cons, tunnelFraming.length_payload hc, tunnelFraming_hdr] at h
        rw [h, List.append_assoc, List.singleton_append, Nat.add_assoc i]
      · rw [if_neg hc] at hmem
        cases hmem
    · exfalso
      have hlt := wrapped_lt hn (lenAt_lt (data.drop i))
      by_cases hc : tunnelFraming.Complete (data.drop i)
      · -- the first payload is counted with fewer than 16 bytes, the others with at most theirs
        obtain ⟨new, hnew, hcount⟩ := scan_done h
        rw [tunnelFraming.split_of_complete hc, List.append_cancel_left_eq] at hnew
        have hrest := wrappedLen_le (tunnelFraming.split (tunnelFraming.after (data.drop i))).1
        rw [← hnew, tunnelFraming.split_of_complete hc] at hcount
        simp only [wrappedLen, List.map_cons, List.sum_cons, Framing.wireLen_cons,
          tunnelFraming_hdr, tunnelFraming.length_payload hc] at hcount hrest
        omega
      · rw [scan, scanStep_wrapped h16 hn, if_neg hc] at h
        cases h

/-! ## Exactness -/

theorem consumesExactly_iff (data : Bytes) : ConsumesExactly data ↔ NoWrap data := by
  constructor
  · rintro ⟨fuel, h⟩
    have := @noWrap_of_scan data fuel 0 [] (by simpa using h)
    simpa using this
  · intro h
    refine ⟨data.length + 1, ?_⟩
    simpa using scan_of_noWrap data 0 [] (data.length + 1) (by omega) (by simpa using h)

/-- **`consume_frames` is total and exact on a buffer if and only if no header it meets announces
`2 ^ 32 - 16` bytes or more.** However many rounds a scan takes to end, `consumeFrames` ends in the
same way. -/
theorem consumeFrames_exact_iff (data : Bytes) :
    (ConsumesExactly data ↔ NoWrap data) ∧
      ∀ fuel, scan data fuel 0 [] ≠ .running → consumeFrames data = scan data fuel 0 [] :=
  ⟨consumesExactly_iff data, fun _ h => scan_fuel h (Nat.lt_succ_self _)⟩

/-- A lone header that announces `2 ^ 32 - 16` bytes. -/
def hugeHeader : Bytes := [0xf0, 0xff, 0xff, 0xff, 0, 0, 0, 0, 0, 0, 0, 0, 0, 0, 0, 0]

/-- On that header the scan copies bytes past the end of the buffer, whatever its fuel. -/
theorem hugeHeader_overread (fuel : ℕ) : scan hugeHeader (fuel + 1) 0 [] = .overread := rfl

theorem hugeHeader_not_exact : ¬ ConsumesExactly hugeHeader := by
  rintro ⟨fuel, h⟩
  cases fuel with
  | zero => cases h
  | succ fuel => rw [hugeHeader_overread] at h; cases h

end BambooNet.Tunnel
