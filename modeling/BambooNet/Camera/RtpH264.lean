import BambooNet.Lib.BigEndian

/-!
# H.264 out of RTP packets

`decode_rtp_h264` takes NAL units out of RTP packets: a packet holds one unit, or several behind
their sizes (STAP-A), or a fragment of one (FU-A). The fragments of a unit are joined in a buffer
that stays from one packet to the next.

**Theorem (`queue_of_sent`).** However the NAL units of the access units are put into packets, and
whatever the packets' headers carry besides, the queue receives these units in order, each with the
time of its access unit, and `au_end` on the last unit of each access unit alone.
-/

namespace BambooNet.Camera.RtpH264

/-! ## The receiver -/

structure Nalu where
  data : Bytes
  rtpTs90khz : UInt32
  auEnd : Bool
  deriving DecidableEq

/-- The queue, and the unit that is being joined from its fragments. -/
structure Depacketizer where
  naluQueue : List Nalu
  fuBuf : Bytes
  fuTs : UInt32
  fuAuEnd : Bool
  deriving DecidableEq

def Depacketizer.initial : Depacketizer := ⟨[], [], 0, false⟩

def Depacketizer.push (d : Depacketizer) (nus : List Nalu) : Depacketizer :=
  { d with naluQueue := d.naluQueue ++ nus }

/-- The units of a STAP-A packet, from the first size on. -/
def stapUnits (ts : UInt32) (m : Bool) (p : Bytes) : List Nalu :=
  match p with
  | hi :: lo :: rest =>
    let subSize := hi.toNat <<< 8 ||| lo.toNat
    if subSize = 0 ∨ rest.length < subSize then []
    else
      ⟨rest.take subSize, ts, m && decide (subSize = rest.length)⟩ ::
        stapUnits ts m (rest.drop subSize)
  | _ => []
termination_by p.length
decreasing_by simp only [List.length_drop, List.length_cons]; omega

/-- The first fragment, or one that goes on with the buffer; `none` without a start. -/
def fuCollect (d : Depacketizer) (ts : UInt32) (m : Bool) (fuInd fuHdr : UInt8) (frag : Bytes) :
    Option Depacketizer :=
  if fuHdr &&& 0x80 ≠ 0 then
    some { d with
      fuBuf := (fuInd &&& 0xe0 ||| (fuHdr &&& 0x1f) &&& 0x1f) :: frag
      fuTs := ts
      fuAuEnd := m }
  else if d.fuBuf ≠ [] then
    some { d with fuBuf := d.fuBuf ++ frag, fuAuEnd := if m then true else d.fuAuEnd }
  else none

/-- A fragment; the last one emits the unit. -/
def fuFragment (d : Depacketizer) (ts : UInt32) (m : Bool) (fuInd fuHdr : UInt8) (frag : Bytes) :
    Depacketizer :=
  match fuCollect d ts m fuInd fuHdr frag with
  | none => d
  | some d' =>
    if fuHdr &&& 0x40 ≠ 0 then
      { d' with
        naluQueue := d'.naluQueue ++ [⟨d'.fuBuf, d'.fuTs, d'.fuAuEnd⟩]
        fuBuf := []
        fuAuEnd := false }
    else d'

/-- What comes after the RTP header. -/
def decodePayload (d : Depacketizer) (ts : UInt32) (m : Bool) : Bytes → Depacketizer
  | [] => d
  | nal0 :: p =>
    let nalType := nal0 &&& 0x1f
    if 1 ≤ nalType ∧ nalType ≤ 23 then d.push [⟨nal0 :: p, ts, m⟩]
    else if nalType = 24 then d.push (stapUnits ts m p)
    else if nalType = 28 then
      match p with
      | [] => d
      | fuHdr :: frag => fuFragment d ts m nal0 fuHdr frag
    else d

/-- The payload behind the header extension; `none` when its length is not there. -/
@[grind =] def skipExtension : Bytes → Option Bytes
  | _ :: _ :: hi :: lo :: rest => some (rest.drop ((hi.toNat <<< 8 ||| lo.toNat) * 4))
  | _ => none

@[grind =] def decodeRtpH264 (rtpPt : ℤ) (d : Depacketizer) (rtp : Bytes) : Depacketizer :=
  match rtp with
  | b0 :: b1 :: _ :: _ :: t0 :: t1 :: t2 :: t3 :: _ :: _ :: _ :: _ :: rest =>
    if b0 >>> 6 ≠ 2 then d
    else
      let cc := (b0 &&& 0x0f).toNat
      let m := b1 &&& 0x80 != 0
      if ((b1 &&& 0x7f).toNat : ℤ) ≠ rtpPt then d
      else
        let ts := t0.toUInt32 <<< 24 ||| t1.toUInt32 <<< 16 ||| t2.toUInt32 <<< 8 ||| t3.toUInt32
        let p := rest.drop (4 * cc)
        if b0 &&& 0x10 ≠ 0 then
          match skipExtension p with
          | none => d
          | some p => decodePayload d ts m p
        else decodePayload d ts m p
  | _ => d

/-! ## The sender -/

/-- A NAL unit of types 1 to 23. -/
structure NalUnit where
  header : UInt8
  body : Bytes
  type_range : 1 ≤ header &&& 0x1f ∧ header &&& 0x1f ≤ 23

def NalUnit.bytes (n : NalUnit) : Bytes := n.header :: n.body

/-- How NAL units are put into packets. -/
inductive Packing
  | single (n : NalUnit)
  /-- STAP-A, with its header byte. -/
  | stapA (ind : UInt8) (first : NalUnit) (more : List NalUnit) (ind_type : ind &&& 0x1f = 24)
      (size_le : ∀ n ∈ first :: more, n.bytes.length ≤ 65535)
  /-- FU-A. -/
  | fuA (n : NalUnit) (first : Bytes) (mids : List Bytes) (last : Bytes)
      (body_eq : n.body = first ++ (mids.flatten ++ last))

namespace Packing

def units : Packing → List NalUnit
  | single n => [n]
  | stapA _ first more _ _ => first :: more
  | fuA n _ _ _ _ => [n]

/-- A fragment, with its start or end bit. -/
def fragment (n : NalUnit) (bit : UInt8) (frag : Bytes) : Bytes :=
  (n.header &&& 0xe0 ||| 28) :: (bit ||| n.header &&& 0x1f) :: frag

def payloads : Packing → List Bytes
  | single n => [n.bytes]
  | stapA ind first more _ _ =>
    [ind :: (first :: more).flatMap fun n => beBytes 2 n.bytes.length ++ n.bytes]
  | fuA n first mids last _ =>
    fragment n 0x80 first :: (mids.map (fragment n 0) ++ [fragment n 0x40 last])

end Packing

/-- The elements of a list, with `m` at the last one. -/
@[grind =] def markLast {α : Type*} (m : Bool) : List α → List (Bool × α)
  | [] => []
  | [a] => [(m, a)]
  | a :: b :: l => (false, a) :: markLast m (b :: l)

/-- NAL units of one time. -/
structure AccessUnit where
  ts : UInt32
  packings : List Packing

structure Packet where
  ts : UInt32
  marker : Bool
  payload : Bytes

/-- The marker bit is on the last packet. -/
def AccessUnit.packets (au : AccessUnit) : List Packet :=
  (markLast true (au.packings.flatMap Packing.payloads)).map fun e => ⟨au.ts, e.1, e.2⟩

/-- What units with their markers become. -/
def received (ts : UInt32) (es : List (Bool × NalUnit)) : List Nalu :=
  es.map fun e => ⟨e.2.bytes, ts, e.1⟩

def AccessUnit.nalus (au : AccessUnit) : List Nalu :=
  received au.ts (markLast true (au.packings.flatMap Packing.units))

/-- What an RTP header carries that the receiver does not use. -/
structure Header where
  seq : UInt16
  ssrc : UInt32
  csrcs : List UInt32
  csrcs_le : csrcs.length ≤ 15
  /-- The profile and the words of the extension. -/
  ext : Option (UInt16 × List UInt32)
  ext_lt : ∀ e ∈ ext, e.2.length < 2 ^ 16

def words (ws : List UInt32) : Bytes := ws.flatMap fun w => beBytes 4 w.toNat

def Header.extBytes (h : Header) : Bytes :=
  match h.ext with
  | none => []
  | some (profile, ws) => beBytes 2 profile.toNat ++ beBytes 2 ws.length ++ words ws

/-- An RTP packet without padding. -/
def Header.wire (h : Header) (pt : UInt8) (k : Packet) : Bytes :=
  (0x80 ||| (if h.ext.isSome then 0x10 else 0) ||| UInt8.ofNat h.csrcs.length) ::
    ((if k.marker then 0x80 else 0) ||| pt) :: (beBytes 2 h.seq.toNat ++ beBytes 4 k.ts.toNat ++
      beBytes 4 h.ssrc.toNat ++ words h.csrcs ++ h.extBytes ++ k.payload)

/-- An RTP packet of the payload type, with any header. -/
def Carries (pt : UInt8) (k : Packet) (rtp : Bytes) : Prop := ∃ h : Header, rtp = h.wire pt k

/-! ## The header -/

theorem or_and_version (n : ℕ) (hn : n < 16) (x : Bool) :
    (0x80 ||| (if x then 0x10 else 0) ||| UInt8.ofNat n) >>> 6 = 2 ∧
      ((0x80 ||| (if x then 0x10 else 0) ||| UInt8.ofNat n) &&& 0x0f).toNat = n ∧
      ((0x80 ||| (if x then 0x10 else 0) ||| UInt8.ofNat n) &&& 0x10 ≠ 0 ↔ x = true) := by
  revert n x
  decide

theorem or_and_marker : ∀ pt : UInt8, pt < 128 → ∀ m : Bool,
    (((if m then 0x80 else 0) ||| pt) &&& 0x80 != 0) = m ∧
      ((if m then 0x80 else 0) ||| pt) &&& 0x7f = pt :=
  forall_byte (by decide +kernel)

/-- The two bytes of a size give it back. -/
theorem join_size {n : ℕ} (hn : n < 2 ^ 16) {hi lo : UInt8} (h : beBytes 2 n = [hi, lo]) :
    hi.toNat <<< 8 ||| lo.toNat = n := by
  rw [joinBe_two, ← h, beNat_beBytes]
  exact Nat.mod_eq_of_lt hn

theorem join_ts {ts : UInt32} {a b c d : UInt8} (h : beBytes 4 ts.toNat = [a, b, c, d]) :
    a.toUInt32 <<< 24 ||| b.toUInt32 <<< 16 ||| c.toUInt32 <<< 8 ||| d.toUInt32 = ts := by
  apply UInt32.toNat_inj.1
  rw [toNat_joinBe, ← h, beNat_beBytes]
  exact Nat.mod_eq_of_lt ts.toNat_lt

@[simp] theorem length_words (ws : List UInt32) : (words ws).length = 4 * ws.length := by
  induction ws with
  | nil => rfl
  | cons w ws ih =>
    rw [words, List.flatMap_cons, List.length_append, length_beBytes, List.length_cons,
      Nat.mul_succ, Nat.add_comm]
    exact congrArg (· + 4) ih

theorem skipExtension_extBytes (h : Header) (hext : h.ext.isSome) (p : Bytes) :
    skipExtension (h.extBytes ++ p) = some p := by
  obtain ⟨⟨profile, ws⟩, he⟩ := Option.isSome_iff_exists.1 hext
  have hlt : ws.length < 2 ^ 16 := h.ext_lt _ he
  obtain ⟨hi, lo, hlen⟩ : ∃ hi lo, beBytes 2 ws.length = [hi, lo] := ⟨_, _, rfl⟩
  obtain ⟨p0, p1, hprofile⟩ : ∃ p0 p1, beBytes 2 profile.toNat = [p0, p1] := ⟨_, _, rfl⟩
  rw [Header.extBytes, he]
  dsimp only
  rw [hprofile, hlen]
  simp only [List.cons_append, List.nil_append]
  rw [skipExtension, join_size hlt hlen, List.drop_left' (by rw [length_words, Nat.mul_comm])]

/-- **The payload of a packet is decoded with the packet's time and marker.** -/
theorem decodeRtpH264_wire {pt : UInt8} (hpt : pt < 128) (d : Depacketizer) (h : Header)
    (k : Packet) :
    decodeRtpH264 pt.toNat d (h.wire pt k) = decodePayload d k.ts k.marker k.payload := by
  obtain ⟨hversion, hcc, hx⟩ := or_and_version h.csrcs.length (Nat.lt_succ_of_le h.csrcs_le)
    h.ext.isSome
  obtain ⟨hm, hpt'⟩ := or_and_marker pt hpt k.marker
  have hdrop : (words h.csrcs ++ h.extBytes ++ k.payload).drop (4 * h.csrcs.length) =
      h.extBytes ++ k.payload := by
    rw [List.append_assoc, List.drop_left' (length_words _)]
  obtain ⟨s0, s1, hs⟩ : ∃ a b, beBytes 2 h.seq.toNat = [a, b] := ⟨_, _, rfl⟩
  obtain ⟨t0, t1, t2, t3, ht⟩ : ∃ a b c d, beBytes 4 k.ts.toNat = [a, b, c, d] :=
    ⟨_, _, _, _, rfl⟩
  obtain ⟨r0, r1, r2, r3, hr⟩ : ∃ a b c d, beBytes 4 h.ssrc.toNat = [a, b, c, d] :=
    ⟨_, _, _, _, rfl⟩
  simp only [Header.wire, hs, ht, hr, List.cons_append, List.nil_append, List.append_assoc]
  rw [decodeRtpH264]
  dsimp only
  rw [if_neg (fun hne => hne hversion), hpt', if_neg (fun hne => hne rfl), hcc, hm, join_ts ht,
    ← List.append_assoc, hdrop]
  by_cases hext : h.ext.isSome
  · rw [if_pos (hx.2 hext), skipExtension_extBytes h hext]
  · rw [if_neg (mt hx.1 hext), Header.extBytes, Option.not_isSome_iff_eq_none.1 hext]
    rfl

/-! ## The payloads -/

theorem decodePayload_unit (d : Depacketizer) (ts : UInt32) (m : Bool) (n : NalUnit) :
    decodePayload d ts m n.bytes = d.push [⟨n.bytes, ts, m⟩] :=
  if_pos n.type_range

theorem stapUnits_sized (ts : UInt32) (m : Bool) {ns : List NalUnit}
    (h : ∀ n ∈ ns, n.bytes.length ≤ 65535) :
    stapUnits ts m (ns.flatMap fun n => beBytes 2 n.bytes.length ++ n.bytes) =
      received ts (markLast m ns) := by
  induction ns with
  | nil =>
    rw [List.flatMap_nil, stapUnits.eq_def]
    rfl
  | cons n ns ih =>
    obtain ⟨hn, hns⟩ := List.forall_mem_cons.1 h
    obtain ⟨hi, lo, hsize⟩ : ∃ hi lo, beBytes 2 n.bytes.length = [hi, lo] := ⟨_, _, rfl⟩
    rw [List.flatMap_cons, hsize]
    simp only [List.cons_append, List.nil_append]
    have hpos : n.bytes.length ≠ 0 := Nat.succ_ne_zero _
    rw [stapUnits, join_size (Nat.lt_succ_of_le hn) hsize,
      if_neg (fun hbad => hbad.elim hpos fun hlt => by rw [List.length_append] at hlt; omega),
      List.take_left, List.drop_left, ih hns]
    cases ns with
    | nil => simp [markLast, received]
    | cons n' ns =>
      have hne : n.bytes.length ≠
          (n.bytes ++ (n' :: ns).flatMap fun n => beBytes 2 n.bytes.length ++ n.bytes).length := by
        rw [List.flatMap_cons, List.length_append, List.length_append, List.length_append,
          length_beBytes]
        omega
      rw [decide_eq_false hne, Bool.and_false]
      rfl

theorem decodePayload_stapA (d : Depacketizer) (ts : UInt32) (m : Bool) {ind : UInt8}
    (hind : ind &&& 0x1f = 24) (p : Bytes) :
    decodePayload d ts m (ind :: p) = d.push (stapUnits ts m p) := by
  unfold decodePayload
  dsimp only
  rw [hind]
  rfl

theorem fragment_bits : ∀ c : UInt8, (c &&& 0xe0 ||| 28) &&& 0x1f = 28 ∧
    ((c &&& 0xe0 ||| 28) &&& 0xe0 ||| ((0x80 ||| c &&& 0x1f) &&& 0x1f) &&& 0x1f) = c ∧
    (0x80 ||| c &&& 0x1f) &&& 0x80 ≠ 0 ∧ (0x80 ||| c &&& 0x1f) &&& 0x40 = 0 ∧
    (0 ||| c &&& 0x1f) &&& 0x80 = 0 ∧ (0 ||| c &&& 0x1f) &&& 0x40 = 0 ∧
    (0x40 ||| c &&& 0x1f) &&& 0x80 = 0 ∧ (0x40 ||| c &&& 0x1f) &&& 0x40 ≠ 0 :=
  forall_byte (by decide +kernel)

theorem decodePayload_fragment (d : Depacketizer) (ts : UInt32) (m : Bool) (n : NalUnit)
    (bit : UInt8) (frag : Bytes) :
    decodePayload d ts m (Packing.fragment n bit frag) =
      fuFragment d ts m (n.header &&& 0xe0 ||| 28) (bit ||| n.header &&& 0x1f) frag := by
  unfold Packing.fragment decodePayload
  dsimp only
  rw [(fragment_bits n.header).1]
  rfl

/-- The first fragment starts the unit anew. -/
theorem decodePayload_start (d : Depacketizer) (ts : UInt32) (m : Bool) (n : NalUnit)
    (frag : Bytes) :
    decodePayload d ts m (Packing.fragment n 0x80 frag) =
      { d with fuBuf := n.header :: frag, fuTs := ts, fuAuEnd := m } := by
  obtain ⟨-, hheader, hstart, hend, -⟩ := fragment_bits n.header
  rw [decodePayload_fragment, fuFragment, fuCollect, if_pos hstart, hheader]
  exact if_neg fun h => h hend

theorem decodePayload_mid (d : Depacketizer) (ts : UInt32) (n : NalUnit) (frag : Bytes)
    (hd : d.fuBuf ≠ []) :
    decodePayload d ts false (Packing.fragment n 0 frag) =
      { d with fuBuf := d.fuBuf ++ frag } := by
  obtain ⟨-, -, -, -, hstart, hend, -⟩ := fragment_bits n.header
  rw [decodePayload_fragment, fuFragment, fuCollect, if_neg (fun h => h hstart), if_pos hd]
  exact if_neg fun h => h hend

theorem decodePayload_end (d : Depacketizer) (ts : UInt32) (m : Bool) (n : NalUnit)
    (frag : Bytes) (hd : d.fuBuf ≠ []) :
    (decodePayload d ts m (Packing.fragment n 0x40 frag)).naluQueue =
      d.naluQueue ++ [⟨d.fuBuf ++ frag, d.fuTs, if m then true else d.fuAuEnd⟩] := by
  obtain ⟨-, -, -, -, -, -, hstart, hend⟩ := fragment_bits n.header
  rw [decodePayload_fragment, fuFragment, fuCollect, if_neg (fun h => h hstart), if_pos hd]
  dsimp only
  rw [if_pos hend]

/-! ## Lists with a last element -/

section
variable {α β : Type*}

theorem markLast_false (l : List α) : markLast false l = l.map (false, ·) := by
  fun_induction markLast false l with
  | case1 => rfl
  | case2 a => rfl
  | case3 a b l ih => rw [ih]; rfl

theorem markLast_append (m : Bool) (l : List α) {l' : List α} (h : l' ≠ []) :
    markLast m (l ++ l') = markLast false l ++ markLast m l' := by
  induction l with
  | nil => rfl
  | cons a l ih =>
    rw [markLast_false, List.map_cons, List.cons_append, List.cons_append, ← markLast_false, ← ih]
    cases hl : l ++ l' with
    | nil => exact absurd (List.append_eq_nil_iff.1 hl).2 h
    | cons b t => rfl

end

/-! ## A run -/

/-- The payloads of one time, in order. -/
def decodeAll (ts : UInt32) (d : Depacketizer) (es : List (Bool × Bytes)) : Depacketizer :=
  es.foldl (fun d e => decodePayload d ts e.1 e.2) d

theorem decodeAll_cons (ts : UInt32) (d : Depacketizer) (e : Bool × Bytes)
    (es : List (Bool × Bytes)) :
    decodeAll ts d (e :: es) = decodeAll ts (decodePayload d ts e.1 e.2) es := rfl

theorem decodeAll_append (ts : UInt32) (d : Depacketizer) (es es' : List (Bool × Bytes)) :
    decodeAll ts d (es ++ es') = decodeAll ts (decodeAll ts d es) es' :=
  List.foldl_append

theorem decodeAll_mids (ts : UInt32) (n : NalUnit) (mids : List Bytes) (d : Depacketizer)
    (hd : d.fuBuf ≠ []) :
    decodeAll ts d (markLast false (mids.map (Packing.fragment n 0))) =
      { d with fuBuf := d.fuBuf ++ mids.flatten } := by
  rw [markLast_false]
  induction mids generalizing d with
  | nil =>
    rw [List.flatten_nil, List.append_nil]
    rfl
  | cons frag mids ih =>
    rw [List.map_cons, List.map_cons, decodeAll, List.foldl_cons, decodePayload_mid d ts n frag hd]
    exact (ih _ (by simp [hd])).trans (by simp)

/-- **The packets of one packing give its units.** -/
theorem decodeAll_packing (ts : UInt32) (m : Bool) (k : Packing) (d : Depacketizer) :
    (decodeAll ts d (markLast m k.payloads)).naluQueue =
      d.naluQueue ++ received ts (markLast m k.units) := by
  cases k with
  | single n =>
    exact congrArg Depacketizer.naluQueue (decodePayload_unit d ts m n)
  | stapA ind first more hind hsize =>
    have h := decodePayload_stapA d ts m hind
      ((first :: more).flatMap fun n => beBytes 2 n.bytes.length ++ n.bytes)
    rw [stapUnits_sized ts m hsize] at h
    exact congrArg Depacketizer.naluQueue h
  | fuA n first mids last hbody =>
    have hjoined : decodeAll ts d (markLast false
        (Packing.fragment n 0x80 first :: mids.map (Packing.fragment n 0))) =
        { d with fuBuf := n.header :: first ++ mids.flatten, fuTs := ts, fuAuEnd := false } := by
      rw [markLast_false, List.map_cons, ← markLast_false, decodeAll_cons, decodePayload_start]
      exact decodeAll_mids ts n mids _ (List.cons_ne_nil _ _)
    rw [Packing.payloads, ← List.cons_append, markLast_append m _ (List.cons_ne_nil _ _),
      decodeAll_append, hjoined]
    refine (decodePayload_end _ ts m n last (List.cons_ne_nil _ _)).trans ?_
    have hunit : n.header :: first ++ mids.flatten ++ last = n.bytes := by
      rw [NalUnit.bytes, hbody, List.cons_append, List.cons_append, List.append_assoc]
    have hend : (if m = true then true else false) = m := by
      cases m <;> rfl
    dsimp only
    rw [hunit, hend]
    rfl

theorem Packing.payloads_ne_nil (k : Packing) : k.payloads ≠ [] := by
  cases k with
  | single n => exact List.cons_ne_nil _ _
  | stapA ind first more hind hsize => exact List.cons_ne_nil _ _
  | fuA n first mids last hbody => exact List.cons_ne_nil _ _

theorem Packing.units_ne_nil (k : Packing) : k.units ≠ [] := by
  cases k with
  | single n => exact List.cons_ne_nil _ _
  | stapA ind first more hind hsize => exact List.cons_ne_nil _ _
  | fuA n first mids last hbody => exact List.cons_ne_nil _ _

theorem received_append (ts : UInt32) (es es' : List (Bool × NalUnit)) :
    received ts (es ++ es') = received ts es ++ received ts es' :=
  List.map_append

/-- The packings of an access unit: the marker is with the last one. -/
theorem decodeAll_packings (ts : UInt32) (ks : List Packing) (d : Depacketizer) :
    (decodeAll ts d (markLast true (ks.flatMap Packing.payloads))).naluQueue =
      d.naluQueue ++ received ts (markLast true (ks.flatMap Packing.units)) := by
  induction ks generalizing d with
  | nil => exact (List.append_nil _).symm
  | cons k ks ih =>
    rw [List.flatMap_cons, List.flatMap_cons]
    cases ks with
    | nil =>
      rw [List.flatMap_nil, List.flatMap_nil, List.append_nil, List.append_nil]
      exact decodeAll_packing ts true k d
    | cons k' ks =>
      have hpayloads : (k' :: ks).flatMap Packing.payloads ≠ [] := fun h =>
        k'.payloads_ne_nil (List.append_eq_nil_iff.1 h).1
      have hunits : (k' :: ks).flatMap Packing.units ≠ [] := fun h =>
        k'.units_ne_nil (List.append_eq_nil_iff.1 h).1
      rw [markLast_append true _ hpayloads, markLast_append true _ hunits, decodeAll_append, ih,
        decodeAll_packing, received_append, List.append_assoc]

/-- The packets of an access unit, from their wire forms. -/
theorem foldl_packets {pt : UInt8} (hpt : pt < 128) {ks : List Packet} {rtps : List Bytes}
    (h : List.Forall₂ (Carries pt) ks rtps) (d : Depacketizer) :
    rtps.foldl (decodeRtpH264 pt.toNat) d =
      ks.foldl (fun d k => decodePayload d k.ts k.marker k.payload) d := by
  induction h generalizing d with
  | nil => rfl
  | cons hk _ ih =>
    obtain ⟨header, rfl⟩ := hk
    rw [List.foldl_cons, List.foldl_cons, decodeRtpH264_wire hpt, ih]

theorem foldl_accessUnit (au : AccessUnit) (d : Depacketizer) :
    (au.packets.foldl (fun d k => decodePayload d k.ts k.marker k.payload) d).naluQueue =
      d.naluQueue ++ au.nalus := by
  rw [AccessUnit.packets, List.foldl_map]
  exact decodeAll_packings au.ts au.packings d

/-- **The queue receives the NAL units that were sent**, in order, each with the time of its access
unit, and `au_end` on the last unit of each access unit alone. -/
theorem queue_of_sent {pt : UInt8} (hpt : pt < 128) (aus : List AccessUnit) {rtps : List Bytes}
    (h : List.Forall₂ (Carries pt) (aus.flatMap AccessUnit.packets) rtps) (d : Depacketizer) :
    (rtps.foldl (decodeRtpH264 pt.toNat) d).naluQueue =
      d.naluQueue ++ aus.flatMap AccessUnit.nalus := by
  rw [foldl_packets hpt h]
  clear h
  induction aus generalizing d with
  | nil => exact (List.append_nil _).symm
  | cons au aus ih =>
    rw [List.flatMap_cons, List.flatMap_cons, List.foldl_append, ih, foldl_accessUnit,
      List.append_assoc]

/-- A header without contributing sources. -/
def bareHeader (seq : UInt16) (ext : Option (UInt16 × List UInt32))
    (hext : ∀ e ∈ ext, e.2.length < 2 ^ 16) : Header :=
  ⟨seq, 7, [], Nat.zero_le _, ext, hext⟩

/-- An access unit of a parameter set in an aggregate, behind a header extension, and a slice in
two fragments. -/
theorem queue_of_sent_slice :
    ([[0x90, 96, 0, 1, 0, 0, 0, 9, 0, 0, 0, 7, 0xbe, 0xde, 0, 1, 1, 2, 3, 4,
          0x78, 0, 2, 0x67, 0x42],
        [0x80, 96, 0, 2, 0, 0, 0, 9, 0, 0, 0, 7, 0x7c, 0x85, 0xaa],
        [0x80, 0xe0, 0, 3, 0, 0, 0, 9, 0, 0, 0, 7, 0x7c, 0x45, 0xbb]].foldl
      (decodeRtpH264 96) Depacketizer.initial).naluQueue =
      [⟨[0x67, 0x42], 9, false⟩, ⟨[0x65, 0xaa, 0xbb], 9, true⟩] := by
  have hpt : (96 : UInt8) < 128 := by decide
  refine queue_of_sent hpt
    [⟨9, [.stapA 0x78 ⟨0x67, [0x42], by decide⟩ [] (by decide) (by decide),
      .fuA ⟨0x65, [0xaa, 0xbb], by decide⟩ [0xaa] [] [0xbb] rfl]⟩] ?_ Depacketizer.initial
  refine .cons ⟨bareHeader 1 (some (0xbede, [0x01020304])) (by decide), by decide⟩
    (.cons ⟨bareHeader 2 none (by decide), by decide⟩
      (.cons ⟨bareHeader 3 none (by decide), by decide⟩ .nil))

end BambooNet.Camera.RtpH264
