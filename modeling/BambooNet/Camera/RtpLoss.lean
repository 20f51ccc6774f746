import BambooNet.Camera.RtpH264

/-!
# Packets that get lost

Some packets of a stream arrive, in order. The receiver does not look at sequence numbers, and it
takes what the P bit announces for data.

**Theorem (`queue_sound`).** Every unit in the queue was sent, and all its packets arrived, when the
packets that arrived have this in common: no padding is behind a single unit, none that reads as a
unit is behind an aggregate, and where the last fragment of a unit comes behind the first of one,
these are of one unit whose fragments have all arrived, without padding.

The invariant is that the buffer holds the fragments that arrived since the last first one
(`Holds`).
-/

namespace BambooNet.Camera.RtpH264

/-! ## Padding -/

/-- What the P bit announces: bytes of which the last is their number; none without the bit. -/
def IsPadding (pad : Bytes) : Prop :=
  pad = [] ∨ pad.getLast? = some (UInt8.ofNat pad.length) ∧ pad.length < 256

def padBit (pad : Bytes) : UInt8 := if pad = [] then 0 else 0x20

def Header.wirePadded (h : Header) (pt : UInt8) (k : Packet) (pad : Bytes) : Bytes :=
  (h.wire pt k).modifyHead (· ||| padBit pad) ++ pad

theorem padBit_ignored : ∀ b0 : UInt8, (b0 ||| 0x20) >>> 6 = b0 >>> 6 ∧
    (b0 ||| 0x20) &&& 0x0f = b0 &&& 0x0f ∧ (b0 ||| 0x20) &&& 0x10 = b0 &&& 0x10 :=
  forall_byte (by decide +kernel)

theorem decodeRtpH264_padBit (rtpPt : ℤ) (d : Depacketizer) (b0 : UInt8) (rest : Bytes) :
    decodeRtpH264 rtpPt d ((b0 ||| 0x20) :: rest) = decodeRtpH264 rtpPt d (b0 :: rest) := by
  obtain ⟨hversion, hcc, hx⟩ := padBit_ignored b0
  rcases rest with _ | ⟨b1, _ | ⟨s0, _ | ⟨s1, _ | ⟨t0, _ | ⟨t1, _ | ⟨t2, _ | ⟨t3, _ | ⟨r0, _ |
    ⟨r1, _ | ⟨r2, _ | ⟨r3, rest⟩⟩⟩⟩⟩⟩⟩⟩⟩⟩⟩ <;> try rfl
  unfold decodeRtpH264
  dsimp only
  rw [hversion, hcc, hx]

theorem wire_append (h : Header) (pt : UInt8) (k : Packet) (pad : Bytes) :
    h.wire pt k ++ pad = h.wire pt ⟨k.ts, k.marker, k.payload ++ pad⟩ := by
  simp only [Header.wire, List.cons_append, List.append_assoc]

/-- Padding is decoded as the end of the payload. -/
theorem decodeRtpH264_wirePadded {pt : UInt8} (hpt : pt < 128) (d : Depacketizer) (h : Header)
    (k : Packet) (pad : Bytes) :
    decodeRtpH264 pt.toNat d (h.wirePadded pt k pad) =
      decodePayload d k.ts k.marker (k.payload ++ pad) := by
  obtain ⟨b0, rest, hlong⟩ : ∃ b0 rest, h.wire pt k = b0 :: rest := ⟨_, _, rfl⟩
  have hwire := decodeRtpH264_wire hpt d h ⟨k.ts, k.marker, k.payload ++ pad⟩
  rw [← wire_append, hlong, List.cons_append] at hwire
  rw [Header.wirePadded, hlong, List.modifyHead_cons, List.cons_append, ← hwire, padBit]
  split
  · rw [UInt8.or_zero]
  · exact decodeRtpH264_padBit _ _ _ _

/-! ## What is sent -/

/-- One of the packets of a packing, the one at `part`. -/
structure Part where
  /-- Where the packing is in the stream. -/
  unit : ℕ
  part : ℕ
  packing : Packing
  ts : UInt32
  marker : Bool
  header : Header
  padding : Bytes

namespace Part

def slot (p : Part) : ℕ × ℕ := (p.unit, p.part)

def payload (p : Part) : Bytes := p.packing.payloads.getD p.part []

def rtp (pt : UInt8) (p : Part) : Bytes :=
  p.header.wirePadded pt ⟨p.ts, p.marker, p.payload⟩ p.padding

end Part

/-- The places of the packets, in order. -/
def slots (ks : List Packing) : List (ℕ × ℕ) :=
  ks.zipIdx.flatMap fun e => (List.range e.1.payloads.length).map fun j => (e.2, j)

/-- `ps` are the packets of `ks`, in order, with any times, markers, headers and padding. -/
structure Sends (ks : List Packing) (ps : List Part) : Prop where
  slots : ps.map Part.slot = slots ks
  packing : ∀ p ∈ ps, ks[p.unit]? = some p.packing
  padding : ∀ p ∈ ps, IsPadding p.padding

/-- The fragments of a unit, if it is sent in fragments. -/
def Packing.fragments : Packing → List Bytes
  | .fuA _ first mids last _ => first :: (mids ++ [last])
  | _ => []

def Part.isFirst (p : Part) : Prop := p.packing.fragments ≠ [] ∧ p.part = 0

def Part.isLast (p : Part) : Prop :=
  p.packing.fragments ≠ [] ∧ p.part + 1 = p.packing.fragments.length

/-- What a list of packets that arrive has to keep to. -/
structure Clean (ds : List Part) : Prop where
  single : ∀ p ∈ ds, ∀ n, p.packing = .single n → p.padding = []
  stapA : ∀ p ∈ ds, ∀ ind first more hind hsize, p.packing = .stapA ind first more hind hsize →
    stapUnits p.ts p.marker p.padding = []
  /-- The last fragment behind a first one, with only others in between. -/
  whole : ∀ before s mid e after, ds = before ++ s :: (mid ++ e :: after) → s.isFirst →
    e.isLast → (∀ x ∈ mid, ¬ x.isFirst ∧ ¬ x.isLast) →
      s.unit = e.unit ∧ (∀ j < s.packing.payloads.length, (s.unit, j) ∈ ds.map Part.slot) ∧
        ∀ x ∈ s :: (mid ++ [e]), x.padding = []

/-- A unit that was sent, in packets that all arrived. -/
def Arrived (ks : List Packing) (ds : List Part) (data : Bytes) : Prop :=
  ∃ i k n, ks[i]? = some k ∧ n ∈ k.units ∧ data = n.bytes ∧
    ∀ j < k.payloads.length, (i, j) ∈ ds.map Part.slot

/-- Earlier in the stream. -/
def Earlier (a b : ℕ × ℕ) : Prop := a.1 < b.1 ∨ a.1 = b.1 ∧ a.2 < b.2

theorem pairwise_slots (ks : List Packing) : (slots ks).Pairwise Earlier := by
  rw [slots, List.pairwise_flatMap]
  constructor
  · intro e _
    rw [List.pairwise_map]
    exact List.pairwise_lt_range.imp fun h => .inr ⟨rfl, h⟩
  · have hidx : ks.zipIdx.Pairwise fun e e' => e.2 < e'.2 := by
      rw [← List.pairwise_map (f := Prod.snd) (R := (· < ·)), List.zipIdx_map_snd]
      exact List.pairwise_lt_range'
    refine hidx.imp ?_
    intro e e' hlt x hx y hy
    obtain ⟨_, _, rfl⟩ := List.mem_map.1 hx
    obtain ⟨_, _, rfl⟩ := List.mem_map.1 hy
    exact .inl hlt

theorem mem_slots {ks : List Packing} {i j : ℕ} :
    (i, j) ∈ slots ks ↔ ∃ k, ks[i]? = some k ∧ j < k.payloads.length := by
  rw [slots, List.mem_flatMap]
  constructor
  · rintro ⟨⟨k, i'⟩, he, hj⟩
    obtain ⟨j', hj', heq⟩ := List.mem_map.1 hj
    obtain ⟨rfl, rfl⟩ := Prod.mk.inj heq
    exact ⟨k, List.mem_zipIdx_iff_getElem?.1 he, List.mem_range.1 hj'⟩
  · rintro ⟨k, hk, hj⟩
    exact ⟨(k, i), List.mem_zipIdx_iff_getElem?.2 hk,
      List.mem_map.2 ⟨j, List.mem_range.2 hj, rfl⟩⟩

/-! ## One packet -/

/-- What a fragment adds to the buffer. -/
def Part.data (p : Part) : Bytes :=
  if p.packing.fragments = [] then [] else p.packing.fragments.getD p.part [] ++ p.padding

def Part.decode (d : Depacketizer) (p : Part) : Depacketizer :=
  decodePayload d p.ts p.marker (p.payload ++ p.padding)

theorem length_fragments {k : Packing} (h : k.fragments ≠ []) :
    k.fragments.length = k.payloads.length := by
  cases k with
  | single n => exact absurd rfl h
  | stapA ind first more hind hsize => exact absurd rfl h
  | fuA n first mids last hbody =>
    simp only [Packing.fragments, Packing.payloads, List.length_cons, List.length_append,
      List.length_map, List.length_nil]

/-- A unit that is sent in fragments is its header with the fragments behind it. -/
theorem units_of_fragments {k : Packing} (h : k.fragments ≠ []) :
    ∃ n, k.units = [n] ∧ n.bytes = n.header :: k.fragments.flatten := by
  cases k with
  | single n => exact absurd rfl h
  | stapA ind first more hind hsize => exact absurd rfl h
  | fuA n first mids last hbody =>
    refine ⟨n, rfl, ?_⟩
    rw [NalUnit.bytes, hbody, Packing.fragments, List.flatten_cons, List.flatten_append,
      List.flatten_singleton]

/-- The payload of a fragment, with its start or end bit. -/
theorem payload_fragment {p : Part} (h : p.packing.fragments ≠ [])
    (hpart : p.part < p.packing.payloads.length) :
    ∃ n bit, p.packing.units = [n] ∧
      p.payload = Packing.fragment n bit (p.packing.fragments.getD p.part []) ∧
        (p.isFirst ∧ bit = 0x80 ∨ p.isLast ∧ ¬ p.isFirst ∧ bit = 0x40 ∨
          ¬ p.isFirst ∧ ¬ p.isLast ∧ bit = 0) := by
  have hlen := length_fragments h
  rw [Part.isFirst, Part.isLast, Part.payload, hlen]
  cases hk : p.packing with
  | single n => exact absurd (by rw [hk]; rfl) h
  | stapA ind first more hind hsize => exact absurd (by rw [hk]; rfl) h
  | fuA n first mids last hbody =>
    have hne : (Packing.fuA n first mids last hbody).fragments ≠ [] := List.cons_ne_nil _ _
    rw [hk] at hpart
    have hcount : (Packing.fuA n first mids last hbody).payloads.length = mids.length + 2 := by
      rw [Packing.payloads, List.length_cons, List.length_append, List.length_map,
        List.length_singleton]
    rw [hcount] at hpart ⊢
    cases hj : p.part with
    | zero => exact ⟨n, 0x80, rfl, rfl, .inl ⟨⟨hne, rfl⟩, rfl⟩⟩
    | succ j =>
      rw [hj] at hpart
      by_cases hlast : j = mids.length
      · subst hlast
        refine ⟨n, 0x40, rfl, ?_, .inr (.inl ⟨⟨hne, rfl⟩, fun h => ?_, rfl⟩)⟩
        · simp [Packing.payloads, Packing.fragments]
        · exact absurd h.2 (Nat.succ_ne_zero _)
      · have hmid : j < mids.length := by omega
        refine ⟨n, 0, rfl, ?_, .inr (.inr ⟨fun h => ?_, fun h => ?_, rfl⟩)⟩
        · simp [Packing.payloads, Packing.fragments, List.getElem?_append_left, hmid]
        · exact absurd h.2 (Nat.succ_ne_zero _)
        · exact hlast (by omega)

theorem decodePayload_first (d : Depacketizer) (ts : UInt32) (m : Bool) (n : NalUnit)
    (frag : Bytes) :
    (decodePayload d ts m (Packing.fragment n 0x80 frag)).naluQueue = d.naluQueue ∧
      (decodePayload d ts m (Packing.fragment n 0x80 frag)).fuBuf = n.header :: frag := by
  rw [decodePayload_start]
  exact ⟨rfl, rfl⟩

/-- A fragment that is not the first one, where there is nothing to go on with. -/
theorem decodePayload_dropped (d : Depacketizer) (ts : UInt32) (m : Bool) (n : NalUnit)
    {bit : UInt8} (hbit : (bit ||| n.header &&& 0x1f) &&& 0x80 = 0) (frag : Bytes)
    (hd : d.fuBuf = []) : decodePayload d ts m (Packing.fragment n bit frag) = d := by
  rw [decodePayload_fragment, fuFragment, fuCollect, if_neg (fun h => h hbit),
    if_neg (fun h => h hd)]

theorem decodePayload_more (d : Depacketizer) (ts : UInt32) (m : Bool) (n : NalUnit)
    (frag : Bytes) (hd : d.fuBuf ≠ []) :
    (decodePayload d ts m (Packing.fragment n 0 frag)).naluQueue = d.naluQueue ∧
      (decodePayload d ts m (Packing.fragment n 0 frag)).fuBuf = d.fuBuf ++ frag := by
  obtain ⟨-, -, -, -, hstart, hend, -⟩ := fragment_bits n.header
  rw [decodePayload_fragment, fuFragment, fuCollect, if_neg (fun h => h hstart), if_pos hd]
  dsimp only
  rw [if_neg (fun h => h hend)]
  exact ⟨rfl, rfl⟩

theorem decodePayload_last (d : Depacketizer) (ts : UInt32) (m : Bool) (n : NalUnit)
    (frag : Bytes) (hd : d.fuBuf ≠ []) :
    (∃ q, (decodePayload d ts m (Packing.fragment n 0x40 frag)).naluQueue = d.naluQueue ++ [q] ∧
      q.data = d.fuBuf ++ frag) ∧
        (decodePayload d ts m (Packing.fragment n 0x40 frag)).fuBuf = [] := by
  obtain ⟨-, -, -, -, -, -, hstart, hend⟩ := fragment_bits n.header
  rw [decodePayload_fragment, fuFragment, fuCollect, if_neg (fun h => h hstart), if_pos hd]
  dsimp only
  rw [if_pos hend]
  exact ⟨⟨_, rfl, rfl⟩, rfl⟩

theorem stapUnits_padded (ts : UInt32) (m : Bool) {ns : List NalUnit}
    (h : ∀ n ∈ ns, n.bytes.length ≤ 65535) (pad : Bytes) :
    (stapUnits ts m ((ns.flatMap fun n => beBytes 2 n.bytes.length ++ n.bytes) ++ pad)).map
        Nalu.data = ns.map NalUnit.bytes ++ (stapUnits ts m pad).map Nalu.data := by
  induction ns with
  | nil => rfl
  | cons n ns ih =>
    obtain ⟨hn, hns⟩ := List.forall_mem_cons.1 h
    obtain ⟨hi, lo, hsize⟩ : ∃ hi lo, beBytes 2 n.bytes.length = [hi, lo] := ⟨_, _, rfl⟩
    have hpos : n.bytes.length ≠ 0 := Nat.succ_ne_zero _
    rw [List.flatMap_cons, hsize]
    simp only [List.cons_append, List.nil_append, List.append_assoc]
    rw [stapUnits, join_size (Nat.lt_succ_of_le hn) hsize,
      if_neg (fun hbad => hbad.elim hpos fun hlt => by rw [List.length_append] at hlt; omega),
      List.take_left, List.drop_left, List.map_cons, ih hns]
    rfl

/-- A packet that is no fragment leaves the buffer alone, and brings its units. -/
theorem decode_whole {p : Part} (h : p.packing.fragments = [])
    (hpay : p.packing.payloads = [p.payload])
    (hsingle : ∀ n, p.packing = .single n → p.padding = [])
    (hstapA : ∀ ind first more hind hsize, p.packing = .stapA ind first more hind hsize →
      stapUnits p.ts p.marker p.padding = []) (d : Depacketizer) :
    (p.decode d).fuBuf = d.fuBuf ∧
      (p.decode d).naluQueue.map Nalu.data =
        d.naluQueue.map Nalu.data ++ p.packing.units.map NalUnit.bytes := by
  cases hk : p.packing with
  | fuA n first mids last hbody =>
    rw [hk] at h
    cases h
  | single n =>
    rw [hk] at hpay
    have hpayload : p.payload = n.bytes := (List.cons.inj hpay).1.symm
    rw [Part.decode, hsingle n hk, List.append_nil, hpayload, decodePayload_unit]
    exact ⟨rfl, List.map_append⟩
  | stapA ind first more hind hsize =>
    rw [hk] at hpay
    have hpayload : p.payload =
        ind :: (first :: more).flatMap fun n => beBytes 2 n.bytes.length ++ n.bytes :=
      (List.cons.inj hpay).1.symm
    have hunits := stapUnits_padded p.ts p.marker hsize p.padding
    rw [hstapA ind first more hind hsize hk, List.map_nil, List.append_nil] at hunits
    rw [Part.decode, hpayload, List.cons_append, decodePayload_stapA d _ _ hind]
    refine ⟨rfl, ?_⟩
    rw [Depacketizer.push, List.map_append, hunits]
    rfl

/-! ## The fragments of one unit -/

theorem eq_of_pairwise {l l' : List (ℕ × ℕ)} (hl : l.Pairwise Earlier) (hl' : l'.Pairwise Earlier)
    (h : ∀ x, x ∈ l ↔ x ∈ l') : l = l' := by
  have hirrefl : ∀ a b : ℕ × ℕ, Earlier a b → a ≠ b := by
    rintro a b (hlt | ⟨-, hlt⟩) rfl
    · exact lt_irrefl _ hlt
    · exact lt_irrefl _ hlt
  have hperm : l.Perm l' :=
    (List.perm_ext_iff_of_nodup (hl.imp (hirrefl _ _)) (hl'.imp (hirrefl _ _))).2 h
  refine hperm.eq_of_pairwise ?_ hl hl'
  rintro a b - - hab hba
  rcases hab with hab | ⟨heq, hab⟩
  · rcases hba with hba | ⟨heq, -⟩
    · exact absurd hab (lt_asymm hba)
    · exact absurd heq hab.ne'
  · rcases hba with hba | ⟨-, hba⟩
    · exact absurd heq hba.ne'
    · exact absurd hab (lt_asymm hba)

/-- From the first place of a unit to its last there are just its own. -/
theorem span_slots {l before span after : List (ℕ × ℕ)} {i n : ℕ} (hl : l.Pairwise Earlier)
    (hcut : l = before ++ (span ++ after)) (hfirst : span.head? = some (i, 0))
    (hlast : span.getLast? = some (i, n)) (hall : ∀ j ≤ n, (i, j) ∈ l) :
    span = (List.range (n + 1)).map fun j => (i, j) := by
  subst hcut
  obtain ⟨-, htail, hbefore⟩ := List.pairwise_append.1 hl
  obtain ⟨hspan, -, hafter⟩ := List.pairwise_append.1 htail
  have hrange : ((List.range (n + 1)).map fun j => (i, j)).Pairwise Earlier := by
    rw [List.pairwise_map]
    exact List.pairwise_lt_range.imp fun h => .inr ⟨rfl, h⟩
  obtain ⟨rest, hhead⟩ := List.head?_eq_some_iff.1 hfirst
  obtain ⟨init, htip⟩ := List.getLast?_eq_some_iff.1 hlast
  have hfirstMem : (i, 0) ∈ span := List.mem_of_mem_head? hfirst
  have hlastMem : (i, n) ∈ span := List.mem_of_getLast? hlast
  refine eq_of_pairwise hspan hrange fun x => ?_
  constructor
  · intro hx
    have hlow : x = (i, 0) ∨ Earlier (i, 0) x := by
      rw [hhead] at hx hspan
      rcases List.mem_cons.1 hx with h | h
      · exact .inl h
      · exact .inr ((List.pairwise_cons.1 hspan).1 x h)
    have hhigh : x = (i, n) ∨ Earlier x (i, n) := by
      rw [htip] at hx hspan
      rcases List.mem_append.1 hx with h | h
      · exact .inr ((List.pairwise_append.1 hspan).2.2 x h _ List.mem_cons_self)
      · exact .inl (List.mem_singleton.1 h)
    obtain ⟨u, j⟩ := x
    simp only [Earlier, Prod.mk.injEq] at hlow hhigh
    refine List.mem_map.2 ⟨j, List.mem_range.2 (by omega), ?_⟩
    rw [(by omega : i = u)]
  · intro hx
    obtain ⟨j, hj, rfl⟩ := List.mem_map.1 hx
    have hj := List.mem_range.1 hj
    rcases List.mem_append.1 (hall j (by omega)) with hmem | hmem
    · rcases hbefore _ hmem _ (List.mem_append_left _ hfirstMem) with h | ⟨-, h⟩
      · exact absurd h (lt_irrefl _)
      · exact absurd h (Nat.not_lt_zero _)
    · rcases List.mem_append.1 hmem with hmem | hmem
      · exact hmem
      · rcases hafter _ hlastMem _ hmem with h | ⟨-, h⟩
        · exact absurd h (lt_irrefl _)
        · exact absurd h (by omega)

/-! ## A run -/

variable {ks : List Packing} {ps ds done rest : List Part} {d : Depacketizer} {p : Part}

theorem Sends.part_lt (h : Sends ks ps) (hp : p ∈ ps) :
    p.part < p.packing.payloads.length := by
  have hslot : (p.unit, p.part) ∈ RtpH264.slots ks := by
    rw [← h.slots]
    exact List.mem_map_of_mem hp
  obtain ⟨k, hk, hlt⟩ := mem_slots.1 hslot
  rw [h.packing p hp] at hk
  obtain rfl := Option.some.inj hk
  exact hlt

/-- The receiver after the packets `done` of those that arrive, `ds`. -/
structure Holds (ks : List Packing) (ds done : List Part) (d : Depacketizer) : Prop where
  queue : ∀ q ∈ d.naluQueue, Arrived ks ds q.data
  buf : d.fuBuf ≠ [] → ∃ before s mid n, done = before ++ s :: mid ∧ s.isFirst ∧
    (∀ x ∈ mid, ¬ x.isFirst ∧ ¬ x.isLast) ∧ s.packing.units = [n] ∧
      d.fuBuf = n.header :: (s :: mid).flatMap Part.data

theorem data_of_fragments (h : p.packing.fragments ≠ []) :
    p.data = p.packing.fragments.getD p.part [] ++ p.padding := if_neg h

theorem data_of_whole (h : p.packing.fragments = []) : p.data = [] := if_pos h

/-- A packet that no unit starts or ends with goes on with what the buffer holds. -/
theorem Holds.more (h : Holds ks ds done d) {d' : Depacketizer} (hp : ¬ p.isFirst ∧ ¬ p.isLast)
    (hqueue : ∀ q ∈ d'.naluQueue, Arrived ks ds q.data)
    (hbuf : d'.fuBuf = if d.fuBuf = [] then [] else d.fuBuf ++ p.data) :
    Holds ks ds (done ++ [p]) d' := by
  refine ⟨hqueue, fun hne => ?_⟩
  by_cases hd : d.fuBuf = []
  · rw [hbuf, if_pos hd] at hne
    exact absurd rfl hne
  · obtain ⟨before, s, mid, n, hdone, hs, hmid, hunit, hheld⟩ := h.buf hd
    refine ⟨before, s, mid ++ [p], n, ?_, hs, ?_, hunit, ?_⟩
    · rw [hdone, List.append_assoc, List.cons_append]
    · intro x hx
      rcases List.mem_append.1 hx with hx | hx
      · exact hmid x hx
      · rw [List.mem_singleton.1 hx]
        exact hp
    · rw [hbuf, if_neg hd, hheld, List.cons_append, ← List.flatMap_singleton Part.data p,
        ← List.flatMap_append, List.cons_append]

/-- What is sent whole has arrived with its packet. -/
theorem arrived_of_whole (hsends : Sends ks ps) (hds : ds.Sublist ps) (hp : p ∈ ds)
    (hpay : p.packing.payloads = [p.payload]) {n : NalUnit} (hn : n ∈ p.packing.units) :
    Arrived ks ds n.bytes := by
  have hlt := hsends.part_lt (hds.subset hp)
  rw [hpay, List.length_singleton] at hlt
  refine ⟨p.unit, p.packing, n, hsends.packing p (hds.subset hp), hn, rfl, fun j hj => ?_⟩
  rw [hpay, List.length_singleton] at hj
  have hslot : p.slot = (p.unit, j) := by rw [Part.slot, (by omega : p.part = j)]
  rw [← hslot]
  exact List.mem_map_of_mem hp

theorem append_cons_eq {α : Type*} (s e : α) (mid after : List α) :
    s :: (mid ++ e :: after) = s :: (mid ++ [e]) ++ after := by
  rw [List.cons_append, List.append_assoc, List.singleton_append]

theorem flatMap_getD {α : Type*} (l : List (List α)) :
    (List.range l.length).flatMap (fun j => l.getD j []) = l.flatten := by
  have hmap : (List.range l.length).map (fun j => l.getD j []) = l := by
    refine List.ext_getElem (by simp) fun i h h' => ?_
    rw [List.getElem_map, List.getElem_range, List.getD_eq_getElem?_getD,
      List.getElem?_eq_getElem h', Option.getD_some]
  rw [List.flatMap_def, hmap]

/-- The fragments between a first and a last one make up the unit. -/
theorem data_span (hsends : Sends ks ps) (hds : ds.Sublist ps) (hclean : Clean ds)
    {before mid after : List Part} {s e : Part} (hcut : ds = before ++ s :: (mid ++ e :: after))
    (hs : s.isFirst) (he : e.isLast) (hmid : ∀ x ∈ mid, ¬ x.isFirst ∧ ¬ x.isLast) :
    (s :: (mid ++ [e])).flatMap Part.data = s.packing.fragments.flatten ∧
      ∀ j < s.packing.payloads.length, (s.unit, j) ∈ ds.map Part.slot := by
  obtain ⟨hunit, hall, hplain⟩ := hclean.whole before s mid e after hcut hs he hmid
  refine ⟨?_, hall⟩
  have hmem : ∀ x ∈ s :: (mid ++ [e]), x ∈ ds := by
    intro x hx
    rw [hcut, append_cons_eq]
    exact List.mem_append_right _ (List.mem_append_left _ hx)
  have hpacking {x : Part} (hx : x ∈ s :: (mid ++ [e])) (hux : x.unit = s.unit) :
      x.packing = s.packing := by
    have hxk := hsends.packing x (hds.subset (hmem x hx))
    rw [hux, hsends.packing s (hds.subset (hmem s List.mem_cons_self))] at hxk
    exact (Option.some.inj hxk).symm
  have hmemLast : e ∈ s :: (mid ++ [e]) :=
    List.mem_cons_of_mem _ (List.mem_append_right _ List.mem_cons_self)
  have hcount : e.part + 1 = s.packing.fragments.length := by
    rw [he.2, hpacking hmemLast hunit.symm]
  have hspan : (s :: (mid ++ [e])).map Part.slot =
      (List.range (e.part + 1)).map fun j => (s.unit, j) := by
    have hpair : (ds.map Part.slot).Pairwise Earlier := by
      have hsent := pairwise_slots ks
      rw [← hsends.slots] at hsent
      exact hsent.sublist (hds.map _)
    have hparts : ds.map Part.slot =
        before.map Part.slot ++ ((s :: (mid ++ [e])).map Part.slot ++ after.map Part.slot) := by
      rw [hcut, append_cons_eq, List.map_append, List.map_append]
    refine span_slots hpair hparts ?_ ?_ ?_
    · rw [List.map_cons, List.head?_cons, Part.slot, hs.2]
    · rw [List.map_cons, List.map_append, ← List.cons_append, List.map_singleton,
        List.getLast?_concat, Part.slot, hunit]
    · intro j hj
      exact hall j (by rw [← length_fragments hs.1]; omega)
  have hdata : ∀ x ∈ s :: (mid ++ [e]), x.data = s.packing.fragments.getD x.slot.2 [] := by
    intro x hx
    have hslot : x.slot ∈ (List.range (e.part + 1)).map fun j => (s.unit, j) := by
      rw [← hspan]
      exact List.mem_map_of_mem hx
    obtain ⟨j, -, hj⟩ := List.mem_map.1 hslot
    have hsame := hpacking hx (Prod.mk.inj hj).1.symm
    have hne : x.packing.fragments ≠ [] := by
      rw [hsame]
      exact hs.1
    rw [data_of_fragments hne, hplain x hx, List.append_nil, hsame]
    rfl
  have hflat : (s :: (mid ++ [e])).flatMap Part.data =
      ((s :: (mid ++ [e])).map Part.slot).flatMap fun t => s.packing.fragments.getD t.2 [] := by
    rw [List.flatMap_map, List.flatMap_congr hdata]
  rw [hflat, hspan, List.flatMap_map, hcount]
  exact flatMap_getD _

theorem payloads_of_whole {k : Packing} (h : k.fragments = []) : ∃ b, k.payloads = [b] := by
  cases k with
  | single n => exact ⟨_, rfl⟩
  | stapA ind first more hind hsize => exact ⟨_, rfl⟩
  | fuA n first mids last hbody => cases h

theorem payload_of_whole (h : p.packing.fragments = [])
    (hpart : p.part < p.packing.payloads.length) : p.packing.payloads = [p.payload] := by
  obtain ⟨b, hb⟩ := payloads_of_whole h
  rw [hb, List.length_singleton] at hpart
  rw [Part.payload, hb, (by omega : p.part = 0)]
  rfl

/-- **The invariant goes on with every packet that arrives.** -/
theorem Holds.step (hsends : Sends ks ps) (hds : ds.Sublist ps) (hclean : Clean ds)
    (hcut : ds = done ++ p :: rest) (h : Holds ks ds done d) :
    Holds ks ds (done ++ [p]) (p.decode d) := by
  have hp : p ∈ ds := by
    rw [hcut]
    exact List.mem_append_right _ List.mem_cons_self
  have hpart := hsends.part_lt (hds.subset hp)
  by_cases hwhole : p.packing.fragments = []
  · have hpay := payload_of_whole hwhole hpart
    obtain ⟨hbuf, hqueue⟩ := decode_whole hwhole hpay (hclean.single p hp) (hclean.stapA p hp) d
    refine h.more ⟨fun hf => hf.1 hwhole, fun hl => hl.1 hwhole⟩ ?_ ?_
    · intro q hq
      have hmem : q.data ∈ (p.decode d).naluQueue.map Nalu.data := List.mem_map_of_mem hq
      rw [hqueue] at hmem
      rcases List.mem_append.1 hmem with hold | hnew
      · obtain ⟨q', hq', hdata⟩ := List.mem_map.1 hold
        rw [← hdata]
        exact h.queue q' hq'
      · obtain ⟨n, hn, hdata⟩ := List.mem_map.1 hnew
        rw [← hdata]
        exact arrived_of_whole hsends hds hp hpay hn
    · rw [hbuf, data_of_whole hwhole, List.append_nil]
      split
      · assumption
      · rfl
  · obtain ⟨n, bit, hunit, hpayload, hbit⟩ := payload_fragment hwhole hpart
    have hdecode : p.decode d =
        decodePayload d p.ts p.marker (Packing.fragment n bit p.data) := by
      rw [Part.decode, hpayload, data_of_fragments hwhole]
      rfl
    obtain ⟨-, -, -, -, hmidStart, -, hlastStart, -⟩ := fragment_bits n.header
    rcases hbit with ⟨hfirst, rfl⟩ | ⟨hlast, hnot, rfl⟩ | ⟨hnot, hnotLast, rfl⟩
    · obtain ⟨hqueue, hbuf⟩ := decodePayload_first d p.ts p.marker n p.data
      refine ⟨?_, fun _ => ⟨done, p, [], n, rfl, hfirst, ?_, hunit, ?_⟩⟩
      · rw [hdecode, hqueue]
        exact h.queue
      · intro x hx
        cases hx
      · rw [hdecode, hbuf, List.flatMap_singleton]
    · by_cases hd : d.fuBuf = []
      · rw [hdecode, decodePayload_dropped d _ _ n hlastStart _ hd]
        exact ⟨h.queue, fun hne => absurd hd hne⟩
      · obtain ⟨⟨q, hqueue, hq⟩, hbuf⟩ := decodePayload_last d p.ts p.marker n p.data hd
        obtain ⟨before, s, mid, n', hdone, hs, hmid, hunit', hheld⟩ := h.buf hd
        have hspan : ds = before ++ s :: (mid ++ p :: rest) := by
          rw [hcut, hdone, List.append_assoc, List.cons_append]
        obtain ⟨hdata, hall⟩ := data_span hsends hds hclean hspan hs hlast hmid
        have hsmem : s ∈ ds := by
          rw [hspan]
          exact List.mem_append_right _ List.mem_cons_self
        have hjoined : q.data = n'.bytes := by
          obtain ⟨u, hu, hbytes⟩ := units_of_fragments hs.1
          rw [hunit'] at hu
          obtain rfl := (List.cons.inj hu).1
          rw [hq, hheld, hbytes, ← hdata, List.cons_append,
            ← List.flatMap_singleton Part.data p, ← List.flatMap_append, List.cons_append]
        refine ⟨?_, fun hne => absurd (by rw [hdecode, hbuf]) hne⟩
        intro x hx
        rw [hdecode, hqueue] at hx
        rcases List.mem_append.1 hx with hx | hx
        · exact h.queue x hx
        · rw [List.mem_singleton.1 hx, hjoined]
          refine ⟨s.unit, s.packing, n', hsends.packing s (hds.subset hsmem), ?_, rfl, hall⟩
          rw [hunit']
          exact List.mem_cons_self
    · by_cases hd : d.fuBuf = []
      · rw [hdecode, decodePayload_dropped d _ _ n hmidStart _ hd]
        exact ⟨h.queue, fun hne => absurd hd hne⟩
      · obtain ⟨hqueue, hbuf⟩ := decodePayload_more d p.ts p.marker n p.data hd
        refine h.more ⟨hnot, hnotLast⟩ ?_ ?_
        · rw [hdecode, hqueue]
          exact h.queue
        · rw [hdecode, hbuf, if_neg hd]

theorem Holds.run {part : List Part} (hsends : Sends ks ps) (hds : ds.Sublist ps)
    (hclean : Clean ds) (hcut : ds = done ++ (part ++ rest)) (h : Holds ks ds done d) :
    Holds ks ds (done ++ part) (part.foldl Part.decode d) := by
  induction part generalizing done d with
  | nil =>
    rw [List.append_nil]
    exact h
  | cons p part ih =>
    have hstep := ih (by rw [hcut, List.append_assoc]; rfl) (h.step hsends hds hclean hcut)
    rw [List.append_assoc, List.singleton_append] at hstep
    exact hstep

theorem foldl_rtp {pt : UInt8} (hpt : pt < 128) (ds : List Part) (d : Depacketizer) :
    (ds.map (Part.rtp pt)).foldl (decodeRtpH264 pt.toNat) d = ds.foldl Part.decode d := by
  rw [List.foldl_map]
  congr 1
  funext d p
  exact decodeRtpH264_wirePadded hpt d _ _ _

/-- **What is queued was sent, and arrives whole**, at any time of a run. -/
theorem queue_sound {pt : UInt8} (hpt : pt < 128) (hsends : Sends ks ps) (hds : ds.Sublist ps)
    (hclean : Clean ds) {part : List Part} (hpart : part <+: ds) :
    ∀ q ∈ ((part.map (Part.rtp pt)).foldl (decodeRtpH264 pt.toNat)
      Depacketizer.initial).naluQueue, Arrived ks ds q.data := by
  rw [foldl_rtp hpt]
  have hinit : Holds ks ds [] Depacketizer.initial := by
    refine ⟨fun q hq => ?_, fun hne => absurd rfl hne⟩
    cases hq
  obtain ⟨rest, hrest⟩ := hpart
  have hcut : ds = [] ++ (part ++ rest) := hrest.symm
  exact (Holds.run hsends hds hclean hcut hinit).queue

/-! ## Two units in fragments -/

/-- An IDR unit in three fragments. -/
def threeFragments : Packing :=
  .fuA ⟨0x65, [0xaa, 0xbb, 0xcc], by decide⟩ [0xaa] [[0xbb]] [0xcc] rfl

def twoFragments : Packing := .fuA ⟨0x41, [0xdd, 0xee], by decide⟩ [0xdd] [] [0xee] rfl

def plainPart (unit part : ℕ) (packing : Packing) (marker : Bool) (padding : Bytes) : Part :=
  ⟨unit, part, packing, 9, marker, bareHeader 1 none (by decide), padding⟩

def fiveParts : List Part :=
  [plainPart 0 0 threeFragments false [], plainPart 0 1 threeFragments false [],
    plainPart 0 2 threeFragments true [], plainPart 1 0 twoFragments false [],
    plainPart 1 1 twoFragments true []]

/-- The first fragment of the first unit, and both of the second. -/
def arrivedParts : List Part :=
  [plainPart 0 0 threeFragments false [], plainPart 1 0 twoFragments false [],
    plainPart 1 1 twoFragments true []]

theorem sends_fiveParts : Sends [threeFragments, twoFragments] fiveParts where
  slots := rfl
  packing := by
    intro p hp
    simp only [fiveParts, List.mem_cons, List.not_mem_nil, or_false] at hp
    rcases hp with rfl | rfl | rfl | rfl | rfl <;> rfl
  padding := by
    intro p hp
    simp only [fiveParts, List.mem_cons, List.not_mem_nil, or_false] at hp
    rcases hp with rfl | rfl | rfl | rfl | rfl <;> exact .inl rfl

theorem clean_arrivedParts : Clean arrivedParts where
  single := by
    intro p hp n hn
    simp only [arrivedParts, List.mem_cons, List.not_mem_nil, or_false] at hp
    rcases hp with rfl | rfl | rfl <;> cases hn
  stapA := by
    intro p hp ind first more hind hsize hk
    simp only [arrivedParts, List.mem_cons, List.not_mem_nil, or_false] at hp
    rcases hp with rfl | rfl | rfl <;> cases hk
  whole := by
    intro before s mid e after hcut hs he hmid
    rcases before with _ | ⟨b0, _ | ⟨b1, before⟩⟩
    · obtain ⟨rfl, hrest⟩ := List.cons.inj hcut
      rcases mid with _ | ⟨m0, mid⟩
      · obtain ⟨rfl, -⟩ := List.cons.inj hrest
        exact absurd he.2 (by decide)
      · -- the second unit starts before it ends
        obtain ⟨rfl, -⟩ := List.cons.inj hrest
        exact absurd ⟨List.cons_ne_nil _ _, rfl⟩ (hmid _ List.mem_cons_self).1
    · obtain ⟨-, htail⟩ := List.cons.inj hcut
      obtain ⟨rfl, hrest⟩ := List.cons.inj htail
      rcases mid with _ | ⟨m0, mid⟩
      · obtain ⟨rfl, -⟩ := List.cons.inj hrest
        refine ⟨rfl, by decide, ?_⟩
        intro x hx
        simp only [List.nil_append, List.mem_cons, List.not_mem_nil, or_false] at hx
        rcases hx with rfl | rfl <;> rfl
      · have hlen := congrArg List.length hrest
        simp only [List.length_append, List.length_cons, List.length_nil] at hlen
        omega
    · have hlen := congrArg List.length hcut
      have hthree : arrivedParts.length = 3 := rfl
      simp only [hthree, List.length_append, List.length_cons] at hlen
      omega

theorem queue_sound_two : arrivedParts.Sublist fiveParts ∧
    ∀ q ∈ ((arrivedParts.map (Part.rtp 96)).foldl (decodeRtpH264 96)
      Depacketizer.initial).naluQueue,
        Arrived [threeFragments, twoFragments] arrivedParts q.data := by
  have hpt : (96 : UInt8) < 128 := by decide
  have hds : arrivedParts.Sublist fiveParts :=
    .cons_cons _ (.cons _ (.cons _ (List.Sublist.refl _)))
  exact ⟨hds, queue_sound hpt sends_fiveParts hds clean_arrivedParts (List.prefix_refl _)⟩

/-- The unit without its second fragment. -/
def gapParts : List Part :=
  [plainPart 0 0 threeFragments false [], plainPart 0 2 threeFragments true []]

/-- A unit in one packet, with four bytes of padding. -/
def paddedPart : Part := plainPart 0 0 (.single ⟨0x41, [0xdd], by decide⟩) true [0, 0, 0, 4]

/-- **Two units that were never sent**: one lacks a fragment that was lost, and padding is in the
other. -/
theorem queue_unsound :
    (Sends [threeFragments, twoFragments] fiveParts ∧ gapParts.Sublist fiveParts ∧
      ((gapParts.map (Part.rtp 96)).foldl (decodeRtpH264 96) Depacketizer.initial).naluQueue =
        [⟨[0x65, 0xaa, 0xcc], 9, true⟩] ∧
      ∀ n ∈ [threeFragments, twoFragments].flatMap Packing.units, n.bytes ≠ [0x65, 0xaa, 0xcc]) ∧
    (Sends [paddedPart.packing] [paddedPart] ∧
      (([paddedPart].map (Part.rtp 96)).foldl (decodeRtpH264 96) Depacketizer.initial).naluQueue =
        [⟨[0x41, 0xdd, 0, 0, 0, 4], 9, true⟩] ∧
      ∀ n ∈ paddedPart.packing.units, n.bytes ≠ [0x41, 0xdd, 0, 0, 0, 4]) := by
  refine ⟨⟨sends_fiveParts, ?_, by decide, ?_⟩, ⟨rfl, ?_, ?_⟩, by decide, ?_⟩
  · exact .cons_cons _ (.cons _ (.cons_cons _ (.cons _ (.cons _ .slnil))))
  · intro n hn
    have hunits : [threeFragments, twoFragments].flatMap Packing.units =
        [⟨0x65, [0xaa, 0xbb, 0xcc], by decide⟩, ⟨0x41, [0xdd, 0xee], by decide⟩] := rfl
    rw [hunits, List.mem_cons, List.mem_singleton] at hn
    rcases hn with rfl | rfl <;> decide
  · intro p hp
    rw [List.mem_singleton.1 hp]
    rfl
  · intro p hp
    rw [List.mem_singleton.1 hp]
    exact .inr ⟨rfl, by decide⟩
  · intro n hn
    obtain rfl := List.mem_singleton.1 hn
    decide

end BambooNet.Camera.RtpH264
