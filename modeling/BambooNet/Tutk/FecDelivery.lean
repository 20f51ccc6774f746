import BambooNet.Tutk.FecReceiver

/-!
# What the FEC receiver delivers

`SentGroup` is a group as its sender made it. A stored group that has only seen packets of it
agrees with it (`Group.Agrees`), and `add_own` says what one more packet delivers.
-/

namespace BambooNet.Tutk

open Serial (dist wrap)

/-! ## Groups as they are sent -/

/-- A parity packet: a header with the coded length at `[8]`, then the coded block. -/
def IsParity (len : ℕ) (block body : Bytes) : Prop :=
  kSliceHeaderLen + len ≤ body.length ∧ getLe16 body 8 = len ∧
    (body.drop kSliceHeaderLen).take len = block

instance (len : ℕ) (block body : Bytes) : Decidable (IsParity len block body) :=
  inferInstanceAs (Decidable (_ ∧ _ ∧ _))

/-- A group of packets: every data packet carries one slice, the parity packets code the data
bodies zero-padded to `len` bytes. -/
structure SentGroup where
  bodies : List Bytes
  parity : List Bytes
  len : ℕ
  nonempty : bodies ≠ []
  size : bodies.length + parity.length ≤ 255
  slice : ∀ b ∈ bodies, (parseSliceHeader b).isSome
  fits : ∀ b ∈ bodies, b.length ≤ len
  coded : ∀ i (h : i < parity.length),
    IsParity len (encode (bodies.map (resize · len)) (bodies.length + i)) parity[i]

theorem resize_of_le {b : Bytes} {len : ℕ} (h : b.length ≤ len) :
    resize b len = b ++ List.replicate (len - b.length) 0 := by
  rw [resize, List.take_of_length_le (by simp; omega)]

theorem length_resize (b : Bytes) (len : ℕ) : (resize b len).length = len := by
  rw [resize, List.length_take, List.length_append, List.length_replicate]
  omega

/-- The header of a parity packet, of which only the coded length is read. -/
def parityHeader (len : ℕ) : Bytes :=
  List.replicate 8 0 ++ [UInt8.ofNat len, UInt8.ofNat (len / 256)] ++ List.replicate 10 0

theorem isParity_parityHeader {len : ℕ} {block : Bytes} (h : block.length = len)
    (hlen : len < 65536) : IsParity len block (parityHeader len ++ block) := by
  have hheader : (parityHeader len).length = kSliceHeaderLen := rfl
  have hfield : getLe16 (parityHeader len ++ block) 8 = len := by
    simp [parityHeader, getLe16, leNat]
    omega
  refine ⟨by rw [List.length_append, hheader, h], hfield, ?_⟩
  rw [← hheader, List.drop_left, ← h, List.take_length]

/-- The group of given bodies with `m` parity packets. -/
def SentGroup.ofBodies (bodies : List Bytes) (m len : ℕ) (nonempty : bodies ≠ [])
    (size : bodies.length + m ≤ 255) (slice : ∀ b ∈ bodies, (parseSliceHeader b).isSome)
    (fits : ∀ b ∈ bodies, b.length ≤ len) (hlen : len < 65536) : SentGroup where
  bodies := bodies
  parity := (List.range m).map fun i =>
    parityHeader len ++ encode (bodies.map (resize · len)) (bodies.length + i)
  len := len
  nonempty := nonempty
  size := by simpa using size
  slice := slice
  fits := fits
  coded i h := by
    rw [List.getElem_map, List.getElem_range]
    refine isParity_parityHeader (encode_spec _ (by simpa using nonempty) ?_ ?_).1 hlen
    · rw [List.length_map]
      omega
    · intro b hb
      obtain ⟨c, -, rfl⟩ := List.mem_map.1 hb
      exact length_resize c len

/-- A slice of one byte, its header included, fits a packet. -/
theorem oneByte_fits : 21 < 65536 := by decide

namespace SentGroup

variable (sg : SentGroup)

def k : ℕ := sg.bodies.length

def m : ℕ := sg.parity.length

/-- The body of packet `i`. -/
def body (i : ℕ) : Bytes := (sg.bodies ++ sg.parity).getD i []

/-- The data blocks the parity is computed from. -/
def padded : List Bytes := sg.bodies.map (resize · sg.len)

/-- The block the receiver stores for packet `i`. -/
def word (i : ℕ) : Bytes := if i < sg.k then sg.body i else encode sg.padded i

def packet (group : BitVec 16) (i : ℕ) : Packet := ⟨group, i, sg.k, sg.m, sg.body i⟩

/-- The slices of the data packets whose index is not in `have_`, cut to header and payload. -/
def missing (have_ : Finset ℕ) : List Delivery :=
  ((List.range sg.k).filter (· ∉ have_)).map fun i => (i, trim (sg.body i))

theorem k_pos : 0 < sg.k := List.length_pos_iff.2 sg.nonempty

@[simp] theorem length_padded : sg.padded.length = sg.k := by simp [padded, k]

theorem length_padded_le : sg.padded.length ≤ 255 := by
  have := sg.size
  rw [length_padded, k]
  omega

theorem length_of_mem_padded : ∀ b ∈ sg.padded, b.length = sg.len := by
  intro b hb
  obtain ⟨c, -, rfl⟩ := List.mem_map.1 hb
  exact length_resize c sg.len

theorem padded_ne_nil : sg.padded ≠ [] := by simpa [padded] using sg.nonempty

variable {sg}

theorem body_of_lt {i : ℕ} (h : i < sg.k) : sg.body i = sg.bodies.get ⟨i, h⟩ := by
  have h' : i < sg.bodies.length := h
  simp [body, List.getD_eq_getElem?_getD, List.getElem?_append_left h', h']

theorem body_mem {i : ℕ} (h : i < sg.k) : sg.body i ∈ sg.bodies :=
  body_of_lt h ▸ List.get_mem _ _

theorem body_slice {i : ℕ} (h : i < sg.k) : ∃ hd, parseSliceHeader (sg.body i) = some hd :=
  Option.isSome_iff_exists.1 (sg.slice _ (body_mem h))

theorem body_parity {i : ℕ} (h : sg.k ≤ i) (hi : i < sg.k + sg.m) :
    IsParity sg.len (sg.word i) (sg.body i) := by
  have hp : i - sg.k < sg.parity.length := by have : sg.parity.length = sg.m := rfl; omega
  have hb : sg.body i = sg.parity.get ⟨i - sg.k, hp⟩ := by
    have h' : sg.bodies.length ≤ i := h
    have hp' : i - sg.bodies.length < sg.parity.length := hp
    simp [body, List.getD_eq_getElem?_getD, List.getElem?_append_right h', hp']
    rfl
  have hw : sg.word i = encode sg.padded (sg.k + (i - sg.k)) := by
    rw [word, if_neg (by omega)]
    congr 1
    omega
  rw [hb, hw]
  exact sg.coded (i - sg.k) hp

theorem len_pos : 0 < sg.len := by
  have hk := sg.k_pos
  obtain ⟨hd, hs⟩ := body_slice hk
  have h20 := length_of_parseSliceHeader hs
  have hfit := sg.fits _ (body_mem hk)
  have : kSliceHeaderLen = 20 := rfl
  omega

theorem body_ne_nil {i : ℕ} (hi : i < sg.k + sg.m) : sg.body i ≠ [] := by
  refine List.ne_nil_of_length_pos ?_
  by_cases h : i < sg.k
  · obtain ⟨hd, hs⟩ := body_slice h
    exact lt_of_lt_of_le (by decide) (length_of_parseSliceHeader hs)
  · have := (body_parity (not_lt.1 h) hi).1
    have : kSliceHeaderLen = 20 := rfl
    omega

/-- A data block is its body and zeros. -/
theorem padded_getElem {i : ℕ} (h : i < sg.k) :
    sg.padded.getD i [] = sg.body i ++ List.replicate (sg.len - (sg.body i).length) 0 := by
  rw [← resize_of_le (sg.fits _ (body_mem h)), body_of_lt h]
  have h' : i < sg.bodies.length := h
  simp [padded, List.getD_eq_getElem?_getD, h']

end SentGroup

/-! ## Stored groups -/

namespace Group

/-- A group that has only stored packets of `sg`. -/
structure Agrees (sg : SentGroup) (g : Group) : Prop where
  k : g.k = sg.k
  m : g.m = sg.m
  block : ∀ i ∈ g.present, g.block i = sg.word i
  len : g.len = 0 ∨ g.len = sg.len
  len_of_parity : g.parityHave ≠ 0 → g.len = sg.len

theorem Agrees.closed {sg : SentGroup} {g : Group} (h : g.Agrees sg) (c : Bool) :
    ({ g with closed := c } : Group).Agrees sg :=
  ⟨h.k, h.m, h.block, h.len, h.len_of_parity⟩

theorem Agrees.new (sg : SentGroup) :
    ({ k := sg.k, m := sg.m, blocks := List.replicate (sg.k + sg.m) [] } : Group).Agrees sg where
  k := rfl
  m := rfl
  block i hi := by
    obtain ⟨hlt, hne⟩ := mem_present.1 hi
    have hlt' : i < sg.k + sg.m := by simpa using hlt
    exact absurd (by simp [Group.block, List.getD_eq_getElem?_getD, hlt']) hne
  len := .inl rfl
  len_of_parity h := absurd rfl h

/-- A packet of the group is stored as its block. -/
theorem store_own {sg : SentGroup} {g : Group} {idx : ℕ} (hwf : g.WF) (hag : g.Agrees sg)
    (hidx : idx < sg.k + sg.m) (hnew : idx ∉ g.present) :
    ∃ g', g.store idx (sg.body idx) =
        some (g', if idx < sg.k then [(idx, sg.body idx)] else []) ∧
      g'.WF ∧ g'.Agrees sg ∧ g'.closed = g.closed ∧ g'.present = insert idx g.present := by
  have hlt : idx < g.blocks.length := by rw [hwf.length, hag.k, hag.m]; exact hidx
  have hempty : g.block idx = [] := by
    by_contra hne
    exact hnew (mem_present.2 ⟨hlt, hne⟩)
  have hbody := SentGroup.body_ne_nil hidx
  have hblocks (b : Bytes) (hb : b = sg.word idx) (i : ℕ)
      (hi : i ∈ insert idx g.present) : (g.blocks.set idx b).getD i [] = sg.word i := by
    rw [getD_set hlt]
    split
    · next h => rw [h, hb]
    · next h => exact hag.block i ((Finset.mem_insert.1 hi).resolve_left h)
  by_cases hk : idx < sg.k
  · have hst : g.store idx (sg.body idx) = some (({ g with
        blocks := g.blocks.set idx (sg.body idx)
        dataHave := g.dataHave + 1
        maxData := max g.maxData idx } : Group), [(idx, sg.body idx)]) := by
      rw [store, if_pos (hag.k ▸ hk)]
    obtain ⟨hwf', -, -, hc, hp⟩ :=
      hwf.store (by rw [hag.k, hag.m]; exact hidx) hempty hbody hst
    refine ⟨_, by rw [if_pos hk]; exact hst, hwf', ?_, hc, hp⟩
    refine ⟨hag.k, hag.m, fun i hi => ?_, hag.len, hag.len_of_parity⟩
    exact hblocks _ (by rw [SentGroup.word, if_pos hk]) i (hp ▸ hi)
  · obtain ⟨hlen, hle16, hcoded⟩ := SentGroup.body_parity (not_lt.1 hk) hidx
    have hpos := sg.len_pos
    have hst : g.store idx (sg.body idx) = some (({ g with
        len := sg.len
        blocks := g.blocks.set idx (sg.word idx)
        parityHave := g.parityHave + 1 } : Group), []) := by
      have h1 : ¬ (sg.body idx).length < kSliceHeaderLen := by omega
      have h2 : ¬ (sg.len = 0 ∨ kSliceHeaderLen + sg.len > (sg.body idx).length ∨
          (g.len ≠ 0 ∧ g.len ≠ sg.len)) := by
        have := hag.len
        omega
      rw [store, if_neg (hag.k ▸ hk), if_neg h1]
      simp only [hle16, h2, if_false, hcoded]
    obtain ⟨hwf', -, -, hc, hp⟩ :=
      hwf.store (by rw [hag.k, hag.m]; exact hidx) hempty hbody hst
    refine ⟨_, by rw [if_neg hk]; exact hst, hwf', ?_, hc, hp⟩
    exact ⟨hag.k, hag.m, fun i hi => hblocks _ rfl i (hp ▸ hi), .inr rfl, fun _ => rfl⟩

theorem WF.mem_present_iff {g : Group} (h : g.WF) {i : ℕ} (hi : i < g.k + g.m) :
    i ∈ g.present ↔ g.block i ≠ [] := by
  rw [mem_present, h.length]
  exact and_iff_right hi

/-- The blocks handed to `fec::recover`: data blocks padded, missing ones left empty. -/
theorem recover_blocks {sg : SentGroup} {g : Group} (hwf : g.WF) (hag : g.Agrees sg)
    (hlen : g.len = sg.len) {i : ℕ} (hi : i < sg.k + sg.m) :
    (g.blocks.mapIdx fun i b => if i < g.k ∧ b ≠ [] then resize b g.len else b).getD i [] =
      if i ∈ g.present then encode sg.padded i else [] := by
  have hlt : i < g.blocks.length := by rw [hwf.length, hag.k, hag.m]; exact hi
  have hmem := hwf.mem_present_iff (i := i) (by rw [hag.k, hag.m]; exact hi)
  have hget : g.block i = g.blocks[i] := by simp [block, List.getD_eq_getElem?_getD, hlt]
  rw [List.getD_eq_getElem?_getD, List.getElem?_mapIdx, List.getElem?_eq_getElem hlt,
    Option.map_some, Option.getD_some, ← hget]
  by_cases hp : i ∈ g.present
  · have hne := hmem.1 hp
    have hword := hag.block i hp
    rw [if_pos hp]
    by_cases hk : i < sg.k
    · have hdata : i < sg.padded.length := by rw [SentGroup.length_padded]; exact hk
      rw [if_pos ⟨hag.k ▸ hk, hne⟩, hlen, hword, SentGroup.word, if_pos hk,
        encode_data hdata sg.length_padded_le sg.length_of_mem_padded,
        resize_of_le (sg.fits _ (SentGroup.body_mem hk)), ← SentGroup.padded_getElem hk,
        List.getD_eq_getElem _ _ hdata]
    · rw [if_neg (by rw [hag.k]; tauto), hword, SentGroup.word, if_neg hk]
  · have he : g.block i = [] := by
      by_contra hne
      exact hp (hmem.2 hne)
    rw [if_neg hp, he]
    simp

/-- **With `k` packets of the group the missing slices come back as they were sent.** -/
theorem recover_own {sg : SentGroup} {g : Group} (hwf : g.WF) (hag : g.Agrees sg)
    (hlen : g.len = sg.len) (hk : sg.k ≤ g.present.card) :
    g.recover = { group := { g with closed := true }
                  slices := sg.missing g.present
                  recovered := (sg.missing g.present).length } := by
  have hsize : sg.k + sg.m ≤ 255 := sg.size
  have hbl : g.blocks.length = sg.k + sg.m := by rw [hwf.length, hag.k, hag.m]
  set blocks := g.blocks.mapIdx fun i b => if i < g.k ∧ b ≠ [] then resize b g.len else b
    with hblocks
  have hlength : blocks.length = sg.k + sg.m := by rw [hblocks, List.length_mapIdx, hbl]
  have hget (i : ℕ) (hi : i < sg.k + sg.m) : blocks.getD i [] =
      if i ∈ g.present then encode sg.padded i else [] := recover_blocks hwf hag hlen hi
  have henc (i : ℕ) : (encode sg.padded i).length = sg.len :=
    (encode_spec i sg.padded_ne_nil sg.length_padded_le sg.length_of_mem_padded).1
  have hpos := sg.len_pos
  have hpresent : Tutk.present blocks sg.len = g.present.card := by
    rw [present_eq_card]
    congr 1
    ext i
    rw [Finset.mem_filter, Finset.mem_range, hlength, mem_present, hbl]
    refine and_congr_right fun hi => ?_
    rw [hget i hi, ← hwf.mem_present_iff (by rw [hag.k, hag.m]; exact hi)]
    split
    · next h => simp [h, henc]
    · next h => simp [h]; omega
  have hrec : Tutk.recover blocks g.k g.len = some (sg.padded ++ blocks.drop sg.k) := by
    have h := @recover_spec sg.padded blocks sg.len
      sg.padded_ne_nil sg.length_of_mem_padded (by rw [sg.length_padded, hlength]; omega)
      (by omega) (by
        intro i hi hil
        have hb : blocks.getD i [] = blocks[i] := by simp [List.getD_eq_getElem?_getD, hi]
        rw [← hb, hget i (hlength ▸ hi)] at hil ⊢
        split at hil
        · next h => rw [if_pos h]
        · simp at hil; omega) (by rw [sg.length_padded, hpresent]; exact hk)
    rw [sg.length_padded] at h
    rw [hag.k, hlen, h]
  have hmissing : ((List.range g.k).filter fun i => (g.block i).isEmpty) =
      (List.range sg.k).filter (· ∉ g.present) := by
    rw [hag.k]
    refine List.filter_congr fun i hi => ?_
    have hi' : i < sg.k := List.mem_range.1 hi
    have := hwf.mem_present_iff (i := i) (by rw [hag.k, hag.m]; omega)
    rw [Bool.eq_iff_iff, decide_eq_true_iff, List.isEmpty_iff, this, not_not]
  have hslices : (((List.range sg.k).filter (· ∉ g.present)).filterMap fun i =>
      (parseSliceHeader ((sg.padded ++ blocks.drop sg.k).getD i [])).map fun h =>
        (i, ((sg.padded ++ blocks.drop sg.k).getD i []).take (kSliceHeaderLen + h.len))) =
      sg.missing g.present := by
    rw [SentGroup.missing, ← List.filterMap_eq_map]
    refine List.filterMap_congr fun i hi => ?_
    have hi' : i < sg.k := List.mem_range.1 (List.mem_of_mem_filter hi)
    obtain ⟨hd, hs⟩ := SentGroup.body_slice hi'
    have hdata : (sg.padded ++ blocks.drop sg.k).getD i [] =
        sg.body i ++ List.replicate (sg.len - (sg.body i).length) 0 := by
      rw [← SentGroup.padded_getElem hi', List.getD_eq_getElem?_getD,
        List.getD_eq_getElem?_getD, List.getElem?_append_left (by rw [sg.length_padded]; exact hi')]
    have hcut := trim_append hs (List.replicate (sg.len - (sg.body i).length) 0)
    rw [trim, ← (parseSliceHeader_spec (parseSliceHeader_append hs _)).2.2.1] at hcut
    rw [hdata, parseSliceHeader_append hs, Option.map_some, hcut]
    rfl
  unfold recover
  simp only [← hblocks, hrec, hmissing, hslices]
  rw [SentGroup.missing, List.length_map, sub_self]

/-- Nothing is missing once every data packet is there. -/
theorem missing_eq_nil {sg : SentGroup} {g : Group} (hwf : g.WF) (hag : g.Agrees sg)
    (h : g.dataHave = g.k) : sg.missing g.present = [] := by
  have hsub : g.present.filter (· < g.k) ⊆ Finset.range g.k := by
    intro i hi
    simpa using (Finset.mem_filter.1 hi).2
  have hall : g.present.filter (· < g.k) = Finset.range g.k :=
    Finset.eq_of_subset_of_card_le hsub (by rw [← hwf.dataHave, h, Finset.card_range])
  rw [SentGroup.missing, List.map_eq_nil_iff, List.filter_eq_nil_iff]
  intro i hi
  have hmem : i ∈ g.present.filter (· < g.k) := by
    rw [hall, hag.k]
    exact Finset.mem_range.2 (List.mem_range.1 hi)
  simpa using (Finset.mem_filter.1 hmem).1

/-- Settling a group: with `k` packets it is closed and what is missing comes back; with fewer it
is closed only by its last index. -/
theorem settle_own {sg : SentGroup} {g : Group} {idx : ℕ} (hwf : g.WF) (hag : g.Agrees sg)
    (hopen : g.closed = false) :
    (g.settle idx).group =
      { g with closed := decide (sg.k ≤ g.present.card ∨ idx = sg.k + sg.m - 1) } ∧
    (g.settle idx).slices = if sg.k ≤ g.present.card then sg.missing g.present else [] := by
  have hcard := hwf.card_present
  have hgk := hag.k
  have hgm := hag.m
  unfold settle
  by_cases hdata : g.dataHave = g.k
  · have hk : sg.k ≤ g.present.card := by omega
    rw [if_pos hdata]
    simp [hk, missing_eq_nil hwf hag hdata]
  · rw [if_neg hdata]
    by_cases hk : sg.k ≤ g.present.card
    · have hdle : g.dataHave ≤ g.k := by
        rw [hwf.dataHave, ← Finset.card_range g.k]
        exact Finset.card_le_card fun i hi => by simpa using (Finset.mem_filter.1 hi).2
      have hlen := hag.len_of_parity (by omega)
      have hpos := sg.len_pos
      rw [if_pos ⟨by omega, by omega⟩, recover_own hwf hag hlen hk]
      simp [hk]
    · rw [if_neg (by omega)]
      by_cases hlast : idx = sg.k + sg.m - 1
      · rw [if_pos (by omega)]
        simp [hlast, hk, closeLost]
      · rw [if_neg (by omega)]
        simp [hlast, hk, ← hopen]

/-- **What one more packet of the group delivers.** Its own slice when it is a data packet, and the
missing slices when it is the `k`-th packet to arrive. -/
theorem add_own {sg : SentGroup} {g : Group} {idx : ℕ} (hwf : g.WF) (hag : g.Agrees sg)
    (hopen : g.closed = false) (hidx : idx < sg.k + sg.m) (hnew : idx ∉ g.present) :
    ∃ g', g'.WF ∧ g'.Agrees sg ∧ g'.present = insert idx g.present ∧
      g'.closed = decide (sg.k ≤ g'.present.card ∨ idx = sg.k + sg.m - 1) ∧
      (g.add idx sg.k sg.m (sg.body idx)).group = g' ∧
      (g.add idx sg.k sg.m (sg.body idx)).slices =
        (if idx < sg.k then [(idx, sg.body idx)] else []) ++
          if sg.k ≤ g'.present.card then sg.missing g'.present else [] := by
  obtain ⟨g', hst, hwf', hag', hc, hp⟩ := store_own hwf hag hidx hnew
  obtain ⟨hgroup, hslices⟩ := @settle_own _ _ idx hwf' hag' (hc.trans hopen)
  have hempty : g.block idx = [] := by
    by_contra hne
    exact hnew ((hwf.mem_present_iff (by rw [hag.k, hag.m]; exact hidx)).2 hne)
  have hguard : ¬ (g.closed = true ∨ g.k ≠ sg.k ∨ g.m ≠ sg.m ∨ g.block idx ≠ [] ∨
      sg.body idx = []) := by
    simp [hopen, hag.k, hag.m, hempty, SentGroup.body_ne_nil hidx]
  refine ⟨{ g' with closed := decide (sg.k ≤ g'.present.card ∨ idx = sg.k + sg.m - 1) },
    hwf'.closed _, hag'.closed _, hp, rfl, ?_, ?_⟩
  · rw [add, if_neg hguard, hst]
    exact hgroup
  · rw [add, if_neg hguard, hst]
    show _ ++ (g'.settle idx).slices = _
    rw [hslices]
    rfl

/-- A packet that is there already, or comes after the group was closed, changes nothing. -/
theorem add_old {g : Group} {idx k m : ℕ} {body : Bytes}
    (h : g.closed = true ∨ idx ∈ g.present) : g.add idx k m body = { group := g } := by
  rw [add, if_pos]
  rcases h with h | h
  · exact .inl h
  · exact .inr (.inr (.inr (.inl (mem_present.1 h).2)))

end Group

/-! ## One group through its arrivals -/

/-- The index that closes a group, when it comes, comes with at least `k` packets there. -/
def InTime (sg : SentGroup) (arrived : List ℕ) : Prop :=
  ∀ pre, pre ++ [sg.k + sg.m - 1] <+: arrived →
    sg.k ≤ (pre ++ [sg.k + sg.m - 1]).toFinset.card

theorem inTime_concat {sg : SentGroup} {arrived : List ℕ} {idx : ℕ} :
    InTime sg (arrived ++ [idx]) ↔ InTime sg arrived ∧
      (idx = sg.k + sg.m - 1 → sg.k ≤ (arrived ++ [idx]).toFinset.card) := by
  constructor
  · intro h
    refine ⟨fun pre hpre => h pre (hpre.trans (List.prefix_append _ _)), ?_⟩
    rintro rfl
    exact h arrived List.prefix_rfl
  · rintro ⟨h, hlast⟩ pre hpre
    rcases List.prefix_concat_iff.1 hpre with heq | hpre
    · obtain ⟨rfl, hidx⟩ := List.append_inj' heq rfl
      obtain rfl : sg.k + sg.m - 1 = idx := by simpa using hidx
      exact hlast rfl
    · exact h pre hpre

theorem inTime_of_not_mem {sg : SentGroup} {arrived : List ℕ} (h : sg.k + sg.m - 1 ∉ arrived) :
    InTime sg arrived := fun pre hpre =>
  absurd (hpre.subset (by simp)) h

namespace SentGroup

variable (sg : SentGroup)

/-- The slices of the data packets in `arrived`, cut to header and payload. -/
def slicesIn (arrived : Finset ℕ) : List Delivery :=
  ((List.range sg.k).filter (· ∈ arrived)).map fun i => (i, trim (sg.body i))

/-- All slices of the group, cut to header and payload. -/
def slices : List Delivery := (List.range sg.k).map fun i => (i, trim (sg.body i))

theorem slices_perm (arrived : Finset ℕ) :
    (sg.slicesIn arrived ++ sg.missing arrived).Perm sg.slices := by
  rw [slicesIn, missing, slices, ← List.map_append]
  refine List.Perm.map _ ?_
  simpa using List.filter_append_perm (fun i => decide (i ∈ arrived)) (List.range sg.k)

theorem slicesIn_insert_of_ge {arrived : Finset ℕ} {idx : ℕ} (h : sg.k ≤ idx) :
    sg.slicesIn (insert idx arrived) = sg.slicesIn arrived := by
  rw [slicesIn, slicesIn]
  congr 1
  refine List.filter_congr fun i hi => ?_
  have hne : i ≠ idx := by have := List.mem_range.1 hi; omega
  simp [hne]

theorem slicesIn_insert_of_lt {arrived : Finset ℕ} {idx : ℕ} (h : idx < sg.k)
    (hnew : idx ∉ arrived) :
    (sg.slicesIn arrived ++ [(idx, trim (sg.body idx))]).Perm
      (sg.slicesIn (insert idx arrived)) := by
  have hperm : ((List.range sg.k).filter (· ∈ arrived) ++ [idx]).Perm
      ((List.range sg.k).filter (· ∈ insert idx arrived)) := by
    refine (List.perm_ext_iff_of_nodup ?_ (List.nodup_range.filter _)).2 fun i => ?_
    · refine List.nodup_append.2 ⟨List.nodup_range.filter _, List.nodup_singleton idx, ?_⟩
      rintro i hi j hj rfl
      exact hnew (by simpa [List.mem_singleton.1 hj] using (List.mem_filter.1 hi).2)
    · simp only [List.mem_append, List.mem_filter, List.mem_range, List.mem_singleton,
        Finset.mem_insert, decide_eq_true_eq]
      constructor
      · rintro (⟨hi, hm⟩ | rfl)
        · exact ⟨hi, .inr hm⟩
        · exact ⟨h, .inl rfl⟩
      · rintro ⟨hi, rfl | hm⟩
        · exact .inr rfl
        · exact .inl ⟨hi, hm⟩
  simpa [slicesIn] using hperm.map fun i => (i, trim (sg.body i))

theorem length_slicesIn_le (arrived : Finset ℕ) : (sg.slicesIn arrived).length ≤ arrived.card := by
  have hsub : ((List.range sg.k).filter (· ∈ arrived)).toFinset ⊆ arrived := by
    intro i hi
    simpa using (List.mem_filter.1 (List.mem_toFinset.1 hi)).2
  rw [slicesIn, List.length_map,
    ← List.toFinset_card_of_nodup (List.nodup_range.filter _)]
  exact Finset.card_le_card hsub

end SentGroup

/-- A delivery cut to header and payload, which is all its receiver reads. -/
def cut (d : Delivery) : Delivery := (d.1, trim d.2)

theorem cut_missing (sg : SentGroup) (arrived : Finset ℕ) :
    (sg.missing arrived).map cut = sg.missing arrived := by
  rw [SentGroup.missing, List.map_map]
  exact List.map_congr_left fun i _ => by simp [cut]

/-- Where a group stands after the packets `arrived` of it, `given` being what was delivered. -/
inductive Phase (sg : SentGroup) (arrived : List ℕ) (given : List Delivery) : Group → Prop
  | collecting {g : Group} : g.WF → g.Agrees sg → g.closed = false →
      g.present = arrived.toFinset → arrived.toFinset.card < sg.k →
      sg.k + sg.m - 1 ∉ arrived → (given.map cut).Perm (sg.slicesIn arrived.toFinset) →
      Phase sg arrived given g
  | complete {g : Group} : g.closed = true → InTime sg arrived →
      sg.k ≤ arrived.toFinset.card → (given.map cut).Perm sg.slices →
      Phase sg arrived given g
  | cutOff {g : Group} : g.closed = true → ¬ InTime sg arrived → given.length < sg.k →
      Phase sg arrived given g

theorem Phase.new (sg : SentGroup) : Phase sg [] []
    { k := sg.k, m := sg.m, blocks := List.replicate (sg.k + sg.m) [] } := by
  refine .collecting (Group.WF.new _ _) (Group.Agrees.new sg) rfl ?_ sg.k_pos (by simp) ?_
  · refine Finset.eq_empty_of_forall_notMem fun i hi => ?_
    obtain ⟨hlt, hne⟩ := Group.mem_present.1 hi
    have hlt' : i < sg.k + sg.m := by simpa using hlt
    exact hne (by simp [Group.block, List.getD_eq_getElem?_getD, hlt'])
  · simp [SentGroup.slicesIn]

/-- **One more packet of the group.** -/
theorem Phase.add {sg : SentGroup} {arrived : List ℕ} {given : List Delivery} {g : Group} {idx : ℕ}
    (h : Phase sg arrived given g) (hidx : idx < sg.k + sg.m) :
    Phase sg (arrived ++ [idx]) (given ++ (g.add idx sg.k sg.m (sg.body idx)).slices)
      (g.add idx sg.k sg.m (sg.body idx)).group := by
  have hset : (arrived ++ [idx]).toFinset = insert idx arrived.toFinset := by
    ext i
    simp
  cases h with
  | collecting hwf hag hopen hp hlt hlast hgiven =>
    by_cases hold : idx ∈ g.present
    · -- a duplicate
      have hmem : idx ∈ arrived := by simpa [hp] using hold
      have hsame : (arrived ++ [idx]).toFinset = arrived.toFinset := by
        rw [hset, Finset.insert_eq_of_mem (List.mem_toFinset.2 hmem)]
      rw [Group.add_old (.inr hold)]
      refine .collecting hwf hag hopen (hsame ▸ hp) (hsame ▸ hlt) ?_ ?_
      · simp only [List.mem_append, List.mem_singleton, not_or]
        exact ⟨hlast, fun heq => hlast (heq ▸ hmem)⟩
      · rw [List.append_nil, hsame]
        exact hgiven
    · obtain ⟨g', hwf', hag', hp', hc, hgroup, hslices⟩ := Group.add_own hwf hag hopen hidx hold
      have hp'' : g'.present = (arrived ++ [idx]).toFinset := by rw [hp', hp, hset]
      have hdirect : ((given ++ if idx < sg.k then [(idx, sg.body idx)] else []).map cut).Perm
          (sg.slicesIn (arrived ++ [idx]).toFinset) := by
        rw [hset]
        split
        · next hk =>
          rw [List.map_append]
          refine (hgiven.append_right _).trans ?_
          exact sg.slicesIn_insert_of_lt hk (by rwa [← hp])
        · next hk =>
          rw [List.append_nil, sg.slicesIn_insert_of_ge (not_lt.1 hk)]
          exact hgiven
      rw [hgroup, hslices, ← List.append_assoc]
      have hcard : g'.present.card = (arrived ++ [idx]).toFinset.card := by rw [hp'']
      by_cases hk : sg.k ≤ g'.present.card
      · refine .complete (by simp [hc, hk]) ?_ (hp'' ▸ hk) ?_
        · exact inTime_concat.2 ⟨inTime_of_not_mem hlast, fun _ => hp'' ▸ hk⟩
        · rw [if_pos hk, List.map_append, cut_missing, hp'']
          exact (hdirect.append_right _).trans (sg.slices_perm _)
      · rw [if_neg hk, List.append_nil]
        by_cases hl : idx = sg.k + sg.m - 1
        · refine .cutOff (by simp [hc, hl]) ?_ ?_
          · intro hin
            exact hk (hp'' ▸ (inTime_concat.1 hin).2 hl)
          · have hlen := hdirect.length_eq
            have hle := sg.length_slicesIn_le (arrived ++ [idx]).toFinset
            rw [List.length_map] at hlen
            omega
        · refine .collecting hwf' hag' (by simp [hc, hk, hl]) hp'' (by omega) ?_ hdirect
          simp only [List.mem_append, List.mem_singleton, not_or]
          exact ⟨hlast, fun heq => hl heq.symm⟩
  | complete hc hin hk hgiven =>
    rw [Group.add_old (.inl hc), List.append_nil]
    have hk' : sg.k ≤ (arrived ++ [idx]).toFinset.card := by
      rw [hset]
      exact hk.trans (Finset.card_le_card (Finset.subset_insert _ _))
    exact .complete hc (inTime_concat.2 ⟨hin, fun _ => hk'⟩) hk' hgiven
  | cutOff hc hin hlen =>
    rw [Group.add_old (.inl hc), List.append_nil]
    exact .cutOff hc (fun h => hin (inTime_concat.1 h).1) hlen

end BambooNet.Tutk
