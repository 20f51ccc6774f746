import BambooNet.Lib.SortedMap
import BambooNet.Tutk.Fec
import BambooNet.Tutk.Slice
import Mathlib.Order.Bounds.Basic

/-!
# The FEC receiver

Stream packets come in groups of `k` data packets and `m` parity packets. `FecReceiver.add` hands
the slice of a data packet on at once, and the slices of the missing data packets when parity
brings them back.

Whatever packets arrive, the counters of a group agree with its blocks (`Group.WF`,
`FecReceiver.add_wf`) and only groups close to the newest one are kept (`FecReceiver.Near`).
-/

namespace BambooNet.Tutk

open Serial (dist)

/-! ## Groups -/

structure Group where
  k : ℕ := 0
  m : ℕ := 0
  blocks : List Bytes := []
  dataHave : ℕ := 0
  parityHave : ℕ := 0
  maxData : ℤ := -1
  len : ℕ := 0
  closed : Bool := false
  deriving DecidableEq

/-- A slice handed to `on_slice`, with the index of its data packet. -/
abbrev Delivery := ℕ × Bytes

/-- What a packet does to its group: the slices handed on and the changes of the counters. -/
structure Outcome where
  group : Group
  slices : List Delivery := []
  recovered : ℤ := 0
  lost : ℤ := 0

/-- `resize(len, 0)`. -/
def resize (b : Bytes) (len : ℕ) : Bytes := (b ++ List.replicate (len - b.length) 0).take len

namespace Group

/-- Block `i`; empty when it is missing. -/
def block (g : Group) (i : ℕ) : Bytes := g.blocks.getD i []

def closeLost (g : Group) : Outcome where
  group := { g with closed := true }
  lost := g.k - g.dataHave

def recover (g : Group) : Outcome :=
  let missing := (List.range g.k).filter fun i => (g.block i).isEmpty
  let blocks := g.blocks.mapIdx fun i b => if i < g.k ∧ b ≠ [] then resize b g.len else b
  let g' := { g with closed := true }
  match Tutk.recover blocks g.k g.len with
  | none => { group := g', lost := g.k - g.dataHave }
  | some blocks =>
    let slices := missing.filterMap fun i =>
      (parseSliceHeader (blocks.getD i [])).map fun h =>
        (i, (blocks.getD i []).take (kSliceHeaderLen + h.len))
    { group := g'
      slices := slices
      recovered := slices.length
      lost := missing.length - slices.length }

/-- Store the block of a packet; `none` when the packet is refused. -/
def store (g : Group) (idx : ℕ) (body : Bytes) : Option (Group × List Delivery) :=
  if idx < g.k then
    some ({ g with
      blocks := g.blocks.set idx body
      dataHave := g.dataHave + 1
      maxData := max g.maxData idx }, [(idx, body)])
  else if body.length < kSliceHeaderLen then none
  else
    let len := getLe16 body 8
    if len = 0 ∨ kSliceHeaderLen + len > body.length ∨ (g.len ≠ 0 ∧ g.len ≠ len) then none
    else
      some ({ g with
        len := len
        blocks := g.blocks.set idx ((body.drop kSliceHeaderLen).take len)
        parityHave := g.parityHave + 1 }, [])

/-- Close the group or recover it after packet `idx`. -/
def settle (g : Group) (idx : ℕ) : Outcome :=
  if g.dataHave = g.k then { group := { g with closed := true } }
  else if g.len ≠ 0 ∧ g.dataHave + g.parityHave ≥ g.k then g.recover
  else if idx = g.k + g.m - 1 then g.closeLost
  else { group := g }

def add (g : Group) (idx k m : ℕ) (body : Bytes) : Outcome :=
  if g.closed = true ∨ g.k ≠ k ∨ g.m ≠ m ∨ g.block idx ≠ [] ∨ body = [] then { group := g }
  else
    match g.store idx body with
    | none => { group := g }
    | some (g, now) =>
      let o := g.settle idx
      { o with slices := now ++ o.slices }

end Group

/-! ## The receiver -/

/-- The group header of a stream packet and its body. -/
structure Packet where
  group : BitVec 16
  idx : ℕ
  k : ℕ
  m : ℕ
  body : Bytes
  deriving DecidableEq

structure FecReceiver where
  groups : SortedMap (BitVec 16) Group := ∅
  newest : BitVec 16 := 0
  haveNewest : Bool := false
  recovered : ℤ := 0
  lost : ℤ := 0
  deriving DecidableEq

def kKeepGroups : ℤ := 8

namespace FecReceiver

/-- What a packet of a newer group does to a stored one: close it, and drop it when it is far. -/
def advanceGroup (newest key : BitVec 16) (g : Group) : Option Group :=
  let age := dist newest key
  let g := if age > 0 ∧ g.closed = false then g.closeLost.group else g
  if age > kKeepGroups ∨ age < -kKeepGroups then none else some g

/-- A packet of a newer group means every older group is complete. -/
def advance (s : FecReceiver) (group : BitVec 16) : FecReceiver :=
  { s with
    newest := group
    groups := s.groups.filterMap (advanceGroup group)
    lost := s.lost + (s.groups.entries.map fun e =>
      if dist group e.1 > 0 ∧ e.2.closed = false then e.2.closeLost.lost else 0).sum }

/-- Follow the group numbers; `none` for a packet of a group that is too old. -/
def follow (s : FecReceiver) (group : BitVec 16) : Option FecReceiver :=
  if s.haveNewest then
    let d := dist group s.newest
    if d < -kKeepGroups then none
    else if d > 0 then some (s.advance group)
    else some s
  else some { s with haveNewest := true, newest := group }

/-- The stored group of a number, or a new one. -/
def groupFor (s : FecReceiver) (group : BitVec 16) (k m : ℕ) : Group :=
  let g := (s.groups.get? group).getD {}
  if g.blocks = [] then { g with k := k, m := m, blocks := List.replicate (k + m) [] } else g

def add (s : FecReceiver) (p : Packet) : FecReceiver × List Delivery :=
  if p.k = 0 ∨ p.idx ≥ p.k + p.m then (s, [])
  else
    match s.follow p.group with
    | none => (s, [])
    | some s =>
      let o := (s.groupFor p.group p.k p.m).add p.idx p.k p.m p.body
      ({ s with
          groups := s.groups.insert p.group o.group
          recovered := s.recovered + o.recovered
          lost := s.lost + o.lost }, o.slices)

/-- True while some group may still recover a slice that has not arrived. -/
def hasHoles (s : FecReceiver) : Bool :=
  s.groups.entries.any fun e => !e.2.closed && decide ((e.2.dataHave : ℤ) < e.2.maxData + 1)

/-- The deliveries of a run of packets, each with the packet that caused it. -/
def run (s : FecReceiver) : List Packet → FecReceiver × List (Packet × Delivery)
  | [] => (s, [])
  | p :: ps =>
    let (s', now) := s.add p
    let (s'', later) := run s' ps
    (s'', now.map (p, ·) ++ later)

end FecReceiver

/-! ## What a packet does to its group -/

/-- The indices of the blocks that are there. -/
def presentIn (blocks : List Bytes) : Finset ℕ :=
  (Finset.range blocks.length).filter fun i => blocks.getD i [] ≠ []

theorem mem_presentIn {blocks : List Bytes} {i : ℕ} :
    i ∈ presentIn blocks ↔ i < blocks.length ∧ blocks.getD i [] ≠ [] := by
  simp [presentIn]

theorem getD_set {blocks : List Bytes} {idx : ℕ} (h : idx < blocks.length) (b : Bytes) (i : ℕ) :
    (blocks.set idx b).getD i [] = if i = idx then b else blocks.getD i [] := by
  by_cases hi : i = idx
  · simp [List.getD_eq_getElem?_getD, hi, h]
  · simp [List.getD_eq_getElem?_getD, List.getElem?_set_ne (Ne.symm hi), hi]

theorem presentIn_set {blocks : List Bytes} {idx : ℕ} {b : Bytes} (h : idx < blocks.length)
    (hb : b ≠ []) : presentIn (blocks.set idx b) = insert idx (presentIn blocks) := by
  ext i
  rw [Finset.mem_insert, mem_presentIn, mem_presentIn, getD_set h, List.length_set]
  by_cases hi : i = idx
  · simp [hi, h, hb]
  · simp [hi]

namespace Group

/-- The indices of the packets of the group that have arrived. -/
def present (g : Group) : Finset ℕ := presentIn g.blocks

theorem mem_present {g : Group} {i : ℕ} :
    i ∈ g.present ↔ i < g.blocks.length ∧ g.block i ≠ [] := mem_presentIn

@[simp] theorem present_closed (g : Group) (c : Bool) :
    ({ g with closed := c } : Group).present = g.present := rfl

@[simp] theorem block_closed (g : Group) (c : Bool) (i : ℕ) :
    ({ g with closed := c } : Group).block i = g.block i := rfl

/-- `settle` closes the group or leaves it open, and changes nothing else. -/
theorem settle_group (g : Group) (idx : ℕ) :
    ∃ c, (g.settle idx).group = { g with closed := c } := by
  unfold settle
  split
  · exact ⟨true, rfl⟩
  · split
    · refine ⟨true, ?_⟩
      unfold recover
      dsimp only
      split <;> rfl
    · split
      · exact ⟨true, rfl⟩
      · exact ⟨g.closed, rfl⟩

/-- **What a packet does to its group.** It is refused and changes nothing, or its block is stored
and the group settled. -/
theorem add_cases (g : Group) (idx k m : ℕ) (body : Bytes) :
    g.add idx k m body = { group := g } ∨
    ∃ g' now, g.closed = false ∧ g.k = k ∧ g.m = m ∧ g.block idx = [] ∧ body ≠ [] ∧
      g.store idx body = some (g', now) ∧
      g.add idx k m body = { g'.settle idx with slices := now ++ (g'.settle idx).slices } := by
  unfold add
  split
  · exact .inl rfl
  · next hguard =>
    simp only [not_or, not_not, Bool.not_eq_true, ne_eq] at hguard
    obtain ⟨hc, hk, hm, hb, hbody⟩ := hguard
    cases hs : g.store idx body with
    | none => exact .inl rfl
    | some r => exact .inr ⟨r.1, r.2, hc, hk, hm, hb, hbody, rfl, rfl⟩

/-- What is stored for an accepted packet: the whole body of a data packet, the coded bytes of a
parity packet. -/
theorem store_cases {g g' : Group} {idx : ℕ} {body : Bytes} {now : List Delivery}
    (h : g.store idx body = some (g', now)) :
    (idx < g.k ∧ now = [(idx, body)] ∧
      g' = { g with
        blocks := g.blocks.set idx body
        dataHave := g.dataHave + 1
        maxData := max g.maxData idx }) ∨
    (g.k ≤ idx ∧ now = [] ∧ getLe16 body 8 ≠ 0 ∧
      kSliceHeaderLen + getLe16 body 8 ≤ body.length ∧ (g.len = 0 ∨ g.len = getLe16 body 8) ∧
      g' = { g with
        len := getLe16 body 8
        blocks := g.blocks.set idx ((body.drop kSliceHeaderLen).take (getLe16 body 8))
        parityHave := g.parityHave + 1 }) := by
  unfold store at h
  split at h
  · next hidx =>
    obtain ⟨rfl, rfl⟩ := Prod.mk.inj (Option.some.inj h)
    exact .inl ⟨hidx, rfl, rfl⟩
  · next hidx =>
    split at h
    · simp at h
    · dsimp only at h
      split at h
      · simp at h
      · next hlen =>
        obtain ⟨rfl, rfl⟩ := Prod.mk.inj (Option.some.inj h)
        simp only [not_or, not_lt, not_and, not_not] at hlen
        exact .inr ⟨not_lt.1 hidx, rfl, hlen.1, hlen.2.1, by tauto, rfl⟩

/-- A packet never changes the size of a group. -/
theorem add_k (g : Group) (idx k m : ℕ) (body : Bytes) : (g.add idx k m body).group.k = g.k := by
  rcases g.add_cases idx k m body with heq | ⟨g', now, -, -, -, -, -, hs, heq⟩
  · rw [heq]
  · obtain ⟨c, hc⟩ := g'.settle_group idx
    rw [heq, hc]
    rcases store_cases hs with ⟨-, -, rfl⟩ | ⟨-, -, -, -, -, rfl⟩ <;> rfl

/-- The counters of a group agree with its blocks. -/
structure WF (g : Group) : Prop where
  length : g.blocks.length = g.k + g.m
  dataHave : g.dataHave = (g.present.filter (· < g.k)).card
  parityHave : g.parityHave = (g.present.filter (g.k ≤ ·)).card
  maxData : IsGreatest (insert (-1) {x : ℤ | ∃ i ∈ g.present, i < g.k ∧ x = i}) g.maxData

theorem WF.closed {g : Group} (h : g.WF) (c : Bool) : ({ g with closed := c } : Group).WF :=
  ⟨h.length, h.dataHave, h.parityHave, h.maxData⟩

theorem WF.new (k m : ℕ) :
    ({ k := k, m := m, blocks := List.replicate (k + m) [] } : Group).WF := by
  have hp : presentIn (List.replicate (k + m) []) = ∅ := by
    refine Finset.eq_empty_of_forall_notMem fun i hi => ?_
    obtain ⟨hlt, hne⟩ := mem_presentIn.1 hi
    refine hne ?_
    rw [List.length_replicate] at hlt
    simp [List.getD_eq_getElem?_getD, hlt]
  refine ⟨by simp, ?_, ?_, ?_⟩
  · simp [present, hp]
  · simp [present, hp]
  · simp [present, hp]

theorem WF.store {g g' : Group} {idx : ℕ} {body : Bytes} {now : List Delivery} (h : g.WF)
    (hidx : idx < g.k + g.m) (hempty : g.block idx = []) (hbody : body ≠ [])
    (hs : g.store idx body = some (g', now)) :
    g'.WF ∧ g'.k = g.k ∧ g'.m = g.m ∧ g'.closed = g.closed ∧
      g'.present = insert idx g.present := by
  have hlt : idx < g.blocks.length := h.length ▸ hidx
  have hnot : idx ∉ g.present := fun hm => (mem_present.1 hm).2 hempty
  rcases store_cases hs with ⟨hk, -, rfl⟩ | ⟨hk, -, hne, hle, -, rfl⟩
  · have hp : presentIn (g.blocks.set idx body) = insert idx g.present := presentIn_set hlt hbody
    refine ⟨⟨by simp [h.length], ?_, ?_, ?_⟩, rfl, rfl, rfl, hp⟩
    · show g.dataHave + 1 = ((presentIn (g.blocks.set idx body)).filter (· < g.k)).card
      rw [hp, Finset.filter_insert, if_pos hk, Finset.card_insert_of_notMem (by simp [hnot]),
        h.dataHave]
    · show g.parityHave = ((presentIn (g.blocks.set idx body)).filter (g.k ≤ ·)).card
      rw [hp, Finset.filter_insert, if_neg (by omega), h.parityHave]
    · show IsGreatest (insert (-1) {x : ℤ | ∃ i ∈ presentIn (g.blocks.set idx body),
        i < g.k ∧ x = i}) (max g.maxData idx)
      rw [hp]
      have hset : insert (-1) {x : ℤ | ∃ i ∈ insert idx g.present, i < g.k ∧ x = i} =
          insert (idx : ℤ) (insert (-1) {x : ℤ | ∃ i ∈ g.present, i < g.k ∧ x = i}) := by
        ext x
        simp only [Set.mem_insert_iff, Set.mem_ofPred_eq, Finset.mem_insert]
        constructor
        · rintro (rfl | ⟨i, rfl | hi, hik, rfl⟩)
          · exact .inr (.inl rfl)
          · exact .inl rfl
          · exact .inr (.inr ⟨i, hi, hik, rfl⟩)
        · rintro (rfl | rfl | ⟨i, hi, hik, rfl⟩)
          · exact .inr ⟨idx, .inl rfl, hk, rfl⟩
          · exact .inl rfl
          · exact .inr ⟨i, .inr hi, hik, rfl⟩
      rw [hset, max_comm]
      exact h.maxData.insert _
  · have hcoded : (body.drop kSliceHeaderLen).take (getLe16 body 8) ≠ [] := by
      refine List.ne_nil_of_length_pos ?_
      rw [List.length_take, List.length_drop]
      omega
    have hp : presentIn (g.blocks.set idx ((body.drop kSliceHeaderLen).take (getLe16 body 8))) =
        insert idx g.present := presentIn_set hlt hcoded
    refine ⟨⟨by simp [h.length], ?_, ?_, ?_⟩, rfl, rfl, rfl, hp⟩
    · show g.dataHave = ((presentIn (g.blocks.set idx _)).filter (· < g.k)).card
      rw [hp, Finset.filter_insert, if_neg (by omega), h.dataHave]
    · show g.parityHave + 1 = ((presentIn (g.blocks.set idx _)).filter (g.k ≤ ·)).card
      rw [hp, Finset.filter_insert, if_pos hk, Finset.card_insert_of_notMem (by simp [hnot]),
        h.parityHave]
    · show IsGreatest (insert (-1) {x : ℤ | ∃ i ∈ presentIn (g.blocks.set idx _),
        i < g.k ∧ x = i}) g.maxData
      rw [hp]
      convert h.maxData using 4 with x
      constructor
      · rintro ⟨i, hi, hik, rfl⟩
        rcases Finset.mem_insert.1 hi with rfl | hi
        · omega
        · exact ⟨i, hi, hik, rfl⟩
      · rintro ⟨i, hi, hik, rfl⟩
        exact ⟨i, Finset.mem_insert_of_mem hi, hik, rfl⟩

/-- The packets that have arrived are data or parity packets. -/
theorem WF.card_present {g : Group} (h : g.WF) : g.present.card = g.dataHave + g.parityHave := by
  rw [h.dataHave, h.parityHave, ← Finset.card_filter_add_card_filter_not (fun i => i < g.k)]
  simp

theorem WF.add {g : Group} {idx k m : ℕ} {body : Bytes} (h : g.WF) (hidx : idx < k + m) :
    (g.add idx k m body).group.WF := by
  rcases g.add_cases idx k m body with heq | ⟨g', now, -, rfl, rfl, hempty, hbody, hs, heq⟩
  · rwa [heq]
  · rw [heq]
    obtain ⟨c, hc⟩ := g'.settle_group idx
    show (g'.settle idx).group.WF
    rw [hc]
    exact (h.store hidx hempty hbody hs).1.closed c

end Group

/-! ## What a packet does to the receiver -/

namespace FecReceiver

/-- **What a packet does to the receiver.** It is refused and changes nothing, or the receiver
follows its group number and the packet goes to its group. -/
theorem add_cases (s : FecReceiver) (p : Packet) :
    s.add p = (s, []) ∨
    ∃ s' o, p.k ≠ 0 ∧ p.idx < p.k + p.m ∧ s.follow p.group = some s' ∧
      o = (s'.groupFor p.group p.k p.m).add p.idx p.k p.m p.body ∧
      s.add p = ({ s' with
        groups := s'.groups.insert p.group o.group
        recovered := s'.recovered + o.recovered
        lost := s'.lost + o.lost }, o.slices) := by
  unfold add
  split
  · exact .inl rfl
  · next hguard =>
    cases hf : s.follow p.group with
    | none => exact .inl rfl
    | some s' => exact .inr ⟨s', _, by omega, by omega, rfl, rfl, rfl⟩

/-- **How the receiver follows the group numbers**: the first one is the newest, a newer one
advances, one that is not too old is let in. -/
theorem follow_cases {s s' : FecReceiver} {group : BitVec 16} (h : s.follow group = some s') :
    (s.haveNewest = false ∧ s' = { s with haveNewest := true, newest := group }) ∨
    (s.haveNewest = true ∧ 0 < dist group s.newest ∧ s' = s.advance group) ∨
    (s.haveNewest = true ∧ -8 ≤ dist group s.newest ∧ dist group s.newest ≤ 0 ∧ s' = s) := by
  have h8 : kKeepGroups = 8 := rfl
  unfold follow at h
  split at h
  · next hn =>
    dsimp only at h
    split at h
    · simp at h
    · split at h
      · next hd => exact .inr (.inl ⟨hn, hd, (Option.some.inj h).symm⟩)
      · exact .inr (.inr ⟨hn, by omega, by omega, (Option.some.inj h).symm⟩)
  · next hn => exact .inl ⟨by simpa using hn, (Option.some.inj h).symm⟩

/-- A group that survives an advance is close to the newest one; it may have been closed. -/
theorem advanceGroup_eq_some {newest key : BitVec 16} {g g' : Group}
    (h : advanceGroup newest key g = some g') :
    (-8 ≤ dist newest key ∧ dist newest key ≤ 8) ∧
      (g' = g ∨ g' = { g with closed := true } ∧ 0 < dist newest key) ∧
      (0 < dist newest key → g'.closed = true) := by
  have h8 : kKeepGroups = 8 := rfl
  unfold advanceGroup at h
  dsimp only at h
  split at h
  · simp at h
  · next hage =>
    obtain rfl := Option.some.inj h
    refine ⟨by omega, ?_⟩
    split
    · next hc => exact ⟨.inr ⟨rfl, hc.1⟩, fun _ => rfl⟩
    · next hc => exact ⟨.inl rfl, fun hpos => by simpa [hpos] using hc⟩

/-- Every stored group has correct counters and a number close to the newest one. -/
structure WF (s : FecReceiver) : Prop where
  group : ∀ key g, s.groups.get? key = some g → g.WF ∧ 0 < g.k
  near : ∀ key g, s.groups.get? key = some g → -8 ≤ dist s.newest key ∧ dist s.newest key ≤ 8
  empty : s.haveNewest = false → s.groups = ∅

theorem WF.init : WF {} := ⟨by simp, by simp, fun _ => rfl⟩

theorem WF.follow {s s' : FecReceiver} {group : BitVec 16} (h : s.WF)
    (hf : s.follow group = some s') :
    s'.WF ∧ s'.haveNewest = true ∧ -8 ≤ dist s'.newest group ∧ dist s'.newest group ≤ 8 := by
  rcases follow_cases hf with ⟨hn, rfl⟩ | ⟨hn, hd, rfl⟩ | ⟨hn, hl, hu, rfl⟩
  · have he := h.empty hn
    refine ⟨⟨?_, ?_, by simp⟩, rfl, by simp, by simp⟩
    · simp [he]
    · simp [he]
  · refine ⟨⟨?_, ?_, by simp [advance, hn]⟩, hn, by simp [advance], by simp [advance]⟩
    · intro key g hg
      simp only [advance, SortedMap.get?_filterMap] at hg
      obtain ⟨g₀, hg₀, hadv⟩ := Option.bind_eq_some_iff.1 hg
      obtain ⟨hwf, hk⟩ := h.group key g₀ hg₀
      rcases (advanceGroup_eq_some hadv).2.1 with rfl | ⟨rfl, -⟩
      · exact ⟨hwf, hk⟩
      · exact ⟨hwf.closed true, hk⟩
    · intro key g hg
      simp only [advance, SortedMap.get?_filterMap] at hg
      obtain ⟨g₀, -, hadv⟩ := Option.bind_eq_some_iff.1 hg
      exact (advanceGroup_eq_some hadv).1
  · refine ⟨h, hn, ?_⟩
    rw [Serial.dist_swap (by omega)]
    omega

theorem groupFor_of_some {s : FecReceiver} {group : BitVec 16} {k m : ℕ} {g : Group}
    (hg : s.groups.get? group = some g) (hwf : g.WF) (hk : 0 < g.k) :
    s.groupFor group k m = g := by
  have hne : g.blocks ≠ [] := List.ne_nil_of_length_pos (by rw [hwf.length]; omega)
  simp [groupFor, hg, hne]

theorem groupFor_of_none {s : FecReceiver} {group : BitVec 16} {k m : ℕ}
    (hg : s.groups.get? group = none) :
    s.groupFor group k m = { k := k, m := m, blocks := List.replicate (k + m) [] } := by
  simp [groupFor, hg]

theorem WF.groupFor {s : FecReceiver} (h : s.WF) (group : BitVec 16) {k m : ℕ} (hk : 0 < k) :
    (s.groupFor group k m).WF ∧ 0 < (s.groupFor group k m).k := by
  cases hg : s.groups.get? group with
  | none => rw [groupFor_of_none hg]; exact ⟨Group.WF.new k m, hk⟩
  | some g =>
    obtain ⟨hwf, hkg⟩ := h.group group g hg
    rw [groupFor_of_some hg hwf hkg]
    exact ⟨hwf, hkg⟩

/-- **Whatever packet comes, the counters stay correct and only near groups are kept.** -/
theorem WF.add {s : FecReceiver} (h : s.WF) (p : Packet) : (s.add p).1.WF := by
  rcases s.add_cases p with heq | ⟨s', o, hk, hidx, hf, rfl, heq⟩
  · rwa [heq]
  · rw [heq]
    obtain ⟨hwf, hn, hnear⟩ := h.follow hf
    obtain ⟨hg, hgk⟩ := hwf.groupFor p.group (m := p.m) (Nat.pos_of_ne_zero hk)
    refine ⟨?_, ?_, by simp [hn]⟩
    · intro key g hget
      simp only [SortedMap.get?_insert] at hget
      split at hget
      · obtain rfl := Option.some.inj hget
        refine ⟨hg.add hidx, ?_⟩
        rw [Group.add_k]
        exact hgk
      · exact hwf.group key g hget
    · intro key g hget
      simp only [SortedMap.get?_insert] at hget
      split at hget
      · next hkey => exact hkey ▸ hnear
      · exact hwf.near key g hget

theorem WF.run {s : FecReceiver} (h : s.WF) (ps : List Packet) : (s.run ps).1.WF := by
  induction ps generalizing s with
  | nil => exact h
  | cons p ps ih => exact ih (h.add p)

end FecReceiver

end BambooNet.Tutk
