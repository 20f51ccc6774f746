import BambooNet.Tutk.FecDelivery

/-!
# Runs of the FEC receiver

`slices_delivered_iff` follows one group through any run of packets: its slices are all delivered,
once each, exactly when the last index of the group does not close it too early.
-/

namespace BambooNet.Tutk

open Serial (dist wrap)

namespace FecReceiver

/-! ## One group in a run -/

/-- A packet of this group number is of a newer group than all before. -/
def newer (s : FecReceiver) (group : BitVec 16) : Bool :=
  !s.haveNewest || decide (0 < dist group s.newest)

/-- A packet of this group number is not too old. -/
def Accepts (s : FecReceiver) (group : BitVec 16) : Prop :=
  s.haveNewest = false ∨ -kKeepGroups ≤ dist group s.newest

/-- No packet of another group is newer than all before. -/
def Undisturbed (group : BitVec 16) : FecReceiver → List Packet → Prop
  | _, [] => True
  | s, p :: ps => (p.group = group ∨ s.newer p.group = false) ∧ Undisturbed group (s.add p).1 ps

instance decidableUndisturbed (group : BitVec 16) :
    (s : FecReceiver) → (ps : List Packet) → Decidable (Undisturbed group s ps)
  | _, [] => .isTrue trivial
  | s, p :: ps => @instDecidableAnd _ _ _ (decidableUndisturbed group (s.add p).1 ps)

/-- The indices of the packets of a group, in the order they arrive. -/
def arrived (group : BitVec 16) (ps : List Packet) : List ℕ :=
  (ps.filter (·.group = group)).map (·.idx)

/-- What the packets of a group deliver. -/
def delivered (group : BitVec 16) (trace : List (Packet × Delivery)) : List Delivery :=
  (trace.filter (·.1.group = group)).map (·.2)

@[simp] theorem run_cons_fst (s : FecReceiver) (p : Packet) (ps : List Packet) :
    (s.run (p :: ps)).1 = ((s.add p).1.run ps).1 := rfl

theorem delivered_run_cons (group : BitVec 16) (s : FecReceiver) (p : Packet) (ps : List Packet) :
    delivered group (s.run (p :: ps)).2 =
      (if p.group = group then (s.add p).2 else []) ++
        delivered group ((s.add p).1.run ps).2 := by
  simp only [run, delivered, List.filter_append, List.map_append]
  congr 1
  split
  · next h => simp [List.filter_map, h, Function.comp_def]
  · next h => simp [List.filter_map, h, Function.comp_def]

/-- Following a group number does not touch the group itself. -/
theorem follow_get?_self {s s' : FecReceiver} {group : BitVec 16} (h : s.follow group = some s') :
    s'.groups.get? group = s.groups.get? group ∧ s'.haveNewest = true ∧ s'.Accepts group := by
  have h8 : kKeepGroups = 8 := rfl
  rcases follow_cases h with ⟨-, rfl⟩ | ⟨hn, -, rfl⟩ | ⟨hn, hl, -, rfl⟩
  · refine ⟨rfl, rfl, .inr ?_⟩
    simp [h8]
  · refine ⟨?_, hn, .inr (by simp [advance, h8])⟩
    rw [advance, SortedMap.get?_filterMap]
    cases s.groups.get? group with
    | none => rfl
    | some g => simp [advanceGroup, h8]
  · exact ⟨rfl, hn, .inr (by omega)⟩

theorem exists_follow {s : FecReceiver} {group : BitVec 16} (h : s.Accepts group) :
    ∃ s', s.follow group = some s' := by
  unfold follow
  split
  · next hn =>
    have hd : ¬ dist group s.newest < -kKeepGroups := by
      rcases h with h | h
      · simp [h] at hn
      · omega
    dsimp only
    rw [if_neg hd]
    split <;> exact ⟨_, rfl⟩
  · exact ⟨_, rfl⟩

/-- A packet of a sender's group that is let in goes to its group. -/
theorem add_packet {sg : SentGroup} {s s' : FecReceiver} {group : BitVec 16} {i : ℕ}
    (hi : i < sg.k + sg.m) (hf : s.follow group = some s') :
    s.add (sg.packet group i) =
      let o := (s'.groupFor group sg.k sg.m).add i sg.k sg.m (sg.body i)
      ({ s' with
          groups := s'.groups.insert group o.group
          recovered := s'.recovered + o.recovered
          lost := s'.lost + o.lost }, o.slices) := by
  have hk := sg.k_pos
  have hguard : ¬ (sg.k = 0 ∨ i ≥ sg.k + sg.m) := by omega
  rw [add]
  simp only [SentGroup.packet, hguard, if_false, hf]

/-- A packet of another group that is not newer leaves a group and the newest number alone. -/
theorem add_other {s : FecReceiver} {p : Packet} {group : BitVec 16} (hne : p.group ≠ group)
    (hnew : s.newer p.group = false) :
    (s.add p).1.groups.get? group = s.groups.get? group ∧
      (s.add p).1.newest = s.newest ∧ (s.add p).1.haveNewest = s.haveNewest := by
  rcases s.add_cases p with heq | ⟨s', o, -, -, hf, -, heq⟩
  · rw [heq]
    exact ⟨rfl, rfl, rfl⟩
  · have hs' : s' = s := by
      simp only [newer, Bool.or_eq_false_iff, Bool.not_eq_eq_eq_not, Bool.not_false,
        decide_eq_false_iff_not] at hnew
      rcases follow_cases hf with ⟨hn, -⟩ | ⟨-, hd, -⟩ | ⟨-, -, -, h⟩
      · simp [hnew.1] at hn
      · exact absurd hd hnew.2
      · exact h
    rw [heq, hs']
    exact ⟨by simp [Ne.symm hne], rfl, rfl⟩

/-- The phase of a group that may not have been seen yet. -/
def PhaseOf (sg : SentGroup) (arrived : List ℕ) (given : List Delivery) : Option Group → Prop
  | none => arrived = [] ∧ given = []
  | some g => Phase sg arrived given g

/-- A packet of the group takes it to its next phase. -/
theorem PhaseOf.add {sg : SentGroup} {s : FecReceiver} {group : BitVec 16} {arrived : List ℕ}
    {given : List Delivery} {i : ℕ} (hwf : s.WF) (hacc : s.Accepts group)
    (hi : i < sg.k + sg.m) (h : PhaseOf sg arrived given (s.groups.get? group)) :
    (s.add (sg.packet group i)).1.Accepts group ∧
      PhaseOf sg (arrived ++ [i]) (given ++ (s.add (sg.packet group i)).2)
        ((s.add (sg.packet group i)).1.groups.get? group) := by
  obtain ⟨s', hf⟩ := exists_follow hacc
  obtain ⟨hget, -, hacc'⟩ := follow_get?_self hf
  obtain ⟨hwf', -⟩ := hwf.follow hf
  have hphase : Phase sg arrived given (s'.groupFor group sg.k sg.m) := by
    rw [← hget] at h
    cases hg : s'.groups.get? group with
    | none =>
      rw [hg] at h
      obtain ⟨rfl, rfl⟩ := h
      rw [groupFor_of_none hg]
      exact Phase.new sg
    | some g =>
      rw [hg] at h
      obtain ⟨hgwf, hgk⟩ := hwf'.group group g hg
      rw [groupFor_of_some hg hgwf hgk]
      exact h
  rw [add_packet hi hf]
  refine ⟨hacc', ?_⟩
  rw [SortedMap.get?_insert, if_pos rfl]
  exact hphase.add hi

/-- **One group through a whole run.** -/
theorem phaseOf_run {sg : SentGroup} {group : BitVec 16} (ps : List Packet) {s : FecReceiver}
    {before : List ℕ} {given : List Delivery} (hwf : s.WF) (hacc : s.Accepts group)
    (hown : ∀ p ∈ ps, p.group = group → ∃ i < sg.k + sg.m, p = sg.packet group i)
    (hund : Undisturbed group s ps) (h : PhaseOf sg before given (s.groups.get? group)) :
    PhaseOf sg (before ++ arrived group ps) (given ++ delivered group (s.run ps).2)
      ((s.run ps).1.groups.get? group) := by
  induction ps generalizing s before given with
  | nil => simpa [arrived, delivered, run] using h
  | cons p ps ih =>
    obtain ⟨hp, hund'⟩ := hund
    have hown' : ∀ q ∈ ps, q.group = group → ∃ i < sg.k + sg.m, q = sg.packet group i :=
      fun q hq => hown q (List.mem_cons_of_mem _ hq)
    rw [delivered_run_cons, ← List.append_assoc]
    by_cases hg : p.group = group
    · obtain ⟨i, hi, rfl⟩ := hown p List.mem_cons_self hg
      obtain ⟨hacc', hphase⟩ := PhaseOf.add hwf hacc hi h
      have := ih (hwf.add _) hacc' hown' hund' hphase
      rw [if_pos hg]
      simpa [arrived, hg, SentGroup.packet] using this
    · obtain ⟨hget, hnewest, hhave⟩ := add_other hg (hp.resolve_left hg)
      have hacc' : (s.add p).1.Accepts group := by rwa [Accepts, hnewest, hhave]
      have := ih (hwf.add p) hacc' hown' hund' (hget ▸ h)
      rw [if_neg hg, List.append_nil]
      simpa [arrived, hg] using this

/-- The slices among deliveries, cut to header and payload. -/
def slicesOf (given : List Delivery) : List Bytes := given.map fun d => trim d.2

theorem slicesOf_slices (sg : SentGroup) : slicesOf sg.slices = sg.bodies.map trim := by
  have hbodies : (List.range sg.k).map sg.body = sg.bodies := by
    refine List.ext_getElem (by simp [SentGroup.k]) fun i hi _ => ?_
    have hi' : i < sg.k := by simpa using hi
    rw [List.getElem_map, List.getElem_range, SentGroup.body_of_lt hi']
    rfl
  conv_rhs => rw [← hbodies, List.map_map]
  rw [slicesOf, SentGroup.slices, List.map_map]
  exact List.map_congr_left fun i _ => trim_trim _

theorem slicesOf_perm_iff {sg : SentGroup} {arrived : List ℕ} {given : List Delivery} {g : Group}
    (h : Phase sg arrived given g) (hk : sg.k ≤ arrived.toFinset.card) :
    (slicesOf given).Perm (sg.bodies.map trim) ↔ InTime sg arrived := by
  cases h with
  | collecting _ _ _ _ hlt => omega
  | complete _ hin _ hgiven =>
    refine iff_of_true ?_ hin
    have hcut : slicesOf (given.map cut) = slicesOf given := by simp [slicesOf, cut]
    rw [← slicesOf_slices, ← hcut]
    exact hgiven.map _
  | cutOff _ hin hlen =>
    refine iff_of_false (fun hperm => ?_) hin
    have := hperm.length_eq
    rw [slicesOf, List.length_map, List.length_map] at this
    exact absurd this (Nat.ne_of_lt hlen)

/-- **A group is delivered exactly when its last index does not come too early.** Start from any
history in which the group has not been seen and is not too old, and let at least `k` of its
packets arrive, in any order, with duplicates, among packets of groups that are not newer. Then
the slices of all its data packets are handed on, once each and as they were sent, if and only if
the packet with index `k + m - 1` does not arrive before `k - 1` others have. -/
theorem slices_delivered_iff (sg : SentGroup) (group : BitVec 16) (before ps : List Packet)
    (hnew : (run {} before).1.groups.get? group = none)
    (hacc : (run {} before).1.Accepts group)
    (hown : ∀ p ∈ ps, p.group = group → ∃ i < sg.k + sg.m, p = sg.packet group i)
    (hund : Undisturbed group (run {} before).1 ps)
    (hk : sg.k ≤ (arrived group ps).toFinset.card) :
    (slicesOf (delivered group ((run {} before).1.run ps).2)).Perm (sg.bodies.map trim) ↔
      InTime sg (arrived group ps) := by
  have hphase := @phaseOf_run _ _ ps _ [] [] (WF.init.run before) hacc hown hund
    (by rw [hnew]; exact ⟨rfl, rfl⟩)
  simp only [List.nil_append] at hphase
  cases hg : (((run {} before).1.run ps).1.groups.get? group) with
  | none =>
    rw [hg] at hphase
    have hkpos := sg.k_pos
    rw [hphase.1] at hk
    simp at hk
    omega
  | some g =>
    rw [hg] at hphase
    exact slicesOf_perm_iff hphase hk

/-! ## The last index first -/

/-- Slice `i` of a keyframe of two slices of one byte. -/
def pairBody (i : UInt8) : Bytes :=
  [5, if i = 1 then 1 else 0, 0, 0, 2, 0, 0, 0, 1, 0, 0, 0, 9, 0, 0, 0, 0, 0, 0, 0, 0xa0 + i]

/-- Two data packets and a parity packet. -/
def pairGroup : SentGroup :=
  .ofBodies [pairBody 0, pairBody 1] 1 21 (by decide) (by decide) (by decide) (by decide)
    oneByte_fits

/-- All three packets arrive, the parity packet first, and nothing is delivered. -/
theorem pairGroup_lost :
    ¬ (slicesOf (delivered 7 ((run {} []).1.run ([2, 0, 1].map (pairGroup.packet 7))).2)).Perm
      (pairGroup.bodies.map trim) := by
  intro h
  have := h.length_eq
  revert this
  decide

theorem slices_delivered_of_parity :
    (slicesOf (delivered 7 ((run {} []).1.run ([1, 2].map (pairGroup.packet 7))).2)).Perm
      (pairGroup.bodies.map trim) :=
  (slices_delivered_iff pairGroup 7 [] ([1, 2].map (pairGroup.packet 7)) rfl (.inl rfl)
    (by
      intro p hp _
      obtain ⟨i, hi, rfl⟩ := List.mem_map.1 hp
      exact ⟨i, by fin_cases hi <;> decide, rfl⟩)
    (by decide) (by decide)).2 (by
      show InTime pairGroup ([1] ++ [2])
      exact inTime_concat.2 ⟨inTime_of_not_mem (by decide), fun _ => by decide⟩)

/-! ## Whole runs -/

/-- Feed the receiver packets of a sender, each given by the number of its group before wrapping
and its index; the deliveries keep the number of their group. -/
def sentRun (sender : ℤ → SentGroup) (s : FecReceiver) :
    List (ℤ × ℕ) → FecReceiver × List (ℤ × Delivery)
  | [] => (s, [])
  | p :: ps =>
    let (s', now) := s.add ((sender p.1).packet (wrap 16 p.1) p.2)
    let (s'', later) := sentRun sender s' ps
    (s'', now.map (p.1, ·) ++ later)

/-- Every slice is delivered at most once, with the header and payload that were sent. -/
def DeliversSafely (sender : ℤ → SentGroup) (trace : List (ℤ × Delivery)) : Prop :=
  (trace.map fun d => (d.1, d.2.1)).Nodup ∧
    ∀ d ∈ trace, d.2.1 < (sender d.1).k ∧ trim d.2.2 = trim ((sender d.1).body d.2.1)

/-- The group numbers stay within half their range of the highest one received so far. -/
def InWindow : Option ℤ → List (ℤ × ℕ) → Prop
  | _, [] => True
  | none, p :: ps => InWindow (some p.1) ps
  | some top, p :: ps => -32768 ≤ p.1 - top ∧ p.1 - top < 32768 ∧ InWindow (some (max top p.1)) ps

/-- The receiver when `top` is the highest group number received and `trace` was delivered. -/
structure Upto (sender : ℤ → SentGroup) (top : ℤ) (s : FecReceiver)
    (trace : List (ℤ × Delivery)) : Prop where
  wf : s.WF
  have_newest : s.haveNewest = true
  newest : s.newest = wrap 16 top
  stored : ∀ key g, s.groups.get? key = some g → ∃ u, top - 8 ≤ u ∧ u ≤ top ∧ key = wrap 16 u ∧
    g.Agrees (sender u) ∧ (g.closed = false → ∀ d ∈ trace, d.1 = u → d.2.1 ∈ g.present)
  unseen : ∀ u, top - 8 ≤ u → u ≤ top → s.groups.get? (wrap 16 u) = none → ∀ d ∈ trace, d.1 ≠ u
  past : ∀ d ∈ trace, d.1 ≤ top
  safe : DeliversSafely sender trace

/-- Group numbers at most eight apart are told apart. -/
theorem wrap_inj_near {top u v : ℤ} (hu : top - 8 ≤ u) (hu' : u ≤ top) (hv : top - 8 ≤ v)
    (hv' : v ≤ top) (h : wrap 16 u = wrap 16 v) : u = v :=
  Serial.wrap_inj (by norm_num; omega) (by norm_num; omega) h

/-- A newer group number moves the window and closes what is left behind. -/
theorem Upto.advance {sender : ℤ → SentGroup} {top u : ℤ} {s : FecReceiver}
    {trace : List (ℤ × Delivery)} (h : Upto sender top s trace) (hlt : top < u)
    (hwin : u - top < 32768) (hwf : (s.advance (wrap 16 u)).WF) :
    Upto sender u (s.advance (wrap 16 u)) trace := by
  have hget (key : BitVec 16) : (s.advance (wrap 16 u)).groups.get? key =
      (s.groups.get? key).bind (advanceGroup (wrap 16 u) key) := SortedMap.get?_filterMap _ _ _
  refine ⟨hwf, h.have_newest, rfl, ?_, ?_, fun d hd => (h.past d hd).trans hlt.le, h.safe⟩
  · intro key g hg
    rw [hget] at hg
    obtain ⟨g₀, hg₀, hadv⟩ := Option.bind_eq_some_iff.1 hg
    obtain ⟨v, hv, hv', rfl, hag, -⟩ := h.stored key g₀ hg₀
    obtain ⟨hnear, hg', hclosed⟩ := advanceGroup_eq_some hadv
    have hdist : dist (wrap 16 u) (wrap 16 v) = u - v := by
      by_cases hfar : u - v < 32768
      · exact Serial.dist_wrap (by norm_num; omega) (by norm_num; omega)
      · -- so far behind that the distance wraps: such a group is not kept
        have hwrap : dist (wrap 16 u) (wrap 16 v) = u - 2 ^ 16 - v := by
          rw [← Serial.wrap_sub_two_pow (w := 16) u]
          exact Serial.dist_wrap (by norm_num; omega) (by norm_num; omega)
        norm_num at hwrap
        omega
    refine ⟨v, by omega, by omega, rfl, ?_, ?_⟩
    · rcases hg' with rfl | ⟨rfl, -⟩
      · exact hag
      · exact hag.closed true
    · intro hopen
      rw [hclosed (by omega)] at hopen
      simp at hopen
  · intro v hv hv' hnone d hd heq
    have hdt := h.past d hd
    rw [hget] at hnone
    cases hg : s.groups.get? (wrap 16 v) with
    | none => exact h.unseen v (by omega) (by omega) hg d hd heq
    | some g =>
      have hdist : dist (wrap 16 u) (wrap 16 v) = u - v :=
        Serial.dist_wrap (by norm_num; omega) (by norm_num; omega)
      have h8 : kKeepGroups = 8 := rfl
      have hkeep : ¬ (u - v > kKeepGroups ∨ u - v < -kKeepGroups) := by omega
      rw [hg] at hnone
      simp [advanceGroup, hdist, hkeep] at hnone

/-- The stored or new group of a packet: it agrees with the sender's, and what was delivered of it
while it is open is there. -/
theorem Upto.groupFor {sender : ℤ → SentGroup} {top u : ℤ} {s : FecReceiver}
    {trace : List (ℤ × Delivery)} (h : Upto sender top s trace) (hu : top - 8 ≤ u) (hu' : u ≤ top) :
    (s.groupFor (wrap 16 u) (sender u).k (sender u).m).WF ∧
      (s.groupFor (wrap 16 u) (sender u).k (sender u).m).Agrees (sender u) ∧
      ((s.groupFor (wrap 16 u) (sender u).k (sender u).m).closed = false → ∀ d ∈ trace,
        d.1 = u → d.2.1 ∈ (s.groupFor (wrap 16 u) (sender u).k (sender u).m).present) := by
  cases hg : s.groups.get? (wrap 16 u) with
  | none =>
    rw [groupFor_of_none hg]
    exact ⟨Group.WF.new _ _, Group.Agrees.new _,
      fun _ d hd heq => absurd heq (h.unseen u hu hu' hg d hd)⟩
  | some g =>
    obtain ⟨hwf, hk⟩ := h.wf.group _ g hg
    obtain ⟨v, hv, hv', hkey, hag, hopen⟩ := h.stored _ g hg
    obtain rfl := wrap_inj_near hu hu' hv hv' hkey
    rw [groupFor_of_some hg hwf hk]
    exact ⟨hwf, hag, hopen⟩

/-- What a packet adds to a safe trace: slices of its group that were not delivered yet. -/
theorem safe_append {sender : ℤ → SentGroup} {trace : List (ℤ × Delivery)} {u : ℤ}
    {now : List Delivery} (h : DeliversSafely sender trace) (hnodup : (now.map (·.1)).Nodup)
    (hnew : ∀ d ∈ now, ∀ e ∈ trace, e.1 = u → e.2.1 ≠ d.1)
    (hright : ∀ d ∈ now, d.1 < (sender u).k ∧ trim d.2 = trim ((sender u).body d.1)) :
    DeliversSafely sender (trace ++ now.map (u, ·)) := by
  refine ⟨?_, ?_⟩
  · rw [List.map_append, List.nodup_append]
    refine ⟨h.1, ?_, ?_⟩
    · rw [List.map_map]
      have : ((fun d : ℤ × Delivery => (d.1, d.2.1)) ∘ fun d => (u, d)) =
          (fun i : ℕ => (u, i)) ∘ fun d : Delivery => d.1 := rfl
      rw [this, ← List.map_map]
      exact hnodup.map fun a b hab => (Prod.mk.inj hab).2
    · intro a ha b hb hab
      obtain ⟨e, he, rfl⟩ := List.mem_map.1 ha
      obtain ⟨x, hx, rfl⟩ := List.mem_map.1 hb
      obtain ⟨d, hd, rfl⟩ := List.mem_map.1 hx
      obtain ⟨h1, h2⟩ := Prod.mk.inj hab
      exact hnew d hd e he h1 h2
  · intro d hd
    rcases List.mem_append.1 hd with hd | hd
    · exact h.2 d hd
    · obtain ⟨x, hx, rfl⟩ := List.mem_map.1 hd
      exact hright x hx

/-- **A packet near the newest group delivers slices once and as they were sent.** -/
theorem Upto.deliver {sender : ℤ → SentGroup} {top u : ℤ} {s s' : FecReceiver} {i : ℕ}
    {trace : List (ℤ × Delivery)} {o : Outcome} (h : Upto sender top s trace)
    (hu : top - 8 ≤ u) (hu' : u ≤ top) (hi : i < (sender u).k + (sender u).m)
    (ho : o = (s.groupFor (wrap 16 u) (sender u).k (sender u).m).add i (sender u).k (sender u).m
      ((sender u).body i))
    (hs' : s'.groups = s.groups.insert (wrap 16 u) o.group) (hnewest : s'.newest = s.newest)
    (hhave : s'.haveNewest = s.haveNewest) (hwf' : s'.WF) :
    Upto sender top s' (trace ++ o.slices.map (u, ·)) := by
  obtain ⟨hwf, hag, hopen⟩ := h.groupFor hu hu'
  set g := s.groupFor (wrap 16 u) (sender u).k (sender u).m with hgdef
  -- what remains is about the packet's own group
  suffices hown : o.group.Agrees (sender u) ∧
      (o.group.closed = false → ∀ d ∈ trace ++ o.slices.map (u, ·), d.1 = u →
        d.2.1 ∈ o.group.present) ∧ DeliversSafely sender (trace ++ o.slices.map (u, ·)) by
    refine ⟨hwf', by rw [hhave, h.have_newest], by rw [hnewest, h.newest], ?_, ?_, ?_, hown.2.2⟩
    · intro key g' hg'
      rw [hs', SortedMap.get?_insert] at hg'
      split at hg'
      · next hkey =>
        obtain rfl := Option.some.inj hg'
        exact ⟨u, hu, hu', hkey, hown.1, hown.2.1⟩
      · next hkey =>
        obtain ⟨v, hv, hv', rfl, hag', hopen'⟩ := h.stored key g' hg'
        refine ⟨v, hv, hv', rfl, hag', fun hc d hd hdv => ?_⟩
        rcases List.mem_append.1 hd with hd | hd
        · exact hopen' hc d hd hdv
        · obtain ⟨x, -, rfl⟩ := List.mem_map.1 hd
          exact absurd (congrArg (wrap 16) hdv.symm) hkey
    · intro v hv hv' hnone d hd
      rw [hs', SortedMap.get?_insert] at hnone
      split at hnone
      · simp at hnone
      · next hkey =>
        rcases List.mem_append.1 hd with hd | hd
        · exact h.unseen v hv hv' hnone d hd
        · obtain ⟨x, -, rfl⟩ := List.mem_map.1 hd
          rintro rfl
          exact hkey rfl
    · intro d hd
      rcases List.mem_append.1 hd with hd | hd
      · exact h.past d hd
      · obtain ⟨x, -, rfl⟩ := List.mem_map.1 hd
        exact hu'
  by_cases hold : g.closed = true ∨ i ∈ g.present
  · rw [ho, Group.add_old hold]
    rw [List.map_nil, List.append_nil]
    exact ⟨hag, hopen, h.safe⟩
  · simp only [not_or, Bool.not_eq_true] at hold
    obtain ⟨hc, hnew⟩ := hold
    obtain ⟨g', -, hag', hp', hc', hgroup, hslices⟩ := Group.add_own hwf hag hc hi hnew
    have hmem_missing (d : Delivery) (hd : d ∈ (sender u).missing g'.present) :
        d.1 < (sender u).k ∧ d.1 ∉ g'.present ∧ d.2 = trim ((sender u).body d.1) := by
      obtain ⟨j, hj, rfl⟩ := List.mem_map.1 hd
      obtain ⟨hj, hjp⟩ := List.mem_filter.1 hj
      exact ⟨List.mem_range.1 hj, by simpa using hjp, rfl⟩
    have hcases (d : Delivery) (hd : d ∈ o.slices) :
        d = (i, (sender u).body i) ∧ i < (sender u).k ∨
          d ∈ (sender u).missing g'.present ∧ (sender u).k ≤ g'.present.card := by
      rw [ho, hslices] at hd
      rcases List.mem_append.1 hd with hd | hd
      · split at hd
        · next hk => exact .inl ⟨List.mem_singleton.1 hd, hk⟩
        · simp at hd
      · split at hd
        · next hk => exact .inr ⟨hd, hk⟩
        · simp at hd
    have hgo : o.group = g' := by rw [ho, hgroup]
    refine ⟨hgo ▸ hag', ?_, safe_append h.safe ?_ ?_ ?_⟩
    · intro hopen' d hd hdu
      rw [hgo, hp'] at *
      rcases List.mem_append.1 hd with hd | hd
      · exact Finset.mem_insert_of_mem (hopen hc d hd hdu)
      · obtain ⟨x, hx, rfl⟩ := List.mem_map.1 hd
        rcases hcases x hx with ⟨rfl, -⟩ | ⟨-, hk⟩
        · exact Finset.mem_insert_self _ _
        · rw [hc'] at hopen'
          simp [hk] at hopen'
    · rw [ho, hslices, List.map_append, List.nodup_append]
      refine ⟨by split <;> simp, ?_, ?_⟩
      · split
        · rw [SentGroup.missing, List.map_map]
          exact (List.nodup_range.filter _).map fun a b hab => hab
        · simp
      · intro a ha b hb
        split at ha
        · split at hb
          · obtain rfl : a = i := by simpa using ha
            obtain ⟨d, hd, rfl⟩ := List.mem_map.1 hb
            rintro rfl
            exact (hmem_missing d hd).2.1 (hp' ▸ Finset.mem_insert_self _ _)
          · simp at hb
        · simp at ha
    · intro d hd e he heu heq
      have hin := hopen hc e he heu
      rw [heq] at hin
      rcases hcases d hd with ⟨rfl, -⟩ | ⟨hd, -⟩
      · exact hnew hin
      · exact (hmem_missing d hd).2.1 (hp' ▸ Finset.mem_insert_of_mem hin)
    · intro d hd
      rcases hcases d hd with ⟨rfl, hk⟩ | ⟨hd, -⟩
      · exact ⟨hk, rfl⟩
      · obtain ⟨hk, -, hb⟩ := hmem_missing d hd
        exact ⟨hk, by rw [hb, trim_trim]⟩

/-- The first packet of a run opens the window. -/
theorem Upto.first (sender : ℤ → SentGroup) (u : ℤ) :
    Upto sender u { haveNewest := true, newest := wrap 16 u } [] where
  wf := ⟨by simp, by simp, by simp⟩
  have_newest := rfl
  newest := rfl
  stored := by simp
  unseen := by simp
  past := by simp
  safe := ⟨by simp, by simp⟩

/-- Following the number of a packet in the window. -/
theorem Upto.follow {sender : ℤ → SentGroup} {top u : ℤ} {s s' : FecReceiver}
    {trace : List (ℤ × Delivery)} (h : Upto sender top s trace) (hl : -32768 ≤ u - top)
    (hr : u - top < 32768) (hf : s.follow (wrap 16 u) = some s') :
    Upto sender (max top u) s' trace ∧ max top u - 8 ≤ u := by
  have hdist : dist (wrap 16 u) s.newest = u - top := by
    rw [h.newest]
    exact Serial.dist_wrap (by norm_num; omega) (by norm_num; omega)
  rcases follow_cases hf with ⟨hn, -⟩ | ⟨-, hd, rfl⟩ | ⟨-, hd, hd', rfl⟩
  · simp [h.have_newest] at hn
  · rw [max_eq_right (by omega)]
    exact ⟨h.advance (by omega) hr (h.wf.follow hf).1, by omega⟩
  · rw [max_eq_left (by omega)]
    exact ⟨h, by omega⟩

theorem Upto.add {sender : ℤ → SentGroup} {top u : ℤ} {s : FecReceiver} {i : ℕ}
    {trace : List (ℤ × Delivery)} (h : Upto sender top s trace) (hl : -32768 ≤ u - top)
    (hr : u - top < 32768) (hi : i < (sender u).k + (sender u).m) :
    Upto sender (max top u) (s.add ((sender u).packet (wrap 16 u) i)).1
      (trace ++ (s.add ((sender u).packet (wrap 16 u) i)).2.map (u, ·)) := by
  have hwf := h.wf.add ((sender u).packet (wrap 16 u) i)
  cases hf : s.follow (wrap 16 u) with
  | none =>
    have hadd : s.add ((sender u).packet (wrap 16 u) i) = (s, []) := by
      unfold FecReceiver.add
      split
      · rfl
      · simp [SentGroup.packet, hf]
    have hlow : u ≤ top := by
      by_contra hlt
      have hacc : s.Accepts (wrap 16 u) := .inr (by
        rw [h.newest, Serial.dist_wrap (by norm_num; omega) (by norm_num; omega)]
        have : kKeepGroups = 8 := rfl
        omega)
      obtain ⟨s', hs'⟩ := exists_follow hacc
      rw [hf] at hs'
      simp at hs'
    rw [hadd, max_eq_left hlow]
    simpa using h
  | some s' =>
    obtain ⟨h', hnear⟩ := h.follow hl hr hf
    rw [add_packet hi hf] at hwf ⊢
    exact h'.deliver hnear (le_max_right _ _) hi rfl rfl rfl rfl hwf

theorem Upto.run {sender : ℤ → SentGroup} (ps : List (ℤ × ℕ)) {top : ℤ} {s : FecReceiver}
    {trace : List (ℤ × Delivery)} (h : Upto sender top s trace)
    (hidx : ∀ p ∈ ps, p.2 < (sender p.1).k + (sender p.1).m) (hwin : InWindow (some top) ps) :
    ∃ top', Upto sender top' (sentRun sender s ps).1 (trace ++ (sentRun sender s ps).2) := by
  induction ps generalizing top s trace with
  | nil => exact ⟨top, by simpa [sentRun] using h⟩
  | cons p ps ih =>
    obtain ⟨hl, hr, hwin'⟩ := hwin
    have := ih (h.add hl hr (hidx p List.mem_cons_self))
      (fun q hq => hidx q (List.mem_cons_of_mem _ hq)) hwin'
    simpa [sentRun] using this

/-- **Slices are delivered safely.** For every run of packets whose group numbers, before wrapping,
stay within half the 16-bit range of the highest one received so far, in any order and with any
losses and duplicates: every slice is delivered at most once, with the header and payload that
were sent. The counters are correct and every stored group is near the newest one. -/
theorem delivers_safely (sender : ℤ → SentGroup) (ps : List (ℤ × ℕ))
    (hidx : ∀ p ∈ ps, p.2 < (sender p.1).k + (sender p.1).m) (hwin : InWindow none ps) :
    DeliversSafely sender (sentRun sender {} ps).2 ∧ (sentRun sender {} ps).1.WF := by
  cases ps with
  | nil => exact ⟨⟨List.nodup_nil, by simp [sentRun]⟩, WF.init⟩
  | cons p ps =>
    have hfirst := Upto.first sender p.1
    have hi := hidx p List.mem_cons_self
    -- the initial receiver follows its first packet as one that has just seen this group number
    have hadd : FecReceiver.add {} ((sender p.1).packet (wrap 16 p.1) p.2) =
        FecReceiver.add { haveNewest := true, newest := wrap 16 p.1 }
          ((sender p.1).packet (wrap 16 p.1) p.2) := by
      rw [@add_packet _ _ { haveNewest := true, newest := wrap 16 p.1 } _ _ hi rfl,
        @add_packet _ _ { haveNewest := true, newest := wrap 16 p.1 } _ _ hi]
      simp [FecReceiver.follow, kKeepGroups]
    have hstep := hfirst.add (u := p.1) (by omega) (by omega) hi
    rw [max_self, ← hadd] at hstep
    obtain ⟨top, h⟩ := hstep.run ps (fun q hq => hidx q (List.mem_cons_of_mem _ hq)) hwin
    exact ⟨by simpa [sentRun] using h.safe, by simpa [sentRun] using h.wf⟩

/-- A sender of one-packet groups. -/
def single : SentGroup where
  bodies := [[5, 1, 0, 0, 1, 0, 0, 0, 1, 0, 0, 0, 9, 0, 0, 0, 0, 0, 0, 0, 0xa0]]
  parity := []
  len := 21
  nonempty := by decide
  size := by decide
  slice := by decide
  fits := by decide
  coded := by decide

/-- A duplicate that comes back once the group numbers are half the range ahead is taken for a
packet of a newer group and delivered again, although no group number was used twice. -/
theorem late_duplicate_delivered_twice :
    ¬ DeliversSafely (fun _ => single)
      (sentRun (fun _ => single) {} [(0, 0), (9, 0), (32776, 0), (0, 0)]).2 := by
  intro h
  have := h.1
  revert this
  decide

theorem delivers_safely_reordered :
    DeliversSafely (fun _ => single) (sentRun (fun _ => single) {} [(5, 0), (3, 0), (5, 0)]).2 ∧
      (sentRun (fun _ => single) {} [(5, 0), (3, 0), (5, 0)]).1.WF :=
  delivers_safely (fun _ => single) [(5, 0), (3, 0), (5, 0)] (by decide)
    ⟨by decide, by decide, by decide, by decide, trivial⟩

end FecReceiver

end BambooNet.Tutk
