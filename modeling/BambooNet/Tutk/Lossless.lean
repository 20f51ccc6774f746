import BambooNet.Tutk.Framed

/-!
# Lossless video

A frame queue behind the FEC receiver, on a stream whose packets arrive in order and in which no
group loses more packets than it has parity packets.

`Stage` is the receiver after some packets of a group: every group before is closed (`FecAt`), and
the queue holds what has arrived (`Holds`). `Stage.receive` takes it through one more packet, and
`lossless` through a whole session.
-/

namespace BambooNet.Tutk

open Serial (dist wrap)
open Concat (At start len)

/-! ## The FEC receiver, group after group -/

/-- The FEC receiver when the groups before number `u` are closed and the packets `as` of group `u`
have arrived. -/
structure FecAt (s : FecReceiver) (u : ℤ) (sg : SentGroup) (as : List ℕ) : Prop where
  wf : s.WF
  newest : s.haveNewest = true → s.newest = wrap 16 (if as = [] then u - 1 else u)
  old : ∀ key g, s.groups.get? key = some g → key ≠ wrap 16 u →
    g.closed = true ∧ ∃ v, u - 9 ≤ v ∧ v < u ∧ key = wrap 16 v
  unseen : as = [] → s.groups.get? (wrap 16 u) = none
  own : as ≠ [] → s.haveNewest = true ∧ ∃ g, s.groups.get? (wrap 16 u) = some g ∧ g.Agrees sg ∧
    g.closed = decide (sg.k ≤ as.length) ∧ (g.closed = false → g.present = as.toFinset)

namespace FecAt

variable {s : FecReceiver} {u : ℤ} {sg : SentGroup} {as : List ℕ}

theorem init (u : ℤ) (sg : SentGroup) : FecAt {} u sg [] :=
  ⟨.init, by simp, by simp, fun _ => rfl, fun h => absurd rfl h⟩

/-- The next packet of the group is let in, and nothing of the group is touched. -/
theorem follow (h : FecAt s u sg as) : ∃ s', s.follow (wrap 16 u) = some s' ∧ s'.WF ∧
    s'.haveNewest = true ∧ s'.newest = wrap 16 u ∧
    s'.groups.get? (wrap 16 u) = s.groups.get? (wrap 16 u) ∧
    ∀ key g, s'.groups.get? key = some g → key ≠ wrap 16 u →
      g.closed = true ∧ ∃ v, u - 9 ≤ v ∧ v < u ∧ key = wrap 16 v := by
  have hdist (hn : s.haveNewest = true) :
      dist (wrap 16 u) s.newest = if as = [] then 1 else 0 := by
    rw [h.newest hn]
    split
    · rw [Serial.dist_wrap] <;> norm_num
    · exact Serial.dist_self _
  have hacc : s.Accepts (wrap 16 u) := by
    have h8 : kKeepGroups = 8 := rfl
    by_cases hn : s.haveNewest = true
    · right
      rw [hdist hn]
      split <;> omega
    · exact .inl (by simpa using hn)
  obtain ⟨s', hf⟩ := FecReceiver.exists_follow hacc
  obtain ⟨hget, hhave, -⟩ := FecReceiver.follow_get?_self hf
  refine ⟨s', hf, (h.wf.follow hf).1, hhave, ?_, hget, ?_⟩
  · rcases FecReceiver.follow_cases hf with ⟨-, rfl⟩ | ⟨-, -, rfl⟩ | ⟨hn, -, hle, rfl⟩
    · rfl
    · rfl
    · rw [hdist hn] at hle
      rw [h.newest hn]
      split at hle
      · omega
      · next hne => rw [if_neg hne]
  · intro key g hg hkey
    rcases FecReceiver.follow_cases hf with ⟨-, rfl⟩ | ⟨-, -, rfl⟩ | ⟨-, -, -, rfl⟩
    · exact h.old key g hg hkey
    · rw [FecReceiver.advance, SortedMap.get?_filterMap] at hg
      obtain ⟨g₀, hg₀, hadv⟩ := Option.bind_eq_some_iff.1 hg
      obtain ⟨hclosed, hv⟩ := h.old key g₀ hg₀ hkey
      refine ⟨?_, hv⟩
      rcases (FecReceiver.advanceGroup_eq_some hadv).2.1 with rfl | ⟨rfl, -⟩
      · exact hclosed
      · rfl
    · exact h.old key g hg hkey

/-- The stored or new group of the next packet. -/
theorem groupFor {s' : FecReceiver} (h : FecAt s u sg as)
    (hget : s'.groups.get? (wrap 16 u) = s.groups.get? (wrap 16 u)) :
    (s'.groupFor (wrap 16 u) sg.k sg.m).WF ∧ (s'.groupFor (wrap 16 u) sg.k sg.m).Agrees sg ∧
      (s'.groupFor (wrap 16 u) sg.k sg.m).closed = decide (sg.k ≤ as.length) ∧
      ((s'.groupFor (wrap 16 u) sg.k sg.m).closed = false →
        (s'.groupFor (wrap 16 u) sg.k sg.m).present = as.toFinset) := by
  by_cases has : as = []
  · have hk := sg.k_pos
    rw [FecReceiver.groupFor_of_none (hget.trans (h.unseen has))]
    refine ⟨Group.WF.new _ _, Group.Agrees.new _, ?_, fun _ => ?_⟩
    · simp [has]
      omega
    · cases Phase.new sg with
      | collecting _ _ _ hp _ _ _ => exact hp.trans (by simp [has])
      | complete hc _ _ _ => simp at hc
      | cutOff hc _ _ => simp at hc
  · obtain ⟨-, g, hg, hag, hclosed, hp⟩ := h.own has
    obtain ⟨hgwf, hgk⟩ := h.wf.group _ g hg
    rw [FecReceiver.groupFor_of_some (hget.trans hg) hgwf hgk]
    exact ⟨hgwf, hag, hclosed, hp⟩

/-- What the packet with index `i` delivers after the packets `as` of its group. -/
def given (sg : SentGroup) (as : List ℕ) (i : ℕ) : List Delivery :=
  if sg.k ≤ as.length then []
  else (if i < sg.k then [(i, sg.body i)] else []) ++
    if sg.k ≤ as.length + 1 then sg.missing (insert i as.toFinset) else []

/-- **One more packet of the group**, which is not there yet and does not close the group early. -/
theorem add {i : ℕ} (h : FecAt s u sg as) (hi : i < sg.k + sg.m) (hnew : i ∉ as)
    (hnodup : as.Nodup) (hlast : i = sg.k + sg.m - 1 → sg.k ≤ as.length + 1) :
    FecAt (s.add (sg.packet (wrap 16 u) i)).1 u sg (as ++ [i]) ∧
      (s.add (sg.packet (wrap 16 u) i)).2 = given sg as i := by
  obtain ⟨s', hf, -, hhave, hnewest, hget, hold⟩ := h.follow
  obtain ⟨hgwf, hag, hclosed, hp⟩ := h.groupFor hget
  have hwf := h.wf.add (sg.packet (wrap 16 u) i)
  rw [FecReceiver.add_packet hi hf] at hwf ⊢
  -- what remains is about the packet's own group
  suffices hown : ∀ o, o = (s'.groupFor (wrap 16 u) sg.k sg.m).add i sg.k sg.m (sg.body i) →
      o.group.Agrees sg ∧ o.group.closed = decide (sg.k ≤ (as ++ [i]).length) ∧
        (o.group.closed = false → o.group.present = (as ++ [i]).toFinset) ∧
        o.slices = given sg as i by
    obtain ⟨hag', hclosed', hp', hslices⟩ := hown _ rfl
    refine ⟨⟨hwf, fun _ => by simpa using hnewest, fun key g hg hkey => ?_, by simp, fun _ => ?_⟩,
      hslices⟩
    · rw [SortedMap.get?_insert, if_neg hkey] at hg
      exact hold key g hg hkey
    · refine ⟨hhave, _, ?_, hag', hclosed', hp'⟩
      rw [SortedMap.get?_insert, if_pos rfl]
  rintro o rfl
  generalize s'.groupFor (wrap 16 u) sg.k sg.m = g at *
  rw [List.length_append, List.length_singleton]
  by_cases hk : sg.k ≤ as.length
  · have hc : g.closed = true := by simp [hclosed, hk]
    rw [Group.add_old (.inl hc), given, if_pos hk]
    refine ⟨hag, ?_, fun hopen => by simp [hc] at hopen, rfl⟩
    rw [hclosed]
    exact decide_eq_decide.2 (by omega)
  · have hopen : g.closed = false := by simp [hclosed, hk]
    have hpresent := hp hopen
    obtain ⟨g', -, hag', hp', hc', hgroup, hslices⟩ := Group.add_own hgwf hag hopen hi
      (by simpa [hpresent] using hnew)
    rw [hpresent] at hp'
    have hcard : g'.present.card = as.length + 1 := by
      rw [hp', Finset.card_insert_of_notMem (by simpa using hnew),
        List.toFinset_card_of_nodup hnodup]
    rw [hgroup, hslices, hc', hcard, given, if_neg hk, hp']
    refine ⟨hag', decide_eq_decide.2 ?_, fun _ => by ext j; simp, rfl⟩
    exact ⟨fun h => h.elim id hlast, .inl⟩

/-- A group with `k` packets is closed, and the next one can begin. -/
theorem next (h : FecAt s u sg as) (hk : sg.k ≤ as.length) (sg' : SentGroup) :
    FecAt s (u + 1) sg' [] := by
  have has : as ≠ [] := by
    rintro rfl
    have := sg.k_pos
    simp at hk
    omega
  obtain ⟨hhave, g₀, hg₀, -, hclosed, -⟩ := h.own has
  have hnewest : s.newest = wrap 16 u := by rw [h.newest hhave, if_neg has]
  have hold (key : BitVec 16) (g : Group) (hg : s.groups.get? key = some g) :
      g.closed = true ∧ ∃ v, u + 1 - 9 ≤ v ∧ v < u + 1 ∧ key = wrap 16 v := by
    by_cases hkey : key = wrap 16 u
    · rw [hkey, hg₀] at hg
      obtain rfl := Option.some.inj hg
      exact ⟨by simp [hclosed, hk], u, by omega, by omega, hkey⟩
    · obtain ⟨hc, v, hv, hv', rfl⟩ := h.old key g hg hkey
      have hnear := (h.wf.near _ g hg).2
      rw [hnewest, Serial.dist_wrap (by norm_num; omega) (by norm_num; omega)] at hnear
      exact ⟨hc, v, by omega, by omega, rfl⟩
  refine ⟨h.wf, fun _ => by simpa using hnewest, fun key g hg _ => hold key g hg, fun _ => ?_,
    fun h => absurd rfl h⟩
  by_contra hne
  obtain ⟨g, hg⟩ := Option.ne_none_iff_exists'.1 hne
  obtain ⟨-, v, hv, hv', hkey⟩ := hold _ g hg
  have := Serial.wrap_inj (w := 16) (by norm_num; omega) (by norm_num; omega) hkey
  omega

/-- **There are holes while a data packet before one that has arrived is missing.** -/
theorem hasHoles {i i' : ℕ} (h : FecAt s u sg as) (hk : ¬ sg.k ≤ as.length) (hi : i ∉ as)
    (hi' : i' ∈ as) (hlt : i < i') (hk' : i' < sg.k) : s.hasHoles = true := by
  obtain ⟨-, g, hg, hag, hclosed, hp⟩ := h.own (List.ne_nil_of_mem hi')
  have hopen : g.closed = false := by simp [hclosed, hk]
  have hpresent := hp hopen
  obtain ⟨hgwf, -⟩ := h.wf.group _ g hg
  have hmax : (i' : ℤ) ≤ g.maxData :=
    hgwf.maxData.2 (.inr ⟨i', by simpa [hpresent] using hi', hag.k ▸ hk', rfl⟩)
  -- the data packets that are there are below `maxData + 1` and not `i`
  obtain ⟨top, htop⟩ := Int.eq_ofNat_of_zero_le (show 0 ≤ g.maxData by omega)
  have hsub : g.present.filter (· < g.k) ⊆ (Finset.range (top + 1)).erase i := by
    intro j hj
    obtain ⟨hj, hjk⟩ := Finset.mem_filter.1 hj
    have hle : (j : ℤ) ≤ g.maxData := hgwf.maxData.2 (.inr ⟨j, hj, hjk, rfl⟩)
    refine Finset.mem_erase.2 ⟨?_, Finset.mem_range.2 (by omega)⟩
    rintro rfl
    exact hi (by simpa [hpresent] using hj)
  have hcard := Finset.card_le_card hsub
  rw [← hgwf.dataHave, Finset.card_erase_of_mem (Finset.mem_range.2 (by omega)),
    Finset.card_range] at hcard
  rw [FecReceiver.hasHoles, List.any_eq_true]
  refine ⟨(wrap 16 u, g), SortedMap.mem_entries.2 hg, ?_⟩
  simp only [hopen, Bool.not_false, Bool.true_and, decide_eq_true_eq]
  omega

end FecAt

/-! ## What has arrived -/

namespace Transmission

variable {t : Transmission} {j : ℕ} {sg : SentGroup} {as : List ℕ}

theorem mem_arriving {i : ℕ} : i ∈ t.arriving j sg ↔ i < sg.k + sg.m ∧ t.lost j i = false := by
  simp [arriving]

theorem sorted_arriving (t : Transmission) (j : ℕ) (sg : SentGroup) :
    (t.arriving j sg).Pairwise (· < ·) := List.pairwise_lt_range.filter _

theorem k_le_arriving (hsg : t.groups[j]? = some sg) : sg.k ≤ (t.arriving j sg).length := by
  have hlost := t.losses j sg hsg
  have hsplit := (List.filter_append_perm (t.lost j) (List.range (sg.k + sg.m))).length_eq
  rw [List.length_append, List.length_range] at hsplit
  rw [arriving]
  omega

/-- The next packet comes after those before it. -/
theorem lt_of_arrived {i : ℕ} (h : as ++ [i] <+: t.arriving j sg) : ∀ i' ∈ as, i' < i := by
  intro i' hi'
  have := (t.sorted_arriving j sg).sublist h.sublist
  exact (List.pairwise_append.1 this).2.2 i' hi' i (List.mem_singleton_self i)

theorem nodup_of_arrived (h : as <+: t.arriving j sg) : as.Nodup :=
  ((t.sorted_arriving j sg).sublist h.sublist).imp ne_of_lt

/-- A packet before the next one that has not arrived is lost. -/
theorem lost_of_lt {i a : ℕ} (h : as ++ [a] <+: t.arriving j sg) (hi : i ∉ as)
    (hlt : i < a) : t.lost j i = true := by
  by_contra hlost
  obtain ⟨rest, hrest⟩ := h
  have ha := mem_arriving.1 (hrest ▸ List.mem_append_left rest (List.mem_concat_self) :
    a ∈ t.arriving j sg)
  have hmem : i ∈ t.arriving j sg := mem_arriving.2 ⟨by omega, by simpa using hlost⟩
  have hsorted := t.sorted_arriving j sg
  rw [← hrest] at hmem hsorted
  rcases List.mem_append.1 hmem with hmem | hmem
  · rcases List.mem_append.1 hmem with hmem | hmem
    · exact hi hmem
    · rw [List.mem_singleton.1 hmem] at hlt
      exact lt_irrefl _ hlt
  · have := (List.pairwise_append.1 hsorted).2.2 a List.mem_concat_self i hmem
    omega

theorem length_le_of_arrived {a : ℕ} (h : as ++ [a] <+: t.arriving j sg) : as.length ≤ a := by
  have hnodup := nodup_of_arrived ((List.prefix_append as [a]).trans h)
  have hsub : as ⊆ List.range a := fun i hi => List.mem_range.2 (lt_of_arrived h i hi)
  simpa using (hnodup.subperm hsub).length_le

theorem lt_of_mem_arrived {a : ℕ} (h : as ++ [a] <+: t.arriving j sg) : a < sg.k + sg.m :=
  (mem_arriving.1 (h.subset List.mem_concat_self)).1

/-- The last index of a group finds enough packets there. -/
theorem last_of_arrived {a : ℕ} (hsg : t.groups[j]? = some sg)
    (h : as ++ [a] <+: t.arriving j sg) (ha : a = sg.k + sg.m - 1) : sg.k ≤ as.length + 1 := by
  obtain ⟨rest, hrest⟩ := h
  have hnil : rest = [] := by
    refine List.eq_nil_iff_forall_not_mem.2 fun i hi => ?_
    have hsorted := t.sorted_arriving j sg
    have hmem := mem_arriving.1 (hrest ▸ List.mem_append_right _ hi : i ∈ t.arriving j sg)
    rw [← hrest] at hsorted
    have := (List.pairwise_append.1 hsorted).2.2 a List.mem_concat_self i hi
    omega
  have := k_le_arriving hsg
  rw [← hrest, hnil] at this
  simpa using this

/-- The positions of the stream that have arrived or been recovered, `as` being the packets of
group `j` that have arrived. -/
def got (t : Transmission) (j : ℕ) (sg : SentGroup) (as : List ℕ) : Set ℕ :=
  {p | p < start t.bodies j ∨
    ∃ i < sg.k, p = start t.bodies j + i ∧ (i ∈ as ∨ sg.k ≤ as.length)}

theorem mem_got {p : ℕ} : p ∈ t.got j sg as ↔ p < start t.bodies j ∨
    ∃ i < sg.k, p = start t.bodies j + i ∧ (i ∈ as ∨ sg.k ≤ as.length) := Iff.rfl

theorem mem_given {i : ℕ} {d : Delivery} (h : d ∈ FecAt.given sg as i) (hnew : i ∉ as) :
    d.1 < sg.k ∧ d.1 ∉ as ∧ ¬ sg.k ≤ as.length ∧
      (d.2 = sg.body d.1 ∨ d.2 = trim (sg.body d.1)) := by
  rw [FecAt.given] at h
  split at h
  · simp at h
  · next hk =>
    rcases List.mem_append.1 h with h | h
    · split at h
      · next hi =>
        obtain rfl := List.mem_singleton.1 h
        exact ⟨hi, hnew, hk, .inl rfl⟩
      · simp at h
    · split at h
      · obtain ⟨x, hx, rfl⟩ := List.mem_map.1 h
        obtain ⟨hx, hx'⟩ := List.mem_filter.1 hx
        refine ⟨List.mem_range.1 hx, fun hm => ?_, hk, .inr rfl⟩
        simp only [decide_eq_true_eq, Finset.mem_insert, not_or] at hx'
        exact hx'.2 (List.mem_toFinset.2 hm)
      · simp at h

/-- **What a packet delivers is what it adds to the positions.** -/
theorem got_concat (i : ℕ) : t.got j sg (as ++ [i]) = t.got j sg as ∪
    {p | ∃ d ∈ FecAt.given sg as i, p = start t.bodies j + d.1} := by
  ext p
  rw [Set.mem_union, mem_got, mem_got, List.length_append, List.length_singleton, or_assoc]
  refine or_congr_right ⟨?_, ?_⟩
  · rintro ⟨x, hx, rfl, hin⟩
    by_cases hold : x ∈ as ∨ sg.k ≤ as.length
    · exact .inl ⟨x, hx, rfl, hold⟩
    · rw [not_or] at hold
      by_cases hxi : x = i
      · refine .inr ⟨(x, sg.body x), ?_, rfl⟩
        rw [FecAt.given, if_neg hold.2, if_pos (hxi ▸ hx), hxi]
        exact List.mem_append_left _ (List.mem_singleton_self _)
      · have hk : sg.k ≤ as.length + 1 := by
          rcases hin with hin | hin
          · rcases List.mem_append.1 hin with hin | hin
            · exact absurd hin hold.1
            · exact absurd (List.mem_singleton.1 hin) hxi
          · exact hin
        refine .inr ⟨(x, trim (sg.body x)), ?_, rfl⟩
        rw [FecAt.given, if_neg hold.2, if_pos hk]
        refine List.mem_append_right _ (List.mem_map.2 ⟨x, List.mem_filter.2 ⟨?_, ?_⟩, rfl⟩)
        · exact List.mem_range.2 hx
        · simp [hxi, hold.1]
  · rintro (⟨x, hx, rfl, hin⟩ | ⟨d, hd, rfl⟩)
    · exact ⟨x, hx, rfl, hin.imp (List.mem_append_left _) fun h => by omega⟩
    · rw [FecAt.given] at hd
      split at hd
      · simp at hd
      · rcases List.mem_append.1 hd with hd | hd
        · split at hd
          · next hi =>
            obtain rfl := List.mem_singleton.1 hd
            exact ⟨i, hi, rfl, .inl List.mem_concat_self⟩
          · simp at hd
        · split at hd
          · next hk =>
            obtain ⟨x, hx, rfl⟩ := List.mem_map.1 hd
            exact ⟨x, List.mem_range.1 (List.mem_filter.1 hx).1, rfl, .inr hk⟩
          · simp at hd

/-- A missing position before one that has arrived is of the same group, which is open. -/
theorem gap_of_got {p x : ℕ} (hp : p ∉ t.got j sg as) (hx : x ∈ t.got j sg as) (hlt : p < x) :
    ∃ i i', p = start t.bodies j + i ∧ x = start t.bodies j + i' ∧ i < i' ∧ i' < sg.k ∧
      i ∉ as ∧ i' ∈ as ∧ ¬ sg.k ≤ as.length := by
  rw [mem_got, not_or, not_lt] at hp
  obtain ⟨hb, hp⟩ := hp
  rcases mem_got.1 hx with hx | ⟨i', hi', rfl, hin⟩
  · omega
  · obtain ⟨i, rfl⟩ := Nat.exists_eq_add_of_le hb
    have hnot : ¬ (i ∈ as ∨ sg.k ≤ as.length) := fun h => hp ⟨i, by omega, rfl, h⟩
    rw [not_or] at hnot
    exact ⟨i, i', rfl, rfl, by omega, hi', hnot.1, hin.resolve_right hnot.2, hnot.2⟩

/-- **A position that is missing when a later one arrives or is recovered was lost.** -/
theorem lost_of_gap {p x a : ℕ} (h : as ++ [a] <+: t.arriving j sg) (hp : p ∉ t.got j sg as)
    (hx : x ∈ t.got j sg (as ++ [a])) (hlt : p < x) :
    ∃ i i', p = start t.bodies j + i ∧ x = start t.bodies j + i' ∧ i < i' ∧ i' < sg.k ∧
      t.lost j i = true := by
  rw [mem_got, not_or, not_lt] at hp
  obtain ⟨hb, hp⟩ := hp
  rcases mem_got.1 hx with hx | ⟨i', hi', rfl, hin⟩
  · omega
  · obtain ⟨i, rfl⟩ := Nat.exists_eq_add_of_le hb
    have hnot : i ∉ as := fun hi => hp ⟨i, by omega, rfl, .inl hi⟩
    refine ⟨i, i', rfl, rfl, by omega, hi', lost_of_lt h hnot ?_⟩
    have hlen := length_le_of_arrived h
    rcases hin with hin | hin
    · rcases List.mem_append.1 hin with hin | hin
      · have := lt_of_arrived h i' hin
        omega
      · have := List.mem_singleton.1 hin
        omega
    · simp only [List.length_append, List.length_singleton] at hin
      omega

/-! ## Groups and frames -/

theorem at_bodies {i : ℕ} (hsg : t.groups[j]? = some sg) (hi : i < sg.k) :
    At t.bodies (start t.bodies j + i) j i := by
  obtain ⟨hj, rfl⟩ := List.getElem?_eq_some_iff.1 hsg
  exact ⟨by simpa [bodies] using hj, by simpa [len, bodies, hj, SentGroup.k] using hi, rfl⟩

theorem start_bodies_succ (hsg : t.groups[j]? = some sg) :
    start t.bodies (j + 1) = start t.bodies j + sg.k := by
  obtain ⟨hj, rfl⟩ := List.getElem?_eq_some_iff.1 hsg
  rw [Concat.start_succ (by simpa [bodies] using hj)]
  simp [len, bodies, hj, SentGroup.k]

/-- A data body is the slice at its position of the stream. -/
theorem body_eq_slice {i : ℕ} (hsg : t.groups[j]? = some sg) (hi : i < sg.k) :
    (∃ f x, At t.cells (start t.bodies j + i) f x) ∧
      t.cells.flatten.getD (start t.bodies j + i) [] = sg.body i := by
  have hat := at_bodies hsg hi
  have hlt : start t.bodies j + i < t.bodies.flatten.length := hat.lt_length
  obtain ⟨rest, hrest⟩ : t.bodies.flatten <+: t.cells.flatten := t.packed
  have hlen : start t.bodies j + i < t.cells.flatten.length := by
    rw [← hrest, List.length_append]
    omega
  refine ⟨Concat.exists_at hlen, ?_⟩
  have hget := hat.getD []
  obtain ⟨hj, rfl⟩ := List.getElem?_eq_some_iff.1 hsg
  rw [← hrest, List.getD_eq_getElem?_getD, List.getElem?_append_left hlt,
    ← List.getD_eq_getElem?_getD, hget, SentGroup.body_of_lt hi]
  have hi' : i < t.groups[j].bodies.length := hi
  simp [bodies, hj, hi']

end Transmission

/-! ## The queue behind the receiver -/

namespace FrameQueue

variable {fs : List SentFrame}

theorem Near.mono {D D' : Set ℕ} {n : ℕ} (h : @Near fs n D') (hD : D ⊆ D') :
    @Near fs n D := fun g hg hst => h g hg (hst.mono hD)

theorem Full.mono {D D' : Set ℕ} {f : ℕ} (h : Full fs D f) (hD : D ⊆ D') : Full fs D' f :=
  fun p i hat => hD (h p i hat)

/-- Several slices, each of which the queue takes for the one at its position of the stream. -/
theorem Holds.addSlices {b n : ℕ} (ds : List Delivery) {D : Set ℕ} {q : FrameQueue}
    (h : Holds fs D n q) (hnum : Numbered fs)
    (hds : ∀ d ∈ ds, (∃ f i, At (cells fs) (b + d.1) f i ∧ n ≤ f) ∧
      ∀ q : FrameQueue, q.addSlice d.2 = q.addSlice ((cells fs).flatten.getD (b + d.1) []))
    (hnear : @Near fs n (D ∪ {p | ∃ d ∈ ds, p = b + d.1})) :
    Holds fs (D ∪ {p | ∃ d ∈ ds, p = b + d.1}) n (ds.foldl (fun q d => q.addSlice d.2) q) := by
  induction ds generalizing D q with
  | nil =>
    have hset : D ∪ {p | ∃ d ∈ ([] : List Delivery), p = b + d.1} = D := by ext; simp
    rwa [hset]
  | cons d ds ih =>
    have hset : D ∪ {p | ∃ e ∈ d :: ds, p = b + e.1} =
        insert (b + d.1) D ∪ {p | ∃ e ∈ ds, p = b + e.1} := by
      ext p
      simp only [Set.mem_union, Set.mem_ofPred_eq, Set.mem_insert_iff, List.mem_cons,
        exists_eq_or_imp]
      tauto
    rw [hset] at hnear ⊢
    obtain ⟨⟨f, i, hat, hn⟩, hsame⟩ := hds d List.mem_cons_self
    have hq := h.addSlice hnum hat hn (hnear.mono Set.subset_union_left)
    rw [← hsame] at hq
    exact ih hq (fun e he => hds e (List.mem_cons_of_mem _ he)) hnear

end FrameQueue

/-- The queue and the events so far when `D` has arrived: the frames that are complete, up to the
first that is not, have been emitted. -/
structure QueueAt (fs : List SentFrame) (D : Set ℕ) (n : ℕ) (q : FrameQueue) (es : List Event) :
    Prop where
  holds : FrameQueue.Holds fs D n q
  le : n ≤ fs.length
  events : Delivered (fs.take n) es
  full : ∀ f < n, FrameQueue.Full fs D f
  next : n < fs.length → ¬ FrameQueue.Full fs D n

/-- The receiver after the packets `as` of group `j`, all groups before being closed. -/
structure Stage (t : Transmission) (j : ℕ) (sg : SentGroup) (as : List ℕ) (r : Receiver)
    (es : List Event) : Prop where
  group : t.groups[j]? = some sg
  arrived : as <+: t.arriving j sg
  fec : FecAt r.fecs (t.firstGroup + j) sg as
  queue : ∃ n, QueueAt t.frames (t.got j sg as) n r.framesQ es

section Step

variable {t : Transmission} {j : ℕ} {sg : SentGroup} {as : List ℕ} {a n : ℕ}

open FrameQueue (Holds Full Started Near Flushable cells at_iff len_pos)

/-- Before a frame after the next one starts, a slice of the next one is missing. -/
theorem missing_of_not_full {f : ℕ} {D : Set ℕ} (h : ¬ Full t.frames D f) :
    ∃ p i, At t.cells p f i ∧ p ∉ D := by
  simp only [Full, not_forall] at h
  obtain ⟨p, i, hat, hp⟩ := h
  exact ⟨p, i, hat, hp⟩

/-- Nothing arrives of a frame that is far ahead of the next one. -/
theorem near_got (harr : as ++ [a] <+: t.arriving j sg) (hsize : sg.k ≤ 255)
    (hnext : n < t.frames.length → ¬ Full t.frames (t.got j sg as) n) :
    @Near t.frames n (t.got j sg (as ++ [a])) := by
  rintro g hg ⟨x, i, hat, hx⟩
  obtain ⟨sf, hsf, -, -⟩ := at_iff.1 hat
  have hlt := (List.getElem?_eq_some_iff.1 hsf).1
  obtain ⟨p, y, hp, hnot⟩ := missing_of_not_full (hnext (by omega))
  have hne (f : ℕ) (hf : f < (cells t.frames).length) : 0 < len (cells t.frames) f := len_pos hf
  rcases Nat.lt_or_ge p x with hpx | hpx
  · obtain ⟨i, i', rfl, rfl, hlt, hk, -⟩ := Transmission.lost_of_gap harr hnot hx hpx
    have := hp.part_le hne hat (by omega)
    omega
  · have := hat.part_le_of_le hp hpx
    omega

/-- Frames that are queued together are of the same turn of the frame counter. -/
theorem turn_eq {f : ℕ} (hsg : t.groups[j]? = some sg) (harr : as ++ [a] <+: t.arriving j sg)
    (hwrap : t.WrapSafe) (hnext : n < t.frames.length → ¬ Full t.frames (t.got j sg as) n)
    (hf : n < f) (hst : Started t.frames (t.got j sg (as ++ [a])) f) : t.turn f = t.turn n := by
  obtain ⟨x, y, hat, hx⟩ := hst
  obtain ⟨sf, hsf, -, -⟩ := at_iff.1 hat
  have hlt := (List.getElem?_eq_some_iff.1 hsf).1
  obtain ⟨p, z, hp, hnot⟩ := missing_of_not_full (hnext (by omega))
  obtain ⟨i, i', rfl, rfl, hlt, hk, hlost⟩ :=
    Transmission.lost_of_gap harr hnot hx (hp.lt_of_part_lt hat hf)
  exact (hwrap j sg hsg i i' hlt hk hlost n f z y hp hat).symm

/-- A frame that is complete before anything of the frames before it has arrived. -/
theorem headless_of_first {f : ℕ} (hsg : t.groups[j]? = some sg)
    (harr : as ++ [a] <+: t.arriving j sg) (hf : f ≠ 0)
    (hst : Started t.frames (t.got j sg (as ++ [a])) f)
    (hfirst : ∀ g < f, ¬ Started t.frames (t.got j sg (as ++ [a])) g)
    (hfull : Full t.frames (t.got j sg (as ++ [a])) f) : t.Headless := by
  obtain ⟨_, _, hat, -⟩ := hst
  have hflen : f < t.cells.length := hat.1
  have hne (f : ℕ) (hf : f < t.cells.length) : 0 < len t.cells f := len_pos hf
  have hbefore (p : ℕ) (hp : p < start t.cells f) : p ∉ t.got j sg (as ++ [a]) := by
    intro hin
    obtain ⟨g, i, hg⟩ := Concat.exists_at (hp.trans_le (Concat.start_le_length t.cells f))
    have hgf : g < f := by
      by_contra hge
      have := Concat.start_mono t.cells (not_lt.1 hge)
      have := hg.start_le
      omega
    exact hfirst g hgf ⟨p, i, hg, hin⟩
  have hpos : 0 < start t.cells f := by
    have := Concat.add_le_start hne (f := 0) (n := f) (by omega)
    simp only [Nat.zero_add, Concat.start_zero] at this
    omega
  -- so the group is the first one, and nothing of it has been recovered
  have hzero := hbefore 0 hpos
  have hk := sg.k_pos
  rw [Transmission.mem_got, not_or, not_lt, Nat.le_zero] at hzero
  obtain ⟨hb, hzero⟩ := hzero
  have hopen : ¬ sg.k ≤ (as ++ [a]).length := fun h => hzero ⟨0, hk, by omega, .inr h⟩
  have hgot {p : ℕ} (hp : p ∈ t.got j sg (as ++ [a])) : p < sg.k ∧ p ∈ as ++ [a] := by
    rcases Transmission.mem_got.1 hp with hp | ⟨i, hi, rfl, hin⟩
    · omega
    · rw [hb, Nat.zero_add]
      exact ⟨hi, hin.resolve_right hopen⟩
  have hj : j = 0 := by
    by_contra hj
    have hjlt := (List.getElem?_eq_some_iff.1 hsg).1
    have hsucc := Transmission.start_bodies_succ
      (List.getElem?_eq_getElem (show 0 < t.groups.length by omega))
    have hmono := Concat.start_mono t.bodies (show 0 + 1 ≤ j by omega)
    have := t.groups[0].k_pos
    omega
  subst hj
  have hcell (p : ℕ) (hp : start t.cells f ≤ p) (hp' : p < start t.cells (f + 1)) :
      p ∈ t.got 0 sg (as ++ [a]) := by
    have hat : At t.cells p f (p - start t.cells f) := by
      rw [Concat.start_succ hflen] at hp'
      exact ⟨hflen, by omega, by omega⟩
    exact hfull p _ hat
  have hlen := hne f hflen
  have hsucc := Concat.start_succ hflen
  refine ⟨f, sg, by omega, by simpa [Transmission.cells, cells] using hflen, hsg, ?_, ?_, ?_⟩
  · have := (hgot (hcell (start t.cells (f + 1) - 1) (by omega) (by omega))).1
    omega
  · intro p hp
    have hfa := (hgot (hcell (start t.cells f) (le_refl _) (by omega))).2
    have hpa : p < a := by
      rcases List.mem_append.1 hfa with hfa | hfa
      · exact hp.trans (Transmission.lt_of_arrived harr _ hfa)
      · exact List.mem_singleton.1 hfa ▸ hp
    refine Transmission.lost_of_lt harr (fun hmem => hbefore p hp ?_) hpa
    have hpk := (hgot (hcell (start t.cells f) (le_refl _) (by omega))).1
    exact Transmission.mem_got.2
      (.inr ⟨p, by omega, by omega, .inl (List.mem_append_left _ hmem)⟩)
  · intro p hp hp'
    exact (Transmission.mem_arriving.1 (harr.subset (hgot (hcell p hp hp')).2)).2

/-- **The queue may be flushed after every packet.** -/
theorem flushable {s : FecReceiver} {u : ℤ} (hsg : t.groups[j]? = some sg)
    (harr : as ++ [a] <+: t.arriving j sg) (hfec : FecAt s u sg (as ++ [a]))
    (hnext : n < t.frames.length → ¬ Full t.frames (t.got j sg as) n)
    (hheadless : ¬ t.Headless) (hwrap : t.WrapSafe) (hvideo : ∀ sf ∈ t.frames, sf.HasVideo) :
    Flushable t.frames (t.got j sg (as ++ [a])) n s.hasHoles where
  numbered := t.numbered
  near := near_got harr (by have := sg.size; rw [SentGroup.k]; omega) hnext
  ordered f g sf sg' hn hlt hsf hsg' hst hst' := by
    have hturn : t.turn g = t.turn f := by
      rcases Nat.eq_or_lt_of_le hn with rfl | hnf
      · exact turn_eq hsg harr hwrap hnext hlt hst'
      · rw [turn_eq hsg harr hwrap hnext hnf hst,
          turn_eq hsg harr hwrap hnext (hnf.trans hlt) hst']
    obtain ⟨first, hno⟩ := t.numbered
    rw [Transmission.turn, Transmission.turn, hsf, hsg', Option.map_some, Option.map_some,
      Option.some.injEq] at hturn
    have hsfno := hno f sf hsf
    have hsgno := hno g sg' hsg'
    rw [BitVec.lt_def, wrap, wrap, BitVec.toNat_ofInt, BitVec.toNat_ofInt]
    have h1 := Int.emod_nonneg sf.no (show (2 : ℤ) ^ 32 ≠ 0 by norm_num)
    have h2 := Int.emod_nonneg sg'.no (show (2 : ℤ) ^ 32 ≠ 0 by norm_num)
    have h3 := Int.mul_ediv_add_emod sf.no (2 ^ 32)
    have h4 := Int.mul_ediv_add_emod sg'.no (2 ^ 32)
    push_cast
    rw [hturn] at h4
    omega
  held f g hn hlt hnot hst := by
    obtain ⟨x, y, hat, hx⟩ := hst
    obtain ⟨p, z, hp, hnotp⟩ := missing_of_not_full hnot
    obtain ⟨i, i', rfl, rfl, hlt, hk, hi, hi', hopen⟩ :=
      Transmission.gap_of_got hnotp hx (hp.lt_of_part_lt hat hlt)
    exact hfec.hasHoles hopen hi hi' hlt hk
  first _ f hst hfirst hfull := by
    by_contra hf
    exact hheadless (headless_of_first hsg harr hf hst hfirst hfull)
  key sf hsf := t.key sf hsf
  video f sf hsf := hvideo sf (List.mem_of_getElem? hsf)

/-- **One more packet.** The frames that become complete go out. -/
theorem Stage.receive {r : Receiver} {es : List Event} (h : Stage t j sg as r es)
    (harr : as ++ [a] <+: t.arriving j sg) (hheadless : ¬ t.Headless) (hwrap : t.WrapSafe)
    (hvideo : ∀ sf ∈ t.frames, sf.HasVideo) {pkt : Bytes}
    (hpkt : parseFramed pkt = some (sg.packet (wrap 16 (t.firstGroup + j)) a)) {met : ℕ → Round}
    (hmet : ∀ i, (met i).expired = false) :
    Stage t j sg (as ++ [a]) (r.receive pkt met).1 (es ++ (r.receive pkt met).2) := by
  have hnew : a ∉ as := fun hin => lt_irrefl _ (Transmission.lt_of_arrived harr a hin)
  have hnodup := Transmission.nodup_of_arrived h.arrived
  obtain ⟨hfec, hgiven⟩ := h.fec.add (Transmission.lt_of_mem_arrived harr) hnew hnodup
    (Transmission.last_of_arrived h.group harr)
  obtain ⟨n, hq⟩ := h.queue
  have hflush := flushable h.group harr hfec hq.next hheadless hwrap hvideo
  have hsub : t.got j sg as ⊆ t.got j sg (as ++ [a]) := by
    rw [Transmission.got_concat]
    exact Set.subset_union_left
  have hholds : Holds t.frames (t.got j sg (as ++ [a])) n
      ((FecAt.given sg as a).foldl (fun q d => q.addSlice d.2) r.framesQ) := by
    have hnear := hflush.near
    rw [Transmission.got_concat] at hnear ⊢
    refine hq.holds.addSlices _ t.numbered (fun d hd => ?_) hnear
    obtain ⟨hk, hnot, hopen, hslice⟩ := Transmission.mem_given hd hnew
    obtain ⟨⟨f, x, hat⟩, hget⟩ := Transmission.body_eq_slice h.group hk
    refine ⟨⟨f, x, hat, ?_⟩, fun q => ?_⟩
    · -- the frames that have been emitted were complete
      by_contra hlt
      rcases Transmission.mem_got.1 (hq.full f (not_le.1 hlt) _ x hat) with hin | hin
      · omega
      · obtain ⟨i, -, heq, hin⟩ := hin
        obtain rfl : d.1 = i := by omega
        exact hin.elim hnot hopen
    · show _ = q.addSlice (t.cells.flatten.getD _ [])
      rw [hget]
      rcases hslice with hslice | hslice
      · rw [hslice]
      · obtain ⟨hd, hparse⟩ := SentGroup.body_slice hk
        rw [hslice, addSlice_trim q hparse]
  obtain ⟨m, hnm, hm, hholds', hes, hfull, hstop⟩ := hholds.flush hflush hmet hq.le hq.events
  have hreceive : r.receive pkt met =
      (({ fecs := (r.fecs.add (sg.packet (wrap 16 (t.firstGroup + j)) a)).1
          framesQ := (((FecAt.given sg as a).foldl (fun q d => q.addSlice d.2) r.framesQ).flush
            (r.fecs.add (sg.packet (wrap 16 (t.firstGroup + j)) a)).1.hasHoles
            met).1 } : Receiver),
        (((FecAt.given sg as a).foldl (fun q d => q.addSlice d.2) r.framesQ).flush
          (r.fecs.add (sg.packet (wrap 16 (t.firstGroup + j)) a)).1.hasHoles
          met).2) := by
    rw [← hgiven]
    simp only [Receiver.receive, Receiver.handleFramed, hpkt, Receiver.handlePacket]
  rw [hreceive]
  refine ⟨h.group, harr, hfec, m, hholds', hm, hes, fun f hf => ?_, hstop⟩
  · rcases Nat.lt_or_ge f n with hfn | hfn
    · exact (hq.full f hfn).mono hsub
    · exact hfull f hfn hf

/-- A group whose packets have all arrived is closed, and the next one can begin. -/
theorem Stage.next {r : Receiver} {es : List Event} {sg' : SentGroup}
    (h : Stage t j sg (t.arriving j sg) r es) (hsg' : t.groups[j + 1]? = some sg') :
    Stage t (j + 1) sg' [] r es := by
  have hk := Transmission.k_le_arriving h.group
  have hgot : t.got (j + 1) sg' [] = t.got j sg (t.arriving j sg) := by
    have hk' := sg'.k_pos
    ext p
    rw [Transmission.mem_got, Transmission.mem_got, Transmission.start_bodies_succ h.group]
    constructor
    · rintro (hp | ⟨i, -, -, hin⟩)
      · rcases Nat.lt_or_ge p (start t.bodies j) with hlt | hge
        · exact .inl hlt
        · exact .inr ⟨p - start t.bodies j, by omega, by omega, .inr hk⟩
      · simp at hin
        omega
    · rintro (hp | ⟨i, hi, rfl, -⟩)
      · exact .inl (by omega)
      · exact .inl (by omega)
  obtain ⟨n, hq⟩ := h.queue
  refine ⟨hsg', List.nil_prefix, ?_, n, hgot ▸ hq⟩
  have := h.fec.next hk sg'
  push_cast
  rwa [← add_assoc]

theorem Stage.init (hsg : t.groups[0]? = some sg) (any : Bool) :
    Stage t 0 sg [] { framesQ := { anyFrame := any } } [] := by
  have hnone (p : ℕ) : p ∉ t.got 0 sg [] := by
    have hk := sg.k_pos
    rintro (hp | ⟨i, -, -, hin⟩)
    · simp at hp
    · simp at hin
      omega
  refine ⟨hsg, List.nil_prefix, by simpa using FecAt.init t.firstGroup sg, 0, ?_, Nat.zero_le _,
    .nil, fun f hf => absurd hf (Nat.not_lt_zero f), fun hlt hfull => ?_⟩
  · refine ⟨by simp, ?_, rfl, fun _ _ h => absurd h (lt_irrefl 0), rfl, rfl⟩
    rintro f sf - - ⟨p, i, -, hp⟩
    exact absurd hp (hnone p)
  · obtain ⟨p, i, -, hp⟩ := hfull.started (List.getElem?_eq_getElem hlt)
    exact absurd hp (hnone p)

end Step

/-! ## Whole sessions -/

namespace Transmission

variable {t : Transmission} {j : ℕ} {sg : SentGroup} {as : List ℕ}

theorem drop_arrivalsOf (hsg : t.groups[j]? = some sg) :
    t.arrivalsOf.drop j = (t.arriving j sg).map (j, ·) :: t.arrivalsOf.drop (j + 1) := by
  obtain ⟨hj, rfl⟩ := List.getElem?_eq_some_iff.1 hsg
  rw [List.drop_eq_getElem_cons (by simpa [arrivalsOf] using hj)]
  simp [arrivalsOf]

theorem take_arrivalsOf_succ (hsg : t.groups[j]? = some sg) :
    (t.arrivalsOf.take (j + 1)).flatten =
      (t.arrivalsOf.take j).flatten ++ (t.arriving j sg).map (j, ·) := by
  obtain ⟨hj, rfl⟩ := List.getElem?_eq_some_iff.1 hsg
  rw [List.take_succ_eq_append_getElem (by simpa [arrivalsOf] using hj), List.flatten_append]
  simp [arrivalsOf]

/-- The packets of the groups before `j`. -/
theorem fst_lt_of_mem_take {p : ℕ × ℕ} (h : p ∈ (t.arrivalsOf.take j).flatten) : p.1 < j := by
  obtain ⟨l, hl, hp⟩ := List.mem_flatten.1 h
  obtain ⟨i, hi, rfl⟩ := List.mem_take_iff_getElem.1 hl
  simp only [arrivalsOf, List.getElem_mapIdx] at hp
  obtain ⟨a, -, rfl⟩ := List.mem_map.1 hp
  omega

end Transmission

namespace Stage

variable {t : Transmission} {j : ℕ} {sg : SentGroup} {as : List ℕ} {r : Receiver}
  {es : List Event}

/-- The next packet is of this group, or of the next one when this one is through. -/
theorem next_packet {p : ℕ × ℕ} (h : Stage t j sg as r es)
    (hp : (t.arrivalsOf.take j).flatten ++ as.map (j, ·) ++ [p] <+: t.arrivals) :
    ∃ j' sg' as' a, Stage t j' sg' as' r es ∧ as' ++ [a] <+: t.arriving j' sg' ∧ p = (j', a) ∧
      (t.arrivalsOf.take j).flatten ++ as.map (j, ·) =
        (t.arrivalsOf.take j').flatten ++ as'.map (j', ·) := by
  obtain ⟨more, hmore⟩ := h.arrived
  have hsplit : t.arrivals = (t.arrivalsOf.take j).flatten ++ as.map (j, ·) ++
      (more.map (j, ·) ++ (t.arrivalsOf.drop (j + 1)).flatten) := by
    rw [Transmission.arrivals]
    conv_lhs => rw [← List.take_append_drop j t.arrivalsOf]
    rw [List.flatten_append, Transmission.drop_arrivalsOf h.group, List.flatten_cons, ← hmore,
      List.map_append]
    simp only [List.append_assoc]
  rw [hsplit, List.prefix_append_right_inj] at hp
  cases more with
  | cons a more =>
    obtain ⟨_, hpa⟩ := hp
    refine ⟨j, sg, as, a, h, ⟨more, by simpa using hmore⟩, ?_, rfl⟩
    exact (List.cons.inj hpa).1
  | nil =>
    rw [List.append_nil] at hmore
    subst hmore
    cases hsg' : t.groups[j + 1]? with
    | none =>
      have hlen : t.arrivalsOf.length ≤ j + 1 := by
        simpa [Transmission.arrivalsOf] using List.getElem?_eq_none_iff.1 hsg'
      simp [List.drop_eq_nil_of_le hlen] at hp
    | some sg' =>
      have hk := Transmission.k_le_arriving hsg'
      have hpos := sg'.k_pos
      obtain ⟨a, rest, harr⟩ := List.exists_cons_of_length_pos
        (show 0 < (t.arriving (j + 1) sg').length by omega)
      rw [Transmission.drop_arrivalsOf hsg', harr] at hp
      obtain ⟨_, hpa⟩ := hp
      refine ⟨j + 1, sg', [], a, h.next hsg', ⟨rest, by simpa using harr.symm⟩, ?_, ?_⟩
      · exact (List.cons.inj hpa).1
      · rw [Transmission.take_arrivalsOf_succ h.group, List.map_nil, List.append_nil]

/-- **Every part of a session ends in a stage.** -/
theorem run (hsg : ∃ sg, t.groups[0]? = some sg) (any : Bool) (hheadless : ¬ t.Headless)
    (hwrap : t.WrapSafe) (hvideo : ∀ sf ∈ t.frames, sf.HasVideo) (ps : List (ℕ × ℕ))
    {pkts : List (Bytes × (ℕ → Round))} (hps : ps <+: t.arrivals)
    (hpkts : pkts.map (parseFramed ·.1) = ps.map t.packet?)
    (hexp : ∀ p ∈ pkts, ∀ i, (p.2 i).expired = false) :
    ∃ j sg as, ps = (t.arrivalsOf.take j).flatten ++ as.map (j, ·) ∧
      Stage t j sg as (Receiver.receiveAll { framesQ := { anyFrame := any } } pkts).1
        (Receiver.receiveAll { framesQ := { anyFrame := any } } pkts).2 := by
  induction ps using List.reverseRecOn generalizing pkts with
  | nil =>
    obtain ⟨sg, hsg⟩ := hsg
    obtain rfl : pkts = [] := by simpa using hpkts
    exact ⟨0, sg, [], rfl, Stage.init hsg any⟩
  | append_singleton ps p ih =>
    rw [List.map_append, List.map_eq_append_iff] at hpkts
    obtain ⟨pkts, last, rfl, hpkts, hlast⟩ := hpkts
    obtain ⟨⟨pkt, met⟩, rfl, hpkt⟩ := List.map_eq_singleton_iff.1 hlast
    obtain ⟨j, sg, as, rfl, hstage⟩ := ih ((List.prefix_append ps [p]).trans hps) hpkts
      fun q hq => hexp q (List.mem_append_left _ hq)
    obtain ⟨j, sg, as, a, hstage, harr, rfl, hsame⟩ := hstage.next_packet hps
    have hparse : parseFramed pkt = some (sg.packet (wrap 16 (t.firstGroup + j)) a) := by
      rw [hpkt, Transmission.packet?, hstage.group]
      rfl
    have hstep := hstage.receive harr hheadless hwrap hvideo hparse (hexp _ List.mem_concat_self)
    refine ⟨j, sg, as ++ [a], ?_, ?_⟩
    · rw [hsame, List.map_append, List.append_assoc]
      rfl
    · rw [Receiver.receiveAll_concat]
      exact hstep

/-- The frames of closed groups have been emitted. -/
theorem emitted_of_closed {n f i : ℕ} (h : Stage t j sg as r es)
    (hq : QueueAt t.frames (t.got j sg as) n r.framesQ es) (hf : f < t.frames.length)
    (hclosed : t.Closed ((t.arrivalsOf.take j).flatten ++ as.map (j, ·)) i)
    (hend : start t.cells (f + 1) ≤ start t.bodies (i + 1)) : f < n := by
  by_contra hlt
  refine hq.next (by omega) fun p x hat => ?_
  have hp : p < start t.bodies (i + 1) := by
    have := hat.lt_start_succ
    have := Concat.start_mono t.cells (show n + 1 ≤ f + 1 by omega)
    exact lt_of_lt_of_le (by assumption) (le_trans this hend)
  obtain ⟨sg', hsg', hk⟩ := hclosed
  have hpos := sg'.k_pos
  rcases lt_trichotomy i j with hij | rfl | hij
  · exact .inl (hp.trans_le (Concat.start_mono _ hij))
  · obtain rfl : sg = sg' := Option.some.inj (h.group.symm.trans hsg')
    have hnone : ((t.arrivalsOf.take i).flatten).filter (fun p => decide (p.1 = i)) = [] := by
      rw [List.filter_eq_nil_iff]
      intro p hp
      have := Transmission.fst_lt_of_mem_take hp
      simp
      omega
    have hall : (as.map fun a => (i, a)).filter (fun p => decide (p.1 = i)) =
        as.map fun a => (i, a) := by
      rw [List.filter_eq_self]
      intro p hp
      obtain ⟨a, -, rfl⟩ := List.mem_map.1 hp
      simp
    rw [List.filter_append, hnone, hall, List.nil_append, List.length_map] at hk
    rw [Transmission.start_bodies_succ h.group] at hp
    rcases Nat.lt_or_ge p (start t.bodies i) with hlt | hge
    · exact .inl hlt
    · exact .inr ⟨p - start t.bodies i, by omega, by omega, .inr hk⟩
  · have hnone : ((t.arrivalsOf.take j).flatten ++ as.map fun a => (j, a)).filter
        (fun p => decide (p.1 = i)) = [] := by
      rw [List.filter_eq_nil_iff]
      intro p hp
      rcases List.mem_append.1 hp with hp | hp
      · have := Transmission.fst_lt_of_mem_take hp
        simp
        omega
      · obtain ⟨a, -, rfl⟩ := List.mem_map.1 hp
        simp
        omega
    rw [hnone] at hk
    simp at hk
    omega

end Stage

/-- **Framed video is lossless.** Let the packets of a session arrive in order, in no group more
lost than it has parity packets, and no hold expire. At any moment the frames that have been
emitted are the first ones of the stream, once each, in order and as they were sent without their
info trailers; every frame that lies in the closed groups is among them; and none was dropped.

The session must not be headless, must not mix two turns of the frame counter behind a loss, and
must have no frame that is only a trailer. -/
theorem lossless (t : Transmission) (any : Bool) (ps : List (ℕ × ℕ))
    (pkts : List (Bytes × (ℕ → Round))) (hps : ps <+: t.arrivals)
    (hpkts : pkts.map (parseFramed ·.1) = ps.map t.packet?)
    (hexp : ∀ p ∈ pkts, ∀ i, (p.2 i).expired = false)
    (hheadless : ¬ t.Headless) (hwrap : t.WrapSafe) (hvideo : ∀ sf ∈ t.frames, sf.HasVideo) :
    ∃ n, Delivered (t.frames.take n)
        (Receiver.receiveAll { framesQ := { anyFrame := any } } pkts).2 ∧
      (Receiver.receiveAll { framesQ := { anyFrame := any } } pkts).1.framesQ.dropped = 0 ∧
      ∀ f < t.frames.length, ∀ j, t.Closed ps j →
        start t.cells (f + 1) ≤ start t.bodies (j + 1) → f < n := by
  cases hsg : t.groups[0]? with
  | none =>
    have hgroups : t.groups = [] := by simpa using hsg
    have hnil : ps = [] := by
      simpa [Transmission.arrivals, Transmission.arrivalsOf, hgroups] using hps
    obtain rfl : pkts = [] := by simpa [hnil] using hpkts
    refine ⟨0, .nil, rfl, fun f _ j hclosed _ => ?_⟩
    obtain ⟨sg, hsg, -⟩ := hclosed
    simp [hgroups] at hsg
  | some sg =>
    obtain ⟨j, sg, as, rfl, hstage⟩ :=
      Stage.run ⟨sg, hsg⟩ any hheadless hwrap hvideo ps hps hpkts hexp
    obtain ⟨n, hq⟩ := hstage.queue
    exact ⟨n, hq.events, hq.holds.dropped,
      fun f hf i hclosed hend => hstage.emitted_of_closed hq hf hclosed hend⟩

/-! ## A session that begins with a loss -/

/-- The slice of a keyframe of one slice. -/
def keySlice (no : UInt8) : Bytes :=
  [5, 1, 0, 0, 1, 0, 0, 0, 1, 0, 0, 0, no, 0, 0, 0, 0, 0, 0, 0, 0xa0 + no]

/-- A keyframe of one byte. -/
def keyFrame (no : UInt8) (h : no = 9 ∨ no = 10) : SentFrame where
  no := no.toNat
  kind := 5
  slices := [keySlice no]
  video := [0xa0 + no]
  trailer := []
  nonempty := by simp
  not_audio := by decide
  header i hi := by
    obtain rfl : i = 0 := by simpa using hi
    show parseSliceHeader (keySlice no) = some
      { kind := 5, count := 1, index := 0, infoLen := 0, len := getLe16 (keySlice no) 8
        frameNo := wrap 32 no.toNat }
    rcases h with rfl | rfl <;> decide
  contents := by rcases h with rfl | rfl <;> decide

/-- Two keyframes and a parity packet. -/
def keyGroup : SentGroup :=
  .ofBodies [keySlice 9, keySlice 10] 1 21 (by decide) (by decide) (by decide) (by decide)
    oneByte_fits

/-- The group on its own, one packet of it lost. -/
def keySession (l : Fin 3) : Transmission where
  frames := [keyFrame 9 (.inl rfl), keyFrame 10 (.inr rfl)]
  groups := [keyGroup]
  firstGroup := 7
  lost _ i := i == l.val
  numbered := ⟨9, by
    intro f sf hsf
    match f, hsf with
    | 0, hsf => obtain rfl := Option.some.inj hsf; rfl
    | 1, hsf => obtain rfl := Option.some.inj hsf; rfl⟩
  key sf hsf behind := by obtain rfl := Option.some.inj hsf; rfl
  packed := by decide
  losses j sg hsg := by
    match j, hsg with
    | 0, hsg =>
      obtain rfl := Option.some.inj hsg
      revert l
      decide

/-- The packets of a session that arrive, as they are received. -/
def keyPackets (ps : List (ℕ × ℕ)) : List (Bytes × (ℕ → Round)) :=
  ps.map fun p => (framed (keyGroup.packet 7 p.2), fun _ => ⟨false, 0⟩)

/-- The first of two keyframes is lost, and the second is emitted before the parity packet brings
the first one back. -/
theorem headless_not_lossless :
    ¬ ∃ n, Delivered ((keySession 0).frames.take n)
        (Receiver.receiveAll {} (keyPackets (keySession 0).arrivals)).2 ∧
      (Receiver.receiveAll {} (keyPackets (keySession 0).arrivals)).1.framesQ.dropped = 0 ∧
      ∀ f < (keySession 0).frames.length, ∀ j, (keySession 0).Closed (keySession 0).arrivals j →
        start (keySession 0).cells (f + 1) ≤ start (keySession 0).bodies (j + 1) → f < n := by
  rintro ⟨n, hes, -, -⟩
  have hnow : (Receiver.receive {} (framed (keyGroup.packet 7 1)) fun _ => ⟨false, 0⟩).2 =
      [.emit 10 [0xaa] true] := by decide
  have hpkts : keyPackets (keySession 0).arrivals =
      (framed (keyGroup.packet 7 1), fun _ => ⟨false, 0⟩) :: keyPackets [(0, 2)] := by
    have harr : (keySession 0).arrivals = [(0, 1), (0, 2)] := by decide
    rw [harr]
    rfl
  -- whatever the parity packet brings comes after the second frame
  rw [hpkts, Receiver.receiveAll_cons] at hes
  dsimp only at hes
  rw [hnow, List.singleton_append] at hes
  generalize (Receiver.receiveAll _ (keyPackets [(0, 2)])).2 = later at hes
  cases n with
  | zero => cases hes
  | succ n =>
    obtain ⟨⟨behind, hfirst⟩, -⟩ := List.forall₂_cons.1 hes
    exact absurd (Event.emit.inj hfirst).1 (by decide)

theorem lossless_of_parity :
    ∃ n, Delivered ((keySession 1).frames.take n)
        (Receiver.receiveAll {} (keyPackets (keySession 1).arrivals)).2 ∧
      (Receiver.receiveAll {} (keyPackets (keySession 1).arrivals)).1.framesQ.dropped = 0 ∧
      ∀ f < (keySession 1).frames.length, ∀ j, (keySession 1).Closed (keySession 1).arrivals j →
        start (keySession 1).cells (f + 1) ≤ start (keySession 1).bodies (j + 1) → f < n :=
  lossless (keySession 1) false (keySession 1).arrivals (keyPackets (keySession 1).arrivals)
    List.prefix_rfl (by
      have harr : (keySession 1).arrivals = [(0, 0), (0, 2)] := by decide
      have hparse (i : ℕ) (hi : i < 256) :
          parseFramed (framed (keyGroup.packet 7 i)) = some (keyGroup.packet 7 i) :=
        parseFramed_framed hi keyGroup.k_pos keyGroup.size
      rw [harr]
      simp only [keyPackets, List.map_cons, List.map_nil, hparse 0 (by decide),
        hparse 2 (by decide)]
      rfl) (by
      intro p hp i
      obtain ⟨q, -, rfl⟩ := List.mem_map.1 hp
      rfl) (by
      rintro ⟨f, sg, hf, hflt, -, -, hlost, -⟩
      obtain rfl : f = 1 := by
        have : f < 2 := hflt
        omega
      exact absurd (hlost 0 (by decide)) (by decide)) (by
      intro j sg hsg i i' hlt hk hlost
      match j, hsg with
      | 0, hsg =>
        obtain rfl := Option.some.inj hsg
        have hi : i = 1 := by simpa [keySession] using hlost
        have : i' < 2 := hk
        omega) (by
      intro sf hsf
      left
      fin_cases hsf <;> decide)

end BambooNet.Tutk
