import BambooNet.Tutk.FrameQueue

/-!
# Frames of the legacy stream

`LegacyAssembler` collects the slices of one video frame at a time. Between two frames its frame
number is `0xffffffff`, which is also the number of a frame.

**The promise** (`Sound`, `Live`). A frame that is handed out has all its slices in index order,
and the slices of one frame that arrive without another frame between them are handed out.

**The invariant** (`Held`). The assembler is empty, or has fewer slices than the frame it collects,
each the latest one of its index.

**The exception** (`NoSentinel`). A slice of frame `0xffffffff` that finds the assembler empty
belongs to the frame the assembler seems to collect already, of zero slices. It is handed out
alone (`step_sentinel`).

Main result: `legacy_frames_whole`.
-/

namespace BambooNet.Tutk

/-- A slice of the legacy stream. -/
structure LegacySlice where
  frameNo : BitVec 32
  idx : ℕ
  cnt : ℕ
  data : Bytes
  deriving DecidableEq, Repr

structure LegacyAssembler where
  frameNo : BitVec 32 := 0xffffffff
  total : ℕ := 0
  slices : SortedMap ℕ Bytes := ∅
  deriving DecidableEq

namespace LegacyAssembler

/-- Keep a slice; one of another frame drops whatever was left of the previous one. The flag says
that the frame is complete. -/
def add (a : LegacyAssembler) (fno : BitVec 32) (idx cnt : ℕ) (data : Bytes) :
    LegacyAssembler × Bool :=
  let a := if fno ≠ a.frameNo then
    { frameNo := fno, total := if cnt ≠ 0 then cnt else 1, slices := ∅ } else a
  let a := { a with slices := a.slices.insert idx data }
  (a, decide (a.slices.size ≥ a.total))

/-- Hand out the slices in index order and start over. -/
def take (a : LegacyAssembler) : LegacyAssembler × Bytes :=
  ({}, a.slices.entries.flatMap (·.2))

/-- A slice goes to `add`, and a complete frame is taken at once. -/
def step (a : LegacyAssembler) (s : LegacySlice) : LegacyAssembler × Option Bytes :=
  let r := a.add s.frameNo s.idx s.cnt s.data
  if r.2 then (r.1.take.1, some r.1.take.2) else (r.1, none)

/-- The assembler after the slices of `sent`. -/
def after (sent : List LegacySlice) : LegacyAssembler := sent.foldl (fun a s => (a.step s).1) {}

@[simp] theorem after_concat (sent : List LegacySlice) (s : LegacySlice) :
    after (sent ++ [s]) = ((after sent).step s).1 := by
  simp [after]

end LegacyAssembler

/-! ## The stream packets -/

/-- The slice in a stream packet. Packets of other types and audio have none. -/
def legacySlice (pkt : Bytes) : Option LegacySlice :=
  let type := pkt.getD 0 0
  let flag := pkt.getD 1 0
  if type ≠ 0x01 ∧ (type < 0x03 ∨ type > 0x08) then none
  else if (if type = 0x01 then flag else type) = 0x04 then none
  else
    let extra := if flag &&& 0x08 ≠ 0 then 8 else 0
    let hdr := 8 + extra
    let data := 28 + extra
    if pkt.length ≤ data then none
    else
      let sliceLen := getLe16 pkt (hdr + 8)
      let sliceLen := if sliceLen = 0 ∨ data + sliceLen > pkt.length then pkt.length - data
        else sliceLen
      some { frameNo := BitVec.ofNat 32 (getLe32 pkt (hdr + 12))
             idx := getLe16 pkt (hdr + 2)
             cnt := getLe16 pkt (hdr + 4)
             data := (pkt.drop data).take sliceLen }

/-- The video data of a frame and its keyframe flag. H.264 frames may carry a 16-byte frame info
block in front of the data, with the flag at `[2]`. -/
def legacyVideo (frame : Bytes) : Bytes × Bool :=
  let inner := frame.drop 16
  let r :=
    if isJpeg frame then (frame, true)
    else if frame.length > 16 ∧ (startsWithStartCode inner || isJpeg inner) then
      (inner, frame.getD 2 0 == 1)
    else (frame, false)
  if r.2 then r
  else (r.1, isJpeg r.1 || (startsWithStartCode r.1 && h264IsKeyframe r.1))

/-- What a packet does to the assembler, and the frame it delivers. -/
def handleLegacy (a : LegacyAssembler) (pkt : Bytes) : LegacyAssembler × Option (Bytes × Bool) :=
  match legacySlice pkt with
  | none => (a, none)
  | some s => ((a.step s).1, (a.step s).2.map legacyVideo)

/-- A slice from a packet has data. -/
theorem legacySlice_data_ne {pkt : Bytes} {s : LegacySlice} (h : legacySlice pkt = some s) :
    s.data ≠ [] := by
  simp only [legacySlice, Option.ite_none_left_eq_some] at h
  obtain ⟨-, -, hlen, h⟩ := h
  obtain rfl := Option.some.inj h
  rw [← List.length_pos_iff, List.length_take, List.length_drop]
  split_ifs at hlen ⊢ <;> omega

/-! ## What is promised -/

/-- The data of the latest slice of an index. -/
def latest (sent : List LegacySlice) (no : BitVec 32) (i : ℕ) : Option Bytes :=
  (sent.reverse.find? fun s => s.frameNo = no ∧ s.idx = i).map (·.data)

@[simp] theorem latest_concat (sent : List LegacySlice) (s : LegacySlice) (no : BitVec 32)
    (i : ℕ) :
    latest (sent ++ [s]) no i =
      if s.frameNo = no ∧ s.idx = i then some s.data else latest sent no i := by
  by_cases h : s.frameNo = no ∧ s.idx = i
  · simp [latest, h]
  · simp [latest, h]

theorem exists_of_latest {sent : List LegacySlice} {no : BitVec 32} {i : ℕ} {d : Bytes}
    (h : latest sent no i = some d) :
    ∃ s ∈ sent, s.frameNo = no ∧ s.idx = i ∧ s.data = d := by
  obtain ⟨s, hs, rfl⟩ := Option.map_eq_some_iff.1 h
  have hp := List.find?_some hs
  rw [decide_eq_true_eq] at hp
  exact ⟨s, List.mem_reverse.1 (List.mem_of_find?_eq_some hs), hp.1, hp.2, rfl⟩

namespace LegacyAssembler

/-- The slices of one frame agree on their count, and their indices are below it. -/
structure Consistent (sent : List LegacySlice) : Prop where
  count : ∀ s ∈ sent, ∀ s' ∈ sent, s.frameNo = s'.frameNo → s.cnt = s'.cnt
  index : ∀ s ∈ sent, s.idx < s.cnt

/-- `out` is frame `no`, all its `cnt` slices in index order. -/
def IsFrame (sent : List LegacySlice) (no : BitVec 32) (cnt : ℕ) (out : Bytes) : Prop :=
  ∃ parts : List Bytes, (List.range cnt).map (latest sent no) = parts.map some ∧ out = parts.flatten

/-- A frame that is handed out is whole. -/
def Sound (sent : List LegacySlice) : Prop :=
  ∀ pre s post out, sent = pre ++ s :: post → ((after pre).step s).2 = some out →
    IsFrame (pre ++ [s]) s.frameNo s.cnt out

/-- A frame whose slices arrive without interruption is handed out while they arrive. -/
def Live (sent : List LegacySlice) : Prop :=
  ∀ pre run post no cnt, sent = pre ++ run ++ post → 0 < cnt →
    (∀ s ∈ run, s.frameNo = no ∧ s.cnt = cnt) → (∀ i < cnt, ∃ s ∈ run, s.idx = i) →
    ∃ early s late out, run = early ++ s :: late ∧
      ((after (pre ++ early)).step s).2 = some out ∧ IsFrame (pre ++ early ++ [s]) no cnt out

/-- No slice of a frame `0xffffffff` of several slices finds the assembler empty. -/
def NoSentinel (sent : List LegacySlice) : Prop :=
  ∀ pre s post, sent = pre ++ s :: post → s.frameNo = 0xffffffff → (after pre).slices = ∅ →
    s.cnt ≤ 1

/-! ## One step -/

/-- The slices kept are the latest ones of frame `s.frameNo`, with `s` among them. -/
structure Collects (sent : List LegacySlice) (s : LegacySlice) (b : LegacyAssembler) : Prop where
  frame : b.frameNo = s.frameNo
  got : b.slices.get? s.idx = some s.data
  kept : ∀ i d, b.slices.get? i = some d → i < s.cnt ∧ latest sent s.frameNo i = some d

/-- The assembler is empty, or has fewer slices than the frame it collects. -/
def Held (all sent : List LegacySlice) (a : LegacyAssembler) : Prop :=
  a = {} ∨ a.slices.size < a.total ∧ (∀ s ∈ all, s.frameNo = a.frameNo → s.cnt = a.total) ∧
    ∀ i d, a.slices.get? i = some d → i < a.total ∧ latest sent a.frameNo i = some d

variable {all sent : List LegacySlice} {a b : LegacyAssembler} {s : LegacySlice} {out : Bytes}

theorem add_of_ne (h : s.frameNo ≠ a.frameNo) (hcnt : 0 < s.cnt) :
    a.add s.frameNo s.idx s.cnt s.data =
      ({ frameNo := s.frameNo, total := s.cnt, slices := SortedMap.insert ∅ s.idx s.data },
        decide (s.cnt ≤ 1)) := by
  simp only [add, if_pos h, if_pos hcnt.ne']
  rfl

theorem add_of_eq (h : s.frameNo = a.frameNo) :
    a.add s.frameNo s.idx s.cnt s.data =
      ({ a with slices := a.slices.insert s.idx s.data },
        decide (a.total ≤ (a.slices.insert s.idx s.data).size)) := by
  simp only [add, if_neg (not_not.2 h)]

theorem step_of_full (h : a.add s.frameNo s.idx s.cnt s.data = (b, true)) :
    a.step s = ({}, some (b.slices.entries.flatMap (·.2))) := by
  rw [step, h]
  rfl

theorem step_of_open (h : a.add s.frameNo s.idx s.cnt s.data = (b, false)) :
    a.step s = (b, none) := by
  rw [step, h]
  rfl

/-- A slice in an assembler that has no slices yet. -/
theorem collects_single (hidx : s.idx < s.cnt) (hframe : b.frameNo = s.frameNo)
    (hslices : b.slices = SortedMap.insert ∅ s.idx s.data) : Collects (sent ++ [s]) s b := by
  refine ⟨hframe, by simp [hslices], fun i d hd => ?_⟩
  rw [hslices, SortedMap.get?_insert] at hd
  split at hd
  · next hi =>
    subst hi
    exact ⟨hidx, by simpa using hd⟩
  · simp at hd

/-- A slice beside those of its frame. -/
theorem collects_insert (hidx : s.idx < s.cnt) (hframe : a.frameNo = s.frameNo)
    (hkept : ∀ i d, a.slices.get? i = some d → i < s.cnt ∧ latest sent a.frameNo i = some d) :
    Collects (sent ++ [s]) s { a with slices := a.slices.insert s.idx s.data } := by
  refine ⟨hframe, by simp, fun i d hd => ?_⟩
  have hd' : (a.slices.insert s.idx s.data).get? i = some d := hd
  rw [SortedMap.get?_insert] at hd'
  split at hd'
  · next hi =>
    subst hi
    exact ⟨hidx, by simpa using hd'⟩
  · next hi =>
    obtain ⟨hlt, hlatest⟩ := hkept i d hd'
    refine ⟨hlt, ?_⟩
    rw [latest_concat, if_neg fun h => hi h.2.symm, ← hframe]
    exact hlatest

/-- What `add` makes of a slice: the frame is complete exactly when all its slices are there. -/
theorem add_spec (hall : Consistent all) (hs : s ∈ all) (ha : Held all sent a)
    (hsentinel : s.frameNo = 0xffffffff → a = {} → s.cnt ≤ 1) {full : Bool}
    (hb : a.add s.frameNo s.idx s.cnt s.data = (b, full)) :
    Collects (sent ++ [s]) s b ∧ b.slices.size ≤ s.cnt ∧ (full = true → b.slices.size = s.cnt) ∧
      (full = false → b.slices.size < b.total ∧ b.total = s.cnt) := by
  have hidx := hall.index s hs
  by_cases hno : s.frameNo = a.frameNo
  · rw [add_of_eq hno] at hb
    obtain ⟨rfl, rfl⟩ := Prod.mk.inj hb
    rcases ha with rfl | ⟨hsize, hcnt, hkept⟩
    · have hone : s.cnt = 1 := by
        have := hsentinel hno rfl
        omega
      refine ⟨collects_insert hidx hno.symm (by simp), ?_, fun _ => ?_, ?_⟩
      · exact hone.ge
      · exact hone.symm
      · exact fun h => absurd h Bool.true_eq_false_eq_False
    · have htotal : s.cnt = a.total := hcnt s hs hno
      have hle : (a.slices.insert s.idx s.data).size ≤ a.slices.size + 1 :=
        a.slices.size_insert_le s.idx s.data
      refine ⟨collects_insert hidx hno.symm (htotal ▸ hkept), ?_, fun h => ?_, fun h => ?_⟩
      · show (a.slices.insert s.idx s.data).size ≤ s.cnt
        omega
      · have := of_decide_eq_true h
        show (a.slices.insert s.idx s.data).size = s.cnt
        omega
      · have := of_decide_eq_false h
        exact ⟨not_le.1 this, htotal.symm⟩
  · rw [add_of_ne hno (by omega)] at hb
    obtain ⟨rfl, rfl⟩ := Prod.mk.inj hb
    have hsize : (SortedMap.insert (∅ : SortedMap ℕ Bytes) s.idx s.data).size = 1 := rfl
    refine ⟨collects_single hidx rfl rfl, ?_, fun h => ?_, fun h => ?_⟩
    · show (SortedMap.insert (∅ : SortedMap ℕ Bytes) s.idx s.data).size ≤ s.cnt
      omega
    · have := of_decide_eq_true h
      show (SortedMap.insert (∅ : SortedMap ℕ Bytes) s.idx s.data).size = s.cnt
      omega
    · have := of_decide_eq_false h
      exact ⟨by rw [hsize]; exact not_le.1 this, rfl⟩

/-- A frame that is handed out is whole. -/
theorem step_frame (hall : Consistent all) (hs : s ∈ all) (ha : Held all sent a)
    (hsentinel : s.frameNo = 0xffffffff → a = {} → s.cnt ≤ 1) (hout : (a.step s).2 = some out) :
    IsFrame (sent ++ [s]) s.frameNo s.cnt out := by
  rcases hr : a.add s.frameNo s.idx s.cnt s.data with ⟨b, full⟩
  obtain ⟨hcol, -, hfull, -⟩ := add_spec hall hs ha hsentinel hr
  cases full with
  | true =>
    rw [step_of_full hr] at hout
    obtain rfl := Option.some.inj hout
    have hkeys := SortedMap.keys_eq_range (hfull rfl) fun i d hd => (hcol.kept i d hd).1
    refine ⟨_, ?_, List.flatMap_def⟩
    rw [← hkeys, List.map_map, List.map_map]
    refine List.map_congr_left fun e he => ?_
    exact (hcol.kept e.1 e.2 (SortedMap.mem_entries.1 he)).2
  | false =>
    rw [step_of_open hr] at hout
    cases hout

/-- The invariant is kept by a step. -/
theorem step_held (hall : Consistent all) (hs : s ∈ all) (ha : Held all sent a)
    (hsentinel : s.frameNo = 0xffffffff → a = {} → s.cnt ≤ 1) :
    Held all (sent ++ [s]) (a.step s).1 := by
  rcases hr : a.add s.frameNo s.idx s.cnt s.data with ⟨b, full⟩
  obtain ⟨hcol, -, -, hopen⟩ := add_spec hall hs ha hsentinel hr
  cases full with
  | true =>
    rw [step_of_full hr]
    exact .inl rfl
  | false =>
    rw [step_of_open hr]
    obtain ⟨hsize, htotal⟩ := hopen rfl
    refine .inr ⟨hsize, fun s' hs' hno => ?_, fun i d hd => ?_⟩
    · rw [htotal]
      exact hall.count s' hs' s hs (hno.trans hcol.frame)
    · rw [htotal, hcol.frame]
      exact hcol.kept i d hd

/-- A frame that stays open has the slice and those it had. -/
theorem step_none (h : (a.step s).2 = none) :
    (a.step s).1.frameNo = s.frameNo ∧ (a.step s).1.slices.get? s.idx = some s.data ∧
      (a.frameNo = s.frameNo → ∀ i, i ≠ s.idx →
        (a.step s).1.slices.get? i = a.slices.get? i) := by
  rcases hr : a.add s.frameNo s.idx s.cnt s.data with ⟨b, full⟩
  cases full with
  | true =>
    rw [step_of_full hr] at h
    cases h
  | false =>
    rw [step_of_open hr]
    by_cases hno : s.frameNo = a.frameNo
    · rw [add_of_eq hno] at hr
      obtain ⟨rfl, -⟩ := Prod.mk.inj hr
      refine ⟨hno.symm, by simp, fun _ i hi => ?_⟩
      show (a.slices.insert s.idx s.data).get? i = _
      rw [SortedMap.get?_insert, if_neg hi]
    · simp only [add, ne_eq, hno, not_false_eq_true, if_true] at hr
      obtain ⟨rfl, -⟩ := Prod.mk.inj hr
      exact ⟨rfl, by simp, fun heq => absurd heq.symm hno⟩

/-! ## Runs -/

variable {pre post run early : List LegacySlice} {no : BitVec 32} {cnt : ℕ}

/-- The invariant holds after every prefix of the slices. -/
theorem after_held (hall : Consistent all) (hcond : NoSentinel all) (h : all = pre ++ post) :
    Held all pre (after pre) := by
  induction pre using List.reverseRecOn generalizing post with
  | nil => exact .inl rfl
  | append_singleton pre s ih =>
    have hsplit : all = pre ++ s :: post := by rw [h, List.append_assoc, List.singleton_append]
    rw [after_concat]
    refine step_held hall (hsplit ▸ by simp) (ih hsplit) fun hno hempty => ?_
    exact hcond pre s post hsplit hno (by rw [hempty])

theorem sound (hall : Consistent all) (hcond : NoSentinel all) : Sound all := by
  intro pre s post out hsplit hout
  have hs : s ∈ all := hsplit ▸ by simp
  refine step_frame hall hs (after_held hall hcond hsplit) (fun hno hempty => ?_) hout
  exact hcond pre s post hsplit hno (by rw [hempty])

/-- Either a slice of the run completes a frame, or the assembler has all of them. -/
theorem run_collects (pre : List LegacySlice) (hrun : ∀ s ∈ run, s.frameNo = no) :
    (∃ early s late out, run = early ++ s :: late ∧
      ((after (pre ++ early)).step s).2 = some out) ∨
    ∀ s ∈ run, (after (pre ++ run)).frameNo = no ∧
      ∃ d, (after (pre ++ run)).slices.get? s.idx = some d := by
  induction run using List.reverseRecOn with
  | nil => exact .inr fun s hs => absurd hs (List.not_mem_nil)
  | append_singleton run s ih =>
    rcases ih fun t ht => hrun t (List.mem_append_left _ ht) with
      ⟨early, t, late, out, rfl, hout⟩ | hkept
    · exact .inl ⟨early, t, late ++ [s], out, by simp, hout⟩
    · cases hstep : ((after (pre ++ run)).step s).2 with
      | some out => exact .inl ⟨run, s, [], out, rfl, hstep⟩
      | none =>
        obtain ⟨hno, hgot, hold⟩ := step_none hstep
        have hsno := hrun s (by simp)
        refine .inr fun t ht => ?_
        rw [← List.append_assoc, after_concat]
        refine ⟨hno.trans hsno, ?_⟩
        by_cases hidx : t.idx = s.idx
        · exact ⟨_, hidx ▸ hgot⟩
        · have ht' : t ∈ run := by
            rcases List.mem_append.1 ht with ht | ht
            · exact ht
            · exact absurd (List.mem_singleton.1 ht ▸ rfl) hidx
          obtain ⟨hframe, d, hd⟩ := hkept t ht'
          exact ⟨d, by rw [hold (hframe.trans hsno.symm) _ hidx, hd]⟩

theorem live (hall : Consistent all) (hcond : NoSentinel all) : Live all := by
  intro pre run post no cnt hsplit hpos hrun hidx
  rcases run_collects pre fun s hs => (hrun s hs).1 with
    ⟨early, s, late, out, rfl, hout⟩ | hkept
  · obtain ⟨hno, hcnt⟩ := hrun s (by simp)
    refine ⟨early, s, late, out, rfl, hout, ?_⟩
    rw [← hno, ← hcnt]
    exact sound hall hcond (pre ++ early) s (late ++ post) out (by simp [hsplit]) hout
  · -- the assembler cannot hold as many slices as its frame has
    obtain ⟨s, hs, -⟩ := hidx 0 hpos
    have hframe := (hkept s hs).1
    have hsize : cnt ≤ (after (pre ++ run)).slices.size := SortedMap.le_size fun i hi => by
      obtain ⟨t, ht, rfl⟩ := hidx i hi
      exact (hkept t ht).2
    rcases after_held hall hcond hsplit with hempty | ⟨hlt, hcount, -⟩
    · rw [hempty] at hsize
      exact absurd hsize (not_le.2 hpos)
    · have hs' : s ∈ all := hsplit ▸ by simp [hs]
      have := hcount s hs' ((hrun s hs).1.trans hframe.symm)
      have := (hrun s hs).2
      omega

/-! ## The frame number between frames -/

theorem after_of_slices_empty (h : (after sent).slices = ∅) : after sent = {} := by
  induction sent using List.reverseRecOn with
  | nil => rfl
  | append_singleton sent s =>
    rw [after_concat] at h ⊢
    cases hout : ((after sent).step s).2 with
    | some out =>
      rcases hr : (after sent).add s.frameNo s.idx s.cnt s.data with ⟨b, full⟩
      cases full with
      | true => rw [step_of_full hr]
      | false => rw [step_of_open hr] at hout; cases hout
    | none =>
      have hgot := (step_none hout).2.1
      rw [h] at hgot
      cases hgot

/-- A slice of frame `0xffffffff` that finds the assembler empty is handed out alone. -/
theorem step_sentinel (h : s.frameNo = 0xffffffff) : (step {} s).2 = some s.data := by
  have hadd : add {} s.frameNo s.idx s.cnt s.data =
      ({ slices := SortedMap.insert ∅ s.idx s.data }, true) := add_of_eq h
  rw [step_of_full hadd]
  show some (s.data ++ []) = _
  rw [List.append_nil]

/-- One of several parts that are not empty is shorter than all of them together. -/
theorem length_lt_flatten {parts : List Bytes} {d : Bytes} (hd : d ∈ parts)
    (hne : ∀ p ∈ parts, p ≠ []) (hlen : 1 < parts.length) : d.length < parts.flatten.length := by
  obtain ⟨l, r, rfl⟩ := List.append_of_mem hd
  have hother : l ++ r ≠ [] := fun h => by
    obtain ⟨rfl, rfl⟩ := List.append_eq_nil_iff.1 h
    exact absurd hlen (by simp)
  obtain ⟨p, hp⟩ := List.exists_mem_of_ne_nil _ hother
  have hpos : 0 < (l ++ r).flatten.length := by
    have hp' : p ∈ l ++ d :: r := by
      rcases List.mem_append.1 hp with h | h <;> simp [h]
    exact (List.length_pos_iff.2 (hne p hp')).trans_le
      ((List.sublist_flatten_of_mem hp).length_le)
  simp only [List.flatten_append, List.length_append, List.flatten_cons] at hpos ⊢
  omega

theorem noSentinel_of_sound (hall : Consistent all) (hdata : ∀ s ∈ all, s.data ≠ [])
    (h : Sound all) : NoSentinel all := by
  intro pre s post hsplit hno hempty
  by_contra hcnt
  have hs : s ∈ all := hsplit ▸ by simp
  have hout : ((after pre).step s).2 = some s.data := by
    rw [after_of_slices_empty hempty]
    exact step_sentinel hno
  obtain ⟨parts, hparts, hflat⟩ := h pre s post s.data hsplit hout
  have hlen : parts.length = s.cnt := by
    have := congrArg List.length hparts
    simpa using this.symm
  have hmem : s.data ∈ parts := by
    have hlatest : latest (pre ++ [s]) s.frameNo s.idx ∈ parts.map some := by
      rw [← hparts]
      exact List.mem_map_of_mem (List.mem_range.2 (hall.index s hs))
    rw [latest_concat, if_pos ⟨rfl, rfl⟩] at hlatest
    obtain ⟨d, hd, heq⟩ := List.mem_map.1 hlatest
    exact Option.some.inj heq ▸ hd
  have hne : ∀ p ∈ parts, p ≠ [] := by
    intro p hp
    have hp' : some p ∈ (List.range s.cnt).map (latest (pre ++ [s]) s.frameNo) :=
      hparts ▸ List.mem_map_of_mem hp
    obtain ⟨i, -, hi⟩ := List.mem_map.1 hp'
    obtain ⟨t, ht, -, -, rfl⟩ := exists_of_latest hi
    refine hdata t ?_
    rw [hsplit]
    rcases List.mem_append.1 ht with ht | ht
    · simp [ht]
    · simp [List.mem_singleton.1 ht]
  have hlt := length_lt_flatten hmem hne (by omega)
  rw [← hflat] at hlt
  exact lt_irrefl _ hlt

/-! ## Packets -/

/-- The assembler after a run of packets. -/
def afterPackets (pkts : List Bytes) : LegacyAssembler :=
  pkts.foldl (fun a pkt => (handleLegacy a pkt).1) {}

/-- What a run of packets hands out is the video data of whole frames. -/
def HandsOutWhole (pkts : List Bytes) : Prop :=
  ∀ pre pkt post video, pkts = pre ++ pkt :: post →
    (handleLegacy (afterPackets pre) pkt).2 = some video →
    ∃ s frame, legacySlice pkt = some s ∧ video = legacyVideo frame ∧
      IsFrame ((pre ++ [pkt]).filterMap legacySlice) s.frameNo s.cnt frame

theorem handleLegacy_eq (a : LegacyAssembler) (pkt : Bytes) :
    (handleLegacy a pkt).1 = (legacySlice pkt).toList.foldl (fun a s => (a.step s).1) a := by
  rw [handleLegacy]
  cases legacySlice pkt <;> rfl

/-- The assembler sees the slices of the packets. -/
theorem afterPackets_eq (pkts : List Bytes) :
    afterPackets pkts = after (pkts.filterMap legacySlice) := by
  induction pkts using List.reverseRecOn with
  | nil => rfl
  | append_singleton pkts pkt ih =>
    rw [afterPackets, List.foldl_append, List.foldl_cons, List.foldl_nil, handleLegacy_eq]
    show List.foldl _ (afterPackets pkts) _ = _
    have hone : [pkt].filterMap legacySlice = (legacySlice pkt).toList := by
      rw [List.filterMap_cons]
      cases legacySlice pkt <;> rfl
    rw [ih, after, after, ← List.foldl_append, List.filterMap_append, hone]

theorem handsOutWhole_of_sound {pkts : List Bytes} (h : Sound (pkts.filterMap legacySlice)) :
    HandsOutWhole pkts := by
  rintro pre pkt post video rfl hvideo
  rw [handleLegacy, afterPackets_eq] at hvideo
  cases hs : legacySlice pkt with
  | none =>
    rw [hs] at hvideo
    cases hvideo
  | some s =>
    rw [hs] at hvideo
    obtain ⟨frame, hframe, rfl⟩ := Option.map_eq_some_iff.1 hvideo
    rw [List.filterMap_append, List.filterMap_cons_some hs] at h
    rw [List.filterMap_append, List.filterMap_cons_some hs]
    exact ⟨s, frame, rfl, rfl, h _ s _ frame rfl hframe⟩

theorem data_ne_of_mem_packets {pkts : List Bytes} :
    ∀ s ∈ pkts.filterMap legacySlice, s.data ≠ [] := by
  intro s hs
  obtain ⟨pkt, -, hpkt⟩ := List.mem_filterMap.1 hs
  exact legacySlice_data_ne hpkt

/-- **Frames are whole as long as no frame `0xffffffff` of several slices finds the assembler
empty.** For slices with data they are not otherwise. The slices of packets have data, and what the
packets hand out is made of the frames. -/
theorem legacy_frames_whole {sent : List LegacySlice} (hsent : Consistent sent) :
    (NoSentinel sent → Sound sent ∧ Live sent) ∧
      ((∀ s ∈ sent, s.data ≠ []) → Sound sent ∧ Live sent → NoSentinel sent) ∧
      ∀ pkts, pkts.filterMap legacySlice = sent →
        (Sound sent ∧ Live sent ↔ NoSentinel sent) ∧ (NoSentinel sent → HandsOutWhole pkts) := by
  have hwhole (h : NoSentinel sent) : Sound sent ∧ Live sent := ⟨sound hsent h, live hsent h⟩
  refine ⟨hwhole, fun hdata h => noSentinel_of_sound hsent hdata h.1, ?_⟩
  rintro pkts rfl
  exact ⟨⟨fun h => noSentinel_of_sound hsent data_ne_of_mem_packets h.1, hwhole⟩,
    fun h => handsOutWhole_of_sound (sound hsent h)⟩

/-- The packet of a slice of frame 3, which has two. -/
def packet (idx data : UInt8) : Bytes :=
  [3, 0, 0, 0, 0, 0, 0, 0, 0, 0, idx, 0, 2, 0, 0, 0, 0, 0, 0, 0, 3, 0, 0, 0, 0, 0, 0, 0, data]

/-- The second slice comes first. -/
theorem legacy_frames_whole_two :
    Sound [⟨3, 1, 2, [7]⟩, ⟨3, 0, 2, [6]⟩] ∧ Live [⟨3, 1, 2, [7]⟩, ⟨3, 0, 2, [6]⟩] ∧
      HandsOutWhole [packet 1 7, packet 0 6] := by
  have hno : NoSentinel [⟨3, 1, 2, [7]⟩, ⟨3, 0, 2, [6]⟩] := by
    intro pre s post hsplit hno
    have hs : s ∈ [(⟨3, 1, 2, [7]⟩ : LegacySlice), ⟨3, 0, 2, [6]⟩] := hsplit ▸ by simp
    simp only [List.mem_cons, List.not_mem_nil, or_false] at hs
    rcases hs with rfl | rfl <;> exact absurd hno (by decide)
  obtain ⟨hwhole, -, hpackets⟩ :=
    @legacy_frames_whole [⟨3, 1, 2, [7]⟩, ⟨3, 0, 2, [6]⟩] ⟨by decide, by decide⟩
  exact ⟨(hwhole hno).1, (hwhole hno).2, (hpackets [packet 1 7, packet 0 6] (by decide)).2 hno⟩

/-- The first slice of a frame `0xffffffff` is handed out as the frame. -/
theorem sentinel_slice_alone : ¬ ∀ sent, Consistent sent → Sound sent ∧ Live sent := by
  intro h
  obtain ⟨parts, hparts, -⟩ := (h [⟨0xffffffff, 0, 2, [7]⟩] ⟨by decide, by decide⟩).1 [] _ [] [7]
    rfl rfl
  have hnone : none ∈ parts.map some := hparts ▸ by decide
  simp at hnone

end LegacyAssembler

end BambooNet.Tutk
