import BambooNet.Lib.Concat
import BambooNet.Tutk.FrameQueue

/-!
# The frame queue on a stream

A sender numbers its frames consecutively and cuts them into slices. `Holds` is the queue after a
set of slice positions of the stream has arrived and the first frames have been emitted. Slices may
arrive in any order (`Holds.addSlices`); as long as the queue is told of holes while an earlier
slice is missing, a flush emits exactly the frames that have become complete (`Holds.flush`).
-/

namespace BambooNet.Tutk

open Serial (dist wrap)
open Concat (At start len)

/-! ## Frames as they are sent -/

/-- A frame and its slices. The number is the one before wrapping. -/
structure SentFrame where
  no : ℤ
  kind : UInt8
  slices : List Bytes
  video : Bytes
  trailer : Bytes
  nonempty : slices ≠ []
  not_audio : kind ≠ 4
  header : ∀ i (h : i < slices.length), parseSliceHeader slices[i] = some
    { kind := kind
      count := slices.length
      index := i
      infoLen := if i + 1 = slices.length then trailer.length else 0
      len := getLe16 slices[i] 8
      frameNo := wrap 32 no }
  contents : slices.flatMap payloadOf = video ++ trailer

namespace SentFrame

/-- The frame with all its slices. -/
def frame (sf : SentFrame) : Frame where
  count := sf.slices.length
  infoLen := sf.trailer.length
  kind := sf.kind
  slices := SortedMap.enum (sf.slices.map payloadOf)

/-- A frame that is more than its info trailer. -/
def HasVideo (sf : SentFrame) : Prop := sf.video ≠ [] ∨ sf.trailer = []

/-- The event that delivers the frame, with what is read behind it. -/
def emitted (sf : SentFrame) (behind : UInt8) : Event :=
  .emit (wrap 32 sf.no) sf.video (sf.frame.isKey behind)

/-- The event delivers the frame. The mark of a keyframe depends on `behind` only where a trailer is
too short to have the flag. -/
def Delivers (sf : SentFrame) (e : Event) : Prop := ∃ behind, e = sf.emitted behind

theorem data_frame (sf : SentFrame) : sf.frame.data = sf.video ++ sf.trailer := by
  have hparts : sf.frame.slices.entries.map (·.2) = sf.slices.map payloadOf :=
    List.ext_getElem (by simp [frame, SortedMap.enum]) fun i _ _ => by
      simp [frame, SortedMap.enum]
  rw [← sf.contents, Frame.data, List.flatMap_def, hparts, List.flatMap_def]

theorem take_videoLen_frame {sf : SentFrame} (h : sf.HasVideo) :
    sf.frame.data.take sf.frame.videoLen = sf.video := by
  have hinfo : sf.frame.infoLen = sf.trailer.length := rfl
  rw [Frame.videoLen, data_frame, hinfo, List.length_append]
  rcases h with h | h
  · have hpos := List.length_pos_iff.2 h
    by_cases ht : sf.trailer.length = 0
    · simp [List.eq_nil_of_length_eq_zero ht]
    · rw [if_pos ⟨ht, by omega⟩, Nat.add_sub_cancel, List.take_left]
  · simp [h]

end SentFrame

/-- The events deliver the frames one by one, in order. -/
def Delivered (fs : List SentFrame) (es : List Event) : Prop :=
  List.Forall₂ SentFrame.Delivers fs es

/-- Slice `i` of a frame, handed to the queue whole or cut to header and payload. -/
theorem addSlice_trim (q : FrameQueue) {p : Bytes} {h : SliceHeader}
    (hp : parseSliceHeader p = some h) : q.addSlice (trim p) = q.addSlice p := by
  rw [FrameQueue.addSlice, FrameQueue.addSlice, parseSliceHeader_trim hp, hp]
  simp only [payload_trim hp]

namespace FrameQueue

/-! ## The queue after some positions of the stream -/

/-- The slices of a stream of frames, frame by frame. -/
def cells (fs : List SentFrame) : List (List Bytes) := fs.map (·.slices)

variable (fs : List SentFrame)

/-- Some slice of frame `f` has arrived. -/
def Started (D : Set ℕ) (f : ℕ) : Prop := ∃ p i, At (cells fs) p f i ∧ p ∈ D

/-- Every slice of frame `f` has arrived. -/
def Full (D : Set ℕ) (f : ℕ) : Prop := ∀ p i, At (cells fs) p f i → p ∈ D

/-- A queued frame has the slices that have arrived. -/
structure Holding (D : Set ℕ) (f : ℕ) (sf : SentFrame) (fr : Frame) : Prop where
  count : fr.count = sf.slices.length
  kind : fr.kind = sf.kind
  slice : ∀ i b, fr.slices.get? i = some b ↔
    ∃ h : i < sf.slices.length, start (cells fs) f + i ∈ D ∧ b = payloadOf sf.slices[i]
  info : fr.infoLen = 0 ∨ fr.infoLen = sf.trailer.length
  info_of_last : start (cells fs) f + (sf.slices.length - 1) ∈ D →
    fr.infoLen = sf.trailer.length

/-- The queue when the slices at the positions `D` have arrived and the first `n` frames have been
emitted. -/
structure Holds (D : Set ℕ) (n : ℕ) (q : FrameQueue) : Prop where
  sound : ∀ key fr, q.pending.get? key = some fr → ∃ f sf, n ≤ f ∧ fs[f]? = some sf ∧
    Started fs D f ∧ key = wrap 32 sf.no ∧ Holding fs D f sf fr
  stored : ∀ f sf, n ≤ f → fs[f]? = some sf → Started fs D f →
    (q.pending.get? (wrap 32 sf.no)).isSome
  haveNext : q.haveNext = decide (0 < n)
  next : ∀ sf, fs[n]? = some sf → 0 < n → q.next = wrap 32 sf.no
  needKey : q.needKey = decide (n = 0)
  dropped : q.dropped = 0

/-- Frames are numbered one after the other. -/
def Numbered : Prop := ∃ first : ℤ, ∀ (f : ℕ) (sf : SentFrame),
  fs[f]? = some sf → sf.no = first + f

variable {fs}

theorem at_iff {p f i : ℕ} : At (cells fs) p f i ↔
    ∃ sf, fs[f]? = some sf ∧ i < sf.slices.length ∧ p = start (cells fs) f + i := by
  unfold At len cells
  rw [List.length_map]
  constructor
  · rintro ⟨hf, hi, hp⟩
    refine ⟨fs[f], List.getElem?_eq_getElem hf, ?_, hp⟩
    simpa [List.getD_eq_getElem?_getD, hf] using hi
  · rintro ⟨sf, hsf, hi, hp⟩
    obtain ⟨hf, rfl⟩ := List.getElem?_eq_some_iff.1 hsf
    exact ⟨hf, by simpa [List.getD_eq_getElem?_getD, hf] using hi, hp⟩

theorem len_pos {f : ℕ} (h : f < (cells fs).length) : 0 < len (cells fs) f := by
  have hf : f < fs.length := by simpa [cells] using h
  have := List.length_pos_iff.2 fs[f].nonempty
  simpa [len, cells, List.getD_eq_getElem?_getD, hf] using this

/-- The slice at a position of the stream. -/
theorem getD_cells {p f i : ℕ} {sf : SentFrame} (h : At (cells fs) p f i) (hsf : fs[f]? = some sf) :
    ∃ hi : i < sf.slices.length, (cells fs).flatten.getD p [] = sf.slices[i] := by
  obtain ⟨sf', hsf', hi, -⟩ := at_iff.1 h
  obtain rfl : sf = sf' := Option.some.inj (hsf.symm.trans hsf')
  obtain ⟨hf, rfl⟩ := List.getElem?_eq_some_iff.1 hsf
  refine ⟨hi, ?_⟩
  rw [h.getD]
  simp [cells, List.getD_eq_getElem?_getD, hf, hi]

/-- The header of slice `i` of a frame. -/
def headerOf (sf : SentFrame) (i : ℕ) (len : ℕ) : SliceHeader where
  kind := sf.kind
  count := sf.slices.length
  index := i
  infoLen := if i + 1 = sf.slices.length then sf.trailer.length else 0
  len := len
  frameNo := wrap 32 sf.no

theorem parse_slice (sf : SentFrame) {i : ℕ} (hi : i < sf.slices.length) :
    parseSliceHeader sf.slices[i] = some (headerOf sf i (getLe16 sf.slices[i] 8)) := sf.header i hi

/-- The first slice of a frame. -/
theorem Holding.first {D : Set ℕ} {f i l : ℕ} {sf : SentFrame} (hsf : fs[f]? = some sf)
    (hi : i < sf.slices.length) (hnone : ¬ Started fs D f) :
    Holding fs (insert (start (cells fs) f + i) D) f sf
      (Frame.add {} (headerOf sf i l) (payloadOf sf.slices[i])) := by
  have hnot (j : ℕ) (hj : j < sf.slices.length) : start (cells fs) f + j ∉ D := fun hm =>
    hnone ⟨_, j, at_iff.2 ⟨sf, hsf, hj, rfl⟩, hm⟩
  have hadd : Frame.add {} (headerOf sf i l) (payloadOf sf.slices[i]) =
      { count := sf.slices.length
        infoLen := if i + 1 = sf.slices.length then sf.trailer.length else 0
        kind := sf.kind
        slices := SortedMap.insert ∅ i (payloadOf sf.slices[i]) } := by
    simp only [Frame.add, headerOf, SortedMap.entries_empty, if_true, ne_eq, not_true_eq_false,
      if_false]
    congr 1
    split <;> simp_all
  rw [hadd]
  refine ⟨rfl, rfl, fun j b => ?_, ?_, fun hm => ?_⟩
  · simp only [SortedMap.get?_insert, SortedMap.get?_empty]
    constructor
    · intro h
      split at h
      · next hji =>
        subst hji
        exact ⟨hi, Set.mem_insert _ _, (Option.some.inj h).symm⟩
      · simp at h
    · rintro ⟨hj, hm, rfl⟩
      have hji : j = i := by
        rcases Set.mem_insert_iff.1 hm with heq | hm
        · omega
        · exact absurd hm (hnot j hj)
      simp [hji]
  · dsimp only
    split
    · exact .inr rfl
    · exact .inl rfl
  · rcases Set.mem_insert_iff.1 hm with heq | hm
    · exact if_pos (by omega)
    · exact absurd hm (hnot _ (by omega))

/-- One more slice of a frame. -/
theorem Holding.add {D : Set ℕ} {f i l : ℕ} {sf : SentFrame} {fr : Frame}
    (h : Holding fs D f sf fr) (hi : i < sf.slices.length) (hne : fr.slices.entries ≠ []) :
    Holding fs (insert (start (cells fs) f + i) D) f sf
      (fr.add (headerOf sf i l) (payloadOf sf.slices[i])) := by
  have hadd : fr.add (headerOf sf i l) (payloadOf sf.slices[i]) =
      { fr with
        infoLen := if i + 1 = sf.slices.length ∧ sf.trailer.length ≠ 0 then sf.trailer.length
          else fr.infoLen
        kind := sf.kind
        slices := fr.slices.insert i (payloadOf sf.slices[i]) } := by
    have hcount : (headerOf sf i l).count = fr.count := h.count.symm
    simp only [Frame.add, hne, if_false, hcount, ne_eq, not_true_eq_false]
    simp only [headerOf]
    congr 1
    by_cases hlast : i + 1 = sf.slices.length
    · simp [hlast]
    · simp [hlast]
  rw [hadd]
  refine ⟨h.count, rfl, fun j b => ?_, ?_, fun hm => ?_⟩
  · simp only [SortedMap.get?_insert]
    constructor
    · intro hb
      split at hb
      · next hji =>
        subst hji
        exact ⟨hi, Set.mem_insert _ _, (Option.some.inj hb).symm⟩
      · obtain ⟨hj, hm, hb⟩ := (h.slice j b).1 hb
        exact ⟨hj, Set.mem_insert_of_mem _ hm, hb⟩
    · rintro ⟨hj, hm, rfl⟩
      split
      · next hji => simp [hji]
      · next hji =>
        refine (h.slice j _).2 ⟨hj, ?_, rfl⟩
        rcases Set.mem_insert_iff.1 hm with heq | hm
        · omega
        · exact hm
  · dsimp only
    split
    · exact .inr rfl
    · exact h.info
  · dsimp only
    split
    · rfl
    · next hnot =>
      rcases Set.mem_insert_iff.1 hm with heq | hm
      · have hz : sf.trailer.length = 0 := by
          by_contra hz
          exact hnot ⟨by omega, hz⟩
        have := h.info
        omega
      · exact h.info_of_last hm

theorem Holding.entries_ne_nil {D : Set ℕ} {f : ℕ} {sf : SentFrame} {fr : Frame}
    (h : Holding fs D f sf fr) (hsf : fs[f]? = some sf) (hstarted : Started fs D f) :
    fr.slices.entries ≠ [] := by
  obtain ⟨p, i, hat, hm⟩ := hstarted
  obtain ⟨sf', hsf', hi, rfl⟩ := at_iff.1 hat
  obtain rfl : sf = sf' := Option.some.inj (hsf.symm.trans hsf')
  have hget := (h.slice i _).2 ⟨hi, hm, rfl⟩
  intro he
  rw [← SortedMap.mem_entries, he] at hget
  simp at hget

/-- More slices of other frames do not change a queued frame. -/
theorem Holding.other {D : Set ℕ} {f p : ℕ} {sf : SentFrame} {fr : Frame}
    (h : Holding fs D f sf fr) (hp : ∀ i < sf.slices.length, start (cells fs) f + i ≠ p) :
    Holding fs (insert p D) f sf fr := by
  have hmem (i : ℕ) (hi : i < sf.slices.length) :
      start (cells fs) f + i ∈ insert p D ↔ start (cells fs) f + i ∈ D := by
    simp [hp i hi]
  refine ⟨h.count, h.kind, fun i b => ?_, h.info, fun hm => h.info_of_last ?_⟩
  · rw [h.slice]
    exact exists_congr fun hi => and_congr_left' (hmem i hi).symm
  · have := List.length_pos_iff.2 sf.nonempty
    exact (hmem _ (by omega)).1 hm

/-- Positions at or after `n` frames, of frames that are less than a quarter of the range away. -/
def Near (n : ℕ) (D : Set ℕ) : Prop := ∀ g, n ≤ g → Started fs D g → g < n + 2 ^ 30

theorem Started.mono {D D' : Set ℕ} {f : ℕ} (h : Started fs D f) (hD : D ⊆ D') :
    Started fs D' f := by
  obtain ⟨p, i, hat, hm⟩ := h
  exact ⟨p, i, hat, hD hm⟩

/-- Frames that are near have different numbers, compared as their indices. -/
theorem dist_near {n f g : ℕ} {sf sg : SentFrame} (hnum : Numbered fs) (hsf : fs[f]? = some sf)
    (hsg : fs[g]? = some sg) (hf : n ≤ f) (hf' : f < n + 2 ^ 30) (hg : n ≤ g)
    (hg' : g < n + 2 ^ 30) : dist (wrap 32 sf.no) (wrap 32 sg.no) = (f : ℤ) - g := by
  obtain ⟨first, hno⟩ := hnum
  rw [hno f sf hsf, hno g sg hsg]
  have heq : first + (f : ℤ) - (first + g) = f - g := by omega
  rw [Serial.dist_wrap]
  · exact heq
  · rw [heq]
    norm_num
    omega
  · rw [heq]
    norm_num
    omega

theorem eq_of_wrap_eq {n f g : ℕ} {sf sg : SentFrame} (hnum : Numbered fs)
    (hsf : fs[f]? = some sf) (hsg : fs[g]? = some sg) (hf : n ≤ f) (hf' : f < n + 2 ^ 30)
    (hg : n ≤ g) (hg' : g < n + 2 ^ 30) (h : wrap 32 sf.no = wrap 32 sg.no) : f = g := by
  have := dist_near hnum hsf hsg hf hf' hg hg'
  rw [h, Serial.dist_self] at this
  omega

/-- **A slice of the stream is queued with its frame.** -/
theorem Holds.addSlice {D : Set ℕ} {n p f i : ℕ} {q : FrameQueue} (h : Holds fs D n q)
    (hnum : Numbered fs) (hp : At (cells fs) p f i) (hn : n ≤ f)
    (hnear : @Near fs n (insert p D)) :
    Holds fs (insert p D) n (q.addSlice ((cells fs).flatten.getD p [])) := by
  obtain ⟨sf, hsf, hi, hpos⟩ := at_iff.1 hp
  obtain ⟨hi', hget⟩ := getD_cells hp hsf
  have hstarted : Started fs (insert p D) f := ⟨p, i, hp, Set.mem_insert _ _⟩
  have hf' := hnear f hn hstarted
  have hsub : D ⊆ insert p D := Set.subset_insert _ _
  -- the slice is not refused as too old
  have hfresh : ¬ (q.haveNext = true ∧ dist (wrap 32 sf.no) q.next < 0) := by
    rintro ⟨hhave, hlt⟩
    have hpos : 0 < n := by simpa [h.haveNext] using hhave
    have hnlt : n < fs.length := lt_of_le_of_lt hn (List.getElem?_eq_some_iff.1 hsf).1
    obtain ⟨sn, hsn⟩ : ∃ sn, fs[n]? = some sn := ⟨fs[n], List.getElem?_eq_getElem hnlt⟩
    rw [h.next sn hsn hpos, dist_near hnum hsf hsn hn hf' (le_refl n) (by omega)] at hlt
    omega
  have hq : q.addSlice ((cells fs).flatten.getD p []) = { q with
      pending := q.pending.insert (wrap 32 sf.no) (((q.pending.get? (wrap 32 sf.no)).getD {}).add
        (headerOf sf i (getLe16 sf.slices[i] 8)) (payloadOf sf.slices[i])) } := by
    rw [hget, FrameQueue.addSlice, parse_slice sf hi]
    simp only [payload_eq (parse_slice sf hi)]
    have hfresh' : ¬ (q.haveNext = true ∧
        dist (headerOf sf i (getLe16 sf.slices[i] 8)).frameNo q.next < 0) := hfresh
    rw [FrameQueue.add, if_neg hfresh']
    rfl
  rw [hq]
  -- the frame the slice goes to
  have hframe : Holding fs (insert p D) f sf (((q.pending.get? (wrap 32 sf.no)).getD {}).add
      (headerOf sf i (getLe16 sf.slices[i] 8)) (payloadOf sf.slices[i])) := by
    rw [hpos]
    cases hg : q.pending.get? (wrap 32 sf.no) with
    | none =>
      refine Holding.first hsf hi fun hst => ?_
      have := h.stored f sf hn hsf hst
      simp [hg] at this
    | some fr =>
      obtain ⟨g, sg, hng, hsg, hst, hkey, hhold⟩ := h.sound _ fr hg
      have hg' := hnear g hng (hst.mono hsub)
      obtain rfl := eq_of_wrap_eq hnum hsf hsg hn hf' hng hg' hkey
      obtain rfl : sf = sg := Option.some.inj (hsf.symm.trans hsg)
      exact hhold.add hi (hhold.entries_ne_nil hsf hst)
  refine ⟨fun key fr hk => ?_, fun g sg hng hsg hst => ?_, h.haveNext, h.next, h.needKey,
    h.dropped⟩
  · rw [SortedMap.get?_insert] at hk
    split at hk
    · next hkey =>
      obtain rfl := Option.some.inj hk
      exact ⟨f, sf, hn, hsf, hstarted, hkey, hframe⟩
    · next hkey =>
      obtain ⟨g, sg, hng, hsg, hst, rfl, hhold⟩ := h.sound key fr hk
      refine ⟨g, sg, hng, hsg, hst.mono hsub, rfl, hhold.other fun j hj heq => hkey ?_⟩
      have hat : At (cells fs) p g j := at_iff.2 ⟨sg, hsg, hj, heq.symm⟩
      obtain rfl := (hp.unique hat).1
      obtain rfl : sf = sg := Option.some.inj (hsf.symm.trans hsg)
      rfl
  · rw [SortedMap.get?_insert]
    split
    · rfl
    · next hkey =>
      refine h.stored g sg hng hsg ?_
      obtain ⟨p', j, hat, hm⟩ := hst
      rcases Set.mem_insert_iff.1 hm with rfl | hm
      · obtain rfl := (hp.unique hat).1
        obtain rfl : sf = sg := Option.some.inj (hsf.symm.trans hsg)
        exact absurd rfl hkey
      · exact ⟨p', j, hat, hm⟩

/-! ## Flushing -/

theorem Holding.frame_of_full {D : Set ℕ} {f : ℕ} {sf : SentFrame} {fr : Frame}
    (h : Holding fs D f sf fr) (hsf : fs[f]? = some sf) (hfull : Full fs D f) :
    fr = sf.frame := by
  have hslices : fr.slices = sf.frame.slices := by
    refine SortedMap.ext_get? fun i => Option.ext fun b => ?_
    rw [h.slice, SentFrame.frame, SortedMap.get?_enum, List.getElem?_map,
      Option.map_eq_some_iff]
    constructor
    · rintro ⟨hi, -, rfl⟩
      exact ⟨sf.slices[i], List.getElem?_eq_getElem hi, rfl⟩
    · rintro ⟨p, hp, rfl⟩
      obtain ⟨hi, rfl⟩ := List.getElem?_eq_some_iff.1 hp
      exact ⟨hi, hfull _ i (at_iff.2 ⟨sf, hsf, hi, rfl⟩), rfl⟩
  have hpos := List.length_pos_iff.2 sf.nonempty
  have hinfo : fr.infoLen = sf.trailer.length :=
    h.info_of_last (hfull _ _ (at_iff.2 ⟨sf, hsf, by omega, rfl⟩))
  have hcount := h.count
  have hkind := h.kind
  obtain ⟨count, infoLen, kind, slices⟩ := fr
  simp only at hslices hinfo hcount hkind
  rw [hslices, hinfo, hcount, hkind]
  rfl

/-- A queued frame with as many slices as it announces has all of them. -/
theorem Holding.full_of_size {D : Set ℕ} {f : ℕ} {sf : SentFrame} {fr : Frame}
    (h : Holding fs D f sf fr) (hsf : fs[f]? = some sf) (hsize : fr.slices.size = fr.count) :
    Full fs D f := by
  have hkeys := SortedMap.keys_eq_range hsize fun i b hb => by
    rw [h.count]
    exact ((h.slice i b).1 hb).1
  intro p i hat
  obtain ⟨sf', hsf', hi, rfl⟩ := at_iff.1 hat
  obtain rfl : sf = sf' := Option.some.inj (hsf.symm.trans hsf')
  have hmem : i ∈ fr.slices.entries.map (·.1) := by
    rw [hkeys, List.mem_range, h.count]
    exact hi
  obtain ⟨⟨j, b⟩, hb, rfl⟩ := List.mem_map.1 hmem
  exact ((h.slice j b).1 (SortedMap.mem_entries.1 hb)).2.1

theorem Holding.size_of_full {D : Set ℕ} {f : ℕ} {sf : SentFrame} {fr : Frame}
    (h : Holding fs D f sf fr) (hsf : fs[f]? = some sf) (hfull : Full fs D f) :
    fr.slices.size = fr.count := by
  rw [h.frame_of_full hsf hfull]
  simp [SentFrame.frame]

/-- The queue after the next frame has been emitted. -/
theorem Holds.emit {D : Set ℕ} {n : ℕ} {q q' : FrameQueue} {sf : SentFrame} (h : Holds fs D n q)
    (hnum : Numbered fs) (hsf : fs[n]? = some sf) (hnear : @Near fs n D)
    (hfull : Full fs D n) (hp : q'.pending = q.pending.erase (wrap 32 sf.no))
    (hnext : q'.next = wrap 32 sf.no + 1) (hhave : q'.haveNext = true)
    (hneed : q'.needKey = false) (hdropped : q'.dropped = q.dropped) : Holds fs D (n + 1) q' := by
  have hstarted : Started fs D n := by
    have hpos := List.length_pos_iff.2 sf.nonempty
    have hat : At (cells fs) (start (cells fs) n + 0) n 0 := at_iff.2 ⟨sf, hsf, hpos, rfl⟩
    exact ⟨_, _, hat, hfull _ _ hat⟩
  have hn := hnear n (le_refl n) hstarted
  refine ⟨fun key fr hk => ?_, fun g sg hg hsg hst => ?_, by simp [hhave], ?_, by simp [hneed],
    hdropped.trans h.dropped⟩
  · rw [hp, SortedMap.get?_erase] at hk
    split at hk
    · simp at hk
    · next hkey =>
      obtain ⟨g, sg, hng, hsg, hst, rfl, hhold⟩ := h.sound key fr hk
      refine ⟨g, sg, ?_, hsg, hst, rfl, hhold⟩
      rcases hng.eq_or_lt with rfl | hlt
      · obtain rfl : sf = sg := Option.some.inj (hsf.symm.trans hsg)
        exact absurd rfl hkey
      · exact hlt
  · rw [hp, SortedMap.get?_erase, if_neg]
    · exact h.stored g sg (by omega) hsg hst
    · intro heq
      have := eq_of_wrap_eq hnum hsg hsf (by omega) (hnear g (by omega) hst) (le_refl n) hn heq
      omega
  · intro sg hsg _
    obtain ⟨first, hno⟩ := hnum
    rw [hnext, hno n sf hsf, hno (n + 1) sg hsg, ← Serial.wrap_add_one]
    congr 1
    push_cast
    ring

/-- What a flush may rely on. -/
structure Flushable (fs : List SentFrame) (D : Set ℕ) (n : ℕ) (holes : Bool) : Prop where
  numbered : Numbered fs
  near : @Near fs n D
  /-- Queued numbers are not on both sides of the wrap. -/
  ordered : ∀ f g sf sg, n ≤ f → f < g → fs[f]? = some sf → fs[g]? = some sg → Started fs D f →
    Started fs D g → wrap 32 sf.no < wrap 32 sg.no
  /-- While a slice of an earlier frame is missing there are holes. -/
  held : ∀ f g, n ≤ f → f < g → ¬ Full fs D f → Started fs D g → holes = true
  /-- Before the first frame is emitted, no other frame is complete and first in the queue. -/
  first : n = 0 → ∀ f, Started fs D f → (∀ g < f, ¬ Started fs D g) → Full fs D f → f = 0
  /-- The stream starts with a keyframe. -/
  key : ∀ sf, fs[0]? = some sf → ∀ behind, sf.frame.isKey behind = true
  video : ∀ (f : ℕ) (sf : SentFrame), fs[f]? = some sf → sf.HasVideo

theorem Flushable.mono {D : Set ℕ} {n m : ℕ} {holes : Bool} (h : Flushable fs D n holes)
    (hm : n ≤ m) : Flushable fs D m holes where
  numbered := h.numbered
  near g hg hst := by
    have := h.near g (hm.trans hg) hst
    omega
  ordered f g sf sg hf := h.ordered f g sf sg (hm.trans hf)
  held f g hf := h.held f g (hm.trans hf)
  first hm0 f := h.first (by omega) f
  key := h.key
  video := h.video

/-- The first queued frame is the first that has started. -/
theorem head_started {D : Set ℕ} {n : ℕ} {q : FrameQueue} {holes : Bool} (h : Holds fs D n q)
    (hfl : Flushable fs D n holes) {no : BitVec 32} {fr : Frame} (hhead : q.head? = some (no, fr)) :
    ∃ f sf, n ≤ f ∧ fs[f]? = some sf ∧ Started fs D f ∧ no = wrap 32 sf.no ∧
      Holding fs D f sf fr ∧ ∀ g, n ≤ g → g < f → ¬ Started fs D g := by
  obtain ⟨rest, hentries⟩ := head?_eq_some hhead
  have hmem : q.pending.get? no = some fr :=
    SortedMap.mem_entries.1 (hentries ▸ List.mem_cons_self)
  obtain ⟨f, sf, hn, hsf, hst, rfl, hhold⟩ := h.sound no fr hmem
  refine ⟨f, sf, hn, hsf, hst, rfl, hhold, fun g hng hlt hstg => ?_⟩
  have hglt : g < fs.length := hlt.trans (List.getElem?_eq_some_iff.1 hsf).1
  obtain ⟨sg, hsg⟩ : ∃ sg, fs[g]? = some sg := ⟨fs[g], List.getElem?_eq_getElem hglt⟩
  have hord := hfl.ordered g f sg sf hng hlt hsg hsf hstg hst
  obtain ⟨frg, hfrg⟩ := Option.isSome_iff_exists.1 (h.stored g sg hng hsg hstg)
  have hsorted : Entries.Sorted ((wrap 32 sf.no, fr) :: rest) := hentries ▸ q.pending.sorted
  have hin : (wrap 32 sg.no, frg) ∈ (wrap 32 sf.no, fr) :: rest :=
    hentries ▸ SortedMap.mem_entries.2 hfrg
  rcases List.mem_cons.1 hin with heq | hin
  · rw [(Prod.mk.inj heq).1] at hord
    exact lt_irrefl _ hord
  · exact lt_asymm hord ((List.pairwise_cons.1 hsorted).1 _ hin)

theorem Full.started {D : Set ℕ} {f : ℕ} {sf : SentFrame} (h : Full fs D f)
    (hsf : fs[f]? = some sf) : Started fs D f := by
  have hpos := List.length_pos_iff.2 sf.nonempty
  have hat : At (cells fs) (start (cells fs) f + 0) f 0 := at_iff.2 ⟨sf, hsf, hpos, rfl⟩
  exact ⟨_, _, hat, h _ _ hat⟩

/-- The next frame goes out when it is delivered complete. -/
theorem deliver_frame {D : Set ℕ} {n : ℕ} {q : FrameQueue} {sf : SentFrame} {holes : Bool}
    (h : Holds fs D n q) (hfl : Flushable fs D n holes) (hsf : fs[n]? = some sf) (behind : UInt8) :
    q.deliver (wrap 32 sf.no) sf.frame behind =
      ({ q with needKey := false }, sf.emitted behind) := by
  have hkind : sf.frame.kind ≠ 4 := sf.not_audio
  have hgate : (q.needKey && !sf.frame.isKey behind && !q.anyFrame) = false := by
    rw [h.needKey]
    by_cases hn : n = 0
    · subst hn
      simp [hfl.key sf hsf]
    · simp [hn]
  rw [deliver, if_neg hkind, hgate, SentFrame.take_videoLen_frame (hfl.video n sf hsf)]
  rfl

/-- **A round of the flush emits the next frame, which is complete.** It neither skips nor drops. -/
theorem Holds.flushStep {D : Set ℕ} {n : ℕ} {q q' : FrameQueue} {holes : Bool} {r : Round}
    {e : Event} (h : Holds fs D n q) (hfl : Flushable fs D n holes) (hr : r.expired = false)
    (hs : q.flushStep holes r = some (q', e)) :
    ∃ sf, fs[n]? = some sf ∧ Full fs D n ∧ sf.Delivers e ∧ Holds fs D (n + 1) q' := by
  obtain ⟨no, fr, hhead, hcases⟩ := flushStep_cases hs
  obtain ⟨f, sf, hn, hsf, hst, rfl, hhold, hmin⟩ := head_started h hfl hhead
  have hflen := (List.getElem?_eq_some_iff.1 hsf).1
  have hnlt : n < fs.length := lt_of_le_of_lt hn hflen
  obtain ⟨sn, hsn⟩ : ∃ sn, fs[n]? = some sn := ⟨fs[n], List.getElem?_eq_getElem hnlt⟩
  have hnext (hhave : q.haveNext = true) : q.next = wrap 32 sn.no :=
    h.next sn hsn (by simpa [h.haveNext] using hhave)
  rcases hcases with ⟨hsize, hgap, rfl, rfl⟩ | ⟨hexp, hhave, hne, rfl, rfl⟩ |
    ⟨hexp, hsize, hmore, -, rfl, rfl⟩
  · -- delivered: the frame is the next one
    have hfull := hhold.full_of_size hsf hsize
    have hfn : f = n := by
      by_cases h0 : n = 0
      · subst h0
        exact hfl.first rfl f hst (fun g hg => hmin g (Nat.zero_le g) hg) hfull
      · have hhave : q.haveNext = true := by simp [h.haveNext]; omega
        have heq : wrap 32 sf.no = wrap 32 sn.no := (hgap hhave).trans (hnext hhave)
        exact eq_of_wrap_eq hfl.numbered hsf hsn hn (hfl.near f hn hst) (le_refl n) (by omega) heq
    subst hfn
    rw [hhold.frame_of_full hsf hfull] at *
    rw [deliver_frame h hfl hsf]
    exact ⟨sf, hsf, hfull, ⟨r.behind, rfl⟩,
      h.emit hfl.numbered hsf hfl.near hfull rfl rfl rfl rfl rfl⟩
  · -- a gap before the frame would have been held
    have hholes : holes ≠ true := fun hh => by simpa [hr] using hexp hh
    have hlt : n < f := lt_of_le_of_ne hn fun heq => by
      subst heq
      obtain rfl : sf = sn := Option.some.inj (hsf.symm.trans hsn)
      exact hne (hnext hhave).symm
    exact absurd (hfl.held n f (le_refl n) hlt
      (fun hfull => hmin n (le_refl n) hlt (hfull.started hsn)) hst) hholes
  · -- an incomplete frame with a later one behind it would have been held
    have hholes : holes ≠ true := fun hh => by simpa [hr] using hexp hh
    obtain ⟨rest, hentries⟩ := head?_eq_some hhead
    obtain ⟨⟨no', fr'⟩, hin⟩ : ∃ e, e ∈ rest := by
      rw [SortedMap.size, hentries, List.length_cons] at hmore
      exact List.exists_mem_of_length_pos (by omega)
    have hsorted : Entries.Sorted ((wrap 32 sf.no, fr) :: rest) := hentries ▸ q.pending.sorted
    have hltno : wrap 32 sf.no < no' := (List.pairwise_cons.1 hsorted).1 _ hin
    have hget : q.pending.get? no' = some fr' :=
      SortedMap.mem_entries.1 (hentries ▸ List.mem_cons_of_mem _ hin)
    obtain ⟨g, sg, hng, hsg, hstg, rfl, -⟩ := h.sound no' fr' hget
    have hlt : f < g := by
      rcases lt_trichotomy f g with hlt | rfl | hlt
      · exact hlt
      · obtain rfl : sf = sg := Option.some.inj (hsf.symm.trans hsg)
        exact absurd hltno (lt_irrefl _)
      · exact absurd hstg (hmin g hng hlt)
    have hnot : ¬ Full fs D f := fun hfull => hsize (hhold.size_of_full hsf hfull)
    exact absurd (hfl.held f g hn hlt hnot hstg) hholes

/-- **A flush emits exactly the frames that have become complete.** -/
theorem Holds.flush {D : Set ℕ} {n : ℕ} {q : FrameQueue} {es : List Event} {holes : Bool}
    {met : ℕ → Round} (h : Holds fs D n q) (hfl : Flushable fs D n holes)
    (hmet : ∀ i, (met i).expired = false) (hn : n ≤ fs.length) (hes : Delivered (fs.take n) es) :
    ∃ m, n ≤ m ∧ m ≤ fs.length ∧ Holds fs D m (q.flush holes met).1 ∧
      Delivered (fs.take m) (es ++ (q.flush holes met).2) ∧
      (∀ f, n ≤ f → f < m → Full fs D f) ∧ (m < fs.length → ¬ Full fs D m) := by
  have hloop := @FrameQueue.flush_induction
    (fun q es => ∃ m, n ≤ m ∧ m ≤ fs.length ∧ Holds fs D m q ∧ Delivered (fs.take m) es ∧
      ∀ f, n ≤ f → f < m → Full fs D f)
    holes met
    (by
      rintro q es i q' e hs ⟨m, hnm, hm, hq, hes, hfull⟩
      obtain ⟨sf, hsf, hfullm, hdelivers, hq'⟩ := hq.flushStep (hfl.mono hnm) (hmet i) hs
      obtain ⟨hlt, rfl⟩ := List.getElem?_eq_some_iff.1 hsf
      refine ⟨m + 1, by omega, hlt, hq', ?_, fun f hf hfm => ?_⟩
      · rw [List.take_succ_eq_append_getElem hlt]
        exact List.rel_append hes (.cons hdelivers .nil)
      · rcases Nat.lt_succ_iff_lt_or_eq.1 hfm with hlt' | rfl
        · exact hfull f hf hlt'
        · exact hfullm) _ _
    ⟨n, le_refl n, hn, h, hes, fun f hf hf' => absurd hf' (not_lt.2 hf)⟩
  obtain ⟨m, hnm, hm, hq, hes, hfull⟩ := hloop
  refine ⟨m, hnm, hm, hq, hes, hfull, fun hlt hfullm => ?_⟩
  -- a complete next frame would not have stopped the flush
  obtain ⟨j, hj⟩ := q.flush_done holes met
  obtain ⟨sm, hsm⟩ : ∃ sm, fs[m]? = some sm := ⟨fs[m], List.getElem?_eq_getElem hlt⟩
  have hflm := hfl.mono hnm
  have hstm := hfullm.started hsm
  obtain ⟨fr, hfr⟩ := Option.isSome_iff_exists.1 (hq.stored m sm (le_refl m) hsm hstm)
  obtain ⟨⟨no, fr'⟩, hhead⟩ : ∃ e, (q.flush holes met).1.head? = some e := by
    have hin := SortedMap.mem_entries.2 hfr
    rw [head?]
    exact Option.isSome_iff_exists.1 (by
      cases he : (q.flush holes met).1.pending.entries with
      | nil => simp [he] at hin
      | cons e rest => rfl)
  obtain ⟨f, sf, hf, hsf, hst, rfl, hhold, hmin⟩ := head_started hq hflm hhead
  have hfm : f = m := by
    rcases hf.eq_or_lt with rfl | hlt'
    · rfl
    · exact absurd hstm (hmin m (le_refl m) hlt')
  subst hfm
  obtain rfl : sf = sm := Option.some.inj (hsf.symm.trans hsm)
  refine flushStep_ne_none hhead (hhold.size_of_full hsf hfullm) (fun hhave => ?_) hj
  exact (hq.next sf hsf (by simpa [hq.haveNext] using hhave)).symm

end FrameQueue

end BambooNet.Tutk
