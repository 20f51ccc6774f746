import BambooNet.Camera.Sdp

/-!
# One track of a description

A description has media sections, and several of them can be video. What `parse_sdp` returns is put
together from all of these.

**Joining** (`join`). What a section adds to the parser's state depends on the section alone, but
for what the state has already (`foldlM_section`).

**Theorem (`one_track_iff`).** The result is that of one section, the first one with an H.264
mapping, exactly when the other video sections agree with it: the last one on the payload type, the
last one with a mapping on the clock rate, and the first ones that have an SPS, a PPS or a control
attribute on these.
-/

namespace BambooNet.Camera.Sdp

open CString (atoi trim)

/-! ## Sections -/

def stripCr (line : Bytes) : Bytes := if line.getLast? = some 0x0d then line.dropLast else line

/-- An `m=` line. -/
def isMedia (line : Bytes) : Bool := [0x6d, 0x3d].isPrefixOf (stripCr line)

/-- The lines before the first section, and the sections. -/
def sections : List Bytes → List Bytes × List (List Bytes)
  | [] => ([], [])
  | l :: ls =>
    if isMedia l then ([], (l :: (sections ls).1) :: (sections ls).2)
    else (l :: (sections ls).1, (sections ls).2)

/-- What the parser makes of a section alone. -/
def alone (sec : List Bytes) : Except Bytes State := sec.foldlM sdpLine State.initial

def result (s : State) : Except Bytes (H264Track × Bytes) :=
  if s.seenRtpmap then .ok (withGeometry s.track, s.control)
  else .error (ascii "rtsp: SDP had no usable H.264 video track")

theorem parseSdp_eq (sdp : Bytes) :
    parseSdp sdp = ((splitLines 0x0a sdp).foldlM sdpLine State.initial).bind result := by
  rw [parseSdp]
  cases (splitLines 0x0a sdp).foldlM sdpLine State.initial with
  | error e => rfl
  | ok s => rfl

theorem sections_flatten (ls : List Bytes) :
    ls = (sections ls).1 ++ (sections ls).2.flatten := by
  induction ls with
  | nil => rfl
  | cons l ls ih =>
    rw [sections]
    split
    · rw [List.nil_append, List.flatten_cons, List.cons_append, ← ih]
    · rw [List.cons_append, ← ih]

theorem sections_head (ls : List Bytes) : ∀ l ∈ (sections ls).1, isMedia l = false := by
  induction ls with
  | nil =>
    intro l hl
    cases hl
  | cons l ls ih =>
    rw [sections]
    split
    · intro l hl
      cases hl
    · next hl => exact List.forall_mem_cons.2 ⟨Bool.eq_false_iff.2 hl, ih⟩

/-- A section is an `m=` line with the lines up to the next. -/
def IsSection (sec : List Bytes) : Prop :=
  ∃ l ls, sec = l :: ls ∧ isMedia l = true ∧ ∀ x ∈ ls, isMedia x = false

theorem isSection_of_mem {ls : List Bytes} {sec : List Bytes} (h : sec ∈ (sections ls).2) :
    IsSection sec := by
  induction ls with
  | nil => cases h
  | cons l ls ih =>
    rw [sections] at h
    split at h
    · next hl =>
      rcases List.mem_cons.1 h with rfl | h
      · exact ⟨l, _, rfl, hl, sections_head ls⟩
      · exact ih h
    · exact ih h

/-! ## One line -/

theorem isMedia_iff {line : Bytes} :
    isMedia line = true ↔ ∃ val, stripCr line = 0x6d :: 0x3d :: val := by
  rw [isMedia, List.isPrefixOf_iff_prefix]
  constructor
  · rintro ⟨val, h⟩
    exact ⟨val, h.symm⟩
  · rintro ⟨val, h⟩
    exact ⟨val, h.symm⟩

theorem sdpLine_media {line val : Bytes} (h : stripCr line = 0x6d :: 0x3d :: val) (s : State) :
    sdpLine s line = .ok (mediaLine s val) := by
  rw [stripCr] at h
  rw [sdpLine, h]
  rfl

/-- Another line is either passed over or an attribute. -/
theorem sdpLine_other {line : Bytes} (h : isMedia line = false) :
    (∀ s, sdpLine s line = .ok s) ∨
      ∃ val, ∀ s, sdpLine s line = if s.inVideo then attributeLine s val else .ok s := by
  have hstrip : (if line.getLast? = some 0x0d then line.dropLast else line) = stripCr line := rfl
  rcases hcut : stripCr line with _ | ⟨tag, _ | ⟨eq, val⟩⟩
  · exact .inl fun s => by rw [sdpLine, hstrip, hcut]
  · exact .inl fun s => by rw [sdpLine, hstrip, hcut]
  · by_cases heq : eq = 0x3d
    · by_cases htag : tag = 0x6d
      · have hmedia : isMedia line = true := isMedia_iff.2 ⟨val, by rw [hcut, htag, heq]⟩
        rw [h] at hmedia
        cases hmedia
      · by_cases hattr : tag = 0x61
        · refine .inr ⟨val, fun s => ?_⟩
          rw [sdpLine, hstrip, hcut]
          simp [heq, hattr]
        · refine .inl fun s => ?_
          rw [sdpLine, hstrip, hcut]
          simp [heq, htag, hattr]
    · refine .inl fun s => ?_
      rw [sdpLine, hstrip, hcut]
      simp [heq]

/-! ## Joining -/

/-- A track with what a section adds to it; `seen` tells whether the section has a mapping. -/
def joinTrack (a b : H264Track) (seen : Bool) : H264Track :=
  { a with
    sps := if a.sps = [] then b.sps else a.sps
    pps := if a.pps = [] then b.pps else a.pps
    clockRate := if seen then b.clockRate else a.clockRate
    rtpPt := b.rtpPt }

/-- The state behind a video section: before it `s`, of the section alone `t`. -/
def join (s t : State) : State where
  track := joinTrack s.track t.track t.seenRtpmap
  control := if s.control = [] then t.control else s.control
  inVideo := t.inVideo
  seenRtpmap := s.seenRtpmap || t.seenRtpmap
  videoPt := t.videoPt

theorem addSet_joinTrack (a b : H264Track) (seen : Bool) (b64 : Bytes) :
    addSet (joinTrack a b seen) b64 = joinTrack a (addSet b b64) seen := by
  unfold addSet
  cases base64Decode 0 0 b64 with
  | none => rfl
  | some nal =>
    dsimp only
    by_cases hne : nal = []
    · rw [if_pos hne, if_pos hne]
    · rw [if_neg hne, if_neg hne]
      by_cases h7 : Avcc.nalType nal = 7
      · by_cases ha : a.sps = []
        · by_cases hb : b.sps = [] <;> simp [joinTrack, h7, ha, hb]
        · by_cases hb : b.sps = [] <;> simp [joinTrack, h7, ha, hb]
      · by_cases h8 : Avcc.nalType nal = 8
        · by_cases ha : a.pps = []
          · by_cases hb : b.pps = [] <;> simp [joinTrack, h8, ha, hb]
          · by_cases hb : b.pps = [] <;> simp [joinTrack, h8, ha, hb]
        · simp [h7, h8]

theorem foldl_joinTrack {α : Type} {g : H264Track → α → H264Track} {a : H264Track} {seen : Bool}
    (hg : ∀ b x, g (joinTrack a b seen) x = joinTrack a (g b x) seen) (l : List α)
    (b : H264Track) : l.foldl g (joinTrack a b seen) = joinTrack a (l.foldl g b) seen := by
  induction l generalizing b with
  | nil => rfl
  | cons x l ih => rw [List.foldl_cons, List.foldl_cons, hg, ih]

theorem addParam_joinTrack (a b : H264Track) (seen : Bool) (kv : Bytes) :
    addParam (joinTrack a b seen) kv = joinTrack a (addParam b kv) seen := by
  unfold addParam
  cases cutAt 0x3d kv with
  | none => rfl
  | some e =>
    dsimp only
    split
    · exact foldl_joinTrack (addSet_joinTrack a · seen ·) _ b
    · rfl

theorem fmtpLine_join (s t : State) (rest : Bytes) :
    fmtpLine (join s t) rest = join s (fmtpLine t rest) := by
  unfold fmtpLine
  cases cutAt 0x20 rest with
  | none => rfl
  | some e =>
    dsimp only
    by_cases hpt : atoi e.1 = t.videoPt
    · have hjoin : atoi e.1 = (join s t).videoPt := hpt
      rw [if_neg (not_not.2 hpt), if_neg (not_not.2 hjoin)]
      have hfold : (splitLines 0x3b e.2).foldl addParam (joinTrack s.track t.track t.seenRtpmap) =
          joinTrack s.track ((splitLines 0x3b e.2).foldl addParam t.track) t.seenRtpmap :=
        foldl_joinTrack (addParam_joinTrack s.track · t.seenRtpmap ·) _ t.track
      exact congrArg (fun track => { join s t with track }) hfold
    · have hjoin : atoi e.1 ≠ (join s t).videoPt := hpt
      rw [if_pos hpt, if_pos hjoin]

theorem rtpmapLine_join (s t : State) (rest : Bytes) :
    rtpmapLine (join s t) rest = (rtpmapLine t rest).map (join s) := by
  unfold rtpmapLine
  cases cutAt 0x20 rest with
  | none => rfl
  | some e =>
    dsimp only
    by_cases hpt : atoi e.1 = t.videoPt
    · have hjoin : atoi e.1 = (join s t).videoPt := hpt
      rw [if_neg (not_not.2 hpt), if_neg (not_not.2 hjoin)]
      cases cutAt 0x2f e.2 with
      | none => rfl
      | some c =>
        dsimp only
        split
        · rfl
        · simp [join, joinTrack, Except.map]
    · have hjoin : atoi e.1 ≠ (join s t).videoPt := hpt
      rw [if_pos hpt, if_pos hjoin]
      rfl

theorem attributeLine_join (s t : State) (val : Bytes) :
    attributeLine (join s t) val = (attributeLine t val).map (join s) := by
  unfold attributeLine
  split
  · by_cases hs : s.control = []
    · by_cases ht : t.control = [] <;> simp [join, hs, ht, Except.map]
    · by_cases ht : t.control = [] <;> simp [join, hs, ht, Except.map]
  · split
    · exact rtpmapLine_join s t _
    · split
      · rw [fmtpLine_join]
        rfl
      · rfl

theorem attributeLine_inVideo {t t' : State} {val : Bytes} (h : attributeLine t val = .ok t') :
    t'.inVideo = t.inVideo := by
  have hfmtp (rest : Bytes) : (fmtpLine t rest).inVideo = t.inVideo := by
    unfold fmtpLine
    split
    · rfl
    · split <;> rfl
  have hrtpmap {rest : Bytes} (h : rtpmapLine t rest = .ok t') : t'.inVideo = t.inVideo := by
    unfold rtpmapLine at h
    split at h
    · exact Except.ok.inj h ▸ rfl
    · split_ifs at h
      · exact Except.ok.inj h ▸ rfl
      · split at h
        · exact Except.ok.inj h ▸ rfl
        · split_ifs at h
          exact Except.ok.inj h ▸ rfl
  unfold attributeLine at h
  split_ifs at h
  · exact Except.ok.inj h ▸ rfl
  · exact Except.ok.inj h ▸ rfl
  · exact hrtpmap h
  · exact Except.ok.inj h ▸ hfmtp _
  · exact Except.ok.inj h ▸ rfl

/-- Outside of video there is nothing to do up to the next section. -/
theorem foldlM_passed {s : State} (hs : s.inVideo = false) {ls : List Bytes}
    (h : ∀ l ∈ ls, isMedia l = false) : ls.foldlM sdpLine s = .ok s := by
  induction ls with
  | nil => rfl
  | cons l ls ih =>
    obtain ⟨hl, hls⟩ := List.forall_mem_cons.1 h
    have hline : sdpLine s l = .ok s := by
      rcases sdpLine_other hl with hpass | ⟨val, hattr⟩
      · exact hpass s
      · rw [hattr, hs, if_neg Bool.false_ne_true]
    rw [List.foldlM_cons, hline]
    exact ih hls

/-- In a video section the parser does to the joined state what it does to the section's own. -/
theorem foldlM_join (s : State) {t : State} (ht : t.inVideo = true) {ls : List Bytes}
    (h : ∀ l ∈ ls, isMedia l = false) :
    ls.foldlM sdpLine (join s t) = (ls.foldlM sdpLine t).map (join s) := by
  induction ls generalizing t with
  | nil => rfl
  | cons l ls ih =>
    obtain ⟨hl, hls⟩ := List.forall_mem_cons.1 h
    rw [List.foldlM_cons, List.foldlM_cons]
    rcases sdpLine_other hl with hpass | ⟨val, hattr⟩
    · rw [hpass, hpass]
      exact ih ht hls
    · have hjoin : (join s t).inVideo = true := ht
      rw [hattr, hattr, hjoin, ht, if_pos rfl, if_pos rfl, attributeLine_join]
      cases hline : attributeLine t val with
      | error e => rfl
      | ok t' => exact ih ((attributeLine_inVideo hline).trans ht) hls

def isVideo : List Bytes → Bool
  | [] => false
  | l :: _ => (ascii "video ").isPrefixOf ((stripCr l).drop 2)

theorem mediaLine_video {val : Bytes} (h : ascii "video " <+: val) (s : State) :
    mediaLine s val = join s (mediaLine State.initial val) ∧
      (mediaLine State.initial val).inVideo = true := by
  have hspace : val.contains 0x20 = true := by
    rw [List.contains_iff_mem]
    exact h.subset (by decide)
  rw [mediaLine, mediaLine, if_pos h, if_pos h, hspace]
  refine ⟨?_, rfl⟩
  simp [join, joinTrack, State.initial]

/-- **A section by itself**: what it does to the state of the parser. -/
theorem foldlM_section {sec : List Bytes} (h : IsSection sec) (s : State) :
    sec.foldlM sdpLine s =
      if isVideo sec then (alone sec).map (join s) else .ok { s with inVideo := false } := by
  obtain ⟨l, ls, rfl, hl, hls⟩ := h
  obtain ⟨val, hval⟩ := isMedia_iff.1 hl
  have hvideo : isVideo (l :: ls) = true ↔ ascii "video " <+: val := by
    rw [isVideo, hval, List.isPrefixOf_iff_prefix]
    rfl
  rw [alone, List.foldlM_cons, List.foldlM_cons, sdpLine_media hval, sdpLine_media hval]
  by_cases hv : ascii "video " <+: val
  · obtain ⟨hjoin, hin⟩ := mediaLine_video hv s
    rw [if_pos (hvideo.2 hv), hjoin]
    exact foldlM_join s hin hls
  · rw [if_neg (mt hvideo.1 hv), mediaLine, if_neg hv]
    exact foldlM_passed rfl hls

/-! ## All sections -/

/-- The state of the parser behind a section alone. -/
def stateOf (sec : List Bytes) : State :=
  match alone sec with
  | .ok t => t
  | .error _ => State.initial

theorem foldl_join_inVideo (ts : List State) (s : State) (b b' : Bool) :
    { ts.foldl join { s with inVideo := b' } with inVideo := b } =
      { ts.foldl join s with inVideo := b } := by
  cases ts with
  | nil => rfl
  | cons t ts => rfl

theorem foldlM_sections {secs : List (List Bytes)} (h : ∀ sec ∈ secs, IsSection sec)
    {s s' : State} (hs : secs.flatten.foldlM sdpLine s = .ok s') :
    (∀ sec ∈ secs.filter isVideo, alone sec = .ok (stateOf sec)) ∧
      ∃ b, s' = { ((secs.filter isVideo).map stateOf).foldl join s with inVideo := b } := by
  induction secs generalizing s with
  | nil =>
    refine ⟨fun sec hsec => (by cases hsec), s.inVideo, ?_⟩
    exact (Except.ok.inj hs).symm
  | cons sec secs ih =>
    obtain ⟨hsec, hsecs⟩ := List.forall_mem_cons.1 h
    rw [List.flatten_cons, List.foldlM_append, foldlM_section hsec] at hs
    cases hv : isVideo sec with
    | false =>
      rw [hv, if_neg Bool.false_ne_true] at hs
      obtain ⟨halone, b, hb⟩ := ih hsecs hs
      rw [List.filter_cons_of_neg (by rw [hv]; exact Bool.false_ne_true)]
      exact ⟨halone, b, hb.trans (foldl_join_inVideo _ s b false)⟩
    | true =>
      rw [hv, if_pos rfl] at hs
      rw [List.filter_cons_of_pos hv, List.map_cons, List.foldl_cons]
      cases hown : alone sec with
      | error e =>
        rw [hown] at hs
        cases hs
      | ok t =>
        have hstate : stateOf sec = t := by rw [stateOf, hown]
        rw [hown] at hs
        obtain ⟨halone, b, hb⟩ := ih hsecs hs
        refine ⟨List.forall_mem_cons.2 ⟨?_, halone⟩, b, ?_⟩
        · rw [hown, hstate]
        · rw [hstate]
          exact hb

/-! ## What comes out -/

/-- The first value that is not empty. -/
def firstSome : List Bytes → Bytes
  | [] => []
  | x :: l => if x = [] then firstSome l else x

theorem firstSome_singleton (x : Bytes) : firstSome [x] = x := by
  rw [firstSome]
  split
  · next hx => exact hx.symm
  · rfl

theorem firstSome_join (x y : Bytes) (l : List Bytes) :
    firstSome ((if x = [] then y else x) :: l) = firstSome (x :: y :: l) := by
  by_cases hx : x = []
  · rw [if_pos hx, hx]
    rfl
  · rw [if_neg hx, firstSome, firstSome, if_neg hx, if_neg hx]

def clockOf (ts : List State) (clock : ℕ) : ℕ :=
  (ts.filter (·.seenRtpmap)).getLast?.elim clock (·.track.clockRate)

def ptOf (ts : List State) (pt : ℤ) : ℤ := ts.getLast?.elim pt (·.track.rtpPt)

theorem getLast?_cons_elim {α β : Type*} (a : α) (l : List α) (e : β) (g : α → β) :
    (a :: l).getLast?.elim e g = l.getLast?.elim (g a) g := by
  cases l with
  | nil => rfl
  | cons b l => rw [List.getLast?_cons_cons]; rw [List.getLast?_cons]; rfl

theorem clockOf_cons (t : State) (ts : List State) (clock : ℕ) :
    clockOf (t :: ts) clock = clockOf ts (if t.seenRtpmap then t.track.clockRate else clock) := by
  rw [clockOf, clockOf]
  cases ht : t.seenRtpmap with
  | false => rw [List.filter_cons_of_neg (by rw [ht]; exact Bool.false_ne_true)]; rfl
  | true => rw [List.filter_cons_of_pos ht, getLast?_cons_elim]; rfl

/-- The values of the joined state, one by one. -/
theorem foldl_join (ts : List State) (s : State) :
    (ts.foldl join s).seenRtpmap = (s.seenRtpmap || ts.any (·.seenRtpmap)) ∧
      (ts.foldl join s).control = firstSome (s.control :: ts.map (·.control)) ∧
        (ts.foldl join s).track =
          { s.track with
            sps := firstSome (s.track.sps :: ts.map (·.track.sps))
            pps := firstSome (s.track.pps :: ts.map (·.track.pps))
            clockRate := clockOf ts s.track.clockRate
            rtpPt := ptOf ts s.track.rtpPt } := by
  induction ts generalizing s with
  | nil =>
    rw [List.map_nil, List.map_nil, List.map_nil, firstSome_singleton, firstSome_singleton,
      firstSome_singleton]
    exact ⟨(Bool.or_false _).symm, rfl, rfl⟩
  | cons t ts ih =>
    obtain ⟨hseen, hcontrol, htrack⟩ := ih (join s t)
    rw [List.foldl_cons, hseen, hcontrol, htrack]
    refine ⟨?_, firstSome_join _ _ _, ?_⟩
    · rw [join, List.any_cons, Bool.or_assoc]
    · have hsps : firstSome ((join s t).track.sps :: ts.map (·.track.sps)) =
          firstSome (s.track.sps :: (t :: ts).map (·.track.sps)) := firstSome_join _ _ _
      have hpps : firstSome ((join s t).track.pps :: ts.map (·.track.pps)) =
          firstSome (s.track.pps :: (t :: ts).map (·.track.pps)) := firstSome_join _ _ _
      have hpt : ptOf ts (join s t).track.rtpPt = ptOf (t :: ts) s.track.rtpPt := by
        rw [ptOf, ptOf, getLast?_cons_elim]
        rfl
      rw [hsps, hpps, hpt, clockOf_cons]
      rfl

theorem withGeometry_fields (t : H264Track) :
    (withGeometry t).sps = t.sps ∧ (withGeometry t).pps = t.pps ∧
      (withGeometry t).clockRate = t.clockRate ∧ (withGeometry t).rtpPt = t.rtpPt := by
  unfold withGeometry
  split
  · exact ⟨rfl, rfl, rfl, rfl⟩
  · dsimp only
    split
    · exact ⟨rfl, rfl, rfl, rfl⟩
    · exact ⟨rfl, rfl, rfl, rfl⟩

/-! ## One section -/

def mediaSections (sdp : Bytes) : List (List Bytes) := (sections (splitLines 0x0a sdp)).2

/-- The result for a text of one section. -/
def trackOf (sec : List Bytes) : Except Bytes (H264Track × Bytes) := parseSdp (unlines 0x0a sec)

/-- The section is video and maps its payload type to H.264. -/
def mapsH264 (sec : List Bytes) : Bool := (trackOf sec).isOk

/-- What the video sections, each by itself, have to do with the section of `f`. -/
structure Agrees (ts : List State) (f : State) : Prop where
  pt : ptOf ts (-1) = f.track.rtpPt
  clock : clockOf ts 90000 = f.track.clockRate
  sps : firstSome (ts.map (·.track.sps)) = f.track.sps
  pps : firstSome (ts.map (·.track.pps)) = f.track.pps
  control : firstSome (ts.map (·.control)) = f.control

def videoStates (sdp : Bytes) : List State := ((mediaSections sdp).filter isVideo).map stateOf

theorem trackOf_eq {sdp : Bytes} {sec : List Bytes} (h : sec ∈ mediaSections sdp) :
    trackOf sec = (alone sec).bind result := by
  have hlines : ∀ l ∈ sec, 0x0a ∉ l := by
    intro l hl
    have hmem : l ∈ splitLines 0x0a sdp := by
      rw [sections_flatten (splitLines 0x0a sdp)]
      exact List.mem_append_right _ (List.mem_flatten.2 ⟨sec, h, hl⟩)
    exact not_mem_of_mem_splitLines hmem
  rw [trackOf, parseSdp_eq, splitLines_unlines hlines]
  rfl

theorem isSection_of_mediaSections {sdp : Bytes} {sec : List Bytes} (h : sec ∈ mediaSections sdp) :
    IsSection sec := isSection_of_mem h

theorem result_eq_ok {s : State} {r : H264Track × Bytes} (h : result s = .ok r) :
    s.seenRtpmap = true ∧ r = (withGeometry s.track, s.control) := by
  unfold result at h
  split_ifs at h with hseen
  exact ⟨hseen, (Except.ok.inj h).symm⟩

/-- A section that maps its payload type is video, and the parser goes through it. -/
theorem mapsH264_iff {sdp : Bytes} {sec : List Bytes} (h : sec ∈ mediaSections sdp) :
    mapsH264 sec = true ↔
      isVideo sec = true ∧ alone sec = .ok (stateOf sec) ∧ (stateOf sec).seenRtpmap = true := by
  have hsec := foldlM_section (isSection_of_mediaSections h) State.initial
  rw [mapsH264, trackOf_eq h]
  cases hv : isVideo sec with
  | false =>
    rw [hv, if_neg Bool.false_ne_true] at hsec
    rw [alone, hsec]
    refine ⟨fun hok => absurd hok Bool.false_ne_true, fun hall => absurd hall.1 Bool.false_ne_true⟩
  | true =>
    cases hown : alone sec with
    | error e =>
      exact ⟨fun hok => absurd hok Bool.false_ne_true, fun hall => by cases hall.2.1⟩
    | ok t =>
      have hstate : stateOf sec = t := by rw [stateOf, hown]
      rw [hstate]
      cases hseen : t.seenRtpmap with
      | false =>
        refine ⟨fun hok => ?_, fun hall => absurd hall.2.2 Bool.false_ne_true⟩
        have hnone : result t = .error (ascii "rtsp: SDP had no usable H.264 video track") := by
          rw [result, hseen, if_neg Bool.false_ne_true]
        rw [Except.bind, hnone] at hok
        exact absurd hok Bool.false_ne_true
      | true =>
        refine ⟨fun _ => ⟨rfl, rfl, rfl⟩, fun _ => ?_⟩
        rw [Except.bind, result, hseen, if_pos rfl]
        rfl

/-- What the parser has of a section comes from the section. -/
theorem stateOf_join {sec : List Bytes} (hsec : IsSection sec) (hv : isVideo sec = true)
    (hown : alone sec = .ok (stateOf sec)) : stateOf sec = join State.initial (stateOf sec) := by
  have h := foldlM_section hsec State.initial
  rw [hv, if_pos rfl, hown] at h
  have hsame : alone sec = .ok (join State.initial (stateOf sec)) := h
  exact Except.ok.inj (hown.symm.trans hsame)

theorem exists_final {sdp : Bytes} {r : H264Track × Bytes} (h : parseSdp sdp = .ok r) :
    (∀ sec ∈ (mediaSections sdp).filter isVideo, alone sec = .ok (stateOf sec)) ∧
      ((videoStates sdp).foldl join State.initial).seenRtpmap = true ∧
        r = (withGeometry ((videoStates sdp).foldl join State.initial).track,
          ((videoStates sdp).foldl join State.initial).control) := by
  rw [parseSdp_eq, sections_flatten (splitLines 0x0a sdp), List.foldlM_append,
    foldlM_passed rfl (sections_head _)] at h
  have hrun : ((mediaSections sdp).flatten.foldlM sdpLine State.initial).bind result = .ok r := h
  cases hs : (mediaSections sdp).flatten.foldlM sdpLine State.initial with
  | error e =>
    rw [hs] at hrun
    cases hrun
  | ok s =>
    rw [hs] at hrun
    obtain ⟨hseen, hr⟩ := result_eq_ok hrun
    obtain ⟨halone, b, hb⟩ := foldlM_sections (fun _ => isSection_of_mediaSections) hs
    rw [hb] at hseen hr
    exact ⟨halone, hseen, hr⟩

/-- **The result is that of one section** exactly when the others agree with it. -/
theorem one_track_iff {sdp : Bytes} {r : H264Track × Bytes} (h : parseSdp sdp = .ok r) :
    ∃ f, (mediaSections sdp).find? mapsH264 = some f ∧
      (trackOf f = .ok r ↔ Agrees (videoStates sdp) (stateOf f)) := by
  obtain ⟨halone, hseen, rfl⟩ := exists_final h
  obtain ⟨hany, hcontrol, htrack⟩ := foldl_join (videoStates sdp) State.initial
  rw [hany] at hseen
  obtain ⟨t, ht, htseen⟩ := List.any_eq_true.1 hseen
  obtain ⟨sec, hsec, rfl⟩ := List.mem_map.1 ht
  obtain ⟨hmem, hv⟩ := List.mem_filter.1 hsec
  have hsome : ((mediaSections sdp).find? mapsH264).isSome = true :=
    List.find?_isSome.2 ⟨sec, hmem, (mapsH264_iff hmem).2 ⟨hv, halone sec hsec, htseen⟩⟩
  obtain ⟨f, hf⟩ := Option.isSome_iff_exists.1 hsome
  refine ⟨f, hf, ?_⟩
  have hfmem := List.mem_of_find?_eq_some hf
  obtain ⟨hfv, hfown, hfseen⟩ := (mapsH264_iff hfmem).1 (List.find?_some hf)
  have hjoin := stateOf_join (isSection_of_mediaSections hfmem) hfv hfown
  have hresult : trackOf f = .ok (withGeometry (stateOf f).track, (stateOf f).control) := by
    rw [trackOf_eq hfmem, hfown, Except.bind, result, hfseen, if_pos rfl]
  rw [hresult, hcontrol, htrack]
  constructor
  · intro heq
    obtain ⟨hgeometry, hcontrolEq⟩ := Prod.mk.inj (Except.ok.inj heq)
    obtain ⟨hsps, hpps, hclock, hpt⟩ := withGeometry_fields (stateOf f).track
    rw [hgeometry] at hsps hpps hclock hpt
    obtain ⟨hsps', hpps', hclock', hpt'⟩ := withGeometry_fields { State.initial.track with
      sps := firstSome (State.initial.track.sps :: (videoStates sdp).map (·.track.sps))
      pps := firstSome (State.initial.track.pps :: (videoStates sdp).map (·.track.pps))
      clockRate := clockOf (videoStates sdp) State.initial.track.clockRate
      rtpPt := ptOf (videoStates sdp) State.initial.track.rtpPt }
    exact ⟨hpt'.symm.trans hpt, hclock'.symm.trans hclock, hsps'.symm.trans hsps,
      hpps'.symm.trans hpps, hcontrolEq.symm⟩
  · intro hagrees
    have hown : (stateOf f).track = { State.initial.track with
        sps := (stateOf f).track.sps
        pps := (stateOf f).track.pps
        clockRate := (stateOf f).track.clockRate
        rtpPt := (stateOf f).track.rtpPt } := by
      conv_lhs => rw [hjoin, join, joinTrack, hfseen]
      rfl
    have hsame : { State.initial.track with
        sps := firstSome (State.initial.track.sps :: (videoStates sdp).map (·.track.sps))
        pps := firstSome (State.initial.track.pps :: (videoStates sdp).map (·.track.pps))
        clockRate := clockOf (videoStates sdp) State.initial.track.clockRate
        rtpPt := ptOf (videoStates sdp) State.initial.track.rtpPt } = (stateOf f).track := by
      refine Eq.trans ?_ hown.symm
      rw [← hagrees.sps, ← hagrees.pps, ← hagrees.clock, ← hagrees.pt]
      rfl
    have hsameControl : firstSome (State.initial.control :: (videoStates sdp).map (·.control)) =
        (stateOf f).control := hagrees.control
    rw [hsame, hsameControl]

/-- An audio section, and a video section of H.264 behind it. -/
def audioSdp : Bytes :=
  ascii "m=audio 0 RTP/AVP 0\r\na=control:a\r\n" ++
    ascii "m=video 0 RTP/AVP 96\r\na=rtpmap:96 H264/90000\r\na=control:v\r\n"

theorem one_track_iff_audio :
    ∃ f, (mediaSections audioSdp).find? mapsH264 = some f ∧
      (trackOf f = .ok (⟨[], [], 90000, 96, 0, 0, 0⟩, ascii "v") ↔
        Agrees (videoStates audioSdp) (stateOf f)) := by
  have hparse : parseSdp audioSdp = .ok (⟨[], [], 90000, 96, 0, 0, 0⟩, ascii "v") := by
    decide +kernel
  exact one_track_iff hparse

/-- H.264, and motion JPEG behind it. -/
def twoTracksSdp : Bytes :=
  ascii "m=video 0 RTP/AVP 96\na=rtpmap:96 H264/90000\na=control:h\n" ++
    ascii "m=video 0 RTP/AVP 26\na=control:j\n"

/-- **Two tracks are mixed**: the payload type is that of the second. -/
theorem two_tracks_mixed :
    parseSdp twoTracksSdp = .ok (⟨[], [], 90000, 26, 0, 0, 0⟩, ascii "h") ∧
      ∀ f ∈ mediaSections twoTracksSdp,
        trackOf f ≠ .ok (⟨[], [], 90000, 26, 0, 0, 0⟩, ascii "h") := by
  constructor
  · decide +kernel
  · decide +kernel

end BambooNet.Camera.Sdp
