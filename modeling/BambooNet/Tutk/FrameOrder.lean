import BambooNet.Tutk.FrameQueue

/-!
# Order and gating of the frame queue

`Sound` is what a run of the queue promises about its events. The queue keeps its frames in plain
order and compares them with the next one in serial order, and it looks for the keyframe flag in
every info trailer. So the promise holds as long as the two orders agree on the frames that are
queued together and no frame is asked for a flag that it does not have (`Fits`, `frames_in_order`).
-/

namespace BambooNet.Tutk

open Serial (dist)

namespace Event

/-- The first number an event accounts for. -/
def start : Event → BitVec 32
  | emit no _ _ | audio no | drop no | skip no _ => no

/-- The number after the last one an event accounts for. -/
def stop : Event → BitVec 32
  | emit no _ _ | audio no | drop no => no + 1
  | skip _ no => no

/-- Frame numbers are given up. -/
def IsLoss : Event → Prop
  | drop _ | skip _ _ => True
  | _ => False

/-- The number of an emitted frame. -/
def emitted? : Event → Option (BitVec 32)
  | emit no _ _ => some no
  | _ => none

end Event

/-- The numbers of the emitted frames. -/
def emitted (es : List Event) : List (BitVec 32) := es.filterMap Event.emitted?

namespace FrameQueue

/-! ## The promise -/

/-- The slices handed to the queue. -/
def given (ops : List Op) : List Bytes :=
  ops.filterMap fun op => match op with
    | .slice p => some p
    | .flush _ _ => none

/-- `data` without an info trailer of `len` bytes; data no longer than the trailer stays. -/
def withoutInfo (data : Bytes) (len : ℕ) : Bytes :=
  if len ≠ 0 ∧ data.length > len then data.take (data.length - len) else data

/-- `part` is the payload of slice `i` of `count` of frame `no`. -/
def IsPart (slices : List Bytes) (no : BitVec 32) (count infoLen i : ℕ) (part : Bytes) : Prop :=
  ∃ p h, p ∈ slices ∧ parseSliceHeader p = some h ∧ h.frameNo = no ∧ h.count = count ∧
    h.index = i ∧ part = payload p h ∧ (h.infoLen ≠ 0 → infoLen ≠ 0)

/-- The length of an info trailer comes from a slice of the frame. -/
def IsInfoLen (slices : List Bytes) (no : BitVec 32) (infoLen : ℕ) : Prop :=
  infoLen = 0 ∨ ∃ p h, p ∈ slices ∧ parseSliceHeader p = some h ∧ h.frameNo = no ∧
    h.infoLen = infoLen

/-- The kind of a frame comes from a slice of it. -/
def IsKind (slices : List Bytes) (no : BitVec 32) (kind : UInt8) : Prop :=
  ∃ p h, p ∈ slices ∧ parseSliceHeader p = some h ∧ h.frameNo = no ∧ h.kind = kind

/-- A frame of this kind, with these bytes, is a keyframe: by its kind, as a JPEG, by the flag at
`[2]` of its info trailer, or as H.264. -/
def Keyframe (kind : UInt8) (bytes : Bytes) (infoLen : ℕ) : Prop :=
  kind = 5 ∨ isJpeg bytes = true ∨
    (infoLen ≠ 0 ∧ infoLen < bytes.length ∧ bytes[bytes.length - infoLen + 2]? = some 1) ∨
    (startsWithStartCode (withoutInfo bytes infoLen) = true ∧
      h264IsKeyframe (withoutInfo bytes infoLen) = true)

/-- `data` is frame `no`, all its slices in index order without the info trailer, and `key` says
whether it is a keyframe. -/
def Whole (slices : List Bytes) (no : BitVec 32) (data : Bytes) (key : Bool) : Prop :=
  ∃ (count infoLen : ℕ) (kind : UInt8) (parts : List Bytes), 0 < count ∧ parts.length = count ∧
    (∀ i (h : i < parts.length), IsPart slices no count infoLen i parts[i]) ∧
    IsInfoLen slices no infoLen ∧ IsKind slices no kind ∧
    data = withoutInfo parts.flatten infoLen ∧ (key = true ↔ Keyframe kind parts.flatten infoLen)

/-- After a loss no inter frame is emitted before a keyframe. -/
def Gated (es : List Event) : Prop :=
  ∀ before loss mid no data after, es = before ++ loss :: (mid ++ .emit no data false :: after) →
    loss.IsLoss → ∃ no' data', .emit no' data' true ∈ mid

/-- What a run of calls promises about its events. -/
structure Sound (anyFrame : Bool) (ops : List Op) (es : List Event) : Prop where
  /-- An emitted frame is complete, and marked as what it is. -/
  whole : ∀ no data key, .emit no data key ∈ es → Whole (given ops) no data key
  /-- An emitted frame is later than the one emitted before it. -/
  forward : (emitted es).IsChain fun a b => 0 < dist b a
  /-- No number is emitted twice before the numbers have gone all the way round. -/
  once : Serial.travel (emitted es) < 2 ^ 32 → (emitted es).Nodup
  /-- No frame number is passed over in silence. -/
  accounted : es.IsChain fun a b => a.stop = b.start
  gated : anyFrame = false → Gated es

/-- Fewer than half the range after the last number, if there is one. -/
def After (no : BitVec 32) : Option (BitVec 32) → Prop
  | none => True
  | some last => 0 < dist no last

instance (no : BitVec 32) : (last : Option (BitVec 32)) → Decidable (After no last)
  | none => .isTrue trivial
  | some last => inferInstanceAs (Decidable (0 < dist no last))

/-- A frame number fits the queue: plain order and serial order agree about it and every queued
number, and it is fewer than half the range after the last emitted one. -/
def FitsNumber (q : FrameQueue) (es : List Event) (no : BitVec 32) : Prop :=
  (∀ f ∈ q.pending.entries, (f.1 < no → 0 < dist no f.1) ∧ (no < f.1 → 0 < dist f.1 no)) ∧
    After no (emitted es).getLast?

instance (q : FrameQueue) (es : List Event) (no : BitVec 32) : Decidable (FitsNumber q es no) :=
  inferInstanceAs (Decidable (_ ∧ _))

/-- A frame that has all its slices has the flag that it is asked for. -/
def HasFlag (f : Frame) : Prop := f.slices.size = f.count → ¬ f.AsksShortTrailer

instance (f : Frame) : Decidable (HasFlag f) := inferInstanceAs (Decidable (_ → _))

/-- The frame of a number after one more slice. -/
def grown (q : FrameQueue) (h : SliceHeader) (part : Bytes) : Frame :=
  ((q.pending.get? h.frameNo).getD {}).add h part

/-- A slice that is not refused as too old has a frame number that fits the queue, and does not
complete a frame without the flag that it is asked for. -/
def Fits (q : FrameQueue) (es : List Event) : Op → Prop
  | .flush _ _ => True
  | .slice p => ∀ h ∈ parseSliceHeader p, ¬ (q.haveNext = true ∧ dist h.frameNo q.next < 0) →
      FitsNumber q es h.frameNo ∧ HasFlag (q.grown h (payload p h))

instance (q : FrameQueue) (es : List Event) : (op : Op) → Decidable (Fits q es op)
  | .flush _ _ => .isTrue trivial
  | .slice p => inferInstanceAs (Decidable (∀ h ∈ parseSliceHeader p,
      ¬ (q.haveNext = true ∧ dist h.frameNo q.next < 0) →
        FitsNumber q es h.frameNo ∧ HasFlag (q.grown h (payload p h))))

/-! ## Order -/

/-- The queued frames are in serial order, after the next and the last emitted number. -/
structure InOrder (q : FrameQueue) (es : List Event) : Prop where
  ahead : q.haveNext = true → ∀ key, (q.pending.get? key).isSome → 0 ≤ dist key q.next
  agree : ∀ a b, (q.pending.get? a).isSome → (q.pending.get? b).isSome → a < b → 0 < dist b a
  later : ∀ last, (emitted es).getLast? = some last →
    ∀ key, (q.pending.get? key).isSome → 0 < dist key last
  forward : (emitted es).IsChain fun a b => 0 < dist b a
  fresh : q.haveNext = false → es = []
  reached : ∀ e, es.getLast? = some e → q.haveNext = true ∧ e.stop = q.next
  accounted : es.IsChain fun a b => a.stop = b.start

theorem InOrder.init (anyFrame : Bool) : InOrder { anyFrame := anyFrame } [] :=
  ⟨by simp, by simp, by simp [emitted], List.isChain_nil, fun _ => rfl, by simp, List.isChain_nil⟩

theorem head_isSome {q : FrameQueue} {no : BitVec 32} {f : Frame} (h : q.head? = some (no, f)) :
    q.pending.get? no = some f := by
  obtain ⟨rest, hentries⟩ := head?_eq_some h
  exact SortedMap.mem_entries.1 (hentries ▸ List.mem_cons_self)

/-- The other queued numbers come after the first. -/
theorem head_lt {q : FrameQueue} {no key : BitVec 32} {f : Frame} (h : q.head? = some (no, f))
    (hkey : (q.pending.get? key).isSome) (hne : key ≠ no) : no < key := by
  obtain ⟨rest, hentries⟩ := head?_eq_some h
  obtain ⟨g, hg⟩ := Option.isSome_iff_exists.1 hkey
  have hmem : (key, g) ∈ (no, f) :: rest := hentries ▸ SortedMap.mem_entries.2 hg
  have hsorted : Entries.Sorted ((no, f) :: rest) := hentries ▸ q.pending.sorted
  rcases List.mem_cons.1 hmem with heq | hmem
  · exact absurd (Prod.mk.inj heq).1 hne
  · exact (List.pairwise_cons.1 hsorted).1 _ hmem

theorem emitted_append (es es' : List Event) : emitted (es ++ es') = emitted es ++ emitted es' :=
  List.filterMap_append

/-- One more event continues the account. -/
theorem isChain_concat {es : List Event} {e : Event}
    (h : es.IsChain fun a b => a.stop = b.start) (hlast : ∀ a, es.getLast? = some a →
      a.stop = e.start) : (es ++ [e]).IsChain fun a b => a.stop = b.start := by
  refine List.isChain_append.2 ⟨h, List.isChain_singleton e, ?_⟩
  intro a ha b hb
  obtain rfl : e = b := by simpa using hb
  exact hlast a ha

/-- A round that takes the first frame off the queue. -/
theorem InOrder.take {q q' : FrameQueue} {es : List Event} {no : BitVec 32} {f : Frame} {e : Event}
    (h : InOrder q es) (hhead : q.head? = some (no, f)) (hnext : q.haveNext = true → no = q.next)
    (hp : q'.pending = q.pending.erase no) (hn : q'.next = no + 1) (hh : q'.haveNext = true)
    (hstart : e.start = no) (hstop : e.stop = no + 1)
    (hemit : e.emitted? = none ∨ e.emitted? = some no) : InOrder q' (es ++ [e]) := by
  have hmem := head_isSome hhead
  have hget (key : BitVec 32) (hk : (q'.pending.get? key).isSome) :
      (q.pending.get? key).isSome ∧ key ≠ no := by
    rw [hp, SortedMap.get?_erase] at hk
    split at hk
    · simp at hk
    · next hne => exact ⟨hk, hne⟩
  have hpast (key : BitVec 32) (hk : (q'.pending.get? key).isSome) : 0 < dist key no := by
    obtain ⟨hk, hne⟩ := hget key hk
    exact h.agree no key (by simp [hmem]) hk (head_lt hhead hk hne)
  have hem : emitted (es ++ [e]) = emitted es ∨ emitted (es ++ [e]) = emitted es ++ [no] := by
    rw [emitted_append]
    rcases hemit with he | he
    · exact .inl (by simp [emitted, he])
    · exact .inr (by simp [emitted, he])
  refine ⟨fun _ key hk => ?_, ?_, ?_, ?_, by simp [hh], ?_, ?_⟩
  · have := hpast key hk
    rw [hn, Serial.dist_succ (by norm_num) this]
    omega
  · intro a b ha hb
    exact h.agree a b (hget a ha).1 (hget b hb).1
  · intro last hlast key hk
    rcases hem with heq | heq
    · exact h.later last (heq ▸ hlast) key (hget key hk).1
    · obtain rfl : no = last := by simpa [heq] using hlast
      exact hpast key hk
  · rcases hem with heq | heq
    · exact heq ▸ h.forward
    · rw [heq]
      refine List.isChain_append.2 ⟨h.forward, List.isChain_singleton no, ?_⟩
      intro a ha b hb
      obtain rfl : no = b := by simpa using hb
      exact h.later a ha no (by simp [hmem])
  · intro e' he'
    obtain rfl : e = e' := by simpa using he'
    exact ⟨hh, hstop.trans hn.symm⟩
  · refine isChain_concat h.accounted fun a ha => ?_
    obtain ⟨hhave, hstop'⟩ := h.reached a ha
    rw [hstop', hstart, hnext hhave]

/-- A round that skips to the first frame. -/
theorem InOrder.skip {q : FrameQueue} {es : List Event} {no : BitVec 32} {f : Frame} {d : ℤ}
    (h : InOrder q es) (hhead : q.head? = some (no, f)) (hh : q.haveNext = true) :
    InOrder { q with needKey := true, dropped := d, next := no } (es ++ [.skip q.next no]) := by
  have hmem := head_isSome hhead
  have hem : emitted (es ++ [.skip q.next no]) = emitted es := by
    simp [emitted, Event.emitted?]
  refine ⟨fun _ key hk => ?_, h.agree, ?_, hem ▸ h.forward, by simp [hh], ?_, ?_⟩
  · by_cases hne : key = no
    · simp [hne]
    · exact (h.agree no key (by simp [hmem]) hk (head_lt hhead hk hne)).le
  · rw [hem]
    exact h.later
  · intro e he
    obtain rfl : Event.skip q.next no = e := by simpa using he
    exact ⟨hh, rfl⟩
  · exact isChain_concat h.accounted fun a ha => (h.reached a ha).2

theorem deliver_event (q : FrameQueue) (no : BitVec 32) (f : Frame) (behind : UInt8) :
    (q.deliver no f behind).2.start = no ∧ (q.deliver no f behind).2.stop = no + 1 ∧
      ((q.deliver no f behind).2.emitted? = none ∨
        (q.deliver no f behind).2.emitted? = some no) := by
  unfold deliver
  split
  · exact ⟨rfl, rfl, .inl rfl⟩
  · split
    · exact ⟨rfl, rfl, .inl rfl⟩
    · exact ⟨rfl, rfl, .inr rfl⟩

theorem InOrder.flushStep {q q' : FrameQueue} {es : List Event} {holes : Bool} {r : Round}
    {e : Event} (h : InOrder q es) (hs : q.flushStep holes r = some (q', e)) :
    InOrder q' (es ++ [e]) := by
  obtain ⟨no, f, hhead, hcases⟩ := flushStep_cases hs
  rcases hcases with ⟨-, hnext, rfl, rfl⟩ | ⟨-, hn, -, rfl, rfl⟩ | ⟨-, -, -, hnext, rfl, rfl⟩
  · obtain ⟨hstart, hstop, hemit⟩ := q.deliver_event no f r.behind
    exact h.take hhead hnext rfl rfl rfl hstart hstop hemit
  · exact h.skip hhead hn
  · exact h.take hhead hnext rfl rfl rfl rfl rfl (.inl rfl)

/-- What a slice does to the queue: nothing, or it goes to the frame of its number. -/
theorem addSlice_cases (q : FrameQueue) (p : Bytes) : q.addSlice p = q ∨
    ∃ h, parseSliceHeader p = some h ∧ ¬ (q.haveNext = true ∧ dist h.frameNo q.next < 0) ∧
      q.addSlice p = { q with
        pending := q.pending.insert h.frameNo (q.grown h (payload p h)) } := by
  unfold addSlice
  split
  · next h hp =>
    unfold add
    split
    · exact .inl rfl
    · next hacc => exact .inr ⟨h, hp, hacc, rfl⟩
  · exact .inl rfl

theorem InOrder.addSlice {q : FrameQueue} {es : List Event} {p : Bytes} (h : InOrder q es)
    (hfits : Fits q es (.slice p)) : InOrder (q.addSlice p) es := by
  rcases q.addSlice_cases p with heq | ⟨hd, hp, hacc, heq⟩
  · rwa [heq]
  · obtain ⟨hagree', hlast⟩ := (hfits hd hp hacc).1
    have hagree (key : BitVec 32) (hk : (q.pending.get? key).isSome) :
        (key < hd.frameNo → 0 < dist hd.frameNo key) ∧
          (hd.frameNo < key → 0 < dist key hd.frameNo) := by
      obtain ⟨g, hg⟩ := Option.isSome_iff_exists.1 hk
      exact hagree' (key, g) (SortedMap.mem_entries.2 hg)
    have hget (key : BitVec 32)
        (hk : ((q.pending.insert hd.frameNo (q.grown hd (payload p hd))).get? key).isSome) :
        key = hd.frameNo ∨ (q.pending.get? key).isSome := by
      rw [SortedMap.get?_insert] at hk
      split at hk
      · next h => exact .inl h
      · exact .inr hk
    rw [heq]
    refine ⟨fun hn key hk => ?_, fun a b ha hb hab => ?_, fun last hl key hk => ?_, h.forward,
      h.fresh, h.reached, h.accounted⟩
    · rcases hget key hk with rfl | hk
      · exact not_lt.1 fun hlt => hacc ⟨hn, hlt⟩
      · exact h.ahead hn key hk
    · rcases hget a ha with rfl | ha
      · rcases hget b hb with rfl | hb
        · exact absurd hab (lt_irrefl _)
        · exact (hagree b hb).2 hab
      · rcases hget b hb with rfl | hb
        · exact (hagree a ha).1 hab
        · exact h.agree a b ha hb hab
    · rcases hget key hk with rfl | hk
      · rw [hl] at hlast
        exact hlast
      · exact h.later last hl key hk

/-! ## Contents -/

/-- Every queued frame has a property. -/
def Every (P : BitVec 32 → Frame → Prop) (q : FrameQueue) : Prop :=
  ∀ no f, q.pending.get? no = some f → P no f

section Every

variable {P : BitVec 32 → Frame → Prop} {q q' : FrameQueue}

/-- A slice changes the frame of its number. -/
theorem Every.addSlice {p : Bytes} (h : Every P q) (hgrown : ∀ hd, parseSliceHeader p = some hd →
    ¬ (q.haveNext = true ∧ dist hd.frameNo q.next < 0) →
      P hd.frameNo (q.grown hd (payload p hd))) : Every P (q.addSlice p) := by
  intro no f hf
  rcases q.addSlice_cases p with heq | ⟨hd, hp, hacc, heq⟩
  · exact h no f (heq ▸ hf)
  · rw [heq] at hf
    have hf' : (q.pending.insert hd.frameNo (q.grown hd (payload p hd))).get? no = some f := hf
    rw [SortedMap.get?_insert] at hf'
    split at hf'
    · next hno =>
      obtain rfl := Option.some.inj hf'
      exact hno ▸ hgrown hd hp hacc
    · exact h no f hf'

theorem Every.erase {no : BitVec 32} (h : Every P q) (hq : q'.pending = q.pending.erase no) :
    Every P q' := by
  intro no' f hf
  rw [hq, SortedMap.get?_erase] at hf
  split at hf
  · cases hf
  · exact h no' f hf

/-- A round changes no frame. -/
theorem Every.flushStep {holes : Bool} {r : Round} {e : Event} (h : Every P q)
    (hs : q.flushStep holes r = some (q', e)) : Every P q' := by
  obtain ⟨no, f, -, ⟨-, -, -, rfl⟩ | ⟨-, -, -, -, rfl⟩ | ⟨-, -, -, -, -, rfl⟩⟩ :=
    flushStep_cases hs
  · exact h.erase rfl
  · exact h
  · exact h.erase rfl

end Every

/-- A queued frame is made of slices of its number. -/
structure Built (slices : List Bytes) (no : BitVec 32) (f : Frame) : Prop where
  part : ∀ i b, f.slices.get? i = some b →
    i < f.count ∧ IsPart slices no f.count f.infoLen i b
  info : IsInfoLen slices no f.infoLen
  kind : IsKind slices no f.kind
  nonempty : f.slices.entries ≠ []

theorem IsPart.mono {slices slices' : List Bytes} {no : BitVec 32} {count infoLen infoLen' i : ℕ}
    {part : Bytes} (h : IsPart slices no count infoLen i part) (hs : slices ⊆ slices')
    (hi : infoLen ≠ 0 → infoLen' ≠ 0) : IsPart slices' no count infoLen' i part := by
  obtain ⟨p, hd, hp, hparse, hno, hc, hidx, hb, hinfo⟩ := h
  exact ⟨p, hd, hs hp, hparse, hno, hc, hidx, hb, fun h => hi (hinfo h)⟩

theorem IsInfoLen.mono {slices slices' : List Bytes} {no : BitVec 32} {infoLen : ℕ}
    (h : IsInfoLen slices no infoLen) (hs : slices ⊆ slices') : IsInfoLen slices' no infoLen :=
  h.imp_right fun ⟨p, hd, hp, hrest⟩ => ⟨p, hd, hs hp, hrest⟩

theorem IsKind.mono {slices slices' : List Bytes} {no : BitVec 32} {kind : UInt8}
    (h : IsKind slices no kind) (hs : slices ⊆ slices') : IsKind slices' no kind := by
  obtain ⟨p, hd, hp, hrest⟩ := h
  exact ⟨p, hd, hs hp, hrest⟩

theorem Built.mono {slices slices' : List Bytes} {no : BitVec 32} {f : Frame}
    (h : Built slices no f) (hs : slices ⊆ slices') : Built slices' no f :=
  ⟨fun i b hb => ⟨(h.part i b hb).1, (h.part i b hb).2.mono hs id⟩, h.info.mono hs,
    h.kind.mono hs, h.nonempty⟩

theorem Whole.mono {slices slices' : List Bytes} {no : BitVec 32} {data : Bytes} {key : Bool}
    (h : Whole slices no data key) (hs : slices ⊆ slices') : Whole slices' no data key := by
  obtain ⟨count, infoLen, kind, parts, hpos, hlen, hpart, hinfo, hkind, hrest⟩ := h
  exact ⟨count, infoLen, kind, parts, hpos, hlen, fun i hi => (hpart i hi).mono hs id,
    hinfo.mono hs, hkind.mono hs, hrest⟩

/-- A slice keeps its frame built. -/
theorem Built.add {slices : List Bytes} {p : Bytes} {hd : SliceHeader} {of : Option Frame}
    (hp : p ∈ slices) (hparse : parseSliceHeader p = some hd)
    (h : ∀ f, of = some f → Built slices hd.frameNo f) :
    Built slices hd.frameNo ((of.getD {}).add hd (payload p hd)) := by
  have hidx := (parseSliceHeader_spec hparse).1
  -- the part the slice becomes, whatever trailer length the frame has after it
  have hpart (infoLen : ℕ) : IsPart slices hd.frameNo hd.count
      (if hd.infoLen ≠ 0 then hd.infoLen else infoLen) hd.index (payload p hd) :=
    ⟨p, hd, hp, hparse, rfl, rfl, rfl, rfl, fun h => by rw [if_pos h]; exact h⟩
  have hinfo (infoLen : ℕ) (hi : IsInfoLen slices hd.frameNo infoLen) :
      IsInfoLen slices hd.frameNo (if hd.infoLen ≠ 0 then hd.infoLen else infoLen) := by
    split
    · exact .inr ⟨p, hd, hp, hparse, rfl, rfl⟩
    · exact hi
  have hkind : IsKind slices hd.frameNo hd.kind := ⟨p, hd, hp, hparse, rfl, rfl⟩
  have hne (m : SortedMap ℕ Bytes) : (m.insert hd.index (payload p hd)).entries ≠ [] := by
    intro he
    have hget : (m.insert hd.index (payload p hd)).get? hd.index = some (payload p hd) := by simp
    rw [← SortedMap.mem_entries, he] at hget
    simp at hget
  cases hof : of with
  | none =>
    simp only [Option.getD_none, Frame.add, SortedMap.entries_empty, if_true, ne_eq,
      not_true_eq_false, if_false]
    refine ⟨fun i b hb => ?_, hinfo 0 (.inl rfl), hkind, hne _⟩
    have hb' : (SortedMap.insert ∅ hd.index (payload p hd)).get? i = some b := hb
    rw [SortedMap.get?_insert] at hb'
    split at hb'
    · next hi =>
      obtain rfl := Option.some.inj hb'
      subst hi
      exact ⟨hidx, hpart 0⟩
    · simp at hb'
  | some f =>
    have hf := h f hof
    simp only [Option.getD_some, Frame.add, hf.nonempty, if_false]
    split
    · exact hf
    · next hcount =>
      have hcount' : hd.count = f.count := by simpa using hcount
      refine ⟨fun i b hb => ?_, hinfo _ hf.info, hkind, hne _⟩
      have hb' : (f.slices.insert hd.index (payload p hd)).get? i = some b := hb
      rw [SortedMap.get?_insert] at hb'
      show i < f.count ∧ IsPart _ _ f.count _ i b
      split at hb'
      · next hi =>
        obtain rfl := Option.some.inj hb'
        subst hi
        rw [← hcount']
        exact ⟨hidx, hpart _⟩
      · obtain ⟨hi, hpart'⟩ := hf.part i b hb'
        refine ⟨hi, hpart'.mono (fun _ h => h) fun hne => ?_⟩
        split <;> assumption

theorem take_videoLen (f : Frame) : f.data.take f.videoLen = withoutInfo f.data f.infoLen := by
  rw [withoutInfo, Frame.videoLen]
  split
  · rfl
  · exact List.take_of_length_le (le_refl _)

/-- Where the flag is inside, what lies behind the frame does not matter. -/
theorem flag_iff {f : Frame} (hlong : f.infoLen ≠ 1 ∧ f.infoLen ≠ 2) (behind : UInt8) :
    (f.infoLen ≠ 0 ∧ f.data.length > f.infoLen ∧ f.data.getD (f.videoLen + 2) behind = 1) ↔
      f.infoLen ≠ 0 ∧ f.infoLen < f.data.length ∧
        f.data[f.data.length - f.infoLen + 2]? = some 1 := by
  refine and_congr_right fun hne => and_congr_right fun hlt => ?_
  have hin : f.data.length - f.infoLen + 2 < f.data.length := by omega
  have hlen : f.videoLen = f.data.length - f.infoLen := by rw [Frame.videoLen, if_pos ⟨hne, hlt⟩]
  rw [hlen, List.getD_eq_getElem?_getD, List.getElem?_eq_getElem hin, Option.getD_some,
    Option.some_inj]

/-- **The flag of a frame says whether it is a keyframe**, whatever lies behind the frame. -/
theorem isKey_iff {f : Frame} (hkind : f.kind ≠ 4) (hasks : ¬ f.AsksShortTrailer) (behind : UInt8) :
    f.isKey behind = true ↔ Keyframe f.kind f.data f.infoLen := by
  have hshape (key x : Bool) :
      (if f.infoLen ≠ 0 ∧ f.data.length > f.infoLen then key || x else key) =
      (key || decide (f.infoLen ≠ 0 ∧ f.data.length > f.infoLen ∧ x = true)) := by
    split <;> simp_all
  simp only [Frame.isKey, hshape, take_videoLen, Keyframe, beq_iff_eq]
  by_cases hfirst : f.kind = 5 ∨ isJpeg f.data = true
  · have hkey : (f.kind == 5 || isJpeg f.data) = true := by simpa using hfirst
    simp only [hkey, Bool.true_or, Bool.not_true, Bool.false_and, Bool.false_eq_true, if_false,
      true_iff]
    exact hfirst.imp_right .inl
  · obtain ⟨h5, hjpeg⟩ := not_or.1 hfirst
    have hflag : (f.infoLen ≠ 0 ∧ f.data.length > f.infoLen ∧
        f.data.getD (f.videoLen + 2) behind = 1) ↔ f.infoLen ≠ 0 ∧ f.infoLen < f.data.length ∧
          f.data[f.data.length - f.infoLen + 2]? = some 1 := by
      by_cases hlt : f.infoLen < f.data.length
      · refine flag_iff (not_or.1 fun hshort => hasks ?_) behind
        exact ⟨hkind, h5, eq_false_of_ne_true hjpeg, hshort, hlt⟩
      · exact iff_of_false (fun h => hlt h.2.1) fun h => hlt h.2.1
    simp only [h5, hjpeg, false_or, hflag]
    by_cases h : f.infoLen ≠ 0 ∧ f.infoLen < f.data.length ∧
        f.data[f.data.length - f.infoLen + 2]? = some 1
    · simp [h]
    · simp [h, h5]

/-- **A frame with as many slices as it announces is whole.** -/
theorem Built.whole {slices : List Bytes} {no : BitVec 32} {f : Frame} (h : Built slices no f)
    (hsize : f.slices.size = f.count) {key : Bool}
    (hkey : key = true ↔ Keyframe f.kind f.data f.infoLen) :
    Whole slices no (f.data.take f.videoLen) key := by
  have hkeys : f.slices.entries.map (·.1) = List.range f.count :=
    SortedMap.keys_eq_range hsize fun k v hv => (h.part k v hv).1
  have hdata : f.data = (f.slices.entries.map (·.2)).flatten := List.flatMap_def
  refine ⟨f.count, f.infoLen, f.kind, f.slices.entries.map (·.2), ?_,
    by simpa [SortedMap.size] using hsize, fun i hi => ?_, h.info, h.kind, ?_, ?_⟩
  · rw [← hsize]
    exact List.length_pos_iff.2 h.nonempty
  · have hi' : i < f.slices.entries.length := by simpa using hi
    have hk : (f.slices.entries[i]).1 = i := by
      have hi'' : i < (f.slices.entries.map (·.1)).length := by simpa using hi'
      have : (f.slices.entries.map (·.1))[i] = i := by simp [hkeys]
      simpa using this
    have hmem : (i, (f.slices.entries[i]).2) ∈ f.slices.entries := by
      have := List.getElem_mem hi'
      rwa [← Prod.eta f.slices.entries[i], hk] at this
    rw [List.getElem_map]
    exact (h.part i _ (SortedMap.mem_entries.1 hmem)).2
  · rw [← hdata, take_videoLen]
  · rw [← hdata]
    exact hkey

/-- A slice keeps the frames built. -/
theorem built_addSlice {slices : List Bytes} {q : FrameQueue} {p : Bytes}
    (h : Every (Built slices) q) : Every (Built (slices ++ [p])) (q.addSlice p) := by
  have hsub : slices ⊆ slices ++ [p] := List.subset_append_left _ _
  have hmono : Every (Built (slices ++ [p])) q := fun no f hf => (h no f hf).mono hsub
  exact hmono.addSlice fun hd hp _ => Built.add (by simp) hp fun g hg => hmono _ g hg

/-- The queued frames are built from the slices given so far and have the flags that they are asked
for, and the emitted ones are whole. -/
structure Contents (slices : List Bytes) (q : FrameQueue) (es : List Event) : Prop where
  built : Every (Built slices) q
  flagged : Every (fun _ => HasFlag) q
  whole : ∀ no data key, .emit no data key ∈ es → Whole slices no data key

theorem Contents.addSlice {slices : List Bytes} {q : FrameQueue} {es : List Event} {p : Bytes}
    (h : Contents slices q es) (hfits : Fits q es (.slice p)) :
    Contents (slices ++ [p]) (q.addSlice p) es where
  built := built_addSlice h.built
  flagged := h.flagged.addSlice fun hd hp hacc => (hfits hd hp hacc).2
  whole no data key he := (h.whole no data key he).mono (List.subset_append_left _ _)

theorem Contents.flushStep {slices : List Bytes} {q q' : FrameQueue} {es : List Event}
    {holes : Bool} {r : Round} {e : Event} (h : Contents slices q es)
    (hs : q.flushStep holes r = some (q', e)) : Contents slices q' (es ++ [e]) := by
  refine ⟨h.built.flushStep hs, h.flagged.flushStep hs, fun no data key hmem => ?_⟩
  rcases List.mem_append.1 hmem with hmem | hmem
  · exact h.whole no data key hmem
  · have he := List.mem_singleton.1 hmem
    obtain ⟨no', f, hhead, ⟨hsize, -, rfl, -⟩ | ⟨-, -, -, rfl, -⟩ | ⟨-, -, -, -, rfl, -⟩⟩ :=
      flushStep_cases hs
    · have hget := head_isSome hhead
      unfold deliver at he
      split at he
      · cases he
      · next hkind =>
        split at he
        · cases he
        · obtain ⟨rfl, rfl, rfl⟩ := Event.emit.inj he
          exact (h.built _ f hget).whole hsize
            (isKey_iff hkind (h.flagged _ f hget hsize) r.behind)
    · cases he
    · cases he

/-! ## Gating -/

/-- Whether a keyframe is due after these events. -/
def keyDue (es : List Event) : Bool :=
  es.foldl (fun due e => match e with
    | .emit _ _ true => false
    | .drop _ | .skip _ _ => true
    | _ => due) true

theorem keyDue_concat (es : List Event) (e : Event) : keyDue (es ++ [e]) = match e with
    | .emit _ _ true => false
    | .drop _ | .skip _ _ => true
    | _ => keyDue es := by
  simp [keyDue]

/-- When no keyframe is due after a loss, one came in between. -/
theorem exists_key_of_not_due {before mid : List Event} {loss : Event} (hloss : loss.IsLoss)
    (h : keyDue (before ++ loss :: mid) = false) : ∃ no data, .emit no data true ∈ mid := by
  induction mid using List.reverseRecOn with
  | nil =>
    rw [keyDue_concat] at h
    cases loss <;> simp_all [Event.IsLoss]
  | append_singleton mid e ih =>
    have hassoc : before ++ loss :: (mid ++ [e]) = before ++ loss :: mid ++ [e] := by simp
    rw [hassoc, keyDue_concat] at h
    have hlift (hm : ∃ no data, Event.emit no data true ∈ mid) :
        ∃ no data, Event.emit no data true ∈ mid ++ [e] := by
      obtain ⟨no, data, hm⟩ := hm
      exact ⟨no, data, by simp [hm]⟩
    cases e with
    | emit no data key =>
      cases key with
      | true => exact ⟨no, data, by simp⟩
      | false => exact hlift (ih h)
    | audio no => exact hlift (ih h)
    | drop no => simp at h
    | skip a b => simp at h

/-- The gate of the queue is shut exactly when a keyframe is due, and every inter frame was emitted
while it was open. -/
structure Gate (q : FrameQueue) (es : List Event) : Prop where
  strict : q.anyFrame = false
  due : q.needKey = keyDue es
  opened : ∀ before no data after, es = before ++ .emit no data false :: after →
    keyDue before = false

theorem Gate.concat {q q' : FrameQueue} {es : List Event} {e : Event} (h : Gate q es)
    (hany : q'.anyFrame = q.anyFrame) (hdue : q'.needKey = keyDue (es ++ [e]))
    (hopen : ∀ no data, e = .emit no data false → q.needKey = false) : Gate q' (es ++ [e]) := by
  refine ⟨hany.trans h.strict, hdue, fun before no data after heq => ?_⟩
  rcases List.eq_nil_or_concat after with rfl | ⟨after', x, rfl⟩
  · obtain ⟨rfl, hx⟩ := List.append_inj' heq rfl
    rw [← h.due]
    exact hopen no data (by simpa using hx)
  · have heq' : es ++ [e] = (before ++ .emit no data false :: after') ++ [x] := by simpa using heq
    obtain ⟨rfl, -⟩ := List.append_inj' heq' rfl
    exact h.opened before no data after' rfl

theorem Gate.flushStep {q q' : FrameQueue} {es : List Event} {holes : Bool} {r : Round} {e : Event}
    (h : Gate q es) (hs : q.flushStep holes r = some (q', e)) : Gate q' (es ++ [e]) := by
  obtain ⟨no, f, -, hcases⟩ := flushStep_cases hs
  rcases hcases with ⟨-, -, rfl, rfl⟩ | ⟨-, -, -, rfl, rfl⟩ | ⟨-, -, -, -, rfl, rfl⟩
  · have hdue := h.due
    unfold deliver
    split
    · exact h.concat rfl (by simpa [keyDue_concat] using hdue) (by simp)
    · split
      · next hgate =>
        refine h.concat rfl ?_ (by simp)
        rw [keyDue_concat]
        simp only [Bool.and_eq_true] at hgate
        exact hgate.1.1
      · next hgate =>
        refine h.concat rfl ?_ ?_
        · rw [keyDue_concat]
          cases hk : f.isKey r.behind with
          | true => rfl
          | false =>
            have hneed : q.needKey = false := by simpa [hk, h.strict] using hgate
            rw [← hdue, hneed]
        · intro no' data heq
          obtain ⟨-, -, hk⟩ := Event.emit.inj heq
          simpa [hk, h.strict] using hgate
  · exact h.concat rfl (by simp [keyDue_concat]) (by simp)
  · exact h.concat rfl (by simp [keyDue_concat]) (by simp)

theorem Gate.gated {q : FrameQueue} {es : List Event} (h : Gate q es) : Gated es := by
  intro before loss mid no data after heq hloss
  refine @exists_key_of_not_due before _ _ hloss ?_
  exact h.opened (before ++ loss :: mid) no data after (by simpa using heq)

/-! ## Runs -/

/-- The invariant of a run. -/
structure Inv (anyFrame : Bool) (ops : List Op) (q : FrameQueue) (es : List Event) : Prop where
  any : q.anyFrame = anyFrame
  order : InOrder q es
  contents : Contents (given ops) q es
  gate : anyFrame = false → Gate q es

theorem Inv.init (anyFrame : Bool) : Inv anyFrame [] { anyFrame := anyFrame } [] := by
  refine ⟨rfl, InOrder.init anyFrame, ⟨by simp [Every], by simp [Every], by simp⟩,
    fun ha => ⟨ha, rfl, ?_⟩⟩
  intro before no data after heq
  simp at heq

theorem Inv.flushStep {anyFrame : Bool} {ops : List Op} {q q' : FrameQueue} {es : List Event}
    {holes : Bool} {r : Round} {e : Event} (hs : q.flushStep holes r = some (q', e))
    (h : Inv anyFrame ops q es) : Inv anyFrame ops q' (es ++ [e]) := by
  have hany : q'.anyFrame = q.anyFrame := by
    obtain ⟨no, f, -, hcases⟩ := flushStep_cases hs
    rcases hcases with ⟨-, -, -, rfl⟩ | ⟨-, -, -, -, rfl⟩ | ⟨-, -, -, -, -, rfl⟩
    · exact (q.deliver_pending no f r.behind).2
    · rfl
    · rfl
  exact ⟨hany.trans h.any, h.order.flushStep hs, h.contents.flushStep hs,
    fun ha => (h.gate ha).flushStep hs⟩

theorem Inv.step {anyFrame : Bool} {ops : List Op} {op : Op} {q : FrameQueue} {es : List Event}
    (hfits : Fits q es op) (h : Inv anyFrame ops q es) :
    Inv anyFrame (ops ++ [op]) (q.step op).1 (es ++ (q.step op).2) := by
  cases op with
  | slice p =>
    have hgiven : given (ops ++ [.slice p]) = given ops ++ [p] := by simp [given]
    have hstate : (q.addSlice p).needKey = q.needKey ∧ (q.addSlice p).anyFrame = q.anyFrame := by
      rcases q.addSlice_cases p with heq | ⟨hd, -, -, heq⟩ <;> rw [heq] <;> exact ⟨rfl, rfl⟩
    show Inv anyFrame _ (q.addSlice p) (es ++ [])
    rw [List.append_nil]
    refine ⟨hstate.2.trans h.any, h.order.addSlice hfits, hgiven ▸ h.contents.addSlice hfits,
      fun ha => ?_⟩
    have hg := h.gate ha
    exact ⟨hstate.2.trans hg.strict, hstate.1.trans hg.due, hg.opened⟩
  | flush holes met =>
    have hgiven : given (ops ++ [.flush holes met]) = given ops := by simp [given]
    exact flush_induction (fun q es b q' e hs h => Inv.flushStep hs h)
      (⟨h.any, h.order, hgiven.symm ▸ h.contents, h.gate⟩ :
        Inv anyFrame (ops ++ [.flush holes met]) q es)

/-- **The queue keeps its promise while the two orders agree and the flags are there.** In every run
of slices and flushes, with any holes, any timer and anything behind the frames, in which every
slice that is let in fits the queue, emitted frames are whole, marked as what they are and go
forward, no number is passed over in silence, and after a loss nothing but a keyframe is emitted
first. -/
theorem frames_in_order (anyFrame : Bool) (ops : List Op)
    (h : Meets Fits { anyFrame := anyFrame } [] ops) :
    Sound anyFrame ops (run { anyFrame := anyFrame } ops).2 := by
  have hinv := run_induction (fun done op q es hC hI => Inv.step hC hI) ops (Inv.init anyFrame) h
  exact ⟨hinv.contents.whole, hinv.order.forward, Serial.nodup_of_forward hinv.order.forward,
    hinv.order.accounted, fun ha => (hinv.gate ha).gated⟩

/-- A keyframe of one slice. -/
def keySlice (no : BitVec 32) : Bytes :=
  [5, 1, 0, 0, 1, 0, 0, 0, 1, 0, 0, 0] ++
    (List.range 4).map (fun i => UInt8.ofNat (no.toNat / 256 ^ i)) ++ [0, 0, 0, 0, 0xa0]

/-- An inter frame of one slice, with two bytes of video and this trailer. -/
def interSlice (no : BitVec 32) (trailer : Bytes) : Bytes :=
  [7, 1, 0, 0, 1, 0, UInt8.ofNat trailer.length, 0, UInt8.ofNat (2 + trailer.length), 0, 0, 0] ++
    (List.range 4).map (fun i => UInt8.ofNat (no.toNat / 256 ^ i)) ++ [0, 0, 0, 0, 0x41, 0x9a] ++
    trailer

/-- The timer has not run out, and a read behind a frame finds a one. -/
def early (_ : ℕ) : Round := ⟨false, 1⟩

/-- A keyframe, a frame that is lost, and an inter frame with a trailer of one byte. -/
def shortTrailer : List Op :=
  [.slice (keySlice 0), .flush false early, .slice (interSlice 2 [0x4e]), .flush false early]

/-- What is known of the inter frame. -/
theorem header_shortTrailer {p : Bytes} {h : SliceHeader} (hp : p ∈ given shortTrailer)
    (hparse : parseSliceHeader p = some h) (hno : h.frameNo = 2) :
    h.kind = 7 ∧ h.count = 1 ∧ h.infoLen = 1 ∧ payload p h = [0x41, 0x9a, 0x4e] := by
  have hgiven : given shortTrailer = [keySlice 0, interSlice 2 [0x4e]] := rfl
  rw [hgiven, List.mem_cons, List.mem_singleton] at hp
  rcases hp with rfl | rfl
  · have hkey : (parseSliceHeader (keySlice 0)).map (·.frameNo) = some 0 := by decide
    rw [hparse] at hkey
    exact absurd (hno.symm.trans (Option.some.inj hkey)) (by decide)
  · have hinter : (parseSliceHeader (interSlice 2 [0x4e])).map (fun h =>
        (h.kind, h.count, h.infoLen, payload (interSlice 2 [0x4e]) h)) =
        some (7, 1, 1, [0x41, 0x9a, 0x4e]) := by decide
    rw [hparse] at hinter
    simpa using hinter

/-- **Two ways out of order.** The frame before the wrap arrives late, while the one after it is
held: the queue skips to the later one, which is smaller as a plain number, and emits the earlier
one after it. And after a loss an inter frame is emitted for a keyframe, with the flag that is found
behind its short trailer. -/
theorem wrap_not_in_order :
    (let ops := [.slice (keySlice 0xfffffffe), .flush false early, .slice (keySlice 0),
      .flush true early, .slice (keySlice 0xffffffff), .flush false early]
    ¬ Sound false ops (run {} ops).2) ∧ ¬ Sound false shortTrailer (run {} shortTrailer).2 := by
  refine ⟨fun h => ?_, fun h => ?_⟩
  · have := h.forward
    revert this
    decide
  · have hemit : Event.emit 2 [0x41, 0x9a] true ∈ (run {} shortTrailer).2 := by decide
    obtain ⟨count, infoLen, kind, parts, hpos, hlen, hpart, hinfo, hkind, -, hkey⟩ :=
      h.whole _ _ _ hemit
    obtain ⟨p, hd, hp, hparse, hno, rfl⟩ := hkind
    rw [(header_shortTrailer hp hparse hno).1] at hkey
    -- the frame has one part
    obtain ⟨p, hd, hp, hparse, hno, hcount, -, hpart0, -⟩ := hpart 0 (hlen ▸ hpos)
    obtain ⟨-, hone, -, hpayload⟩ := header_shortTrailer hp hparse hno
    have hparts : parts = [[0x41, 0x9a, 0x4e]] := by
      refine List.ext_getElem (by rw [hlen, ← hcount, hone]; rfl) fun i hi hi' => ?_
      obtain rfl : i = 0 := by simpa using hi'
      rw [hpart0, hpayload]
      rfl
    have hinfo' : infoLen = 0 ∨ infoLen = 1 := by
      refine hinfo.imp_right fun ⟨p, hd, hp, hparse, hno, hlen⟩ => ?_
      rw [← hlen, (header_shortTrailer hp hparse hno).2.2.1]
    have hno : ¬ Keyframe 7 [0x41, 0x9a, 0x4e] infoLen := by
      rcases hinfo' with rfl | rfl <;> unfold Keyframe <;> decide
    rw [hparts] at hkey
    exact hno (hkey.1 rfl)

/-- Across the wrap in order, and on to an inter frame with its flag. -/
theorem frames_in_order_across_wrap :
    let ops := [.slice (keySlice 0xffffffff), .flush false early, .slice (keySlice 0),
      .flush true early, .slice (interSlice 1 [0x4e, 0, 0, 0]), .flush false early]
    Sound false ops (run { anyFrame := false } ops).2 := by
  intro ops
  exact frames_in_order false ops (by decide)

end FrameQueue

end BambooNet.Tutk
