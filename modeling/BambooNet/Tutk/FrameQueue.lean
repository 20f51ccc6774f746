import BambooNet.Lib.SortedMap
import BambooNet.Tutk.Slice
import Mathlib.Algebra.Order.Group.Int

/-!
# The frame queue

`FrameQueue` orders slices into frames. An incomplete frame is held until no FEC group can recover
it anymore; after a lost frame inter frames are skipped until the next keyframe. A run is recorded
as the events of the queue: what becomes of each frame number.

**Reads behind the buffer.** `deliver` looks for the keyframe flag at `[2]` of the info trailer, and
a trailer of one or two bytes has none. The byte it finds there is not the frame's: it comes from
the `Round`, like the outcome of the timer, and every run is for any of them.

`flushStep_cases` is all that one round of `flush` can do, and `flush_done` says that the rounds
come to an end.
-/

namespace BambooNet.Tutk

open Serial (dist)

/-! ## Frame contents -/

def startsWithStartCode (p : Bytes) : Bool :=
  [0, 0, 1].isPrefixOf p || [0, 0, 0, 1].isPrefixOf p

def isJpeg (p : Bytes) : Bool := [0xff, 0xd8].isPrefixOf p

def h264IsKeyframe (p : Bytes) : Bool :=
  let off := if p.length ≥ 4 ∧ p.getD 2 0 = 0 then 4 else 3
  if p.length ≤ off then false
  else
    let nal := p.getD off 0 &&& 0x1f
    nal == 5 || nal == 7

/-! ## The queue -/

structure Frame where
  count : ℕ := 0
  infoLen : ℕ := 0
  kind : UInt8 := 0
  slices : SortedMap ℕ Bytes := ∅
  deriving DecidableEq

structure FrameQueue where
  pending : SortedMap (BitVec 32) Frame := ∅
  next : BitVec 32 := 0
  haveNext : Bool := false
  needKey : Bool := true
  dropped : ℤ := 0
  anyFrame : Bool := false
  deriving DecidableEq

/-- What becomes of frame numbers. -/
inductive Event
  /-- A frame goes to the `emit` callback. -/
  | emit (no : BitVec 32) (data : Bytes) (key : Bool)
  /-- A complete audio frame is left out. -/
  | audio (no : BitVec 32)
  /-- A frame is given up, incomplete or waiting for a keyframe. -/
  | drop (no : BitVec 32)
  /-- The numbers before `no` are given up. -/
  | skip (start no : BitVec 32)
  deriving DecidableEq

namespace Frame

/-- Store a slice. The first one says how many there are, and one that disagrees is refused. -/
def add (f : Frame) (h : SliceHeader) (payload : Bytes) : Frame :=
  let f := if f.slices.entries = [] then { f with count := h.count } else f
  if h.count ≠ f.count then f
  else { f with
    infoLen := if h.infoLen ≠ 0 then h.infoLen else f.infoLen
    kind := h.kind
    slices := f.slices.insert h.index payload }

/-- The slices in index order. -/
def data (f : Frame) : Bytes := f.slices.entries.flatMap (·.2)

/-- The length of a frame's data without its info trailer. -/
def videoLen (f : Frame) : ℕ :=
  if f.infoLen ≠ 0 ∧ f.data.length > f.infoLen then f.data.length - f.infoLen else f.data.length

/-- The frame is a keyframe by its kind, as a JPEG, by the flag at `[2]` of its trailer, or as
H.264. `behind` is what is read where a trailer is too short to have the flag. -/
def isKey (f : Frame) (behind : UInt8) : Bool :=
  let key := f.kind == 5 || isJpeg f.data
  let key := if f.infoLen ≠ 0 ∧ f.data.length > f.infoLen then
    key || f.data.getD (f.videoLen + 2) behind == 1 else key
  let video := f.data.take f.videoLen
  if !key && startsWithStartCode video then h264IsKeyframe video else key

/-- The flag of a trailer that is too short to have one is asked for. -/
def AsksShortTrailer (f : Frame) : Prop :=
  f.kind ≠ 4 ∧ f.kind ≠ 5 ∧ isJpeg f.data = false ∧
    (f.infoLen = 1 ∨ f.infoLen = 2) ∧ f.infoLen < f.data.length

instance decidableAsksShortTrailer (f : Frame) : Decidable f.AsksShortTrailer :=
  inferInstanceAs (Decidable (_ ∧ _))

end Frame

/-- What a round of `flush` meets: the outcome of the timer, and the byte that a read behind the
assembled buffer finds. -/
structure Round where
  expired : Bool
  behind : UInt8

namespace FrameQueue

def add (q : FrameQueue) (h : SliceHeader) (payload : Bytes) : FrameQueue :=
  if q.haveNext = true ∧ dist h.frameNo q.next < 0 then q
  else
    let f := (q.pending.get? h.frameNo).getD {}
    { q with pending := q.pending.insert h.frameNo (f.add h payload) }

/-- Hand the slice to the queue, as the receiver's callback does. -/
def addSlice (q : FrameQueue) (p : Bytes) : FrameQueue :=
  match parseSliceHeader p with
  | some h => q.add h (payload p h)
  | none => q

def deliver (q : FrameQueue) (no : BitVec 32) (f : Frame) (behind : UInt8) : FrameQueue × Event :=
  if f.kind = 4 then (q, .audio no)
  else if q.needKey && !f.isKey behind && !q.anyFrame then
    ({ q with dropped := q.dropped + 1 }, .drop no)
  else ({ q with needKey := false }, .emit no (f.data.take f.videoLen) (f.isKey behind))

/-- One round of `flush`; `none` when it stops. -/
def flushStep (q : FrameQueue) (holes : Bool) (r : Round) : Option (FrameQueue × Event) :=
  match q.pending.entries with
  | [] => none
  | (no, f) :: _ =>
    let gap := q.haveNext = true ∧ no ≠ q.next
    let complete := f.slices.size = f.count
    if complete ∧ ¬gap then
      let (q', e) := q.deliver no f r.behind
      some ({ q' with next := no + 1, haveNext := true, pending := q.pending.erase no }, e)
    else
      -- the missing packets are gone once a later frame has started and no FEC group can bring
      -- them back
      let laterStarted := gap ∨ q.pending.size > 1
      if ¬laterStarted ∨ (holes = true ∧ r.expired = false) then none
      else if gap then
        some ({ q with
          needKey := true
          dropped := q.dropped + dist no q.next
          next := no }, .skip q.next no)
      else
        some ({ q with
          needKey := true
          dropped := q.dropped + 1
          next := no + 1
          haveNext := true
          pending := q.pending.erase no }, .drop no)

/-- Rounds of `flush`, at most `fuel`. -/
def flushLoop (holes : Bool) (met : ℕ → Round) : ℕ → ℕ → FrameQueue → FrameQueue × List Event
  | 0, _, q => (q, [])
  | fuel + 1, i, q =>
    match q.flushStep holes (met i) with
    | none => (q, [])
    | some (q', e) =>
      let (q'', es) := flushLoop holes met fuel (i + 1) q'
      (q'', e :: es)

/-- Two rounds for each frame are enough (`flush_done`). -/
def flush (q : FrameQueue) (holes : Bool) (met : ℕ → Round) : FrameQueue × List Event :=
  flushLoop holes met (2 * q.pending.size + 1) 0 q

/-! ## What `flush` can do -/

/-- The smallest pending frame. -/
def head? (q : FrameQueue) : Option (BitVec 32 × Frame) := q.pending.entries.head?

theorem deliver_pending (q : FrameQueue) (no : BitVec 32) (f : Frame) (behind : UInt8) :
    (q.deliver no f behind).1.pending = q.pending ∧
      (q.deliver no f behind).1.anyFrame = q.anyFrame := by
  unfold deliver
  split
  · exact ⟨rfl, rfl⟩
  · split <;> exact ⟨rfl, rfl⟩

/-- **All that a round of `flush` can do**: deliver the first frame when it is complete and next,
skip to it when there is a gap before it, or give it up. -/
theorem flushStep_cases {q q' : FrameQueue} {holes : Bool} {r : Round} {e : Event}
    (h : q.flushStep holes r = some (q', e)) :
    ∃ no f, q.head? = some (no, f) ∧
      ((f.slices.size = f.count ∧ (q.haveNext = true → no = q.next) ∧
          e = (q.deliver no f r.behind).2 ∧
          q' = { (q.deliver no f r.behind).1 with
            next := no + 1, haveNext := true, pending := q.pending.erase no }) ∨
        ((holes = true → r.expired = true) ∧ q.haveNext = true ∧ no ≠ q.next ∧ e = .skip q.next no ∧
          q' = { q with needKey := true, dropped := q.dropped + dist no q.next, next := no }) ∨
        ((holes = true → r.expired = true) ∧ f.slices.size ≠ f.count ∧ 1 < q.pending.size ∧
          (q.haveNext = true → no = q.next) ∧ e = .drop no ∧
          q' = { q with
            needKey := true, dropped := q.dropped + 1, next := no + 1, haveNext := true
            pending := q.pending.erase no })) := by
  unfold flushStep at h
  split at h
  · simp at h
  · next no f rest hentries =>
    refine ⟨no, f, by simp [head?, hentries], ?_⟩
    dsimp only at h
    split at h
    · next hc =>
      obtain ⟨rfl, rfl⟩ := Prod.mk.inj (Option.some.inj h)
      refine .inl ⟨hc.1, fun hn => ?_, rfl, rfl⟩
      by_contra hne
      exact hc.2 ⟨hn, hne⟩
    · next hc =>
      split at h
      · simp at h
      · next hgo =>
        have hexp : holes = true → r.expired = true := by
          intro hh
          by_contra hne
          exact hgo (.inr ⟨hh, by simpa using hne⟩)
        split at h
        · next hgap =>
          obtain ⟨rfl, rfl⟩ := Prod.mk.inj (Option.some.inj h)
          exact .inr (.inl ⟨hexp, hgap.1, hgap.2, rfl, rfl⟩)
        · next hgap =>
          obtain ⟨rfl, rfl⟩ := Prod.mk.inj (Option.some.inj h)
          have hlater : 1 < q.pending.size := by
            by_contra hle
            exact hgo (.inl fun h => h.elim hgap hle)
          refine .inr (.inr ⟨hexp, fun hsize => hc ⟨hsize, hgap⟩, hlater, fun hn => ?_, rfl, rfl⟩)
          by_contra hne
          exact hgap ⟨hn, hne⟩

theorem head?_eq_some {q : FrameQueue} {no : BitVec 32} {f : Frame}
    (h : q.head? = some (no, f)) : ∃ rest, q.pending.entries = (no, f) :: rest := by
  rw [head?] at h
  cases he : q.pending.entries with
  | nil => simp [he] at h
  | cons e rest =>
    rw [he] at h
    obtain rfl := Option.some.inj h
    exact ⟨rest, rfl⟩

/-- A round does not stop at a frame that is complete and next. -/
theorem flushStep_ne_none {q : FrameQueue} {holes : Bool} {r : Round} {no : BitVec 32} {f : Frame}
    (h : q.head? = some (no, f)) (hsize : f.slices.size = f.count)
    (hnext : q.haveNext = true → no = q.next) : q.flushStep holes r ≠ none := by
  obtain ⟨rest, hentries⟩ := head?_eq_some h
  have hgap : ¬ (q.haveNext = true ∧ no ≠ q.next) := fun hg => hg.2 (hnext hg.1)
  simp only [flushStep, hentries]
  rw [if_pos ⟨hsize, hgap⟩]
  exact Option.some_ne_none _

/-- The rounds that are left at most: two for a frame behind a gap, one for a frame that is next. -/
def rounds (q : FrameQueue) : ℕ :=
  match q.head? with
  | some (no, _) => 2 * q.pending.size - if q.haveNext = true ∧ no ≠ q.next then 0 else 1
  | none => 0

theorem rounds_of_head {q : FrameQueue} {no : BitVec 32} {f : Frame}
    (h : q.head? = some (no, f)) :
    q.rounds = 2 * q.pending.size - if q.haveNext = true ∧ no ≠ q.next then 0 else 1 := by
  rw [rounds, h]

theorem rounds_le (q : FrameQueue) : q.rounds ≤ 2 * q.pending.size := by
  unfold rounds
  split
  · exact Nat.sub_le _ _
  · exact Nat.zero_le _

/-- Every round uses up one of the rounds that are left. -/
theorem rounds_flushStep {q q' : FrameQueue} {holes : Bool} {r : Round} {e : Event}
    (h : q.flushStep holes r = some (q', e)) : q'.rounds < q.rounds := by
  obtain ⟨no, f, hhead, hcases⟩ := flushStep_cases h
  obtain ⟨rest, hentries⟩ := head?_eq_some hhead
  have hsize : q.pending.size = rest.length + 1 := by simp [SortedMap.size, hentries]
  have hsize' : (q.pending.erase no).size = rest.length := by
    rw [SortedMap.size, SortedMap.entries_erase_head hentries]
  have hlow : 2 * q.pending.size ≤ q.rounds + 1 := by
    simp only [rounds, hhead]
    split <;> omega
  rcases hcases with ⟨-, -, -, rfl⟩ | ⟨-, hn, hne, -, rfl⟩ | ⟨-, -, -, -, -, rfl⟩
  · refine (rounds_le _).trans_lt ?_
    show 2 * (q.pending.erase no).size < q.rounds
    omega
  · have hrounds := rounds_of_head hhead
    rw [if_pos ⟨hn, hne⟩] at hrounds
    refine (@rounds_of_head _ no f ?_).trans_lt ?_
    · exact hhead
    · rw [if_neg fun h => h.2 rfl]
      show 2 * q.pending.size - 1 < q.rounds
      omega
  · refine (rounds_le _).trans_lt ?_
    show 2 * (q.pending.erase no).size < q.rounds
    omega

theorem flushLoop_done {holes : Bool} {met : ℕ → Round} {fuel i : ℕ} {q : FrameQueue}
    (h : q.rounds < fuel) :
    ∃ j, (flushLoop holes met fuel i q).1.flushStep holes (met j) = none := by
  induction fuel generalizing i q with
  | zero => omega
  | succ fuel ih =>
    cases hs : q.flushStep holes (met i) with
    | none => exact ⟨i, by simp [flushLoop, hs]⟩
    | some r =>
      have := rounds_flushStep hs
      obtain ⟨j, hj⟩ := ih (i := i + 1) (q := r.1) (by omega)
      exact ⟨j, by simpa [flushLoop, hs] using hj⟩

/-- **`flush` runs until it has nothing left to do.** -/
theorem flush_done (q : FrameQueue) (holes : Bool) (met : ℕ → Round) :
    ∃ j, (q.flush holes met).1.flushStep holes (met j) = none :=
  flushLoop_done (Nat.lt_succ_of_le (rounds_le q))

/-! ## Runs -/

/-- A call of the receiver: a slice, or a flush with what `has_holes` says and its rounds meet. -/
inductive Op
  | slice (p : Bytes)
  | flush (holes : Bool) (met : ℕ → Round)

def step (q : FrameQueue) : Op → FrameQueue × List Event
  | .slice p => (q.addSlice p, [])
  | .flush holes met => q.flush holes met

/-- A run of calls and the events so far. -/
def run (q : FrameQueue) : List Op → FrameQueue × List Event
  | [] => (q, [])
  | op :: ops =>
    let (q', now) := q.step op
    let (q'', later) := run q' ops
    (q'', now ++ later)

/-- Every call of a run meets a condition on the queue and the events before it. -/
def Meets (C : FrameQueue → List Event → Op → Prop) (q : FrameQueue) (es : List Event) :
    List Op → Prop
  | [] => True
  | op :: ops => C q es op ∧ Meets C (q.step op).1 (es ++ (q.step op).2) ops

instance decidableMeets {C : FrameQueue → List Event → Op → Prop}
    [∀ q es op, Decidable (C q es op)] : (q : FrameQueue) → (es : List Event) → (ops : List Op) →
      Decidable (Meets C q es ops)
  | _, _, [] => .isTrue trivial
  | q, es, op :: ops => @instDecidableAnd _ _ _
      (decidableMeets (q.step op).1 (es ++ (q.step op).2) ops)

/-- **What every call that meets the condition preserves holds after a run of them.** -/
theorem run_induction {C : FrameQueue → List Event → Op → Prop}
    {Inv : List Op → FrameQueue → List Event → Prop}
    (hstep : ∀ done op q es, C q es op → Inv done q es →
      Inv (done ++ [op]) (q.step op).1 (es ++ (q.step op).2))
    (ops : List Op) {done : List Op} {q : FrameQueue} {es : List Event} (h : Inv done q es)
    (hC : Meets C q es ops) : Inv (done ++ ops) (q.run ops).1 (es ++ (q.run ops).2) := by
  induction ops generalizing done q es with
  | nil => simpa [run] using h
  | cons op ops ih =>
    have := ih (hstep done op q es hC.1 h) hC.2
    simpa [run] using this

/-- **What every round preserves holds after `flush`.** -/
theorem flush_induction {Inv : FrameQueue → List Event → Prop} {holes : Bool} {met : ℕ → Round}
    (hstep : ∀ q es i q' e, q.flushStep holes (met i) = some (q', e) → Inv q es →
      Inv q' (es ++ [e]))
    {q : FrameQueue} {es : List Event} (h : Inv q es) :
    Inv (q.flush holes met).1 (es ++ (q.flush holes met).2) := by
  suffices hloop : ∀ fuel i q es, Inv q es →
      Inv (flushLoop holes met fuel i q).1 (es ++ (flushLoop holes met fuel i q).2) from
    hloop _ 0 q es h
  intro fuel
  induction fuel with
  | zero => intro i q es h; simpa [flushLoop] using h
  | succ fuel ih =>
    intro i q es h
    cases hs : q.flushStep holes (met i) with
    | none => simpa [flushLoop, hs] using h
    | some r =>
      have := ih (i + 1) r.1 (es ++ [r.2]) (hstep q es _ r.1 r.2 hs h)
      simpa [flushLoop, hs] using this

end FrameQueue

end BambooNet.Tutk
