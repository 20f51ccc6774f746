import BambooNet.Camera.RtpH264
import BambooNet.Camera.Sdp
import Mathlib.Data.List.Induction
import Mathlib.Data.List.SplitBy

/-!
# Access units for the decoder

The worker of the passthrough puts NAL units together to access units. It drops the parameter sets
of the stream and writes those of the SDP in front of every IDR unit instead.

**The access units** of a stream are the runs of its other units (`accessUnits`), and these are what
the worker hands on (`ready_run`).

**Theorem (`sets_precede_idr_iff`).** An access unit with an IDR unit contains the latest parameter
sets once, in front of it, if and only if these are the sets of the SDP and the IDR unit is the only
one in it; where no two sets are known, nothing is asked.
-/

namespace BambooNet.Camera.Passthrough

open Avcc (nalType)
open RtpH264 (Nalu)
open Sdp (H264Track Sets)

/-! ## The worker -/

def kFlagSync : ℕ := 1

/-- An access unit, by the NAL units in it. -/
structure Sample where
  nals : List Bytes
  flags : ℕ
  deriving DecidableEq

/-- What the caller gets: each unit behind a start code. -/
def Sample.bytes (s : Sample) : Bytes := s.nals.flatMap fun nal => [0, 0, 0, 1] ++ nal

/-- The worker between two NAL units, with the access units that it has handed on so far. -/
structure Worker where
  au : List Bytes
  auTs : UInt32
  auOpen : Bool
  auHasIdr : Bool
  ready : List Sample
  deriving DecidableEq

def Worker.initial : Worker := ⟨[], 0, false, false, []⟩

def flushAu (w : Worker) : Worker :=
  if !w.auOpen || w.au.isEmpty then { w with au := [], auOpen := false, auHasIdr := false }
  else
    { w with
      au := []
      auOpen := false
      auHasIdr := false
      ready := w.ready ++ [⟨w.au, if w.auHasIdr then kFlagSync else 0⟩] }

/-- The sets of the SDP, as they go in front of an IDR unit. -/
def sets (tr : H264Track) : List Bytes :=
  (if tr.sps ≠ [] then [tr.sps] else []) ++ if tr.pps ≠ [] then [tr.pps] else []

/-- The access unit that `n` goes to: another time stamp ends the one before it. -/
def openAu (w : Worker) (n : Nalu) : Worker :=
  let w := if w.auOpen ∧ n.rtpTs90khz ≠ w.auTs then flushAu w else w
  if !w.auOpen then { w with auOpen := true, auTs := n.rtpTs90khz } else w

def appendNalu (tr : H264Track) (w : Worker) (n : Nalu) : Worker :=
  let w := if nalType n.data = 5 then { w with au := w.au ++ sets tr, auHasIdr := true } else w
  { w with au := w.au ++ [n.data] }

/-- A round of the worker's loop. -/
def readNalu (tr : H264Track) (w : Worker) (n : Nalu) : Worker :=
  if n.data = [] then w
  else if nalType n.data = 7 ∨ nalType n.data = 8 then w
  else
    let w := appendNalu tr (openAu w n) n
    if n.auEnd then flushAu w else w

/-- The worker after the NAL units that `read_nalu` has delivered. -/
def run (tr : H264Track) (ns : List Nalu) : Worker := ns.foldl (readNalu tr) Worker.initial

/-! ## Access units -/

/-- A NAL unit for the decoder, and all that were received before it. -/
structure Picture where
  nalu : Nalu
  seen : List Nalu
  deriving DecidableEq

def isPicture (n : Nalu) : Bool := n.data ≠ [] ∧ ¬ (nalType n.data = 7 ∨ nalType n.data = 8)

def Picture.isIdr (p : Picture) : Bool := nalType p.nalu.data = 5

def picturesFrom (seen : List Nalu) : List Nalu → List Picture
  | [] => []
  | n :: ns =>
    if isPicture n then ⟨n, seen⟩ :: picturesFrom (seen ++ [n]) ns
    else picturesFrom (seen ++ [n]) ns

/-- The second of two neighbours is in the access unit of the first. -/
def sameUnit (p q : Picture) : Bool :=
  !p.nalu.auEnd && q.nalu.rtpTs90khz == p.nalu.rtpTs90khz

/-- The access units of a stream; the last one only when it has been ended. -/
def accessUnits (ns : List Nalu) : List (List Picture) :=
  let units := (picturesFrom [] ns).splitBy sameUnit
  if ((picturesFrom [] ns).getLast?.map (·.nalu.auEnd)).getD true then units else units.dropLast

/-- The NAL units of an access unit as the worker writes them. -/
def built (tr : H264Track) (g : List Picture) : List Bytes :=
  g.flatMap fun p => if p.isIdr then sets tr ++ [p.nalu.data] else [p.nalu.data]

def sample (tr : H264Track) (g : List Picture) : Sample :=
  ⟨built tr g, if g.any Picture.isIdr then kFlagSync else 0⟩

/-- The latest parameter set of a type: the last one received, or else that of the SDP. -/
def latestSet (type : UInt8) (sdp : Bytes) (seen : List Nalu) : Option Bytes :=
  let inBand := seen.filter fun n => n.data ≠ [] ∧ nalType n.data = type
  (inBand.getLast?.map Nalu.data).or (if sdp = [] then none else some sdp)

/-- Both sets are there once, and in front of the first IDR unit. -/
structure Leads (sps pps : Bytes) (nals : List Bytes) : Prop where
  onceSps : nals.count sps = 1
  oncePps : nals.count pps = 1
  firstSps : sps ∈ nals.takeWhile (nalType · ≠ 5)
  firstPps : pps ∈ nals.takeWhile (nalType · ≠ 5)

/-- `p` is the first IDR unit of the access unit, and `rest` comes after it. -/
def FirstIdr (g : List Picture) (p : Picture) (rest : List Picture) : Prop :=
  ∃ before, g = before ++ p :: rest ∧ p.isIdr = true ∧ ∀ q ∈ before, q.isIdr = false

/-- When two sets are known at its first IDR unit, an access unit has them. -/
def HasSets (tr : H264Track) (g : List Picture) (s : Sample) : Prop :=
  ∀ p rest, FirstIdr g p rest → ∀ sps pps, latestSet 7 tr.sps p.seen = some sps →
    latestSet 8 tr.pps p.seen = some pps → Leads sps pps s.nals

/-- When two sets are known at the first IDR unit, they are those of the SDP, and there is no
second IDR unit. -/
def FromSdp (tr : H264Track) (g : List Picture) : Prop :=
  ∀ p rest, FirstIdr g p rest → ∀ sps pps, latestSet 7 tr.sps p.seen = some sps →
    latestSet 8 tr.pps p.seen = some pps →
      sps = tr.sps ∧ pps = tr.pps ∧ ∀ q ∈ rest, q.isIdr = false

/-! ## The worker and the access units -/

theorem splitBy_concat {α : Type*} {r : α → α → Bool} {l : List α} {p q : α}
    {done : List (List α)} {cur : List α} (hcut : l.splitBy r = done ++ [cur])
    (hq : q ∈ cur.getLast?) (h : r q p = true) :
    (l ++ [p]).splitBy r = done ++ [cur ++ [p]] := by
  obtain ⟨hflat, hne, hchain, hbreak⟩ := List.splitBy_eq_iff.1 hcut
  have hcur : cur ≠ [] := by
    rintro rfl
    cases hq
  refine List.splitBy_eq_iff.2 ⟨by simp [hflat], ?_, ?_, ?_⟩
  · intro hmem
    rcases List.mem_append.1 hmem with hmem | hmem
    · exact hne (List.mem_append_left _ hmem)
    · cases List.append_ne_nil_of_left_ne_nil hcur [p] (List.mem_singleton.1 hmem).symm
  · intro m hm
    rcases List.mem_append.1 hm with hm | hm
    · exact hchain m (List.mem_append_left _ hm)
    · obtain rfl := List.mem_singleton.1 hm
      refine List.isChain_append.2 ⟨hchain cur (by simp), List.isChain_singleton p, ?_⟩
      intro x hx y hy
      obtain rfl := Option.some.inj (hq.symm.trans hx)
      obtain rfl := Option.some.inj hy
      exact h
  · obtain ⟨hdone, -, hlast⟩ := List.isChain_append.1 hbreak
    refine List.isChain_append.2 ⟨hdone, List.isChain_singleton _, ?_⟩
    intro x hx y hy
    obtain rfl := Option.some.inj hy
    obtain ⟨hx', hy', hrel⟩ := hlast x hx cur rfl
    refine ⟨hx', List.append_ne_nil_of_left_ne_nil hcur [p], ?_⟩
    rw [List.head_append_of_ne_nil hcur]
    exact hrel

theorem picturesFrom_concat (seen ns : List Nalu) (n : Nalu) :
    picturesFrom seen (ns ++ [n]) =
      picturesFrom seen ns ++ if isPicture n then [⟨n, seen ++ ns⟩] else [] := by
  induction ns generalizing seen with
  | nil => simp [picturesFrom]
  | cons m ns ih =>
    rw [List.cons_append, picturesFrom, picturesFrom, ih, List.append_assoc]
    split
    · rfl
    · rfl

/-- The worker after the pictures `ps`: between two access units, or in one. -/
inductive Holds (tr : H264Track) (w : Worker) (ps : List Picture) : Prop
  | closed (hau : w.au = []) (hopen : w.auOpen = false) (hidr : w.auHasIdr = false)
      (hready : w.ready = (ps.splitBy sameUnit).map (sample tr))
      (hend : ∀ q ∈ ps.getLast?, q.nalu.auEnd = true)
  | opened {done : List (List Picture)} {cur : List Picture} {q : Picture}
      (hcut : ps.splitBy sameUnit = done ++ [cur]) (hlast : q ∈ cur.getLast?)
      (hend : q.nalu.auEnd = false) (hts : q.nalu.rtpTs90khz = w.auTs)
      (hau : w.au = built tr cur) (hopen : w.auOpen = true)
      (hidr : w.auHasIdr = cur.any Picture.isIdr) (hready : w.ready = done.map (sample tr))

theorem built_concat (tr : H264Track) (g : List Picture) (p : Picture) :
    built tr (g ++ [p]) =
      built tr g ++ if p.isIdr then sets tr ++ [p.nalu.data] else [p.nalu.data] := by
  simp [built]

theorem built_ne_nil (tr : H264Track) {g : List Picture} (h : g ≠ []) : built tr g ≠ [] := by
  obtain ⟨p, g, rfl⟩ := List.exists_cons_of_ne_nil h
  rw [built, List.flatMap_cons]
  split <;> simp

theorem flushAu_open {w : Worker} (hopen : w.auOpen = true) (hau : w.au ≠ []) :
    flushAu w =
      { w with
        au := []
        auOpen := false
        auHasIdr := false
        ready := w.ready ++ [⟨w.au, if w.auHasIdr then kFlagSync else 0⟩] } := by
  have hempty : w.au.isEmpty = false := List.isEmpty_eq_false_iff.2 hau
  rw [flushAu, hopen, hempty]
  rfl

/-- A worker in the access unit `cur`, behind `done`. -/
structure Within (tr : H264Track) (w : Worker) (done : List (List Picture)) (cur : List Picture)
    (ts : UInt32) : Prop where
  au : w.au = built tr cur
  ts : w.auTs = ts
  opened : w.auOpen = true
  idr : w.auHasIdr = cur.any Picture.isIdr
  ready : w.ready = done.map (sample tr)

/-- An access unit that is ended is handed on. -/
theorem Within.flush {tr : H264Track} {w : Worker} {done : List (List Picture)}
    {cur : List Picture} {ts : UInt32} (h : Within tr w done cur ts) (hcur : cur ≠ []) :
    flushAu w = ⟨[], w.auTs, false, false, (done ++ [cur]).map (sample tr)⟩ := by
  have hau : w.au ≠ [] := by
    rw [h.au]
    exact built_ne_nil tr hcur
  rw [flushAu_open h.opened hau, h.ready, h.au, h.idr, List.map_append]
  rfl

theorem Within.append {tr : H264Track} {w : Worker} {done : List (List Picture)}
    {cur : List Picture} {ts : UInt32} (h : Within tr w done cur ts) (p : Picture) :
    Within tr (appendNalu tr w p.nalu) done (cur ++ [p]) ts := by
  by_cases hidr : nalType p.nalu.data = 5
  · have hp : p.isIdr = true := decide_eq_true hidr
    constructor
    · simp [appendNalu, hidr, h.au, built_concat, hp]
    · simp [appendNalu, hidr, h.ts]
    · simp [appendNalu, hidr, h.opened]
    · simp [appendNalu, hidr, hp]
    · simp [appendNalu, hidr, h.ready]
  · have hp : p.isIdr = false := decide_eq_false hidr
    constructor
    · simp [appendNalu, hidr, h.au, built_concat, hp]
    · simp [appendNalu, hidr, h.ts]
    · simp [appendNalu, hidr, h.opened]
    · simp [appendNalu, hidr, hp, h.idr]
    · simp [appendNalu, hidr, h.ready]

theorem openAu_closed {w : Worker} (h : w.auOpen = false) (n : Nalu) :
    openAu w n = { w with auOpen := true, auTs := n.rtpTs90khz } := by
  simp [openAu, h]

theorem openAu_boundary {w : Worker} {n : Nalu} (h : w.auOpen = true)
    (hts : n.rtpTs90khz ≠ w.auTs) :
    openAu w n = openAu (flushAu w) n := by
  have hflush : (flushAu w).auOpen = false := by
    unfold flushAu
    split <;> rfl
  simp [openAu, h, hts, hflush]

theorem openAu_same {w : Worker} {n : Nalu} (h : w.auOpen = true) (hts : n.rtpTs90khz = w.auTs) :
    openAu w n = w := by
  simp [openAu, h, hts]

/-- The worker opens the access unit that the next picture is in. -/
theorem Holds.openAu {tr : H264Track} {w : Worker} {ps : List Picture} (h : Holds tr w ps)
    (p : Picture) :
    ∃ done cur, (ps ++ [p]).splitBy sameUnit = done ++ [cur ++ [p]] ∧
      Within tr (openAu w p.nalu) done cur p.nalu.rtpTs90khz := by
  cases h with
  | closed hau hopen hidr hready hend =>
    refine ⟨ps.splitBy sameUnit, [], ?_, ?_⟩
    · refine List.splitBy_append_cons [] fun q hq => ?_
      rw [sameUnit, hend q hq]
      rfl
    · rw [openAu_closed hopen]
      exact ⟨hau, rfl, rfl, hidr, hready⟩
  | @opened done cur q hcut hlast hend hts hau hopen hidr hready =>
    have hcur : cur ≠ [] := by
      rintro rfl
      cases hlast
    have hps : ps.getLast? = some q := by
      have hflat := List.flatten_splitBy sameUnit ps
      rw [hcut] at hflat
      rw [← hflat]
      simp [List.getLast?_append, Option.mem_def.1 hlast]
    by_cases hsame : p.nalu.rtpTs90khz = w.auTs
    · refine ⟨done, cur, splitBy_concat hcut hlast ?_, ?_⟩
      · rw [sameUnit, hend, hts, hsame]
        simp
      · rw [openAu_same hopen hsame]
        exact ⟨hau, hsame.symm, hopen, hidr, hready⟩
    · refine ⟨done ++ [cur], [], ?_, ?_⟩
      · rw [← hcut]
        refine List.splitBy_append_cons [] fun x hx => ?_
        obtain rfl := Option.some.inj (hps.symm.trans hx)
        rw [sameUnit, hts, beq_eq_false_iff_ne.2 hsame, Bool.and_false]
      · have hwithin : Within tr w done cur w.auTs := ⟨hau, rfl, hopen, hidr, hready⟩
        rw [openAu_boundary hopen hsame, hwithin.flush hcur, openAu_closed rfl]
        exact ⟨rfl, rfl, rfl, rfl, rfl⟩

theorem Holds.readNalu {tr : H264Track} {w : Worker} {ps : List Picture} (h : Holds tr w ps)
    {n : Nalu} (hn : isPicture n = true) (seen : List Nalu) :
    Holds tr (readNalu tr w n) (ps ++ [⟨n, seen⟩]) := by
  obtain ⟨hne, hset⟩ := of_decide_eq_true hn
  obtain ⟨done, cur, hcut, hwithin⟩ := h.openAu ⟨n, seen⟩
  have hnext := hwithin.append ⟨n, seen⟩
  have hcur : cur ++ [⟨n, seen⟩] ≠ [] := by simp
  simp only [Passthrough.readNalu, if_neg hne, if_neg hset]
  cases hend : n.auEnd with
  | true =>
    rw [if_pos rfl, hnext.flush hcur]
    refine .closed rfl rfl rfl (by rw [hcut]) fun q hq => ?_
    rw [List.getLast?_concat] at hq
    obtain rfl := Option.some.inj hq
    exact hend
  | false =>
    rw [if_neg (by decide)]
    exact .opened hcut List.getLast?_concat hend hnext.ts.symm hnext.au hnext.opened hnext.idr
      hnext.ready

theorem readNalu_set {n : Nalu} (hn : isPicture n = false) (tr : H264Track) (w : Worker) :
    readNalu tr w n = w := by
  have hleft := of_decide_eq_false hn
  by_cases hne : n.data = []
  · rw [readNalu, if_pos hne]
  · have hset : nalType n.data = 7 ∨ nalType n.data = 8 := by
      by_contra hnot
      exact hleft ⟨hne, hnot⟩
    rw [readNalu, if_neg hne, if_pos hset]

theorem holds_run (tr : H264Track) (ns : List Nalu) :
    Holds tr (run tr ns) (picturesFrom [] ns) := by
  induction ns using List.reverseRecOn with
  | nil => exact .closed rfl rfl rfl rfl fun q hq => (by cases hq)
  | append_singleton ns n ih =>
    rw [run, List.foldl_append, picturesFrom_concat]
    cases hn : isPicture n with
    | true => exact ih.readNalu hn ns
    | false =>
      have hsame : (ns.foldl (readNalu tr) Worker.initial) = run tr ns := rfl
      rw [List.foldl_cons, List.foldl_nil, readNalu_set hn, hsame, if_neg (by decide),
        List.append_nil]
      exact ih

/-- **The worker hands on the access units** of the stream, one after the other. -/
theorem ready_run (tr : H264Track) (ns : List Nalu) :
    (run tr ns).ready = (accessUnits ns).map (sample tr) := by
  rw [accessUnits]
  cases holds_run tr ns with
  | closed hau hopen hidr hready hend =>
    have hended : ((picturesFrom [] ns).getLast?.map (·.nalu.auEnd)).getD true = true := by
      cases hlast : (picturesFrom [] ns).getLast? with
      | none => rfl
      | some q => exact hend q hlast
    rw [hready, if_pos hended]
  | @opened done cur q hcut hlast hend hts hau hopen hidr hready =>
    have hflat := List.flatten_splitBy sameUnit (picturesFrom [] ns)
    rw [hcut] at hflat
    have hps : (picturesFrom [] ns).getLast? = some q := by
      rw [← hflat]
      simp [List.getLast?_append, Option.mem_def.1 hlast]
    have hpending : ¬ ((picturesFrom [] ns).getLast?.map (·.nalu.auEnd)).getD true = true := by
      rw [hps]
      simp [hend]
    rw [hready, if_neg hpending, hcut, List.dropLast_concat]

/-! ## The parameter sets of an access unit -/

theorem latestSet_spec {type : UInt8} {sdp : Bytes} {seen : List Nalu} {set : Bytes}
    (hsdp : sdp = [] ∨ nalType sdp = type) (h : latestSet type sdp seen = some set) :
    set ≠ [] ∧ nalType set = type := by
  rw [latestSet] at h
  rcases Option.or_eq_some_iff.1 h with hband | ⟨-, hgiven⟩
  · obtain ⟨n, hn, rfl⟩ := Option.map_eq_some_iff.1 hband
    exact of_decide_eq_true (List.mem_filter.1 (List.mem_of_getLast? hn)).2
  · by_cases hnone : sdp = []
    · rw [if_pos hnone] at hgiven
      cases hgiven
    · rw [if_neg hnone] at hgiven
      obtain rfl := Option.some.inj hgiven
      exact ⟨hnone, hsdp.resolve_left hnone⟩

theorem picture_type {p : Picture} (h : isPicture p.nalu = true) :
    nalType p.nalu.data ≠ 7 ∧ nalType p.nalu.data ≠ 8 :=
  not_or.1 (of_decide_eq_true h).2

theorem isPicture_of_mem {seen ns : List Nalu} {p : Picture} (h : p ∈ picturesFrom seen ns) :
    isPicture p.nalu = true := by
  induction ns generalizing seen with
  | nil => cases h
  | cons n ns ih =>
    rw [picturesFrom] at h
    split at h
    · next hn =>
      rcases List.mem_cons.1 h with rfl | h
      · exact hn
      · exact ih h
    · exact ih h

theorem mem_of_mem_accessUnits {ns : List Nalu} {g : List Picture} (h : g ∈ accessUnits ns)
    {p : Picture} (hp : p ∈ g) : p ∈ picturesFrom [] ns := by
  have hunit : g ∈ (picturesFrom [] ns).splitBy sameUnit := by
    rw [accessUnits] at h
    split at h
    · exact h
    · exact List.mem_of_mem_dropLast h
  rw [← List.flatten_splitBy sameUnit (picturesFrom [] ns)]
  exact List.mem_flatten.2 ⟨g, hunit, hp⟩

/-- A set occurs in an access unit as often as the SDP's sets do, and as there are IDR units. -/
theorem count_built {tr : H264Track} {g : List Picture} {set : Bytes}
    (hg : ∀ p ∈ g, isPicture p.nalu = true) (hset : nalType set = 7 ∨ nalType set = 8) :
    (built tr g).count set = g.countP Picture.isIdr * (sets tr).count set := by
  induction g with
  | nil => simp [built]
  | cons p g ih =>
    obtain ⟨hp, hrest⟩ := List.forall_mem_cons.1 hg
    have hne : p.nalu.data ≠ set := by
      rintro rfl
      obtain ⟨h7, h8⟩ := picture_type hp
      exact hset.elim h7 h8
    have hcons : built tr (p :: g) =
        (if p.isIdr then sets tr ++ [p.nalu.data] else [p.nalu.data]) ++ built tr g := rfl
    rw [hcons, List.count_append, ih hrest]
    cases hidr : p.isIdr with
    | true =>
      rw [if_pos rfl, List.count_append, List.countP_cons_of_pos hidr,
        List.count_singleton, if_neg (by simpa using hne)]
      ring
    | false =>
      rw [if_neg (by decide), List.countP_cons_of_neg (by simp [hidr]), List.count_singleton,
        if_neg (by simpa using hne), Nat.zero_add]

theorem count_given {x set : Bytes} (hne : set ≠ []) :
    (if x ≠ [] then [x] else []).count set = if x = set then 1 else 0 := by
  by_cases hx : x = []
  · have hdiff : x ≠ set := fun heq => hne (heq ▸ hx)
    rw [if_neg (not_not.2 hx), if_neg hdiff]
    rfl
  · rw [if_pos hx, List.count_singleton]
    simp

theorem count_sets {tr : H264Track} {set : Bytes} (hne : set ≠ []) :
    (sets tr).count set = (if tr.sps = set then 1 else 0) + if tr.pps = set then 1 else 0 := by
  rw [sets, List.count_append, count_given hne, count_given hne]

/-- The part of an access unit that stands in front of its first IDR unit. -/
theorem takeWhile_built {tr : H264Track} (h : Sets tr) {before rest : List Picture} {p : Picture}
    (hp : p.isIdr = true) (hbefore : ∀ q ∈ before, q.isIdr = false) :
    (built tr (before ++ p :: rest)).takeWhile (nalType · ≠ 5) = built tr before ++ sets tr := by
  have hcut : built tr (before ++ p :: rest) =
      (built tr before ++ sets tr) ++ p.nalu.data :: built tr rest := by
    simp [built, hp]
  have hfront : ∀ nal ∈ built tr before ++ sets tr, decide (nalType nal ≠ 5) = true := by
    intro nal hnal
    refine decide_eq_true ?_
    rcases List.mem_append.1 hnal with hnal | hnal
    · obtain ⟨q, hq, hnal⟩ := List.mem_flatMap.1 hnal
      rw [hbefore q hq] at hnal
      obtain rfl := List.mem_singleton.1 hnal
      exact of_decide_eq_false (hbefore q hq)
    · rcases List.mem_append.1 hnal with hnal | hnal
      · split_ifs at hnal with hsps
        · obtain rfl := List.mem_singleton.1 hnal
          rw [h.sps.resolve_left hsps]
          decide
        · cases hnal
      · split_ifs at hnal with hpps
        · obtain rfl := List.mem_singleton.1 hnal
          rw [h.pps.resolve_left hpps]
          decide
        · cases hnal
  have hstop : ¬ decide (nalType p.nalu.data ≠ 5) = true := by
    rw [of_decide_eq_true hp]
    decide
  rw [hcut, List.takeWhile_append_of_pos hfront, List.takeWhile_cons, if_neg hstop,
    List.append_nil]

/-- For one access unit, the sets lead it if and only if they come from the SDP and there is one
IDR unit. -/
theorem leads_iff {tr : H264Track} (h : Sets tr) {g rest : List Picture} {p : Picture}
    (hg : ∀ p ∈ g, isPicture p.nalu = true) (hfirst : FirstIdr g p rest) {sps pps : Bytes}
    (hsps : sps ≠ [] ∧ nalType sps = 7) (hpps : pps ≠ [] ∧ nalType pps = 8) :
    Leads sps pps (built tr g) ↔
      sps = tr.sps ∧ pps = tr.pps ∧ ∀ q ∈ rest, q.isIdr = false := by
  obtain ⟨before, rfl, hidr, hbefore⟩ := hfirst
  have hcount : (before ++ p :: rest).countP Picture.isIdr = rest.countP Picture.isIdr + 1 := by
    have hnone : before.countP Picture.isIdr = 0 :=
      List.countP_eq_zero.2 fun q hq => by simp [hbefore q hq]
    rw [List.countP_append, hnone, List.countP_cons_of_pos hidr, Nat.zero_add]
  have hppsNe : tr.pps ≠ sps := by
    rintro rfl
    rcases h.pps with hnil | htype
    · exact hsps.1 hnil
    · rw [hsps.2] at htype
      exact absurd htype (by decide)
  have hspsNe : tr.sps ≠ pps := by
    rintro rfl
    rcases h.sps with hnil | htype
    · exact hpps.1 hnil
    · rw [hpps.2] at htype
      exact absurd htype (by decide)
  have hcountSps : (built tr (before ++ p :: rest)).count sps =
      (rest.countP Picture.isIdr + 1) * if tr.sps = sps then 1 else 0 := by
    rw [count_built hg (.inl hsps.2), hcount, count_sets hsps.1, if_neg hppsNe, add_zero]
  have hcountPps : (built tr (before ++ p :: rest)).count pps =
      (rest.countP Picture.isIdr + 1) * if tr.pps = pps then 1 else 0 := by
    rw [count_built hg (.inr hpps.2), hcount, count_sets hpps.1, if_neg hspsNe, zero_add]
  constructor
  · intro hleads
    have honeSps := hleads.onceSps
    have honePps := hleads.oncePps
    rw [hcountSps] at honeSps
    rw [hcountPps] at honePps
    have hone := Nat.eq_one_of_mul_eq_one_right honeSps
    have hgivenSps := Nat.eq_one_of_mul_eq_one_left honeSps
    have hgivenPps := Nat.eq_one_of_mul_eq_one_left honePps
    refine ⟨?_, ?_, ?_⟩
    · by_contra hne
      rw [if_neg (Ne.symm hne)] at hgivenSps
      cases hgivenSps
    · by_contra hne
      rw [if_neg (Ne.symm hne)] at hgivenPps
      cases hgivenPps
    · intro q hq
      exact Bool.eq_false_iff.2 (List.countP_eq_zero.1 (Nat.succ.inj hone) q hq)
  · rintro ⟨rfl, rfl, hrest⟩
    have hnone : rest.countP Picture.isIdr = 0 :=
      List.countP_eq_zero.2 fun q hq => by simp [hrest q hq]
    have hmemSps : tr.sps ∈ sets tr := by simp [sets, hsps.1]
    have hmemPps : tr.pps ∈ sets tr := by simp [sets, hpps.1]
    constructor
    · rw [hcountSps, hnone, if_pos rfl]
    · rw [hcountPps, hnone, if_pos rfl]
    · rw [takeWhile_built h hidr hbefore]
      exact List.mem_append_right _ hmemSps
    · rw [takeWhile_built h hidr hbefore]
      exact List.mem_append_right _ hmemPps

theorem hasSets_iff {tr : H264Track} (h : Sets tr) {g : List Picture}
    (hg : ∀ p ∈ g, isPicture p.nalu = true) :
    HasSets tr g (sample tr g) ↔ FromSdp tr g := by
  refine forall_congr' fun p => forall_congr' fun rest => forall_congr' fun hfirst => ?_
  refine forall_congr' fun sps => forall_congr' fun pps => forall_congr' fun hsps => ?_
  refine forall_congr' fun hpps => ?_
  exact leads_iff h hg hfirst (latestSet_spec h.sps hsps) (latestSet_spec h.pps hpps)

/-- **Parameter sets in front of every IDR unit**: each access unit of a run has them exactly when
the sets known are those of the SDP, for one IDR unit. -/
theorem sets_precede_idr_iff {sdp control : Bytes} {tr : H264Track}
    (h : Sdp.parseSdp sdp = .ok (tr, control)) (ns : List Nalu) :
    List.Forall₂ (fun g s => HasSets tr g s ↔ FromSdp tr g) (accessUnits ns) (run tr ns).ready := by
  rw [ready_run, List.forall₂_map_right_iff, List.forall₂_same]
  intro g hg
  exact hasSets_iff (Sdp.sets_parseSdp h) fun p hp =>
    isPicture_of_mem (mem_of_mem_accessUnits hg hp)

/-- A description without parameter sets. -/
def plainSdp : Bytes := ascii "m=video 0 RTP/AVP 96\r\na=rtpmap:96 H264/90000\r\n"

def plainTrack : H264Track := ⟨[], [], 90000, 96, 0, 0, 0⟩

theorem parse_plainSdp : Sdp.parseSdp plainSdp = .ok (plainTrack, []) := by decide +kernel

/-- An SPS, a PPS and an IDR unit, all in the stream. -/
def inBand : List Nalu :=
  [⟨[0x67, 0x42], 0, false⟩, ⟨[0x68, 0xce], 0, false⟩, ⟨[0x65, 0x88], 0, true⟩]

theorem sets_precede_idr_iff_plain :
    List.Forall₂ (fun g s => HasSets plainTrack g s ↔ FromSdp plainTrack g) (accessUnits inBand)
      (run plainTrack inBand).ready :=
  sets_precede_idr_iff parse_plainSdp inBand

/-- **A stream that carries its own sets**: the access unit of its IDR unit has none. -/
theorem in_band_sets_dropped :
    ¬ ∀ (sdp control : Bytes) (tr : H264Track), Sdp.parseSdp sdp = .ok (tr, control) →
      ∀ ns, List.Forall₂ (HasSets tr) (accessUnits ns) (run tr ns).ready := by
  intro h
  have hunits := h plainSdp [] plainTrack parse_plainSdp inBand
  have hready : (run plainTrack inBand).ready = [⟨[[0x65, 0x88]], 1⟩] := by decide
  have hgroups : accessUnits inBand =
      [[⟨⟨[0x65, 0x88], 0, true⟩, [⟨[0x67, 0x42], 0, false⟩, ⟨[0x68, 0xce], 0, false⟩]⟩]] := by
    decide
  rw [hready, hgroups] at hunits
  cases hunits with
  | cons hfirst _ =>
    have hleads := hfirst _ [] ⟨[], rfl, rfl, fun q hq => (by cases hq)⟩ [0x67, 0x42] [0x68, 0xce]
      rfl rfl
    exact absurd hleads.onceSps (by decide)

end BambooNet.Camera.Passthrough
