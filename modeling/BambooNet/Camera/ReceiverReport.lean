import BambooNet.Lib.BigEndian
import Mathlib.Data.List.Induction

/-!
# Receiver reports

The client counts the RTP packets that it receives and tells the printer from time to time how many
it has missed. Sequence numbers have 16 bits and the counters 32.

**The reference** (`highest`, `expected`) is over the integers that the sequence numbers stand for,
each within `2 ^ 15` of the highest so far. A number exactly half the range away can be read either
way; it stands for the lower one.

**Theorem (`report_spec`).** In any run the report carries the highest number, the packets lost and
the part lost since the last report, as long as fewer than `2 ^ 32` packets were expected.

The jitter, and the delay since the last sender report, come from the clock and are given.
-/

namespace BambooNet.Camera.Rtcp

/-! ## The client -/

def kRtcpRr : UInt8 := 201

/-- The counters; no packet has been received before `seqInitialised`. -/
structure RtpStats where
  havePeerSsrc : Bool
  peerSsrc : UInt32
  seqInitialised : Bool
  maxSeq : UInt16
  seqCycles : UInt32
  baseSeq : UInt32
  packetsReceived : UInt32
  expectedPrior : UInt32
  receivedPrior : UInt32
  deriving DecidableEq

def RtpStats.initial : RtpStats := ⟨false, 0, false, 0, 0, 0, 0, 0, 0⟩

/-- The numbers after a packet with `seq`. -/
def advanceSeq (s : RtpStats) (seq : UInt16) : RtpStats :=
  if !s.seqInitialised then
    { s with
      seqInitialised := true
      baseSeq := seq.toUInt32
      maxSeq := seq
      seqCycles := 0
      packetsReceived := 0
      expectedPrior := 0
      receivedPrior := 0 }
  else if seq - s.maxSeq < 0x8000 then
    { s with
      seqCycles := if seq < s.maxSeq then s.seqCycles + 0x10000 else s.seqCycles
      maxSeq := seq }
  else s

def updateRtpStats (s : RtpStats) (seq : UInt16) (ssrc : UInt32) : RtpStats :=
  let s := advanceSeq { s with peerSsrc := ssrc, havePeerSsrc := true } seq
  { s with packetsReceived := s.packetsReceived + 1 }

/-- What a report takes from elsewhere. -/
structure Clock where
  ourSsrc : UInt32
  jitter : UInt32
  /-- The middle of the last sender report's time, or 0. -/
  lastSr : UInt32
  dlsr : UInt32

def push32 (v : UInt32) : Bytes := beBytes 4 v.toNat

def RtpStats.extendedMax (s : RtpStats) : UInt32 := s.seqCycles + s.maxSeq.toUInt32

def RtpStats.expected (s : RtpStats) : UInt32 := s.extendedMax - s.baseSeq + 1

def RtpStats.lost (s : RtpStats) : ℤ :=
  let lost : ℤ := s.expected.toNat - s.packetsReceived.toNat
  if lost < 0 then 0 else if lost > 0x7fffff then 0x7fffff else lost

def RtpStats.fraction (s : RtpStats) : UInt8 :=
  let expectedInterval := s.expected - s.expectedPrior
  let receivedInterval := s.packetsReceived - s.receivedPrior
  let lostInterval : ℤ := expectedInterval.toNat - receivedInterval.toNat
  if expectedInterval > 0 ∧ lostInterval > 0 then
    UInt8.ofNat ((lostInterval * 256 / expectedInterval.toNat).toNat)
  else 0

/-- The counters afterwards, and the report. -/
def buildReceiverReport (s : RtpStats) (c : Clock) : RtpStats × Bytes :=
  ({ s with expectedPrior := s.expected, receivedPrior := s.packetsReceived },
    [0x81, kRtcpRr, 0, 7] ++ push32 c.ourSsrc ++ push32 s.peerSsrc ++
      [s.fraction, UInt8.ofNat (s.lost.toNat >>> 16), UInt8.ofNat (s.lost.toNat >>> 8),
        UInt8.ofNat s.lost.toNat] ++
      push32 s.extendedMax ++ push32 c.jitter ++ push32 c.lastSr ++ push32 c.dlsr)

/-- There is no report before the first packet. -/
def sendRtcpReceiverReport (s : RtpStats) (c : Clock) : RtpStats × Option Bytes :=
  if !s.seqInitialised || !s.havePeerSsrc then (s, none)
  else ((buildReceiverReport s c).1, some (buildReceiverReport s c).2)

/-! ## Runs -/

/-- A packet, with the integer that its sequence number stands for, or a report. -/
inductive Event
  | packet (u : ℤ) (ssrc : UInt32)
  | report (c : Clock)

def seqOf (u : ℤ) : UInt16 := UInt16.ofNat (u % 2 ^ 16).toNat

def step (s : RtpStats) : Event → RtpStats
  | .packet u ssrc => updateRtpStats s (seqOf u) ssrc
  | .report c => (sendRtcpReceiverReport s c).1

def run (es : List Event) : RtpStats := es.foldl step RtpStats.initial

/-! ## The reference -/

def record (h : List ℤ × List ℤ) : Event → List ℤ × List ℤ
  | .packet u _ => (h.1 ++ [u], h.2)
  | .report _ => (h.1, h.1)

/-- The packets received, and those of them that came before the last report. -/
def history (es : List Event) : List ℤ × List ℤ := es.foldl record ([], [])

def packets (es : List Event) : List ℤ := (history es).1

def reported (es : List Event) : List ℤ := (history es).2

def highest : List ℤ → ℤ
  | [] => 0
  | u :: us => us.foldl max u

def expected (us : List ℤ) : ℤ := if us = [] then 0 else highest us - us.headD 0 + 1

/-- Each number is within `2 ^ 15` of the highest before it; the first is as it is written. -/
def Near (us : List ℤ) : Prop :=
  ∀ before u after, us = before ++ u :: after →
    if before = [] then 0 ≤ u ∧ u < 2 ^ 16
    else highest before - 2 ^ 15 ≤ u ∧ u < highest before + 2 ^ 15

/-! ## The fields of a report -/

def fractionField (r : Bytes) : ℕ := beNat ((r.drop 12).take 1)

def lostField (r : Bytes) : ℕ := beNat ((r.drop 13).take 3)

def maxField (r : Bytes) : ℕ := beNat ((r.drop 16).take 4)

/-! ## The counters and the reference -/

theorem highest_concat {us : List ℤ} (h : us ≠ []) (u : ℤ) :
    highest (us ++ [u]) = max (highest us) u := by
  cases us with
  | nil => exact absurd rfl h
  | cons v us => rw [highest, List.cons_append, highest, List.foldl_append]; rfl

theorem headD_concat {us : List ℤ} (h : us ≠ []) (u : ℤ) : (us ++ [u]).headD 0 = us.headD 0 := by
  cases us with
  | nil => exact absurd rfl h
  | cons v us => rfl

theorem le_highest_append {us : List ℤ} (h : us ≠ []) (vs : List ℤ) :
    highest us ≤ highest (us ++ vs) := by
  cases us with
  | nil => exact absurd rfl h
  | cons v us =>
    rw [List.cons_append, highest, highest, List.foldl_append]
    generalize us.foldl max v = m
    induction vs generalizing m with
    | nil => exact le_refl _
    | cons w vs ih => exact (le_max_left _ _).trans (ih _)

theorem Near.prefix {us vs : List ℤ} (h : Near (us ++ vs)) : Near us := by
  intro before u after hcut
  refine h before u (after ++ vs) ?_
  rw [hcut, List.append_assoc, List.cons_append]

/-- The counters of a client that has received `us`, and `vs` before its last report. -/
structure Follows (s : RtpStats) (us vs : List ℤ) : Prop where
  ssrc : s.havePeerSsrc = true
  initialised : s.seqInitialised = true
  first : 0 ≤ us.headD 0 ∧ us.headD 0 < 2 ^ 16 ∧ us.headD 0 ≤ highest us
  maxSeq : (s.maxSeq.toNat : ℤ) = highest us % 2 ^ 16
  seqCycles : (s.seqCycles.toNat : ℤ) = (highest us - highest us % 2 ^ 16) % 2 ^ 32
  baseSeq : (s.baseSeq.toNat : ℤ) = us.headD 0
  received : s.packetsReceived.toNat = us.length % 2 ^ 32
  expectedPrior : (s.expectedPrior.toNat : ℤ) = expected vs % 2 ^ 32
  receivedPrior : s.receivedPrior.toNat = vs.length % 2 ^ 32

theorem toNat_seqOf (u : ℤ) : ((seqOf u).toNat : ℤ) = u % 2 ^ 16 := by
  rw [seqOf, UInt16.toNat_ofNat']
  omega

theorem Follows.extendedMax {s : RtpStats} {us vs : List ℤ} (h : Follows s us vs) :
    (s.extendedMax.toNat : ℤ) = highest us % 2 ^ 32 := by
  have hmax := h.maxSeq
  have hcycles := h.seqCycles
  rw [RtpStats.extendedMax, UInt32.toNat_add, UInt16.toNat_toUInt32]
  omega

theorem Follows.expected {s : RtpStats} {us vs : List ℤ} (h : Follows s us vs) (hne : us ≠ []) :
    (s.expected.toNat : ℤ) = expected us % 2 ^ 32 := by
  have hmax := h.extendedMax
  have hbase := h.baseSeq
  have hlt := s.baseSeq.toNat_lt
  rw [RtpStats.expected, UInt32.toNat_add, UInt32.toNat_sub, UInt32.toNat_one, Rtcp.expected,
    if_neg hne]
  omega

theorem Follows.first_packet {s : RtpStats} (hs : s.seqInitialised = false) {u : ℤ}
    (hu : 0 ≤ u ∧ u < 2 ^ 16) (ssrc : UInt32) :
    Follows (updateRtpStats s (seqOf u) ssrc) [u] [] := by
  have hseq := toNat_seqOf u
  rw [updateRtpStats, advanceSeq]
  dsimp only
  rw [hs]
  refine ⟨rfl, rfl, ⟨hu.1, hu.2, le_refl _⟩, hseq, ?_, ?_, rfl, rfl, rfl⟩
  · show (0 : ℤ) = (u - u % 2 ^ 16) % 2 ^ 32
    omega
  · show ((seqOf u).toUInt32.toNat : ℤ) = u
    rw [UInt16.toNat_toUInt32]
    omega

theorem Follows.packet {s : RtpStats} {us vs : List ℤ} (h : Follows s us vs) (hne : us ≠ []) {u : ℤ}
    (hu : highest us - 2 ^ 15 ≤ u ∧ u < highest us + 2 ^ 15) (ssrc : UInt32) :
    Follows (updateRtpStats s (seqOf u) ssrc) (us ++ [u]) vs := by
  have hseq := toNat_seqOf u
  have hmax := h.maxSeq
  have hcycles := h.seqCycles
  have hfirst := h.first
  have hup : seqOf u - s.maxSeq < 0x8000 ↔ highest us ≤ u := by
    have hhalf : (0x8000 : UInt16).toNat = 2 ^ 15 := rfl
    rw [UInt16.lt_iff_toNat_lt, UInt16.toNat_sub, hhalf]
    omega
  have hwrap : seqOf u < s.maxSeq ↔ u % 2 ^ 16 < highest us % 2 ^ 16 := by
    rw [UInt16.lt_iff_toNat_lt]
    omega
  have hreceived : (s.packetsReceived + 1).toNat = (us ++ [u]).length % 2 ^ 32 := by
    rw [UInt32.toNat_add, h.received, List.length_append, List.length_singleton, UInt32.toNat_one,
      Nat.mod_add_mod]
  rw [updateRtpStats, advanceSeq, h.initialised]
  dsimp only
  rw [if_neg (by decide)]
  by_cases hle : highest us ≤ u
  · have hhigh : highest (us ++ [u]) = u := by rw [highest_concat hne, max_eq_right hle]
    rw [if_pos (hup.2 hle)]
    refine ⟨rfl, rfl, ?_, ?_, ?_, ?_, hreceived, h.expectedPrior, h.receivedPrior⟩
    · rw [headD_concat hne, hhigh]
      omega
    · rw [hhigh]
      exact hseq
    · rw [hhigh]
      dsimp only
      by_cases hlow : u % 2 ^ 16 < highest us % 2 ^ 16
      · have hcycle : (0x10000 : UInt32).toNat = 2 ^ 16 := rfl
        rw [if_pos (hwrap.2 hlow), UInt32.toNat_add, hcycle]
        omega
      · rw [if_neg (mt hwrap.1 hlow)]
        omega
    · rw [headD_concat hne]
      exact h.baseSeq
  · have hhigh : highest (us ++ [u]) = highest us := by
      rw [highest_concat hne, max_eq_left (not_le.1 hle).le]
    rw [if_neg (mt hup.1 hle)]
    refine ⟨rfl, rfl, ?_, ?_, ?_, ?_, hreceived, h.expectedPrior, h.receivedPrior⟩
    · rw [headD_concat hne, hhigh]
      exact hfirst
    · rw [hhigh]
      exact hmax
    · rw [hhigh]
      exact hcycles
    · rw [headD_concat hne]
      exact h.baseSeq

theorem Follows.report {s : RtpStats} {us vs : List ℤ} (h : Follows s us vs) (hne : us ≠ [])
    (c : Clock) : Follows (sendRtcpReceiverReport s c).1 us us := by
  rw [sendRtcpReceiverReport, h.initialised, h.ssrc]
  exact ⟨h.ssrc, h.initialised, h.first, h.maxSeq, h.seqCycles, h.baseSeq, h.received,
    h.expected hne, h.received⟩

/-- **The counters follow the reference** through a run. -/
theorem follows_run {es : List Event} (h : Near (packets es)) :
    ((run es).seqInitialised = false ∧ packets es = [] ∧ reported es = []) ∨
      packets es ≠ [] ∧ Follows (run es) (packets es) (reported es) := by
  induction es using List.reverseRecOn with
  | nil => exact .inl ⟨rfl, rfl, rfl⟩
  | append_singleton es e ih =>
    have hrun : run (es ++ [e]) = step (run es) e := by rw [run, List.foldl_append]; rfl
    have hhistory : history (es ++ [e]) = record (history es) e := by
      rw [history, List.foldl_append]; rfl
    cases e with
    | packet u ssrc =>
      have hpackets : packets (es ++ [.packet u ssrc]) = packets es ++ [u] := by
        rw [packets, hhistory]; rfl
      have hreported : reported (es ++ [.packet u ssrc]) = reported es := by
        rw [reported, hhistory]; rfl
      rw [hpackets] at h
      have hu := h (packets es) u [] rfl
      rw [hpackets, hreported, hrun, step]
      refine .inr ⟨List.append_ne_nil_of_right_ne_nil _ (List.cons_ne_nil _ _), ?_⟩
      rcases ih h.prefix with ⟨hs, hnone, hprior⟩ | ⟨hne, hfollows⟩
      · rw [if_pos hnone] at hu
        rw [hnone, hprior]
        exact Follows.first_packet hs hu ssrc
      · rw [if_neg hne] at hu
        exact hfollows.packet hne hu ssrc
    | report c =>
      have hpackets : packets (es ++ [.report c]) = packets es := by rw [packets, hhistory]; rfl
      have hreported : reported (es ++ [.report c]) = packets es := by rw [reported, hhistory]; rfl
      rw [hpackets] at h
      rw [hpackets, hreported, hrun, step]
      rcases ih h with ⟨hs, hnone, -⟩ | ⟨hne, hfollows⟩
      · rw [sendRtcpReceiverReport, hs]
        exact .inl ⟨hs, hnone, hnone⟩
      · exact .inr ⟨hne, hfollows.report hne c⟩

theorem reported_prefix_packets (es : List Event) : reported es <+: packets es := by
  induction es using List.reverseRecOn with
  | nil => exact List.prefix_refl _
  | append_singleton es e ih =>
    have hhistory : history (es ++ [e]) = record (history es) e := by
      rw [history, List.foldl_append]; rfl
    rw [reported, packets, hhistory]
    cases e with
    | packet u ssrc => exact ih.trans (List.prefix_append _ _)
    | report c => exact List.prefix_refl _

/-! ## A report -/

/-- Of `us`, received in all, `vs` came before the last report. -/
structure Reports (r : Bytes) (us vs : List ℤ) : Prop where
  high : (maxField r : ℤ) = highest us % 2 ^ 32
  lost : (lostField r : ℤ) = min 0x7fffff (max 0 (expected us - us.length))
  fraction : (fractionField r : ℤ) =
    if 0 < (expected us - expected vs) - (us.length - vs.length) then
      256 * ((expected us - expected vs) - (us.length - vs.length)) / (expected us - expected vs)
    else 0

theorem head_le_highest {us : List ℤ} (h : us ≠ []) : us.headD 0 ≤ highest us := by
  cases us with
  | nil => exact absurd rfl h
  | cons v us => exact le_highest_append (List.cons_ne_nil v []) us

theorem expected_le {us vs : List ℤ} (h : vs <+: us) (hus : us ≠ []) :
    0 ≤ expected vs ∧ expected vs ≤ expected us := by
  have hhead := head_le_highest hus
  rw [expected, expected, if_neg hus]
  by_cases hvs : vs = []
  · rw [if_pos hvs]
    omega
  · obtain ⟨rest, rfl⟩ := h
    have hfirst : (vs ++ rest).headD 0 = vs.headD 0 := by
      obtain ⟨v, vs', rfl⟩ := List.exists_cons_of_ne_nil hvs
      rfl
    have hheadVs := head_le_highest hvs
    have hle := le_highest_append hvs rest
    rw [if_neg hvs, hfirst]
    omega

theorem lost_eq {s : RtpStats} {us vs : List ℤ} (h : Follows s us vs) (hne : us ≠ [])
    (hcount : us.length < 2 ^ 32) (hexpected : expected us < 2 ^ 32) :
    s.lost = min 0x7fffff (max 0 (expected us - us.length)) := by
  have hpos := (expected_le (List.prefix_refl us) hne).1
  have hown := h.expected hne
  have hreceived := h.received
  rw [RtpStats.lost]
  split_ifs <;> omega

/-- The highest number does not advance without a packet, so the part that is lost is less than
one. -/
theorem fraction_lt {lost e : ℤ} (hlost : 0 < lost) (he : lost < e) :
    0 ≤ lost * 256 / e ∧ lost * 256 / e < 256 := by
  constructor
  · exact Int.ediv_nonneg (by omega) (by omega)
  · exact Int.ediv_lt_of_lt_mul (by omega) (by omega)

theorem fraction_eq {s : RtpStats} {us vs : List ℤ} (h : Follows s us vs) (hne : us ≠ [])
    (hpre : vs <+: us) (hcount : us.length < 2 ^ 32) (hexpected : expected us < 2 ^ 32) :
    (s.fraction.toNat : ℤ) =
      if 0 < (expected us - expected vs) - (us.length - vs.length) then
        256 * ((expected us - expected vs) - (us.length - vs.length)) / (expected us - expected vs)
      else 0 := by
  obtain ⟨hpos, hmono⟩ := expected_le hpre hne
  have hown := h.expected hne
  have hreceived := h.received
  have hprior := h.expectedPrior
  have hpriorReceived := h.receivedPrior
  have hlen := hpre.length_le
  have hei : ((s.expected - s.expectedPrior).toNat : ℤ) = expected us - expected vs := by
    rw [UInt32.toNat_sub]
    omega
  have hri : ((s.packetsReceived - s.receivedPrior).toNat : ℤ) = us.length - vs.length := by
    rw [UInt32.toNat_sub]
    omega
  have hadvance : 0 < expected us - expected vs → vs.length < us.length := by
    intro hlt
    refine lt_of_le_of_ne hlen fun heq => ?_
    rw [hpre.eq_of_length heq] at hlt
    omega
  have hsome : s.expected - s.expectedPrior > 0 ↔ 0 < expected us - expected vs := by
    have hzero : (0 : UInt32).toNat = 0 := rfl
    rw [gt_iff_lt, UInt32.lt_iff_toNat_lt, hzero]
    omega
  rw [RtpStats.fraction, hei, hri]
  by_cases hlost : 0 < (expected us - expected vs) - (us.length - vs.length)
  · have hless : (expected us - expected vs) - (us.length - vs.length) <
        expected us - expected vs := by omega
    obtain ⟨hnonneg, hlt⟩ := fraction_lt hlost hless
    rw [if_pos hlost, if_pos ⟨hsome.2 (by omega), hlost⟩, UInt8.toNat_ofNat', Int.mul_comm 256]
    omega
  · rw [if_neg hlost, if_neg (fun hboth => hlost hboth.2)]
    rfl

theorem fields_buildReceiverReport (s : RtpStats) (c : Clock) :
    maxField (buildReceiverReport s c).2 = s.extendedMax.toNat ∧
      fractionField (buildReceiverReport s c).2 = s.fraction.toNat ∧
        (lostField (buildReceiverReport s c).2 : ℤ) = s.lost := by
  refine ⟨?_, ?_, ?_⟩
  · have hread : maxField (buildReceiverReport s c).2 = beNat (push32 s.extendedMax) := rfl
    rw [hread, push32, beNat_beBytes]
    exact Nat.mod_eq_of_lt s.extendedMax.toNat_lt
  · have hread : fractionField (buildReceiverReport s c).2 = beNat [s.fraction] := rfl
    rw [hread, beNat, List.length_nil, pow_zero, one_mul, beNat, add_zero]
  · have hbytes : [UInt8.ofNat (s.lost.toNat >>> 16), UInt8.ofNat (s.lost.toNat >>> 8),
        UInt8.ofNat s.lost.toNat] = beBytes 3 s.lost.toNat := by
      rw [Nat.shiftRight_eq_div_pow, Nat.shiftRight_eq_div_pow, beBytes, beBytes, beBytes, beBytes,
        pow_zero, Nat.div_one]
      rfl
    have hread : lostField (buildReceiverReport s c).2 = beNat (beBytes 3 s.lost.toNat) :=
      congrArg beNat hbytes
    have hrange : 0 ≤ s.lost ∧ s.lost ≤ 0x7fffff := by
      rw [RtpStats.lost]
      split_ifs <;> omega
    rw [hread, beNat_beBytes]
    omega

/-- **Every report is right**, wherever in a run it is built. -/
theorem report_spec {es : List Event} (hnear : Near (packets es)) (hne : packets es ≠ [])
    (hcount : (packets es).length < 2 ^ 32) (hexpected : expected (packets es) < 2 ^ 32)
    (c : Clock) :
    ∃ r, (sendRtcpReceiverReport (run es) c).2 = some r ∧
      Reports r (packets es) (reported es) := by
  obtain ⟨-, hnone, -⟩ | ⟨-, h⟩ := follows_run hnear
  · exact absurd hnone hne
  · obtain ⟨hmax, hfraction, hlost⟩ := fields_buildReceiverReport (run es) c
    refine ⟨(buildReceiverReport (run es) c).2, ?_, ?_, ?_, ?_⟩
    · rw [sendRtcpReceiverReport, h.initialised, h.ssrc]
      rfl
    · rw [hmax, h.extendedMax]
    · rw [hlost, lost_eq h hne hcount hexpected]
    · rw [hfraction, fraction_eq h hne (reported_prefix_packets es) hcount hexpected]

theorem near_singleton {u : ℤ} (hu : 0 ≤ u ∧ u < 2 ^ 16) : Near [u] := by
  intro before v after hcut
  rcases before with _ | ⟨w, before⟩
  · rw [if_pos rfl]
    obtain ⟨rfl, -⟩ := List.cons.inj hcut
    exact hu
  · have hlen := congrArg List.length hcut
    simp only [List.length_append, List.length_cons, List.length_nil] at hlen
    omega

theorem Near.concat {us : List ℤ} (h : Near us) (hne : us ≠ []) {u : ℤ}
    (hu : highest us - 2 ^ 15 ≤ u ∧ u < highest us + 2 ^ 15) : Near (us ++ [u]) := by
  intro before v after hcut
  rcases List.eq_nil_or_concat after with rfl | ⟨after, w, rfl⟩
  · obtain ⟨rfl, hv⟩ := List.append_inj' hcut rfl
    obtain ⟨rfl, -⟩ := List.cons.inj hv
    rw [if_neg hne]
    exact hu
  · rw [List.concat_eq_append, ← List.cons_append, ← List.append_assoc] at hcut
    obtain ⟨rfl, -⟩ := List.append_inj' hcut rfl
    exact h before v after rfl

/-- Two packets before a report, then one that skips two and a duplicate, across a wrap. -/
def wrappingRun : List Event :=
  [.packet 65534 7, .packet 65535 7, .report ⟨1, 0, 0, 0⟩, .packet 65538 7, .packet 65538 7]

theorem near_wrappingRun : Near (packets wrappingRun) := by
  have hone : Near [65534] := near_singleton (by decide)
  have htwo : Near [65534, 65535] := hone.concat (by decide) (by decide)
  have hthree : Near [65534, 65535, 65538] := htwo.concat (by decide) (by decide)
  exact hthree.concat (by decide) (by decide)

theorem report_spec_wrapping :
    ∃ r, (sendRtcpReceiverReport (run wrappingRun) ⟨1, 0, 0, 0⟩).2 = some r ∧
      Reports r (packets wrappingRun) (reported wrappingRun) :=
  report_spec near_wrappingRun (by decide) (by decide) (by decide) _

/-! ## Four billion packets lost -/

/-- Packets that are as far apart as they can be. -/
def sparse (n : ℕ) : List Event := (List.range n).map fun i : ℕ => .packet (32767 * i) 7

theorem sparse_succ (n : ℕ) : sparse (n + 1) = sparse n ++ [.packet (32767 * n) 7] := by
  rw [sparse, List.range_succ, List.map_append]
  rfl

theorem history_sparse (n : ℕ) :
    history (sparse n) = ((List.range n).map fun i : ℕ => 32767 * (i : ℤ), []) := by
  induction n with
  | zero => rfl
  | succ n ih =>
    rw [sparse_succ, history, List.foldl_append]
    have hpart : (sparse n).foldl record ([], []) = history (sparse n) := rfl
    rw [hpart, ih, List.range_succ, List.map_append]
    rfl

theorem packets_sparse_succ (n : ℕ) :
    packets (sparse (n + 1)) = packets (sparse n) ++ [32767 * (n : ℤ)] := by
  rw [packets, packets, history_sparse, history_sparse, List.range_succ, List.map_append]
  rfl

theorem sparse_spec (n : ℕ) :
    packets (sparse (n + 1)) ≠ [] ∧ highest (packets (sparse (n + 1))) = 32767 * n ∧
      (packets (sparse (n + 1))).headD 0 = 0 ∧ (packets (sparse (n + 1))).length = n + 1 ∧
        Near (packets (sparse (n + 1))) := by
  induction n with
  | zero => exact ⟨by decide, by decide, by decide, rfl, near_singleton (by decide)⟩
  | succ n ih =>
    obtain ⟨hne, hhigh, hhead, hlen, hnear⟩ := ih
    rw [packets_sparse_succ (n + 1)]
    refine ⟨List.append_ne_nil_of_left_ne_nil hne _, ?_, ?_, ?_, ?_⟩
    · rw [highest_concat hne, hhigh]
      exact max_eq_right (by omega)
    · rw [headD_concat hne, hhead]
    · rw [List.length_append, hlen, List.length_singleton]
    · refine hnear.concat hne ?_
      rw [hhigh]
      push_cast
      constructor <;> omega

/-- **A run in which the 32 bits overflow**: of more than four billion packets 131078 are received,
and the report says that none is lost. -/
theorem report_overflows :
    ∃ es, Near (packets es) ∧ packets es ≠ [] ∧ (packets es).length < 2 ^ 32 ∧
      expected (packets es) - (packets es).length > 0x7fffff ∧
        ∃ r, (sendRtcpReceiverReport (run es) ⟨1, 0, 0, 0⟩).2 = some r ∧ lostField r = 0 := by
  obtain ⟨hne, hhigh, hhead, hlen, hnear⟩ : packets (sparse 131078) ≠ [] ∧
      highest (packets (sparse 131078)) = 32767 * (131077 : ℕ) ∧
        (packets (sparse 131078)).headD 0 = 0 ∧ (packets (sparse 131078)).length = 131078 ∧
          Near (packets (sparse 131078)) := sparse_spec 131077
  have hexpected : expected (packets (sparse 131078)) = 4295000060 := by
    rw [expected, if_neg hne, hhigh, hhead]
    norm_num
  refine ⟨sparse 131078, hnear, hne, ?_, ?_, ?_⟩
  · rw [hlen]
    decide
  · rw [hexpected, hlen]
    omega
  · obtain ⟨-, hnone, -⟩ | ⟨-, h⟩ := follows_run hnear
    · exact absurd hnone hne
    · have hown := h.expected hne
      have hreceived := h.received
      rw [hexpected] at hown
      rw [hlen] at hreceived
      obtain ⟨-, -, hlost⟩ := fields_buildReceiverReport (run (sparse 131078)) ⟨1, 0, 0, 0⟩
      refine ⟨(buildReceiverReport (run (sparse 131078)) ⟨1, 0, 0, 0⟩).2, ?_, ?_⟩
      · rw [sendRtcpReceiverReport, h.initialised, h.ssrc]
        rfl
      · have hzero : (run (sparse 131078)).lost = 0 := by
          rw [RtpStats.lost]
          split_ifs <;> omega
        omega

end BambooNet.Camera.Rtcp
