import BambooNet.Camera.Passthrough

/-!
# The samples are the access units of the stream

Read at its start codes and without parameter sets, what the worker hands on is what it received:
the units that are no parameter sets, in order, in runs that end at `au_end` or where the time
stamp changes (`samples_partition`). The worker writes the sets of the SDP as they are, so this asks
of them that they hold no start code.
-/

namespace BambooNet.Camera.Passthrough

open AnnexB (CodeFree)
open Avcc (forEachNal nalType)
open RtpH264 (Nalu)
open Sdp (H264Track)

def sameRun (n m : Nalu) : Bool := !n.auEnd && m.rtpTs90khz == n.rtpTs90khz

/-- The maximal runs of the units for the decoder; the last one only when it has been ended. -/
def endedRuns (ns : List Nalu) : List (List Nalu) :=
  let runs := (ns.filter isPicture).splitBy sameRun
  if ((ns.filter isPicture).getLast?.map Nalu.auEnd).getD true then runs else runs.dropLast

/-- What is not an SPS or a PPS. -/
def notSet (nal : Bytes) : Bool := ¬ (nalType nal = 7 ∨ nalType nal = 8)

/-! ## Runs and access units -/

theorem map_splitBy {α β : Type*} (g : α → β) (r : β → β → Bool) (l : List α) :
    (l.map g).splitBy r = (l.splitBy fun a b => r (g a) (g b)).map (List.map g) := by
  obtain ⟨hflat, hne, hchain, hbreak⟩ :=
    List.splitBy_eq_iff.1 (rfl : (l.splitBy fun a b => r (g a) (g b)) = _)
  refine List.splitBy_eq_iff.2 ⟨?_, ?_, ?_, ?_⟩
  · rw [← List.map_flatten, ← hflat]
  · intro hmem
    obtain ⟨m, hm, hnil⟩ := List.mem_map.1 hmem
    exact hne (List.map_eq_nil_iff.1 hnil ▸ hm)
  · intro m hm
    obtain ⟨m, hmem, rfl⟩ := List.mem_map.1 hm
    exact (List.isChain_map g).2 (hchain m hmem)
  · rw [List.isChain_map]
    refine hbreak.imp ?_
    rintro a b ⟨ha, hb, hrel⟩
    refine ⟨mt List.map_eq_nil_iff.1 ha, mt List.map_eq_nil_iff.1 hb, ?_⟩
    rw [List.getLast_map, List.head_map]
    exact hrel

theorem map_picturesFrom (seen ns : List Nalu) :
    (picturesFrom seen ns).map Picture.nalu = ns.filter isPicture := by
  induction ns generalizing seen with
  | nil => rfl
  | cons n ns ih =>
    rw [picturesFrom, List.filter_cons]
    split
    · rw [List.map_cons, ih]
    · exact ih _

theorem endedRuns_eq (ns : List Nalu) :
    endedRuns ns = (accessUnits ns).map (List.map Picture.nalu) := by
  have hruns : (ns.filter isPicture).splitBy sameRun =
      ((picturesFrom [] ns).splitBy sameUnit).map (List.map Picture.nalu) := by
    rw [← map_picturesFrom [] ns]
    exact map_splitBy Picture.nalu sameRun _
  have hlast : (ns.filter isPicture).getLast?.map Nalu.auEnd =
      (picturesFrom [] ns).getLast?.map (·.nalu.auEnd) := by
    rw [← map_picturesFrom [] ns, List.getLast?_map, Option.map_map]
    rfl
  rw [endedRuns, accessUnits, hruns, hlast]
  split
  · rfl
  · rw [List.map_dropLast]

/-! ## The units of a sample -/

theorem forEachNal_bytes {s : Sample} (hfree : ∀ nal ∈ s.nals, CodeFree nal)
    (hne : ∀ nal ∈ s.nals, nal ≠ []) : forEachNal s.bytes = s.nals := by
  have hstream : AnnexB.Stream s.bytes [] s.nals := AnnexB.stream_long AnnexB.codeFree_nil hfree
  rw [Avcc.forEachNal_stream hstream, List.filter_eq_self]
  exact fun nal hnal => decide_eq_true (hne nal hnal)

theorem mem_sets {tr : H264Track} {nal : Bytes} (h : nal ∈ sets tr) :
    nal ≠ [] ∧ (nal = tr.sps ∨ nal = tr.pps) := by
  rcases List.mem_append.1 h with h | h
  · split_ifs at h with hsps
    · obtain rfl := List.mem_singleton.1 h
      exact ⟨hsps, .inl rfl⟩
    · cases h
  · split_ifs at h with hpps
    · obtain rfl := List.mem_singleton.1 h
      exact ⟨hpps, .inr rfl⟩
    · cases h

theorem notSet_of_mem_sets {tr : H264Track} (htr : Sdp.Sets tr) {nal : Bytes}
    (h : nal ∈ sets tr) : notSet nal = false := by
  obtain ⟨hne, hset⟩ := mem_sets h
  refine decide_eq_false (not_not.2 ?_)
  rcases hset with rfl | rfl
  · exact .inl (htr.sps.resolve_left hne)
  · exact .inr (htr.pps.resolve_left hne)

theorem mem_built {tr : H264Track} {g : List Picture} {nal : Bytes} (h : nal ∈ built tr g) :
    nal ∈ sets tr ∨ ∃ p ∈ g, nal = p.nalu.data := by
  obtain ⟨p, hp, hnal⟩ := List.mem_flatMap.1 h
  split at hnal
  · rcases List.mem_append.1 hnal with hset | hnal
    · exact .inl hset
    · exact .inr ⟨p, hp, List.mem_singleton.1 hnal⟩
  · exact .inr ⟨p, hp, List.mem_singleton.1 hnal⟩

/-- Without the sets, the pictures are left. -/
theorem filter_built {tr : H264Track} (htr : Sdp.Sets tr) {g : List Picture}
    (hg : ∀ p ∈ g, isPicture p.nalu = true) :
    (built tr g).filter notSet = g.map (·.nalu.data) := by
  induction g with
  | nil => rfl
  | cons p g ih =>
    obtain ⟨hp, hrest⟩ := List.forall_mem_cons.1 hg
    have hkept : notSet p.nalu.data = true := decide_eq_true (not_or.2 (picture_type hp))
    have hsets : (sets tr).filter notSet = [] := by
      refine List.filter_eq_nil_iff.2 fun nal hnal => ?_
      rw [notSet_of_mem_sets htr hnal]
      exact Bool.false_ne_true
    have hself : [p.nalu.data].filter notSet = [p.nalu.data] := List.filter_cons_of_pos hkept
    have hcons : built tr (p :: g) =
        (if p.isIdr then sets tr ++ [p.nalu.data] else [p.nalu.data]) ++ built tr g := rfl
    rw [hcons, List.filter_append, ih hrest]
    split
    · rw [List.filter_append, hsets, hself]
      rfl
    · rw [hself]
      rfl

theorem bytes_ne_nil {s : Sample} (h : s.nals ≠ []) : s.bytes ≠ [] := by
  obtain ⟨nal, nals, hnals⟩ := List.exists_cons_of_ne_nil h
  rw [Sample.bytes, hnals, List.flatMap_cons]
  exact List.cons_ne_nil _ _

/-- A sample and the run of the stream that it is made of. -/
structure Carries (s : Sample) (g : List Nalu) : Prop where
  units : (forEachNal s.bytes).filter notSet = g.map Nalu.data
  bytes : s.bytes ≠ []
  sync : s.flags &&& kFlagSync ≠ 0 ↔ ∃ n ∈ g, nalType n.data = 5

theorem carries_sample {tr : H264Track} (htr : Sdp.Sets tr) (hsps : CodeFree tr.sps)
    (hpps : CodeFree tr.pps) {g : List Picture} (hne : g ≠ [])
    (hg : ∀ p ∈ g, isPicture p.nalu = true) (hfree : ∀ p ∈ g, CodeFree p.nalu.data) :
    Carries (sample tr g) (g.map Picture.nalu) := by
  have hunits : forEachNal (sample tr g).bytes = built tr g := by
    apply forEachNal_bytes
    · intro nal hnal
      rcases mem_built hnal with hset | ⟨p, hp, rfl⟩
      · rcases (mem_sets hset).2 with rfl | rfl
        · exact hsps
        · exact hpps
      · exact hfree p hp
    · intro nal hnal
      rcases mem_built hnal with hset | ⟨p, hp, rfl⟩
      · exact (mem_sets hset).1
      · exact (of_decide_eq_true (hg p hp)).1
  constructor
  · rw [hunits, filter_built htr hg, List.map_map]
    rfl
  · exact bytes_ne_nil (built_ne_nil tr hne)
  · have hany : g.any Picture.isIdr = true ↔ ∃ n ∈ g.map Picture.nalu, nalType n.data = 5 := by
      rw [List.any_eq_true]
      constructor
      · rintro ⟨p, hp, hidr⟩
        exact ⟨p.nalu, List.mem_map_of_mem hp, of_decide_eq_true hidr⟩
      · rintro ⟨n, hn, hidr⟩
        obtain ⟨p, hp, rfl⟩ := List.mem_map.1 hn
        exact ⟨p, hp, decide_eq_true hidr⟩
    rw [← hany, sample]
    dsimp only
    cases g.any Picture.isIdr with
    | true => exact ⟨fun _ => rfl, fun _ => by decide⟩
    | false => exact ⟨fun h => absurd rfl h, fun h => absurd h Bool.false_ne_true⟩

theorem ne_nil_of_mem_accessUnits {ns : List Nalu} {g : List Picture} (h : g ∈ accessUnits ns) :
    g ≠ [] := by
  rw [accessUnits] at h
  split at h
  · exact List.ne_nil_of_mem_splitBy h
  · exact List.ne_nil_of_mem_splitBy (List.mem_of_mem_dropLast h)

theorem nalu_mem_of_mem_accessUnits {ns : List Nalu} {g : List Picture} (h : g ∈ accessUnits ns)
    {p : Picture} (hp : p ∈ g) : p.nalu ∈ ns := by
  have hmem : p.nalu ∈ (picturesFrom [] ns).map Picture.nalu :=
    List.mem_map_of_mem (mem_of_mem_accessUnits h hp)
  rw [map_picturesFrom] at hmem
  exact List.mem_of_mem_filter hmem

/-- **The samples partition the stream**, when the sets of its description hold no start code. -/
theorem samples_partition {sdp control : Bytes} {tr : H264Track}
    (h : Sdp.parseSdp sdp = .ok (tr, control)) (hsps : CodeFree tr.sps) (hpps : CodeFree tr.pps)
    (ns : List Nalu) (hns : ∀ n ∈ ns, CodeFree n.data) :
    List.Forall₂ Carries (run tr ns).ready (endedRuns ns) := by
  rw [ready_run, endedRuns_eq, List.forall₂_map_left_iff, List.forall₂_map_right_iff,
    List.forall₂_same]
  intro g hg
  exact carries_sample (Sdp.sets_parseSdp h) hsps hpps (ne_nil_of_mem_accessUnits hg)
    (fun p hp => isPicture_of_mem (mem_of_mem_accessUnits hg hp))
    fun p hp => hns _ (nalu_mem_of_mem_accessUnits hg hp)

/-- A description with the sets `67 42` and `68 ce`. -/
def setsSdp : Bytes :=
  plainSdp ++ ascii "a=fmtp:96 sprop-parameter-sets=Z0I=,aM4=\r\n"

def setsTrack : H264Track := ⟨[0x67, 0x42], [0x68, 0xce], 90000, 96, 0, 0, 0⟩

theorem parse_setsSdp : Sdp.parseSdp setsSdp = .ok (setsTrack, []) := by decide +kernel

/-- An IDR unit behind sets of its own, and a slice with another time stamp, not ended. -/
def twoUnits : List Nalu := inBand ++ [⟨[0x41, 0x9a], 3000, false⟩, ⟨[0x41, 0x9b], 6000, true⟩]

theorem samples_partition_two :
    List.Forall₂ Carries (run setsTrack twoUnits).ready (endedRuns twoUnits) :=
  samples_partition parse_setsSdp (by decide) (by decide) twoUnits (by decide)

/-- A description whose first set is `67` with a start code and `41` behind it. -/
def splitSdp : Bytes :=
  plainSdp ++ ascii "a=fmtp:96 sprop-parameter-sets=ZwAAAUE=\r\n"

def splitTrack : H264Track := ⟨[0x67, 0, 0, 1, 0x41], [], 90000, 96, 0, 0, 0⟩

/-- **A set with a start code in it** puts a unit into the sample that was never received. -/
theorem samples_not_partition :
    Sdp.parseSdp splitSdp = .ok (splitTrack, []) ∧
      (∀ n ∈ inBand, CodeFree n.data ∧ n.data.getLast? ≠ some 0) ∧
        (run splitTrack inBand).ready.map (fun s => (forEachNal s.bytes).filter notSet) =
          [[[0x41], [0x65, 0x88]]] ∧
        (endedRuns inBand).map (List.map Nalu.data) = [[[0x65, 0x88]]] := by
  refine ⟨by decide +kernel, by decide, ?_, by decide⟩
  decide +kernel

end BambooNet.Camera.Passthrough
