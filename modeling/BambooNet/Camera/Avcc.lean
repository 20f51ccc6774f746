import BambooNet.Lib.AnnexB
import BambooNet.Lib.BigEndian
import BambooNet.Lib.Framing

/-!
# From Annex B to AVCC

`annexb_to_avcc` takes the NAL units out of a byte stream and writes them one behind the other, each
with its length in front, for the renderer. Parameter sets and delimiters stay out.

**Theorem (`annexb_to_avcc_units`).** The frame splits into the units of the stream, in order, but
for those of types 7, 8 and 9 and those without a byte; `contains_idr` tells whether one is of type
5, and the call fails exactly when there is none or when the length of one does not fit 32 bits.
Zero bytes in front of a start code, beyond the one that belongs to the code, stay with the unit
before them.
-/

namespace BambooNet.Camera.Avcc

open AnnexB

/-! ## The converter -/

/-- The bytes in front of the first start code, and the length of the code. -/
def findStartCode : Bytes → Option (ℕ × ℕ)
  | a :: b :: c :: rest =>
    if a = 0 ∧ b = 0 ∧ c = 1 then some (0, 3)
    else if a = 0 ∧ b = 0 ∧ c = 0 ∧ rest.head? = some 1 then some (0, 4)
    else (findStartCode (b :: c :: rest)).map fun r => (r.1 + 1, r.2)
  | _ => none

theorem findStartCode_le {data : Bytes} {n k : ℕ} (h : findStartCode data = some (n, k)) :
    0 < k ∧ n + k ≤ data.length := by
  fun_induction findStartCode data generalizing n with
  | case1 a b c rest hshort =>
    obtain ⟨rfl, rfl⟩ := Prod.mk.inj (Option.some.inj h)
    exact ⟨by decide, by simp only [List.length_cons]; omega⟩
  | case2 a b c rest hshort hlong =>
    obtain ⟨rfl, rfl⟩ := Prod.mk.inj (Option.some.inj h)
    obtain ⟨-, -, -, hhead⟩ := hlong
    obtain ⟨t, rfl⟩ := List.head?_eq_some_iff.1 hhead
    exact ⟨by decide, by simp only [List.length_cons]; omega⟩
  | case3 a b c rest hshort hlong ih =>
    obtain ⟨⟨m, k'⟩, hm, heq⟩ := Option.map_eq_some_iff.1 h
    obtain ⟨rfl, rfl⟩ := Prod.mk.inj heq
    obtain ⟨hpos, hle⟩ := ih hm
    refine ⟨hpos, ?_⟩
    simp only [List.length_cons] at hle ⊢
    omega
  | case4 data hshort => cases h

/-- The units from a start code on; `data` is what stands behind the code. -/
def nalsBehind (data : Bytes) : List Bytes :=
  match _ : findStartCode data with
  | none => if data = [] then [] else [data]
  | some (n, k) => (if n = 0 then [] else [data.take n]) ++ nalsBehind (data.drop (n + k))
termination_by data.length
decreasing_by
  have := findStartCode_le ‹_›
  rw [List.length_drop]
  omega

theorem nalsBehind_none {data : Bytes} (h : findStartCode data = none) :
    nalsBehind data = if data = [] then [] else [data] := by
  rw [nalsBehind]
  split
  · rfl
  · next hsome => rw [h] at hsome; cases hsome

theorem nalsBehind_some {data : Bytes} {n k : ℕ} (h : findStartCode data = some (n, k)) :
    nalsBehind data =
      (if n = 0 then [] else [data.take n]) ++ nalsBehind (data.drop (n + k)) := by
  rw [nalsBehind]
  split
  · next hnone => rw [h] at hnone; cases hnone
  · next n' k' hsome =>
    obtain ⟨rfl, rfl⟩ := Prod.mk.inj (Option.some.inj (hsome.symm.trans h))
    rfl

/-- The units that `for_each_nal` calls back with. -/
def forEachNal (data : Bytes) : List Bytes :=
  match findStartCode data with
  | none => []
  | some (n, k) => nalsBehind (data.drop (n + k))

/-- `nal_unit_type`. -/
def nalType (nal : Bytes) : UInt8 := nal.headD 0 &&& 0x1f

structure AvccFrame where
  data : Bytes
  containsIdr : Bool
  deriving DecidableEq

/-- The output with one unit more, unless its length is beyond 32 bits. -/
def appendAvccNal (out nal : Bytes) : Option Bytes :=
  if nal.length > 0xffffffff then none else some (out ++ (beBytes 4 nal.length ++ nal))

/-- The callback, on `ok` and the frame so far. -/
def convertNal (s : Bool × AvccFrame) (nal : Bytes) : Bool × AvccFrame :=
  if !s.1 then s
  else if nalType nal = 7 ∨ nalType nal = 8 ∨ nalType nal = 9 then s
  else
    let out := if nalType nal = 5 then { s.2 with containsIdr := true } else s.2
    match appendAvccNal out.data nal with
    | none => (false, out)
    | some data => (true, { out with data })

/-- What the call returns, and the frame it leaves in `out`. A null pointer for the data is
`none`. -/
def annexbToAvcc (data : Option Bytes) (out : AvccFrame) : Bool × AvccFrame :=
  match data with
  | none => (false, out)
  | some data =>
    let r := (forEachNal data).foldl convertNal (true, ⟨[], false⟩)
    if !r.1 then (false, ⟨[], false⟩) else (!r.2.data.isEmpty, r.2)

/-- `contains_idr`. -/
def containsIdr (data : Option Bytes) : Bool :=
  match data with
  | none => false
  | some data => (forEachNal data).any fun nal => nalType nal = 5

/-! ## The scanner and the stream -/

theorem findStartCode_free {s : Bytes} (h : CodeFree s) : findStartCode s = none := by
  fun_induction findStartCode s with
  | case1 a b c rest hshort =>
    obtain ⟨rfl, rfl, rfl⟩ := hshort
    exact absurd (List.prefix_append [0, 0, 1] rest) (codeFree_cons.1 h).1
  | case2 a b c rest hshort hlong =>
    obtain ⟨rfl, rfl, rfl, hhead⟩ := hlong
    obtain ⟨t, rfl⟩ := List.head?_eq_some_iff.1 hhead
    exact absurd (List.prefix_append [0, 0, 1] t) (codeFree_cons.1 h.tail).1
  | case3 a b c rest hshort hlong ih => rw [ih h.tail, Option.map_none]
  | case4 => rfl

theorem findStartCode_cons {b : UInt8} {s : Bytes} {n k : ℕ}
    (hhere : ¬ [0, 0, 1] <+: b :: s) (hlong : ¬ [0, 0, 0, 1] <+: b :: s)
    (h : findStartCode s = some (n, k)) : findStartCode (b :: s) = some (n + 1, k) := by
  rcases s with _ | ⟨c, _ | ⟨d, _ | ⟨e, s⟩⟩⟩
  · cases h
  · cases h
  · cases h
  · have hthree : ¬ (b = 0 ∧ c = 0 ∧ d = 1) := by
      rintro ⟨rfl, rfl, rfl⟩
      exact hhere (List.prefix_append _ _)
    have hfour : ¬ (b = 0 ∧ c = 0 ∧ d = 0 ∧ (e :: s).head? = some 1) := by
      rintro ⟨rfl, rfl, rfl, he⟩
      obtain rfl := Option.some.inj he
      exact hlong (List.prefix_append _ _)
    rw [findStartCode, if_neg hthree, if_neg hfour, h, Option.map_some]

/-- The scanner stops at the first start code. -/
theorem findStartCode_code {s sc : Bytes} (hfree : CodeFree s) (hcode : StartCode s sc)
    (t : Bytes) : findStartCode (s ++ (sc ++ t)) = some (s.length, sc.length) := by
  induction s with
  | nil =>
    cases hcode with
    | long => rfl
    | short _ => rfl
  | cons b s ih =>
    obtain ⟨hhere, hlong⟩ := hcode.not_prefix hfree t
    exact findStartCode_cons hhere hlong (ih hfree.tail hcode.tail)

theorem drop_code (s sc t : Bytes) : (s ++ (sc ++ t)).drop (s.length + sc.length) = t := by
  rw [← List.append_assoc, ← List.length_append, List.drop_left]

theorem nalsBehind_stream {data lead : Bytes} {units : List Bytes} (h : Stream data lead units) :
    nalsBehind data = (lead :: units).filter (· ≠ []) := by
  induction h with
  | last hfree =>
    rename_i lead
    rw [nalsBehind_none (findStartCode_free hfree)]
    by_cases hlead : lead = []
    · simp [hlead]
    · simp [hlead]
  | code hfree hcode hrest ih =>
    rename_i lead sc data unit units
    rw [nalsBehind_some (findStartCode_code hfree hcode data)]
    rw [drop_code, List.take_left, ih]
    by_cases hlead : lead = []
    · simp [hlead]
    · simp [hlead]

/-- **The callbacks are the units of the stream** that have a byte. -/
theorem forEachNal_stream {data lead : Bytes} {units : List Bytes} (h : Stream data lead units) :
    forEachNal data = units.filter (· ≠ []) := by
  cases h with
  | last hfree =>
    rw [forEachNal, findStartCode_free hfree]
    rfl
  | code hfree hcode hrest =>
    rw [forEachNal, findStartCode_code hfree hcode, ← nalsBehind_stream hrest]
    exact congrArg nalsBehind (drop_code _ _ _)

/-! ## The frame -/

/-- The units that go into the frame. -/
def payload (units : List Bytes) : List Bytes :=
  units.filter fun u => u ≠ [] ∧ ¬ (nalType u = 7 ∨ nalType u = 8 ∨ nalType u = 9)

/-- Four bytes of length in front of each unit. -/
def avcc : Framing UInt8 where
  hdr := 4
  hdr_pos := Nat.succ_pos 3
  payloadLen := beNat

def avccBytes (nal : Bytes) : Bytes := beBytes 4 nal.length ++ nal

theorem encodes_avccBytes {nal : Bytes} (h : nal.length < 2 ^ 32) :
    avcc.Encodes (avccBytes nal) nal := by
  have hlen : avcc.lenAt (avccBytes nal) = nal.length := by
    show beNat ((beBytes 4 nal.length ++ nal).take 4) = nal.length
    rw [List.take_left' (length_beBytes 4 _), beNat_beBytes]
    exact Nat.mod_eq_of_lt h
  have hsize : (avccBytes nal).length = 4 + nal.length := by
    rw [avccBytes, List.length_append, length_beBytes]
  refine ⟨?_, ?_, ?_⟩
  · rw [Framing.Complete, hlen, hsize]
    exact le_refl _
  · rw [Framing.payload, hlen]
    show ((beBytes 4 nal.length ++ nal).drop 4).take nal.length = nal
    rw [List.drop_left' (length_beBytes 4 _), List.take_length]
  · rw [Framing.after, hlen]
    exact List.drop_eq_nil_of_le (le_of_eq hsize)

theorem split_avcc {nals : List Bytes} (h : ∀ u ∈ nals, u.length < 2 ^ 32) :
    avcc.split (nals.flatMap avccBytes) = (nals, []) := by
  rw [List.flatMap_def]
  refine avcc.split_encode ?_
  induction nals with
  | nil => exact .nil
  | cons u nals ih =>
    obtain ⟨hu, hrest⟩ := List.forall_mem_cons.1 h
    exact .cons (encodes_avccBytes hu) (ih hrest)

theorem convertNal_failed (f : AvccFrame) (nals : List Bytes) :
    nals.foldl convertNal (false, f) = (false, f) := by
  induction nals with
  | nil => rfl
  | cons u nals ih => exact ih

theorem convertNal_left {f : AvccFrame} {u : Bytes}
    (h : nalType u = 7 ∨ nalType u = 8 ∨ nalType u = 9) : convertNal (true, f) u = (true, f) := by
  simp only [convertNal, Bool.not_true, Bool.false_eq_true, if_false, if_pos h]

theorem convertNal_fits {f : AvccFrame} {u : Bytes}
    (h : ¬ (nalType u = 7 ∨ nalType u = 8 ∨ nalType u = 9)) (hu : u.length < 2 ^ 32) :
    convertNal (true, f) u =
      (true, ⟨f.data ++ avccBytes u, f.containsIdr || decide (nalType u = 5)⟩) := by
  have hlen : ¬ u.length > 0xffffffff := by omega
  by_cases hidr : nalType u = 5
  · simp [convertNal, appendAvccNal, hlen, hidr, avccBytes]
  · simp [convertNal, appendAvccNal, h, hlen, hidr, avccBytes]

theorem convertNal_long {f : AvccFrame} {u : Bytes}
    (h : ¬ (nalType u = 7 ∨ nalType u = 8 ∨ nalType u = 9)) (hu : 2 ^ 32 ≤ u.length) :
    (convertNal (true, f) u).1 = false := by
  have hlen : u.length > 0xffffffff := by omega
  simp [convertNal, appendAvccNal, h, hlen]

theorem payload_filter (units : List Bytes) : payload (units.filter (· ≠ [])) = payload units := by
  rw [payload, payload, List.filter_filter]
  refine List.filter_congr fun u _ => ?_
  rw [← Bool.decide_and]
  exact decide_eq_decide.2 ⟨And.left, fun h => ⟨h, h.1⟩⟩

theorem convert_fits {nals : List Bytes} (hne : ∀ u ∈ nals, u ≠ [])
    (h : ∀ u ∈ payload nals, u.length < 2 ^ 32) (f : AvccFrame) :
    nals.foldl convertNal (true, f) =
      (true, ⟨f.data ++ (payload nals).flatMap avccBytes,
        f.containsIdr || (payload nals).any fun u => nalType u = 5⟩) := by
  induction nals generalizing f with
  | nil => simp [payload]
  | cons u nals ih =>
    obtain ⟨hu, hrest⟩ := List.forall_mem_cons.1 hne
    by_cases hleft : nalType u = 7 ∨ nalType u = 8 ∨ nalType u = 9
    · have hskip : payload (u :: nals) = payload nals := List.filter_cons_of_neg (by simp [hleft])
      rw [hskip] at h ⊢
      rw [List.foldl_cons, convertNal_left hleft, ih hrest h]
    · have htake : payload (u :: nals) = u :: payload nals :=
        List.filter_cons_of_pos (by simp [hleft, hu])
      rw [htake] at h ⊢
      obtain ⟨hfits, h⟩ := List.forall_mem_cons.1 h
      rw [List.foldl_cons, convertNal_fits hleft hfits, ih hrest h]
      simp [Bool.or_assoc]

theorem convert_long {nals : List Bytes} {u : Bytes} (hu : u ∈ payload nals)
    (hlong : 2 ^ 32 ≤ u.length) (f : AvccFrame) : (nals.foldl convertNal (true, f)).1 = false := by
  induction nals generalizing f with
  | nil => cases hu
  | cons v nals ih =>
    rw [List.foldl_cons]
    by_cases hok : (convertNal (true, f) v).1 = true
    · have hne : u ≠ v := by
        rintro rfl
        have hcarried := of_decide_eq_true (List.mem_filter.1 hu).2
        rw [convertNal_long hcarried.2 hlong] at hok
        cases hok
      have hrest : u ∈ payload nals := by
        obtain ⟨hmem, hcarried⟩ := List.mem_filter.1 hu
        exact List.mem_filter.2 ⟨List.mem_of_ne_of_mem hne hmem, hcarried⟩
      rw [show convertNal (true, f) v = (true, (convertNal (true, f) v).2) from
        Prod.ext hok rfl]
      exact ih hrest _
    · rw [show convertNal (true, f) v = (false, (convertNal (true, f) v).2) from
        Prod.ext (Bool.eq_false_iff.2 hok) rfl, convertNal_failed]

/-- What a conversion of the units of a stream comes to. -/
structure Converted (units : List Bytes) (r : Bool × AvccFrame) : Prop where
  fails : r.1 = false ↔ payload units = [] ∨ ∃ u ∈ payload units, 2 ^ 32 ≤ u.length
  nals : (∀ u ∈ payload units, u.length < 2 ^ 32) →
    avcc.split r.2.data = (payload units, []) ∧
      (r.2.containsIdr = true ↔ ∃ u ∈ payload units, nalType u = 5)
  cleared : (∃ u ∈ payload units, 2 ^ 32 ≤ u.length) → r.2 = ⟨[], false⟩

theorem converted {data lead : Bytes} {units : List Bytes} (h : Stream data lead units)
    (out : AvccFrame) : Converted units (annexbToAvcc (some data) out) := by
  have hcalls := forEachNal_stream h
  have hne : ∀ u ∈ forEachNal data, u ≠ [] := by
    intro u hu
    rw [hcalls] at hu
    exact of_decide_eq_true (List.mem_filter.1 hu).2
  have hpayload : payload (forEachNal data) = payload units := by rw [hcalls, payload_filter]
  by_cases hlong : ∃ u ∈ payload units, 2 ^ 32 ≤ u.length
  · obtain ⟨u, hu, hlen⟩ := hlong
    have hfold := convert_long (hpayload ▸ hu) hlen ⟨[], false⟩
    have hr : annexbToAvcc (some data) out = (false, ⟨[], false⟩) := by
      simp [annexbToAvcc, hfold]
    rw [hr]
    refine ⟨⟨fun _ => .inr ⟨u, hu, hlen⟩, fun _ => rfl⟩, fun hfits => ?_, fun _ => rfl⟩
    exact absurd (hfits u hu) (Nat.not_lt.2 hlen)
  · have hfits : ∀ u ∈ payload units, u.length < 2 ^ 32 := by
      intro u hu
      by_contra hlen
      exact hlong ⟨u, hu, Nat.not_lt.1 hlen⟩
    have hfold := convert_fits hne (hpayload ▸ hfits) ⟨[], false⟩
    rw [hpayload] at hfold
    have hr : annexbToAvcc (some data) out =
        (!((payload units).flatMap avccBytes).isEmpty,
          ⟨(payload units).flatMap avccBytes, (payload units).any fun u => nalType u = 5⟩) := by
      simp [annexbToAvcc, hfold]
    rw [hr]
    refine ⟨⟨fun hfalse => .inl ?_, ?_⟩, fun _ => ⟨split_avcc hfits, ?_⟩, fun h => absurd h hlong⟩
    · cases hunits : payload units with
      | nil => rfl
      | cons u us =>
        rw [hunits] at hfalse
        simp [avccBytes, beBytes] at hfalse
    · rintro (hnone | h)
      · rw [hnone]
        rfl
      · exact absurd h hlong
    · simp

/-- `contains_idr` looks at the units themselves. -/
theorem containsIdr_iff {data lead : Bytes} {units : List Bytes} (h : Stream data lead units) :
    containsIdr (some data) = true ↔ ∃ u ∈ payload units, nalType u = 5 := by
  rw [containsIdr, forEachNal_stream h, payload, List.any_filter, List.any_eq_true]
  constructor
  · rintro ⟨u, hu, hboth⟩
    obtain ⟨hne, hidr⟩ := Bool.and_eq_true_iff.1 hboth
    have hidr := of_decide_eq_true hidr
    refine ⟨u, List.mem_filter.2 ⟨hu, decide_eq_true ⟨of_decide_eq_true hne, ?_⟩⟩, hidr⟩
    rw [hidr]
    decide
  · rintro ⟨u, hu, hidr⟩
    obtain ⟨hmem, hcarried⟩ := List.mem_filter.1 hu
    exact ⟨u, hmem, Bool.and_eq_true_iff.2
      ⟨decide_eq_true (of_decide_eq_true hcarried).1, decide_eq_true hidr⟩⟩

/-- **The frame holds the units of the stream**, but for those that do not go into it; units that
were joined with either start code come back. -/
theorem annexb_to_avcc_units (out : AvccFrame) :
    (∀ data, ∃ lead units, Stream data lead units) ∧
      (∀ data lead units, Stream data lead units →
        Converted units (annexbToAvcc (some data) out) ∧
          (containsIdr (some data) = true ↔ ∃ u ∈ payload units, nalType u = 5)) ∧
      ∀ us : List Sent, (∀ u ∈ us, u.Plain) →
        Converted (us.map Sent.unit) (annexbToAvcc (some (us.flatMap Sent.bytes)) out) := by
  refine ⟨exists_stream, fun data lead units h => ⟨converted h out, containsIdr_iff h⟩, ?_⟩
  intro us h
  exact converted (stream_join h) out

theorem plain_demo : ∀ u ∈ [(⟨true, [0x67, 0x42]⟩ : Sent), ⟨false, [0x65, 0x88]⟩], u.Plain := by
  have hplain (long : Bool) {a b : UInt8} (ha : a ≠ 0) (hb : b ≠ 0) :
      (⟨long, [a, b]⟩ : Sent).Plain := by
    refine ⟨by simp, ?_, by simpa using hb⟩
    intro h
    simpa using h.length_le
  refine List.forall_mem_cons.2 ⟨hplain true (by decide) (by decide), ?_⟩
  exact List.forall_mem_singleton.2 (hplain false (by decide) (by decide))

theorem annexb_to_avcc_units_two :
    Converted [[0x67, 0x42], [0x65, 0x88]]
      (annexbToAvcc (some [0, 0, 0, 1, 0x67, 0x42, 0, 0, 1, 0x65, 0x88]) ⟨[], false⟩) :=
  (annexb_to_avcc_units ⟨[], false⟩).2.2 [⟨true, [0x67, 0x42]⟩, ⟨false, [0x65, 0x88]⟩] plain_demo

/-- A slice of `n + 1` bytes. -/
def slice (n : ℕ) : Bytes := 0x61 :: List.replicate n 0xff

theorem stream_slice (n : ℕ) : Stream ([] ++ ([0, 0, 1] ++ slice n)) [] [slice n] := by
  refine .code codeFree_nil (.short (by simp)) (.last ?_)
  intro h
  have hone : (1 : UInt8) ∈ slice n := h.subset (by simp)
  rcases List.mem_cons.1 hone with hone | hone
  · exact absurd hone (by decide)
  · exact absurd (List.eq_of_mem_replicate hone) (by decide)

theorem payload_slice (n : ℕ) : payload [slice n] = [slice n] := by
  have htype : nalType (slice n) = 0x61 &&& 0x1f := rfl
  refine List.filter_cons_of_pos (decide_eq_true ⟨List.cons_ne_nil _ _, ?_⟩)
  rw [htype]
  decide

/-- **A unit of more than 32 bits of length** remains, and the call fails. -/
theorem long_slice_rejected :
    ¬ ∀ (data lead : Bytes) (units : List Bytes) (out : AvccFrame), Stream data lead units →
      avcc.split (annexbToAvcc (some data) out).2.data = (payload units, []) ∧
        ((annexbToAvcc (some data) out).2.containsIdr = true ↔
          ∃ u ∈ payload units, nalType u = 5) ∧
        ((annexbToAvcc (some data) out).1 = false ↔ payload units = []) := by
  intro h
  obtain ⟨-, -, hfalse⟩ := h _ _ _ ⟨[], false⟩ (stream_slice (2 ^ 32))
  have hlong : 2 ^ 32 ≤ (slice (2 ^ 32)).length := by
    rw [slice, List.length_cons, List.length_replicate]
    exact Nat.le_succ _
  have hfails := (converted (stream_slice (2 ^ 32)) ⟨[], false⟩).fails.2
    (.inr ⟨_, by rw [payload_slice]; exact List.mem_singleton_self _, hlong⟩)
  have hnone := hfalse.1 hfails
  rw [payload_slice] at hnone
  cases hnone

end BambooNet.Camera.Avcc
