import BambooNet.Lib.Bytes
import BambooNet.Lib.SerialNumber
import Mathlib.Data.List.Infix

/-!
# Slices of the framed transport

A frame travels in slices, each behind a 20-byte header. `parseSliceHeader` reads the header and
accepts a slice only when its payload is there. Bytes after the payload do not matter
(`parseSliceHeader_append`), so a slice survives the zero padding of error correction and may be
cut to its header and payload (`parseSliceHeader_trim`).
-/

namespace BambooNet.Tutk

/-! ## Little-endian fields -/

def getLe16 (p : Bytes) (off : ℕ) : ℕ := leNat ((p.drop off).take 2)

def getLe32 (p : Bytes) (off : ℕ) : ℕ := leNat ((p.drop off).take 4)

theorem leNat_take_lt (p : Bytes) (n : ℕ) : leNat (p.take n) < 256 ^ n :=
  (leNat_lt _).trans_le (Nat.pow_le_pow_right (by decide) (by simp))

theorem getLe16_lt (p : Bytes) (off : ℕ) : getLe16 p off < 65536 := leNat_take_lt _ 2

/-- A field that lies inside a byte string does not depend on what follows it. -/
theorem take_drop_of_isPrefix {p q : Bytes} (h : p <+: q) {off n : ℕ} (hn : off + n ≤ p.length) :
    (q.drop off).take n = (p.drop off).take n := by
  obtain ⟨t, rfl⟩ := h
  rw [List.drop_append_of_le_length (by omega), List.take_append_of_le_length (by simp; omega)]

theorem getLe16_of_isPrefix {p q : Bytes} (h : p <+: q) {off : ℕ} (hn : off + 2 ≤ p.length) :
    getLe16 q off = getLe16 p off := by
  rw [getLe16, getLe16, take_drop_of_isPrefix h hn]

theorem getLe32_of_isPrefix {p q : Bytes} (h : p <+: q) {off : ℕ} (hn : off + 4 ≤ p.length) :
    getLe32 q off = getLe32 p off := by
  rw [getLe32, getLe32, take_drop_of_isPrefix h hn]

/-! ## Slice headers -/

def kSliceHeaderLen : ℕ := 20

structure SliceHeader where
  /-- 5: keyframe, 7: inter frame, 4: audio. -/
  kind : UInt8
  /-- Slices in the frame. -/
  count : ℕ
  index : ℕ
  /-- Length of the frame info trailer, in the last slice only. -/
  infoLen : ℕ
  /-- Payload bytes after the header. -/
  len : ℕ
  frameNo : BitVec 32
  deriving DecidableEq, Repr

/-- The header fields. The last slice has `[1] = 1` and the length of the frame info trailer in
place of its index. -/
def readSliceHeader (p : Bytes) : SliceHeader :=
  let last := p.getD 1 0 = 1
  let count := getLe16 p 4
  { kind := p.getD 0 0
    count := count
    index := if last then (count + 65535) % 65536 else getLe16 p 6
    infoLen := if last then getLe16 p 6 else 0
    len := getLe16 p 8
    frameNo := BitVec.ofNat 32 (getLe32 p 12) }

def parseSliceHeader (p : Bytes) : Option SliceHeader :=
  if p.length < kSliceHeaderLen then none
  else
    let h := readSliceHeader p
    if h.count > 0 ∧ h.index < h.count ∧ kSliceHeaderLen + h.len ≤ p.length then some h else none

theorem parseSliceHeader_eq_some_iff {p : Bytes} {h : SliceHeader} :
    parseSliceHeader p = some h ↔
      readSliceHeader p = h ∧ h.index < h.count ∧ kSliceHeaderLen + h.len ≤ p.length := by
  unfold parseSliceHeader
  dsimp only
  split
  · simp only [reduceCtorEq, false_iff]
    rintro ⟨rfl, -, hlen⟩
    omega
  · split
    · next hok =>
      rw [Option.some_inj]
      exact ⟨fun h => h ▸ ⟨rfl, hok.2⟩, fun h => h.1⟩
    · next hbad =>
      simp only [reduceCtorEq, false_iff]
      rintro ⟨rfl, hi, hlen⟩
      exact hbad ⟨by omega, hi, hlen⟩

/-- What `parseSliceHeader` promises about a slice it accepts. -/
theorem parseSliceHeader_spec {p : Bytes} {h : SliceHeader} (hp : parseSliceHeader p = some h) :
    h.index < h.count ∧ kSliceHeaderLen + h.len ≤ p.length ∧ h.len = getLe16 p 8 ∧
      h.count < 65536 := by
  obtain ⟨rfl, hi, hlen⟩ := parseSliceHeader_eq_some_iff.1 hp
  exact ⟨hi, hlen, rfl, getLe16_lt _ _⟩

theorem length_of_parseSliceHeader {p : Bytes} {h : SliceHeader}
    (hp : parseSliceHeader p = some h) : kSliceHeaderLen ≤ p.length := by
  have := (parseSliceHeader_spec hp).2.1
  omega

theorem readSliceHeader_of_isPrefix {p q : Bytes} (hpq : p <+: q)
    (h20 : kSliceHeaderLen ≤ p.length) : readSliceHeader q = readSliceHeader p := by
  have h20' : 20 ≤ p.length := h20
  have hget (i : ℕ) (hi : i < 20) : q.getD i 0 = p.getD i 0 := by
    obtain ⟨t, rfl⟩ := hpq
    rw [List.getD_eq_getElem?_getD, List.getD_eq_getElem?_getD,
      List.getElem?_append_left (by omega)]
  simp only [readSliceHeader, hget 0 (by omega), hget 1 (by omega),
    getLe16_of_isPrefix hpq (by omega : 4 + 2 ≤ p.length),
    getLe16_of_isPrefix hpq (by omega : 6 + 2 ≤ p.length),
    getLe16_of_isPrefix hpq (by omega : 8 + 2 ≤ p.length),
    getLe32_of_isPrefix hpq (by omega : 12 + 4 ≤ p.length)]

/-- Bytes after the payload do not matter. -/
theorem parseSliceHeader_append {p : Bytes} {h : SliceHeader} (hp : parseSliceHeader p = some h)
    (t : Bytes) : parseSliceHeader (p ++ t) = some h := by
  have h20 := length_of_parseSliceHeader hp
  obtain ⟨rfl, hi, hlen⟩ := parseSliceHeader_eq_some_iff.1 hp
  refine parseSliceHeader_eq_some_iff.2
    ⟨readSliceHeader_of_isPrefix (List.prefix_append p t) h20, hi, ?_⟩
  rw [List.length_append]
  omega

/-! ## Header and payload -/

/-- The header and the payload of a slice, without what follows them. -/
def trim (p : Bytes) : Bytes := p.take (kSliceHeaderLen + getLe16 p 8)

/-- The payload of a slice. -/
def payload (p : Bytes) (h : SliceHeader) : Bytes := (p.drop kSliceHeaderLen).take h.len

theorem trim_of_isPrefix {p q : Bytes} (hpq : p <+: q) (h20 : kSliceHeaderLen ≤ p.length)
    (hlen : kSliceHeaderLen + getLe16 p 8 ≤ p.length) : trim q = trim p := by
  have h20' : 20 ≤ p.length := h20
  rw [trim, trim, getLe16_of_isPrefix hpq (by omega)]
  obtain ⟨t, rfl⟩ := hpq
  rw [List.take_append_of_le_length hlen]

theorem trim_append {p : Bytes} {h : SliceHeader} (hp : parseSliceHeader p = some h) (t : Bytes) :
    trim (p ++ t) = trim p := by
  obtain ⟨-, hlen, heq, -⟩ := parseSliceHeader_spec hp
  exact trim_of_isPrefix (List.prefix_append p t) (length_of_parseSliceHeader hp) (heq ▸ hlen)

theorem length_trim {p : Bytes} {h : SliceHeader} (hp : parseSliceHeader p = some h) :
    (trim p).length = kSliceHeaderLen + h.len := by
  obtain ⟨-, hlen, heq, -⟩ := parseSliceHeader_spec hp
  rw [trim, List.length_take, ← heq]
  omega

@[simp] theorem trim_trim (p : Bytes) : trim (trim p) = trim p := by
  by_cases hlen : p.length ≤ kSliceHeaderLen + getLe16 p 8
  · have htrim : trim p = p := List.take_of_length_le hlen
    rw [htrim, htrim]
  · have h20 : kSliceHeaderLen = 20 := rfl
    have hget : getLe16 (trim p) 8 = getLe16 p 8 :=
      (getLe16_of_isPrefix (List.take_prefix _ p) (by rw [List.length_take]; omega)).symm
    rw [trim, hget, trim, List.take_take, min_self]

/-- A slice cut to its header and payload is still the same slice. -/
theorem parseSliceHeader_trim {p : Bytes} {h : SliceHeader} (hp : parseSliceHeader p = some h) :
    parseSliceHeader (trim p) = some h := by
  have hl := length_trim hp
  obtain ⟨rfl, hi, hlen⟩ := parseSliceHeader_eq_some_iff.1 hp
  refine parseSliceHeader_eq_some_iff.2 ⟨?_, hi, hl.ge⟩
  exact (readSliceHeader_of_isPrefix (List.take_prefix _ p) (by rw [← trim]; omega)).symm

/-- The payload by the length in the header. -/
def payloadOf (p : Bytes) : Bytes := (p.drop kSliceHeaderLen).take (getLe16 p 8)

theorem payload_eq {p : Bytes} {h : SliceHeader} (hp : parseSliceHeader p = some h) :
    payload p h = payloadOf p := by
  rw [payload, payloadOf, (parseSliceHeader_spec hp).2.2.1]

/-- The payload is read from the header and payload alone. -/
theorem payload_trim {p : Bytes} {h : SliceHeader} (hp : parseSliceHeader p = some h) :
    payload (trim p) h = payload p h := by
  have heq := (parseSliceHeader_spec hp).2.2.1
  rw [payload, payload, trim, List.drop_take, ← heq, List.take_take]
  congr 1
  omega

end BambooNet.Tutk
