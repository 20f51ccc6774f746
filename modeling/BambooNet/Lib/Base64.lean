import BambooNet.Lib.Decimal

/-!
# Base64

The standard decoder. Four characters of the alphabet are three bytes; the last four may end in
padding, and the bits that the padding cuts off must be zero. `IsText` tells which texts are
base64 of given bytes, in either alphabet, with or without padding, and with spaces.
-/

namespace BambooNet.Base64

/-- The six bits of a character of the standard alphabet. -/
def value (c : UInt8) : Option ℕ :=
  if 0x41 ≤ c ∧ c ≤ 0x5a then some (c.toNat - 0x41)
  else if 0x61 ≤ c ∧ c ≤ 0x7a then some (c.toNat - 0x61 + 26)
  else if isDigit c then some (c.toNat - 0x30 + 52)
  else if c = 0x2b then some 62
  else if c = 0x2f then some 63
  else none

def pad : UInt8 := 0x3d

/-- The three bytes of four times six bits. -/
def first (x y : ℕ) : UInt8 := UInt8.ofNat (4 * x + y / 16)

def second (y z : ℕ) : UInt8 := UInt8.ofNat (y % 16 * 16 + z / 4)

def third (z w : ℕ) : UInt8 := UInt8.ofNat (z % 4 * 64 + w)

@[grind =] def decode : Bytes → Option Bytes
  | [] => some []
  | a :: b :: c :: d :: rest =>
    match value a, value b with
    | some x, some y =>
      if rest = [] ∧ c = pad ∧ d = pad then
        if y % 16 = 0 then some [first x y] else none
      else
        match value c with
        | some z =>
          if rest = [] ∧ d = pad then
            if z % 4 = 0 then some [first x y, second y z] else none
          else
            match value d, decode rest with
            | some w, some bytes => some (first x y :: second y z :: third z w :: bytes)
            | _, _ => none
        | none => none
    | _, _ => none
  | _ => none

variable {a b c d : UInt8} {x y z w : ℕ}

theorem value_pad : value pad = none := by decide

theorem ne_pad (h : value a = some x) : a ≠ pad := by
  rintro rfl
  rw [value_pad] at h
  cases h

/-- Four characters without padding. -/
theorem decode_group (ha : value a = some x) (hb : value b = some y) (hc : value c = some z)
    (hd : value d = some w) {rest bytes : Bytes} (hrest : decode rest = some bytes) :
    decode (a :: b :: c :: d :: rest) = some (first x y :: second y z :: third z w :: bytes) := by
  simp only [decode, ha, hb, hc, hd, hrest, ne_pad hc, ne_pad hd, and_false, if_false]

/-- Two bytes at the end. -/
theorem decode_two (ha : value a = some x) (hb : value b = some y) (hc : value c = some z)
    (hz : z % 4 = 0) : decode [a, b, c, pad] = some [first x y, second y z] := by
  simp only [decode, ha, hb, hc, ne_pad hc, hz, and_false, false_and, and_self, if_false, if_true]

/-- One byte at the end. -/
theorem decode_one (ha : value a = some x) (hb : value b = some y) (hy : y % 16 = 0) :
    decode [a, b, pad, pad] = some [first x y] := by
  simp only [decode, ha, hb, hy, and_self, if_true]

/-! ## Texts -/

/-- The bytes in groups of six bits. -/
@[grind =] def sextets : Bytes → List ℕ
  | a :: b :: c :: rest =>
    a.toNat / 4 :: (a.toNat % 4 * 16 + b.toNat / 16) :: (b.toNat % 16 * 4 + c.toNat / 64) ::
      c.toNat % 64 :: sextets rest
  | [a, b] => [a.toNat / 4, a.toNat % 4 * 16 + b.toNat / 16, b.toNat % 16 * 4]
  | [a] => [a.toNat / 4, a.toNat % 4 * 16]
  | [] => []

/-- The six bits of a character of either alphabet. -/
def valueAny (c : UInt8) : Option ℕ :=
  if c = 0x2d then some 62 else if c = 0x5f then some 63 else value c

/-- The text is base64 of the bytes, when what `blank` holds of is left out. -/
def IsText (blank : UInt8 → Bool) (text data : Bytes) : Prop :=
  ∃ chars pads, text.filter (fun c => !blank c) = chars ++ List.replicate pads pad ∧
    chars.map valueAny = (sextets data).map some ∧
    (pads = 0 ∨ pads < 4 ∧ (chars.length + pads) % 4 = 0)

theorem first_sextets (a : UInt8) (n : ℕ) (hn : n < 16) :
    first (a.toNat / 4) (a.toNat % 4 * 16 + n) = a := by
  have ha : 4 * (a.toNat / 4) + (a.toNat % 4 * 16 + n) / 16 = a.toNat := by omega
  rw [first, ha, UInt8.ofNat_toNat]

theorem second_sextets (b : UInt8) (m n : ℕ) (hn : n < 4) :
    second (m * 16 + b.toNat / 16) (b.toNat % 16 * 4 + n) = b := by
  have hlt := b.toNat_lt
  have hb : (m * 16 + b.toNat / 16) % 16 * 16 + (b.toNat % 16 * 4 + n) / 4 = b.toNat := by omega
  rw [second, hb, UInt8.ofNat_toNat]

theorem third_sextets (c : UInt8) (m : ℕ) :
    third (m * 4 + c.toNat / 64) (c.toNat % 64) = c := by
  have hlt := c.toNat_lt
  have hc : (m * 4 + c.toNat / 64) % 4 * 64 + c.toNat % 64 = c.toNat := by omega
  rw [third, hc, UInt8.ofNat_toNat]

/-- Every group has six bits. -/
theorem sextets_lt (data : Bytes) : ∀ q ∈ sextets data, q < 64 := by
  induction data using sextets.induct with
  | case1 a b c rest ih =>
    have ha := a.toNat_lt
    have hb := b.toNat_lt
    have hc := c.toNat_lt
    intro q hq
    simp only [sextets, List.mem_cons] at hq
    rcases hq with rfl | rfl | rfl | rfl | hq
    · omega
    · omega
    · omega
    · omega
    · exact ih q hq
  | case2 a b =>
    have ha := a.toNat_lt
    have hb := b.toNat_lt
    intro q hq
    simp only [sextets, List.mem_cons, List.not_mem_nil, or_false] at hq
    omega
  | case3 a =>
    have ha := a.toNat_lt
    intro q hq
    simp only [sextets, List.mem_cons, List.not_mem_nil, or_false] at hq
    omega
  | case4 => exact fun q hq => absurd hq List.not_mem_nil

end BambooNet.Base64
