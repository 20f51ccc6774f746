import BambooNet.Lib.Bytes

/-!
# 32-bit words

A word as its four little-endian bytes, and rotations written with two shifts. Splitting and
joining are inverse (`joinLe_byteAt`, `byteAt_joinLe`), and so are rotations in opposite
directions (`rol_ror`, `ror_rol`).
-/

namespace BambooNet.Word

/-! ## Bytes of a word -/

/-- Byte `k` of a word, the least significant first. -/
def byteAt (w : UInt32) (k : ℕ) : UInt8 := (w >>> UInt32.ofNat (8 * k)).toUInt8

/-- The word with the given bytes, the least significant first. -/
def joinLe (a b c d : UInt8) : UInt32 :=
  a.toUInt32 ||| b.toUInt32 <<< 8 ||| c.toUInt32 <<< 16 ||| d.toUInt32 <<< 24

theorem toNat_byteAt (w : UInt32) {k : ℕ} (hk : k < 4) :
    (byteAt w k).toNat = w.toNat / 2 ^ (8 * k) % 256 := by
  have hmod : (UInt32.ofNat (8 * k)).toNat % 32 = 8 * k := by
    rw [UInt32.toNat_ofNat', Nat.mod_eq_of_lt (by omega : 8 * k < 2 ^ 32)]
    omega
  rw [byteAt, UInt32.toNat_toUInt8, UInt32.toNat_shiftRight, hmod, Nat.shiftRight_eq_div_pow]

theorem toNat_joinLe_eq (a b c d : UInt8) :
    (joinLe a b c d).toNat =
      a.toNat + 256 * b.toNat + 65536 * c.toNat + 16777216 * d.toNat := by
  rw [joinLe, toNat_joinLe]
  simp only [leNat]
  omega

@[simp] theorem joinLe_byteAt (w : UInt32) :
    joinLe (byteAt w 0) (byteAt w 1) (byteAt w 2) (byteAt w 3) = w := by
  apply UInt32.toNat_inj.mp
  have hw := w.toNat_lt
  rw [toNat_joinLe_eq, toNat_byteAt w (by omega), toNat_byteAt w (by omega),
    toNat_byteAt w (by omega), toNat_byteAt w (by omega)]
  norm_num
  omega

section
variable (a b c d : UInt8)

@[simp] theorem byteAt_joinLe_zero : byteAt (joinLe a b c d) 0 = a := by
  apply UInt8.toNat_inj.mp
  have := a.toNat_lt
  rw [toNat_byteAt _ (by omega), toNat_joinLe_eq]
  omega

@[simp] theorem byteAt_joinLe_one : byteAt (joinLe a b c d) 1 = b := by
  apply UInt8.toNat_inj.mp
  have := a.toNat_lt
  have := b.toNat_lt
  rw [toNat_byteAt _ (by omega), toNat_joinLe_eq]
  omega

@[simp] theorem byteAt_joinLe_two : byteAt (joinLe a b c d) 2 = c := by
  apply UInt8.toNat_inj.mp
  have := a.toNat_lt
  have := b.toNat_lt
  have := c.toNat_lt
  rw [toNat_byteAt _ (by omega), toNat_joinLe_eq]
  omega

@[simp] theorem byteAt_joinLe_three : byteAt (joinLe a b c d) 3 = d := by
  apply UInt8.toNat_inj.mp
  have := a.toNat_lt
  have := b.toNat_lt
  have := c.toNat_lt
  have := d.toNat_lt
  rw [toNat_byteAt _ (by omega), toNat_joinLe_eq]
  omega

end

/-! ## Rotations -/

/-- Rotate right by `n` places, `0 < n < 32`. -/
def ror (v n : UInt32) : UInt32 := v >>> n ||| v <<< (32 - n)

/-- Rotate left by `n` places, `0 < n < 32`. -/
def rol (v n : UInt32) : UInt32 := v <<< n ||| v >>> (32 - n)

variable {n : UInt32}

theorem toNat_sub_of_lt (hn : n.toNat < 32) : (32 - n).toNat = 32 - n.toNat := by
  have hle : n ≤ 32 := UInt32.le_iff_toNat_le.mpr (by simpa using hn.le)
  simpa using UInt32.toNat_sub_of_le _ _ hle

theorem sub_sub_of_lt (h0 : 0 < n.toNat) (hn : n.toNat < 32) : 32 - (32 - n) = n := by
  apply UInt32.toNat_inj.mp
  have hsub := toNat_sub_of_lt hn
  rw [toNat_sub_of_lt (by omega), hsub]
  omega

/-- The low `n` bits come out on top. -/
theorem toNat_ror (v : UInt32) (h0 : 0 < n.toNat) (hn : n.toNat < 32) :
    (ror v n).toNat = v.toNat / 2 ^ n.toNat + 2 ^ (32 - n.toNat) * (v.toNat % 2 ^ n.toNat) := by
  have hv := v.toNat_lt
  have hpow : 2 ^ n.toNat * 2 ^ (32 - n.toNat) = 2 ^ 32 := by
    rw [← pow_add, Nat.add_sub_cancel' hn.le]
  have hhi : v.toNat / 2 ^ n.toNat < 2 ^ (32 - n.toNat) :=
    Nat.div_lt_of_lt_mul (by rw [hpow]; exact hv)
  rw [ror, UInt32.toNat_or, UInt32.toNat_shiftRight, UInt32.toNat_shiftLeft, toNat_sub_of_lt hn,
    Nat.mod_eq_of_lt hn, Nat.mod_eq_of_lt (by omega : 32 - n.toNat < 32),
    Nat.shiftRight_eq_div_pow, Nat.shiftLeft_eq, ← hpow, Nat.mul_mod_mul_right,
    ← Nat.shiftLeft_eq, or_shiftLeft_eq_add hhi]

theorem rol_eq_ror (v : UInt32) (h0 : 0 < n.toNat) (hn : n.toNat < 32) :
    rol v n = ror v (32 - n) := by
  rw [rol, ror, sub_sub_of_lt h0 hn, UInt32.or_comm]

/-- Rotating by `n` and then by `32 - n` goes once around. -/
theorem ror_ror (v : UInt32) (h0 : 0 < n.toNat) (hn : n.toNat < 32) :
    ror (ror v n) (32 - n) = v := by
  apply UInt32.toNat_inj.mp
  have hsub := toNat_sub_of_lt hn
  have hv := v.toNat_lt
  have hpow : 2 ^ n.toNat * 2 ^ (32 - n.toNat) = 2 ^ 32 := by
    rw [← pow_add, Nat.add_sub_cancel' hn.le]
  have hhi : v.toNat / 2 ^ n.toNat < 2 ^ (32 - n.toNat) :=
    Nat.div_lt_of_lt_mul (by rw [hpow]; exact hv)
  rw [toNat_ror _ (by omega) (by omega), toNat_ror v h0 hn, hsub,
    Nat.add_mul_div_left _ _ (Nat.two_pow_pos _), Nat.div_eq_of_lt hhi, Nat.add_mul_mod_self_left,
    Nat.mod_eq_of_lt hhi, (by omega : 32 - (32 - n.toNat) = n.toNat), zero_add,
    Nat.mod_add_div]

theorem rol_ror (v : UInt32) (h0 : 0 < n.toNat) (hn : n.toNat < 32) : rol (ror v n) n = v := by
  rw [rol_eq_ror _ h0 hn, ror_ror v h0 hn]

theorem ror_rol (v : UInt32) (h0 : 0 < n.toNat) (hn : n.toNat < 32) : ror (rol v n) n = v := by
  have hsub := toNat_sub_of_lt hn
  have hround := @ror_ror (32 - n) v (by omega) (by omega)
  rwa [sub_sub_of_lt h0 hn, ← rol_eq_ror v h0 hn] at hround

end BambooNet.Word
