import Mathlib.Data.Bool.AllAny
import Mathlib.Data.LawfulXor.Basic
import Mathlib.Data.List.Basic
import Mathlib.Data.List.Lex
import Mathlib.Tactic.Ring

/-!
# Byte strings

Byte strings as lists in their lexicographic order, ASCII literals, and little-endian numbers. A
read past the end of a byte string is `none`, so that a program's bounds checks can be told from
the reads they guard.
-/

namespace BambooNet

abbrev Bytes := List UInt8

instance instLinearOrderUInt8 : LinearOrder UInt8 where
  le_refl := UInt8.le_refl
  le_trans _ _ _ := UInt8.le_trans
  le_antisymm _ _ := UInt8.le_antisymm
  le_total := UInt8.le_total
  lt_iff_le_not_ge a b := by
    rw [UInt8.lt_iff_toNat_lt, UInt8.le_iff_toNat_le, UInt8.le_iff_toNat_le]
    omega
  toDecidableLE := inferInstance
  toDecidableLT := inferInstance
  toDecidableEq := inferInstance

/-- A property of all bytes, checked one by one. -/
theorem forall_byte {p : UInt8 → Prop} (h : ∀ n < 256, p (UInt8.ofNat n)) (c : UInt8) : p c := by
  have := h c.toNat c.toNat_lt
  rwa [UInt8.ofNat_toNat] at this

/-- The bytes of an ASCII literal. -/
def ascii (s : String) : Bytes := s.toList.map fun c => UInt8.ofNat c.toNat

/-- The number whose base-256 digits are `bs`, least significant first. -/
def leNat : Bytes → ℕ
  | [] => 0
  | b :: bs => b.toNat + 256 * leNat bs

theorem leNat_lt (bs : Bytes) : leNat bs < 256 ^ bs.length := by
  induction bs with
  | nil => simp [leNat]
  | cons b bs ih =>
    have hb := b.toNat_lt
    simp only [leNat, List.length_cons, pow_succ]
    omega

/-- Copy `n` bytes from offset `off`; `none` when some of them lie past the end. -/
def readBytes (mem : Bytes) (off n : ℕ) : Option Bytes :=
  if off + n ≤ mem.length then some ((mem.drop off).take n) else none

theorem readBytes_of_le {mem : Bytes} {off n : ℕ} (h : off + n ≤ mem.length) :
    readBytes mem off n = some ((mem.drop off).take n) := if_pos h

theorem readBytes_of_lt {mem : Bytes} {off n : ℕ} (h : mem.length < off + n) :
    readBytes mem off n = none := if_neg (by omega)

/-! ## Words assembled by shifting -/

theorem or_shiftLeft_eq_add {x y k : ℕ} (hx : x < 2 ^ k) : x ||| y <<< k = x + 2 ^ k * y := by
  rw [Nat.or_comm, ← Nat.shiftLeft_add_eq_or_of_lt hx, Nat.shiftLeft_eq]
  ring

/-- Four bytes joined by shifts and ors are their little-endian number. -/
theorem toNat_joinLe (a b c d : UInt8) :
    (a.toUInt32 ||| b.toUInt32 <<< 8 ||| c.toUInt32 <<< 16 ||| d.toUInt32 <<< 24).toNat =
      leNat [a, b, c, d] := by
  have ha := a.toNat_lt
  have hb := b.toNat_lt
  have hc := c.toNat_lt
  have hd := d.toNat_lt
  have shift (x : UInt8) (k : UInt32) (hk : k.toNat ≤ 24) :
      (x.toUInt32 <<< k).toNat = x.toNat <<< k.toNat := by
    have hx := x.toNat_lt
    have hp : 2 ^ k.toNat ≤ 2 ^ 24 := Nat.pow_le_pow_right (by decide) hk
    rw [UInt32.toNat_shiftLeft, UInt8.toNat_toUInt32, Nat.mod_eq_of_lt (by omega : k.toNat < 32),
      Nat.shiftLeft_eq, Nat.mod_eq_of_lt]
    calc x.toNat * 2 ^ k.toNat ≤ x.toNat * 2 ^ 24 := Nat.mul_le_mul_left _ hp
      _ < 2 ^ 32 := by omega
  rw [UInt32.toNat_or, UInt32.toNat_or, UInt32.toNat_or, shift b 8 (by decide),
    shift c 16 (by decide), shift d 24 (by decide), UInt8.toNat_toUInt32]
  simp only [UInt32.reduceToNat]
  rw [or_shiftLeft_eq_add (by omega : a.toNat < 2 ^ 8),
    or_shiftLeft_eq_add (by omega : a.toNat + 2 ^ 8 * b.toNat < 2 ^ 16),
    or_shiftLeft_eq_add (by omega : a.toNat + 2 ^ 8 * b.toNat + 2 ^ 16 * c.toNat < 2 ^ 24)]
  simp only [leNat]
  omega

end BambooNet
