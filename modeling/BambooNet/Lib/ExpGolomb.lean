import BambooNet.Lib.Bytes
import Mathlib.Tactic.IntervalCases

/-!
# Bit strings and Exp-Golomb codes

The bits of a byte string, each byte from its highest bit on, and what is read off their front: a
number of fixed width, and a number of an Exp-Golomb code, `z` zeros, a one, and `z` bits more.
Numbers are unbounded; a reader fails when the bits run out.
-/

namespace BambooNet.BitString

def byteBits (b : UInt8) : List Bool :=
  [b.toNat.testBit 7, b.toNat.testBit 6, b.toNat.testBit 5, b.toNat.testBit 4, b.toNat.testBit 3,
    b.toNat.testBit 2, b.toNat.testBit 1, b.toNat.testBit 0]

def bits (bs : Bytes) : List Bool := bs.flatMap byteBits

/-- A number read bit by bit behind those of `v`. -/
def natFrom (v : ℕ) (s : List Bool) : ℕ := s.foldl (fun v b => 2 * v + b.toNat) v

/-- The number of the first `n` bits, and what follows them. -/
def readBits (n : ℕ) (s : List Bool) : Option (ℕ × List Bool) :=
  if n ≤ s.length then some (natFrom 0 (s.take n), s.drop n) else none

/-- The zeros in front of the first one, and what follows it. -/
@[grind =] def leadingZeros : List Bool → Option (ℕ × List Bool)
  | [] => none
  | true :: s => some (0, s)
  | false :: s => (leadingZeros s).map fun r => (r.1 + 1, r.2)

/-- An unsigned Exp-Golomb code of at most `most` zeros. -/
def readUe (most : ℕ) (s : List Bool) : Option (ℕ × List Bool) :=
  (leadingZeros s).bind fun r =>
    if r.1 ≤ most then (readBits r.1 r.2).map fun x => (2 ^ r.1 - 1 + x.1, x.2) else none

/-- The signed number of a code: 0, 1, −1, 2, −2 and so on. -/
def signed (k : ℕ) : ℤ := if k % 2 = 1 then ((k + 1) / 2 : ℕ) else -((k + 1) / 2 : ℕ)

theorem length_bits (bs : Bytes) : (bits bs).length = 8 * bs.length := by
  induction bs with
  | nil => rfl
  | cons b bs ih =>
    rw [bits, List.flatMap_cons, List.length_append, ← bits, ih, List.length_cons]
    show 8 + 8 * bs.length = 8 * (bs.length + 1)
    omega

/-- A bit of the string is one of the byte it falls into. -/
theorem getElem?_bits {bs : Bytes} {i : ℕ} {b : UInt8} (h : bs[i / 8]? = some b) :
    (bits bs)[i]? = some (b.toNat.testBit (7 - i % 8)) := by
  induction bs generalizing i with
  | nil => cases h
  | cons c bs ih =>
    rw [bits, List.flatMap_cons, ← bits]
    by_cases hi : i < 8
    · have hzero : i / 8 = 0 := Nat.div_eq_of_lt hi
      rw [hzero] at h
      obtain rfl := Option.some.inj h
      rw [List.getElem?_append_left hi, Nat.mod_eq_of_lt hi]
      interval_cases i <;> rfl
    · obtain ⟨j, rfl⟩ := Nat.exists_eq_add_of_le (Nat.not_lt.1 hi)
      have hdiv : (8 + j) / 8 = j / 8 + 1 := by omega
      rw [hdiv, List.getElem?_cons_succ] at h
      have hbit := ih h
      rw [List.getElem?_append_right (Nat.le_add_right 8 j)]
      show (bits bs)[8 + j - 8]? = _
      rw [Nat.add_sub_cancel_left, hbit, Nat.add_mod_left]

end BambooNet.BitString
