import BambooNet.Lib.Bytes

/-!
# Conditions that read a buffer

A condition that reads a byte outside its buffer is `none`. `both` and `either` are the operators
`&&` and `||`, which leave their right side alone when the left side decides. A bounds check in
front of a read is then the left side of `both`, and `both_of` and `either_of` ask for the right
side only where it is evaluated.
-/

namespace BambooNet

/-- The byte at `i` is `b`. -/
def byteIs (p : Bytes) (i : ℕ) (b : UInt8) : Option Bool := p[i]?.map (· == b)

/-- `&&`. -/
def both (x y : Option Bool) : Option Bool := x.bind fun a => if a then y else some false

/-- `||`. -/
def either (x y : Option Bool) : Option Bool := x.bind fun a => if a then some true else y

/-- The bytes from `i` on are `bs`, compared one after the other. -/
def bytesAre (p : Bytes) (i : ℕ) : Bytes → Option Bool
  | [] => some true
  | b :: bs => both (byteIs p i b) (bytesAre p (i + 1) bs)

theorem getElem?_eq_getD {p : Bytes} {i : ℕ} (h : i < p.length) : p[i]? = some (p.getD i 0) := by
  rw [List.getD_eq_getElem?_getD, List.getElem?_eq_getElem h, Option.getD_some]

theorem byteIs_of_lt {p : Bytes} {i : ℕ} (h : i < p.length) (b : UInt8) :
    byteIs p i b = some (p.getD i 0 == b) := by
  rw [byteIs, getElem?_eq_getD h, Option.map_some]

theorem byteIs_of_le {p : Bytes} {i : ℕ} (h : p.length ≤ i) (b : UInt8) : byteIs p i b = none := by
  rw [byteIs, List.getElem?_eq_none h, Option.map_none]

/-- The right side of `&&` matters only when the left side holds. -/
theorem both_of {a b : Bool} {y : Option Bool} (h : a = true → y = some b) :
    both (some a) y = some (a && b) := by
  cases a with
  | false => rfl
  | true => exact h rfl

/-- The right side of `||` matters only when the left side fails. -/
theorem either_of {a b : Bool} {y : Option Bool} (h : a = false → y = some b) :
    either (some a) y = some (a || b) := by
  cases a with
  | false => exact h rfl
  | true => rfl

/-- A left side that fails leaves the outcome, and a read outside, to the right side. -/
theorem either_false (y : Option Bool) : either (some false) y = y := rfl

/-- A comparison that fits the buffer reads inside it. -/
theorem bytesAre_of_le {p : Bytes} {i : ℕ} {bs : Bytes} (h : i + bs.length ≤ p.length) :
    bytesAre p i bs = some (bs.isPrefixOf (p.drop i)) := by
  induction bs generalizing i with
  | nil => rfl
  | cons b bs ih =>
    have hlen : i + 1 + bs.length ≤ p.length := by
      rw [List.length_cons] at h
      omega
    have hi : i < p.length := by omega
    have hget : p.getD i 0 = p[i] := by
      rw [List.getD_eq_getElem?_getD, List.getElem?_eq_getElem hi, Option.getD_some]
    rw [bytesAre, byteIs_of_lt hi, ih hlen, both_of fun _ => rfl, List.drop_eq_getElem_cons hi,
      List.isPrefixOf, hget, Bool.beq_comm]

/-- Bytes found in the first `n` of a buffer are found in the buffer, and are at most `n`. -/
theorem isPrefixOf_take (bs p : Bytes) (n : ℕ) :
    bs.isPrefixOf (p.take n) = (decide (n ≥ bs.length) && bs.isPrefixOf p) := by
  rw [Bool.eq_iff_iff, Bool.and_eq_true, List.isPrefixOf_iff_prefix, List.isPrefixOf_iff_prefix,
    List.prefix_take_iff, decide_eq_true_iff, and_comm]

/-- A comparison behind a check of the length. -/
theorem both_bytesAre {p : Bytes} {n : ℕ} (hn : n ≤ p.length) (bs : Bytes) :
    both (some (decide (n ≥ bs.length))) (bytesAre p 0 bs) = some (bs.isPrefixOf (p.take n)) := by
  rw [isPrefixOf_take]
  refine both_of fun h => ?_
  have hlen : bs.length ≤ n := of_decide_eq_true h
  exact bytesAre_of_le (by omega)

end BambooNet
