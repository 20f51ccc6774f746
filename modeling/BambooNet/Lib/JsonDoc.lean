import BambooNet.Lib.JsonSyntax
import Mathlib.Algebra.Order.Field.Rat
import Mathlib.Algebra.Order.Field.Power

/-!
# What a JSON text denotes

A document keeps what is not a matter of writing: the decoded strings, the exact numbers, and the
elements and members in their order, with repeated keys.
-/

namespace BambooNet.JsonSyntax

inductive Doc
  | null
  | bool (b : Bool)
  | number (q : ℚ)
  | string (s : Bytes)
  | array (ds : List Doc)
  | object (ms : List (Bytes × Doc))

/-- The number of elements or members. -/
def Doc.size : Doc → ℕ
  | .array ds => ds.length
  | .object ms => ms.length
  | _ => 0

/-- The exact value of a number. -/
def Numeral.toRat (n : Numeral) : ℚ :=
  (if n.neg then -1 else 1) * (n.mantissa * 10 ^ n.scale)

mutual

@[grind =] def Node.doc : Node → Doc
  | .null => .null
  | .bool b => .bool b
  | .number n => .number n.toRat
  | .string s => .string s.decoded
  | .emptyArray _ => .array []
  | .array es => .array es.docs
  | .emptyObject _ => .object []
  | .object ms => .object ms.docs

@[grind =] def Elements.docs : Elements → List Doc
  | .last _ v _ => [v.doc]
  | .cons _ v _ rest => v.doc :: rest.docs

@[grind =] def Members.docs : Members → List (Bytes × Doc)
  | .last _ key _ _ v _ => [(key.decoded, v.doc)]
  | .cons _ key _ _ v _ rest => (key.decoded, v.doc) :: rest.docs

end

theorem Numeral.toRat_of_isInt {n : Numeral} (h : n.IsInt) : n.toRat = n.intValue := by
  have hdiv : (n.natAbs : ℚ) * 10 ^ (-n.scale).toNat = n.mantissa * 10 ^ n.scale.toNat := by
    exact_mod_cast Nat.div_mul_cancel h
  have hscale : (10 : ℚ) ^ n.scale * 10 ^ (-n.scale).toNat = 10 ^ n.scale.toNat := by
    rw [← zpow_natCast, ← zpow_natCast, ← zpow_add₀ (by norm_num)]
    congr 1
    omega
  have hpow : (10 : ℚ) ^ (-n.scale).toNat ≠ 0 := by positivity
  have habs : (n.mantissa : ℚ) * 10 ^ n.scale = n.natAbs := by
    refine mul_right_cancel₀ hpow ?_
    rw [mul_assoc, hscale, hdiv]
  rw [Numeral.toRat, habs, Numeral.intValue]
  split <;> simp

end BambooNet.JsonSyntax
