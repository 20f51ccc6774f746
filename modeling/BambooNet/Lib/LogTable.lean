import Mathlib.Algebra.Field.Defs
import Mathlib.Algebra.Group.Hom.Defs
import Mathlib.Algebra.GroupWithZero.Basic
import Mathlib.Logic.Function.Iterate

/-!
# Fields given by a logarithm table

A finite field can be stored as an additive group with a table of the powers of a generator and
a table of logarithms: nonzero elements are multiplied by adding logarithms. What makes this a
field is that multiplying by the generator is additive; multiplication by any nonzero element
then is a power of that map, and distributivity follows.
-/

namespace BambooNet

/-- Powers `exp` and logarithms `log` of a generator, and the additive map `gen` that multiplies
by it. -/
structure LogTable (K : Type*) [AddCommGroup K] where
  period : ℕ
  exp : ℕ → K
  log : K → ℕ
  gen : K →+ K
  exp_ne_zero : ∀ i, exp i ≠ 0
  exp_log : ∀ a, a ≠ 0 → exp (log a) = a
  log_exp : ∀ i, log (exp i) = i % period
  exp_mod : ∀ i, exp (i % period) = exp i
  gen_exp : ∀ i, gen (exp i) = exp (i + 1)
  log_lt : ∀ a, a ≠ 0 → log a < period

namespace LogTable

variable {K : Type*} [AddCommGroup K] (t : LogTable K)

/-- A nonzero element is a power of the generator. -/
theorem exists_exp {a : K} (h : a ≠ 0) : ∃ i, t.exp i = a := ⟨t.log a, t.exp_log a h⟩

theorem gen_iterate_exp (i j : ℕ) : t.gen^[i] (t.exp j) = t.exp (i + j) := by
  induction i with
  | zero => rw [Function.iterate_zero, id, Nat.zero_add]
  | succ i ih => rw [Function.iterate_succ_apply', ih, t.gen_exp, Nat.add_right_comm]

variable [DecidableEq K]

/-- Multiply by adding logarithms. -/
def mul (a b : K) : K := if a ≠ 0 ∧ b ≠ 0 then t.exp (t.log a + t.log b) else 0

/-- Invert by negating the logarithm. -/
def inv (a : K) : K := if a = 0 then 0 else t.exp (t.period - t.log a)

/-- The exponential turns sums into products. -/
theorem mul_exp (i j : ℕ) : t.mul (t.exp i) (t.exp j) = t.exp (i + j) := by
  rw [mul, if_pos ⟨t.exp_ne_zero i, t.exp_ne_zero j⟩, t.log_exp, t.log_exp, ← t.exp_mod,
    ← Nat.add_mod, t.exp_mod]

theorem zero_mul (a : K) : t.mul 0 a = 0 := by simp [mul]

theorem mul_zero (a : K) : t.mul a 0 = 0 := by simp [mul]

theorem mul_comm (a b : K) : t.mul a b = t.mul b a := by
  simp only [mul, and_comm (a := a ≠ 0), Nat.add_comm (t.log a)]

theorem mul_assoc (a b c : K) : t.mul (t.mul a b) c = t.mul a (t.mul b c) := by
  by_cases ha : a = 0
  · simp [ha, t.zero_mul]
  by_cases hb : b = 0
  · simp [hb, t.zero_mul, t.mul_zero]
  by_cases hc : c = 0
  · simp [hc, t.mul_zero]
  obtain ⟨i, rfl⟩ := t.exists_exp ha
  obtain ⟨j, rfl⟩ := t.exists_exp hb
  obtain ⟨k, rfl⟩ := t.exists_exp hc
  rw [t.mul_exp, t.mul_exp, t.mul_exp, t.mul_exp, Nat.add_assoc]

theorem one_mul (a : K) : t.mul (t.exp 0) a = a := by
  by_cases ha : a = 0
  · rw [ha, t.mul_zero]
  · obtain ⟨i, rfl⟩ := t.exists_exp ha
    rw [t.mul_exp, Nat.zero_add]

/-- Multiplying by the `i`-th power of the generator is the `i`-th power of `gen`. -/
theorem mul_exp_left (i : ℕ) (b : K) : t.mul (t.exp i) b = t.gen^[i] b := by
  by_cases hb : b = 0
  · have h0 : t.gen^[i] 0 = 0 := by
      induction i with
      | zero => rfl
      | succ i ih => rw [Function.iterate_succ_apply', ih, map_zero]
    rw [hb, h0, t.mul_zero]
  · obtain ⟨j, rfl⟩ := t.exists_exp hb
    rw [t.mul_exp, t.gen_iterate_exp]

theorem left_distrib (a b c : K) : t.mul a (b + c) = t.mul a b + t.mul a c := by
  by_cases ha : a = 0
  · simp [ha, t.zero_mul]
  · obtain ⟨i, rfl⟩ := t.exists_exp ha
    clear ha
    simp only [t.mul_exp_left]
    induction i with
    | zero => rfl
    | succ i ih => simp only [Function.iterate_succ_apply', ih, map_add]

theorem right_distrib (a b c : K) : t.mul (a + b) c = t.mul a c + t.mul b c := by
  rw [t.mul_comm, t.left_distrib, t.mul_comm c, t.mul_comm c]

theorem mul_inv_cancel {a : K} (h : a ≠ 0) : t.mul a (t.inv a) = t.exp 0 := by
  have hlt := t.log_lt a h
  have hsum : t.log a + (t.period - t.log a) = t.period := by omega
  conv_lhs => rw [inv, if_neg h, ← t.exp_log a h, t.mul_exp, t.exp_log a h]
  rw [hsum, ← t.exp_mod, Nat.mod_self]

end LogTable

end BambooNet
