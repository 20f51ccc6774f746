import Mathlib.LinearAlgebra.Matrix.NonsingularInverse
import Mathlib.LinearAlgebra.Vandermonde

/-!
# Systematic Vandermonde codes

Row `r` of the Vandermonde matrix at points `pt` is `pt r ^ c`. Multiplied by the inverse of its
first `k` rows, the matrix becomes the generator of a systematic code: the first `k` rows are the
unit rows. The code is MDS (`det_generator_ne_zero`): any `k` rows at distinct points form an
invertible matrix, so any `k` symbols determine the message (`decode`).
-/

namespace BambooNet.VandermondeCode

open Matrix

variable {K : Type*} [Field K] (pt : ℕ → K) (k : ℕ)

/-- Row `r` of the Vandermonde matrix with `k` columns. -/
def vrow (r : ℕ) : Fin k → K := fun c => pt r ^ (c : ℕ)

/-- The first `k` rows. -/
def top : Matrix (Fin k) (Fin k) K := Matrix.vandermonde fun r : Fin k => pt r

/-- Row `r` of the systematic generator. -/
noncomputable def generator (r : ℕ) : Fin k → K := vrow pt k r ᵥ* (top pt k)⁻¹

variable {pt k}

theorem det_vandermonde_ne_zero {rows : Fin k → ℕ}
    (h : Function.Injective fun i => pt (rows i)) :
    (Matrix.of fun i => vrow pt k (rows i)).det ≠ 0 := by
  have : (Matrix.of fun i => vrow pt k (rows i)) =
      Matrix.vandermonde fun i => pt (rows i) := rfl
  rw [this, Matrix.det_vandermonde_ne_zero_iff]
  exact h

theorem det_top_ne_zero (h : Set.InjOn pt (Set.Iio k)) : (top pt k).det ≠ 0 :=
  @det_vandermonde_ne_zero _ _ pt k (fun i : Fin k => (i : ℕ))
    fun i j hij => Fin.ext (h i.isLt j.isLt hij)

/-- The code is systematic: a data row of the generator is a unit row. -/
theorem generator_data (h : Set.InjOn pt (Set.Iio k)) {r : ℕ} (hr : r < k) :
    generator pt k r = fun c : Fin k => if c = r then 1 else 0 := by
  have hrow : vrow pt k r = top pt k ⟨r, hr⟩ := rfl
  have hunit : IsUnit (top pt k).det := isUnit_iff_ne_zero.2 (det_top_ne_zero h)
  funext c
  calc generator pt k r c = (top pt k * (top pt k)⁻¹) ⟨r, hr⟩ c := by rw [generator, hrow]; rfl
    _ = (1 : Matrix (Fin k) (Fin k) K) ⟨r, hr⟩ c := by rw [Matrix.mul_nonsing_inv _ hunit]
    _ = if c = r then 1 else 0 := by simp only [Matrix.one_apply, Fin.ext_iff, eq_comm]

/-- **Any `k` rows of the generator at distinct points are independent.** -/
theorem det_generator_ne_zero (h : Set.InjOn pt (Set.Iio k)) {rows : Fin k → ℕ}
    (hrows : Function.Injective fun i => pt (rows i)) :
    (Matrix.of fun i => generator pt k (rows i)).det ≠ 0 := by
  have hmul : (Matrix.of fun i => generator pt k (rows i)) =
      (Matrix.of fun i => vrow pt k (rows i)) * (top pt k)⁻¹ := rfl
  rw [hmul, Matrix.det_mul]
  refine mul_ne_zero (det_vandermonde_ne_zero hrows) ?_
  rw [Matrix.det_nonsing_inv, Ring.inverse_eq_inv']
  exact inv_ne_zero (det_top_ne_zero h)

/-- **Any `k` symbols determine the message.** -/
theorem decode (h : Set.InjOn pt (Set.Iio k)) {rows : Fin k → ℕ}
    (hrows : Function.Injective fun i => pt (rows i)) (x : Fin k → K) :
    (Matrix.of fun i => generator pt k (rows i))⁻¹ *ᵥ
      (fun i => generator pt k (rows i) ⬝ᵥ x) = x := by
  have hmul : (fun i => generator pt k (rows i) ⬝ᵥ x) =
      (Matrix.of fun i => generator pt k (rows i)) *ᵥ x := rfl
  rw [hmul, Matrix.mulVec_mulVec, Matrix.nonsing_inv_mul _
    (isUnit_iff_ne_zero.2 (det_generator_ne_zero h hrows)), Matrix.one_mulVec]

end BambooNet.VandermondeCode
