import Mathlib.LinearAlgebra.Matrix.NonsingularInverse
import Mathlib.LinearAlgebra.Matrix.ToLinearEquiv

/-!
# In-place Gauss–Jordan inversion

Square matrices are stored row by row. `invert` sweeps the columns from left to right: it swaps
the first usable row into the pivot position, scales it, and clears the column in every other
row, carrying the same row operations along on a matrix that starts as the identity. It fails
when a column has no pivot, and then returns the matrix it was working on.

`Reduced` is what holds after each column; `invert_spec` says that `invert` returns the inverse or
fails on a singular matrix.
-/

namespace BambooNet.GaussJordan

open Matrix

variable {K : Type*} {n : ℕ}

/-- A square matrix stored row by row. -/
abbrev Rows (K : Type*) (n : ℕ) := Vector (Vector K n) n

def tabulate (f : Fin n → Fin n → K) : Rows K n := Vector.ofFn fun i => Vector.ofFn (f i)

def toMatrix (m : Rows K n) : Matrix (Fin n) (Fin n) K := fun i j => (m.get i).get j

theorem toMatrix_tabulate (f : Fin n → Fin n → K) : toMatrix (tabulate f) = f := by
  funext i j
  show (tabulate f)[i][j] = f i j
  simp [tabulate]

theorem getElem_eq_toMatrix (m : Rows K n) (i j : Fin n) : m[i][j] = toMatrix m i j := rfl

variable [Field K]

/-! ## One column as a row operation -/

/-- The row operations of one column, on any matrix `x`, with the coefficients read off `m`. -/
def sweep (m : Matrix (Fin n) (Fin n) K) (piv col : Fin n) (x : Matrix (Fin n) (Fin n) K) :
    Matrix (Fin n) (Fin n) K := fun r c =>
  if r = col then (m piv col)⁻¹ * x piv c
  else x (Equiv.swap piv col r) c -
    m (Equiv.swap piv col r) col * ((m piv col)⁻¹ * x piv c)

theorem sweep_mul (m x a : Matrix (Fin n) (Fin n) K) (piv col : Fin n) :
    sweep m piv col (x * a) = sweep m piv col x * a := by
  ext r c
  simp only [sweep, Matrix.mul_apply]
  split_ifs
  · simp only [Finset.mul_sum, mul_assoc]
  · simp only [Finset.mul_sum, ← Finset.sum_sub_distrib, sub_mul, mul_assoc]

/-- Row operations lose no solutions: what the swept matrix kills, the matrix kills. -/
theorem sweep_ker {m : Matrix (Fin n) (Fin n) K} {piv col : Fin n} (hp : m piv col ≠ 0)
    {v : Fin n → K} (hv : sweep m piv col m *ᵥ v = 0) : m *ᵥ v = 0 := by
  have hcol : ∑ c, m piv c * v c = 0 := by
    have h := congrFun hv col
    simp only [mulVec, dotProduct, sweep, if_true, mul_assoc, Pi.zero_apply,
      ← Finset.mul_sum] at h
    exact (mul_eq_zero.1 h).resolve_left (inv_ne_zero hp)
  have hother (r : Fin n) (hr : r ≠ col) : ∑ c, m (Equiv.swap piv col r) c * v c = 0 := by
    have h := congrFun hv r
    simp only [mulVec, dotProduct, sweep, hr, if_false, sub_mul, mul_assoc,
      Finset.sum_sub_distrib, ← Finset.mul_sum, hcol, mul_zero, sub_zero, Pi.zero_apply] at h
    exact h
  funext r
  show ∑ c, m r c * v c = 0
  by_cases hr : r = piv
  · rw [hr]; exact hcol
  · have hne : Equiv.swap piv col r ≠ col := fun h =>
      hr (by rwa [Equiv.swap_apply_eq_iff, Equiv.swap_apply_right] at h)
    have h := hother _ hne
    rwa [Equiv.swap_apply_self] at h

/-! ## The invariant -/

/-- After `k` columns: `inv` is the row operations done on `a`, nothing new is killed, and the
first `k` columns are unit columns. -/
structure Reduced (a m inv : Matrix (Fin n) (Fin n) K) (k : ℕ) : Prop where
  prod : inv * a = m
  ker : ∀ v, m *ᵥ v = 0 → a *ᵥ v = 0
  unit : ∀ c : Fin n, c < k → ∀ r, m r c = if r = c then 1 else 0

theorem reduced_init (a : Matrix (Fin n) (Fin n) K) : Reduced a a 1 0 where
  prod := one_mul a
  ker := fun _ h => h
  unit := fun _ h => absurd h (Nat.not_lt_zero _)

theorem reduced_sweep {a m inv : Matrix (Fin n) (Fin n) K} {piv col : Fin n}
    (h : Reduced a m inv col) (hle : col ≤ piv) (hp : m piv col ≠ 0) :
    Reduced a (sweep m piv col m) (sweep m piv col inv) (col + 1) where
  prod := by rw [← sweep_mul, h.prod]
  ker := fun v hv => h.ker v (sweep_ker hp hv)
  unit := by
    intro c hc r
    rcases Nat.lt_succ_iff_lt_or_eq.1 hc with hlt | heq
    · -- an earlier column: the pivot row is zero there, and the swap moves no unit row
      have hcol : c ≠ col := fun e => by rw [e] at hlt; exact lt_irrefl _ hlt
      have hcp : c ≠ piv := fun e => by
        rw [e] at hlt; exact absurd (lt_of_lt_of_le hlt hle) (lt_irrefl _)
      have hzero : m piv c = 0 := by rw [h.unit c hlt, if_neg (Ne.symm hcp)]
      simp only [sweep, hzero, mul_zero, sub_zero]
      split_ifs with h1 h2 h2
      · exact absurd (h2.symm.trans h1) hcol
      · rfl
      · rw [h2, Equiv.swap_apply_of_ne_of_ne hcp hcol, h.unit c hlt, if_pos rfl]
      · rw [h.unit c hlt, if_neg]
        intro e
        rw [Equiv.swap_apply_eq_iff, Equiv.swap_apply_of_ne_of_ne hcp hcol] at e
        exact h2 e
    · obtain rfl : c = col := Fin.ext heq
      simp only [sweep, inv_mul_cancel₀ hp, mul_one, sub_self]

/-- Without a pivot the matrix kills a nonzero vector. -/
theorem exists_ker_of_no_pivot {a m inv : Matrix (Fin n) (Fin n) K} {col : Fin n}
    (h : Reduced a m inv col) (hp : ∀ r, col ≤ r → m r col = 0) : ∃ v ≠ 0, a *ᵥ v = 0 := by
  let v : Fin n → K := fun j => if j = col then 1 else if j < col then -m j col else 0
  refine ⟨v, fun hv => ?_, h.ker v (funext fun r => ?_)⟩
  · have := congrFun hv col
    simp [v] at this
  · have hterm (j : Fin n) : m r j * v j =
        (if j = col then m r col else 0) - if j = r ∧ r < col then m r col else 0 := by
      simp only [v]
      by_cases hj : j = col
      · subst hj
        by_cases hr : j = r <;> simp [hr]
      · by_cases hjc : j < col
        · rw [h.unit j hjc r]
          by_cases hr : r = j
          · subst hr; simp [hj, hjc]
          · simp [hj, hjc, hr, Ne.symm hr]
        · have : ¬ (j = r ∧ r < col) := fun ⟨e, hr⟩ => hjc (e ▸ hr)
          simp [hj, hjc, this]
    show ∑ j, m r j * v j = 0
    simp only [hterm, Finset.sum_sub_distrib, Finset.sum_ite_eq', Finset.mem_univ, if_true]
    by_cases hr : r < col
    · simp [hr]
    · simp [hr, hp r (not_lt.1 hr)]

variable [DecidableEq K]

/-! ## The algorithm -/

/-- The first row from `col` on with a nonzero entry in column `col`. -/
def pivot (m : Rows K n) (col : Fin n) : Option (Fin n) :=
  (List.finRange n).find? fun r => decide (col ≤ r ∧ m[r][col] ≠ 0)

def swapRows (x : Rows K n) (i j : Fin n) : Rows K n :=
  tabulate fun r c => x[Equiv.swap i j r][c]

def scaleRow (x : Rows K n) (row : Fin n) (f : K) : Rows K n :=
  tabulate fun r c => if r = row then x[r][c] * f else x[r][c]

/-- Subtract `coef r` times row `row` from every other row `r`. -/
def clearRows (x : Rows K n) (row : Fin n) (coef : Fin n → K) : Rows K n :=
  tabulate fun r c => if r = row ∨ coef r = 0 then x[r][c] else x[r][c] - coef r * x[row][c]

/-- One column: the pair is the matrix and the row operations done so far. -/
def sweepCol (s : Rows K n × Rows K n) (col : Fin n) :
    Except (Rows K n) (Rows K n × Rows K n) :=
  match pivot s.1 col with
  | none => .error s.1
  | some piv =>
    let m := swapRows s.1 piv col
    let inv := swapRows s.2 piv col
    let f := m[col][col]⁻¹
    let m := scaleRow m col f
    let inv := scaleRow inv col f
    let coef := fun r : Fin n => m[r][col]
    .ok (clearRows m col coef, clearRows inv col coef)

/-- The first `k` columns. -/
@[grind =] def sweepCols (m : Rows K n) : (k : ℕ) → k ≤ n → Except (Rows K n) (Rows K n × Rows K n)
  | 0, _ => .ok (m, tabulate fun i j => if i = j then 1 else 0)
  | k + 1, h => do
    let s ← sweepCols m k (Nat.le_of_succ_le h)
    sweepCol s ⟨k, h⟩

def invert (m : Rows K n) : Except (Rows K n) (Rows K n) := do
  let s ← sweepCols m n le_rfl
  return s.2

theorem sweepCol_of_pivot {s : Rows K n × Rows K n} {piv col : Fin n}
    (h : pivot s.1 col = some piv) :
    ∃ s', sweepCol s col = .ok s' ∧
      toMatrix s'.1 = sweep (toMatrix s.1) piv col (toMatrix s.1) ∧
      toMatrix s'.2 = sweep (toMatrix s.1) piv col (toMatrix s.2) := by
  have hrow (x : Rows K n) :
      toMatrix (clearRows (scaleRow (swapRows x piv col) col
          (swapRows s.1 piv col)[col][col]⁻¹) col
        fun r => (scaleRow (swapRows s.1 piv col) col (swapRows s.1 piv col)[col][col]⁻¹)[r][col]) =
      sweep (toMatrix s.1) piv col (toMatrix x) := by
    funext r c
    simp only [clearRows, scaleRow, swapRows, toMatrix_tabulate, getElem_eq_toMatrix,
      Equiv.swap_apply_right, sweep]
    by_cases hr : r = col
    · simp [hr, mul_comm]
    · simp only [hr, if_false, false_or, if_true]
      split_ifs with h0
      · simp [h0]
      · rw [mul_comm (toMatrix x piv c)]
  simp only [sweepCol, h]
  exact ⟨_, rfl, hrow s.1, hrow s.2⟩

theorem pivot_spec {m : Rows K n} {piv col : Fin n} (h : pivot m col = some piv) :
    col ≤ piv ∧ toMatrix m piv col ≠ 0 := by
  have := List.find?_some h
  simp only [decide_eq_true_eq] at this
  exact this

/-! ## Runs -/

/-- **After every column the invariant holds, or the matrix is singular.** -/
theorem sweepCols_spec (m : Rows K n) (k : ℕ) (hk : k ≤ n) :
    (∃ s, sweepCols m k hk = .ok s ∧ Reduced (toMatrix m) (toMatrix s.1) (toMatrix s.2) k) ∨
      ((∃ e, sweepCols m k hk = .error e) ∧ ∃ v ≠ 0, toMatrix m *ᵥ v = 0) := by
  induction k with
  | zero =>
    refine Or.inl ⟨_, rfl, ?_⟩
    have hone : toMatrix (tabulate fun i j : Fin n => if i = j then (1 : K) else 0) = 1 := by
      rw [toMatrix_tabulate]; rfl
    rw [hone]
    exact reduced_init _
  | succ k ih =>
    rcases ih (Nat.le_of_succ_le hk) with ⟨s, hs, hred⟩ | ⟨⟨e, he⟩, hv⟩
    · rw [sweepCols, hs]
      have hcol : Reduced (toMatrix m) (toMatrix s.1) (toMatrix s.2) (⟨k, hk⟩ : Fin n) := hred
      cases hp : pivot s.1 ⟨k, hk⟩ with
      | some piv =>
        obtain ⟨hle, hne⟩ := pivot_spec hp
        obtain ⟨s', hs', h1, h2⟩ := sweepCol_of_pivot hp
        refine Or.inl ⟨s', hs', ?_⟩
        rw [h1, h2]
        exact reduced_sweep hcol hle hne
      | none =>
        refine Or.inr ⟨⟨s.1, by simp [sweepCol, hp, bind, Except.bind]⟩, ?_⟩
        refine exists_ker_of_no_pivot hcol fun r hr => ?_
        have := List.find?_eq_none.1 hp r (List.mem_finRange r)
        simp only [hr, true_and, decide_eq_true_eq, not_not] at this
        exact this
    · exact Or.inr ⟨⟨e, by simp [sweepCols, he, bind, Except.bind]⟩, hv⟩

/-- **`invert` returns the inverse, or the matrix is singular.** -/
theorem invert_spec (m : Rows K n) :
    (∃ b, invert m = .ok b ∧ toMatrix b * toMatrix m = 1) ∨
      ((∃ e, invert m = .error e) ∧ (toMatrix m).det = 0) := by
  rcases sweepCols_spec m n le_rfl with ⟨s, hs, hred⟩ | ⟨⟨e, he⟩, hv⟩
  · refine Or.inl ⟨s.2, by simp [invert, hs, bind, Except.bind, pure, Except.pure], ?_⟩
    rw [hred.prod]
    ext r c
    rw [hred.unit c c.isLt r, Matrix.one_apply]
  · exact Or.inr ⟨⟨e, by simp [invert, he, bind, Except.bind]⟩,
      Matrix.exists_mulVec_eq_zero_iff.1 hv⟩

theorem invert_of_det_ne_zero {m : Rows K n} (h : (toMatrix m).det ≠ 0) :
    ∃ b, invert m = .ok b ∧ toMatrix b = (toMatrix m)⁻¹ := by
  rcases invert_spec m with ⟨b, hb, hprod⟩ | ⟨-, h0⟩
  · exact ⟨b, hb, (Matrix.inv_eq_left_inv hprod).symm⟩
  · exact absurd h0 h

end BambooNet.GaussJordan
