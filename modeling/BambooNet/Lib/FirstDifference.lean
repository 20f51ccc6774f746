import Mathlib.Order.PiLex
import Mathlib.Order.Nat
import Mathlib.Algebra.Order.Group.Int

/-!
# The first difference of two sequences

Two sequences are compared by the sign of their first difference. This is the lexicographic order,
so that the signs of the two directions are opposite and comparisons chain.
-/

namespace BambooNet

variable {α : Type*} [LinearOrder α]

/-- The sign of the first difference of `f` and `g`. -/
structure FirstSign (f g : ℕ → α) (r : ℤ) : Prop where
  same : f = g → r = 0
  less : ∀ k, (∀ j < k, f j = g j) → f k < g k → r = -1
  greater : ∀ k, (∀ j < k, f j = g j) → g k < f k → r = 1

namespace FirstSign

variable {f g h : ℕ → α} {r r' r'' : ℤ}

theorem swap (hr : FirstSign f g r) : FirstSign g f (-r) where
  same heq := by rw [hr.same heq.symm, neg_zero]
  less k hk hlt := by rw [hr.greater k (fun j hj => (hk j hj).symm) hlt]
  greater k hk hlt := by rw [hr.less k (fun j hj => (hk j hj).symm) hlt, neg_neg]

theorem refl (f : ℕ → α) : FirstSign f f 0 where
  same _ := rfl
  less _ _ hlt := absurd hlt (lt_irrefl _)
  greater _ _ hlt := absurd hlt (lt_irrefl _)

/-- The signs are those of the lexicographic order. -/
theorem cases (hr : FirstSign f g r) :
    (toLex f < toLex g ∧ r = -1) ∨ (f = g ∧ r = 0) ∨ (toLex g < toLex f ∧ r = 1) := by
  rcases lt_trichotomy (toLex f) (toLex g) with hlt | heq | hlt
  · obtain ⟨k, hk, hkl⟩ := id hlt
    exact .inl ⟨hlt, hr.less k hk hkl⟩
  · have hfg : f = g := toLex_inj.1 heq
    exact .inr (.inl ⟨hfg, hr.same hfg⟩)
  · obtain ⟨k, hk, hkl⟩ := id hlt
    exact .inr (.inr ⟨hlt, hr.greater k (fun j hj => (hk j hj).symm) hkl⟩)

theorem unique (hr : FirstSign f g r) (hr' : FirstSign f g r') : r = r' := by
  rcases hr.cases with ⟨hlt, rfl⟩ | ⟨heq, rfl⟩ | ⟨hlt, rfl⟩
  · obtain ⟨k, hk, hkl⟩ := hlt
    exact (hr'.less k hk hkl).symm
  · exact (hr'.same heq).symm
  · obtain ⟨k, hk, hkl⟩ := hlt
    exact (hr'.greater k (fun j hj => (hk j hj).symm) hkl).symm

theorem nonpos_iff (hr : FirstSign f g r) : r ≤ 0 ↔ toLex f ≤ toLex g := by
  rcases hr.cases with ⟨hlt, rfl⟩ | ⟨rfl, rfl⟩ | ⟨hlt, rfl⟩
  · exact iff_of_true (by decide) hlt.le
  · exact iff_of_true (le_refl _) (le_refl _)
  · exact iff_of_false (by decide) (not_le.2 hlt)

theorem zero_iff (hr : FirstSign f g r) : r = 0 ↔ f = g := by
  refine ⟨?_, hr.same⟩
  rcases hr.cases with ⟨-, rfl⟩ | ⟨rfl, -⟩ | ⟨-, rfl⟩
  · exact fun h => absurd h (by decide)
  · exact fun _ => rfl
  · exact fun h => absurd h (by decide)

theorem trans (hr : FirstSign f g r) (hr' : FirstSign g h r') (hr'' : FirstSign f h r'')
    (hle : r ≤ 0) (hle' : r' ≤ 0) : r'' ≤ 0 :=
  hr''.nonpos_iff.2 ((hr.nonpos_iff.1 hle).trans (hr'.nonpos_iff.1 hle'))

end FirstSign

end BambooNet
