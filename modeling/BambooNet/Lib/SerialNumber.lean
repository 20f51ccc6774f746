import Mathlib.Data.List.Chain
import Mathlib.Order.Defs.LinearOrder
import Mathlib.Tactic.Linarith

/-!
# Serial numbers

Sequence numbers of `w` bits that wrap around, compared by their signed distance. Two numbers
that stand for integers less than half the range apart compare as these integers do
(`dist_wrap`); at any other distance the comparison is meaningless.
-/

namespace BambooNet.Serial

variable {w : ℕ}

/-- Plain unsigned order, the key order of a sorted container. -/
instance instLinearOrderBitVec : LinearOrder (BitVec w) where
  le_refl := BitVec.le_refl
  le_trans _ _ _ := BitVec.le_trans
  le_antisymm _ _ := BitVec.le_antisymm
  le_total := BitVec.le_total
  lt_iff_le_not_ge a b := by rw [BitVec.lt_def, BitVec.le_def, BitVec.le_def]; omega
  toDecidableLE := inferInstance
  toDecidableEq := inferInstance
  toDecidableLT := inferInstance

/-- The signed distance from `b` to `a`. -/
def dist (a b : BitVec w) : ℤ := (a - b).toInt

/-- The number that stands for the integer `u`. -/
def wrap (w : ℕ) (u : ℤ) : BitVec w := BitVec.ofInt w u

@[simp] theorem dist_self (a : BitVec w) : dist a a = 0 := by simp [dist]

/-- **Numbers less than half the range apart are compared as the integers they stand for.** -/
theorem dist_wrap {u v : ℤ} (hl : -2 ^ w ≤ 2 * (u - v)) (hu : 2 * (u - v) < 2 ^ w) :
    dist (wrap w u) (wrap w v) = u - v := by
  have hsub : wrap w u - wrap w v = BitVec.ofInt w (u - v) := by
    apply BitVec.eq_of_toInt_eq
    simp [wrap, BitVec.toInt_sub]
  rw [dist, hsub, BitVec.toInt_ofInt, Int.bmod_eq_of_le_mul_two]
  · push_cast; linarith
  · push_cast; linarith

theorem wrap_add_one (u : ℤ) : wrap w (u + 1) = wrap w u + 1 := by
  rw [wrap, wrap, BitVec.ofInt_add]
  rfl

/-- Integers a whole range apart have the same number. -/
theorem wrap_sub_two_pow (u : ℤ) : wrap w (u - 2 ^ w) = wrap w u := by
  apply BitVec.eq_of_toInt_eq
  rw [wrap, wrap, BitVec.toInt_ofInt, BitVec.toInt_ofInt]
  have h : (2 : ℤ) ^ w = ((2 ^ w : ℕ) : ℤ) := by push_cast; rfl
  rw [h]
  exact Int.sub_bmod_right _ _

/-- Distances are opposite, the one extreme value apart. -/
theorem dist_swap {a b : BitVec w} (h : -2 ^ w < 2 * dist a b) : dist b a = -dist a b := by
  have hlt := BitVec.two_mul_toInt_lt (x := a - b)
  have hneg : b - a = -(a - b) := by
    rw [BitVec.neg_sub, BitVec.sub_eq_add_neg, BitVec.add_comm]
  rw [dist] at h ⊢
  rw [hneg, BitVec.toInt_neg, Int.bmod_eq_of_le_mul_two, dist]
  · push_cast; linarith
  · push_cast; linarith

/-- The next number is one step closer. -/
theorem dist_succ {a b : BitVec w} (hw : 1 < w) (h : 0 < dist a b) :
    dist a (b + 1) = dist a b - 1 := by
  have hone : (1 : BitVec w).toInt = 1 := by
    show (1#w).toInt = 1
    rw [BitVec.toInt_one hw]
  have hlt := BitVec.two_mul_toInt_lt (x := a - b)
  have hsub : a - (b + 1) = a - b - 1 := by
    apply BitVec.eq_of_toInt_eq
    simp [BitVec.toInt_sub, BitVec.toInt_add, Int.sub_sub]
  rw [dist] at h ⊢
  rw [hsub, BitVec.toInt_sub, hone, Int.bmod_eq_of_le_mul_two, dist]
  · push_cast; linarith
  · push_cast; linarith

theorem eq_add_wrap_dist (a b : BitVec w) : b = a + wrap w (dist b a) := by
  rw [wrap, dist, BitVec.ofInt_toInt, BitVec.add_comm, BitVec.sub_add_cancel]

/-! ## Going forward -/

/-- How far a sequence of numbers goes, step by step. -/
@[grind =] def travel : List (BitVec w) → ℤ
  | [] => 0
  | [_] => 0
  | a :: b :: l => dist b a + travel (b :: l)

/-- Where a sequence that only goes forward gets to. -/
theorem travel_of_mem {l : List (BitVec w)} {a b : BitVec w}
    (h : (a :: l).IsChain fun x y => 0 < dist y x) (hb : b ∈ l) :
    ∃ t, 0 < t ∧ t ≤ travel (a :: l) ∧ b = a + wrap w t := by
  induction l generalizing a b with
  | nil => simp at hb
  | cons c l ih =>
    obtain ⟨hac, hc⟩ := List.isChain_cons_cons.1 h
    have hpos : 0 ≤ travel (c :: l) := by
      cases l with
      | nil => exact le_refl _
      | cons d l =>
        obtain ⟨t, ht, hle, -⟩ := ih hc List.mem_cons_self
        exact ht.le.trans hle
    rcases List.mem_cons.1 hb with rfl | hb
    · exact ⟨dist b a, hac, by rw [travel]; linarith, eq_add_wrap_dist a b⟩
    · obtain ⟨t, ht, hle, heq⟩ := ih hc hb
      refine ⟨dist c a + t, by linarith, by rw [travel]; linarith, ?_⟩
      have hadd : wrap w (dist c a + t) = wrap w (dist c a) + wrap w t := by
        simp [wrap, BitVec.ofInt_add]
      rw [hadd, ← BitVec.add_assoc, ← eq_add_wrap_dist, ← heq]

/-- **A sequence that only goes forward repeats no number before it has gone all the way round.** -/
theorem nodup_of_forward {l : List (BitVec w)} (h : l.IsChain fun x y => 0 < dist y x)
    (hlt : travel l < 2 ^ w) : l.Nodup := by
  induction l with
  | nil => exact List.nodup_nil
  | cons a l ih =>
    refine List.nodup_cons.2 ⟨fun ha => ?_, ?_⟩
    · obtain ⟨t, ht, hle, heq⟩ := travel_of_mem h ha
      have hz : (wrap w t).toNat = 0 := by
        have hsub : a + wrap w t - a = wrap w t := by
          rw [BitVec.add_comm, BitVec.add_sub_cancel]
        rw [← hsub, ← heq, BitVec.sub_self, BitVec.toNat_zero]
      rw [wrap, BitVec.toNat_ofInt, Int.emod_eq_of_lt ht.le (by push_cast; linarith)] at hz
      omega
    · refine ih h.tail (lt_of_le_of_lt ?_ hlt)
      cases l with
      | nil => exact le_refl _
      | cons b l =>
        have := (List.isChain_cons_cons.1 h).1
        rw [travel]
        linarith

theorem wrap_inj {u v : ℤ} (hl : -2 ^ w ≤ 2 * (u - v)) (hu : 2 * (u - v) < 2 ^ w)
    (h : wrap w u = wrap w v) : u = v := by
  have := dist_wrap hl hu
  rw [h, dist_self] at this
  omega

end BambooNet.Serial
