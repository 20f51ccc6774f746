import Mathlib.Data.List.Basic

/-!
# Chunks of a fixed length

A list cut into whole chunks of `k` elements and a rest. `whole_append_of_lt` and
`whole_append_of_eq` say what becomes of both when elements are appended, so that a chunker that is
fed piece by piece can be followed.
-/

namespace BambooNet

variable {α : Type*} {k : ℕ}

/-- The `i`-th chunk of `k` elements. -/
def chunkAt (k : ℕ) (xs : List α) (i : ℕ) : List α := (xs.drop (i * k)).take k

/-- The whole chunks. -/
def wholeChunks (k : ℕ) (xs : List α) : List (List α) :=
  (List.range (xs.length / k)).map (chunkAt k xs)

/-- What is left after the whole chunks. -/
def chunkRest (k : ℕ) (xs : List α) : List α := xs.drop (xs.length / k * k)

theorem length_chunkRest (xs : List α) : (chunkRest k xs).length = xs.length % k := by
  have := Nat.div_add_mod' xs.length k
  rw [chunkRest, List.length_drop]
  omega

theorem length_chunkAt {xs : List α} {i : ℕ} (h : (i + 1) * k ≤ xs.length) :
    (chunkAt k xs i).length = k := by
  rw [Nat.succ_mul] at h
  rw [chunkAt, List.length_take, List.length_drop]
  omega

theorem flatMap_chunkAt (xs : List α) (n : ℕ) :
    (List.range n).flatMap (chunkAt k xs) = xs.take (n * k) := by
  induction n with
  | zero => simp
  | succ n ih =>
    rw [List.range_succ, List.flatMap_append, ih, Nat.succ_mul, List.take_add]
    simp [chunkAt]

/-- The whole chunks and the rest are the list. -/
theorem flatten_wholeChunks (xs : List α) : (wholeChunks k xs).flatten ++ chunkRest k xs = xs := by
  rw [wholeChunks, ← List.flatMap_def, flatMap_chunkAt, chunkRest, List.take_append_drop]

/-- A chunk that is there does not depend on what follows. -/
theorem chunkAt_append {xs : List α} {i : ℕ} (h : (i + 1) * k ≤ xs.length) (ys : List α) :
    chunkAt k (xs ++ ys) i = chunkAt k xs i := by
  rw [Nat.succ_mul] at h
  rw [chunkAt, chunkAt, List.drop_append_of_le_length (by omega),
    List.take_append_of_le_length (by rw [List.length_drop]; omega)]

theorem map_chunkAt_append (xs ys : List α) :
    (List.range (xs.length / k)).map (chunkAt k (xs ++ ys)) = wholeChunks k xs := by
  refine List.map_congr_left fun i hi => chunkAt_append ?_ ys
  have hi' : i + 1 ≤ xs.length / k := List.mem_range.mp hi
  exact Nat.le_trans (Nat.mul_le_mul_right k hi') (Nat.div_mul_le_self _ _)

/-- Elements that do not fill a chunk go to the rest. -/
theorem whole_append_of_lt {xs ys : List α} (h : (chunkRest k xs).length + ys.length < k) :
    wholeChunks k (xs ++ ys) = wholeChunks k xs ∧
      chunkRest k (xs ++ ys) = chunkRest k xs ++ ys := by
  rw [length_chunkRest] at h
  have hdiv : (xs ++ ys).length / k = xs.length / k := by
    have hsum : (xs ++ ys).length = xs.length % k + ys.length + xs.length / k * k := by
      have := Nat.div_add_mod' xs.length k
      rw [List.length_append]
      omega
    rw [hsum, Nat.add_mul_div_right _ _ (by omega), Nat.div_eq_of_lt h, Nat.zero_add]
  refine ⟨by rw [wholeChunks, hdiv, map_chunkAt_append], ?_⟩
  rw [chunkRest, hdiv, chunkRest, List.drop_append_of_le_length (Nat.div_mul_le_self _ _)]

/-- Elements that complete the rest make it the next chunk. -/
theorem whole_append_of_eq {xs ys : List α} (hk : 0 < k)
    (h : (chunkRest k xs).length + ys.length = k) :
    wholeChunks k (xs ++ ys) = wholeChunks k xs ++ [chunkRest k xs ++ ys] ∧
      chunkRest k (xs ++ ys) = [] := by
  rw [length_chunkRest] at h
  have hlen : (xs ++ ys).length = (xs.length / k + 1) * k := by
    have := Nat.div_add_mod' xs.length k
    rw [List.length_append, Nat.succ_mul]
    omega
  have hdiv : (xs ++ ys).length / k = xs.length / k + 1 := by rw [hlen, Nat.mul_div_cancel _ hk]
  have hlast : chunkAt k (xs ++ ys) (xs.length / k) = chunkRest k xs ++ ys := by
    rw [chunkAt, List.drop_append_of_le_length (Nat.div_mul_le_self _ _), List.take_of_length_le]
    · rfl
    · rw [List.length_append, ← chunkRest, length_chunkRest]
      omega
  refine ⟨?_, List.drop_eq_nil_of_le (Nat.le_of_eq (by rw [hdiv, hlen]))⟩
  rw [wholeChunks, hdiv, List.range_succ, List.map_append, map_chunkAt_append, List.map_singleton,
    hlast]

end BambooNet
