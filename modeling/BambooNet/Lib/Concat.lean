import Mathlib.Data.List.GetD
import Mathlib.Data.List.Basic
import Mathlib.Data.Nat.Basic

/-!
# Positions in a concatenation

Where the parts of a concatenation lie. Position `p` of `ls.flatten` is entry `i` of part `f` when
`At ls p f i`; every position is in exactly one place (`exists_at`, `At.unique`), and with no part
empty, parts are at most as far apart as their positions (`At.part_le`).
-/

namespace BambooNet.Concat

variable {α : Type*}

/-- Where part `f` starts. -/
def start (ls : List (List α)) (f : ℕ) : ℕ := (ls.take f).flatten.length

/-- The length of part `f`. -/
def len (ls : List (List α)) (f : ℕ) : ℕ := (ls.getD f []).length

/-- Position `p` is entry `i` of part `f`. -/
def At (ls : List (List α)) (p f i : ℕ) : Prop := f < ls.length ∧ i < len ls f ∧ p = start ls f + i

@[simp] theorem start_zero (ls : List (List α)) : start ls 0 = 0 := rfl

theorem start_succ {ls : List (List α)} {f : ℕ} (h : f < ls.length) :
    start ls (f + 1) = start ls f + len ls f := by
  rw [start, List.take_succ_eq_append_getElem h, List.flatten_append, List.length_append, start,
    len, List.getD_eq_getElem _ _ h]
  simp

theorem start_length (ls : List (List α)) : start ls ls.length = ls.flatten.length := by
  rw [start, List.take_length]

theorem start_mono (ls : List (List α)) {f g : ℕ} (h : f ≤ g) : start ls f ≤ start ls g := by
  obtain ⟨t, ht⟩ := List.take_prefix_take_left (l := ls) h
  rw [start, start, ← ht, List.flatten_append, List.length_append]
  exact Nat.le_add_right _ _

theorem start_le_length (ls : List (List α)) (f : ℕ) : start ls f ≤ ls.flatten.length := by
  rcases Nat.le_total f ls.length with h | h
  · exact start_length ls ▸ start_mono ls h
  · rw [start, List.take_of_length_le h]

/-- An entry of a part, read from the concatenation. -/
theorem At.getD {ls : List (List α)} {p f i : ℕ} (h : At ls p f i) (d : α) :
    ls.flatten.getD p d = (ls.getD f []).getD i d := by
  obtain ⟨hf, hi, rfl⟩ := h
  rw [len, List.getD_eq_getElem _ _ hf] at hi
  have hsplit : ls.flatten = (ls.take f).flatten ++ (ls[f] ++ (ls.drop (f + 1)).flatten) := by
    conv_lhs => rw [← List.take_append_drop f ls]
    rw [List.flatten_append, List.drop_eq_getElem_cons hf, List.flatten_cons]
  rw [hsplit, start, List.getD_eq_getElem?_getD, List.getElem?_append_right (Nat.le_add_right _ _),
    Nat.add_sub_cancel_left, List.getElem?_append_left hi, List.getD_eq_getElem _ [] hf,
    List.getD_eq_getElem?_getD]

theorem At.lt_length {ls : List (List α)} {p f i : ℕ} (h : At ls p f i) :
    p < ls.flatten.length := by
  obtain ⟨hf, hi, rfl⟩ := h
  have := start_succ hf
  have := start_le_length ls (f + 1)
  omega

theorem At.lt_start_succ {ls : List (List α)} {p f i : ℕ} (h : At ls p f i) :
    p < start ls (f + 1) := by
  obtain ⟨hf, hi, rfl⟩ := h
  rw [start_succ hf]
  omega

theorem At.start_le {ls : List (List α)} {p f i : ℕ} (h : At ls p f i) : start ls f ≤ p := by
  obtain ⟨-, -, rfl⟩ := h
  omega

/-- Every position lies in some part. -/
theorem exists_at {ls : List (List α)} {p : ℕ} (h : p < ls.flatten.length) :
    ∃ f i, At ls p f i := by
  rw [← start_length] at h
  suffices hgen : ∀ g ≤ ls.length, p < start ls g → ∃ f i, At ls p f i from
    hgen _ (le_refl _) h
  intro g
  induction g with
  | zero => intro _ hp; simp at hp
  | succ g ih =>
    intro hg hp
    by_cases hlt : p < start ls g
    · exact ih (by omega) hlt
    · rw [start_succ (by omega)] at hp
      exact ⟨g, p - start ls g, by omega, by omega, by omega⟩

/-- Later parts have later positions. -/
theorem At.lt_of_part_lt {ls : List (List α)} {p q f g i j : ℕ} (hp : At ls p f i)
    (hq : At ls q g j) (h : f < g) : p < q :=
  lt_of_lt_of_le hp.lt_start_succ (le_trans (start_mono ls h) hq.start_le)

theorem At.part_le_of_le {ls : List (List α)} {p q f g i j : ℕ} (hp : At ls p f i)
    (hq : At ls q g j) (h : p ≤ q) : f ≤ g := by
  by_contra hlt
  exact absurd (hq.lt_of_part_lt hp (not_le.1 hlt)) (not_lt.2 h)

/-- A position lies in one part only. -/
theorem At.unique {ls : List (List α)} {p f g i j : ℕ} (hp : At ls p f i) (hq : At ls p g j) :
    f = g ∧ i = j := by
  have hfg : f = g :=
    le_antisymm (hp.part_le_of_le hq (le_refl _)) (hq.part_le_of_le hp (le_refl _))
  subst hfg
  obtain ⟨-, -, h₁⟩ := hp
  obtain ⟨-, -, h₂⟩ := hq
  exact ⟨rfl, by omega⟩

/-- Nonempty parts start at least as far apart as they are counted. -/
theorem add_le_start {ls : List (List α)} (hne : ∀ f < ls.length, 0 < len ls f) {f n : ℕ}
    (h : f + n ≤ ls.length) : start ls f + n ≤ start ls (f + n) := by
  induction n with
  | zero => simp
  | succ n ih =>
    have := ih (by omega)
    have := hne (f + n) (by omega)
    rw [← Nat.add_assoc f n 1, start_succ (by omega)]
    omega

/-- With no part empty, parts are at most as far apart as their positions. -/
theorem At.part_le {ls : List (List α)} (hne : ∀ f < ls.length, 0 < len ls f) {p q f g i j : ℕ}
    (hp : At ls p f i) (hq : At ls q g j) (h : p ≤ q) : g ≤ f + (q - p) := by
  have hfg := hp.part_le_of_le hq h
  rcases Nat.eq_or_lt_of_le hfg with rfl | hlt
  · omega
  · have hg := hq.1
    have hadd := add_le_start hne (f := f + 1) (n := g - (f + 1)) (by omega)
    have hp' := hp.lt_start_succ
    have hq' := hq.start_le
    have heq : f + 1 + (g - (f + 1)) = g := by omega
    rw [heq] at hadd
    omega

end BambooNet.Concat
