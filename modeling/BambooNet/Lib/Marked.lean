import Mathlib.Data.List.Basic
import Mathlib.Data.List.TakeDrop

/-!
# Words that start with a mark

A stream of words with gaps between them. `Found ws s r` says that the words occur in `s` one after
the other and that `r` is what is left after them.

**Theorem (`not_found_drop`).** When each word starts with a mark that no gap contains, a reader who
misses the first symbol cannot find the same words: each word would be found later than it was
sent, and the last one would have to lie over its gap. A word shifted onto itself repeats its first
symbol with the period of the shift, so that the mark would be in the gap (`mark_mem_gap`).
-/

namespace BambooNet.Marked

variable {α : Type*}

/-! ## Words found in a stream -/

@[grind =] def Found : List (List α) → List α → List α → Prop
  | [], s, r => r <:+ s
  | w :: ws, s, r => ∃ u t, s = u ++ (w ++ t) ∧ Found ws t r

theorem Found.append_right {ws : List (List α)} {s r : List α} (h : Found ws s r) (c : List α) :
    Found ws (s ++ c) (r ++ c) := by
  induction ws generalizing s with
  | nil =>
    obtain ⟨u, rfl⟩ := h
    exact ⟨u, by simp⟩
  | cons w ws ih =>
    obtain ⟨u, t, rfl, ht⟩ := h
    exact ⟨u, t ++ c, by simp, ih ht⟩

theorem Found.of_suffix {ws : List (List α)} {s s' r : List α} (h : Found ws s r) (hs : s <:+ s') :
    Found ws s' r := by
  cases ws with
  | nil => exact List.IsSuffix.trans h hs
  | cons w ws =>
    obtain ⟨v, rfl⟩ := hs
    obtain ⟨u, t, rfl, ht⟩ := h
    exact ⟨v ++ u, t, by simp, ht⟩

theorem Found.trans {ws ws' : List (List α)} {s r r' : List α} (h : Found ws s r)
    (h' : Found ws' r r') : Found (ws ++ ws') s r' := by
  induction ws generalizing s with
  | nil => exact h'.of_suffix h
  | cons w ws ih =>
    obtain ⟨u, t, rfl, ht⟩ := h
    exact ⟨u, t, rfl, ih ht⟩

/-! ## Words with gaps -/

/-- Each word with the gap after it. -/
def spread (ws : List (List α × List α)) : List α := ws.flatMap fun e => e.1 ++ e.2

@[simp] theorem spread_nil : spread ([] : List (List α × List α)) = [] := rfl

@[simp] theorem spread_cons (e : List α × List α) (ws : List (List α × List α)) :
    spread (e :: ws) = e.1 ++ (e.2 ++ spread ws) := by
  simp [spread]

@[simp] theorem spread_append (ws ws' : List (List α × List α)) :
    spread (ws ++ ws') = spread ws ++ spread ws' := by
  simp [spread]

/-- A word that is found again `d` symbols later, within its gap, puts its mark into the gap. -/
theorem mark_mem_gap {a : α} {w g : List α} {d : ℕ} (hw : w.head? = some a) (hd : 0 < d)
    (hshift : w <+: (w ++ g).drop d) : a ∈ g := by
  obtain ⟨t, hshift⟩ := hshift
  have hlength : d + w.length ≤ w.length + g.length := by
    have := congrArg List.length hshift
    rw [List.length_append, List.length_drop, List.length_append] at this
    have hpos : 0 < w.length := List.length_pos_of_ne_nil (by rintro rfl; cases hw)
    omega
  have hzero : (w ++ g)[0]? = some a := by
    cases w with
    | nil => cases hw
    | cons b w => exact hw
  -- the symbol of a position in the word is found again `d` later
  have hstep (i : ℕ) (hi : i < w.length) : (w ++ g)[d + i]? = (w ++ g)[i]? := by
    rw [← List.getElem?_drop, ← hshift, List.getElem?_append_left hi, List.getElem?_append_left hi]
  have hperiod (q : ℕ) (hq : q * d < w.length + d) : (w ++ g)[q * d]? = some a := by
    induction q with
    | zero => rwa [Nat.zero_mul]
    | succ q ih =>
      have hlt : q * d < w.length := by
        rw [Nat.succ_mul] at hq
        omega
      rw [Nat.succ_mul, Nat.add_comm, hstep _ hlt, ih (by omega)]
  -- the last of these positions lies in the gap
  have hdiv := Nat.div_add_mod (w.length + d - 1) d
  have hmod := Nat.mod_lt (w.length + d - 1) hd
  have hq : (w.length + d - 1) / d * d = w.length + d - 1 - (w.length + d - 1) % d := by
    rw [Nat.mul_comm]
    omega
  have hmem := hperiod ((w.length + d - 1) / d) (by omega)
  rw [hq, List.getElem?_append_right (by omega)] at hmem
  exact List.mem_of_getElem? hmem

/-- **Without its first symbol a stream of marked words does not contain the words again.** -/
theorem not_found_drop {a : α} {ws : List (List α × List α)} (hne : ws ≠ [])
    (hmark : ∀ e ∈ ws, e.1.head? = some a ∧ a ∉ e.2) {d : ℕ} (hd : 0 < d) (r : List α) :
    ¬ Found (ws.map (·.1)) ((spread ws).drop d) r := by
  induction ws generalizing d with
  | nil => exact absurd rfl hne
  | cons e ws ih =>
    obtain ⟨w, g⟩ := e
    obtain ⟨⟨hw, hg⟩, hmark⟩ := List.forall_mem_cons.1 hmark
    rintro ⟨u, t, hfound, ht⟩
    dsimp only at hw hg hfound
    rw [spread_cons] at hfound
    -- the word lies at `o`, which is past the start of the stream
    obtain ⟨o, ho⟩ : ∃ o, o = d + u.length := ⟨_, rfl⟩
    have hdrop : (w ++ (g ++ spread ws)).drop o = w ++ t := by
      rw [ho, ← List.drop_drop, hfound, List.drop_left]
    by_cases hgap : o ≤ g.length
    · -- within the word and its gap
      refine hg (mark_mem_gap (d := o) hw (by omega) ?_)
      have htake : (w ++ g).drop o =
          ((w ++ (g ++ spread ws)).drop o).take (w.length + g.length - o) := by
        rw [← List.append_assoc, ← List.drop_take, List.take_left' List.length_append]
      rw [htake, hdrop]
      exact List.prefix_take_iff.2 ⟨List.prefix_append _ _, by omega⟩
    · -- past the gap, so that the next words are late as well
      have hlast : ws ≠ [] := by
        rintro rfl
        have := congrArg List.length hdrop
        simp only [spread_nil, List.append_nil, List.length_drop, List.length_append] at this
        have hpos : 0 < w.length := List.length_pos_of_ne_nil (by rintro rfl; cases hw)
        omega
      refine ih hlast hmark (d := o - g.length) (by omega) ?_
      have hafter : t = (spread ws).drop (o - g.length) := by
        have h := congrArg (List.drop w.length) hdrop
        rw [List.drop_left, List.drop_drop, ← List.append_assoc, List.drop_append,
          List.drop_eq_nil_of_le (by rw [List.length_append]; omega), List.nil_append,
          List.length_append] at h
        rw [← h]
        congr 1
        omega
      rw [← hafter]
      exact ht

end BambooNet.Marked
