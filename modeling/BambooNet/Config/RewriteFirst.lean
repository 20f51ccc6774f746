import BambooNet.Config.ConfLines

/-!
# The value of a key, and its replacement

A line with a value for a key is the text up to the value (`Assigns`), the value, and a rest that
starts where the value stops (`findKeyValue_eq_some_iff_split`). So a new value in its place is the
value afterwards (`Replaced.valueOf_eq`), and the rest of the line is as it was.
-/

namespace BambooNet.Config

open CString

variable {key c v w pre rest : Bytes}

/-- The text of a line before the value of `key`. -/
def Assigns (key pre : Bytes) : Prop :=
  ∃ k sp, 0x3d ∉ k ∧ trim k = key ∧ Blank sp ∧ pre = k ++ 0x3d :: sp

/-- A value and where it stops. -/
structure IsValue (v rest : Bytes) : Prop where
  ne_nil : v ≠ []
  char : ∀ x ∈ v, valueChar x = true
  stop : ∀ x, rest.head? = some x → valueChar x = false

theorem IsValue.takeWhile (h : IsValue v rest) : (v ++ rest).takeWhile valueChar = v := by
  rw [List.takeWhile_append_of_pos h.char]
  cases rest with
  | nil => rw [List.takeWhile_nil, List.append_nil]
  | cons x rest => rw [List.takeWhile_cons_of_neg (by simp [h.stop x rfl]), List.append_nil]

theorem IsValue.dropWhile (h : IsValue v rest) : (v ++ rest).dropWhile isSpace = v ++ rest := by
  cases v with
  | nil => exact absurd rfl h.ne_nil
  | cons x v =>
    have hx := h.char x List.mem_cons_self
    have hspace : ¬ isSpace x = true := by
      intro hx'
      rw [not_space_of_valueChar x hx'] at hx
      cases hx
    rw [List.cons_append, List.dropWhile_cons_of_neg hspace]

theorem findKeyValue_eq_some_iff_split (hkey : IsKey key) {i j : ℕ} :
    findKeyValue c key = some (i, j) ↔ ∃ pre v rest, c = pre ++ v ++ rest ∧ Assigns key pre ∧
      IsValue v rest ∧ pre.length = i ∧ i + v.length = j := by
  rw [findKeyValue_eq_some_iff hkey]
  constructor
  · rintro ⟨k, d, hcut, hk, hi, hj, hv⟩
    obtain ⟨rfl, hno⟩ := cutAt_eq_some_iff.1 hcut
    refine ⟨k ++ 0x3d :: d.takeWhile isSpace, token valueChar d,
      (d.dropWhile isSpace).dropWhile valueChar, ?_, ?_, ⟨hv, ?_, ?_⟩, ?_, hj⟩
    · rw [List.append_assoc, token, List.takeWhile_append_dropWhile, List.append_assoc,
        List.cons_append, List.takeWhile_append_dropWhile]
    · exact ⟨k, _, hno, hk, fun _ hm => List.mem_takeWhile_imp hm, rfl⟩
    · intro x hx
      exact List.mem_takeWhile_imp hx
    · intro x hx
      have hnot := List.head?_dropWhile_not valueChar (d.dropWhile isSpace)
      rw [hx] at hnot
      simpa using hnot
    · rw [List.length_append, List.length_cons, ← hi]
      omega
  · rintro ⟨pre, v, rest, rfl, ⟨k, sp, hno, hk, hsp, rfl⟩, hv, hi, hj⟩
    have hdrop : (sp ++ (v ++ rest)).dropWhile isSpace = v ++ rest := by
      rw [List.dropWhile_append_of_pos hsp, hv.dropWhile]
    have htake : (sp ++ (v ++ rest)).takeWhile isSpace = sp := by
      have h := List.takeWhile_append_dropWhile (p := isSpace) (l := sp ++ (v ++ rest))
      rw [hdrop] at h
      exact List.append_cancel_right h
    have htoken : token valueChar (sp ++ (v ++ rest)) = v := by
      rw [token, hdrop, hv.takeWhile]
    refine ⟨k, sp ++ (v ++ rest), cutAt_eq_some_iff.2 ⟨?_, hno⟩, hk, ?_, ?_, ?_⟩
    · simp
    · rw [htake, ← hi, List.length_append, List.length_cons]
      omega
    · rw [htoken]
      exact hj
    · rw [htoken]
      exact hv.ne_nil

/-- The value that a line gives to `key`. -/
def valueOf (key line : Bytes) : Option Bytes :=
  (findKeyValue line key).map fun e => (line.take e.2).drop e.1

theorem valueOf_eq_some_iff (hkey : IsKey key) :
    valueOf key c = some v ↔
      ∃ pre rest, c = pre ++ v ++ rest ∧ Assigns key pre ∧ IsValue v rest := by
  have hslice (pre v rest : Bytes) :
      ((pre ++ v ++ rest).take (pre.length + v.length)).drop pre.length = v := by
    rw [← List.length_append, List.take_left, List.drop_left]
  rw [valueOf, Option.map_eq_some_iff]
  constructor
  · rintro ⟨⟨i, j⟩, hfind, hval⟩
    obtain ⟨pre, v', rest, rfl, hpre, hv, rfl, rfl⟩ :=
      (findKeyValue_eq_some_iff_split hkey).1 hfind
    rw [hslice] at hval
    exact ⟨pre, rest, by rw [hval], hpre, hval ▸ hv⟩
  · rintro ⟨pre, rest, rfl, hpre, hv⟩
    exact ⟨(pre.length, pre.length + v.length),
      (findKeyValue_eq_some_iff_split hkey).2 ⟨pre, v, rest, rfl, hpre, hv, rfl, rfl⟩,
      hslice pre v rest⟩

theorem keyOf_of_valueOf (hkey : IsKey key) (h : valueOf key c = some v) :
    keyOf c = some key := by
  obtain ⟨e, he, -⟩ := Option.map_eq_some_iff.1 h
  exact keyOf_of_findKeyValue hkey he

theorem valueOf_append_blank (hkey : IsKey key) (c : Bytes) {ws : Bytes} (hws : Blank ws) :
    valueOf key (c ++ ws) = valueOf key c := by
  rw [valueOf, findKeyValue_append_blank hkey c hws, valueOf]
  cases hfind : findKeyValue c key with
  | none => rfl
  | some e =>
    obtain ⟨i, j⟩ := e
    obtain ⟨pre, v, rest, rfl, -, -, rfl, rfl⟩ := (findKeyValue_eq_some_iff_split hkey).1 hfind
    have hle : pre.length + v.length ≤ (pre ++ v ++ rest).length := by
      rw [List.length_append, List.length_append]
      omega
    rw [Option.map_some, Option.map_some, List.take_append_of_le_length hle]

theorem valueOf_stripEol (hkey : IsKey key) (line : Bytes) :
    valueOf key (stripEol line) = valueOf key line := by
  obtain ⟨ws, hws, hline⟩ := exists_stripEol line
  rw [← valueOf_append_blank hkey _ hws, hline]

/-! ## Replacement -/

/-- `l'` is `l` with the value `w` for `key`. -/
def Replaced (key w l l' : Bytes) : Prop :=
  ∃ pre v rest, l = pre ++ v ++ rest ∧ l' = pre ++ w ++ rest ∧ Assigns key pre ∧ IsValue v rest

namespace Replaced

variable {l l' : Bytes}

theorem valueOf_eq (hkey : IsKey key) (hne : w ≠ []) (hw : ∀ x ∈ w, valueChar x = true)
    (h : Replaced key w l l') : valueOf key l' = some w := by
  obtain ⟨pre, v, rest, -, rfl, hpre, hv⟩ := h
  exact (valueOf_eq_some_iff hkey).2 ⟨pre, rest, rfl, hpre, hne, hw, hv.stop⟩

theorem newline_notMem (hw : newline ∉ w) (h : Replaced key w l l') (hl : newline ∉ l) :
    newline ∉ l' ∧ l' ≠ [] := by
  obtain ⟨pre, v, rest, rfl, rfl, ⟨k, sp, -, -, -, rfl⟩, -⟩ := h
  simp only [List.mem_append, not_or] at hl ⊢
  exact ⟨⟨⟨hl.1.1, hw⟩, hl.2⟩, by simp⟩

theorem ended (hw : newline ∉ w) (h : Replaced key w l l') (hl : Ended newline l) :
    Ended newline l' := by
  obtain ⟨b, hb, rfl⟩ := hl
  obtain ⟨pre, v, rest, heq, rfl, -, hv⟩ := h
  -- the end of the line is in the rest, since the value has no newline
  cases rest using List.reverseRecOn with
  | nil =>
    exfalso
    have hlast : (pre ++ v ++ []).getLast? = some newline := by
      rw [← heq]
      exact List.getLast?_concat
    rw [List.append_nil, List.getLast?_append_of_ne_nil _ hv.ne_nil] at hlast
    have := hv.char _ (List.mem_of_getLast? hlast)
    revert this
    decide
  | append_singleton rest x _ =>
    rw [← List.append_assoc] at heq
    obtain ⟨rfl, hx⟩ := List.append_inj' heq rfl
    obtain rfl := List.head_eq_of_cons_eq hx
    simp only [List.mem_append, not_or] at hb
    refine ⟨pre ++ w ++ rest, ?_, by rw [← List.append_assoc]⟩
    simp only [List.mem_append, not_or]
    exact ⟨⟨hb.1.1, hw⟩, hb.2⟩

end Replaced

/-! ## The scan for the first line -/

variable {f : Bytes → Option Bytes} {ls tail : List Bytes}

theorem findKeyValue_eq_none (h : valueOf key c = none) : findKeyValue c key = none :=
  Option.map_eq_none_iff.1 h

theorem rewriteFirst_cons_none (hkey : IsKey key) (h : valueOf key c = none) :
    rewriteFirst key f (c :: ls) =
      (rewriteFirst key f ls).map fun r => (c :: r.1, r.2) := by
  rw [rewriteFirst, findKeyValue_stripEol hkey, findKeyValue_eq_none h]

theorem rewriteFirst_cons_some (hkey : IsKey key) (h : valueOf key c = some v) :
    f v = none ∧ rewriteFirst key f (c :: ls) = some (c :: ls, false) ∨
      ∃ w c', f v = some w ∧ Replaced key w c c' ∧
        rewriteFirst key f (c :: ls) = some (c' :: ls, true) := by
  have hslice := valueOf_stripEol hkey c
  rw [h, valueOf, findKeyValue_stripEol hkey] at hslice
  obtain ⟨⟨i, j⟩, hfind, hval⟩ := Option.map_eq_some_iff.1 hslice
  dsimp only at hval
  rw [rewriteFirst, findKeyValue_stripEol hkey, hfind]
  dsimp only
  rw [hval]
  cases hf : f v with
  | none => exact .inl ⟨rfl, rfl⟩
  | some w =>
    obtain ⟨pre, v', rest, rfl, hpre, hv, rfl, rfl⟩ :=
      (findKeyValue_eq_some_iff_split hkey).1 hfind
    refine .inr ⟨w, pre ++ w ++ rest, rfl, ⟨pre, v', rest, rfl, rfl, hpre, hv⟩, ?_⟩
    dsimp only
    rw [List.append_assoc pre v', List.take_left, ← List.append_assoc, ← List.length_append,
      List.drop_left]

/-- Lines without the key, behind the others, are not looked at. -/
theorem rewriteFirst_append (hkey : IsKey key) (h : ∀ l ∈ tail, valueOf key l = none)
    (ls : List Bytes) :
    rewriteFirst key f (ls ++ tail) =
      (rewriteFirst key f ls).map fun r => (r.1 ++ tail, r.2) := by
  induction ls with
  | nil =>
    rw [List.nil_append, rewriteFirst, Option.map_none]
    induction tail with
    | nil => rfl
    | cons l tail ih =>
      rw [rewriteFirst_cons_none hkey (h l List.mem_cons_self),
        ih fun l' hl' => h l' (List.mem_cons_of_mem _ hl'), Option.map_none]
  | cons l ls ih =>
    rw [List.cons_append, rewriteFirst, rewriteFirst]
    cases findKeyValue (stripEol l) key with
    | none =>
      dsimp only
      rw [ih, Option.map_map, Option.map_map]
      rfl
    | some e =>
      obtain ⟨i, j⟩ := e
      dsimp only
      cases f (((stripEol l).take j).drop i) with
      | none => rfl
      | some w => rfl

/-- What the scan does: nothing to find, or the first line of the key kept or replaced. -/
theorem rewriteFirst_cases (hkey : IsKey key) (f : Bytes → Option Bytes) (ls : List Bytes) :
    (∀ l ∈ ls, valueOf key l = none) ∧ rewriteFirst key f ls = none ∨
      ∃ a l b v, ls = a ++ l :: b ∧ (∀ x ∈ a, valueOf key x = none) ∧ valueOf key l = some v ∧
        (f v = none ∧ rewriteFirst key f ls = some (ls, false) ∨
          ∃ w l', f v = some w ∧ Replaced key w l l' ∧
            rewriteFirst key f ls = some (a ++ l' :: b, true)) := by
  induction ls with
  | nil => exact .inl ⟨List.forall_mem_nil _, rfl⟩
  | cons l ls ih =>
    cases hval : valueOf key l with
    | some v =>
      refine .inr ⟨[], l, ls, v, rfl, List.forall_mem_nil _, hval, ?_⟩
      exact rewriteFirst_cons_some hkey hval
    | none =>
      rw [rewriteFirst_cons_none hkey hval]
      rcases ih with ⟨hnone, hrw⟩ | ⟨a, x, b, v, rfl, ha, hx, hrw⟩
      · exact .inl ⟨List.forall_mem_cons.2 ⟨hval, hnone⟩, by rw [hrw, Option.map_none]⟩
      · refine .inr ⟨l :: a, x, b, v, rfl, List.forall_mem_cons.2 ⟨hval, ha⟩, hx, ?_⟩
        rcases hrw with ⟨hf, hrw⟩ | ⟨w, x', hf, hrep, hrw⟩
        · exact .inl ⟨hf, by rw [hrw]; rfl⟩
        · exact .inr ⟨w, x', hf, hrep, by rw [hrw]; rfl⟩

theorem valueOf_of_rewriteFirst_none (hkey : IsKey key) (h : rewriteFirst key f ls = none) :
    ∀ l ∈ ls, valueOf key l = none := by
  rcases rewriteFirst_cases hkey f ls with
    ⟨hnone, -⟩ | ⟨a, l, b, v, -, -, -, ⟨-, hrw⟩ | ⟨w, l', -, -, hrw⟩⟩
  · exact hnone
  · rw [h] at hrw
    cases hrw
  · rw [h] at hrw
    cases hrw

/-- Where nothing is replaced, the lines are the same. -/
theorem eq_of_rewriteFirst_false (hkey : IsKey key) {ls' : List Bytes}
    (h : rewriteFirst key f ls = some (ls', false)) : ls' = ls := by
  rcases rewriteFirst_cases hkey f ls with
    ⟨-, hrw⟩ | ⟨a, l, b, v, -, -, -, ⟨-, hrw⟩ | ⟨w, l', -, -, hrw⟩⟩
  · rw [h] at hrw
    cases hrw
  · rw [h] at hrw
    exact (Prod.mk.inj (Option.some.inj hrw)).1
  · rw [h] at hrw
    exact absurd (Prod.mk.inj (Option.some.inj hrw)).2 (by decide)

end BambooNet.Config
