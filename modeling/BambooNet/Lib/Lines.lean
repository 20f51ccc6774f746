import Mathlib.Data.List.Basic

/-!
# Lines of a text

A text is cut at a delimiter, and the last piece may lack it. `splitLines_unlines` reads back what
`unlines` wrote, and a line stays a line when lines are written before or after it
(`mem_splitLines_unlines`). `cutAt` cuts once.
-/

namespace BambooNet

variable {α : Type*} [DecidableEq α] {d : α}

/-- The pieces of a text, as `getline` reads them. -/
@[grind =] def splitLines (d : α) : List α → List (List α)
  | [] => []
  | c :: t =>
    if c = d then [] :: splitLines d t
    else
      match splitLines d t with
      | [] => [[c]]
      | l :: ls => (c :: l) :: ls

/-- What stands before and after the first delimiter. -/
def cutAt (d : α) : List α → Option (List α × List α)
  | [] => none
  | c :: t => if c = d then some ([], t) else (cutAt d t).map fun e => (c :: e.1, e.2)

/-- Every line with its delimiter. -/
def unlines (d : α) (ls : List (List α)) : List α := ls.flatMap (· ++ [d])

omit [DecidableEq α] in
@[simp] theorem unlines_cons (l : List α) (ls : List (List α)) :
    unlines d (l :: ls) = l ++ d :: unlines d ls := by
  simp [unlines]

omit [DecidableEq α] in
@[simp] theorem unlines_append (ls ls' : List (List α)) :
    unlines d (ls ++ ls') = unlines d ls ++ unlines d ls' :=
  List.flatMap_append

theorem splitLines_line {l : List α} (h : d ∉ l) (t : List α) :
    splitLines d (l ++ d :: t) = l :: splitLines d t := by
  induction l with
  | nil => simp [splitLines]
  | cons c l ih =>
    have hc : c ≠ d := fun heq => h (heq ▸ List.mem_cons_self)
    rw [List.cons_append, splitLines, if_neg hc, ih fun hd => h (List.mem_cons_of_mem _ hd)]

theorem splitLines_unlines {ls : List (List α)} (h : ∀ l ∈ ls, d ∉ l) :
    splitLines d (unlines d ls) = ls := by
  induction ls with
  | nil => rfl
  | cons l ls ih =>
    rw [unlines_cons, splitLines_line (h l List.mem_cons_self),
      ih fun l' hl' => h l' (List.mem_cons_of_mem _ hl')]

theorem splitLines_append (t u : List α) :
    splitLines d (t ++ d :: u) = splitLines d (t ++ [d]) ++ splitLines d u := by
  induction t with
  | nil => simp [splitLines]
  | cons c t ih =>
    by_cases hc : c = d
    · simp [splitLines, hc, ih]
    · rw [List.cons_append, List.cons_append, splitLines, splitLines, if_neg hc, if_neg hc, ih]
      -- what ends in the delimiter has a first line
      cases hsplit : splitLines d (t ++ [d]) with
      | nil =>
        cases t with
        | nil => simp [splitLines] at hsplit
        | cons a t =>
          rw [List.cons_append, splitLines] at hsplit
          split at hsplit
          · cases hsplit
          · split at hsplit <;> cases hsplit
      | cons l ls => rfl

theorem mem_splitLines_unlines {l : List α} {ls : List (List α)} (hl : l ∈ ls) (hd : d ∉ l) :
    l ∈ splitLines d (unlines d ls) := by
  induction ls with
  | nil => cases hl
  | cons l' ls ih =>
    rw [unlines_cons]
    rcases List.mem_cons.1 hl with rfl | hl
    · rw [splitLines_line hd]
      exact List.mem_cons_self
    · rw [splitLines_append]
      exact List.mem_append_right _ (ih hl)

theorem not_mem_of_mem_splitLines {t l : List α} (h : l ∈ splitLines d t) : d ∉ l := by
  induction t generalizing l with
  | nil => cases h
  | cons c t ih =>
    rw [splitLines] at h
    split at h
    · rcases List.mem_cons.1 h with rfl | h
      · exact List.not_mem_nil
      · exact ih h
    · next hc =>
      split at h
      · rw [List.mem_singleton.1 h, List.mem_singleton]
        exact Ne.symm hc
      · next l' ls heq =>
        rw [heq] at ih
        rcases List.mem_cons.1 h with rfl | h
        · exact List.not_mem_cons_of_ne_of_not_mem (Ne.symm hc) (ih List.mem_cons_self)
        · exact ih (List.mem_cons_of_mem _ h)

theorem cutAt_eq_none_iff {t : List α} : cutAt d t = none ↔ d ∉ t := by
  induction t with
  | nil => simp [cutAt]
  | cons c t ih =>
    by_cases hc : c = d
    · simp [cutAt, hc]
    · simp [cutAt, hc, ih, Ne.symm hc]

theorem cutAt_eq_some_iff {t a b : List α} :
    cutAt d t = some (a, b) ↔ t = a ++ d :: b ∧ d ∉ a := by
  induction t generalizing a with
  | nil => simp [cutAt]
  | cons c t ih =>
    rw [cutAt]
    split
    · next hc =>
      subst hc
      cases a with
      | nil => simp
      | cons c' a =>
        constructor
        · intro h
          cases h
        · rintro ⟨h, hnot⟩
          exact absurd (List.mem_cons.2 (.inl (List.cons.inj h).1)) hnot
    · next hc =>
      cases a with
      | nil => simp [hc]
      | cons c' a =>
        rw [Option.map_eq_some_iff]
        constructor
        · rintro ⟨⟨a', b'⟩, h, heq⟩
          cases heq
          obtain ⟨rfl, hnot⟩ := ih.1 h
          exact ⟨rfl, List.not_mem_cons_of_ne_of_not_mem (Ne.symm hc) hnot⟩
        · rintro ⟨h, hnot⟩
          obtain ⟨rfl, rfl⟩ := List.cons.inj h
          exact ⟨(a, b), ih.2 ⟨rfl, fun hm => hnot (List.mem_cons_of_mem _ hm)⟩, rfl⟩

omit [DecidableEq α] in
/-- Texts that start differently. -/
theorem append_ne_append {a b : List α} (hab : ¬ a <+: b) (hba : ¬ b <+: a) (x y : List α) :
    a ++ x ≠ b ++ y := by
  intro h
  have ha : a <+: b ++ y := h ▸ List.prefix_append a x
  rcases List.prefix_or_prefix_of_prefix ha (List.prefix_append b y) with h | h
  · exact hab h
  · exact hba h

/-- The first delimiter is in one place. -/
theorem append_cons_inj {a a' b b' : List α} (ha : d ∉ a) (ha' : d ∉ a')
    (h : a ++ d :: b = a' ++ d :: b') : a = a' ∧ b = b' := by
  have hcut : cutAt d (a ++ d :: b) = some (a, b) := cutAt_eq_some_iff.2 ⟨rfl, ha⟩
  rw [h, cutAt_eq_some_iff.2 ⟨rfl, ha'⟩] at hcut
  cases hcut
  exact ⟨rfl, rfl⟩

end BambooNet
