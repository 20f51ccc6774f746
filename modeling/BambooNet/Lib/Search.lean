import Mathlib.Data.List.Infix

/-!
# Searching a text

`findFirst needle` cuts a text at the first occurrence of `needle`. An occurrence in a text of two
parts lies in one of them unless it straddles the cut (`findFirst_append`), so that a part without
an occurrence can be replaced.
-/

namespace BambooNet

variable {α : Type*} [DecidableEq α]

/-- The text before the first occurrence of `needle`, and the text after it. -/
def findFirst (needle : List α) : List α → Option (List α × List α)
  | [] => if needle = [] then some ([], []) else none
  | c :: text =>
    if needle <+: c :: text then some ([], (c :: text).drop needle.length)
    else (findFirst needle text).map fun r => (c :: r.1, r.2)

/-- The text after the last occurrence of `needle`. -/
@[grind =] def afterLast (needle : List α) : List α → Option (List α)
  | [] => if needle = [] then some [] else none
  | c :: text =>
    match afterLast needle text with
    | some rest => some rest
    | none => if needle <+: c :: text then some ((c :: text).drop needle.length) else none

variable {n p q : List α}

/-- The text is cut at an occurrence. -/
theorem eq_of_findFirst {a b : List α} (h : findFirst n p = some (a, b)) : p = a ++ n ++ b := by
  induction p generalizing a with
  | nil =>
    rw [findFirst] at h
    split at h
    · next hn =>
      obtain ⟨rfl, rfl⟩ := Prod.mk.inj (Option.some.inj h)
      rw [hn]
      rfl
    · cases h
  | cons c p ih =>
    rw [findFirst] at h
    split at h
    · next hpre =>
      obtain ⟨rfl, rfl⟩ := Prod.mk.inj (Option.some.inj h)
      exact (List.prefix_iff_eq_append.1 hpre).symm
    · obtain ⟨r, hr, heq⟩ := Option.map_eq_some_iff.1 h
      obtain ⟨rfl, rfl⟩ := Prod.mk.inj heq
      rw [List.cons_append, List.cons_append, ← ih hr]

theorem length_of_findFirst {a b : List α} (h : findFirst n p = some (a, b)) :
    n.length + b.length ≤ p.length := by
  rw [eq_of_findFirst h, List.length_append, List.length_append]
  omega

/-- No occurrence lies before the first one. -/
theorem findFirst_left {a b : List α} (hn : n ≠ []) (h : findFirst n p = some (a, b)) :
    findFirst n a = none := by
  induction p generalizing a with
  | nil =>
    rw [findFirst, if_neg hn] at h
    cases h
  | cons c p ih =>
    rw [findFirst] at h
    split at h
    · obtain ⟨rfl, -⟩ := Prod.mk.inj (Option.some.inj h)
      rw [findFirst, if_neg hn]
    · next hpre =>
      obtain ⟨r, hr, heq⟩ := Option.map_eq_some_iff.1 h
      obtain ⟨rfl, rfl⟩ := Prod.mk.inj heq
      have hsub : c :: r.1 <+: c :: p := by
        rw [eq_of_findFirst hr, List.append_assoc]
        exact List.prefix_append (c :: r.1) _
      rw [findFirst, if_neg fun hc => hpre (hc.trans hsub), ih hr]
      rfl

theorem findFirst_here (hn : n ≠ []) (q : List α) : findFirst n (n ++ q) = some ([], q) := by
  obtain ⟨c, n, rfl⟩ := List.exists_cons_of_ne_nil hn
  have hpre : c :: n <+: c :: (n ++ q) := List.prefix_append (c :: n) q
  rw [List.cons_append, findFirst, if_pos hpre, ← List.cons_append, List.drop_left]

theorem findFirst_eq_none (h : ¬ n <:+: p) : findFirst n p = none := by
  cases hfind : findFirst n p with
  | none => rfl
  | some r => exact absurd ⟨r.1, r.2, (eq_of_findFirst hfind).symm⟩ h

theorem findFirst_eq_none_of_mem {c : α} (hc : c ∈ n) (h : c ∉ p) : findFirst n p = none :=
  findFirst_eq_none fun hin => h (hin.subset hc)

theorem findFirst_byte_eq_none {c : α} (h : c ∉ p) : findFirst [c] p = none :=
  findFirst_eq_none_of_mem List.mem_cons_self h

theorem findFirst_byte {c : α} (h : c ∉ p) (q : List α) :
    findFirst [c] (p ++ c :: q) = some (p, q) := by
  induction p with
  | nil => exact findFirst_here (List.cons_ne_nil c []) q
  | cons d p ih =>
    obtain ⟨hd, hp⟩ := not_or.1 (mt List.mem_cons.2 h)
    have hmiss : ¬ [c] <+: d :: (p ++ c :: q) := fun hpre => hd (List.cons_prefix_cons.1 hpre).1
    rw [List.cons_append, findFirst, if_neg hmiss, ih hp]
    rfl

/-- An occurrence across the cut between two parts. -/
def Straddles (n p q : List α) : Prop :=
  ∃ n₁ n₂, n₁ ≠ [] ∧ n₂ ≠ [] ∧ n = n₁ ++ n₂ ∧ n₁ <:+ p ∧ n₂ <+: q

omit [DecidableEq α] in
theorem not_straddles_head {c : α} (hc : c ∉ n.tail) : ¬ Straddles n p (c :: q) := by
  rintro ⟨n₁, n₂, hn₁, hn₂, rfl, -, hpre⟩
  obtain ⟨d, n₁, rfl⟩ := List.exists_cons_of_ne_nil hn₁
  obtain ⟨e, n₂, rfl⟩ := List.exists_cons_of_ne_nil hn₂
  obtain ⟨rfl, -⟩ := List.cons_prefix_cons.1 hpre
  exact hc (List.mem_append_right _ List.mem_cons_self)

omit [DecidableEq α] in
theorem not_straddles_last {c : α} (hc : c ∉ n) : ¬ Straddles n (p ++ [c]) q := by
  rintro ⟨n₁, n₂, hn₁, -, rfl, hsuf, -⟩
  obtain ⟨t, ht⟩ := hsuf
  rw [← List.dropLast_append_getLast hn₁, ← List.append_assoc] at ht
  obtain ⟨-, hd⟩ := List.append_inj' ht rfl
  rw [← List.singleton_inj.1 hd] at hc
  exact hc (List.mem_append_left _ (List.getLast_mem hn₁))

omit [DecidableEq α] in
/-- A needle none of whose ends is a beginning does not start in the text before it. -/
theorem not_straddles_self (h : ∀ k < n.length, 0 < k → ¬ n.drop k <+: n) (p q : List α) :
    ¬ Straddles n p (n ++ q) := by
  rintro ⟨n₁, n₂, hn₁, hn₂, rfl, -, hpre⟩
  have hlen₁ := List.length_pos_iff.2 hn₁
  have hlen₂ := List.length_pos_iff.2 hn₂
  refine h n₁.length (by rw [List.length_append]; omega) hlen₁ ?_
  rw [List.drop_left]
  exact List.prefix_of_prefix_length_le hpre (List.prefix_append _ q)
    (by rw [List.length_append]; omega)

omit [DecidableEq α] in
theorem prefix_append_iff (hp : p ≠ []) (h : ¬ Straddles n p q) : n <+: p ++ q ↔ n <+: p := by
  constructor
  · rintro ⟨t, ht⟩
    rcases List.append_eq_append_iff.1 ht with ⟨r, hr, -⟩ | ⟨n₂, heq, hq⟩
    · exact ⟨r, hr.symm⟩
    · by_cases hnil : n₂ = []
      · rw [heq, hnil, List.append_nil]
      · exact absurd ⟨p, n₂, hp, hnil, heq, List.suffix_refl _, ⟨t, hq.symm⟩⟩ h
  · intro hpre
    exact hpre.trans (List.prefix_append p q)

/-- **The first occurrence in two parts** is the first one of the first part, else that of the
second part. -/
theorem findFirst_append (hn : n ≠ []) (h : ¬ Straddles n p q) :
    findFirst n (p ++ q) = ((findFirst n p).map fun r => (r.1, r.2 ++ q)).or
      ((findFirst n q).map fun r => (p ++ r.1, r.2)) := by
  induction p with
  | nil =>
    rw [List.nil_append, findFirst, if_neg hn]
    cases findFirst n q with
    | none => rfl
    | some r => rfl
  | cons c p ih =>
    have hrest : ¬ Straddles n p q := by
      rintro ⟨n₁, n₂, hn₁, hn₂, heq, hsuf, hpre⟩
      exact h ⟨n₁, n₂, hn₁, hn₂, heq, hsuf.trans (List.suffix_cons c p), hpre⟩
    have hhere : n <+: c :: (p ++ q) ↔ n <+: c :: p := by
      rw [← List.cons_append]
      exact prefix_append_iff (List.cons_ne_nil c p) h
    rw [List.cons_append, findFirst, findFirst, ih hrest]
    by_cases hp : n <+: c :: p
    · have hlen := hp.length_le
      rw [if_pos (hhere.2 hp), if_pos hp, ← List.cons_append, List.drop_append_of_le_length hlen]
      rfl
    · rw [if_neg (mt hhere.1 hp), if_neg hp]
      cases findFirst n p with
      | some r => rfl
      | none =>
        cases findFirst n q with
        | none => rfl
        | some r => rfl

end BambooNet
