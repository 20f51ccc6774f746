import BambooNet.Lib.Lines

/-!
# Lines with their ends

A text is also cut into lines that keep their delimiter, the last of which may lack it (`Pieces`).
Joined, they are the text (`flatten_keepEnds`), and any pieces are the ones of what they join to
(`Pieces.keepEnds_flatten`). Without the delimiters they are the lines of `splitLines`
(`splitLines_flatten`).
-/

namespace BambooNet

variable {α : Type*} [DecidableEq α] {d : α}

/-- The pieces of a text, each with its delimiter. -/
def keepEnds (d : α) : List α → List (List α)
  | [] => []
  | c :: t =>
    if c = d then [d] :: keepEnds d t
    else
      match keepEnds d t with
      | [] => [[c]]
      | l :: ls => (c :: l) :: ls

/-- A line with its end. -/
def Ended (d : α) (l : List α) : Prop := ∃ b, d ∉ b ∧ l = b ++ [d]

/-- Lines with their ends, and perhaps one without. -/
inductive Pieces (d : α) : List (List α) → Prop
  | nil : Pieces d []
  | last {b : List α} : d ∉ b → b ≠ [] → Pieces d [b]
  | line {l : List α} {ls : List (List α)} : Ended d l → Pieces d ls → Pieces d (l :: ls)

/-- A line without its end. -/
def body (d : α) (l : List α) : List α := l.takeWhile (· ≠ d)

theorem body_of_notMem {l : List α} (h : d ∉ l) : body d l = l := by
  induction l with
  | nil => rfl
  | cons c l ih =>
    have hc : c ≠ d := fun heq => h (heq ▸ List.mem_cons_self)
    rw [body, List.takeWhile_cons_of_pos (by simpa using hc), ← body,
      ih fun hd => h (List.mem_cons_of_mem _ hd)]

theorem body_concat {b : List α} (h : d ∉ b) : body d (b ++ [d]) = b := by
  rw [body, List.takeWhile_append_of_pos, List.takeWhile_cons_of_neg, List.append_nil]
  · simp
  · intro c hc
    have hne : c ≠ d := fun heq => h (heq ▸ hc)
    simpa using hne

theorem flatten_keepEnds (t : List α) : (keepEnds d t).flatten = t := by
  induction t with
  | nil => rfl
  | cons c t ih =>
    rw [keepEnds]
    split
    · next hc => rw [List.flatten_cons, ih, hc, List.singleton_append]
    · cases hsplit : keepEnds d t with
      | nil =>
        rw [hsplit] at ih
        rw [← ih]
        rfl
      | cons l ls =>
        rw [hsplit] at ih
        rw [← ih]
        rfl

theorem pieces_keepEnds (t : List α) : Pieces d (keepEnds d t) := by
  induction t with
  | nil => exact .nil
  | cons c t ih =>
    rw [keepEnds]
    split
    · exact .line ⟨[], List.not_mem_nil, rfl⟩ ih
    · next hc =>
      cases hsplit : keepEnds d t with
      | nil => exact .last (by simpa using Ne.symm hc) (List.cons_ne_nil _ _)
      | cons l ls =>
        rw [hsplit] at ih
        cases ih with
        | last hb hne =>
          exact .last (List.not_mem_cons_of_ne_of_not_mem (Ne.symm hc) hb) (List.cons_ne_nil _ _)
        | line hl hls =>
          obtain ⟨b, hb, rfl⟩ := hl
          exact .line ⟨c :: b, List.not_mem_cons_of_ne_of_not_mem (Ne.symm hc) hb, rfl⟩ hls

theorem keepEnds_line {b : List α} (h : d ∉ b) (t : List α) :
    keepEnds d (b ++ d :: t) = (b ++ [d]) :: keepEnds d t := by
  induction b with
  | nil => simp [keepEnds]
  | cons c b ih =>
    have hc : c ≠ d := fun heq => h (heq ▸ List.mem_cons_self)
    rw [List.cons_append, keepEnds, if_neg hc, ih fun hd => h (List.mem_cons_of_mem _ hd)]
    rfl

theorem splitLines_last {b : List α} (h : d ∉ b) (hne : b ≠ []) : splitLines d b = [b] := by
  induction b with
  | nil => exact absurd rfl hne
  | cons c b ih =>
    have hc : c ≠ d := fun heq => h (heq ▸ List.mem_cons_self)
    rw [splitLines, if_neg hc]
    cases b with
    | nil => rfl
    | cons c' b => rw [ih (fun hd => h (List.mem_cons_of_mem _ hd)) (List.cons_ne_nil _ _)]

theorem keepEnds_last {b : List α} (h : d ∉ b) (hne : b ≠ []) : keepEnds d b = [b] := by
  induction b with
  | nil => exact absurd rfl hne
  | cons c b ih =>
    have hc : c ≠ d := fun heq => h (heq ▸ List.mem_cons_self)
    rw [keepEnds, if_neg hc]
    cases b with
    | nil => rfl
    | cons c' b => rw [ih (fun hd => h (List.mem_cons_of_mem _ hd)) (List.cons_ne_nil _ _)]

theorem Ended.keepEnds_append {l : List α} (h : Ended d l) (t : List α) :
    keepEnds d (l ++ t) = l :: keepEnds d t := by
  obtain ⟨b, hb, rfl⟩ := h
  rw [List.append_assoc, List.singleton_append, keepEnds_line hb]

namespace Pieces

variable {ls : List (List α)}

theorem keepEnds_flatten (h : Pieces d ls) : keepEnds d ls.flatten = ls := by
  induction h with
  | nil => rfl
  | last hb hne => rw [List.flatten_singleton, keepEnds_last hb hne]
  | line hl _ ih => rw [List.flatten_cons, hl.keepEnds_append, ih]

/-- Without the ends. -/
theorem splitLines_flatten (h : Pieces d ls) : splitLines d ls.flatten = ls.map (body d) := by
  induction h with
  | nil => rfl
  | last hb hne =>
    rw [List.flatten_singleton, List.map_singleton, body_of_notMem hb, splitLines_last hb hne]
  | line hl _ ih =>
    obtain ⟨b, hb, rfl⟩ := hl
    rw [List.flatten_cons, List.append_assoc, List.singleton_append, splitLines_line hb, ih,
      List.map_cons, body_concat hb]

omit [DecidableEq α] in
theorem ended_or (h : Pieces d ls) : ∀ l ∈ ls, Ended d l ∨ d ∉ l ∧ l ≠ [] := by
  induction h with
  | nil => exact List.forall_mem_nil _
  | last hb hne => exact List.forall_mem_singleton.2 (.inr ⟨hb, hne⟩)
  | line hl _ ih => exact List.forall_mem_cons.2 ⟨.inl hl, ih⟩

omit [DecidableEq α] in
theorem of_ended (h : ∀ l ∈ ls, Ended d l) {tail : List (List α)} (htail : Pieces d tail) :
    Pieces d (ls ++ tail) := by
  induction ls with
  | nil => exact htail
  | cons l ls ih =>
    exact .line (h l List.mem_cons_self) (ih fun l' hl' => h l' (List.mem_cons_of_mem _ hl'))

omit [DecidableEq α] in
/-- All but the last piece have their end. -/
theorem ended_of_append {l : List α} (h : Pieces d (ls ++ [l])) :
    (∀ l' ∈ ls, Ended d l') ∧ (Ended d l ∨ d ∉ l ∧ l ≠ []) := by
  induction ls with
  | nil =>
    refine ⟨List.forall_mem_nil _, ?_⟩
    cases h with
    | last hb hne => exact .inr ⟨hb, hne⟩
    | line hl _ => exact .inl hl
  | cons l' ls ih =>
    cases hrest : ls ++ [l] with
    | nil => simp at hrest
    | cons x xs =>
      rw [List.cons_append, hrest] at h
      cases h with
      | line hl hls =>
        obtain ⟨hinit, hlast⟩ := ih (hrest ▸ hls)
        exact ⟨List.forall_mem_cons.2 ⟨hl, hinit⟩, hlast⟩

omit [DecidableEq α] in
/-- A piece may be replaced by one that is ended when the old one is. -/
theorem replace {ls' : List (List α)} (h : Pieces d ls)
    (hrep : List.Forall₂ (fun l l' => (Ended d l → Ended d l') ∧
      (d ∉ l ∧ l ≠ [] → Ended d l' ∨ d ∉ l' ∧ l' ≠ [])) ls ls') : Pieces d ls' := by
  induction h generalizing ls' with
  | nil =>
    cases hrep
    exact .nil
  | last hb hne =>
    cases hrep with
    | cons hl hnil =>
      cases hnil
      rcases hl.2 ⟨hb, hne⟩ with hend | ⟨hb', hne'⟩
      · exact .line hend .nil
      · exact .last hb' hne'
  | line hl _ ih =>
    cases hrep with
    | cons hr hrs => exact .line (hr.1 hl) (ih hrs)

end Pieces

theorem splitLines_eq_map (t : List α) : splitLines d t = (keepEnds d t).map (body d) := by
  have h := (pieces_keepEnds (d := d) t).splitLines_flatten
  rwa [flatten_keepEnds] at h

end BambooNet
