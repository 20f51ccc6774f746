import BambooNet.Lib.Bytes
import BambooNet.Lib.Search

/-!
# Positions in a `std::string`

The operations of a string on positions. A position past the end is one at which the program reads
outside or an exception is thrown, and the operation is then `none`. A search takes any position.

**At a position** a text is known by what stands there: `s.drop pos = p ++ t` is the form in which
lemmas on scanners are stated, and `drop_add` moves on behind `p`.
-/

namespace BambooNet.StdString

/-- `s.find(needle, pos)` -/
def find (needle s : Bytes) (pos : ℕ) : Option ℕ :=
  (findFirst needle (s.drop pos)).map fun r => pos + r.1.length

/-- `s.substr(pos, n)` -/
def substr (s : Bytes) (pos n : ℕ) : Option Bytes :=
  if pos ≤ s.length then some ((s.drop pos).take n) else none

/-- `s.compare(pos, p.size(), p) == 0` -/
def compareAt (s : Bytes) (pos : ℕ) (p : Bytes) : Option Bool :=
  if pos ≤ s.length then some (decide (p <+: s.drop pos)) else none

/-- `while (i < s.size() && p(s[i])) ++i;` -/
def skipWhile (p : UInt8 → Bool) (s : Bytes) (i : ℕ) : Option ℕ :=
  if i < s.length then
    s[i]?.bind fun c => if p c then skipWhile p s (i + 1) else some i
  else some i
termination_by s.length - i

variable {needle s p t : Bytes} {pos : ℕ}

/-! ## Moving on -/

theorem drop_add (h : s.drop pos = p ++ t) : s.drop (pos + p.length) = t := by
  rw [← List.drop_drop, h, List.drop_left]

theorem le_of_drop (h : s.drop pos = p ++ t) (hp : p ≠ []) : pos + p.length ≤ s.length := by
  have hlen := congrArg List.length h
  have hpos := List.length_pos_iff.2 hp
  rw [List.length_drop, List.length_append] at hlen
  omega

theorem getElem?_of_drop {c : UInt8} (h : s.drop pos = c :: t) : s[pos]? = some c := by
  have hget : (s.drop pos)[0]? = some c := by rw [h]; rfl
  rwa [List.getElem?_drop, Nat.add_zero] at hget

theorem drop_succ {c : UInt8} (h : s.drop pos = c :: t) : s.drop (pos + 1) = t :=
  drop_add (p := [c]) h

theorem lt_of_drop {c : UInt8} (h : s.drop pos = c :: t) : pos < s.length :=
  le_of_drop (p := [c]) h (List.cons_ne_nil c [])

theorem exists_drop (h : pos < s.length) : ∃ c, s.drop pos = c :: s.drop (pos + 1) :=
  ⟨s[pos], List.drop_eq_getElem_cons h⟩

/-! ## The operations -/

theorem substr_of_le (h : pos ≤ s.length) (n : ℕ) : substr s pos n = some ((s.drop pos).take n) :=
  if_pos h

/-- What stands at a position up to another. -/
theorem substr_of_drop (h : s.drop pos = p ++ t) (hpos : pos ≤ s.length) :
    substr s pos p.length = some p := by
  rw [substr_of_le hpos, h, List.take_left]

theorem compareAt_of_le (h : pos ≤ s.length) (p : Bytes) :
    compareAt s pos p = some (decide (p <+: s.drop pos)) := if_pos h

theorem compareAt_here (h : s.drop pos = p ++ t) (hp : p ≠ []) : compareAt s pos p = some true := by
  have hle := le_of_drop h hp
  rw [compareAt_of_le (by omega), h, decide_eq_true (List.prefix_append p t)]

/-- Texts that start differently. -/
theorem compareAt_other {q : Bytes} (h : s.drop pos = p ++ t) (hp : p ≠ []) (hqp : ¬ q <+: p)
    (hpq : ¬ p <+: q) : compareAt s pos q = some false := by
  have hle := le_of_drop h hp
  have hnot : ¬ q <+: p ++ t := fun hpre =>
    (List.prefix_or_prefix_of_prefix hpre (List.prefix_append p t)).elim hqp hpq
  rw [compareAt_of_le (by omega), h, decide_eq_false hnot]

theorem find_bounds {e : ℕ} (hne : needle ≠ []) (h : find needle s pos = some e) :
    pos ≤ e ∧ e + needle.length ≤ s.length := by
  obtain ⟨r, hr, rfl⟩ := Option.map_eq_some_iff.1 h
  have hlen := congrArg List.length (eq_of_findFirst hr)
  have hpos := List.length_pos_iff.2 hne
  rw [List.length_drop, List.length_append, List.length_append] at hlen
  omega

/-- The needle comes first behind a text that does not hold it, nor the front of it at its end. -/
theorem find_of_drop (hne : needle ≠ []) (hp : findFirst needle p = none)
    (hcut : ¬ Straddles needle p (needle ++ t)) (h : s.drop pos = p ++ (needle ++ t)) :
    find needle s pos = some (pos + p.length) := by
  rw [find, h, findFirst_append hne hcut, hp, findFirst_here hne]
  simp

/-- A text without the byte that is searched is passed over. -/
theorem find_skip {c : UInt8} (hc : c ∉ p) (h : s.drop pos = p ++ t) :
    find [c] s pos = find [c] s (pos + p.length) := by
  have hcut : ¬ Straddles [c] p t := by
    rintro ⟨n₁, n₂, hn₁, hn₂, heq, -, -⟩
    rcases List.append_eq_singleton_iff.1 heq.symm with ⟨rfl, -⟩ | ⟨-, rfl⟩
    · exact hn₁ rfl
    · exact hn₂ rfl
  rw [find, find, h, drop_add h, findFirst_append (List.cons_ne_nil c []) hcut,
    findFirst_byte_eq_none hc]
  cases findFirst [c] t with
  | none => rfl
  | some r => simp [Nat.add_assoc]

theorem find_byte {c : UInt8} (hc : c ∉ p) (h : s.drop pos = p ++ c :: t) :
    find [c] s pos = some (pos + p.length) := by
  rw [find, h, findFirst_byte hc]
  rfl

theorem skipWhile_eq (f : UInt8 → Bool) (s : Bytes) (i : ℕ) :
    skipWhile f s i = some (i + ((s.drop i).takeWhile f).length) := by
  induction hn : s.length - i generalizing i with
  | zero =>
    have hend : ¬ i < s.length := by omega
    rw [skipWhile, if_neg hend, List.drop_eq_nil_of_le (Nat.not_lt.1 hend)]
    rfl
  | succ n ih =>
    have hi : i < s.length := by omega
    obtain ⟨c, hc⟩ := exists_drop hi
    rw [skipWhile, if_pos hi, getElem?_of_drop hc, Option.bind_some, hc, List.takeWhile_cons]
    split
    · rw [ih (i + 1) (by omega), List.length_cons]
      exact congrArg some (by omega)
    · rfl

/-- The loop stays in the text. -/
theorem skipWhile_bounds {f : UInt8 → Bool} {i j : ℕ} (h : skipWhile f s i = some j) :
    i ≤ j ∧ (i ≤ s.length → j ≤ s.length) := by
  rw [skipWhile_eq] at h
  cases h
  have hle := ((s.drop i).takeWhile_sublist f).length_le
  rw [List.length_drop] at hle
  omega

theorem skipWhile_total (f : UInt8 → Bool) (s : Bytes) (i : ℕ) : ∃ j, skipWhile f s i = some j :=
  ⟨_, skipWhile_eq f s i⟩

theorem skipWhile_of_drop {f : UInt8 → Bool} (hp : ∀ c ∈ p, f c = true)
    (ht : ∀ c ∈ t.head?, f c = false) (h : s.drop pos = p ++ t) :
    skipWhile f s pos = some (pos + p.length) := by
  have hstop : t.takeWhile f = [] := by
    cases t with
    | nil => rfl
    | cons c t => rw [List.takeWhile_cons_of_neg (by simp [ht c rfl])]
  rw [skipWhile_eq, h, List.takeWhile_append_of_pos hp, hstop, List.append_nil]

end BambooNet.StdString
