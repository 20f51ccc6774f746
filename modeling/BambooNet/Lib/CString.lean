import BambooNet.Lib.Decimal
import Mathlib.Data.List.DropRight

/-!
# Text as C programs read it

White space, trimming, lower case and `atoi` in the "C" locale. A text is what `trim` leaves of it
between two runs of spaces (`exists_trim`), and a word comes back out of any two such runs
(`trim_pad`). A number that fits comes back out of `atoi` (`atoi_digits`).
-/

namespace BambooNet.CString

def isSpace (c : UInt8) : Bool := c == 0x20 || (0x09 ≤ c && c ≤ 0x0d)

def trim (s : Bytes) : Bytes := (s.dropWhile isSpace).rdropWhile isSpace

def lower (s : Bytes) : Bytes := s.map fun c => if 0x41 ≤ c ∧ c ≤ 0x5a then c + 0x20 else c

/-- `atoi`, by way of a `long` that keeps to its range. -/
def atoi (s : Bytes) : ℤ :=
  let s := s.dropWhile isSpace
  let neg := s.head? = some 0x2d
  let s := if neg ∨ s.head? = some 0x2b then s.tail else s
  let n : ℤ := natOf (s.takeWhile isDigit)
  (max (-2 ^ 63) (min (2 ^ 63 - 1) (if neg then -n else n))).bmod (2 ^ 32)

theorem digit_ne {c : UInt8} (h : isDigit c = true) :
    c ≠ 0 ∧ isSpace c = false ∧ c ≠ 0x2d ∧ c ≠ 0x2b := by
  revert h
  refine forall_byte (p := fun c => isDigit c = true →
    c ≠ 0 ∧ isSpace c = false ∧ c ≠ 0x2d ∧ c ≠ 0x2b) ?_ c
  decide +kernel

/-- A number that fits is read as it stands. -/
theorem atoi_digits {s : Bytes} (hs : ∀ c ∈ s, isDigit c = true) (hlt : natOf s < 2 ^ 31) :
    atoi s = natOf s := by
  have hlt' : (natOf s : ℤ) < 2 ^ 31 := by exact_mod_cast hlt
  have hpos : (0 : ℤ) ≤ natOf s := Int.natCast_nonneg _
  have hdigits : s.takeWhile isDigit = s := List.takeWhile_eq_self_iff.2 hs
  cases s with
  | nil => rfl
  | cons c t =>
    obtain ⟨-, hspace, hminus, hplus⟩ := digit_ne (hs c List.mem_cons_self)
    have hskip : (c :: t).dropWhile isSpace = c :: t := by
      rw [List.dropWhile_cons, hspace]
      rfl
    simp only [atoi, hskip, List.head?_cons, Option.some.injEq, hminus, hplus, or_self, if_false,
      hdigits]
    rw [Int.min_eq_right (by omega), Int.max_eq_right (by omega), Int.bmod_eq_of_le (by omega)
      (by omega)]

/-- What `trim` and a scan for the next space leave in one piece. -/
structure Word (s : Bytes) : Prop where
  ne_nil : s ≠ []
  not_isSpace : ∀ c ∈ s, isSpace c = false

/-- Only white space. -/
abbrev Blank (s : Bytes) : Prop := ∀ c ∈ s, isSpace c = true

variable {pre s post : Bytes}

theorem Word.head (h : Word s) (t : Bytes) : (s ++ t).dropWhile isSpace = s ++ t := by
  cases s with
  | nil => exact absurd rfl h.ne_nil
  | cons c s =>
    rw [List.cons_append, List.dropWhile_cons_of_neg]
    simp [h.not_isSpace c List.mem_cons_self]

theorem exists_trim (s : Bytes) :
    ∃ pre post, Blank pre ∧ Blank post ∧ s = pre ++ trim s ++ post := by
  refine ⟨s.takeWhile isSpace, (s.dropWhile isSpace).rtakeWhile isSpace, ?_, ?_, ?_⟩
  · intro c hc
    exact List.mem_takeWhile_imp hc
  · intro c hc
    exact List.mem_rtakeWhile_imp hc
  · rw [trim, List.append_assoc, List.rdropWhile_append_rtakeWhile, List.takeWhile_append_dropWhile]

theorem rdropWhile_append_blank (s : Bytes) (hpost : Blank post) :
    (s ++ post).rdropWhile isSpace = s.rdropWhile isSpace := by
  rw [List.rdropWhile, List.reverse_append, List.dropWhile_append_of_pos, List.rdropWhile]
  intro c hc
  exact hpost c (List.mem_reverse.1 hc)

theorem trim_blank_append (s : Bytes) (hpre : Blank pre) : trim (pre ++ s) = trim s := by
  rw [trim, List.dropWhile_append_of_pos hpre, trim]

theorem trim_append_blank (s : Bytes) (hpost : Blank post) : trim (s ++ post) = trim s := by
  rw [trim, List.dropWhile_append]
  split
  · next h =>
    -- nothing but spaces on both sides
    rw [List.isEmpty_iff] at h
    rw [List.dropWhile_eq_nil_iff.2 hpost, trim, h]
  · rw [rdropWhile_append_blank _ hpost, trim]

theorem Word.trim_eq (h : Word s) : trim s = s := by
  have hhead := h.head []
  rw [List.append_nil] at hhead
  rw [trim, hhead, List.rdropWhile_eq_self_iff]
  intro hne
  simp [h.not_isSpace _ (List.getLast_mem hne)]

theorem trim_pad (hpre : Blank pre) (h : Word s) (hpost : Blank post) :
    trim (pre ++ s ++ post) = s := by
  rw [trim_append_blank _ hpost, trim_blank_append _ hpre, h.trim_eq]

/-- A text that is one word is read up to its end by a scan for the next space. -/
theorem takeWhile_of_trim (h : Word (trim s)) :
    (s.dropWhile isSpace).takeWhile (!isSpace ·) = trim s := by
  obtain ⟨pre, post, hpre, hpost, heq⟩ := exists_trim s
  have hstart : s.dropWhile isSpace = trim s ++ post := by
    conv_lhs => rw [heq]
    rw [List.append_assoc, List.dropWhile_append_of_pos hpre, h.head]
  have hend : post.takeWhile (!isSpace ·) = [] := by
    cases post with
    | nil => rfl
    | cons c post => simp [hpost c List.mem_cons_self]
  rw [hstart, List.takeWhile_append_of_pos, hend, List.append_nil]
  intro c hc
  simp [h.not_isSpace c hc]

end BambooNet.CString
