import BambooNet.Lib.CString

/-!
# Numbers in a base

`strtoul` of the C library for the bases ten and sixteen, with an `unsigned long` of 64 bits. What
consists of digits is read as their number, up to its end (`strtoul_digits`).
-/

namespace BambooNet

/-- The value of a digit. Other bytes have none below 36. -/
def digitValue (c : UInt8) : ℕ :=
  if isDigit c then c.toNat - 0x30
  else if 0x61 ≤ c ∧ c ≤ 0x7a then c.toNat - 0x57
  else if 0x41 ≤ c ∧ c ≤ 0x5a then c.toNat - 0x37
  else 36

/-- The number whose digits in a base are given, the highest first. -/
def ofDigits (base : ℕ) (digits : Bytes) : ℕ :=
  digits.foldl (fun n c => base * n + digitValue c) 0

/-- `0x` in front of a hexadecimal digit -/
def hexPrefixed (s : Bytes) : Bool :=
  s[0]? = some 0x30 && (s[1]? = some 0x78 || s[1]? = some 0x58) &&
    (s[2]?.any fun c => digitValue c < 16)

/-- `strtoul` in base 10 or 16: the number, and what comes behind it. -/
def strtoul (base : ℕ) (s : Bytes) : ℕ × Bytes :=
  let t := s.dropWhile CString.isSpace
  let neg := t.head? = some 0x2d
  let t := if neg ∨ t.head? = some 0x2b then t.tail else t
  let t := if base = 16 ∧ hexPrefixed t then t.drop 2 else t
  let digits := t.takeWhile fun c => digitValue c < base
  if digits = [] then (0, s)
  else
    let n := ofDigits base digits
    let n := if 2 ^ 64 ≤ n then 2 ^ 64 - 1 else if neg then (2 ^ 64 - n) % 2 ^ 64 else n
    (n, t.drop digits.length)

theorem digit_not_space : ∀ c : UInt8, digitValue c < 16 → CString.isSpace c = false := by
  refine forall_byte ?_
  decide +kernel

theorem digit_not_sign : ∀ c : UInt8, digitValue c < 16 →
    c ≠ 0x2d ∧ c ≠ 0x2b ∧ c ≠ 0x78 ∧ c ≠ 0x58 := by
  refine forall_byte ?_
  decide +kernel

theorem strtoul_digits {base : ℕ} (hbase : base ≤ 16) {s : Bytes} (hne : s ≠ [])
    (hs : ∀ c ∈ s, digitValue c < base) :
    strtoul base s = (min (ofDigits base s) (2 ^ 64 - 1), []) := by
  obtain ⟨c, t, rfl⟩ := List.exists_cons_of_ne_nil hne
  have hdigit (d : UInt8) (hd : d ∈ c :: t) : digitValue d < 16 := by
    have hlt := hs d hd
    omega
  have hc := hdigit c List.mem_cons_self
  obtain ⟨hminus, hplus, -, -⟩ := digit_not_sign c hc
  have hskip : (c :: t).dropWhile CString.isSpace = c :: t :=
    List.dropWhile_cons_of_neg (by simp [digit_not_space c hc])
  have hprefix : ¬ (base = 16 ∧ hexPrefixed (c :: t)) := by
    rintro ⟨-, h⟩
    cases t with
    | nil => simp [hexPrefixed] at h
    | cons d t =>
      obtain ⟨-, -, hx, hX⟩ := digit_not_sign d (hdigit d (by simp))
      simp [hexPrefixed, hx, hX] at h
  have htake : (c :: t).takeWhile (fun c => digitValue c < base) = c :: t :=
    List.takeWhile_eq_self_iff.2 fun d hd => decide_eq_true (hs d hd)
  simp only [strtoul, hskip, List.head?_cons, Option.some.injEq, hminus, hplus, or_self, if_false,
    hprefix, htake, hne, List.drop_length, Prod.mk.injEq, and_true]
  split
  · rw [Nat.min_eq_right (by omega)]
  · rw [Nat.min_eq_left (by omega)]

theorem digitValue_lt_ten : ∀ c : UInt8, decide (digitValue c < 10) = isDigit c := by
  refine forall_byte ?_
  decide +kernel

/-- A decimal number is read up to the first byte that is no digit. -/
theorem strtoul_decimal {s q : Bytes} (hne : s ≠ []) (hs : ∀ c ∈ s, isDigit c = true)
    (hq : ∀ c ∈ q.head?, isDigit c = false) :
    strtoul 10 (s ++ q) = (min (natOf s) (2 ^ 64 - 1), q) := by
  obtain ⟨c, t, rfl⟩ := List.exists_cons_of_ne_nil hne
  have hvalue (d : UInt8) (hd : isDigit d = true) : digitValue d < 10 :=
    of_decide_eq_true ((digitValue_lt_ten d).trans hd)
  have hc := Nat.lt_trans (hvalue c (hs c List.mem_cons_self)) (by decide : 10 < 16)
  obtain ⟨hminus, hplus, -, -⟩ := digit_not_sign c hc
  have hskip : (c :: t ++ q).dropWhile CString.isSpace = c :: t ++ q :=
    List.dropWhile_cons_of_neg (by simp [digit_not_space c hc])
  have htake : (c :: t ++ q).takeWhile (fun c => digitValue c < 10) = c :: t := by
    simp only [digitValue_lt_ten]
    rw [List.takeWhile_append_of_pos hs]
    cases q with
    | nil => exact List.append_nil _
    | cons d q =>
      rw [List.takeWhile_cons_of_neg (by simp [hq d rfl]), List.append_nil]
  have hnumber : ofDigits 10 (c :: t) = natOf (c :: t) := by
    refine List.foldl_ext _ _ 0 fun n d hd => ?_
    rw [digitValue, if_pos (hs d hd)]
  have hten : ¬ (10 : ℕ) = 16 := by decide
  have hneg : ¬ (c :: t ++ q).head? = some 0x2d := fun h => hminus (Option.some.inj h)
  have hpos : ¬ (c :: t ++ q).head? = some 0x2b := fun h => hplus (Option.some.inj h)
  simp only [strtoul, hskip, hneg, hpos, or_self, if_false, hten, false_and, htake, hne,
    List.drop_left, hnumber, Prod.mk.injEq, and_true]
  split
  · rw [Nat.min_eq_right (by omega)]
  · rw [Nat.min_eq_left (by omega)]

end BambooNet
