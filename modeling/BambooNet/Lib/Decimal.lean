import BambooNet.Lib.Bytes
import Mathlib.Data.Nat.Digits.Lemmas

/-!
# Decimal numerals
-/

namespace BambooNet

def isDigit (c : UInt8) : Bool := 0x30 ≤ c && c ≤ 0x39

/-- The number that a run of digits denotes. -/
def natOf (digits : Bytes) : ℕ := digits.foldl (fun n d => 10 * n + (d.toNat - 0x30)) 0

/-- The decimal numeral of a number. -/
def decimal (n : ℕ) : Bytes :=
  if n = 0 then [0x30] else (Nat.digits 10 n).reverse.map fun d => UInt8.ofNat (0x30 + d)

def decimalInt (n : ℤ) : Bytes := (if n < 0 then [0x2d] else []) ++ decimal n.natAbs

theorem isDigit_ofNat {d : ℕ} (h : d < 10) : isDigit (UInt8.ofNat (0x30 + d)) = true := by
  revert d
  decide

theorem toNat_digit {d : ℕ} (h : d < 10) : (UInt8.ofNat (0x30 + d)).toNat - 0x30 = d := by
  revert d
  decide

theorem isDigit_of_mem_decimal {n : ℕ} : ∀ c ∈ decimal n, isDigit c = true := by
  intro c hc
  rw [decimal] at hc
  split at hc
  · rw [List.mem_singleton.1 hc]
    decide
  · obtain ⟨d, hd, rfl⟩ := List.mem_map.1 hc
    exact isDigit_ofNat (Nat.digits_lt_base (by decide) (List.mem_reverse.1 hd))

theorem decimal_ne_nil (n : ℕ) : decimal n ≠ [] := by
  rw [decimal]
  split
  · simp
  · next h => simpa using Nat.digits_ne_nil_iff_ne_zero.2 h

/-- A numeral has no leading zero. -/
theorem decimal_head {n : ℕ} (h : (decimal n).head? = some 0x30) : decimal n = [0x30] := by
  by_cases h0 : n = 0
  · simp [decimal, h0]
  · exfalso
    have hne := Nat.digits_ne_nil_iff_ne_zero (b := 10).2 h0
    rw [decimal, if_neg h0, List.head?_map, List.head?_reverse, List.getLast?_eq_some_getLast hne,
      Option.map_some, Option.some.injEq] at h
    have hlast := Nat.getLast_digit_ne_zero 10 h0
    have hlt := Nat.digits_lt_base (b := 10) (by decide) (List.getLast_mem hne)
    have := toNat_digit hlt
    rw [h] at this
    exact hlast (by simpa using this.symm)

theorem natOf_concat (l : Bytes) (c : UInt8) :
    natOf (l ++ [c]) = 10 * natOf l + (c.toNat - 0x30) := by
  simp [natOf]

theorem natOf_append (a b : Bytes) : natOf (a ++ b) = natOf a * 10 ^ b.length + natOf b := by
  induction b using List.reverseRecOn with
  | nil => simp [natOf]
  | append_singleton b c ih =>
    rw [← List.append_assoc, natOf_concat, natOf_concat, ih, List.length_append,
      List.length_singleton, pow_succ]
    ring

theorem natOf_lt {digits : Bytes} (h : ∀ c ∈ digits, isDigit c = true) :
    natOf digits < 10 ^ digits.length := by
  have hdigit : ∀ c : UInt8, isDigit c = true → c.toNat - 0x30 < 10 := by
    refine forall_byte ?_
    decide +kernel
  induction digits using List.reverseRecOn with
  | nil => decide
  | append_singleton b c ih =>
    have hb := ih fun d hd => h d (List.mem_append_left _ hd)
    have hc := hdigit c (h c (by simp))
    rw [natOf_concat, List.length_append, List.length_singleton, pow_succ]
    omega

theorem natOf_decimal (n : ℕ) : natOf (decimal n) = n := by
  rw [decimal]
  split
  · next h => rw [h]; rfl
  · have hdigits (l : List ℕ) (hl : ∀ d ∈ l, d < 10) :
        natOf (l.reverse.map fun d => UInt8.ofNat (0x30 + d)) = Nat.ofDigits 10 l := by
      induction l with
      | nil => rfl
      | cons d l ih =>
        rw [List.reverse_cons, List.map_append, List.map_singleton, natOf_concat,
          ih fun x hx => hl x (List.mem_cons_of_mem _ hx), toNat_digit (hl d List.mem_cons_self),
          Nat.ofDigits_cons]
        ring
    rw [hdigits _ fun d hd => Nat.digits_lt_base (by decide) hd, Nat.ofDigits_digits]

theorem isDigit_of_mem_decimalInt {n : ℤ} {c : UInt8} (hc : c ∈ decimalInt n) :
    c = 0x2d ∨ isDigit c = true := by
  rw [decimalInt, List.mem_append] at hc
  rcases hc with hc | hc
  · split at hc
    · exact .inl (List.mem_singleton.1 hc)
    · cases hc
  · exact .inr (isDigit_of_mem_decimal c hc)

theorem decimal_injective {m n : ℕ} (h : decimal m = decimal n) : m = n := by
  rw [← natOf_decimal m, h, natOf_decimal]

/-- Different integers have different numerals. -/
theorem decimalInt_injective {m n : ℤ} (h : decimalInt m = decimalInt n) : m = n := by
  have hsign (m n : ℕ) : 0x2d :: decimal m ≠ decimal n := fun h => by
    have := isDigit_of_mem_decimal (n := n) 0x2d (h ▸ List.mem_cons_self)
    exact absurd this (by decide)
  rw [decimalInt, decimalInt] at h
  split at h <;> split at h
  · have := decimal_injective (List.append_cancel_left h)
    omega
  · exact absurd h (hsign _ _)
  · exact absurd h.symm (hsign _ _)
  · have := decimal_injective h
    omega

end BambooNet
