import BambooNet.Agent.ReportFields
import BambooNet.Json.Members
import BambooNet.Lib.CString
import BambooNet.Lib.JsonBuild
import Mathlib.Data.Int.Bitwise

/-!
# Capabilities that are written into a report

The agent makes a report say that there is a card, that the printer has storage of its own and that
its print came from the cloud. Each of the patches rewrites the first member with a certain name,
when its value asks for it, and leaves everything else (`patches_keep_frame`).
-/

namespace BambooNet.Agent

open Json JsonSyntax

/-! ## Hexadecimal numbers -/

def isHexDigit (c : UInt8) : Bool := (hexDigit? c).isSome

def hexNat (digits : Bytes) : ℕ :=
  digits.foldl (fun n c => 16 * n + (hexDigit? c).getD 0) 0

/-- `std::stoull` in base 16: white space, a sign, `0x`, digits; `none` where it throws. -/
def stoull16? (s : Bytes) : Option ℕ :=
  let s := s.dropWhile CString.isSpace
  let negative := s.head? = some minus
  let s := if negative ∨ s.head? = some plus then s.tail else s
  let s := if (s.take 2 = ascii "0x" ∨ s.take 2 = ascii "0X") ∧ (s.drop 2).head?.any isHexDigit
    then s.drop 2 else s
  let digits := s.takeWhile isHexDigit
  if digits = [] ∨ 2 ^ 64 ≤ hexNat digits then none
  else some (if negative then (2 ^ 64 - hexNat digits) % 2 ^ 64 else hexNat digits)

/-- `%llx`. -/
def hexOf (n : ℕ) : Bytes :=
  if n = 0 then [0x30] else (Nat.digits 16 n).reverse.map hexLower

theorem hexDigit?_hexLower {d : ℕ} (h : d < 16) : hexDigit? (hexLower d) = some d := by
  revert d
  decide

theorem isHexDigit_of_mem_hexOf {n : ℕ} : ∀ c ∈ hexOf n, isHexDigit c = true := by
  intro c hc
  rw [hexOf] at hc
  split at hc
  · rw [List.mem_singleton.1 hc]
    decide
  · obtain ⟨d, hd, rfl⟩ := List.mem_map.1 hc
    have hlt := Nat.digits_lt_base (by decide) (List.mem_reverse.1 hd)
    rw [isHexDigit, hexDigit?_hexLower hlt, Option.isSome_some]

theorem hexNat_hexOf (n : ℕ) : hexNat (hexOf n) = n := by
  have hdigits (l : List ℕ) (hl : ∀ d ∈ l, d < 16) :
      hexNat (l.reverse.map hexLower) = Nat.ofDigits 16 l := by
    induction l with
    | nil => rfl
    | cons d l ih =>
      have ih := ih fun x hx => hl x (List.mem_cons_of_mem _ hx)
      rw [hexNat] at ih
      rw [List.reverse_cons, List.map_append, List.map_singleton, hexNat, List.foldl_append, ih,
        List.foldl_cons, List.foldl_nil, hexDigit?_hexLower (hl d List.mem_cons_self),
        Option.getD_some, Nat.ofDigits_cons, add_comm]
  rw [hexOf]
  split
  · next h => rw [h]; rfl
  · rw [hdigits _ fun d hd => Nat.digits_lt_base (by decide) hd, Nat.ofDigits_digits]

theorem isPlain_of_isHexDigit : ∀ c : UInt8, isHexDigit c = true → IsPlain c :=
  forall_byte (by decide +kernel)

/-- Hexadecimal digits alone are read as their number. -/
theorem stoull16?_digits {s : Bytes} (hs : s ≠ []) (hdigits : ∀ c ∈ s, isHexDigit c = true) :
    stoull16? s = if 2 ^ 64 ≤ hexNat s then none else some (hexNat s) := by
  obtain ⟨c, t, rfl⟩ := List.exists_cons_of_ne_nil hs
  have hfirst : ∀ c : UInt8, isHexDigit c = true →
      CString.isSpace c = false ∧ c ≠ minus ∧ c ≠ plus := forall_byte (by decide +kernel)
  obtain ⟨hspace, hminus, hplus⟩ := hfirst c (hdigits c List.mem_cons_self)
  have hneg : ¬ (c :: t).head? = some minus := fun h => hminus (Option.some.inj h)
  have hpos : ¬ (c :: t).head? = some plus := fun h => hplus (Option.some.inj h)
  -- no second digit is the x of a prefix
  have hx : ¬ ((c :: t).take 2 = ascii "0x" ∨ (c :: t).take 2 = ascii "0X") := by
    cases t with
    | nil => exact not_or.2 ⟨by simp [ascii], by simp [ascii]⟩
    | cons d t =>
      have hd := hdigits d (List.mem_cons_of_mem _ List.mem_cons_self)
      refine not_or.2 ⟨fun h => ?_, fun h => ?_⟩
      · rw [(List.cons.inj (List.cons.inj h).2).1] at hd
        exact absurd hd (by decide)
      · rw [(List.cons.inj (List.cons.inj h).2).1] at hd
        exact absurd hd (by decide)
  have hspace' : ¬ CString.isSpace c = true := Bool.not_eq_true _ ▸ hspace
  simp only [stoull16?, List.dropWhile_cons_of_neg hspace', hneg, hpos, or_self, if_false, hx,
    false_and, List.takeWhile_eq_self_iff.2 hdigits, hs, false_or]

/-! ## Bits -/

/-- Bit `i` is not set in `m`, and `n` is `m` with it. -/
def GainsBit (i : ℕ) (m n : ℤ) : Prop :=
  m.testBit i = false ∧ n.testBit i = true ∧ ∀ j, j ≠ i → n.testBit j = m.testBit j

theorem testBit_two_pow (i j : ℕ) : ((2 ^ i : ℕ) : ℤ).testBit j = decide (i = j) :=
  Nat.testBit_two_pow

theorem gainsBit_lor {i : ℕ} {m : ℤ} (h : m.testBit i = false) :
    GainsBit i m (m.lor (2 ^ i : ℕ)) := by
  refine ⟨h, ?_, fun j hj => ?_⟩
  · rw [Int.testBit_lor, testBit_two_pow, decide_eq_true rfl, Bool.or_true]
  · rw [Int.testBit_lor, testBit_two_pow, decide_eq_false (Ne.symm hj), Bool.or_false]

theorem testBit_shiftRight (m : ℤ) (i j : ℕ) : (m >>> i).testBit j = m.testBit (i + j) := by
  cases m with
  | ofNat m => exact Nat.testBit_shiftRight m
  | negSucc m => exact congrArg (!·) (Nat.testBit_shiftRight m)

theorem eq_zero_of_testBit {m : ℤ} (h : ∀ i, m.testBit i = false) : m = 0 := by
  cases m with
  | ofNat m => exact congrArg Int.ofNat (Nat.zero_of_testBit_eq_false h)
  | negSucc m =>
    have hset := h m
    rw [Int.testBit, Nat.testBit_lt_two_pow Nat.lt_two_pow_self] at hset
    cases hset

/-- The two lowest bits of a number. -/
theorem land_three_eq_zero {m : ℤ} :
    m.land 3 = 0 ↔ m.testBit 0 = false ∧ m.testBit 1 = false := by
  have hthree (i : ℕ) : (3 : ℤ).testBit (i + 2) = false :=
    Nat.testBit_lt_two_pow (lt_of_lt_of_le (by decide : 3 < 2 ^ 2)
      (Nat.pow_le_pow_right (by decide) (Nat.le_add_left 2 i)))
  constructor
  · intro h
    have hbit (i : ℕ) : (m.testBit i && (3 : ℤ).testBit i) = false := by
      rw [← Int.testBit_land, h]
      exact Nat.zero_testBit i
    exact ⟨(Bool.and_true _).symm.trans (hbit 0), (Bool.and_true _).symm.trans (hbit 1)⟩
  · rintro ⟨h₀, h₁⟩
    refine eq_zero_of_testBit fun i => ?_
    rw [Int.testBit_land]
    match i with
    | 0 => rw [h₀, Bool.false_and]
    | 1 => rw [h₁, Bool.false_and]
    | i + 2 => rw [hthree, Bool.and_false]

/-! ## The card -/

/-- Set bits 8 and 9 of a number from 00 to 01; other values of theirs are passed through. -/
def rewriteHomeFlag (p : Bytes) : Option Bytes :=
  let negative := p.head? = some minus
  let p := if negative then p.tail else p
  let digits := p.takeWhile isDigit
  let flag : ℤ := if negative then -natOf digits else natOf digits
  if digits = [] ∨ 2 ^ 63 ≤ natOf digits then none
  else if (flag >>> (8 : ℕ)).land 3 ≠ 0 then none
  else some (decimalInt (flag.lor (2 ^ 8 : ℕ)) ++ p.dropWhile isDigit)

theorem isWord_homeFlag : ascii "home_flag" ≠ [] ∧ ∀ c ∈ ascii "home_flag", isWord c = true :=
  ⟨List.cons_ne_nil _ _, List.all_iff_forall_prop.1 (by decide)⟩

def homeFlagKey : FieldName := ⟨ascii "home_flag", isWord_homeFlag.1, isWord_homeFlag.2⟩

/-- `none` when nothing is patched. -/
def tryRewriteHomeFlag : Bytes → Option Bytes := rewriteValue (ascii "home_flag") rewriteHomeFlag

/-- What is done to the number. -/
def homeFlagChange : Node → Option Node
  | .number n =>
    if n.intValue.natAbs < 2 ^ 63 ∧ n.intValue.testBit 8 = false ∧ n.intValue.testBit 9 = false then
      some (.number (.ofInt (n.intValue.lor (2 ^ 8 : ℕ))))
    else none
  | .null | .bool _ | .string _ | .emptyArray _ | .array _ | .emptyObject _ | .object _ => none

/-- A number that is written as an integer. -/
def Numeral.Literal (n : Numeral) : Prop := n.frac = none ∧ n.exp = none

theorem literal_text {n : Numeral} (h : Numeral.Literal n) :
    n.text = (if n.neg then [minus] else []) ++ n.int.bytes ∧
      n.intValue = if n.neg then -(natOf n.int.bytes : ℤ) else natOf n.int.bytes := by
  constructor
  · rw [Numeral.text, Numeral.fracText, Numeral.expText, h.1, h.2]
    simp
  · simp [Numeral.intValue, Numeral.natAbs, Numeral.mantissa, Numeral.scale, Numeral.expNeg,
      Numeral.expBytes, Numeral.fracBytes, h.1, h.2, show natOf [] = 0 from rfl]

/-- The digits at the front of a text. -/
theorem digits_append (d : Digits) {q : Bytes} (hq : Follows q) :
    (d.bytes ++ q).takeWhile isDigit = d.bytes ∧ (d.bytes ++ q).dropWhile isDigit = q := by
  rw [List.takeWhile_append_of_pos d.digits, List.dropWhile_append_of_pos d.digits]
  cases q with
  | nil => exact ⟨List.append_nil _, rfl⟩
  | cons c q =>
    have hc := isDigit_of_isWord (head_not_word hq c rfl)
    rw [List.takeWhile_cons_of_neg (by simp [hc]), List.dropWhile_cons_of_neg (by simp [hc])]
    exact ⟨List.append_nil _, rfl⟩

/-- What is no number is passed through. -/
theorem rewriteHomeFlag_none {c : UInt8} (hminus : c ≠ minus) (hdigit : isDigit c = false)
    (q : Bytes) : rewriteHomeFlag (c :: q) = none := by
  have hneg : ¬ (c :: q).head? = some minus := fun h => hminus (Option.some.inj h)
  have hdigits : (c :: q).takeWhile isDigit = [] := List.takeWhile_cons_of_neg (by simp [hdigit])
  simp only [rewriteHomeFlag, hneg, if_false, hdigits, true_or, if_true]

theorem rewriteHomeFlag_digits (neg : Bool) (d : Digits) {q : Bytes} (hq : Follows q) :
    rewriteHomeFlag ((if neg then [minus] else []) ++ (d.bytes ++ q)) =
      let flag : ℤ := if neg then -natOf d.bytes else natOf d.bytes
      if flag.natAbs < 2 ^ 63 ∧ flag.testBit 8 = false ∧ flag.testBit 9 = false then
        some (decimalInt (flag.lor (2 ^ 8 : ℕ)) ++ q)
      else none := by
  obtain ⟨htake, hdrop⟩ := digits_append d hq
  have hbits (flag : ℤ) : (flag >>> (8 : ℕ)).land 3 = 0 ↔
      flag.testBit 8 = false ∧ flag.testBit 9 = false := by
    rw [land_three_eq_zero, testBit_shiftRight, testBit_shiftRight]
  have hmain (flag : ℤ) (habs : flag.natAbs = natOf d.bytes) :
      (if d.bytes = [] ∨ 2 ^ 63 ≤ natOf d.bytes then none
        else if (flag >>> (8 : ℕ)).land 3 ≠ 0 then none
        else some (decimalInt (flag.lor (2 ^ 8 : ℕ)) ++ q)) =
      if flag.natAbs < 2 ^ 63 ∧ flag.testBit 8 = false ∧ flag.testBit 9 = false then
        some (decimalInt (flag.lor (2 ^ 8 : ℕ)) ++ q)
      else none := by
    rw [habs]
    by_cases hrange : natOf d.bytes < 2 ^ 63
    · rw [if_neg (not_or.2 ⟨d.nonempty, Nat.not_le.2 hrange⟩)]
      by_cases hzero : (flag >>> (8 : ℕ)).land 3 = 0
      · rw [if_neg (not_not.2 hzero), if_pos ⟨hrange, (hbits flag).1 hzero⟩]
      · rw [if_pos hzero, if_neg fun h => hzero ((hbits flag).2 h.2)]
    · rw [if_pos (.inr (Nat.not_lt.1 hrange)), if_neg fun h => hrange h.1]
  cases neg with
  | true =>
    have hneg : (minus :: (d.bytes ++ q)).head? = some minus := rfl
    simp only [if_true, List.singleton_append, rewriteHomeFlag, hneg, List.tail_cons, htake, hdrop]
    exact hmain _ (by simp)
  | false =>
    have hneg : ¬ (d.bytes ++ q).head? = some minus := by
      obtain ⟨c, t, ht⟩ := List.exists_cons_of_ne_nil d.nonempty
      rw [ht]
      intro h
      have hdigit := d.digits c (ht ▸ List.mem_cons_self)
      rw [Option.some.inj h] at hdigit
      exact absurd hdigit (by decide)
    simp only [Bool.false_eq_true, if_false, List.nil_append, rewriteHomeFlag, hneg, htake, hdrop]
    exact hmain _ (by simp)

/-- **The flag is rewritten as the number in the tree is.** -/
theorem rewrites_homeFlag {v : Node} (hv : ∀ n : Number, v = .number n →
    Numeral.Literal n.toNumeral) : Rewrites rewriteHomeFlag homeFlagChange v := by
  intro q hq
  cases v with
  | number n =>
    obtain ⟨htext, hvalue⟩ := literal_text (hv n rfl)
    rw [Node.text, htext, List.append_assoc, rewriteHomeFlag_digits n.neg n.int hq, homeFlagChange,
      ← hvalue]
    dsimp only
    split
    · rw [Option.map_some, Node.text, Number.text_ofInt]
    · rfl
  | bool b => cases b <;> exact rewriteHomeFlag_none (by decide) (by decide) _
  | null | string | emptyArray | array | emptyObject | object =>
    exact rewriteHomeFlag_none (by decide) (by decide) _

/-! ## The storage -/

/-- Set bit 17 of a hexadecimal number in quotes. -/
def rewriteFun2 (p : Bytes) : Option Bytes :=
  if p.head? ≠ some quote then none
  else
    let hex := p.tail.takeWhile (· ≠ quote)
    let rest := p.tail.dropWhile (· ≠ quote)
    if rest = [] ∨ hex = [] then none
    else (stoull16? hex).bind fun bits =>
      if bits &&& 2 ^ 17 ≠ 0 then none else some (quote :: (hexOf (bits ||| 2 ^ 17) ++ rest))

theorem isWord_fun2 : ascii "fun2" ≠ [] ∧ ∀ c ∈ ascii "fun2", isWord c = true :=
  ⟨List.cons_ne_nil _ _, List.all_iff_forall_prop.1 (by decide)⟩

def fun2Key : FieldName := ⟨ascii "fun2", isWord_fun2.1, isWord_fun2.2⟩

/-- `none` when nothing is patched. -/
def tryPatchFun2InternalStorage : Bytes → Option Bytes := rewriteValue (ascii "fun2") rewriteFun2

/-- What is done to the string. -/
def fun2Change (s : Str) : Option Str :=
  if s.decoded = [] ∨ 2 ^ 64 ≤ hexNat s.decoded ∨ (hexNat s.decoded).testBit 17 = true then none
  else some (.verbatim (hexOf (hexNat s.decoded ||| 2 ^ 17)) fun c hc =>
    isPlain_of_isHexDigit c (isHexDigit_of_mem_hexOf c hc))

/-- A string that is written with hexadecimal digits. -/
def HexLiteral (s : Str) : Prop := s.Verbatim ∧ ∀ c ∈ s.decoded, isHexDigit c = true

theorem rewriteFun2_none {c : UInt8} (h : c ≠ quote) (q : Bytes) : rewriteFun2 (c :: q) = none :=
  if_pos fun heq => h (Option.some.inj heq)

theorem rewriteFun2_string {s : Str} (hs : HexLiteral s) (q : Bytes) :
    rewriteFun2 (s.text ++ q) = (fun2Change s).map fun r => r.text ++ q := by
  have hquote : ∀ c ∈ s.decoded, decide (c ≠ quote) = true := fun c hc =>
    decide_eq_true (by rintro rfl; exact hs.1.quote_notMem hc)
  have htext : s.text ++ q = quote :: (s.decoded ++ quote :: q) := by
    rw [hs.1.text_eq, List.cons_append, List.append_assoc]
    rfl
  have htake : (s.decoded ++ quote :: q).takeWhile (· ≠ quote) = s.decoded := by
    rw [List.takeWhile_append_of_pos hquote, List.takeWhile_cons_of_neg (by simp), List.append_nil]
  have hdrop : (s.decoded ++ quote :: q).dropWhile (· ≠ quote) = quote :: q := by
    rw [List.dropWhile_append_of_pos hquote, List.dropWhile_cons_of_neg (by simp)]
  have hhead : ¬ (quote :: (s.decoded ++ quote :: q)).head? ≠ some quote := not_not.2 rfl
  rw [htext, rewriteFun2, if_neg hhead]
  simp only [List.tail_cons, htake, hdrop, List.cons_ne_nil, false_or]
  by_cases hnil : s.decoded = []
  · rw [if_pos hnil, fun2Change, if_pos (.inl hnil), Option.map_none]
  rw [if_neg hnil, stoull16?_digits hnil hs.2, fun2Change]
  by_cases hrange : 2 ^ 64 ≤ hexNat s.decoded
  · rw [if_pos hrange, if_pos (.inr (.inl hrange))]
    rfl
  rw [if_neg hrange, Option.bind_some, Nat.and_two_pow]
  cases hbit : (hexNat s.decoded).testBit 17 with
  | true =>
    rw [if_pos (by simp), if_pos (.inr (.inr rfl))]
    rfl
  | false =>
    have hcond : ¬ (s.decoded = [] ∨ 2 ^ 64 ≤ hexNat s.decoded ∨ false = true) := by
      simp only [hnil, hrange, Bool.false_eq_true, or_self, not_false_iff]
    rw [if_neg (by simp), if_neg hcond, Option.map_some,
      Str.text_verbatim, List.cons_append, List.append_assoc]
    rfl

/-- **The capabilities are rewritten as the string in the tree is.** -/
theorem rewrites_fun2 {v : Node} (hv : ∀ s, v = .string s → HexLiteral s) :
    Rewrites rewriteFun2 (onStrings fun2Change) v := by
  intro q _
  cases hstr : v.str? with
  | none =>
    obtain ⟨c, t, ht, -, hc⟩ := text_begins v
    rw [ht, List.cons_append, rewriteFun2_none (hc hstr), onStrings, hstr]
    rfl
  | some s =>
    obtain rfl := Node.eq_string hstr
    rw [Node.text, rewriteFun2_string (hv s rfl)]
    rw [onStrings, hstr, Option.bind_some, Option.map_map]
    rfl

/-! ## The cloud ids -/

/-- Write `value` for a zero or nothing in quotes. -/
def rewriteZero (value p : Bytes) : Option Bytes :=
  if p.take 2 = [quote, quote] then some (quote :: (value ++ quote :: p.drop 2))
  else if p.take 3 = [quote, 0x30, quote] then some (quote :: (value ++ quote :: p.drop 3))
  else none

theorem rewriteZero_cases (value p : Bytes) : rewriteZero value p = none ∨
    ∃ rest, p = quote :: quote :: rest ∨ p = quote :: 0x30 :: quote :: rest := by
  rw [rewriteZero]
  split
  · next h =>
    have hp := List.take_append_drop 2 p
    rw [h] at hp
    exact .inr ⟨p.drop 2, .inl hp.symm⟩
  · split
    · next h =>
      have hp := List.take_append_drop 3 p
      rw [h] at hp
      exact .inr ⟨p.drop 3, .inr hp.symm⟩
    · exact .inl rfl

theorem rewriteZero_empty (value rest : Bytes) :
    rewriteZero value (quote :: quote :: rest) = some (quote :: (value ++ quote :: rest)) :=
  if_pos rfl

theorem rewriteZero_zero (value rest : Bytes) :
    rewriteZero value (quote :: 0x30 :: quote :: rest) = some (quote :: (value ++ quote :: rest)) :=
  (if_neg (show ¬ [quote, 0x30] = [quote, quote] by decide)).trans (if_pos rfl)

theorem patchStringZeroTo_eq (payload key value : Bytes) :
    patchStringZeroTo payload key value = rewriteValue key (rewriteZero value) payload := by
  rw [patchStringZeroTo, rewriteValue]
  congr 1
  funext r
  dsimp only
  split
  · next rest heq =>
    rw [heq, rewriteZero_empty]
    rfl
  · next rest heq =>
    rw [heq, rewriteZero_zero]
    rfl
  · next hempty hzero =>
    have hnone : rewriteZero value (dropSpaces r.2) = none := by
      refine (rewriteZero_cases value _).resolve_right ?_
      rintro ⟨rest, h | h⟩
      · exact hempty rest h
      · exact hzero rest h
    rw [hnone, Option.map_none]

/-- A string that stands for no id. -/
def IsZero (s : Str) : Prop := s.text = [quote, quote] ∨ s.text = [quote, 0x30, quote]

instance (s : Str) : Decidable (IsZero s) := inferInstanceAs (Decidable (_ ∨ _))

def zeroChange (r s : Str) : Option Str := if IsZero s then some r else none

/-- A string whose text has a quote where the text of a zero ends is a zero. -/
theorem isZero_of_begins {s : Str} {q rest : Bytes}
    (h : s.text ++ q = quote :: quote :: rest ∨ s.text ++ q = quote :: 0x30 :: quote :: rest) :
    IsZero s := by
  -- a quote in the literal would have a backslash before it
  have hlast {a b : Bytes} (ha : a.getLast? ≠ some 0x5c)
      (heq : StrChar.texts s.chars ++ quote :: q = a ++ quote :: b) :
      StrChar.texts s.chars <+: a := by
    rcases List.append_eq_append_iff.1 heq with ⟨c, hc, -⟩ | ⟨c, hc, hd⟩
    · exact ⟨c, hc.symm⟩
    · cases c with
      | nil => rw [hc, List.append_nil]
      | cons d c =>
        obtain ⟨rfl, -⟩ := List.cons.inj hd
        obtain ⟨a', rfl⟩ := StrChar.quote_texts hc
        exact absurd List.getLast?_concat ha
  have htext : s.text ++ q = quote :: (StrChar.texts s.chars ++ quote :: q) := by
    rw [Str.text, List.cons_append, List.append_assoc]
    rfl
  rw [htext] at h
  rw [IsZero, Str.text]
  rcases h with h | h
  · have hnil := List.prefix_nil.1 (@hlast [] rest (by simp) (List.cons.inj h).2)
    rw [hnil]
    exact .inl rfl
  · have hzero := @hlast [0x30] rest (by decide) (List.cons.inj h).2
    rcases List.prefix_cons_iff.1 hzero with hnil | ⟨t, ht, hnil⟩
    · rw [hnil]
      exact .inl rfl
    · rw [ht, List.prefix_nil.1 hnil]
      exact .inr rfl

/-- **The id is rewritten as the string in the tree is.** -/
theorem rewrites_zero {value : Bytes} {r : Str} (hr : r.text = quote :: (value ++ [quote]))
    (v : Node) : Rewrites (rewriteZero value) (onStrings (zeroChange r)) v := by
  intro q _
  cases hstr : v.str? with
  | none =>
    obtain ⟨c, t, ht, -, hc⟩ := text_begins v
    have hnone : rewriteZero value (v.text ++ q) = none := by
      refine (rewriteZero_cases value _).resolve_right ?_
      rintro ⟨rest, h | h⟩
      · rw [ht] at h
        exact hc hstr (List.cons.inj h).1
      · rw [ht] at h
        exact hc hstr (List.cons.inj h).1
    rw [hnone, onStrings, hstr]
    rfl
  | some s =>
    obtain rfl := Node.eq_string hstr
    rw [onStrings, hstr, Option.bind_some, zeroChange]
    by_cases hzero : IsZero s
    · have hwrite : rewriteZero value (s.text ++ q) = some (quote :: (value ++ quote :: q)) := by
        rcases hzero with h | h
        · rw [h]
          exact rewriteZero_empty value q
        · rw [h]
          exact rewriteZero_zero value q
      rw [if_pos hzero, Node.text, hwrite, Option.map_some, Option.map_some, Node.text, hr,
        List.cons_append, List.append_assoc]
      rfl
    · have hnone : rewriteZero value (s.text ++ q) = none := by
        refine (rewriteZero_cases value _).resolve_right ?_
        rintro ⟨rest, h⟩
        exact hzero (isZero_of_begins h)
      rw [if_neg hzero, Node.text, hnone]
      rfl

/-- A field for an id of the cloud, and what is written for a zero in it. -/
structure IdField where
  name : FieldName
  value : Bytes
  plain : ∀ c ∈ value, IsPlain c
  proper : value ≠ [] ∧ value ≠ [0x30]

namespace IdField

def literal (e : IdField) : Str := .verbatim e.value e.plain

/-- The patch of the text. -/
def pair (e : IdField) : Bytes × Bytes := (e.name.bytes, e.value)

/-- The patch of the tree. -/
def change (e : IdField) : Bytes × (Str → Option Str) := (e.name.bytes, zeroChange e.literal)

theorem text_literal (e : IdField) : e.literal.text = quote :: (e.value ++ [quote]) :=
  Str.text_verbatim e.value e.plain

theorem not_isZero (e : IdField) : ¬ IsZero e.literal := by
  rw [IsZero, text_literal]
  rintro (h | h)
  · exact e.proper.1 ((List.append_left_inj [quote]).1 (List.cons.inj h).2)
  · exact e.proper.2 ((List.append_left_inj [quote]).1 (List.cons.inj h).2)

theorem settles (e : IdField) {s r : Str} (h : zeroChange e.literal s = some r) :
    r = e.literal ∧ zeroChange e.literal r = none := by
  rw [zeroChange] at h
  split at h
  · obtain rfl := Option.some.inj h
    exact ⟨rfl, if_neg e.not_isZero⟩
  · cases h

theorem patch_eq (e : IdField) {t : Text} (ht : t.node.AllMembers Spaced) :
    patchStringZeroTo t.bytes e.pair.1 e.pair.2 =
      ((t.node.find e.change.1).bind (onStrings e.change.2)).map fun _ =>
        (t.patch e.change.1 (onStrings e.change.2)).bytes := by
  rw [patchStringZeroTo_eq]
  exact rewriteValue_patch e.name ht fun v _ => rewrites_zero e.text_literal v

end IdField

theorem patchAll_cons_none {payload : Bytes} {e : Bytes × Bytes}
    (h : patchStringZeroTo payload e.1 e.2 = none) (ids : List (Bytes × Bytes)) :
    patchAll payload (e :: ids) = patchAll payload ids := by
  simp only [patchAll, List.foldl_cons, h]

theorem patchAll_cons_some {payload payload' : Bytes} {e : Bytes × Bytes}
    (h : patchStringZeroTo payload e.1 e.2 = some payload') (ids : List (Bytes × Bytes)) :
    patchAll payload (e :: ids) = ((patchAll payload' ids).1, true) := by
  simp only [patchAll, List.foldl_cons, h]
  clear h
  induction ids generalizing payload' with
  | nil => rfl
  | cons e ids ih =>
    simp only [List.foldl_cons]
    cases hpatch : patchStringZeroTo payload' e.1 e.2 with
    | none => exact ih
    | some p' => exact (@ih p').trans (congrArg (fun r => (r.1, true)) (@ih p').symm)

/-- Without a patch that does something the payload stays. -/
theorem patchAll_untouched {payload : Bytes} {ids : List (Bytes × Bytes)}
    (h : (patchAll payload ids).2 = false) : (patchAll payload ids).1 = payload := by
  induction ids with
  | nil => rfl
  | cons e ids ih =>
    cases hpatch : patchStringZeroTo payload e.1 e.2 with
    | none =>
      rw [patchAll_cons_none hpatch] at h ⊢
      exact ih h
    | some payload' =>
      rw [patchAll_cons_some hpatch] at h
      cases h

/-- The patches of the text are those of the tree. -/
theorem patchAll_text (l : List IdField) {t : Text} (ht : t.node.AllMembers Spaced) :
    (patchAll t.bytes (l.map IdField.pair)).1 = (t.patchAll (l.map IdField.change)).bytes ∧
      (t.patchAll (l.map IdField.change)).node.AllMembers Spaced := by
  induction l generalizing t with
  | nil => exact ⟨rfl, ht⟩
  | cons e l ih =>
    have hspaced : (t.patch e.change.1 (onStrings e.change.2)).node.AllMembers Spaced := by
      refine Text.allMembers_patch Spaced.other (fun v w hw => ?_) ht
      obtain ⟨s, r, -, rfl, -⟩ := onStrings_eq_some hw
      trivial
    have hpatch := e.patch_eq ht
    obtain ⟨hlater, hmembers⟩ := ih hspaced
    rw [List.map_cons, List.map_cons, Text.patchAll]
    refine ⟨?_, hmembers⟩
    rw [← hlater]
    cases hchange : (t.node.find e.change.1).bind (onStrings e.change.2) with
    | none =>
      rw [hchange, Option.map_none] at hpatch
      rw [patchAll_cons_none hpatch, Text.patch_of_settled hchange]
    | some w =>
      rw [hchange, Option.map_some] at hpatch
      rw [patchAll_cons_some hpatch]

theorem patchAll_of_settled {l : List IdField} {t : Text} (ht : t.node.AllMembers Spaced)
    (h : ∀ e ∈ l.map IdField.change, t.Settled e.1 (onStrings e.2)) :
    patchAll t.bytes (l.map IdField.pair) = (t.bytes, false) := by
  induction l with
  | nil => rfl
  | cons e l ih =>
    obtain ⟨he, hl⟩ := List.forall_mem_cons.1 h
    have hpatch := e.patch_eq ht
    rw [he, Option.map_none] at hpatch
    rw [List.map_cons, patchAll_cons_none hpatch, ih hl]

/-! ## What a patch may change -/

/-- `u` is `t`, but for the value of the first member named `key`, which is changed as `Change` says
where that is possible. -/
inductive Changed (key : Bytes) (Change : Node → Node → Prop) (t : Text) : Text → Prop
  | absent (h : t.node.first (named key) = none) : Changed key Change t t
  | kept (f : t.node.Found) (h : t.node.first (named key) = some f)
      (hkept : ∀ w, ¬ Change f.value w) : Changed key Change t t
  | changed (f : t.node.Found) (w : Node) (h : t.node.first (named key) = some f)
      (hchange : Change f.value w) : Changed key Change t (t.set f w)

theorem changed_patch {key : Bytes} {Change : Node → Node → Prop} {change : Node → Option Node}
    {t : Text} (h : ∀ f, t.node.first (named key) = some f →
      (∀ w, change f.value = some w → Change f.value w) ∧
        (change f.value = none → ∀ w, ¬ Change f.value w)) :
    Changed key Change t (t.patch key change) := by
  rcases t.patch_cases key change with ⟨heq, hsettled⟩ | ⟨f, w, hf, hw, heq⟩
  · rw [heq]
    rw [Text.Settled, ← Node.map_first] at hsettled
    cases hf : t.node.first (named key) with
    | none => exact .absent hf
    | some f =>
      rw [hf] at hsettled
      exact .kept f hf ((h f hf).2 hsettled)
  · rw [heq]
    exact .changed f w hf ((h f hf).1 w hw)

/-- The number has 00 in bits 8 and 9, and 01 afterwards. -/
def GainsCard (v w : Node) : Prop := ∃ m n : ℤ, v.doc = .number m ∧ w.doc = .number n ∧
  GainsBit 8 m n ∧ m.testBit 9 = false

/-- The string is a number of 64 bits that gains bit 17. -/
def GainsStorage (v w : Node) : Prop := ∃ s r : Bytes, v.doc = .string s ∧ w.doc = .string r ∧
  s ≠ [] ∧ hexNat s < 2 ^ 64 ∧ (∀ c ∈ r, isHexDigit c = true) ∧ GainsBit 17 (hexNat s) (hexNat r)

/-- The string is a zero or empty, and `value` afterwards. -/
def GivenId (value : Bytes) (v w : Node) : Prop :=
  (v.text = ascii "\"0\"" ∨ v.text = ascii "\"\"") ∧ w.doc = .string value

/-- One change after the other. -/
inductive ChangedAll : List (Bytes × Bytes) → Text → Text → Prop
  | nil (t : Text) : ChangedAll [] t t
  | cons {key value : Bytes} {ids : List (Bytes × Bytes)} {t t' u : Text}
      (first : Changed key (GivenId value) t t') (rest : ChangedAll ids t' u) :
      ChangedAll ((key, value) :: ids) t u

/-- A report that names its print. -/
def NamesPrint (payload name : Bytes) : Prop :=
  jsonPeekStringField payload subtaskNameKey = some name ∧ name ≠ [] ∧ name ≠ ascii "-1"

/-- The members of a report: numbers are written as integers and not too large, and the string of
capabilities with hexadecimal digits. -/
structure ReportMember (key : Str) (after lead : Ws) (v : Node) : Prop where
  spaced : Spaced key after lead v
  number : ∀ n : Number, v = .number n →
    Numeral.Literal n.toNumeral ∧ n.intValue.natAbs ≤ 2 ^ 53
  fun2 : key.decoded = ascii "fun2" → ∀ s, v = .string s → HexLiteral s

/-! ## Each of the patches -/

theorem toRat_of_literal {n : Numeral} (h : Numeral.Literal n) : n.toRat = n.intValue := by
  refine Numeral.toRat_of_isInt ?_
  simp [Numeral.IsInt, Numeral.scale, Numeral.expNeg, Numeral.expBytes, Numeral.fracBytes, h.1, h.2,
    show natOf [] = 0 from rfl]

theorem literal_ofInt (i : ℤ) : Numeral.Literal (Number.ofInt i).toNumeral := ⟨rfl, rfl⟩

theorem homeFlagChange_eq_some {v w : Node} (h : homeFlagChange v = some w) :
    ∃ n : Number, v = .number n ∧ w = .number (.ofInt (n.intValue.lor (2 ^ 8 : ℕ))) ∧
      n.intValue.testBit 8 = false ∧ n.intValue.testBit 9 = false := by
  cases v with
  | number n =>
    rw [homeFlagChange] at h
    split at h
    · next hbits => exact ⟨n, rfl, (Option.some.inj h).symm, hbits.2⟩
    · cases h
  | null | bool | string | emptyArray | array | emptyObject | object => cases h

theorem settles_homeFlag {v w : Node} (h : homeFlagChange v = some w) :
    Settles rewriteHomeFlag homeFlagChange w := by
  obtain ⟨n, rfl, rfl, hbit, -⟩ := homeFlagChange_eq_some h
  refine ⟨rewrites_homeFlag fun m hm => ?_, ?_, trivial⟩
  · rw [← Node.number.inj hm]
    exact literal_ofInt _
  · rw [homeFlagChange, Number.intValue_ofInt, (gainsBit_lor hbit).2.1, if_neg (by simp)]

theorem doc_eq_number {v : Node} {q : ℚ} (h : v.doc = .number q) :
    ∃ n : Number, v = .number n ∧ n.toRat = q := by
  cases v with
  | number n => exact ⟨n, rfl, Doc.number.inj h⟩
  | null | bool | string | emptyArray | array | emptyObject | object => cases h

theorem doc_eq_string {v : Node} {s : Bytes} (h : v.doc = .string s) :
    ∃ r, v = .string r ∧ r.decoded = s := by
  cases v with
  | string r => exact ⟨r, rfl, Doc.string.inj h⟩
  | null | bool | number | emptyArray | array | emptyObject | object => cases h

/-- The flag of a card is changed exactly when it says that there is none. -/
theorem homeFlagChange_spec {v : Node} (hv : ∀ n : Number, v = .number n →
    Numeral.Literal n.toNumeral ∧ n.intValue.natAbs ≤ 2 ^ 53) :
    (∀ w, homeFlagChange v = some w → GainsCard v w) ∧
      (homeFlagChange v = none → ∀ w, ¬ GainsCard v w) := by
  constructor
  · intro w hw
    obtain ⟨n, rfl, rfl, h₈, h₉⟩ := homeFlagChange_eq_some hw
    refine ⟨n.intValue, n.intValue.lor (2 ^ 8 : ℕ), ?_, ?_, gainsBit_lor h₈, h₉⟩
    · rw [Node.doc, toRat_of_literal (hv n rfl).1]
    · rw [Node.doc, toRat_of_literal (literal_ofInt _), Number.intValue_ofInt]
  · rintro hnone w ⟨m, k, hm, -, hbit, h₉⟩
    obtain ⟨n, rfl, hn⟩ := doc_eq_number hm
    obtain ⟨hliteral, hrange⟩ := hv n rfl
    rw [toRat_of_literal hliteral] at hn
    obtain rfl : n.intValue = m := by exact_mod_cast hn
    have hlt : n.intValue.natAbs < 2 ^ 63 := lt_of_le_of_lt hrange (by norm_num)
    rw [homeFlagChange, if_pos ⟨hlt, hbit.1, h₉⟩] at hnone
    cases hnone

/-- What holds of every member holds of the one that is found. -/
theorem reportMember_first {t : Text} (ht : t.node.AllMembers ReportMember) {k : Bytes}
    {f : t.node.Found} (hf : t.node.first (named k) = some f) :
    ∃ key after, ReportMember key after f.lead f.value ∧ key.decoded = k := by
  obtain ⟨key, after, hmember, hkey⟩ := Node.first_domain ht hf
  exact ⟨key, after, hmember, eq_of_beq hkey⟩

theorem tryRewriteHomeFlag_keeps {t : Text} (ht : t.node.AllMembers ReportMember) :
    ∃ u : Text, (tryRewriteHomeFlag t.bytes).getD t.bytes = u.bytes ∧
      Changed (ascii "home_flag") GainsCard t u ∧ tryRewriteHomeFlag u.bytes = none := by
  have hspaced := Node.allMembers_mono (fun _ _ _ _ h => ReportMember.spaced h) ht
  have hnumber {f : t.node.Found} (hf : t.node.first (named (ascii "home_flag")) = some f) :
      ∀ n : Number, f.value = .number n →
        Numeral.Literal n.toNumeral ∧ n.intValue.natAbs ≤ 2 ^ 53 := by
    obtain ⟨key, after, hmember, -⟩ := reportMember_first ht hf
    exact hmember.number
  have hrewrites : ∀ v ∈ t.node.find homeFlagKey.bytes,
      Rewrites rewriteHomeFlag homeFlagChange v := by
    intro v hv
    rw [← Node.map_first] at hv
    obtain ⟨f, hf, rfl⟩ := Option.map_eq_some_iff.1 hv
    exact rewrites_homeFlag fun n hn => (hnumber hf n hn).1
  obtain ⟨hbytes, hagain⟩ := rewriteValue_settles homeFlagKey hspaced hrewrites fun v w =>
    settles_homeFlag
  refine ⟨t.patch (ascii "home_flag") homeFlagChange, hbytes, ?_, hagain⟩
  exact changed_patch fun f hf => homeFlagChange_spec (hnumber hf)

theorem fun2Change_eq_some {s r : Str} (h : fun2Change s = some r) :
    s.decoded ≠ [] ∧ hexNat s.decoded < 2 ^ 64 ∧ (hexNat s.decoded).testBit 17 = false ∧
      r.Verbatim ∧ r.decoded = hexOf (hexNat s.decoded ||| 2 ^ 17) := by
  rw [fun2Change] at h
  split at h
  · cases h
  · next hcond =>
    obtain ⟨hnil, hcond⟩ := not_or.1 hcond
    obtain ⟨hrange, hbit⟩ := not_or.1 hcond
    obtain rfl := Option.some.inj h
    exact ⟨hnil, Nat.not_le.1 hrange, Bool.not_eq_true _ ▸ hbit, Str.verbatim_verbatim _ _,
      Str.decoded_verbatim _ _⟩

theorem gainsBit_or {i n : ℕ} (h : n.testBit i = false) :
    GainsBit i n ((n ||| 2 ^ i : ℕ) : ℤ) := @gainsBit_lor i (n : ℤ) h

theorem fun2_written {s r : Str} (h : fun2Change s = some r) :
    (∀ c ∈ r.decoded, isHexDigit c = true) ∧
      GainsBit 17 (hexNat s.decoded) (hexNat r.decoded) := by
  obtain ⟨-, -, hbit, -, hdecoded⟩ := fun2Change_eq_some h
  rw [hdecoded, hexNat_hexOf]
  exact ⟨isHexDigit_of_mem_hexOf, gainsBit_or hbit⟩

theorem settles_fun2 {v w : Node} (h : onStrings fun2Change v = some w) :
    Settles rewriteFun2 (onStrings fun2Change) w := by
  obtain ⟨s, r, -, rfl, hr⟩ := onStrings_eq_some h
  obtain ⟨hdigits, hgains⟩ := fun2_written hr
  refine ⟨rewrites_fun2 fun s' hs' => ?_, ?_, trivial⟩
  · rw [← Node.string.inj hs']
    exact ⟨(fun2Change_eq_some hr).2.2.2.1, hdigits⟩
  · have hset : (hexNat r.decoded).testBit 17 = true := hgains.2.1
    show ((some r).bind fun2Change).map Node.string = none
    rw [Option.bind_some, fun2Change, if_pos (.inr (.inr hset)), Option.map_none]

/-- The capabilities are changed exactly when bit 17 is missing. -/
theorem fun2Change_spec (v : Node) :
    (∀ w, onStrings fun2Change v = some w → GainsStorage v w) ∧
      (onStrings fun2Change v = none → ∀ w, ¬ GainsStorage v w) := by
  constructor
  · intro w hw
    obtain ⟨s, r, rfl, rfl, hr⟩ := onStrings_eq_some hw
    obtain ⟨hnil, hrange, -⟩ := fun2Change_eq_some hr
    obtain ⟨hdigits, hgains⟩ := fun2_written hr
    exact ⟨s.decoded, r.decoded, rfl, rfl, hnil, hrange, hdigits, hgains⟩
  · rintro hnone w ⟨s, r, hs, -, hnil, hrange, -, hbit, -⟩
    obtain ⟨s', rfl, rfl⟩ := doc_eq_string hs
    have hclear : ¬ (hexNat s'.decoded).testBit 17 = true := by
      rw [Bool.not_eq_true]
      exact hbit
    have hcond : ¬ (s'.decoded = [] ∨ 2 ^ 64 ≤ hexNat s'.decoded ∨
        (hexNat s'.decoded).testBit 17 = true) :=
      not_or.2 ⟨hnil, not_or.2 ⟨Nat.not_le.2 hrange, hclear⟩⟩
    rw [onStrings, Node.str?, Option.bind_some, fun2Change, if_neg hcond] at hnone
    cases hnone

theorem tryPatchFun2_keeps {t : Text} (ht : t.node.AllMembers ReportMember) :
    ∃ u : Text, (tryPatchFun2InternalStorage t.bytes).getD t.bytes = u.bytes ∧
      Changed (ascii "fun2") GainsStorage t u ∧ tryPatchFun2InternalStorage u.bytes = none := by
  have hspaced := Node.allMembers_mono (fun _ _ _ _ h => ReportMember.spaced h) ht
  have hrewrites : ∀ v ∈ t.node.find fun2Key.bytes,
      Rewrites rewriteFun2 (onStrings fun2Change) v := by
    intro v hv
    rw [← Node.map_first] at hv
    obtain ⟨f, hf, rfl⟩ := Option.map_eq_some_iff.1 hv
    obtain ⟨key, after, hmember, hkey⟩ := reportMember_first ht hf
    exact rewrites_fun2 (hmember.fun2 hkey)
  obtain ⟨hbytes, hagain⟩ := rewriteValue_settles fun2Key hspaced hrewrites fun v w => settles_fun2
  refine ⟨t.patch (ascii "fun2") (onStrings fun2Change), hbytes, ?_, hagain⟩
  exact changed_patch fun f _ => fun2Change_spec f.value

/-- An id field is written exactly when it is a zero or empty. -/
theorem zeroChange_spec (e : IdField) (v : Node) :
    (∀ w, onStrings (zeroChange e.literal) v = some w → GivenId e.value v w) ∧
      (onStrings (zeroChange e.literal) v = none → ∀ w, ¬ GivenId e.value v w) := by
  constructor
  · intro w hw
    obtain ⟨s, r, rfl, rfl, hr⟩ := onStrings_eq_some hw
    obtain ⟨rfl, -⟩ := e.settles hr
    have hzero : IsZero s := by
      by_contra hno
      rw [zeroChange, if_neg hno] at hr
      cases hr
    exact ⟨hzero.symm, congrArg Doc.string (Str.decoded_verbatim _ _)⟩
  · rintro hnone w ⟨htext, -⟩
    obtain ⟨s, rfl⟩ : ∃ s, v = .string s := by
      cases hstr : v.str? with
      | some s => exact ⟨s, Node.eq_string hstr⟩
      | none =>
        obtain ⟨c, t, ht, -, hc⟩ := text_begins v
        have hquote : c = quote := by
          rcases htext with h | h <;> rw [ht] at h <;> exact (List.cons.inj h).1
        exact absurd hquote (hc hstr)
    have hzero : IsZero s := htext.symm
    rw [onStrings, Node.str?, Option.bind_some, zeroChange, if_pos hzero] at hnone
    cases hnone

theorem changedAll_patchAll (l : List IdField) (t : Text) :
    ChangedAll (l.map IdField.pair) t (t.patchAll (l.map IdField.change)) := by
  induction l generalizing t with
  | nil => exact .nil t
  | cons e l ih => exact .cons (changed_patch fun f _ => zeroChange_spec e f.value) (ih _)

theorem isPlain_syntheticSubtaskId (name version : Bytes) :
    ∀ c ∈ syntheticSubtaskId name version, IsPlain c := by
  have hhex (d : Fin 16) : IsPlain (hexLower d) := by
    revert d
    decide
  have hlan : ∀ c ∈ ascii "lan-", IsPlain c := List.all_iff_forall_prop.1 (by decide)
  intro c hc
  rcases List.mem_append.1 hc with hc | hc
  · exact hlan c hc
  · obtain ⟨i, -, rfl⟩ := List.mem_map.1 hc
    exact hhex ⟨_, Nat.mod_lt _ (by decide)⟩

theorem syntheticSubtaskId_proper (name version : Bytes) :
    syntheticSubtaskId name version ≠ [] ∧ syntheticSubtaskId name version ≠ [0x30] := by
  have hid : ∃ t, syntheticSubtaskId name version = 0x6c :: t := ⟨_, rfl⟩
  obtain ⟨t, ht⟩ := hid
  rw [ht]
  exact ⟨List.cons_ne_nil _ _, fun h => absurd (List.cons.inj h).1 (by decide)⟩

/-- The fields of the cloud ids. -/
theorem exists_idFields (name version : Bytes) :
    ∃ l : List IdField, l.map IdField.pair = cloudIds (syntheticSubtaskId name version) ∧
      l.Pairwise fun e e' => e'.name.bytes ≠ e.name.bytes := by
  let project : FieldName := ⟨ascii "project_id", by decide, List.all_iff_forall_prop.1 (by decide)⟩
  let profile : FieldName := ⟨ascii "profile_id", by decide, List.all_iff_forall_prop.1 (by decide)⟩
  let task : FieldName := ⟨ascii "task_id", by decide, List.all_iff_forall_prop.1 (by decide)⟩
  let subtask : FieldName := ⟨ascii "subtask_id", by decide, List.all_iff_forall_prop.1 (by decide)⟩
  have hlan : ∀ c ∈ ascii "lan", IsPlain c := List.all_iff_forall_prop.1 (by decide)
  have hproper : ascii "lan" ≠ [] ∧ ascii "lan" ≠ [0x30] := by decide
  have hid := isPlain_syntheticSubtaskId name version
  have hid' := syntheticSubtaskId_proper name version
  refine ⟨[⟨project, _, hlan, hproper⟩, ⟨profile, _, hlan, hproper⟩, ⟨task, _, hid, hid'⟩,
    ⟨subtask, _, hid, hid'⟩], rfl, ?_⟩
  simp only [List.pairwise_cons, List.forall_mem_cons, List.Pairwise.nil, and_true]
  refine ⟨⟨by decide, by decide, by decide, ?_⟩, ⟨by decide, by decide, ?_⟩, ⟨by decide, ?_⟩, ?_⟩
  all_goals exact fun e he => absurd he List.not_mem_nil

/-- The text that is handed on. -/
theorem tryRewritePrintIds_getD {payload name : Bytes} (h : NamesPrint payload name)
    (version : Bytes) : ((tryRewritePrintIds payload version).map (·.1)).getD payload =
      (patchAll payload (cloudIds (syntheticSubtaskId name version))).1 := by
  have hname : jsonPeekStringField payload (ascii "subtask_name") = some name := h.1
  simp only [tryRewritePrintIds, hname, not_or.2 h.2, if_false]
  cases htouched : (patchAll payload (cloudIds (syntheticSubtaskId name version))).2 with
  | true => rfl
  | false => exact (patchAll_untouched htouched).symm

theorem tryRewritePrintIds_unnamed {payload : Bytes} (h : ∀ name, ¬ NamesPrint payload name)
    (version : Bytes) : tryRewritePrintIds payload version = none := by
  rw [tryRewritePrintIds]
  cases hname : jsonPeekStringField payload (ascii "subtask_name") with
  | none => rfl
  | some name =>
    have hproper : name = [] ∨ name = ascii "-1" := by
      by_contra hno
      exact h name ⟨hname, not_or.1 hno⟩
    exact if_pos hproper

theorem tryRewritePrintIds_keeps {t : Text} (ht : t.node.AllMembers ReportMember)
    (version : Bytes) :
    ∃ u : Text, ((tryRewritePrintIds t.bytes version).map (·.1)).getD t.bytes = u.bytes ∧
      (∀ name, NamesPrint t.bytes name →
        ChangedAll (cloudIds (syntheticSubtaskId name version)) t u) ∧
      ((∀ name, ¬ NamesPrint t.bytes name) → u = t) ∧
      tryRewritePrintIds u.bytes version = none := by
  have hspaced := Node.allMembers_mono (fun _ _ _ _ h => ReportMember.spaced h) ht
  by_cases hnamed : ∃ name, NamesPrint t.bytes name
  · obtain ⟨name, hname⟩ := hnamed
    obtain ⟨l, hpairs, hdistinct⟩ := exists_idFields name version
    obtain ⟨hbytes, hspaced'⟩ := patchAll_text l hspaced
    rw [hpairs] at hbytes
    have hsettled : ∀ e ∈ l.map IdField.change,
        (t.patchAll (l.map IdField.change)).Settled e.1 (onStrings e.2) := by
      refine Text.settled_patchAll (List.pairwise_map.2 hdistinct) (fun e he s r hr => ?_) t
      obtain ⟨e', -, rfl⟩ := List.mem_map.1 he
      exact (e'.settles hr).2
    -- the patched report names the same print, so it would be given the same ids
    have hsame : NamesPrint (t.patchAll (l.map IdField.change)).bytes name := by
      rw [NamesPrint, ← hbytes, peek_patchAll (harmless_cloudIds name version)]
      exact hname
    refine ⟨t.patchAll (l.map IdField.change), ?_, ?_, ?_, ?_⟩
    · rw [tryRewritePrintIds_getD hname version, hbytes]
    · intro name' hname'
      obtain rfl : name = name' := Option.some.inj (hname.1.symm.trans hname'.1)
      rw [← hpairs]
      exact changedAll_patchAll l t
    · exact fun hno => absurd hname (hno name)
    · have hagain := patchAll_of_settled hspaced' hsettled
      rw [hpairs] at hagain
      have hpeek : jsonPeekStringField (t.patchAll (l.map IdField.change)).bytes
          (ascii "subtask_name") = some name := hsame.1
      simp only [tryRewritePrintIds, hpeek, not_or.2 hname.2, if_false, hagain, Bool.false_eq_true]
  · have hno : ∀ name, ¬ NamesPrint t.bytes name := fun name h => hnamed ⟨name, h⟩
    have hnone := tryRewritePrintIds_unnamed hno version
    exact ⟨t, by rw [hnone]; rfl, fun name h => absurd h (hno name), fun _ => rfl, hnone⟩

/-- **The patches keep the report**: each of them changes the value of the first member with its
name, or with the four names of the ids, and nothing else, and has nothing to change afterwards. -/
theorem patches_keep_frame (t : Text) (ht : t.node.AllMembers ReportMember) :
    (∃ u : Text, (tryRewriteHomeFlag t.bytes).getD t.bytes = u.bytes ∧
      Changed (ascii "home_flag") GainsCard t u ∧ tryRewriteHomeFlag u.bytes = none) ∧
    (∃ u : Text, (tryPatchFun2InternalStorage t.bytes).getD t.bytes = u.bytes ∧
      Changed (ascii "fun2") GainsStorage t u ∧ tryPatchFun2InternalStorage u.bytes = none) ∧
    ∀ version, ∃ u : Text,
      ((tryRewritePrintIds t.bytes version).map (·.1)).getD t.bytes = u.bytes ∧
      (∀ name, NamesPrint t.bytes name →
        ChangedAll (cloudIds (syntheticSubtaskId name version)) t u) ∧
      ((∀ name, ¬ NamesPrint t.bytes name) → u = t) ∧
      tryRewritePrintIds u.bytes version = none :=
  ⟨tryRewriteHomeFlag_keeps ht, tryPatchFun2_keeps ht, tryRewritePrintIds_keeps ht⟩

theorem allMembers_ofFields {D : Str → Ws → Ws → Node → Prop} {f : Field} {fs : List Field}
    (h : ∀ g ∈ f :: fs, D g.1 .none .none g.2 ∧ g.2.AllMembers D) :
    (Members.ofFields f fs).AllMembers D := by
  induction fs generalizing f with
  | nil => exact h f List.mem_cons_self
  | cons g fs ih =>
    exact ⟨h f List.mem_cons_self, ih fun e he => h e (List.mem_cons_of_mem _ he)⟩

/-- A member that is printed with nothing to escape in its name. -/
theorem reportMember_strOf {k : Bytes} {v : Node} (hk : 0x5c ∉ escape k)
    (hnumber : ∀ n : Number, v = .number n →
      Numeral.Literal n.toNumeral ∧ n.intValue.natAbs ≤ 2 ^ 53)
    (hfun2 : k = ascii "fun2" → ∀ s, v = .string s → HexLiteral s) :
    ReportMember (strOf k) .none .none v where
  spaced := ⟨(by rw [Str.Verbatim, text_strOf]; exact hk), rfl, fun c hc => (by cases hc)⟩
  number := hnumber
  fun2 hkey := hfun2 (by rw [← hkey, decoded_strOf])

theorem reportMember_string {k : Bytes} (s : Bytes) (hk : 0x5c ∉ escape k)
    (hfun2 : k = ascii "fun2" → HexLiteral (strOf s)) :
    ReportMember (strOf k) .none .none (.string (strOf s)) :=
  reportMember_strOf hk (fun n hn => by cases hn) fun hkey s' hs' =>
    Node.string.inj hs' ▸ hfun2 hkey

/-- The capabilities of a report, and a print that has no ids of the cloud. -/
def printStrings : List (Bytes × Bytes) :=
  [(ascii "fun2", ascii "0"), (ascii "subtask_name", ascii "cube.3mf"),
    (ascii "project_id", ascii "0"), (ascii "profile_id", ascii "0"), (ascii "task_id", ascii "0"),
    (ascii "subtask_id", ascii "0")]

/-- A report with a string that looks like a member of it, and a flag that says that there is no
card. -/
noncomputable def cardReport : Text where
  before := .none
  node := .object (.ofFields (strOf (ascii "print"), .object (.ofFields
    (strOf (ascii "msg"), .string (strOf (ascii "no \"home_flag\": here")))
    ((strOf (ascii "home_flag"), .number (.ofInt (-1024))) ::
      printStrings.map fun e => (strOf e.1, .string (strOf e.2))))) [])
  after := .none

theorem cardReport_bytes : cardReport.bytes = ascii ("\x7b\"print\":\x7b" ++
    "\"msg\":\"no \\\"home_flag\\\": here\",\"home_flag\":-1024,\"fun2\":\"0\"," ++
    "\"subtask_name\":\"cube.3mf\",\"project_id\":\"0\",\"profile_id\":\"0\"," ++
    "\"task_id\":\"0\",\"subtask_id\":\"0\"\x7d\x7d") := by
  have hprint : escape (ascii "print") = ascii "\"print\"" := by decide
  have hmsg : escape (ascii "msg") = ascii "\"msg\"" := by decide
  have htext : escape (ascii "no \"home_flag\": here") =
      ascii "\"no \\\"home_flag\\\": here\"" := by decide +kernel
  have hflag : escape (ascii "home_flag") = ascii "\"home_flag\"" := by decide
  have hnumber : decimalInt (-1024) = ascii "-1024" := by decide
  have hstrings : (printStrings.map fun e => escape e.1 ++ 0x3a :: escape e.2) =
      [ascii "\"fun2\":\"0\"", ascii "\"subtask_name\":\"cube.3mf\"",
        ascii "\"project_id\":\"0\"", ascii "\"profile_id\":\"0\"", ascii "\"task_id\":\"0\"",
        ascii "\"subtask_id\":\"0\""] := by decide +kernel
  have hfields : (printStrings.map fun e => ((strOf e.1, .string (strOf e.2)) : Field)).flatMap
      (fun g => 0x2c :: (g.1.text ++ 0x3a :: g.2.text)) =
        (printStrings.map fun e => escape e.1 ++ 0x3a :: escape e.2).flatMap (0x2c :: ·) := by
    simp only [List.flatMap_map, Node.text, text_strOf]
  rw [cardReport, Text.bytes, Node.text, Members.text_ofFields]
  simp only [Field.text, Node.text, Members.text_ofFields, text_strOf, List.flatMap_cons,
    List.flatMap_nil, Number.text_ofInt, hfields, hstrings, hprint, hmsg, htext, hflag, hnumber,
    Ws.none]
  decide +kernel

theorem namesPrint_cardReport : NamesPrint cardReport.bytes (ascii "cube.3mf") := by
  rw [cardReport_bytes]
  exact ⟨by decide +kernel, by decide, by decide⟩

theorem reportMembers_cardReport : cardReport.node.AllMembers ReportMember := by
  have hstrings : ∀ e ∈ printStrings, ReportMember (strOf e.1) .none .none
      (.string (strOf e.2)) := by
    have hplain : ∀ e ∈ printStrings, 0x5c ∉ escape e.1 := by decide +kernel
    have hzero : ∀ e ∈ printStrings, e.1 = ascii "fun2" → e.2 = ascii "0" := by decide +kernel
    intro e he
    refine reportMember_string e.2 (hplain e he) fun hkey => ?_
    rw [hzero e he hkey]
    refine ⟨by rw [Str.Verbatim, text_strOf]; decide, ?_⟩
    rw [decoded_strOf]
    exact List.all_iff_forall_prop.1 (by decide)
  refine allMembers_ofFields (List.forall_mem_singleton.2 ⟨?_, allMembers_ofFields ?_⟩)
  · refine reportMember_strOf (by decide) (fun n hn => by cases hn) fun hkey => ?_
    exact absurd hkey (by decide)
  · refine List.forall_mem_cons.2 ⟨⟨?_, trivial⟩, List.forall_mem_cons.2 ⟨⟨?_, trivial⟩, ?_⟩⟩
    · exact reportMember_string _ (by decide) fun hkey => absurd hkey (by decide)
    · refine reportMember_strOf (by decide) (fun n hn => ?_) fun hkey => absurd hkey (by decide)
      rw [← Node.number.inj hn]
      exact ⟨literal_ofInt _, by rw [Number.intValue_ofInt]; decide⟩
    · intro g hg
      obtain ⟨e, he, rfl⟩ := List.mem_map.1 hg
      exact ⟨hstrings e he, trivial⟩

theorem patches_keep_cardReport :
    (∃ u : Text, (tryRewriteHomeFlag cardReport.bytes).getD cardReport.bytes = u.bytes ∧
      Changed (ascii "home_flag") GainsCard cardReport u ∧ tryRewriteHomeFlag u.bytes = none) ∧
    (∃ u : Text, (tryPatchFun2InternalStorage cardReport.bytes).getD cardReport.bytes = u.bytes ∧
      Changed (ascii "fun2") GainsStorage cardReport u ∧
      tryPatchFun2InternalStorage u.bytes = none) ∧
    ∃ u : Text, ((tryRewritePrintIds cardReport.bytes (ascii "2")).map (·.1)).getD
        cardReport.bytes = u.bytes ∧
      ChangedAll (cloudIds (syntheticSubtaskId (ascii "cube.3mf") (ascii "2"))) cardReport u ∧
      tryRewritePrintIds u.bytes (ascii "2") = none := by
  obtain ⟨hflag, hfun2, hids⟩ := patches_keep_frame cardReport reportMembers_cardReport
  obtain ⟨u, hu, hchanged, -, hagain⟩ := hids (ascii "2")
  exact ⟨hflag, hfun2, u, hu, hchanged _ namesPrint_cardReport, hagain⟩

end BambooNet.Agent
