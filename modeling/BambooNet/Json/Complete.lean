import BambooNet.Json.Safe
import BambooNet.Lib.JsonSyntax
import Mathlib.Data.List.Chain
import Mathlib.Data.List.DropRight

/-!
# Every JSON text is parsed

The parser reads the text of a syntax tree as the value of the tree, when its numbers are in range
and it is not nested too deep (`parse_total`).
-/

namespace BambooNet.Json

open JsonSyntax

/-! ## Whitespace -/

theorem isWs_iff {c : UInt8} : isWs c = true ↔ c ∈ whitespace := by
  simp [isWs, whitespace, or_assoc]

theorem skipWs_ws (ws : Ws) (p : Bytes) : skipWs (ws.bytes ++ p) = skipWs p :=
  List.dropWhile_append_of_pos fun c hc => isWs_iff.2 (ws.white c hc)

theorem skipWs_cons {c : UInt8} (h : isWs c = false) (p : Bytes) : skipWs (c :: p) = c :: p := by
  rw [skipWs, List.dropWhile_cons_of_neg (by simp [h])]

theorem skipWs_skipWs (p : Bytes) : skipWs (skipWs p) = skipWs p :=
  List.dropWhile_idempotent ..

/-! ## Strings -/

theorem hexDigit?_byte (h : Hex) : hexDigit? h.byte = some h.digit := by
  obtain ⟨digit, upper⟩ := h
  revert digit upper
  decide

theorem hex4?_text (u : Hex4) : hex4? u.a.byte u.b.byte u.c.byte u.d.byte = some u.value := by
  simp [hex4?, hexDigit?_byte, Hex4.value]

theorem lowBits (x : ℕ) : 0x80 ||| x &&& 0x3f = x % 0x40 + 0x80 := by
  have hor : ∀ k < 0x40, 0x80 ||| k = k + 0x80 := by decide
  rw [show x &&& 0x3f = x % 0x40 from Nat.and_two_pow_sub_one_eq_mod x 6]
  exact hor _ (Nat.mod_lt _ (by decide))

/-- The parser encodes code points in UTF-8. -/
theorem utf8_eq {cp : ℕ} (h : cp.isValidChar) :
    utf8 cp = String.utf8EncodeChar (Char.ofNat cp) := by
  have hval : (Char.ofNat cp).val.toNat = cp := by
    rw [Char.ofNat, dif_pos h]
    rfl
  have h1 : ∀ k < 0x20, 0xc0 ||| k = k % 0x20 + 0xc0 := by decide
  have h2 : ∀ k < 0x10, 0xe0 ||| k = k % 0x10 + 0xe0 := by decide
  have h3 : ∀ k < 0x08, 0xf0 ||| k = k % 0x08 + 0xf0 := by decide
  have hlt : cp < 0x110000 := by
    rcases h with h | h
    · omega
    · exact h.2
  unfold utf8 String.utf8EncodeChar
  simp only [hval, lowBits, Nat.shiftRight_eq_div_pow, Nat.reducePow]
  by_cases c1 : cp < 0x80
  · rw [if_pos c1, if_pos (show cp ≤ 127 by omega)]
  rw [if_neg c1, if_neg (show ¬ cp ≤ 127 by omega)]
  by_cases c2 : cp < 0x800
  · rw [if_pos c2, if_pos (show cp ≤ 2047 by omega), h1 _ (by omega)]
  rw [if_neg c2, if_neg (show ¬ cp ≤ 2047 by omega)]
  by_cases c3 : cp < 0x10000
  · rw [if_pos c3, if_pos (show cp ≤ 65535 by omega), h2 _ (by omega)]
  · rw [if_neg c3, if_neg (show ¬ cp ≤ 65535 by omega), h3 _ (by omega)]

theorem escapeChar?_of_mem {e : UInt8 × UInt8} (h : e ∈ escapes) :
    escapeChar? e.1 = some e.2 ∧ e.1 ≠ 0x75 := by
  have hall : ∀ e ∈ escapes, escapeChar? e.1 = some e.2 ∧ e.1 ≠ 0x75 :=
    List.all_iff_forall_prop.1 (by decide)
  exact hall e h

theorem joinSurrogate_of_not_high {cp : ℕ} (h : ¬ (0xd800 ≤ cp ∧ cp ≤ 0xdbff)) (p : Bytes) :
    joinSurrogate cp p = .ok (cp, p) := by
  unfold joinSurrogate
  exact if_neg fun hc => h ⟨hc.1, hc.2.1⟩

theorem value_lt (u : Hex4) : u.value < 0x10000 := by
  have ha := u.a.digit.isLt
  have hb := u.b.digit.isLt
  have hc := u.c.digit.isLt
  have hd := u.d.digit.isLt
  rw [Hex4.value]
  omega

theorem unicodeEscape_scalar {u : Hex4} (h : ¬ u.IsHigh ∧ ¬ u.IsLow) (p : Bytes) :
    unicodeEscape (u.a.byte :: u.b.byte :: u.c.byte :: u.d.byte :: p) =
      .ok (String.utf8EncodeChar (Char.ofNat u.value), p) := by
  have hvalid : u.value.isValidChar := by
    have := value_lt u
    rw [Hex4.IsHigh, Hex4.IsLow] at h
    rw [Nat.isValidChar]
    omega
  rw [unicodeEscape, if_neg (by simp)]
  simp only [hex4?_text, joinSurrogate_of_not_high h.1, utf8_eq hvalid]

theorem unicodeEscape_pair {hi lo : Hex4} (high : hi.IsHigh) (low : lo.IsLow) (p : Bytes) :
    unicodeEscape (hi.a.byte :: hi.b.byte :: hi.c.byte :: hi.d.byte :: (lo.text ++ p)) =
      .ok (String.utf8EncodeChar (Char.ofNat (StrChar.joined hi lo)), p) := by
  rw [Hex4.IsHigh] at high
  rw [Hex4.IsLow] at low
  have hvalid : (StrChar.joined hi lo).isValidChar := by
    unfold StrChar.joined
    exact .inr ⟨by omega, by omega⟩
  have hjoin : joinSurrogate hi.value (lo.text ++ p) = .ok (StrChar.joined hi lo, p) := by
    unfold joinSurrogate
    rw [if_pos ⟨high.1, high.2, by simp [Hex4.text], rfl, rfl⟩]
    simp only [Hex4.text, List.cons_append, List.nil_append, hex4?_text, low, and_self, if_true]
    rfl
  rw [unicodeEscape, if_neg (by simp)]
  simp only [hex4?_text, hjoin, utf8_eq hvalid]

theorem unicodeEscape_lone {u : Hex4} (surrogate : u.IsHigh ∨ u.IsLow) {p : Bytes}
    (hjoin : joinSurrogate u.value p = .ok (u.value, p)) :
    unicodeEscape (u.a.byte :: u.b.byte :: u.c.byte :: u.d.byte :: p) =
      .ok (StrChar.surrogateBytes u.value, p) := by
  have hrange : 0xd800 ≤ u.value ∧ u.value ≤ 0xdfff := by
    rw [Hex4.IsHigh, Hex4.IsLow] at surrogate
    omega
  have hutf8 : utf8 u.value = StrChar.surrogateBytes u.value := by
    rw [utf8, if_neg (by omega), if_neg (by omega), if_pos (by omega), StrChar.surrogateBytes,
      lowBits, lowBits, Nat.shiftRight_eq_div_pow, Nat.shiftRight_eq_div_pow,
      show u.value / 2 ^ 12 = 0xd by omega]
    rfl
  unfold unicodeEscape
  rw [if_neg (by simp)]
  simp only [hex4?_text, hjoin, hutf8]

/-- A surrogate escape before `p` is not half of a pair. -/
def Alone (c : StrChar) (p : Bytes) : Prop :=
  match c with
  | .lone u _ => joinSurrogate u.value p = .ok (u.value, p)
  | _ => True

/-- Characters that do not begin with a low surrogate end a lone high one. -/
theorem joinSurrogate_apart {cp : ℕ} {cs : List StrChar} (p : Bytes)
    (h : ∀ u s, cs.head? = some (.lone u s) → ¬ u.IsLow) :
    joinSurrogate cp (StrChar.texts cs ++ quote :: p) =
      .ok (cp, StrChar.texts cs ++ quote :: p) := by
  have first {q : Bytes} (hq : q.head? ≠ some backslash) : joinSurrogate cp q = .ok (cp, q) := by
    unfold joinSurrogate
    exact if_neg fun hc => hq (by rw [List.head?_eq_getElem?, hc.2.2.2.1])
  have hex {u : Hex4} {q : Bytes} (hu : ¬ (0xdc00 ≤ u.value ∧ u.value ≤ 0xdfff)) :
      joinSurrogate cp (u.text ++ q) = .ok (cp, u.text ++ q) := by
    unfold joinSurrogate
    split
    · simp only [Hex4.text, List.cons_append, List.nil_append, hex4?_text]
      exact if_neg hu
    · rfl
  cases cs with
  | nil => exact first fun hquote => absurd (Option.some.inj hquote) (by decide)
  | cons c cs =>
    have hcons : StrChar.texts (c :: cs) ++ quote :: p =
        c.text ++ (StrChar.texts cs ++ quote :: p) := by
      simp [StrChar.texts]
    rw [hcons]
    cases c with
    | raw c plain => exact first (by simp [StrChar.text, plain.2.2])
    | short e known =>
      unfold joinSurrogate
      refine if_neg fun hc => (escapeChar?_of_mem known).2 ?_
      simpa [StrChar.text] using hc.2.2.2.2
    | unicode u scalar => exact hex scalar.2
    | pair hi lo high low =>
      have hhi : ¬ (0xdc00 ≤ hi.value ∧ hi.value ≤ 0xdfff) := by
        rw [Hex4.IsHigh] at high
        omega
      rw [StrChar.text, List.append_assoc]
      exact hex hhi
    | lone u surrogate => exact hex (h u surrogate rfl)

theorem alone_of_apart {c : StrChar} {cs : List StrChar} (h : (c :: cs).IsChain StrChar.Apart)
    (p : Bytes) : Alone c (StrChar.texts cs ++ quote :: p) := by
  cases c with
  | lone u surrogate =>
    by_cases hhigh : u.IsHigh
    · refine joinSurrogate_apart p fun u' s' hhead hlow => ?_
      have hap : (StrChar.lone u surrogate).Apart (.lone u' s') := h.rel_head? hhead
      exact hap ⟨hhigh, hlow⟩
    · exact joinSurrogate_of_not_high hhigh _
  | raw | short | unicode | pair => trivial

/-- A character is read as the bytes it stands for. -/
theorem stringBody_char (c : StrChar) (fuel : ℕ) {p : Bytes} (halone : Alone c p) :
    stringBody (fuel + 1) (c.text ++ p) =
      (stringBody fuel p).map fun r => (c.decoded ++ r.1, r.2) := by
  cases c with
  | raw c plain =>
    simp only [StrChar.text, StrChar.decoded, List.singleton_append, stringBody]
    rw [if_neg plain.2.1, if_neg plain.2.2]
  | short e known =>
    obtain ⟨hchar, hne⟩ := escapeChar?_of_mem known
    simp only [StrChar.text, StrChar.decoded, List.cons_append, List.nil_append, stringBody]
    rw [if_neg (by decide), if_pos trivial, if_neg hne, hchar]
  | unicode u scalar =>
    simp only [StrChar.text, StrChar.decoded, Hex4.text, List.cons_append, List.nil_append,
      stringBody]
    rw [if_neg (by decide), if_pos trivial, if_pos trivial, unicodeEscape_scalar scalar]
  | pair hi lo high low =>
    have htext : (StrChar.pair hi lo high low).text ++ p = backslash :: 0x75 :: hi.a.byte ::
        hi.b.byte :: hi.c.byte :: hi.d.byte :: (lo.text ++ p) := by
      simp [StrChar.text, Hex4.text]
    simp only [htext, StrChar.decoded, stringBody]
    rw [if_neg (by decide), if_pos trivial, if_pos trivial, unicodeEscape_pair high low]
  | lone u surrogate =>
    simp only [StrChar.text, StrChar.decoded, Hex4.text, List.cons_append, List.nil_append,
      stringBody]
    rw [if_neg (by decide), if_pos trivial, if_pos trivial, unicodeEscape_lone surrogate halone]

theorem stringBody_texts {cs : List StrChar} (hcs : cs.IsChain StrChar.Apart) {fuel : ℕ}
    {p : Bytes} (h : (StrChar.texts cs).length < fuel) :
    stringBody fuel (StrChar.texts cs ++ quote :: p) = .ok (cs.flatMap StrChar.decoded, p) := by
  induction cs generalizing fuel with
  | nil =>
    obtain ⟨fuel, rfl⟩ := Nat.exists_eq_succ_of_ne_zero (Nat.ne_zero_of_lt h)
    simp [StrChar.texts, stringBody]
  | cons c cs ih =>
    have hpos : 0 < c.text.length := by cases c <;> simp [StrChar.text, Hex4.text]
    have hbody : StrChar.texts (c :: cs) = c.text ++ StrChar.texts cs := rfl
    rw [hbody, List.length_append] at h
    obtain ⟨fuel, rfl⟩ := Nat.exists_eq_succ_of_ne_zero (Nat.ne_zero_of_lt h)
    rw [hbody, List.append_assoc, stringBody_char c fuel (alone_of_apart hcs p),
      ih hcs.tail (by omega)]
    rfl

/-- **String literals are read as what they stand for.** -/
theorem parseString_text (s : Str) (p : Bytes) :
    parseString (s.text ++ p) = .ok (s.decoded, p) := by
  simp only [Str.text, List.cons_append, List.append_assoc, List.nil_append, parseString]
  rw [if_pos trivial, stringBody_texts s.apart (by simp)]
  rfl

/-! ## Numbers -/

/-- A text that does not go on with a character of a number. -/
def Stops (p : Bytes) : Prop :=
  ∀ c ∈ p.head?, isDigit c = false ∧ c ≠ dot ∧ c ≠ 0x65 ∧ c ≠ 0x45

theorem stops_cons {c : UInt8} (h : isDigit c = false ∧ c ≠ dot ∧ c ≠ 0x65 ∧ c ≠ 0x45)
    (p : Bytes) : Stops (c :: p) := by
  intro d hd
  obtain rfl := Option.some.inj hd
  exact h

theorem stops_ws (ws : Ws) {p : Bytes} (h : Stops p) : Stops (ws.bytes ++ p) := by
  cases hb : ws.bytes with
  | nil => exact h
  | cons c b =>
    have hwhite : ∀ c ∈ whitespace, isDigit c = false ∧ c ≠ dot ∧ c ≠ 0x65 ∧ c ≠ 0x45 :=
      List.all_iff_forall_prop.1 (by decide)
    exact stops_cons (hwhite c (ws.white c (hb ▸ List.mem_cons_self))) _

/-- A text that does not go on with a digit. -/
def NoDigit (p : Bytes) : Prop := ∀ c ∈ p.head?, isDigit c = false

theorem scanDigits_append {ds p : Bytes} (hds : ∀ c ∈ ds, isDigit c = true) (hp : NoDigit p) :
    scanDigits (ds ++ p) = (ds, p) := by
  have htake : p.takeWhile isDigit = [] ∧ p.dropWhile isDigit = p := by
    cases p with
    | nil => exact ⟨rfl, rfl⟩
    | cons c p =>
      have hc := hp c rfl
      exact ⟨List.takeWhile_cons_of_neg (by simp [hc]), List.dropWhile_cons_of_neg (by simp [hc])⟩
  rw [scanDigits, List.takeWhile_append_of_pos hds, List.dropWhile_append_of_pos hds, htake.1,
    htake.2, List.append_nil]

theorem ne_of_isDigit {c d : UInt8} (h : isDigit c = true) (hd : isDigit d = false) : c ≠ d := by
  rintro rfl
  simp [h] at hd

theorem scanSign_text (e : Exponent) (p : Bytes) :
    scanSign (e.signText ++ (e.digits.bytes ++ p)) =
      (e.sign == some true, e.digits.bytes ++ p) := by
  obtain ⟨c, ds, hds⟩ := List.exists_cons_of_ne_nil e.digits.nonempty
  have hc := e.digits.digits c (hds ▸ List.mem_cons_self)
  unfold Exponent.signText
  match e.sign with
  | none =>
    have hminus : c ≠ minus := ne_of_isDigit hc (by decide)
    have hplus : c ≠ plus := ne_of_isDigit hc (by decide)
    simp [hds, scanSign, hminus, hplus]
  | some true => simp [scanSign]
  | some false => rfl

/-- The exponent of a number, and what may come before it. -/
theorem scanExp_text (n : Numeral) {p : Bytes} (hp : Stops p) :
    scanExp (n.expText ++ p) = (n.expNeg, n.expBytes, p) ∧
      ∀ c ∈ (n.expText ++ p).head?, isDigit c = false ∧ c ≠ dot := by
  have hdigit : NoDigit p := fun c hc => (hp c hc).1
  unfold Numeral.expText Numeral.expNeg Numeral.expBytes
  cases n.exp with
  | none =>
    refine ⟨?_, fun c hc => ⟨(hp c hc).1, (hp c hc).2.1⟩⟩
    cases p with
    | nil => rfl
    | cons c p =>
      obtain ⟨-, -, he⟩ := hp c rfl
      simp [scanExp, he]
  | some e =>
    constructor
    · have hmark : (if e.upper then 0x45 else 0x65 : UInt8) = 0x65 ∨
          (if e.upper then 0x45 else 0x65 : UInt8) = 0x45 := by
        cases e.upper <;> decide
      simp only [Exponent.text, List.cons_append, List.append_assoc, scanExp, hmark, if_true,
        scanSign_text, scanDigits_append e.digits.digits hdigit]
    · intro c hc
      obtain rfl := Option.some.inj hc
      cases e.upper <;> decide

/-- The fraction of a number. -/
theorem scanFrac_text (n : Numeral) {q : Bytes}
    (hq : ∀ c ∈ q.head?, isDigit c = false ∧ c ≠ dot) :
    scanFrac (n.fracText ++ q) = (n.fracBytes, q) ∧ NoDigit (n.fracText ++ q) := by
  have hdigit : NoDigit q := fun c hc => (hq c hc).1
  unfold Numeral.fracText Numeral.fracBytes
  cases n.frac with
  | none =>
    refine ⟨?_, hdigit⟩
    cases q with
    | nil => rfl
    | cons c q => simp [scanFrac, (hq c rfl).2]
  | some d =>
    constructor
    · simp [scanFrac, scanDigits_append d.digits hdigit]
    · intro c hc
      obtain rfl := Option.some.inj hc
      decide

/-- **The parts of a number are scanned as they are written.** -/
theorem scanNumber_text (n : Numeral) {p : Bytes} (hp : Stops p) :
    scanNumber (n.text ++ p) =
      .ok (⟨n.neg, n.int.bytes, n.fracBytes, n.expNeg, n.expBytes⟩, p) := by
  obtain ⟨hexp, hhead⟩ := scanExp_text n hp
  obtain ⟨hfrac, hdigit⟩ := scanFrac_text n hhead
  have hint := scanDigits_append n.int.digits hdigit
  obtain ⟨c, ds, hds⟩ := List.exists_cons_of_ne_nil n.int.nonempty
  have hminus : c ≠ minus :=
    ne_of_isDigit (n.int.digits c (hds ▸ List.mem_cons_self)) (by decide)
  unfold Numeral.text
  cases n.neg with
  | false =>
    rw [hds] at hint
    simp only [Bool.false_eq_true, if_false, List.nil_append, List.append_assoc, scanNumber, hds,
      List.cons_append, hminus, beq_eq_false_iff_ne.2 hminus] at hint ⊢
    simp only [hint, hfrac, hexp]
  | true =>
    simp only [if_true, List.cons_append, List.nil_append, List.append_assoc, scanNumber, hint,
      hfrac, hexp, beq_self_eq_true]

/-- The double nearest to a number, when it is in range. -/
def doubleOf (n : Numeral) : Option Double :=
  Double.ofRatio n.neg (n.mantissa * 10 ^ n.scale.toNat) (10 ^ (-n.scale).toNat)

theorem parseNumber_text (n : Numeral) {p : Bytes} {x : Double} (hp : Stops p)
    (hx : doubleOf n = some x) : parseNumber (n.text ++ p) = .ok (x, p) := by
  have hd : NumberText.toDouble ⟨n.neg, n.int.bytes, n.fracBytes, n.expNeg, n.expBytes⟩ =
      some x := by
    rw [← hx, NumberText.toDouble, if_neg fun h => n.int.nonempty h.1]
    rfl
  simp only [parseNumber, scanNumber_text n hp, hd]

/-- A number without a fractional part, of magnitude at most `2 ^ 53`. -/
def SmallInt (n : Number) : Prop := n.IsInt ∧ n.natAbs ≤ 2 ^ 53

theorem doubleOf_int {n : Number} (h : SmallInt n) :
    doubleOf n.toNumeral = some (.int n.intValue) := by
  have hmul : n.natAbs * 10 ^ (-n.scale).toNat = n.mantissa * 10 ^ n.scale.toNat :=
    Nat.div_mul_cancel h.1
  rw [doubleOf, ← hmul, Double.ofRatio_int n.neg h.2 (by positivity)]
  rfl

end BambooNet.Json

/-! ## What a tree denotes -/

namespace BambooNet.JsonSyntax

open Json

variable (num : Number → Double)

mutual

/-- The value of a tree, `num` giving its numbers. Of the members with one key the first counts. -/
@[grind =] def Node.value : Node → Value
  | .null => .null
  | .bool b => .bool b
  | .number n => .number (num n)
  | .string s => .string (s.decoded)
  | .emptyArray _ => .array []
  | .array es => .array es.values
  | .emptyObject _ => .object []
  | .object ms => .object ms.entries

@[grind =] def Elements.values : Elements → List Value
  | .last _ v _ => [v.value]
  | .cons _ v _ rest => v.value :: rest.values

@[grind =] def Members.entries : Members → Object
  | .last _ key _ _ v _ => Entries.insert (key.decoded) v.value []
  | .cons _ key _ _ v _ rest => Entries.insert (key.decoded) v.value rest.entries

end

/-- The members added to an object one after the other. -/
@[grind =] def Members.addTo : Members → Object → Object
  | .last _ key _ _ v _, obj => emplace (key.decoded) (v.value num) obj
  | .cons _ key _ _ v _ rest, obj => rest.addTo (emplace (key.decoded) (v.value num) obj)

theorem Members.sorted_entries (ms : Members) : Entries.Sorted (ms.entries num) := by
  match ms with
  | .last _ _ _ _ _ _ => exact Entries.Sorted.insert .nil _ _
  | .cons _ _ _ _ _ _ rest => exact rest.sorted_entries.insert _ _

theorem Members.sorted_addTo (ms : Members) {obj : Object} (h : Entries.Sorted obj) :
    Entries.Sorted (ms.addTo num obj) := by
  match ms with
  | .last _ _ _ _ _ _ => exact sorted_emplace h _ _
  | .cons _ _ _ _ _ _ rest => exact rest.sorted_addTo (sorted_emplace h _ _)

theorem Members.get?_addTo (ms : Members) (k : Bytes) (obj : Object) :
    Entries.get? k (ms.addTo num obj) =
      (Entries.get? k obj).or (Entries.get? k (ms.entries num)) := by
  match ms with
  | .last _ key _ _ v _ =>
    rw [Members.addTo, get?_emplace, Members.entries, Entries.get?_insert]
    by_cases hk : k = key.decoded <;> simp [hk, Entries.get?]
  | .cons _ key _ _ v _ rest =>
    rw [Members.addTo, rest.get?_addTo, get?_emplace, Members.entries, Entries.get?_insert]
    by_cases hk : k = key.decoded <;> cases Entries.get? k obj <;> simp [hk]

/-- **Adding the members in order lets the first of a key win.** -/
theorem Members.addTo_nil (ms : Members) : ms.addTo num [] = ms.entries num :=
  (ms.sorted_addTo num .nil).ext (ms.sorted_entries num) fun k => ms.get?_addTo num k []

end BambooNet.JsonSyntax

/-! ## Values -/

namespace BambooNet.Json

open JsonSyntax

/-- A character that a value begins with. -/
def Leads (c : UInt8) : Prop := isWs c = false ∧ c ≠ rbrace ∧ c ≠ rbracket

instance : DecidablePred Leads := fun _ => inferInstanceAs (Decidable (_ ∧ _))

theorem number_head (n : Numeral) :
    ∃ c t, n.text = c :: t ∧ (c = minus ∨ isDigit c = true) := by
  unfold Numeral.text
  cases n.neg with
  | true => exact ⟨minus, _, rfl, .inl rfl⟩
  | false =>
    obtain ⟨c, ds, hds⟩ := List.exists_cons_of_ne_nil n.int.nonempty
    refine ⟨c, ds ++ (n.fracText ++ n.expText), by simp [hds], .inr ?_⟩
    exact n.int.digits c (hds ▸ List.mem_cons_self)

theorem number_char {c : UInt8} (h : c = minus ∨ isDigit c = true) :
    Leads c ∧ c ≠ quote ∧ ¬ (c = lbrace ∨ c = lbracket) ∧ c ≠ 0x74 ∧ c ≠ 0x66 ∧ c ≠ 0x6e := by
  rcases h with rfl | h
  · decide
  · have ne {d : UInt8} (hd : isDigit d = false) : c ≠ d := ne_of_isDigit h hd
    have hws : isWs c = false := by
      rw [Bool.eq_false_iff, ne_eq, isWs_iff]
      intro hc
      have hdigit : ∀ d ∈ whitespace, isDigit d = false :=
        List.all_iff_forall_prop.1 (by decide)
      exact ne (hdigit c hc) rfl
    exact ⟨⟨hws, ne (by decide), ne (by decide)⟩, ne (by decide),
      not_or.2 ⟨ne (by decide), ne (by decide)⟩, ne (by decide), ne (by decide), ne (by decide)⟩

theorem node_head (v : Node) : ∃ c t, v.text = c :: t ∧ Leads c := by
  match v with
  | .null => exact ⟨0x6e, ascii "ull", rfl, by decide⟩
  | .bool true => exact ⟨0x74, ascii "rue", rfl, by decide⟩
  | .bool false => exact ⟨0x66, ascii "alse", rfl, by decide⟩
  | .number n =>
    obtain ⟨c, t, htext, hc⟩ := number_head n.toNumeral
    exact ⟨c, t, htext, (number_char hc).1⟩
  | .string _ => exact ⟨_, _, rfl, by decide⟩
  | .emptyArray _ => exact ⟨_, _, rfl, by decide⟩
  | .array _ => exact ⟨_, _, rfl, by decide⟩
  | .emptyObject _ => exact ⟨_, _, rfl, by decide⟩
  | .object _ => exact ⟨_, _, rfl, by decide⟩

theorem elements_head (es : Elements) (p : Bytes) :
    ∃ c t, skipWs (es.text ++ p) = c :: t ∧ c ≠ rbracket := by
  have head (before : Ws) (v : Node) (q : Bytes) :
      ∃ c t, skipWs (before.bytes ++ (v.text ++ q)) = c :: t ∧ c ≠ rbracket := by
    obtain ⟨c, t, htext, hc⟩ := node_head v
    rw [skipWs_ws, htext]
    exact ⟨c, t ++ q, skipWs_cons hc.1 _, hc.2.2⟩
  cases es with
  | last before v after => simpa [Elements.text] using head before v (after.bytes ++ p)
  | cons before v after rest =>
    simpa [Elements.text] using head before v (after.bytes ++ comma :: (rest.text ++ p))

theorem members_head (ms : Members) (p : Bytes) : ∃ t, skipWs (ms.text ++ p) = quote :: t := by
  have head (before : Ws) (key : Str) (q : Bytes) :
      ∃ t, skipWs (before.bytes ++ (key.text ++ q)) = quote :: t := by
    rw [skipWs_ws]
    exact ⟨_, skipWs_cons (by decide) _⟩
  cases ms with
  | last before key after before' v after' =>
    simpa [Members.text] using head before key (after.bytes ++ colon :: (before'.bytes ++
      (v.text ++ (after'.bytes ++ p))))
  | cons before key after before' v after' rest =>
    simpa [Members.text] using head before key (after.bytes ++ colon :: (before'.bytes ++
      (v.text ++ (after'.bytes ++ comma :: (rest.text ++ p)))))

/-- Leading whitespace does not matter. -/
theorem parseValue_skipWs (frames depth : ℕ) (p : Bytes) :
    parseValue frames depth (skipWs p) = parseValue frames depth p := by
  cases frames with
  | zero => rfl
  | succ frames => simp only [parseValue, valueWith, skipWs_skipWs]

theorem parseValue_ws (frames depth : ℕ) (ws : Ws) (p : Bytes) :
    parseValue frames depth (ws.bytes ++ p) = parseValue frames depth p := by
  rw [← parseValue_skipWs, skipWs_ws, parseValue_skipWs]

theorem stops_close (after : Ws) {c : UInt8} (hc : c = comma ∨ c = rbracket ∨ c = rbrace)
    (p : Bytes) : Stops (after.bytes ++ c :: p) := by
  refine stops_ws after (stops_cons ?_ p)
  rcases hc with rfl | rfl | rfl <;> decide

/-- The character after a value and whitespace. -/
theorem skipWs_close (after : Ws) {c : UInt8} (hc : c = comma ∨ c = rbracket ∨ c = rbrace)
    (p : Bytes) : skipWs (after.bytes ++ c :: p) = c :: p := by
  rw [skipWs_ws]
  refine skipWs_cons ?_ p
  rcases hc with rfl | rfl | rfl <;> decide

section Loops

variable {value : Bytes → Parsed Value} {fuel : ℕ} {v : Value} {p q : Bytes}

theorem elements_skipWs (frames depth fuel : ℕ) (vs : List Value) (p : Bytes) :
    elements (parseValue frames depth) fuel vs (skipWs p) =
      elements (parseValue frames depth) fuel vs p := by
  cases fuel with
  | zero => rfl
  | succ fuel => simp only [elements, parseValue_skipWs]

theorem members_skipWs (fuel : ℕ) (obj : Object) (p : Bytes) :
    members value fuel obj (skipWs p) = members value fuel obj p := by
  cases fuel with
  | zero => rfl
  | succ fuel => simp only [members, skipWs_skipWs]

/-- An element with a comma after it. -/
theorem elements_comma {after : Ws} (vs : List Value)
    (hvalue : value p = .ok (v, after.bytes ++ comma :: q)) :
    elements value (fuel + 1) vs p = elements value fuel (vs ++ [v]) q := by
  simp only [elements, hvalue, skipWs_close after (.inl rfl), if_true]

/-- The last element. -/
theorem elements_close {after : Ws} (vs : List Value)
    (hvalue : value p = .ok (v, after.bytes ++ rbracket :: q)) :
    elements value (fuel + 1) vs p = .ok (vs ++ [v], q) := by
  simp only [elements, hvalue, skipWs_close after (.inr (.inl rfl)), if_true]
  rfl

theorem skipWs_colon (after : Ws) (p : Bytes) :
    skipWs (after.bytes ++ colon :: p) = colon :: p := by
  rw [skipWs_ws]
  exact skipWs_cons (by decide) p

/-- A key. -/
theorem parseString_key (before : Ws) (key : Str) (p : Bytes) :
    parseString (skipWs (before.bytes ++ (key.text ++ p))) = .ok (key.decoded, p) := by
  have hquote : skipWs (key.text ++ p) = key.text ++ p := skipWs_cons (by decide) _
  rw [skipWs_ws, hquote, parseString_text]

/-- A member with a comma after it. -/
theorem members_comma (before : Ws) (key : Str) (after : Ws) {after' : Ws} (obj : Object)
    (hvalue : value p = .ok (v, after'.bytes ++ comma :: q)) :
    members value (fuel + 1) obj (before.bytes ++ (key.text ++ (after.bytes ++ colon :: p))) =
      members value fuel (emplace (key.decoded) v obj) q := by
  simp only [members, parseString_key, skipWs_colon, hvalue, skipWs_close after' (.inl rfl),
    ne_eq, not_true_eq_false, if_false, if_true]

/-- The last member. -/
theorem members_close (before : Ws) (key : Str) (after : Ws) {after' : Ws} (obj : Object)
    (hvalue : value p = .ok (v, after'.bytes ++ rbrace :: q)) :
    members value (fuel + 1) obj (before.bytes ++ (key.text ++ (after.bytes ++ colon :: p))) =
      .ok (emplace (key.decoded) v obj, q) := by
  simp only [members, parseString_key, skipWs_colon, hvalue, skipWs_close after' (.inr (.inr rfl)),
    ne_eq, not_true_eq_false, if_false, if_true]
  rfl

end Loops

variable (num : Number → Double)

/-- A number whose double `num` gives. -/
def Gives (n : Number) : Prop := doubleOf n.toNumeral = some (num n)

/-- A tree that a call of `parse_value` at a depth may reach. -/
def Fits (frames depth size : ℕ) : Prop := size < frames ∧ depth + size ≤ kMaxNestingDepth

theorem Fits.inner {frames depth size : ℕ} (h : Fits (frames + 1) depth (size + 1)) :
    Fits frames (depth + 1) size := by
  unfold Fits at *
  omega

theorem Fits.shallow {frames depth size : ℕ} (h : Fits (frames + 1) depth (size + 1)) :
    ¬ depth ≥ kMaxNestingDepth := by
  unfold Fits at h
  omega

theorem Fits.mono {frames depth size size' : ℕ} (h : Fits frames depth size)
    (hle : size' ≤ size) : Fits frames depth size' := by
  unfold Fits at *
  omega

/-- An array with elements, where containers are allowed. -/
theorem parseValue_array (es : Elements) {frames depth : ℕ} (h : ¬ depth ≥ kMaxNestingDepth)
    (p : Bytes) :
    parseValue (frames + 1) depth ((Node.array es).text ++ p) =
      (elements (parseValue frames (depth + 1)) ((es.text ++ rbracket :: p).length + 1) []
        (es.text ++ rbracket :: p)).map fun r => (.array r.1, r.2) := by
  obtain ⟨c, t, hskip, hc⟩ := elements_head es (rbracket :: p)
  simp only [Node.text, parseValue, valueWith, List.cons_append,
    List.append_assoc, List.nil_append, skipWs_cons (c := 0x5b) (by decide)]
  rw [if_neg (by decide), if_pos (by decide), if_neg h, if_neg (by decide), parseArray, hskip]
  simp only
  rw [if_neg hc, ← hskip, elements_skipWs]

/-- An object with members, where containers are allowed. -/
theorem parseValue_object (ms : Members) {frames depth : ℕ} (h : ¬ depth ≥ kMaxNestingDepth)
    (p : Bytes) :
    parseValue (frames + 1) depth ((Node.object ms).text ++ p) =
      (members (parseValue frames (depth + 1)) ((ms.text ++ rbrace :: p).length + 1) []
        (ms.text ++ rbrace :: p)).map fun r => (.object r.1, r.2) := by
  obtain ⟨t, hskip⟩ := members_head ms (rbrace :: p)
  simp only [Node.text, parseValue, valueWith, List.cons_append,
    List.append_assoc, List.nil_append, skipWs_cons (c := 0x7b) (by decide)]
  rw [if_neg (by decide), if_pos (by decide), if_neg h, if_pos trivial, parseObject, hskip]
  simp only
  rw [if_neg (by decide), ← hskip, members_skipWs]

mutual

/-- The text of a value is read as the value, whatever stops it. -/
theorem parseValue_text (v : Node) {frames depth : ℕ} {p : Bytes}
    (hfits : Fits frames depth v.depth)
    (hnum : v.Numbers (Gives num)) (hp : Stops p) :
    parseValue frames depth (v.text ++ p) = .ok (v.value num, p) := by
  obtain ⟨frames, rfl⟩ := Nat.exists_eq_succ_of_ne_zero (Nat.ne_zero_of_lt hfits.1)
  match v with
  | .null => rfl
  | .bool true => rfl
  | .bool false => rfl
  | .number n =>
    obtain ⟨c, t, htext, hc⟩ := number_head n.toNumeral
    have hnum := parseNumber_text n.toNumeral hp hnum
    obtain ⟨⟨hws, -⟩, hquote, hopen, ht, hf, hn⟩ := number_char hc
    rw [htext, List.cons_append] at hnum
    simp only [Node.text, htext, parseValue, valueWith, List.cons_append, skipWs_cons hws]
    rw [if_neg hquote, if_neg hopen, if_neg ht, if_neg hf, if_neg hn, if_pos hc, hnum]
    rfl
  | .string s =>
    have hs := parseString_text s p
    simp only [Str.text, List.cons_append] at hs
    simp only [Node.text, Str.text, parseValue, valueWith, List.cons_append,
      skipWs_cons (c := 0x22) (by decide), if_true, hs]
    rfl
  | .emptyArray ws =>
    have hskip := skipWs_close ws (.inr (.inl rfl)) p
    simp only [Node.text, parseValue, valueWith, List.cons_append,
      List.append_assoc, List.nil_append, skipWs_cons (c := 0x5b) (by decide)]
    rw [if_neg (by decide), if_pos (by decide), if_neg hfits.shallow, if_neg (by decide),
      parseArray, hskip]
    rfl
  | .array es =>
    rw [parseValue_array es hfits.shallow, elements_text es hfits.inner hnum [] p (by simp)]
    rfl
  | .emptyObject ws =>
    have hskip := skipWs_close ws (.inr (.inr rfl)) p
    simp only [Node.text, parseValue, valueWith, List.cons_append,
      List.append_assoc, List.nil_append, skipWs_cons (c := 0x7b) (by decide)]
    rw [if_neg (by decide), if_pos (by decide), if_neg hfits.shallow, if_pos trivial,
      parseObject, hskip]
    rfl
  | .object ms =>
    rw [parseValue_object ms hfits.shallow, members_text ms hfits.inner hnum [] p (by simp),
      ms.addTo_nil]
    rfl

theorem elements_text (es : Elements) {frames depth fuel : ℕ} (hfits : Fits frames depth es.depth)
    (hnum : es.Numbers (Gives num)) (vs : List Value) (p : Bytes)
    (hfuel : es.text.length < fuel) :
    elements (parseValue frames depth) fuel vs (es.text ++ rbracket :: p) =
      .ok (vs ++ es.values num, p) := by
  obtain ⟨fuel, rfl⟩ := Nat.exists_eq_succ_of_ne_zero (Nat.ne_zero_of_lt hfuel)
  match es with
  | .last before v after =>
    have hv := parseValue_text v hfits hnum (stops_close after (.inr (.inl rfl)) p)
    simp only [Elements.text, List.append_assoc]
    exact elements_close vs (by rw [parseValue_ws, hv])
  | .cons before v after rest =>
    have hrest : rest.text.length < fuel := by
      simp only [Elements.text, List.length_append, List.length_cons] at hfuel
      omega
    have hv := parseValue_text v (hfits.mono (le_max_left _ _)) hnum.1
      (stops_close after (.inl rfl) (rest.text ++ rbracket :: p))
    simp only [Elements.text, List.append_assoc, List.cons_append]
    rw [elements_comma vs (by rw [parseValue_ws, hv]),
      elements_text rest (hfits.mono (le_max_right _ _)) hnum.2 _ p hrest, List.append_assoc]
    rfl

theorem members_text (ms : Members) {frames depth fuel : ℕ} (hfits : Fits frames depth ms.depth)
    (hnum : ms.Numbers (Gives num)) (obj : Object) (p : Bytes)
    (hfuel : ms.text.length < fuel) :
    members (parseValue frames depth) fuel obj (ms.text ++ rbrace :: p) =
      .ok (ms.addTo num obj, p) := by
  obtain ⟨fuel, rfl⟩ := Nat.exists_eq_succ_of_ne_zero (Nat.ne_zero_of_lt hfuel)
  match ms with
  | .last before key after before' v after' =>
    have hv := parseValue_text v hfits hnum (stops_close after' (.inr (.inr rfl)) p)
    simp only [Members.text, List.append_assoc, List.cons_append]
    exact members_close before key after obj (by rw [parseValue_ws, hv])
  | .cons before key after before' v after' rest =>
    have hrest : rest.text.length < fuel := by
      simp only [Members.text, List.length_append, List.length_cons] at hfuel
      omega
    have hv := parseValue_text v (hfits.mono (le_max_left _ _)) hnum.1
      (stops_close after' (.inl rfl) (rest.text ++ rbrace :: p))
    simp only [Members.text, List.append_assoc, List.cons_append]
    rw [members_comma before key after obj (by rw [parseValue_ws, hv]),
      members_text rest (hfits.mono (le_max_right _ _)) hnum.2 _ p hrest]
    rfl

end

theorem stops_after (t : Text) : Stops t.after.bytes := by
  have hnil : Stops [] := fun c hc => nomatch hc
  simpa using stops_ws t.after hnil

theorem parse_bytes (t : Text) (hdepth : t.node.depth ≤ kMaxNestingDepth)
    (hnum : t.node.Numbers (Gives num)) : parse t.bytes = .ok (t.node.value num) := by
  have hafter : skipWs t.after.bytes = [] := by
    rw [← List.append_nil t.after.bytes, skipWs_ws]
    rfl
  have hvalue : parseValue (kMaxNestingDepth + 1) 0 (skipWs t.bytes) =
      .ok (t.node.value num, t.after.bytes) := by
    rw [parseValue_skipWs, Text.bytes, parseValue_ws]
    exact parseValue_text num t.node ⟨by omega, by omega⟩ hnum (stops_after t)
  simp only [parse, hvalue, hafter, if_true]

/-- The integer a number denotes. -/
def intOf (n : Number) : Double := .int n.intValue

theorem numbers_mono {P Q : Number → Prop} (h : ∀ n, P n → Q n) (v : Node) :
    v.Numbers P → v.Numbers Q := by
  refine @Node.rec (fun v => v.Numbers P → v.Numbers Q) (fun es => es.Numbers P → es.Numbers Q)
    (fun ms => ms.Numbers P → ms.Numbers Q) id (fun _ => id) h (fun _ => id) (fun _ => id)
    (fun _ ih => ih) (fun _ => id) (fun _ ih => ih) (fun _ _ _ ih => ih)
    (fun _ _ _ _ ihv ihs => And.imp ihv ihs) (fun _ _ _ _ _ _ ih => ih)
    (fun _ _ _ _ _ _ _ ihv ihs => And.imp ihv ihs) v

/-- **The parser accepts every JSON text within its bounds and stays inside every text.** A JSON
text whose numbers are integers up to `2 ^ 53` and whose containers are nested at most
`kMaxNestingDepth` deep is parsed as the value it denotes. On any text the parser ends with an
error of its own or with a value nested no deeper than that: the faults for a read outside the
text, for a loop that does not end and for a deeper recursion never come up. -/
theorem parse_total :
    (∀ t : Text, t.node.depth ≤ kMaxNestingDepth → t.node.Numbers SmallInt →
      parse t.bytes = .ok (t.node.value intOf)) ∧
    ∀ text, (∃ e, parse text = .error e ∧ e ≠ .outside ∧ e ≠ .unfinished) ∨
      ∃ v, parse text = .ok v ∧ v.WF ∧ v.depth ≤ kMaxNestingDepth := by
  refine ⟨fun t hdepth hnum => ?_, parse_cases⟩
  exact parse_bytes intOf t hdepth (numbers_mono (fun _ => doubleOf_int) t.node hnum)

/-- A key with two values, the first a surrogate pair. -/
def twice : Text :=
  let key : Str := ⟨[.raw 0x61 (by decide)], .singleton _⟩
  let hi : Hex4 := ⟨⟨0xd, false⟩, ⟨8, false⟩, ⟨3, false⟩, ⟨0xd, true⟩⟩
  let lo : Hex4 := ⟨⟨0xd, false⟩, ⟨0xe, false⟩, ⟨0, false⟩, ⟨0, false⟩⟩
  let face : Str := ⟨[.pair hi lo (by unfold Hex4.IsHigh; decide) (by unfold Hex4.IsLow; decide)],
    .singleton _⟩
  ⟨⟨[0x20], by simp [whitespace]⟩, .object (.cons .none key .none .none (.string face) .none
    (.last .none key .none .none (.number (.ofInt 2)) .none)), .none⟩

theorem parse_total_twice :
    parse twice.bytes = .ok (.object [(ascii "a", .string [0xf0, 0x9f, 0x98, 0x80])]) :=
  parse_total.1 twice (by decide)
    ⟨trivial, Number.isInt_ofInt 2, by decide⟩

end BambooNet.Json
