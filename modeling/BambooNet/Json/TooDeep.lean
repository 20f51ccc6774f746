import BambooNet.Json.Complete

/-!
# Trees and the parser's bounds

The value of a tree whose numbers are integers up to `2 ^ 53` is well formed and has such numbers
itself. A tree that is nested deeper than the parser allows, or that has a number out of the range
of a double, is rejected (`parse_unfit`), so that `parse_bytes` is exact about both
(`parse_eq_ok_iff`).
-/

namespace BambooNet.Json

open JsonSyntax

/-! ## Values of trees -/

/-- Well formed, with integers up to `2 ^ 53`. -/
def Tame (v : Value) : Prop := v.WF ∧ v.IntNumbers

theorem natAbs_intValue (n : Numeral) : n.intValue.natAbs = n.natAbs := by
  rw [Numeral.intValue]
  split <;> simp

mutual

theorem tame_value (v : Node) (h : v.Numbers SmallInt) : Tame (v.value intOf) := by
  match v with
  | .null => exact ⟨.null trivial, .null trivial⟩
  | .bool b => exact ⟨.bool trivial, .bool trivial⟩
  | .number n =>
    have hle : n.intValue.natAbs ≤ 2 ^ 53 := (natAbs_intValue n.toNumeral).trans_le h.2
    exact ⟨.number trivial, .number ⟨n.intValue, rfl, hle⟩⟩
  | .string s => exact ⟨.string trivial, .string trivial⟩
  | .emptyArray ws => exact ⟨.array trivial (by simp), .array trivial (by simp)⟩
  | .array es =>
    have hes := tame_values es h
    exact ⟨.array trivial fun w hw => (hes w hw).1, .array trivial fun w hw => (hes w hw).2⟩
  | .emptyObject ws => exact ⟨.object .nil (by simp), .object trivial (by simp)⟩
  | .object ms =>
    have hms := tame_entries ms h
    exact ⟨.object (ms.sorted_entries intOf) fun e he => (hms e he).1,
      .object trivial fun e he => (hms e he).2⟩

theorem tame_values (es : Elements) (h : es.Numbers SmallInt) :
    ∀ w ∈ es.values intOf, Tame w := by
  match es with
  | .last before v after => exact List.forall_mem_singleton.2 (tame_value v h)
  | .cons before v after rest =>
    exact List.forall_mem_cons.2 ⟨tame_value v h.1, tame_values rest h.2⟩

theorem tame_entries (ms : Members) (h : ms.Numbers SmallInt) :
    ∀ e ∈ ms.entries intOf, Tame e.2 := by
  intro e he
  match ms with
  | .last before key after lead v after' =>
    rcases Entries.mem_insert he with rfl | he
    · exact tame_value v h
    · cases he
  | .cons before key after lead v after' rest =>
    rcases Entries.mem_insert he with rfl | he
    · exact tame_value v h.1
    · exact tame_entries rest h.2 e he

end

/-! ## Trees that are rejected -/

/-- A number in the range of a double. -/
def Readable (n : Number) : Prop := (doubleOf n.toNumeral).isSome = true

/-- The double that is read. -/
def numOf (n : Number) : Double := (doubleOf n.toNumeral).getD (.int 0)

theorem Readable.gives {n : Number} (h : Readable n) : Gives numOf n := by
  obtain ⟨x, hx⟩ := Option.isSome_iff_exists.1 h
  rw [Gives, numOf, hx]
  rfl

/-- **An integer that is read** comes out of `int64_t` as it is written exactly when that and a
double hold it. -/
theorem toInt64_numOf_iff {n : Number} (hint : n.IsInt) (h : Readable n) :
    (numOf n).toInt64 = some n.intValue ↔ Double.Held n.intValue := by
  have hmul : n.natAbs * 10 ^ (-n.scale).toNat = n.mantissa * 10 ^ n.scale.toNat :=
    Nat.div_mul_cancel hint
  have hread : doubleOf n.toNumeral = some (numOf n) := h.gives
  rw [doubleOf, ← hmul] at hread
  exact Double.toInt64_ofRatio_iff (by positivity) hread

/-- A parse with a call left for every level that is left. -/
def Exact (frames depth : ℕ) : Prop := frames + depth = kMaxNestingDepth + 1

theorem Exact.fits {frames depth size : ℕ} (h : Exact frames depth)
    (hsize : depth + size ≤ kMaxNestingDepth) : Fits frames depth size := by
  unfold Exact at h
  exact ⟨by omega, hsize⟩

theorem Exact.inner {frames depth : ℕ} (h : Exact (frames + 1) depth) :
    Exact frames (depth + 1) := by
  unfold Exact at *
  omega

section Loops

variable {value : Bytes → Parsed Value} {fuel : ℕ} {p : Bytes} {e : ParseError}

/-- An element that is rejected. -/
theorem elements_error (vs : List Value) (hfuel : 0 < fuel) (hvalue : value p = .error e) :
    elements value fuel vs p = .error e := by
  obtain ⟨fuel, rfl⟩ := Nat.exists_eq_succ_of_ne_zero hfuel.ne'
  simp only [elements, hvalue]

/-- A member whose value is rejected. -/
theorem members_error (before : Ws) (key : Str) (after : Ws) (obj : Object) (hfuel : 0 < fuel)
    (hvalue : value p = .error e) :
    members value fuel obj (before.bytes ++ (key.text ++ (after.bytes ++ colon :: p))) =
      .error e := by
  obtain ⟨fuel, rfl⟩ := Nat.exists_eq_succ_of_ne_zero hfuel.ne'
  simp only [members, parseString_key, skipWs_colon, hvalue, ne_eq, not_true_eq_false, if_false]

end Loops

/-- A container that is opened at the bound. -/
theorem parseValue_full {v : Node} {c : UInt8} {t : Bytes} {frames depth : ℕ}
    (hv : v.text = c :: t) (hc : c = lbracket ∨ c = lbrace) (h : depth ≥ kMaxNestingDepth)
    (p : Bytes) : parseValue (frames + 1) depth (v.text ++ p) = .error .tooDeep := by
  have hws : isWs c = false := by rcases hc with rfl | rfl <;> decide
  have hquote : c ≠ quote := by rcases hc with rfl | rfl <;> decide
  simp only [hv, parseValue, valueWith, List.cons_append, skipWs_cons hws]
  rw [if_neg hquote, if_pos hc.symm, if_pos h]

/-- A number out of range is rejected. -/
theorem parseValue_unreadable {n : Number} (h : ¬ Readable n) {p : Bytes} (hp : Stops p)
    (frames depth : ℕ) :
    parseValue (frames + 1) depth ((Node.number n).text ++ p) = .error .numberRange := by
  obtain ⟨c, t, htext, hc⟩ := number_head n.toNumeral
  obtain ⟨⟨hws, -⟩, hquote, hopen, ht, hf, hn⟩ := number_char hc
  have hnone : doubleOf n.toNumeral = none := by simpa [Readable] using h
  have hd : NumberText.toDouble ⟨n.neg, n.int.bytes, n.toNumeral.fracBytes, n.toNumeral.expNeg,
      n.toNumeral.expBytes⟩ = none := by
    rw [← hnone, NumberText.toDouble, if_neg fun h => n.int.nonempty h.1]
    rfl
  have hnumber : parseNumber (n.text ++ p) = .error .numberRange := by
    simp only [parseNumber, scanNumber_text n.toNumeral hp, hd]
  rw [htext, List.cons_append] at hnumber
  simp only [Node.text, htext, parseValue, valueWith, List.cons_append, skipWs_cons hws]
  rw [if_neg hquote, if_neg hopen, if_neg ht, if_neg hf, if_neg hn, if_pos hc, hnumber]
  rfl

mutual

/-- A value that reaches below the bound, or has a number out of range, is rejected. -/
theorem parseValue_unfit (v : Node) {frames depth : ℕ} {p : Bytes}
    (hexact : Exact (frames + 1) depth) (hp : Stops p)
    (hunfit : depth + v.depth ≤ kMaxNestingDepth → ¬ v.Numbers Readable) :
    ∃ e, parseValue (frames + 1) depth (v.text ++ p) = .error e := by
  have hdepth : depth ≤ kMaxNestingDepth := by
    unfold Exact at hexact
    omega
  match v with
  | .null | .bool _ | .string _ => exact absurd trivial (hunfit hdepth)
  | .number n => exact ⟨.numberRange, parseValue_unreadable (hunfit hdepth) hp _ _⟩
  | .emptyArray ws =>
    by_cases hfull : depth ≥ kMaxNestingDepth
    · exact ⟨.tooDeep, parseValue_full rfl (.inl rfl) hfull p⟩
    · exact absurd trivial (hunfit (Nat.not_le.1 hfull))
  | .emptyObject ws =>
    by_cases hfull : depth ≥ kMaxNestingDepth
    · exact ⟨.tooDeep, parseValue_full rfl (.inr rfl) hfull p⟩
    · exact absurd trivial (hunfit (Nat.not_le.1 hfull))
  | .array es =>
    by_cases hfull : depth ≥ kMaxNestingDepth
    · exact ⟨.tooDeep, parseValue_full rfl (.inl rfl) hfull p⟩
    · obtain ⟨e, he⟩ := elements_unfit es hexact.inner
        (fun h => hunfit (by rw [Node.depth]; omega)) [] p
        (show es.text.length < (es.text ++ rbracket :: p).length + 1 by simp)
      exact ⟨e, by rw [parseValue_array es hfull, he]; rfl⟩
  | .object ms =>
    by_cases hfull : depth ≥ kMaxNestingDepth
    · exact ⟨.tooDeep, parseValue_full rfl (.inr rfl) hfull p⟩
    · obtain ⟨e, he⟩ := members_unfit ms hexact.inner
        (fun h => hunfit (by rw [Node.depth]; omega)) [] p
        (show ms.text.length < (ms.text ++ rbrace :: p).length + 1 by simp)
      exact ⟨e, by rw [parseValue_object ms hfull, he]; rfl⟩

theorem elements_unfit (es : Elements) {frames depth fuel : ℕ} (hexact : Exact frames depth)
    (hunfit : depth + es.depth ≤ kMaxNestingDepth → ¬ es.Numbers Readable)
    (vs : List Value) (p : Bytes) (hfuel : es.text.length < fuel) :
    ∃ e, elements (parseValue frames depth) fuel vs (es.text ++ rbracket :: p) = .error e := by
  have hpos := Nat.zero_lt_of_lt hfuel
  cases frames with
  | zero => exact ⟨.unfinished, elements_error vs hpos rfl⟩
  | succ frames =>
  match es with
  | .last before v after =>
    have hstops := stops_close after (c := rbracket) (.inr (.inl rfl)) p
    obtain ⟨e, he⟩ := parseValue_unfit v hexact hstops hunfit
    simp only [Elements.text, List.append_assoc]
    exact ⟨e, elements_error vs hpos (by rw [parseValue_ws, he])⟩
  | .cons before v after rest =>
    have hrest : rest.text.length < fuel - 1 := by
      simp only [Elements.text, List.length_append, List.length_cons] at hfuel
      omega
    have hstops := stops_close after (c := comma) (.inl rfl) (rest.text ++ rbracket :: p)
    simp only [Elements.text, List.append_assoc, List.cons_append]
    by_cases hv : depth + v.depth ≤ kMaxNestingDepth ∧ v.Numbers Readable
    · have hgives := numbers_mono (fun _ => Readable.gives) v hv.2
      have hvalue := parseValue_text numOf v (hexact.fits hv.1) hgives hstops
      have hlater : depth + rest.depth ≤ kMaxNestingDepth → ¬ rest.Numbers Readable := by
        intro hle hnum
        refine hunfit ?_ ⟨hv.2, hnum⟩
        rw [Elements.depth]
        omega
      obtain ⟨fuel, rfl⟩ := Nat.exists_eq_succ_of_ne_zero (Nat.ne_zero_of_lt hfuel)
      rw [elements_comma vs (by rw [parseValue_ws, hvalue])]
      exact elements_unfit rest hexact hlater _ p hrest
    · obtain ⟨e, he⟩ := parseValue_unfit v hexact hstops fun hle hnum => hv ⟨hle, hnum⟩
      exact ⟨e, elements_error vs hpos (by rw [parseValue_ws, he])⟩

theorem members_unfit (ms : Members) {frames depth fuel : ℕ} (hexact : Exact frames depth)
    (hunfit : depth + ms.depth ≤ kMaxNestingDepth → ¬ ms.Numbers Readable)
    (obj : Object) (p : Bytes) (hfuel : ms.text.length < fuel) :
    ∃ e, members (parseValue frames depth) fuel obj (ms.text ++ rbrace :: p) = .error e := by
  have hpos := Nat.zero_lt_of_lt hfuel
  match ms with
  | .last before key after lead v after' =>
    simp only [Members.text, List.append_assoc, List.cons_append]
    cases frames with
    | zero => exact ⟨.unfinished, members_error before key after obj hpos rfl⟩
    | succ frames =>
      have hstops := stops_close after' (c := rbrace) (.inr (.inr rfl)) p
      obtain ⟨e, he⟩ := parseValue_unfit v hexact hstops hunfit
      exact ⟨e, members_error before key after obj hpos (by rw [parseValue_ws, he])⟩
  | .cons before key after lead v after' rest =>
    simp only [Members.text, List.append_assoc, List.cons_append]
    cases frames with
    | zero => exact ⟨.unfinished, members_error before key after obj hpos rfl⟩
    | succ frames =>
    have hrest : rest.text.length < fuel - 1 := by
      simp only [Members.text, List.length_append, List.length_cons] at hfuel
      omega
    have hstops := stops_close after' (c := comma) (.inl rfl) (rest.text ++ rbrace :: p)
    by_cases hv : depth + v.depth ≤ kMaxNestingDepth ∧ v.Numbers Readable
    · have hgives := numbers_mono (fun _ => Readable.gives) v hv.2
      have hvalue := parseValue_text numOf v (hexact.fits hv.1) hgives hstops
      have hlater : depth + rest.depth ≤ kMaxNestingDepth → ¬ rest.Numbers Readable := by
        intro hle hnum
        refine hunfit ?_ ⟨hv.2, hnum⟩
        rw [Members.depth]
        omega
      obtain ⟨fuel, rfl⟩ := Nat.exists_eq_succ_of_ne_zero (Nat.ne_zero_of_lt hfuel)
      rw [members_comma before key after obj (by rw [parseValue_ws, hvalue])]
      exact members_unfit rest hexact hlater _ p hrest
    · obtain ⟨e, he⟩ := parseValue_unfit v hexact hstops fun hle hnum => hv ⟨hle, hnum⟩
      exact ⟨e, members_error before key after obj hpos (by rw [parseValue_ws, he])⟩

end

/-- **A text that is nested too deep, or has a number out of range, is rejected.** -/
theorem parse_unfit (t : Text)
    (h : t.node.depth ≤ kMaxNestingDepth → ¬ t.node.Numbers Readable) :
    ∃ e, parse t.bytes = .error e := by
  have hexact : Exact (kMaxNestingDepth + 1) 0 := rfl
  obtain ⟨e, he⟩ := parseValue_unfit t.node hexact (stops_after t)
    (fun hle => h (by rwa [Nat.zero_add] at hle))
  refine ⟨e, ?_⟩
  rw [parse, parseValue_skipWs, Text.bytes, parseValue_ws, he]

theorem parse_deep (t : Text) (hdepth : kMaxNestingDepth < t.node.depth) :
    ∃ e, parse t.bytes = .error e :=
  parse_unfit t fun hle => absurd hle (Nat.not_le.2 hdepth)

/-- **What the parser reads of a JSON text**, and which ones it reads. -/
theorem parse_eq_ok_iff (t : Text) (v : Value) : parse t.bytes = .ok v ↔
    t.node.depth ≤ kMaxNestingDepth ∧ t.node.Numbers Readable ∧ v = t.node.value numOf := by
  by_cases hfit : t.node.depth ≤ kMaxNestingDepth ∧ t.node.Numbers Readable
  · have hgives := numbers_mono (fun _ => Readable.gives) t.node hfit.2
    rw [parse_bytes numOf t hfit.1 hgives]
    constructor
    · intro h
      exact ⟨hfit.1, hfit.2, (Except.ok.inj h).symm⟩
    · rintro ⟨-, -, rfl⟩
      rfl
  · obtain ⟨e, he⟩ := parse_unfit t fun hdepth hnum => hfit ⟨hdepth, hnum⟩
    rw [he]
    constructor
    · intro h
      cases h
    · rintro ⟨hdepth, hnum, -⟩
      exact absurd ⟨hdepth, hnum⟩ hfit

end BambooNet.Json
