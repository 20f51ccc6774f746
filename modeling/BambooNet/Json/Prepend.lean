import BambooNet.Json.RoundTrip
import BambooNet.Json.Safe

/-!
# A member in front of the others

Putting a member in front of the members of a printed object gives a text that is read exactly when
the printed object is, and as that object with the member, which wins over one with the same key
(`parse_prepend`). This holds for any values, also for those that do not read back as themselves:
the loop over the members runs alike on both texts (`members_alongside`).
-/

namespace BambooNet.Json

open JsonSyntax

variable {front obj obj' : Object}

/-- The entries of `front`, and those of `obj'` under other keys. -/
def Fronted (front obj obj' : Object) : Prop :=
  ∀ k, Entries.get? k obj = (Entries.get? k front).or (Entries.get? k obj')

theorem Fronted.emplace (h : Fronted front obj obj') (key : Bytes) (v : Value) :
    Fronted front (emplace key v obj) (emplace key v obj') := by
  intro k
  rw [get?_emplace, get?_emplace, h k, Option.or_assoc]

/-- Outcomes that differ in the entries of `front` only. -/
def Alongside (front : Object) : Parsed Object → Parsed Object → Prop
  | .ok r, .ok r' => r.2 = r'.2 ∧ Fronted front r.1 r'.1
  | .error e, .error e' => e = e'
  | .ok _, .error _ => False
  | .error _, .ok _ => False

/-- **The members are read alike** whatever is in front of them, with any fuel that is enough. -/
theorem members_alongside {Q : Value → Prop} {value : Bytes → Parsed Value}
    (hvalue : ∀ p, Scans Q p.length (value p)) {fuel fuel' : ℕ} {p : Bytes}
    (hfuel : p.length < fuel) (hfuel' : p.length < fuel') (h : Fronted front obj obj') :
    Alongside front (members value fuel obj p) (members value fuel' obj' p) := by
  induction fuel generalizing fuel' p obj obj' with
  | zero => omega
  | succ fuel ih =>
    obtain ⟨fuel', rfl⟩ := Nat.exists_eq_succ_of_ne_zero (Nat.ne_zero_of_lt hfuel')
    have hkey := parseString_scans (skipWs p)
    have hskip := length_skipWs_le p
    unfold members
    cases hstring : parseString (skipWs p) with
    | error e => rfl
    | ok r =>
      obtain ⟨key, q₁⟩ := r
      have hq₁ := (hkey.ok hstring).2
      dsimp only
      cases hcolon : skipWs q₁ with
      | nil => rfl
      | cons c q₂ =>
        have hq₂ := length_of_skipWs hcolon
        dsimp only
        split
        · rfl
        cases hparse : value q₂ with
        | error e => rfl
        | ok r =>
          obtain ⟨v, q₃⟩ := r
          have hq₃ := ((hvalue q₂).ok hparse).2
          dsimp only
          cases hend : skipWs q₃ with
          | nil => rfl
          | cons c q₄ =>
            have hq₄ := length_of_skipWs hend
            dsimp only
            split
            · exact ih (by omega) (by omega) (h.emplace key v)
            split
            · exact ⟨rfl, h.emplace key v⟩
            · rfl

/-! ## Whole objects -/

/-- What is left after an object has to be whitespace. -/
def closeObject : Parsed Object → Except ParseError Value
  | .error e => .error e
  | .ok (obj, p) => if skipWs p = [] then .ok (.object obj) else .error .trailing

/-- The parser inside of an outermost container. -/
abbrev innerValue : Bytes → Parsed Value := parseValue kMaxNestingDepth 1

theorem parse_lbrace (p : Bytes) :
    parse (lbrace :: p) = closeObject (parseObject innerValue p) := by
  rw [parse, skipWs_cons (by decide), parseValue, valueWith, skipWs_cons (by decide)]
  dsimp only
  rw [if_neg (by decide), if_pos (.inl rfl), if_neg (by decide), if_pos rfl]
  cases parseObject (parseValue kMaxNestingDepth (0 + 1)) p with
  | error e => rfl
  | ok r => rfl

/-- An object that begins with a key has members. -/
theorem parseObject_quote (value : Bytes → Parsed Value) (p : Bytes) :
    parseObject value (quote :: p) = members value (p.length + 2) [] (quote :: p) := by
  rw [parseObject, skipWs_cons (by decide)]
  rfl

/-- The first member, when others follow. -/
theorem members_first {value : Bytes → Parsed Value} {fuel : ℕ} {key : Bytes} {v : Value}
    {text p : Bytes} (hv : value (text ++ comma :: p) = .ok (v, comma :: p)) :
    members value (fuel + 1) [] (escape key ++ colon :: (text ++ comma :: p)) =
      members value fuel [(key, v)] p := by
  have hquote : skipWs (escape key ++ colon :: (text ++ comma :: p)) =
      escape key ++ colon :: (text ++ comma :: p) := skipWs_cons (by decide) _
  rw [members, hquote, parseString_escape]
  dsimp only
  rw [skipWs_cons (by decide)]
  dsimp only
  rw [if_neg (by simp), hv]
  dsimp only
  rw [skipWs_cons (by decide)]
  rfl

theorem parseValue_inner_scans (p : Bytes) : Scans (Good 1) p.length (innerValue p) :=
  parseValue_scans (by decide) (by decide) p

/-- Integers up to `2 ^ 53` are read inside of containers. -/
theorem innerValue_int {n : ℤ} (hn : n.natAbs ≤ 2 ^ 53) (p : Bytes) :
    innerValue (decimalInt n ++ comma :: p) = .ok (.number (.int n), comma :: p) := by
  have hvalue := Number.intValue_ofInt n
  have hsmall : (Number.ofInt n).natAbs ≤ 2 ^ 53 := by
    rw [Numeral.intValue] at hvalue
    split at hvalue <;> omega
  have hgives : (Node.number (Number.ofInt n)).Numbers (Gives intOf) :=
    doubleOf_int ⟨Number.isInt_ofInt n, hsmall⟩
  have hfits : Fits kMaxNestingDepth 1 0 := ⟨by decide, by decide⟩
  have h := @parseValue_text intOf (.number (Number.ofInt n)) kMaxNestingDepth 1 (comma :: p)
    hfits hgives (stops_closing (.inl rfl) p)
  rwa [Node.text, Number.text_ofInt, Node.value, intOf, hvalue] at h

theorem Fronted.eq_insert {key : Bytes} {v : Value} (h : Fronted [(key, v)] obj obj')
    (hobj : Entries.Sorted obj) (hobj' : Entries.Sorted obj') :
    obj = Entries.insert key v obj' := by
  refine Entries.Sorted.ext hobj (hobj'.insert key v) fun k => ?_
  rw [h k, Entries.get?_insert, Entries.get?]
  split <;> rfl

/-- **A member in front of the first one.** -/
theorem parse_prepend (key : Bytes) {n : ℤ} (hn : n.natAbs ≤ 2 ^ 53) (p : Bytes) (w : Value) :
    parse (lbrace :: (escape key ++ colon :: (decimalInt n ++ comma :: quote :: p))) = .ok w ↔
      ∃ obj, parse (lbrace :: quote :: p) = .ok (.object obj) ∧
        w = .object (Entries.insert key (.number (.int n)) obj) := by
  obtain ⟨q, hq⟩ : ∃ q, escape key ++ colon :: (decimalInt n ++ comma :: quote :: p) = quote :: q :=
    ⟨_, rfl⟩
  have hlong : p.length + 1 < q.length + 1 := by
    have := congrArg List.length hq
    simp only [List.length_append, List.length_cons] at this
    omega
  rw [parse_lbrace, parse_lbrace, hq, parseObject_quote, parseObject_quote, ← hq,
    members_first (innerValue_int hn _)]
  have hfuel : (quote :: p).length < q.length + 1 := hlong
  have hfuel' : (quote :: p).length < p.length + 2 := Nat.lt_succ_self _
  have hdepth : 1 + 0 ≤ kMaxNestingDepth := by decide
  have hfirst : Entry (Good 1) [(key, .number (.int n))] :=
    ⟨List.pairwise_singleton _ _, by simpa using ⟨.number trivial, hdepth⟩⟩
  have hempty : Entry (Good 1) [] := ⟨.nil, by simp⟩
  have hfront : Fronted [(key, .number (.int n))] [(key, .number (.int n))] [] := by
    intro k
    rw [Entries.get?, Option.or_none]
  have hrun := members_alongside parseValue_inner_scans hfuel hfuel' hfront
  have hscan := members_scans parseValue_inner_scans hfuel hfirst
  have hscan' := members_scans parseValue_inner_scans hfuel' hempty
  cases hm : members innerValue (q.length + 1) [(key, .number (.int n))] (quote :: p) with
  | error e =>
    cases hm' : members innerValue (p.length + 2) [] (quote :: p) with
    | error e' => simp [closeObject]
    | ok r' =>
      rw [hm, hm'] at hrun
      exact hrun.elim
  | ok r =>
    cases hm' : members innerValue (p.length + 2) [] (quote :: p) with
    | error e' =>
      rw [hm, hm'] at hrun
      exact hrun.elim
    | ok r' =>
      rw [hm, hm'] at hrun
      obtain ⟨hrest, hfronted⟩ := hrun
      have hobj := hfronted.eq_insert (hscan.ok hm).1.1 (hscan'.ok hm').1.1
      simp only [closeObject, hrest, hobj]
      split
      · constructor
        · exact fun h => ⟨r'.1, rfl, (Except.ok.inj h).symm⟩
        · rintro ⟨obj, hobj', rfl⟩
          obtain rfl := Value.object.inj (Except.ok.inj hobj')
          rfl
      · simp

/-- A comma cannot be the last thing in an object. -/
theorem parse_only_comma (key : Bytes) {n : ℤ} (hn : n.natAbs ≤ 2 ^ 53) :
    parse (lbrace :: (escape key ++ colon :: (decimalInt n ++ [comma, rbrace]))) =
      .error .expectedString := by
  obtain ⟨q, hq⟩ : ∃ q, escape key ++ colon :: (decimalInt n ++ [comma, rbrace]) = quote :: q :=
    ⟨_, rfl⟩
  have hlong : 0 < q.length := by
    have := congrArg List.length hq
    simp only [List.length_append, List.length_cons] at this
    omega
  obtain ⟨fuel, hfuel⟩ := Nat.exists_eq_succ_of_ne_zero hlong.ne'
  rw [parse_lbrace, hq, parseObject_quote, ← hq, members_first (innerValue_int hn _), hfuel]
  rfl

end BambooNet.Json
