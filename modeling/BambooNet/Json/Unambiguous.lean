import BambooNet.Json.Complete
import BambooNet.Lib.JsonDoc

/-!
# A JSON text denotes one document

Two trees with the same text denote the same document (`doc_eq_of_bytes`), however deep they are and
whatever their numbers. The scanners of the parser settle it for strings and numbers; the first
character settles the kind of a value, and what stops a value settles where it ends.
-/

namespace BambooNet.Json

open JsonSyntax

theorem toRat_eq_of_text {m n : Numeral} {p q : Bytes} (hp : Stops p) (hq : Stops q)
    (h : m.text ++ p = n.text ++ q) : m.toRat = n.toRat ∧ p = q := by
  have hscan := scanNumber_text m hp
  rw [h, scanNumber_text n hq] at hscan
  obtain ⟨hparts, hrest⟩ := Prod.mk.inj (Except.ok.inj hscan)
  obtain ⟨hneg, hint, hfrac, hexpNeg, hexp⟩ := NumberText.mk.inj hparts
  refine ⟨?_, hrest.symm⟩
  simp only [Numeral.toRat, Numeral.mantissa, Numeral.scale, hneg, hint, hfrac, hexpNeg, hexp]

theorem decoded_eq_of_text {s t : Str} {p q : Bytes} (h : s.text ++ p = t.text ++ q) :
    s.decoded = t.decoded ∧ p = q := by
  have hparse := parseString_text s p
  rw [h, parseString_text] at hparse
  obtain ⟨hdecoded, hrest⟩ := Prod.mk.inj (Except.ok.inj hparse)
  exact ⟨hdecoded.symm, hrest.symm⟩

/-- The kinds of values that differ in their first character. -/
inductive Kind
  | null
  | true
  | false
  | number
  | string
  | array
  | object
  deriving DecidableEq

def Kind.of (c : UInt8) : Kind :=
  if c = 0x6e then .null else if c = 0x74 then .true else if c = 0x66 then .false
  else if c = quote then .string else if c = lbracket then .array
  else if c = lbrace then .object else .number

def kind : Node → Kind
  | .null => .null
  | .bool b => if b then .true else .false
  | .number _ => .number
  | .string _ => .string
  | .emptyArray _ | .array _ => .array
  | .emptyObject _ | .object _ => .object

theorem kind_head (v : Node) : ∃ c t, v.text = c :: t ∧ Kind.of c = kind v := by
  cases v with
  | null => exact ⟨_, _, rfl, rfl⟩
  | bool b => cases b <;> exact ⟨_, _, rfl, rfl⟩
  | number n =>
    obtain ⟨c, t, htext, hc⟩ := number_head n.toNumeral
    obtain ⟨-, hquote, hopen, ht, hf, hn⟩ := number_char hc
    obtain ⟨hbrace, hbracket⟩ := not_or.1 hopen
    refine ⟨c, t, htext, ?_⟩
    rw [Kind.of, if_neg hn, if_neg ht, if_neg hf, if_neg hquote, if_neg hbracket, if_neg hbrace,
      kind]
  | string | emptyArray | array | emptyObject | object => exact ⟨_, _, rfl, rfl⟩

theorem kind_eq_of_text {v w : Node} {p q : Bytes} (h : v.text ++ p = w.text ++ q) :
    kind v = kind w := by
  obtain ⟨c, s, hv, hc⟩ := kind_head v
  obtain ⟨d, t, hw, hd⟩ := kind_head w
  rw [hv, hw] at h
  rw [← hc, ← hd, (List.cons.inj h).1]

/-- The value after whitespace. -/
theorem text_eq_of_ws {a b : Ws} {v w : Node} {p q : Bytes}
    (h : a.bytes ++ (v.text ++ p) = b.bytes ++ (w.text ++ q)) : v.text ++ p = w.text ++ q := by
  have skip (v : Node) (p : Bytes) : skipWs (v.text ++ p) = v.text ++ p := by
    obtain ⟨c, t, hv, hc⟩ := node_head v
    rw [hv]
    exact skipWs_cons hc.1 _
  have h := congrArg skipWs h
  rwa [skipWs_ws, skipWs_ws, skip, skip] at h

/-- What comes after whitespace, when it is no whitespace. -/
theorem cons_eq_of_ws {a b : Ws} {c d : UInt8} {p q : Bytes} (hc : isWs c = false)
    (hd : isWs d = false) (h : a.bytes ++ c :: p = b.bytes ++ d :: q) : c = d ∧ p = q := by
  have h := congrArg skipWs h
  rw [skipWs_ws, skipWs_ws, skipWs_cons hc, skipWs_cons hd] at h
  exact List.cons.inj h

theorem bool_of_kind {v : Node} {b : Bool} (h : kind (.bool b) = kind v) : v = .bool b := by
  cases v with
  | bool b' => cases b <;> cases b' <;> first | rfl | exact absurd h (by decide)
  | null | number | string | emptyArray | array | emptyObject | object =>
    cases b <;> exact absurd h (by simp [kind])

theorem array_of_kind {v : Node} (h : Kind.array = kind v) :
    (∃ ws, v = .emptyArray ws) ∨ ∃ es, v = .array es := by
  cases v with
  | emptyArray ws => exact .inl ⟨ws, rfl⟩
  | array es => exact .inr ⟨es, rfl⟩
  | bool b => cases b <;> exact absurd h (by simp [kind])
  | null | number | string | emptyObject | object => exact absurd h (by simp [kind])

theorem object_of_kind {v : Node} (h : Kind.object = kind v) :
    (∃ ws, v = .emptyObject ws) ∨ ∃ ms, v = .object ms := by
  cases v with
  | emptyObject ws => exact .inl ⟨ws, rfl⟩
  | object ms => exact .inr ⟨ms, rfl⟩
  | bool b => cases b <;> exact absurd h (by simp [kind])
  | null | number | string | emptyArray | array => exact absurd h (by simp [kind])

theorem not_empty_elements {ws : Ws} {es : Elements} {p q : Bytes}
    (h : ws.bytes ++ rbracket :: p = es.text ++ q) : False := by
  obtain ⟨c, t, hskip, hc⟩ := elements_head es q
  rw [← h, skipWs_close ws (.inr (.inl rfl))] at hskip
  exact hc (List.cons.inj hskip).1.symm

theorem not_empty_members {ws : Ws} {ms : Members} {p q : Bytes}
    (h : ws.bytes ++ rbrace :: p = ms.text ++ q) : False := by
  obtain ⟨t, hskip⟩ := members_head ms q
  rw [← h, skipWs_close ws (.inr (.inr rfl))] at hskip
  exact absurd (List.cons.inj hskip).1 (by decide)

/-- What comes after a key. -/
theorem key_eq_of_text {a b c d : Ws} {k l : Str} {p q : Bytes}
    (h : a.bytes ++ (k.text ++ (c.bytes ++ colon :: p)) =
      b.bytes ++ (l.text ++ (d.bytes ++ colon :: q))) : k.decoded = l.decoded ∧ p = q := by
  obtain ⟨hkey, hafter⟩ := decoded_eq_of_text (@text_eq_of_ws a b (.string k) (.string l) _ _ h)
  exact ⟨hkey, (cons_eq_of_ws (by decide) (by decide) hafter).2⟩

mutual

/-- **The text of a value tells its document and where it ends.** -/
theorem doc_eq_of_text (v : Node) {w : Node} {p q : Bytes} (hp : Stops p) (hq : Stops q)
    (h : v.text ++ p = w.text ++ q) : v.doc = w.doc ∧ p = q := by
  have hkind := kind_eq_of_text h
  match v with
  | .null =>
    cases w with
    | null => exact ⟨rfl, List.append_cancel_left h⟩
    | bool b => cases b <;> exact absurd hkind (by decide)
    | number | string | emptyArray | array | emptyObject | object =>
      exact absurd hkind (by simp [kind])
  | .bool b =>
    obtain rfl := bool_of_kind hkind
    exact ⟨rfl, List.append_cancel_left h⟩
  | .number n =>
    cases w with
    | number n' =>
      obtain ⟨hrat, hrest⟩ := toRat_eq_of_text hp hq h
      exact ⟨congrArg Doc.number hrat, hrest⟩
    | bool b => cases b <;> exact absurd hkind (by simp [kind])
    | null | string | emptyArray | array | emptyObject | object =>
      exact absurd hkind (by simp [kind])
  | .string s =>
    cases w with
    | string s' =>
      obtain ⟨hdecoded, hrest⟩ := decoded_eq_of_text h
      exact ⟨congrArg Doc.string hdecoded, hrest⟩
    | bool b => cases b <;> exact absurd hkind (by simp [kind])
    | null | number | emptyArray | array | emptyObject | object =>
      exact absurd hkind (by simp [kind])
  | .emptyArray ws =>
    rcases array_of_kind hkind with ⟨ws', rfl⟩ | ⟨es', rfl⟩
    · simp only [Node.text, List.cons_append, List.append_assoc, List.nil_append] at h
      exact ⟨rfl, (cons_eq_of_ws (by decide) (by decide) (List.cons.inj h).2).2⟩
    · simp only [Node.text, List.cons_append, List.append_assoc, List.nil_append] at h
      exact (not_empty_elements (List.cons.inj h).2).elim
  | .array es =>
    rcases array_of_kind hkind with ⟨ws', rfl⟩ | ⟨es', rfl⟩
    · simp only [Node.text, List.cons_append, List.append_assoc, List.nil_append] at h
      exact (not_empty_elements (List.cons.inj h).2.symm).elim
    · simp only [Node.text, List.cons_append, List.append_assoc, List.nil_append] at h
      obtain ⟨hdocs, hrest⟩ := docs_eq_of_elements es (List.cons.inj h).2
      exact ⟨congrArg Doc.array hdocs, hrest⟩
  | .emptyObject ws =>
    rcases object_of_kind hkind with ⟨ws', rfl⟩ | ⟨ms', rfl⟩
    · simp only [Node.text, List.cons_append, List.append_assoc, List.nil_append] at h
      exact ⟨rfl, (cons_eq_of_ws (by decide) (by decide) (List.cons.inj h).2).2⟩
    · simp only [Node.text, List.cons_append, List.append_assoc, List.nil_append] at h
      exact (not_empty_members (List.cons.inj h).2).elim
  | .object ms =>
    rcases object_of_kind hkind with ⟨ws', rfl⟩ | ⟨ms', rfl⟩
    · simp only [Node.text, List.cons_append, List.append_assoc, List.nil_append] at h
      exact (not_empty_members (List.cons.inj h).2.symm).elim
    · simp only [Node.text, List.cons_append, List.append_assoc, List.nil_append] at h
      obtain ⟨hdocs, hrest⟩ := docs_eq_of_members ms (List.cons.inj h).2
      exact ⟨congrArg Doc.object hdocs, hrest⟩

theorem docs_eq_of_elements (es : Elements) {es' : Elements} {p q : Bytes}
    (h : es.text ++ rbracket :: p = es'.text ++ rbracket :: q) : es.docs = es'.docs ∧ p = q := by
  match es with
  | .last before v after =>
    have hv := stops_close after (c := rbracket) (.inr (.inl rfl)) p
    cases es' with
    | last before' v' after' =>
      simp only [Elements.text, List.append_assoc] at h
      have hv' := stops_close after' (c := rbracket) (.inr (.inl rfl)) q
      obtain ⟨hdoc, hrest⟩ := doc_eq_of_text v hv hv' (text_eq_of_ws h)
      exact ⟨congrArg ([·]) hdoc, (cons_eq_of_ws (by decide) (by decide) hrest).2⟩
    | cons before' v' after' rest' =>
      simp only [Elements.text, List.append_assoc, List.cons_append] at h
      have hv' := stops_close after' (c := comma) (.inl rfl) (rest'.text ++ rbracket :: q)
      obtain ⟨-, hrest⟩ := doc_eq_of_text v hv hv' (text_eq_of_ws h)
      exact absurd (cons_eq_of_ws (by decide) (by decide) hrest).1 (by decide)
  | .cons before v after rest =>
    have hv := stops_close after (c := comma) (.inl rfl) (rest.text ++ rbracket :: p)
    cases es' with
    | last before' v' after' =>
      simp only [Elements.text, List.append_assoc, List.cons_append] at h
      have hv' := stops_close after' (c := rbracket) (.inr (.inl rfl)) q
      obtain ⟨-, hrest⟩ := doc_eq_of_text v hv hv' (text_eq_of_ws h)
      exact absurd (cons_eq_of_ws (by decide) (by decide) hrest).1 (by decide)
    | cons before' v' after' rest' =>
      simp only [Elements.text, List.append_assoc, List.cons_append] at h
      have hv' := stops_close after' (c := comma) (.inl rfl) (rest'.text ++ rbracket :: q)
      obtain ⟨hdoc, hrest⟩ := doc_eq_of_text v hv hv' (text_eq_of_ws h)
      obtain ⟨hdocs, hend⟩ :=
        docs_eq_of_elements rest (cons_eq_of_ws (by decide) (by decide) hrest).2
      exact ⟨congrArg₂ List.cons hdoc hdocs, hend⟩

theorem docs_eq_of_members (ms : Members) {ms' : Members} {p q : Bytes}
    (h : ms.text ++ rbrace :: p = ms'.text ++ rbrace :: q) : ms.docs = ms'.docs ∧ p = q := by
  match ms with
  | .last before key gap lead v after =>
    have hv := stops_close after (c := rbrace) (.inr (.inr rfl)) p
    cases ms' with
    | last before' key' gap' lead' v' after' =>
      simp only [Members.text, List.append_assoc, List.cons_append] at h
      have hv' := stops_close after' (c := rbrace) (.inr (.inr rfl)) q
      obtain ⟨hkey, hvalue⟩ := key_eq_of_text h
      obtain ⟨hdoc, hrest⟩ := doc_eq_of_text v hv hv' (text_eq_of_ws hvalue)
      exact ⟨congrArg ([·]) (Prod.ext hkey hdoc), (cons_eq_of_ws (by decide) (by decide) hrest).2⟩
    | cons before' key' gap' lead' v' after' rest' =>
      simp only [Members.text, List.append_assoc, List.cons_append] at h
      have hv' := stops_close after' (c := comma) (.inl rfl) (rest'.text ++ rbrace :: q)
      obtain ⟨-, hvalue⟩ := key_eq_of_text h
      obtain ⟨-, hrest⟩ := doc_eq_of_text v hv hv' (text_eq_of_ws hvalue)
      exact absurd (cons_eq_of_ws (by decide) (by decide) hrest).1 (by decide)
  | .cons before key gap lead v after rest =>
    have hv := stops_close after (c := comma) (.inl rfl) (rest.text ++ rbrace :: p)
    cases ms' with
    | last before' key' gap' lead' v' after' =>
      simp only [Members.text, List.append_assoc, List.cons_append] at h
      have hv' := stops_close after' (c := rbrace) (.inr (.inr rfl)) q
      obtain ⟨-, hvalue⟩ := key_eq_of_text h
      obtain ⟨-, hrest⟩ := doc_eq_of_text v hv hv' (text_eq_of_ws hvalue)
      exact absurd (cons_eq_of_ws (by decide) (by decide) hrest).1 (by decide)
    | cons before' key' gap' lead' v' after' rest' =>
      simp only [Members.text, List.append_assoc, List.cons_append] at h
      have hv' := stops_close after' (c := comma) (.inl rfl) (rest'.text ++ rbrace :: q)
      obtain ⟨hkey, hvalue⟩ := key_eq_of_text h
      obtain ⟨hdoc, hrest⟩ := doc_eq_of_text v hv hv' (text_eq_of_ws hvalue)
      obtain ⟨hdocs, hend⟩ :=
        docs_eq_of_members rest (cons_eq_of_ws (by decide) (by decide) hrest).2
      exact ⟨congrArg₂ List.cons (Prod.ext hkey hdoc) hdocs, hend⟩

end

/-- **A text denotes one document.** -/
theorem doc_eq_of_bytes {t u : Text} (h : t.bytes = u.bytes) : t.node.doc = u.node.doc :=
  (doc_eq_of_text t.node (stops_after t) (stops_after u) (text_eq_of_ws h)).1

end BambooNet.Json
