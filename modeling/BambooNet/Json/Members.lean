import BambooNet.Json.RoundTrip
import BambooNet.Json.Unambiguous
import BambooNet.Lib.JsonBuild

/-!
# The members of a tree

`Value::find` on the value of a tree is the first member under the key (`find_value`). In a text
that begins with members and a comma, other members follow (`members_follow`), and no number begins
with a zero and another digit (`number_ne_leadingZero`).
-/

namespace BambooNet.Json

open JsonSyntax

/-! ## Lookups -/

theorem get?_entries (num : Number → Double) (key : Bytes) (ms : Members) :
    Entries.get? key (ms.entries num) = (ms.get? key).map (Node.value num) := by
  match ms with
  | .last before k gap lead v after =>
    rw [Members.entries, Entries.get?_insert, Members.get?]
    by_cases h : k.decoded = key
    · simp [h]
    · simp [h, Ne.symm h, Entries.get?]
  | .cons before k gap lead v after rest =>
    rw [Members.entries, Entries.get?_insert, Members.get?]
    by_cases h : k.decoded = key
    · simp [h]
    · simp [h, Ne.symm h, get?_entries num key rest]

/-- **A lookup finds the first member under the key.** -/
theorem find_value (num : Number → Double) {key : Bytes} (hne : key ≠ [])
    (hkey : ∀ c ∈ key, c ≠ 0x2e ∧ c ≠ 0x5b) (v : Node) :
    (v.value num).find key = ((v.get? key).map (Node.value num)).getD .null := by
  rw [Value.find_key hne hkey]
  cases v with
  | object ms => rw [Node.value, Value.asObject, get?_entries, Node.get?]
  | null | bool | number | string | emptyArray | array | emptyObject => rfl

/-! ## Arrays -/

theorem values_eq (num : Number → Double) (es : Elements) :
    es.values num = es.nodes.map (Node.value num) := by
  match es with
  | .last before v after => rfl
  | .cons before v after rest =>
    rw [Elements.values, Elements.nodes, List.map_cons, values_eq num rest]

theorem value_of_array (num : Number → Double) {v : Node} {ds : List Doc} (h : v.doc = .array ds) :
    v.value num = .array (v.nodes.map (Node.value num)) := by
  cases v with
  | array es => rw [Node.value, Node.nodes, values_eq]
  | emptyArray ws => rfl
  | null | bool | number | string | emptyObject | object => exact absurd h (by simp [Node.doc])

/-! ## Strings that are printed -/

/-- The literal that `escape` writes. -/
noncomputable def strOf (s : Bytes) : Str := (exists_str s).choose

@[simp] theorem text_strOf (s : Bytes) : (strOf s).text = escape s := (exists_str s).choose_spec.1

@[simp] theorem decoded_strOf (s : Bytes) : (strOf s).decoded = s := (exists_str s).choose_spec.2

/-! ## Texts that begin with members -/

/-- A member, and what ends it. -/
structure Member where
  before : Ws
  key : Str
  gap : Ws
  lead : Ws
  value : Node
  after : Ws
  close : UInt8
  closing : close = comma ∨ close = rbracket ∨ close = rbrace

def Member.text (m : Member) (p : Bytes) : Bytes :=
  m.before.bytes ++ (m.key.text ++ (m.gap.bytes ++ colon :: (m.lead.bytes ++ (m.value.text ++
    (m.after.bytes ++ m.close :: p)))))

theorem Member.isWs_close (m : Member) : isWs m.close = false := by
  obtain h | h | h := m.closing <;> rw [h] <;> decide

/-- **The text of a member tells where it ends.** -/
theorem Member.eq_of_text {m m' : Member} {p q : Bytes} (h : m.text p = m'.text q) :
    m.close = m'.close ∧ p = q := by
  obtain ⟨-, hvalue⟩ := key_eq_of_text h
  obtain ⟨-, hrest⟩ := doc_eq_of_text m.value (stops_close m.after m.closing p)
    (stops_close m'.after m'.closing q) (text_eq_of_ws hvalue)
  exact cons_eq_of_ws m.isWs_close m'.isWs_close hrest

/-- The first of several members, and the others. -/
theorem members_split (ms : Members) {c : UInt8} (hc : c = comma ∨ c = rbracket ∨ c = rbrace)
    (q : Bytes) : ∃ (m : Member) (r : Bytes), ms.text ++ c :: q = m.text r ∧
      (m.close = c ∧ r = q ∨
        m.close = comma ∧ ∃ rest : Members, sizeOf rest < sizeOf ms ∧ r = rest.text ++ c :: q) := by
  cases ms with
  | last before key gap lead v after =>
    refine ⟨⟨before, key, gap, lead, v, after, c, hc⟩, q, ?_, .inl ⟨rfl, rfl⟩⟩
    simp only [Members.text, Member.text, List.append_assoc, List.cons_append]
  | cons before key gap lead v after rest =>
    refine ⟨⟨before, key, gap, lead, v, after, comma, .inl rfl⟩, rest.text ++ c :: q, ?_,
      .inr ⟨rfl, rest, ?_, rfl⟩⟩
    · simp only [Members.text, Member.text, List.append_assoc, List.cons_append]
    · simp only [Members.cons.sizeOf_spec]
      omega

/-- **After members and a comma come members.** -/
theorem members_follow (ms : Members) {ms' : Members} {p q : Bytes}
    (h : ms.text ++ comma :: p = ms'.text ++ rbrace :: q) :
    ∃ rest : Members, p = rest.text ++ rbrace :: q := by
  obtain ⟨m, r, hm, hend⟩ := members_split ms (.inl rfl) p
  obtain ⟨m', r', hm', hend'⟩ := members_split ms' (.inr (.inr rfl)) q
  rw [hm, hm'] at h
  obtain ⟨hclose, rfl⟩ := Member.eq_of_text h
  have hcomma : m.close = comma := hend.elim And.left And.left
  obtain ⟨hbrace, -⟩ | ⟨-, rest', -, hrest'⟩ := hend'
  · exact absurd (hcomma.symm.trans (hclose.trans hbrace)) (by decide)
  obtain ⟨-, hr⟩ | ⟨-, rest, hlt, hr⟩ := hend
  · exact ⟨rest', hr.symm.trans hrest'⟩
  · exact members_follow rest (hr.symm.trans hrest')
termination_by sizeOf ms

/-- The value of the member that comes first. -/
theorem members_value {key : Bytes} {ms : Members} {c : UInt8} {p q : Bytes}
    (hc : isWs c = false) (h : escape key ++ colon :: c :: p = ms.text ++ rbrace :: q) :
    ∃ (v : Node) (r : Bytes), Stops r ∧ c :: p = v.text ++ r := by
  obtain ⟨k, hk, -⟩ := exists_str key
  obtain ⟨m, r, hm, -⟩ := members_split ms (.inr (.inr rfl)) q
  have hfirst : Ws.none.bytes ++ (k.text ++ (Ws.none.bytes ++ colon :: c :: p)) =
      escape key ++ colon :: c :: p := by rw [hk]; rfl
  rw [hm, ← hfirst] at h
  obtain ⟨-, hvalue⟩ := key_eq_of_text h
  refine ⟨m.value, m.after.bytes ++ m.close :: r, stops_close m.after m.closing r, ?_⟩
  obtain ⟨e, t, hv, he⟩ := node_head m.value
  have hskip := congrArg skipWs hvalue
  rwa [skipWs_cons hc, skipWs_ws, hv, List.cons_append, skipWs_cons he.1, ← List.cons_append,
    ← hv] at hskip

/-- **No number begins with a zero and another digit.** -/
theorem number_ne_leadingZero (n : Number) {d : UInt8} (hd : isDigit d = true) {p q : Bytes}
    (hq : Stops q) : n.text ++ q ≠ 0x30 :: d :: p := by
  intro h
  have hscan := scanNumber_text n.toNumeral hq
  rw [h] at hscan
  obtain ⟨hparts, -⟩ := Prod.mk.inj (Except.ok.inj hscan)
  have hint : 0x30 :: d :: p.takeWhile isDigit = n.int.bytes := by
    have hminus : (0x30 : UInt8) ≠ minus := by decide
    have hzero : isDigit 0x30 = true := by decide
    simpa [scanNumber, scanDigits, hminus, hzero, hd] using congrArg NumberText.int hparts
  rw [n.noLeadingZero (by rw [← hint]; rfl)] at hint
  exact absurd hint (by simp)

end BambooNet.Json
