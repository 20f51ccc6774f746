import BambooNet.Lib.JsonDoc
import BambooNet.Lib.JsonSearch

/-!
# The first member with a property

`Node.first` finds the first member of a tree, in the order of the text, that has a property, with
the text on both sides of its value and the trees in which another value stands there. A search for
the key that does not parse the text finds it as well (`KeySearch.scan_node`). When two members are
found first, for two properties, and their values are replaced by larger or smaller ones, the
documents can only be the same if it is the same member (`Node.first_same`).
-/

namespace BambooNet.JsonSyntax

/-! ## A value with what is around it -/

section Found

variable {α β δ ε : Type} {text : α → Bytes} {doc : α → δ} {text' : β → Bytes} {doc' : β → ε}

/-- A value inside of `whole`. -/
structure Found (text : α → Bytes) (doc : α → δ) (whole : α) where
  before : Bytes
  /-- The whitespace in front of the value. -/
  lead : Ws
  value : Node
  rest : Bytes
  /-- Another value in its place. -/
  plug : Node → α
  text_plug : ∀ w, text (plug w) = before ++ (w.text ++ rest)
  plug_value : plug value = whole
  doc_inj : ∀ u w, doc (plug u) = doc (plug w) → u.doc = w.doc

/-- The value itself. -/
def Found.self (lead : Ws) (v : Node) : Found Node.text Node.doc v where
  before := []
  lead := lead
  value := v
  rest := []
  plug := id
  text_plug w := (List.append_nil w.text).symm
  plug_value := rfl
  doc_inj _ _ h := h

variable {whole : α} {wrap : α → β} {pre post : Bytes}

theorem Found.text_within (f : Found text doc whole)
    (htext : ∀ a, text' (wrap a) = pre ++ (text a ++ post)) (w : Node) :
    text' (wrap (f.plug w)) = (pre ++ f.before) ++ (w.text ++ (f.rest ++ post)) := by
  rw [htext, f.text_plug]
  simp only [List.append_assoc]

/-- The value inside of something larger. -/
def Found.within (f : Found text doc whole) (wrap : α → β) (pre post : Bytes)
    (htext : ∀ a, text' (wrap a) = pre ++ (text a ++ post))
    (hdoc : ∀ a b, doc' (wrap a) = doc' (wrap b) → doc a = doc b) :
    Found text' doc' (wrap whole) where
  before := pre ++ f.before
  lead := f.lead
  value := f.value
  rest := f.rest ++ post
  plug w := wrap (f.plug w)
  text_plug := f.text_within htext
  plug_value := congrArg wrap f.plug_value
  doc_inj u w h := f.doc_inj u w (hdoc _ _ h)

end Found

abbrev Node.Found (v : Node) := JsonSyntax.Found Node.text Node.doc v
abbrev Elements.Found (es : Elements) := JsonSyntax.Found Elements.text Elements.docs es
abbrev Members.Found (ms : Members) := JsonSyntax.Found Members.text Members.docs ms

theorem Elements.text_later (before : Ws) (v : Node) (after : Ws) (es : Elements) :
    (Elements.cons before v after es).text =
      (before.bytes ++ (v.text ++ (after.bytes ++ [0x2c]))) ++ (es.text ++ []) := by
  simp [Elements.text]

theorem Members.text_last (before : Ws) (key : Str) (after lead : Ws) (v : Node) (after' : Ws) :
    (Members.last before key after lead v after').text =
      (before.bytes ++ (key.text ++ (after.bytes ++ 0x3a :: lead.bytes))) ++
        (v.text ++ after'.bytes) := by
  simp [Members.text]

theorem Members.text_cons (before : Ws) (key : Str) (after lead : Ws) (v : Node) (after' : Ws)
    (ms : Members) :
    (Members.cons before key after lead v after' ms).text =
      (before.bytes ++ (key.text ++ (after.bytes ++ 0x3a :: lead.bytes))) ++
        (v.text ++ (after'.bytes ++ 0x2c :: ms.text)) := by
  simp [Members.text]

theorem Members.text_later (before : Ws) (key : Str) (after lead : Ws) (v : Node) (after' : Ws)
    (ms : Members) :
    (Members.cons before key after lead v after' ms).text =
      (before.bytes ++ (key.text ++ (after.bytes ++ 0x3a :: (lead.bytes ++ (v.text ++
        (after'.bytes ++ [0x2c])))))) ++ (ms.text ++ []) := by
  simp [Members.text]

section First

-- A property of members: key, whitespace after the key and before the value, value.
variable (P : Str → Ws → Ws → Node → Bool)

mutual

/-- The first member of a tree with the property, whose value is found. -/
@[grind =] def Node.first : (v : Node) → Option v.Found
  | .array es => es.first.map fun f =>
    f.within Node.array [0x5b] [0x5d] (fun _ => rfl) fun _ _ h => Doc.array.inj h
  | .object ms => ms.first.map fun f =>
    f.within Node.object [0x7b] [0x7d] (fun _ => rfl) fun _ _ h => Doc.object.inj h
  | .null | .bool _ | .number _ | .string _ | .emptyArray _ | .emptyObject _ => none

@[grind =] def Elements.first : (es : Elements) → Option es.Found
  | .last before v after => v.first.map fun f =>
    f.within (Elements.last before · after) before.bytes after.bytes (fun _ => rfl)
      fun _ _ h => (List.cons.inj h).1
  | .cons before v after rest =>
    match v.first with
    | some f => some (f.within (Elements.cons before · after rest) before.bytes
        (after.bytes ++ 0x2c :: rest.text) (fun _ => rfl) fun _ _ h => (List.cons.inj h).1)
    | none => rest.first.map fun f =>
      f.within (Elements.cons before v after)
        (before.bytes ++ (v.text ++ (after.bytes ++ [0x2c]))) []
        (Elements.text_later before v after) fun _ _ h => (List.cons.inj h).2

@[grind =] def Members.first : (ms : Members) → Option ms.Found
  | .last before key after lead v after' =>
    (if P key after lead v then some (Found.self lead v) else v.first).map fun f =>
      f.within (Members.last before key after lead · after')
        (before.bytes ++ (key.text ++ (after.bytes ++ 0x3a :: lead.bytes))) after'.bytes
        (Members.text_last before key after lead · after')
        fun _ _ h => (Prod.mk.inj (List.cons.inj h).1).2
  | .cons before key after lead v after' rest =>
    match if P key after lead v then some (Found.self lead v) else v.first with
    | some f => some (f.within (Members.cons before key after lead · after' rest)
        (before.bytes ++ (key.text ++ (after.bytes ++ 0x3a :: lead.bytes)))
        (after'.bytes ++ 0x2c :: rest.text)
        (Members.text_cons before key after lead · after' rest)
        fun _ _ h => (Prod.mk.inj (List.cons.inj h).1).2)
    | none => rest.first.map fun f =>
      f.within (Members.cons before key after lead v after')
        (before.bytes ++ (key.text ++ (after.bytes ++ 0x3a :: (lead.bytes ++ (v.text ++
          (after'.bytes ++ [0x2c])))))) []
        (Members.text_later before key after lead v after') fun _ _ h => (List.cons.inj h).2

end

end First

/-- The text with another value in the place of one that was found. -/
def Text.set (t : Text) (f : t.node.Found) (w : Node) : Text := ⟨t.before, f.plug w, t.after⟩

theorem Text.bytes_set (t : Text) (f : t.node.Found) (w : Node) :
    (t.set f w).bytes =
      (t.before.bytes ++ f.before) ++ (w.text ++ (f.rest ++ t.after.bytes)) := by
  rw [Text.bytes, Text.set, f.text_plug]
  simp only [List.append_assoc]

theorem Text.bytes_found (t : Text) (f : t.node.Found) :
    t.bytes = (t.before.bytes ++ f.before) ++ (f.value.text ++ (f.rest ++ t.after.bytes)) := by
  rw [← t.bytes_set f, Text.set, f.plug_value]

/-! ## Properties of all members -/

section Members

-- A property of members: key, whitespace after the key and before the value, value.
variable (D : Str → Ws → Ws → Node → Prop)

mutual

/-- Every member of a tree has the property. -/
@[grind =] def Node.AllMembers : Node → Prop
  | .array es => es.AllMembers
  | .object ms => ms.AllMembers
  | .null | .bool _ | .number _ | .string _ | .emptyArray _ | .emptyObject _ => True

@[grind =] def Elements.AllMembers : Elements → Prop
  | .last _ v _ => v.AllMembers
  | .cons _ v _ rest => v.AllMembers ∧ rest.AllMembers

@[grind =] def Members.AllMembers : Members → Prop
  | .last _ key after lead v _ => D key after lead v ∧ v.AllMembers
  | .cons _ key after lead v _ rest => (D key after lead v ∧ v.AllMembers) ∧ rest.AllMembers

end

variable {D}

mutual

theorem Node.allMembers_of_forall (h : ∀ key after lead v, D key after lead v) (v : Node) :
    v.AllMembers D := by
  cases v with
  | array es => exact Elements.allMembers_of_forall h es
  | object ms => exact Members.allMembers_of_forall h ms
  | null | bool | number | string | emptyArray | emptyObject => trivial

theorem Elements.allMembers_of_forall (h : ∀ key after lead v, D key after lead v)
    (es : Elements) : es.AllMembers D := by
  cases es with
  | last before v after => exact Node.allMembers_of_forall h v
  | cons before v after rest =>
    exact ⟨Node.allMembers_of_forall h v, Elements.allMembers_of_forall h rest⟩

theorem Members.allMembers_of_forall (h : ∀ key after lead v, D key after lead v)
    (ms : Members) : ms.AllMembers D := by
  cases ms with
  | last before key after lead v after' =>
    exact ⟨h key after lead v, Node.allMembers_of_forall h v⟩
  | cons before key after lead v after' rest =>
    exact ⟨⟨h key after lead v, Node.allMembers_of_forall h v⟩,
      Members.allMembers_of_forall h rest⟩

end

end Members

variable {P Q : Str → Ws → Ws → Node → Bool}

variable {D : Str → Ws → Ws → Node → Prop}

theorem firstAt_domain {key : Str} {after lead : Ws} {v : Node} {f : v.Found}
    (hD : D key after lead v)
    (h : (if P key after lead v then some (Found.self lead v) else v.first P) = some f)
    (inside : v.first P = some f →
      ∃ key after, D key after f.lead f.value ∧ P key after f.lead f.value = true) :
    ∃ key after, D key after f.lead f.value ∧ P key after f.lead f.value = true := by
  split at h
  · next hP =>
    obtain rfl := Option.some.inj h
    exact ⟨key, after, hD, hP⟩
  · exact inside h

mutual

/-- The member that is found has what every member has, and the property. -/
theorem Node.first_domain {v : Node} {f : v.Found} (hD : v.AllMembers D) (h : v.first P = some f) :
    ∃ key after, D key after f.lead f.value ∧ P key after f.lead f.value = true := by
  cases v with
  | array es =>
    rw [Node.first] at h
    obtain ⟨g, hg, rfl⟩ := Option.map_eq_some_iff.1 h
    exact Elements.first_domain hD hg
  | object ms =>
    rw [Node.first] at h
    obtain ⟨g, hg, rfl⟩ := Option.map_eq_some_iff.1 h
    exact Members.first_domain hD hg
  | null | bool | number | string | emptyArray | emptyObject =>
    rw [Node.first] at h
    exact absurd h (by simp)

theorem Elements.first_domain {es : Elements} {f : es.Found} (hD : es.AllMembers D)
    (h : es.first P = some f) :
    ∃ key after, D key after f.lead f.value ∧ P key after f.lead f.value = true := by
  cases es with
  | last before v after =>
    rw [Elements.first] at h
    obtain ⟨g, hg, rfl⟩ := Option.map_eq_some_iff.1 h
    exact Node.first_domain hD hg
  | cons before v after rest =>
    rw [Elements.first] at h
    cases hv : v.first P with
    | some g =>
      rw [hv] at h
      obtain rfl := Option.some.inj h
      exact Node.first_domain hD.1 hv
    | none =>
      rw [hv] at h
      obtain ⟨g, hg, rfl⟩ := Option.map_eq_some_iff.1 h
      have hlater := Elements.first_domain hD.2 hg
      exact hlater

theorem Members.first_domain {ms : Members} {f : ms.Found} (hD : ms.AllMembers D)
    (h : ms.first P = some f) :
    ∃ key after, D key after f.lead f.value ∧ P key after f.lead f.value = true := by
  cases ms with
  | last before key after lead v after' =>
    rw [Members.first] at h
    obtain ⟨g, hg, rfl⟩ := Option.map_eq_some_iff.1 h
    exact firstAt_domain hD.1 hg (Node.first_domain hD.2)
  | cons before key after lead v after' rest =>
    rw [Members.first] at h
    cases hv : if P key after lead v then some (Found.self lead v) else v.first P with
    | some g =>
      rw [hv] at h
      obtain rfl := Option.some.inj h
      exact firstAt_domain hD.1.1 hv (Node.first_domain hD.1.2)
    | none =>
      rw [hv] at h
      obtain ⟨g, hg, rfl⟩ := Option.map_eq_some_iff.1 h
      have hlater := Members.first_domain hD.2 hg
      exact hlater

end

/-- The member that is found has the property. -/
theorem Node.first_spec {v : Node} {f : v.Found} (h : v.first P = some f) :
    ∃ key after, P key after f.lead f.value = true := by
  have hall := @Node.allMembers_of_forall (fun _ _ _ _ => True) (fun _ _ _ _ => trivial) v
  obtain ⟨key, after, -, hP⟩ := Node.first_domain hall h
  exact ⟨key, after, hP⟩

/-! ## Replacing the value -/

mutual

/-- Replacing a value leaves the number of elements or members of the whole tree. -/
theorem Node.size_first {v : Node} {f : v.Found} (h : v.first P = some f) (w : Node) :
    (f.plug w).doc.size = v.doc.size := by
  cases v with
  | array es =>
    rw [Node.first] at h
    obtain ⟨g, hg, rfl⟩ := Option.map_eq_some_iff.1 h
    exact Elements.length_first hg w
  | object ms =>
    rw [Node.first] at h
    obtain ⟨g, hg, rfl⟩ := Option.map_eq_some_iff.1 h
    exact Members.length_first hg w
  | null | bool | number | string | emptyArray | emptyObject =>
    rw [Node.first] at h
    exact absurd h (by simp)

theorem Elements.length_first {es : Elements} {f : es.Found} (h : es.first P = some f) (w : Node) :
    (f.plug w).docs.length = es.docs.length := by
  cases es with
  | last before v after =>
    rw [Elements.first] at h
    obtain ⟨g, -, rfl⟩ := Option.map_eq_some_iff.1 h
    rfl
  | cons before v after rest =>
    rw [Elements.first] at h
    cases hv : v.first P with
    | some g =>
      rw [hv] at h
      obtain rfl := Option.some.inj h
      rfl
    | none =>
      rw [hv] at h
      obtain ⟨g, hg, rfl⟩ := Option.map_eq_some_iff.1 h
      exact congrArg (· + 1) (Elements.length_first hg w)

theorem Members.length_first {ms : Members} {f : ms.Found} (h : ms.first P = some f) (w : Node) :
    (f.plug w).docs.length = ms.docs.length := by
  cases ms with
  | last before key after lead v after' =>
    rw [Members.first] at h
    obtain ⟨g, -, rfl⟩ := Option.map_eq_some_iff.1 h
    rfl
  | cons before key after lead v after' rest =>
    rw [Members.first] at h
    cases hv : if P key after lead v then some (Found.self lead v) else v.first P with
    | some g =>
      rw [hv] at h
      obtain rfl := Option.some.inj h
      rfl
    | none =>
      rw [hv] at h
      obtain ⟨g, hg, rfl⟩ := Option.map_eq_some_iff.1 h
      exact congrArg (· + 1) (Members.length_first hg w)

end

/-- A value of another size changes the document. -/
theorem Found.ne_of_size {α δ : Type} {text : α → Bytes} {doc : α → δ} {whole : α}
    (f : Found text doc whole) {w : Node} (hw : w.doc.size ≠ f.value.doc.size) :
    doc (f.plug w) ≠ doc whole := by
  intro h
  have hvalue : doc (f.plug w) = doc (f.plug f.value) := h.trans (congrArg doc f.plug_value).symm
  exact hw (congrArg Doc.size (f.doc_inj w f.value hvalue))

/-- What `Node.first_same` says of the value of a member, given that it holds inside of it. -/
theorem firstAt_same {p q : Bool} {lead : Ws} {v : Node} {f g : v.Found}
    (hf : (if p then some (Found.self lead v) else v.first P) = some f)
    (hg : (if q then some (Found.self lead v) else v.first Q) = some g) {u w : Node}
    (hu : u.doc.size ≠ f.value.doc.size) (hw : w.doc.size ≠ g.value.doc.size)
    (h : (f.plug u).doc = (g.plug w).doc)
    (inside : ∀ {f g : v.Found}, v.first P = some f → v.first Q = some g →
      u.doc.size ≠ f.value.doc.size → w.doc.size ≠ g.value.doc.size →
      (f.plug u).doc = (g.plug w).doc → f = g) : f = g := by
  cases p with
  | true =>
    obtain rfl := Option.some.inj hf
    cases q with
    | true =>
      obtain rfl := Option.some.inj hg
      rfl
    | false =>
      have hsize := congrArg Doc.size h
      rw [Node.size_first hg w] at hsize
      exact absurd hsize hu
  | false =>
    cases q with
    | true =>
      obtain rfl := Option.some.inj hg
      have hsize := congrArg Doc.size h
      rw [Node.size_first hf u] at hsize
      exact absurd hsize.symm hw
    | false => exact inside hf hg hu hw h

mutual

/-- **Two members that are found first are the same**, when replacing their values by values of
other sizes gives one document. -/
theorem Node.first_same {v : Node} {f g : v.Found} (hf : v.first P = some f)
    (hg : v.first Q = some g) {u w : Node} (hu : u.doc.size ≠ f.value.doc.size)
    (hw : w.doc.size ≠ g.value.doc.size) (h : (f.plug u).doc = (g.plug w).doc) :
    f = g := by
  cases v with
  | array es =>
    rw [Node.first] at hf hg
    obtain ⟨f', hf', rfl⟩ := Option.map_eq_some_iff.1 hf
    obtain ⟨g', hg', rfl⟩ := Option.map_eq_some_iff.1 hg
    rw [Elements.first_same hf' hg' hu hw (Doc.array.inj h)]
  | object ms =>
    rw [Node.first] at hf hg
    obtain ⟨f', hf', rfl⟩ := Option.map_eq_some_iff.1 hf
    obtain ⟨g', hg', rfl⟩ := Option.map_eq_some_iff.1 hg
    rw [Members.first_same hf' hg' hu hw (Doc.object.inj h)]
  | null | bool | number | string | emptyArray | emptyObject =>
    rw [Node.first] at hf
    exact absurd hf (by simp)

theorem Elements.first_same {es : Elements} {f g : es.Found} (hf : es.first P = some f)
    (hg : es.first Q = some g) {u w : Node} (hu : u.doc.size ≠ f.value.doc.size)
    (hw : w.doc.size ≠ g.value.doc.size) (h : (f.plug u).docs = (g.plug w).docs) :
    f = g := by
  cases es with
  | last before v after =>
    rw [Elements.first] at hf hg
    obtain ⟨f', hf', rfl⟩ := Option.map_eq_some_iff.1 hf
    obtain ⟨g', hg', rfl⟩ := Option.map_eq_some_iff.1 hg
    rw [Node.first_same hf' hg' hu hw (List.cons.inj h).1]
  | cons before v after rest =>
    rw [Elements.first] at hf hg
    cases hvf : v.first P with
    | some f' =>
      rw [hvf] at hf
      obtain rfl := Option.some.inj hf
      cases hvg : v.first Q with
      | some g' =>
        rw [hvg] at hg
        obtain rfl := Option.some.inj hg
        rw [Node.first_same hvf hvg hu hw (List.cons.inj h).1]
      | none =>
        rw [hvg] at hg
        obtain ⟨g', hg', rfl⟩ := Option.map_eq_some_iff.1 hg
        exact absurd (List.cons.inj h).1 (f'.ne_of_size hu)
    | none =>
      rw [hvf] at hf
      obtain ⟨f', hf', rfl⟩ := Option.map_eq_some_iff.1 hf
      cases hvg : v.first Q with
      | some g' =>
        rw [hvg] at hg
        obtain rfl := Option.some.inj hg
        exact absurd (List.cons.inj h).1.symm (g'.ne_of_size hw)
      | none =>
        rw [hvg] at hg
        obtain ⟨g', hg', rfl⟩ := Option.map_eq_some_iff.1 hg
        rw [Elements.first_same hf' hg' hu hw (List.cons.inj h).2]

theorem Members.first_same {ms : Members} {f g : ms.Found} (hf : ms.first P = some f)
    (hg : ms.first Q = some g) {u w : Node} (hu : u.doc.size ≠ f.value.doc.size)
    (hw : w.doc.size ≠ g.value.doc.size) (h : (f.plug u).docs = (g.plug w).docs) :
    f = g := by
  cases ms with
  | last before key after lead v after' =>
    rw [Members.first] at hf hg
    obtain ⟨f', hf', rfl⟩ := Option.map_eq_some_iff.1 hf
    obtain ⟨g', hg', rfl⟩ := Option.map_eq_some_iff.1 hg
    have hv := (Prod.mk.inj (List.cons.inj h).1).2
    rw [firstAt_same hf' hg' hu hw hv fun hf hg => Node.first_same hf hg]
  | cons before key after lead v after' rest =>
    rw [Members.first] at hf hg
    cases hvf : if P key after lead v then some (Found.self lead v) else v.first P with
    | some f' =>
      rw [hvf] at hf
      obtain rfl := Option.some.inj hf
      cases hvg : if Q key after lead v then some (Found.self lead v) else v.first Q with
      | some g' =>
        rw [hvg] at hg
        obtain rfl := Option.some.inj hg
        have hv := (Prod.mk.inj (List.cons.inj h).1).2
        rw [firstAt_same hvf hvg hu hw hv fun hf hg => Node.first_same hf hg]
      | none =>
        rw [hvg] at hg
        obtain ⟨g', hg', rfl⟩ := Option.map_eq_some_iff.1 hg
        exact absurd (Prod.mk.inj (List.cons.inj h).1).2 (f'.ne_of_size hu)
    | none =>
      rw [hvf] at hf
      obtain ⟨f', hf', rfl⟩ := Option.map_eq_some_iff.1 hf
      cases hvg : if Q key after lead v then some (Found.self lead v) else v.first Q with
      | some g' =>
        rw [hvg] at hg
        obtain rfl := Option.some.inj hg
        exact absurd (Prod.mk.inj (List.cons.inj h).1).2.symm (g'.ne_of_size hw)
      | none =>
        rw [hvg] at hg
        obtain ⟨g', hg', rfl⟩ := Option.map_eq_some_iff.1 hg
        rw [Members.first_same hf' hg' hu hw (List.cons.inj h).2]

end

/-! ## Searching the text -/

theorem foldr_same {α β : Type} (t : List α) (b : β) : t.foldr (fun _ r => r) b = b := by
  induction t with
  | nil => rfl
  | cons c t ih => exact ih

theorem Ws.quote_notMem (ws : Ws) : 0x22 ∉ ws.bytes :=
  fun h => absurd (ws.white _ h) (by decide)

theorem follows_close (after : Ws) {c : UInt8} (hc : c = 0x2c ∨ c = 0x5d ∨ c = 0x7d) (q : Bytes) :
    Follows (after.bytes ++ c :: q) :=
  ⟨after, c :: q, rfl, fun _ hd => Option.some.inj hd ▸ hc⟩

theorem head_colon (after : Ws) (q : Bytes) :
    ∀ d ∈ (after.bytes ++ 0x3a :: q).head?, ¬ (0x61 ≤ d ∧ d ≤ 0x7a) := by
  refine after.head_append fun d hd => ?_
  obtain rfl := Option.some.inj hd
  decide

/-- The characters of a number. -/
theorem Numeral.char_of_mem {n : Numeral} {c : UInt8} (h : c ∈ n.text) :
    isDigit c = true ∨ c ∈ [0x2d, 0x2b, 0x2e, 0x65, 0x45] := by
  have hdigits (d : Digits) (hc : c ∈ d.bytes) : isDigit c = true ∨
      c ∈ [0x2d, 0x2b, 0x2e, 0x65, 0x45] := .inl (d.digits c hc)
  rw [Numeral.text, List.mem_append, List.mem_append, List.mem_append] at h
  rcases h with h | h | h | h
  · split at h
    · rw [List.mem_singleton.1 h]
      exact .inr (by decide)
    · cases h
  · exact hdigits n.int h
  · rw [Numeral.fracText] at h
    split at h
    · cases h
    · next d _ =>
      rcases List.mem_cons.1 h with rfl | h
      · exact .inr (by decide)
      · exact hdigits d h
  · rw [Numeral.expText] at h
    split at h
    · cases h
    · next e _ =>
      rcases List.mem_cons.1 h with rfl | h
      · cases e.upper <;> exact .inr (by decide)
      rcases List.mem_append.1 h with h | h
      · rw [Exponent.signText] at h
        split at h
        · cases h
        · next neg _ =>
          rw [List.mem_singleton.1 h]
          cases neg <;> exact .inr (by decide)
      · exact hdigits e.digits h

theorem Numeral.quote_notMem (n : Numeral) : 0x22 ∉ n.text := fun h =>
  (n.char_of_mem h).elim (fun hdigit => absurd hdigit (by decide)) fun hmem =>
    absurd hmem (by decide)

/-- A search that can be told what it does with each part of the text: it passes over what is not in
quotes and over the strings that are values, and decides at a key whether it has found the member.
It returns the rest of the text from there on. -/
structure MemberScan where
  /-- The members that the search is made for. -/
  domain : Str → Ws → Ws → Node → Prop
  picks : Str → Ws → Ws → Node → Bool
  scan : Bytes → Option Bytes
  /-- The rest of the text, from the whitespace before the value and the text from there. -/
  result : Ws → Bytes → Bytes
  char : ∀ c q, c ≠ 0x22 → scan (c :: q) = scan q
  value : ∀ (s : Str) q, Follows q → scan (s.text ++ q) = scan q
  key : ∀ key after lead v q, domain key after lead v → Follows q →
    scan (key.text ++ (after.bytes ++ 0x3a :: (lead.bytes ++ (v.text ++ q)))) =
      if picks key after lead v then some (result lead (v.text ++ q)) else scan (v.text ++ q)

namespace MemberScan

variable (S : MemberScan)

theorem scan_plain {t : Bytes} (ht : 0x22 ∉ t) (q : Bytes) : S.scan (t ++ q) = S.scan q := by
  induction t with
  | nil => rfl
  | cons c t ih =>
    obtain ⟨hc, ht⟩ := not_or.1 (mt List.mem_cons.2 ht)
    rw [List.cons_append, S.char c _ (Ne.symm hc), ih ht]

theorem scan_ws (ws : Ws) (q : Bytes) : S.scan (ws.bytes ++ q) = S.scan q :=
  S.scan_plain ws.quote_notMem q

/-- What the search returns for a member that is found. -/
def rest {α δ : Type} {text : α → Bytes} {doc : α → δ} {whole : α} (f : Found text doc whole)
    (q : Bytes) : Bytes :=
  S.result f.lead (f.value.text ++ (f.rest ++ q))

/-- What the search does with a part of a tree, given what it finds in it. -/
def Outcome {α δ : Type} {text : α → Bytes} {doc : α → δ} {whole : α}
    (o : Option (Found text doc whole)) (q : Bytes) : Option Bytes :=
  match o with
  | some f => some (S.rest f q)
  | none => S.scan q

mutual

/-- **The search finds the first member** that it picks. -/
theorem scan_node (v : Node) (hv : v.AllMembers S.domain) {q : Bytes} (hq : Follows q) :
    S.scan (v.text ++ q) = S.Outcome (v.first S.picks) q := by
  cases v with
  | null => exact S.scan_plain (by decide) q
  | bool b => cases b <;> exact S.scan_plain (by decide) q
  | number n => exact S.scan_plain n.quote_notMem q
  | string s => exact S.value s q hq
  | emptyArray ws =>
    rw [Node.text, List.cons_append, List.append_assoc, S.char _ _ (by decide), S.scan_ws]
    exact S.char _ q (by decide)
  | emptyObject ws =>
    rw [Node.text, List.cons_append, List.append_assoc, S.char _ _ (by decide), S.scan_ws]
    exact S.char _ q (by decide)
  | array es =>
    rw [Node.text, List.cons_append, List.append_assoc, S.char _ _ (by decide),
      List.singleton_append, scan_elements es hv q, Node.first]
    cases es.first S.picks with
    | none => exact S.char _ q (by decide)
    | some f => simp [Outcome, rest, Found.within]
  | object ms =>
    rw [Node.text, List.cons_append, List.append_assoc, S.char _ _ (by decide),
      List.singleton_append, scan_members ms hv q, Node.first]
    cases ms.first S.picks with
    | none => exact S.char _ q (by decide)
    | some f => simp [Outcome, rest, Found.within]

theorem scan_elements (es : Elements) (hes : es.AllMembers S.domain) (q : Bytes) :
    S.scan (es.text ++ 0x5d :: q) = S.Outcome (es.first S.picks) (0x5d :: q) := by
  cases es with
  | last before v after =>
    rw [Elements.text, List.append_assoc, List.append_assoc, S.scan_ws,
      scan_node v hes (follows_close after (.inr (.inl rfl)) q), Elements.first]
    cases v.first S.picks with
    | none => exact S.scan_ws after _
    | some f => simp [Outcome, rest, Found.within]
  | cons before v after rest' =>
    rw [Elements.text, List.append_assoc, List.append_assoc, List.append_assoc, S.scan_ws,
      List.cons_append, scan_node v hes.1 (follows_close after (.inl rfl) _), Elements.first]
    cases v.first S.picks with
    | some f => simp [Outcome, rest, Found.within]
    | none =>
      have hlater := scan_elements rest' hes.2 q
      rw [Outcome, S.scan_ws, S.char _ _ (by decide), hlater]
      cases rest'.first S.picks with
      | none => rfl
      | some f => simp [Outcome, rest, Found.within]

theorem scan_members (ms : Members) (hms : ms.AllMembers S.domain) (q : Bytes) :
    S.scan (ms.text ++ 0x7d :: q) = S.Outcome (ms.first S.picks) (0x7d :: q) := by
  cases ms with
  | last before key after lead v after' =>
    have hfollows := follows_close after' (c := 0x7d) (.inr (.inr rfl)) q
    simp only [Members.text, List.append_assoc, List.cons_append]
    rw [S.scan_ws, S.key key after lead v _ hms.1 hfollows,
      scan_node v hms.2 hfollows, Members.first]
    cases S.picks key after lead v with
    | true => simp [Outcome, rest, Found.within, Found.self]
    | false =>
      cases v.first S.picks with
      | none => simpa [Outcome] using S.scan_ws after' _
      | some f => simp [Outcome, rest, Found.within]
  | cons before key after lead v after' rest' =>
    have hfollows := follows_close after' (c := 0x2c) (.inl rfl) (rest'.text ++ 0x7d :: q)
    simp only [Members.text, List.append_assoc, List.cons_append]
    rw [S.scan_ws, S.key key after lead v _ hms.1.1 hfollows,
      scan_node v hms.1.2 hfollows, Members.first]
    cases S.picks key after lead v with
    | true => simp [Outcome, rest, Found.within, Found.self]
    | false =>
      cases v.first S.picks with
      | some f => simp [Outcome, rest, Found.within]
      | none =>
        have hlater := scan_members rest' hms.2 q
        simp only [Outcome, Bool.false_eq_true, if_false, S.scan_ws]
        rw [S.char _ _ (by decide), hlater]
        cases rest'.first S.picks with
        | none => rfl
        | some f => simp [Outcome, rest, Found.within]

end

/-- **The search of a text** finds the first member that it picks, when it finds nothing in the end
of the text. -/
theorem scan_text {t : Text} (ht : t.node.AllMembers S.domain) (hnil : S.scan [] = none) :
    S.scan t.bytes = (t.node.first S.picks).map fun f => S.rest f t.after.bytes := by
  have hend : S.scan t.after.bytes = none := by
    have h := S.scan_ws t.after []
    rwa [List.append_nil, hnil] at h
  rw [Text.bytes, S.scan_ws, S.scan_node t.node ht t.follows_after]
  cases t.node.first S.picks with
  | none => exact hend
  | some f => rfl

end MemberScan

/-! ## Searching for a name -/

/-- A search for the text of a key, which decides by what follows the key whether it has found the
member. It returns the rest of the text from there on. -/
structure KeySearch (n : Name) where
  scan : Bytes → Option Bytes
  picks : Ws → Ws → Node → Bool
  /-- The rest of the text, from the whitespace before the value and the text from there. -/
  result : Ws → Bytes → Bytes
  step : ∀ c p, ¬ n.quoted <+: c :: p → scan (c :: p) = scan p
  skip : ∀ q, Follows q → scan (n.quoted ++ q) = scan q
  key : ∀ after lead v q, Follows q →
    scan (n.quoted ++ (after.bytes ++ 0x3a :: (lead.bytes ++ (v.text ++ q)))) =
      if picks after lead v then some (result lead (v.text ++ q)) else scan (v.text ++ q)

namespace KeySearch

variable {n : Name} (S : KeySearch n)

/-- The search that forgets what it passes. -/
def nameScan : NameScan n (Option Bytes) where
  scan := S.scan
  push _ r := r
  step := S.step
  skip q hq := (S.skip q hq).trans (foldr_same _ _).symm

theorem scan_plain {t : Bytes} (ht : 0x22 ∉ t) (q : Bytes) : S.scan (t ++ q) = S.scan q :=
  (S.nameScan.scan_noQuote ht q).trans (foldr_same _ _)

theorem scan_ws (ws : Ws) (q : Bytes) : S.scan (ws.bytes ++ q) = S.scan q :=
  S.scan_plain ws.quote_notMem q

theorem scan_char {c : UInt8} (hc : 0x22 ≠ c) (q : Bytes) : S.scan (c :: q) = S.scan q :=
  S.scan_plain (List.not_mem_cons_of_ne_of_not_mem hc List.not_mem_nil) q

/-- The members that the search finds. -/
def Picks (key : Str) (after lead : Ws) (v : Node) : Bool :=
  decide (key.EndsWith n) && S.picks after lead v

theorem scan_key (key : Str) (after lead : Ws) (v : Node) {q : Bytes} (hq : Follows q) :
    S.scan (key.text ++ (after.bytes ++ 0x3a :: (lead.bytes ++ (v.text ++ q)))) =
      if S.Picks key after lead v then some (S.result lead (v.text ++ q))
      else S.scan (v.text ++ q) := by
  have hhead := head_colon after (lead.bytes ++ (v.text ++ q))
  by_cases hkey : key.EndsWith n
  · have hpicks : S.Picks key after lead v = S.picks after lead v := by simp [Picks, hkey]
    obtain ⟨a, ha⟩ := hkey
    have hfound : S.scan (key.text ++ (after.bytes ++ 0x3a :: (lead.bytes ++ (v.text ++ q)))) =
        S.scan (n.quoted ++ (after.bytes ++ 0x3a :: (lead.bytes ++ (v.text ++ q)))) :=
      (S.nameScan.scan_endsWith ha.symm hhead).trans (foldr_same _ _)
    rw [hfound, S.key after lead v q hq, hpicks]
  · have hpicks : S.Picks key after lead v = false := by simp [Picks, hkey]
    have hmiss : S.scan (key.text ++ (after.bytes ++ 0x3a :: (lead.bytes ++ (v.text ++ q)))) =
        S.scan (after.bytes ++ 0x3a :: (lead.bytes ++ (v.text ++ q))) :=
      (S.nameScan.scan_str hkey hhead).trans (foldr_same _ _)
    rw [hmiss, S.scan_ws, S.scan_char (by decide), S.scan_ws, hpicks, if_neg (by decide)]

/-- What the search returns for a member that is found. -/
def rest {α δ : Type} {text : α → Bytes} {doc : α → δ} {whole : α} (f : Found text doc whole)
    (q : Bytes) : Bytes :=
  S.result f.lead (f.value.text ++ (f.rest ++ q))

/-- What the search does with a part of a tree, given what it finds in it. -/
def Outcome {α δ : Type} {text : α → Bytes} {doc : α → δ} {whole : α}
    (o : Option (Found text doc whole)) (q : Bytes) : Option Bytes :=
  match o with
  | some f => some (S.rest f q)
  | none => S.scan q

/-- The search, with the members that it picks. -/
def memberScan : MemberScan where
  domain _ _ _ _ := True
  picks := S.Picks
  scan := S.scan
  result := S.result
  char _ q hc := S.scan_char (Ne.symm hc) q
  value s _ hq := (S.nameScan.scan_value s hq).trans (foldr_same _ _)
  key key after lead v _ _ hq := S.scan_key key after lead v hq

/-- **The search finds the first member** with a key that ends so and with what follows it. -/
theorem scan_node (v : Node) {q : Bytes} (hq : Follows q) :
    S.scan (v.text ++ q) = S.Outcome (v.first S.Picks) q := by
  have h := S.memberScan.scan_node v (Node.allMembers_of_forall (fun _ _ _ _ => trivial) v) hq
  refine h.trans ?_
  show S.memberScan.Outcome (v.first S.Picks) q = S.Outcome (v.first S.Picks) q
  cases v.first S.Picks with
  | none => rfl
  | some f => rfl

/-- The search of a text, if it finds nothing at the end. -/
theorem scan_text (t : Text) (hnil : S.scan [] = none) :
    S.scan t.bytes = (t.node.first S.Picks).map fun f => S.rest f t.after.bytes := by
  have hend : S.scan t.after.bytes = none := by
    have h := S.scan_ws t.after []
    rwa [List.append_nil, hnil] at h
  rw [Text.bytes, S.scan_ws, S.scan_node t.node t.follows_after]
  cases t.node.first S.Picks with
  | none => exact hend
  | some f => rfl

end KeySearch

end BambooNet.JsonSyntax
