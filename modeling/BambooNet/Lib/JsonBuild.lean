import BambooNet.Lib.JsonDoc

/-!
# Building and reading JSON trees

Trees without whitespace from a list of values or of members: their text puts commas between the
texts of the parts (`Node.text_ofNodes`, `Members.text_ofFields`), and they denote the parts in
their order. `Node.get?` reads the first member under a key.
-/

namespace BambooNet.JsonSyntax

/-! ## Arrays -/

/-- Elements without whitespace, of which `v` is the first. -/
def Elements.ofNodes (v : Node) : List Node → Elements
  | [] => .last .none v .none
  | w :: vs => .cons .none v .none (ofNodes w vs)

/-- An array without whitespace. -/
def Node.ofNodes : List Node → Node
  | [] => .emptyArray .none
  | v :: vs => .array (.ofNodes v vs)

theorem Elements.text_ofNodes (v : Node) (vs : List Node) :
    (ofNodes v vs).text = v.text ++ vs.flatMap fun w => 0x2c :: w.text := by
  induction vs generalizing v with
  | nil => simp [ofNodes, Elements.text, Ws.none]
  | cons w vs ih => simp [ofNodes, Elements.text, Ws.none, ih w]

theorem Elements.docs_ofNodes (v : Node) (vs : List Node) :
    (ofNodes v vs).docs = v.doc :: vs.map Node.doc := by
  induction vs generalizing v with
  | nil => rfl
  | cons w vs ih => rw [ofNodes, Elements.docs, ih w, List.map_cons]

theorem Node.text_ofNodes (v : Node) (vs : List Node) :
    (ofNodes (v :: vs)).text =
      0x5b :: (v.text ++ (vs.flatMap fun w => 0x2c :: w.text) ++ [0x5d]) := by
  rw [ofNodes, Node.text, Elements.text_ofNodes]

theorem Node.doc_ofNodes (vs : List Node) : (ofNodes vs).doc = .array (vs.map Node.doc) := by
  cases vs with
  | nil => rfl
  | cons v vs => rw [ofNodes, Node.doc, Elements.docs_ofNodes, List.map_cons]

/-- The elements of an array without the whitespace. -/
@[grind =] def Elements.nodes : Elements → List Node
  | .last _ v _ => [v]
  | .cons _ v _ rest => v :: rest.nodes

def Node.nodes : Node → List Node
  | .array es => es.nodes
  | _ => []

theorem Elements.docs_eq (es : Elements) : es.docs = es.nodes.map Node.doc := by
  match es with
  | .last before v after => rfl
  | .cons before v after rest => rw [Elements.docs, nodes, List.map_cons, rest.docs_eq]

theorem Elements.numbers_nodes {P : Number → Prop} (es : Elements) (h : es.Numbers P) :
    ∀ v ∈ es.nodes, v.Numbers P := by
  match es with
  | .last before v after => exact List.forall_mem_singleton.2 h
  | .cons before v after rest => exact List.forall_mem_cons.2 ⟨h.1, rest.numbers_nodes h.2⟩

theorem Node.numbers_nodes {P : Number → Prop} {v : Node} (h : v.Numbers P) :
    ∀ w ∈ v.nodes, w.Numbers P := by
  cases v with
  | array es => exact es.numbers_nodes h
  | null | bool | number | string | emptyArray | emptyObject | object => simp [nodes]

theorem Node.nodes_of_doc {v : Node} {ds : List Doc} (h : v.doc = .array ds) :
    v.nodes.map doc = ds := by
  cases v with
  | array es =>
    rw [nodes, ← es.docs_eq]
    exact Doc.array.inj h
  | emptyArray ws => exact Doc.array.inj h
  | null | bool | number | string | emptyObject | object => exact absurd h (by simp [doc])

theorem Elements.depth_le {k : ℕ} (es : Elements) (h : ∀ v ∈ es.nodes, v.depth ≤ k) :
    es.depth ≤ k := by
  match es with
  | .last before v after => exact h v (List.mem_singleton_self v)
  | .cons before v after rest =>
    obtain ⟨hv, hrest⟩ := List.forall_mem_cons.1 h
    exact max_le hv (rest.depth_le hrest)

theorem Node.depth_le {k : ℕ} {v : Node} {ds : List Doc} (hdoc : v.doc = .array ds)
    (h : ∀ w ∈ v.nodes, w.depth ≤ k) : v.depth ≤ k + 1 := by
  cases v with
  | array es => exact Nat.succ_le_succ (es.depth_le h)
  | emptyArray ws => exact Nat.succ_le_succ (Nat.zero_le k)
  | null | bool | number | string | emptyObject | object => exact absurd hdoc (by simp [doc])

/-! ## Objects -/

/-- A key and its value. -/
abbrev Field := Str × Node

def Field.text (f : Field) : Bytes := f.1.text ++ 0x3a :: f.2.text

def Field.doc (f : Field) : Bytes × Doc := (f.1.decoded, f.2.doc)

/-- Members without whitespace, of which `f` is the first. -/
def Members.ofFields (f : Field) : List Field → Members
  | [] => .last .none f.1 .none .none f.2 .none
  | g :: fs => .cons .none f.1 .none .none f.2 .none (ofFields g fs)

theorem Members.text_ofFields (f : Field) (fs : List Field) :
    (ofFields f fs).text = f.text ++ fs.flatMap fun g => 0x2c :: g.text := by
  induction fs generalizing f with
  | nil => simp [ofFields, Members.text, Ws.none, Field.text]
  | cons g fs ih => simp [ofFields, Members.text, Ws.none, ih g, Field.text]

theorem Members.docs_ofFields (f : Field) (fs : List Field) :
    (ofFields f fs).docs = f.doc :: fs.map Field.doc := by
  induction fs generalizing f with
  | nil => rfl
  | cons g fs ih =>
    rw [ofFields, Members.docs, ih g, List.map_cons]
    rfl

/-! ## The first member under a key -/

@[grind =] def Members.get? (key : Bytes) : Members → Option Node
  | .last _ k _ _ v _ => if k.decoded = key then some v else none
  | .cons _ k _ _ v _ rest => if k.decoded = key then some v else rest.get? key

def Node.get? (key : Bytes) : Node → Option Node
  | .object ms => ms.get? key
  | _ => none

def Doc.get? (key : Bytes) : Doc → Option Doc
  | .object ms => (ms.find? fun m => m.1 = key).map Prod.snd
  | _ => none

theorem Members.get?_docs (key : Bytes) (ms : Members) :
    (Doc.object ms.docs).get? key = (ms.get? key).map Node.doc := by
  match ms with
  | .last before k gap lead v after =>
    by_cases h : k.decoded = key <;> simp [Members.docs, Doc.get?, Members.get?, h]
  | .cons before k gap lead v after rest =>
    have ih := rest.get?_docs key
    by_cases h : k.decoded = key
    · simp [Members.docs, Doc.get?, Members.get?, h]
    · simpa [Members.docs, Doc.get?, Members.get?, h] using ih

theorem Node.get?_doc (key : Bytes) (v : Node) : v.doc.get? key = (v.get? key).map Node.doc := by
  cases v with
  | object ms => exact ms.get?_docs key
  | null | bool | number | string | emptyArray | array => rfl
  | emptyObject ws => rfl

theorem Members.numbers_get? {P : Number → Prop} {key : Bytes} {v : Node} (ms : Members)
    (h : ms.Numbers P) (hv : ms.get? key = some v) : v.Numbers P := by
  match ms with
  | .last before k gap lead w after =>
    rw [Members.get?] at hv
    split at hv
    · exact Option.some.inj hv ▸ h
    · exact absurd hv (by simp)
  | .cons before k gap lead w after rest =>
    rw [Members.get?] at hv
    split at hv
    · exact Option.some.inj hv ▸ h.1
    · exact rest.numbers_get? h.2 hv

theorem Node.numbers_get? {P : Number → Prop} {key : Bytes} {v w : Node} (h : v.Numbers P)
    (hw : v.get? key = some w) : w.Numbers P := by
  cases v with
  | object ms => exact ms.numbers_get? h hw
  | null | bool | number | string | emptyArray | array | emptyObject =>
    exact absurd hw (by simp [get?])

end BambooNet.JsonSyntax
