import BambooNet.Lib.Strtoul

/-!
# XML texts

The grammar of XML documents without a document type, as syntax trees that keep every byte: white
space, quotes, the form of references. The constraints of the grammar are fields. A field may let
through more than the grammar does, so that every document is the text of a tree: a name is
anything without delimiters, and character data are bytes, not characters.

**Content** is the sequence of what stands between two tags. An element in it comes with its own
content and is followed by the rest.
-/

namespace BambooNet.XmlSyntax

/-! ## Names and attributes -/

def whitespace : List UInt8 := [0x20, 0x09, 0x0d, 0x0a]

/-- Optional white space. -/
abbrev Ws (s : Bytes) : Prop := ∀ c ∈ s, c ∈ whitespace

/-- White space and the bytes of markup: less, greater, slash, equals, quotes, ampersand,
exclamation and question mark. -/
def delimiters : List UInt8 :=
  whitespace ++ [0x3c, 0x3e, 0x2f, 0x3d, 0x22, 0x27, 0x26, 0x21, 0x3f]

structure Name where
  bytes : Bytes
  ne_nil : bytes ≠ []
  plain : ∀ c ∈ bytes, c ∉ delimiters

/-- An attribute and the white space before it. The value is as it is written. -/
structure Attribute where
  before : Bytes
  name : Name
  beforeEq : Bytes
  afterEq : Bytes
  quote : UInt8
  value : Bytes
  separated : before ≠ []
  white : Ws before ∧ Ws beforeEq ∧ Ws afterEq
  isQuote : quote = 0x22 ∨ quote = 0x27
  plain : ∀ c ∈ value, c ≠ quote ∧ c ≠ 0x3c

namespace Attribute

/-- What stands before the value. -/
def front (a : Attribute) : Bytes :=
  a.before ++ (a.name.bytes ++ (a.beforeEq ++ 0x3d :: a.afterEq))

def text (a : Attribute) : Bytes := a.front ++ (a.quote :: a.value ++ [a.quote])

end Attribute

/-- The name and the attributes of an element. -/
structure Tag where
  name : Name
  attributes : List Attribute
  /-- The white space before the end of the tag. -/
  space : Bytes
  unique : (attributes.map (·.name.bytes)).Nodup
  white : Ws space

namespace Tag

/-- What stands between the name and the end of the tag. -/
def inside (tag : Tag) : Bytes := tag.attributes.flatMap Attribute.text ++ tag.space

def attribute? (tag : Tag) (name : Bytes) : Option Bytes :=
  (tag.attributes.find? (·.name.bytes = name)).map (·.value)

def text (tag : Tag) : Bytes := 0x3c :: (tag.name.bytes ++ (tag.inside ++ [0x3e]))

/-- The tag of an element without content. -/
def emptyText (tag : Tag) : Bytes := 0x3c :: (tag.name.bytes ++ (tag.inside ++ [0x2f, 0x3e]))

/-- The end tag, with the white space in it. -/
def endText (tag : Tag) (space : Bytes) : Bytes :=
  0x3c :: 0x2f :: (tag.name.bytes ++ (space ++ [0x3e]))

end Tag

/-! ## Character data -/

/-- The predefined entities and what they stand for. -/
def entities : List (Bytes × UInt8) :=
  [(ascii "amp", 0x26), (ascii "lt", 0x3c), (ascii "gt", 0x3e), (ascii "quot", 0x22),
    (ascii "apos", 0x27)]

/-- The reference to a character by its number. -/
structure CharRef where
  hex : Bool
  digits : Bytes
  char : Char
  ne_nil : digits ≠ []
  inBase : ∀ c ∈ digits, digitValue c < if hex then 16 else 10
  value : ofDigits (if hex then 16 else 10) digits = char.toNat
  nonzero : char.toNat ≠ 0

/-- What stands between the ampersand and the semicolon. -/
def CharRef.body (r : CharRef) : Bytes :=
  0x23 :: (if r.hex then 0x78 :: r.digits else r.digits)

/-- A byte of character data, or a reference. -/
inductive Piece
  | byte (c : UInt8) (plain : c ≠ 0x3c ∧ c ≠ 0x26)
  | entity (e : Bytes × UInt8) (known : e ∈ entities)
  | char (r : CharRef)

namespace Piece

def text : Piece → Bytes
  | byte c _ => [c]
  | entity e _ => 0x26 :: (e.1 ++ [0x3b])
  | char r => 0x26 :: (r.body ++ [0x3b])

/-- What the piece stands for, in UTF-8. -/
def decoded : Piece → Bytes
  | byte c _ => [c]
  | entity e _ => [e.2]
  | char r => String.utf8EncodeChar r.char

end Piece

/-! ## Content -/

/-- What stands between the ends of a comment. -/
abbrev CommentText (s : Bytes) : Prop := ¬ ascii "--" <:+: s ++ ascii "-"

abbrev PiText (s : Bytes) : Prop := ¬ ascii "?>" <:+: s

inductive Content
  | nil
  | piece (p : Piece) (rest : Content)
  | cdata (s : Bytes) (closed : ¬ ascii "]]>" <:+: s) (rest : Content)
  | comment (s : Bytes) (closed : CommentText s) (rest : Content)
  | pi (s : Bytes) (closed : PiText s) (rest : Content)
  | empty (tag : Tag) (rest : Content)
  | element (tag : Tag) (inner : Content) (space : Bytes) (white : Ws space) (rest : Content)

namespace Content

@[grind =] def text : Content → Bytes
  | nil => []
  | piece p rest => p.text ++ rest.text
  | cdata s _ rest => ascii "<![CDATA[" ++ (s ++ (ascii "]]>" ++ rest.text))
  | comment s _ rest => ascii "<!--" ++ (s ++ (ascii "-->" ++ rest.text))
  | pi s _ rest => ascii "<?" ++ (s ++ (ascii "?>" ++ rest.text))
  | empty tag rest => tag.emptyText ++ rest.text
  | element tag inner space _ rest => tag.text ++ (inner.text ++ (tag.endText space ++ rest.text))

/-- The content of the first element in document order with such a tag. -/
@[grind =] def find? (p : Tag → Bool) : Content → Option Content
  | nil => none
  | piece _ rest => rest.find? p
  | cdata _ _ rest => rest.find? p
  | comment _ _ rest => rest.find? p
  | pi _ _ rest => rest.find? p
  | empty tag rest => if p tag then some nil else rest.find? p
  | element tag inner _ _ rest => if p tag then some inner else (inner.find? p).or (rest.find? p)

/-- Neither elements nor processing instructions. -/
@[grind =] def Flat : Content → Prop
  | nil => True
  | piece _ rest => rest.Flat
  | cdata _ _ rest => rest.Flat
  | comment _ _ rest => rest.Flat
  | pi _ _ _ => False
  | empty _ _ => False
  | element _ _ _ _ _ => False

/-- The pieces of character data that are not in an element of the content. -/
@[grind =] def pieces : Content → List Piece
  | nil => []
  | piece p rest => p :: rest.pieces
  | cdata _ _ rest => rest.pieces
  | comment _ _ rest => rest.pieces
  | pi _ _ rest => rest.pieces
  | empty _ rest => rest.pieces
  | element _ _ _ _ rest => rest.pieces

/-- The character data that are not in an element of the content. -/
@[grind =] def charData : Content → Bytes
  | nil => []
  | piece p rest => p.decoded ++ rest.charData
  | cdata s _ rest => s ++ rest.charData
  | comment _ _ rest => rest.charData
  | pi _ _ rest => rest.charData
  | empty _ rest => rest.charData
  | element _ _ _ _ rest => rest.charData

end Content

/-! ## Documents -/

/-- What may stand beside the root element. The XML declaration is one of these as well. -/
inductive Misc
  | space (c : UInt8) (white : c ∈ whitespace)
  | comment (s : Bytes) (closed : CommentText s)
  | pi (s : Bytes) (closed : PiText s)

inductive Element
  | empty (tag : Tag)
  | full (tag : Tag) (inner : Content) (space : Bytes) (white : Ws space)

structure Document where
  prolog : List Misc
  root : Element
  epilog : List Misc

theorem plain_of_white : ∀ c ∈ whitespace, c ≠ 0x3c ∧ c ≠ 0x26 :=
  List.all_iff_forall_prop.1 (by decide)

namespace Document

def misc (m : Misc) (rest : Content) : Content :=
  match m with
  | .space c white => .piece (.byte c (plain_of_white c white)) rest
  | .comment s closed => .comment s closed rest
  | .pi s closed => .pi s closed rest

def element (e : Element) (rest : Content) : Content :=
  match e with
  | .empty tag => .empty tag rest
  | .full tag inner space white => .element tag inner space white rest

/-- The document as content. -/
def content (doc : Document) : Content :=
  doc.prolog.foldr misc (element doc.root (doc.epilog.foldr misc .nil))

def text (doc : Document) : Bytes := doc.content.text

end Document

/-! ## Bytes of markup -/

section

variable {c : UInt8}

theorem Name.notMem (n : Name) (hc : c ∈ delimiters) : c ∉ n.bytes := fun h => n.plain c h hc

theorem lt_notMem_white {s : Bytes} (h : Ws s) : 0x3c ∉ s := fun hc =>
  (plain_of_white _ (h _ hc)).1 rfl

theorem Attribute.lt_notMem_text (a : Attribute) : 0x3c ∉ a.text := by
  obtain ⟨hbefore, heq, heq'⟩ := a.white
  have hname := a.name.notMem (c := 0x3c) (by decide)
  have hquote : (0x3c : UInt8) ≠ a.quote := by
    rcases a.isQuote with h | h
    · rw [h]
      decide
    · rw [h]
      decide
  have hvalue : 0x3c ∉ a.value := fun h => (a.plain _ h).2 rfl
  simp [Attribute.text, Attribute.front, lt_notMem_white hbefore, hname, lt_notMem_white heq,
    lt_notMem_white heq', hquote, hvalue]

theorem Tag.lt_notMem_inside (tag : Tag) : 0x3c ∉ tag.inside := by
  intro h
  rcases List.mem_append.1 h with h | h
  · obtain ⟨a, -, ha⟩ := List.mem_flatMap.1 h
    exact a.lt_notMem_text ha
  · exact lt_notMem_white tag.white h

/-- A tag has no slash before its end. -/
theorem Tag.getLast?_inside (tag : Tag) : tag.inside.getLast? ≠ some 0x2f := by
  intro h
  rw [inside, List.getLast?_append, Option.or_eq_some_iff] at h
  rcases h with h | ⟨-, h⟩
  · have hslash : ∀ c ∈ whitespace, c ≠ 0x2f := List.all_iff_forall_prop.1 (by decide)
    exact hslash _ (tag.white _ (List.mem_of_getLast? h)) rfl
  · rcases List.eq_nil_or_concat tag.attributes with hnil | ⟨as, a, hlast⟩
    · rw [hnil, List.flatMap_nil] at h
      cases h
    · -- the last byte is a quote
      rw [hlast, List.concat_eq_append, List.flatMap_append, List.flatMap_singleton, Attribute.text,
        ← List.append_assoc, ← List.append_assoc, List.getLast?_concat, Option.some_inj] at h
      rcases a.isQuote with hquote | hquote
      · rw [hquote] at h
        cases h
      · rw [hquote] at h
        cases h

/-- White space, or the end of a tag, comes behind the name in it. -/
theorem Tag.exists_head_inside (tag : Tag) (d : UInt8) (u : Bytes) :
    ∃ e t, tag.inside ++ d :: u = e :: t ∧ (e ∈ whitespace ∨ e = d) := by
  have hhead : ∃ e, (tag.inside ++ d :: u).head? = some e ∧ (e ∈ whitespace ∨ e = d) := by
    rw [inside]
    cases tag.attributes with
    | nil =>
      have hwhite := tag.white
      cases hspace : tag.space with
      | nil => exact ⟨d, rfl, .inr rfl⟩
      | cons e s =>
        rw [hspace] at hwhite
        exact ⟨e, rfl, .inl (hwhite e List.mem_cons_self)⟩
    | cons a as =>
      obtain ⟨e, b, hb⟩ := List.exists_cons_of_ne_nil a.separated
      refine ⟨e, ?_, .inl (a.white.1 e (hb ▸ List.mem_cons_self))⟩
      rw [List.flatMap_cons, Attribute.text, Attribute.front, hb]
      rfl
  obtain ⟨e, he, hkind⟩ := hhead
  obtain ⟨t, ht⟩ := List.head?_eq_some_iff.1 he
  exact ⟨e, t, ht, hkind⟩

theorem CharRef.digitValue_lt (r : CharRef) {c : UInt8} (hc : c ∈ r.digits) :
    digitValue c < 16 := by
  have h := r.inBase c hc
  split at h <;> omega

theorem digit_not_markup : ∀ c : UInt8, digitValue c < 16 → c ≠ 0x3c ∧ c ≠ 0x3b ∧ c ≠ 0 := by
  refine forall_byte ?_
  decide +kernel

theorem CharRef.notMem_body (r : CharRef) (hc : c = 0x3c ∨ c = 0x3b) : c ∉ r.body := by
  have hdigits : c ∉ r.digits := by
    intro h
    obtain ⟨hlt, hsemi, -⟩ := digit_not_markup c (r.digitValue_lt h)
    exact hc.elim hlt hsemi
  have hmark : c ≠ 0x23 ∧ c ≠ 0x78 := by
    rcases hc with rfl | rfl
    · decide
    · decide
  rw [body]
  split
  · simp [hmark.1, hmark.2, hdigits]
  · simp [hmark.1, hdigits]

end

namespace Piece

theorem text_ne_nil (p : Piece) : p.text ≠ [] := by
  cases p with
  | byte c plain => exact List.cons_ne_nil _ _
  | entity e known => exact List.cons_ne_nil _ _
  | char r => exact List.cons_ne_nil _ _

theorem lt_notMem_text (p : Piece) : 0x3c ∉ p.text := by
  cases p with
  | byte c plain => simp [text, Ne.symm plain.1]
  | entity e known =>
    have hname : ∀ e ∈ entities, (0x3c : UInt8) ∉ e.1 := List.all_iff_forall_prop.1 (by decide)
    simp [text, hname e known]
  | char r => simp [text, r.notMem_body (.inl rfl)]

end Piece

end BambooNet.XmlSyntax
