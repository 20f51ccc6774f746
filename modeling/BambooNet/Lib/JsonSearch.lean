import BambooNet.Lib.JsonSyntax
import Mathlib.Data.List.Infix

/-!
# Searching a JSON text for a name

Programs that do not parse a text look for `"name"` in it. In a JSON text the second quote of an
occurrence ends a string literal, because a quote inside of a literal has a backslash before it. So
the occurrences are the ends of the literals that end so (`Label.eq_of_occurs`): the literal is the
name, or it ends with an escaped quote and the name.

`NameScan` collects what is then needed of a search: what it does where the name does not stand,
and after an occurrence that is no key.
-/

namespace BambooNet.JsonSyntax

/-- A name of lower case letters. -/
structure Name where
  bytes : Bytes
  letters : ∀ c ∈ bytes, 0x61 ≤ c ∧ c ≤ 0x7a
  nonempty : bytes ≠ []

/-- The name between quotes. -/
def Name.quoted (n : Name) : Bytes := 0x22 :: (n.bytes ++ [0x22])

theorem Name.ne {n : Name} {c d : UInt8} (h : c ∈ n.bytes) (hd : ¬ (0x61 ≤ d ∧ d ≤ 0x7a)) :
    c ≠ d := by
  rintro rfl
  exact hd (n.letters c h)

/-- The string literal ends with the quoted name. -/
def Str.EndsWith (s : Str) (n : Name) : Prop := n.quoted <:+ s.text

instance (s : Str) (n : Name) : Decidable (s.EndsWith n) := inferInstanceAs (Decidable (_ <:+ _))

/-! ## Quotes in literals -/

theorem Hex.byte_ne (h : Hex) : h.byte ≠ 0x22 := by
  obtain ⟨digit, upper⟩ := h
  revert digit upper
  decide

theorem Hex4.quote_notMem (u : Hex4) : 0x22 ∉ u.text := by
  simp only [Hex4.text, List.mem_cons, List.not_mem_nil, or_false, not_or]
  exact ⟨by decide, by decide, u.a.byte_ne.symm, u.b.byte_ne.symm, u.c.byte_ne.symm,
    u.d.byte_ne.symm⟩

/-- A quote in a character has a backslash before it. -/
theorem StrChar.quote_split {ch : StrChar} {a b : Bytes} (h : ch.text = a ++ 0x22 :: b) :
    a = [0x5c] := by
  have hmem : 0x22 ∈ ch.text := h ▸ List.mem_append_right a List.mem_cons_self
  cases ch with
  | raw c plain =>
    rw [StrChar.text, List.mem_singleton] at hmem
    exact absurd hmem.symm plain.2.1
  | short e known =>
    cases a with
    | nil => exact absurd (List.cons.inj h).1 (by decide)
    | cons c a =>
      obtain ⟨rfl, hrest⟩ := List.cons.inj h
      cases a with
      | nil => rfl
      | cons d a => simp at hrest
  | unicode u _ => exact absurd hmem u.quote_notMem
  | pair hi lo _ _ =>
    exact ((List.mem_append.1 hmem).elim hi.quote_notMem lo.quote_notMem).elim
  | lone u _ => exact absurd hmem u.quote_notMem

/-- A quote between the quotes of a literal has a backslash before it. -/
theorem StrChar.quote_texts {cs : List StrChar} {a b : Bytes}
    (h : StrChar.texts cs = a ++ 0x22 :: b) : ∃ a', a = a' ++ [0x5c] := by
  induction cs generalizing a with
  | nil => simp [StrChar.texts] at h
  | cons ch cs ih =>
    have hcons : StrChar.texts (ch :: cs) = ch.text ++ StrChar.texts cs := rfl
    rw [hcons, List.append_eq_append_iff] at h
    rcases h with ⟨a', ha, hrest⟩ | ⟨c', hch, hrest⟩
    · obtain ⟨a'', rfl⟩ := ih hrest
      exact ⟨ch.text ++ a'', by rw [ha, List.append_assoc]⟩
    · cases c' with
      | nil =>
        obtain ⟨a'', ha''⟩ := @ih [] hrest.symm
        simp at ha''
      | cons c c' =>
        obtain ⟨rfl, -⟩ := List.cons.inj hrest
        exact ⟨[], StrChar.quote_split hch⟩

/-- A text without quotes and backslashes, as it stands between quotes. -/
structure Label where
  bytes : Bytes
  nonempty : bytes ≠ []
  noQuote : 0x22 ∉ bytes
  noBackslash : 0x5c ∉ bytes

/-- The label between quotes. -/
def Label.quoted (n : Label) : Bytes := 0x22 :: (n.bytes ++ [0x22])

/-- **Where a label occurs**: an occurrence that begins in a literal is the end of the literal. -/
theorem Label.eq_of_occurs {n : Label} {s : Str} {a b q : Bytes} {c : UInt8}
    (hs : s.text = a ++ c :: b) (hq : ∀ d ∈ q.head?, d ∉ n.bytes)
    (h : n.quoted <+: c :: (b ++ q)) : c :: b = n.quoted := by
  obtain ⟨t, htext⟩ := h
  obtain ⟨rfl, ht⟩ := List.cons.inj htext
  rw [List.append_eq, List.append_assoc, List.singleton_append] at ht
  rcases List.eq_nil_or_concat b with rfl | ⟨b, d, rfl⟩
  · -- The closing quote: the label would have to come after the literal.
    obtain ⟨l, ls, hn⟩ := List.exists_cons_of_ne_nil n.nonempty
    rw [hn, List.nil_append, List.cons_append] at ht
    exact absurd (hn ▸ List.mem_cons_self) (hq l (by rw [← ht]; rfl))
  have hlast : d = 0x22 := by
    have h := congrArg List.getLast? hs
    rw [Str.text, List.concat_eq_append, ← List.cons_append, List.getLast?_concat,
      ← List.cons_append, ← List.append_assoc, List.getLast?_concat] at h
    exact (Option.some.inj h).symm
  subst hlast
  rw [List.concat_eq_append, List.append_assoc, List.singleton_append,
    List.append_eq_append_iff] at ht
  rw [Label.quoted, List.concat_eq_append]
  rcases ht with ⟨r, rfl, hr⟩ | ⟨r, hn, hr⟩
  · cases r with
    | nil => rw [List.append_nil]
    | cons d r =>
      -- A quote between the quotes comes after a character of the label.
      obtain ⟨rfl, -⟩ := List.cons.inj hr
      exfalso
      have hinside : ∃ a', StrChar.texts s.chars = (a' ++ n.bytes) ++ 0x22 :: r := by
        rw [Str.text] at hs
        cases a with
        | nil =>
          obtain ⟨-, hs⟩ := List.cons.inj hs
          refine ⟨[], (List.append_left_inj [0x22]).1 ?_⟩
          simpa using hs
        | cons e a =>
          obtain ⟨-, hs⟩ := List.cons.inj hs
          refine ⟨a ++ [0x22], (List.append_left_inj [0x22]).1 ?_⟩
          simpa using hs
      obtain ⟨a', ha'⟩ := hinside
      obtain ⟨a'', ha''⟩ := StrChar.quote_texts ha'
      have hlast := congrArg List.getLast? ha''
      rw [List.getLast?_concat, List.getLast?_append_of_ne_nil _ n.nonempty] at hlast
      exact n.noBackslash (List.mem_of_getLast? hlast)
  · cases r with
    | nil => rw [hn, List.append_nil]
    | cons d r =>
      obtain ⟨rfl, -⟩ := List.cons.inj hr
      exact absurd (hn ▸ List.mem_append_right b List.mem_cons_self) n.noQuote

/-- A name is a label. -/
def Name.label (n : Name) : Label where
  bytes := n.bytes
  nonempty := n.nonempty
  noQuote h := n.ne h (by decide) rfl
  noBackslash h := n.ne h (by decide) rfl

theorem quoted_prefix {n : Name} {s : Str} {a b q : Bytes} {c : UInt8} (hs : s.text = a ++ c :: b)
    (hq : ∀ d ∈ q.head?, ¬ (0x61 ≤ d ∧ d ≤ 0x7a)) (h : n.quoted <+: c :: (b ++ q)) :
    c :: b = n.quoted :=
  n.label.eq_of_occurs hs (fun d hd hmem => hq d hd (n.letters d hmem)) h

/-! ## Literals without escapes -/

/-- A character that stands for itself. -/
def IsPlain (c : UInt8) : Prop := 0x20 ≤ c ∧ c ≠ 0x22 ∧ c ≠ 0x5c

instance (c : UInt8) : Decidable (IsPlain c) := inferInstanceAs (Decidable (_ ∧ _))

/-- A literal without escapes. -/
def Str.Verbatim (s : Str) : Prop := 0x5c ∉ s.text

theorem StrChar.verbatim {ch : StrChar} (h : 0x5c ∉ ch.text) :
    ch.text = ch.decoded ∧ 0x22 ∉ ch.decoded := by
  cases ch with
  | raw c plain => exact ⟨rfl, fun hmem => plain.2.1 (List.mem_singleton.1 hmem).symm⟩
  | short e _ => exact absurd List.mem_cons_self h
  | unicode u _ => exact absurd List.mem_cons_self h
  | pair hi lo _ _ => exact absurd (List.mem_append_left _ List.mem_cons_self) h
  | lone u _ => exact absurd List.mem_cons_self h

theorem StrChar.verbatim_texts {cs : List StrChar} (h : 0x5c ∉ StrChar.texts cs) :
    StrChar.texts cs = cs.flatMap StrChar.decoded ∧ 0x22 ∉ cs.flatMap StrChar.decoded := by
  induction cs with
  | nil => exact ⟨rfl, List.not_mem_nil⟩
  | cons ch cs ih =>
    have hcons : StrChar.texts (ch :: cs) = ch.text ++ StrChar.texts cs := rfl
    rw [hcons, List.mem_append, not_or] at h
    obtain ⟨hch, hquote⟩ := StrChar.verbatim h.1
    obtain ⟨hcs, hquotes⟩ := ih h.2
    rw [hcons, List.flatMap_cons, hch, hcs]
    exact ⟨rfl, fun hmem => (List.mem_append.1 hmem).elim hquote hquotes⟩

namespace Str

variable {s : Str}

theorem Verbatim.chars (h : s.Verbatim) : 0x5c ∉ StrChar.texts s.chars := fun hmem =>
  h (List.mem_cons_of_mem _ (List.mem_append_left _ hmem))

theorem Verbatim.text_eq (h : s.Verbatim) : s.text = 0x22 :: (s.decoded ++ [0x22]) := by
  rw [Str.text, (StrChar.verbatim_texts h.chars).1, Str.decoded]

theorem Verbatim.quote_notMem (h : s.Verbatim) : 0x22 ∉ s.decoded :=
  (StrChar.verbatim_texts h.chars).2

/-- A literal of plain characters. -/
def verbatim (b : Bytes) (h : ∀ c ∈ b, IsPlain c) : Str where
  chars := b.attach.map fun c : {c // c ∈ b} => .raw c.1 (h c.1 c.2)
  apart := (List.pairwise_map.2 (List.pairwise_of_forall fun _ _ => trivial)).isChain

theorem texts_verbatim (b : Bytes) (h : ∀ c ∈ b, IsPlain c) :
    StrChar.texts (verbatim b h).chars = b := by
  rw [verbatim, StrChar.texts, List.flatMap_map]
  show b.attach.flatMap (fun c => [c.1]) = b
  rw [← List.map_eq_flatMap, List.attach_map_subtype_val]

@[simp] theorem text_verbatim (b : Bytes) (h : ∀ c ∈ b, IsPlain c) :
    (verbatim b h).text = 0x22 :: (b ++ [0x22]) := by
  rw [Str.text, texts_verbatim]

theorem verbatim_verbatim (b : Bytes) (h : ∀ c ∈ b, IsPlain c) : (verbatim b h).Verbatim := by
  rw [Verbatim, text_verbatim]
  intro hmem
  rcases List.mem_append.1 ((List.mem_cons.1 hmem).resolve_left (by decide)) with hmem | hmem
  · exact (h _ hmem).2.2 rfl
  · exact absurd (List.mem_singleton.1 hmem) (by decide)

@[simp] theorem decoded_verbatim (b : Bytes) (h : ∀ c ∈ b, IsPlain c) :
    (verbatim b h).decoded = b := by
  have heq := (StrChar.verbatim_texts (verbatim_verbatim b h).chars).1
  rw [texts_verbatim] at heq
  exact heq.symm

end Str

/-! ## Searches -/

/-- What may follow a value. -/
def Follows (q : Bytes) : Prop :=
  ∃ (ws : Ws) (r : Bytes), q = ws.bytes ++ r ∧ ∀ c ∈ r.head?, c = 0x2c ∨ c = 0x5d ∨ c = 0x7d

/-- Whitespace and then no letter. -/
theorem Ws.head_append (ws : Ws) {q : Bytes} (h : ∀ d ∈ q.head?, ¬ (0x61 ≤ d ∧ d ≤ 0x7a)) :
    ∀ d ∈ (ws.bytes ++ q).head?, ¬ (0x61 ≤ d ∧ d ≤ 0x7a) := by
  intro d hd
  cases hws : ws.bytes with
  | nil =>
    rw [hws] at hd
    exact h d hd
  | cons c t =>
    have hwhite : ∀ c ∈ whitespace, ¬ (0x61 ≤ c ∧ c ≤ 0x7a) :=
      List.all_iff_forall_prop.1 (by decide)
    rw [hws] at hd
    obtain rfl := Option.some.inj hd
    exact hwhite c (ws.white c (hws ▸ List.mem_cons_self))

theorem Follows.head {q : Bytes} (h : Follows q) : ∀ d ∈ q.head?, ¬ (0x61 ≤ d ∧ d ≤ 0x7a) := by
  obtain ⟨ws, r, rfl, hr⟩ := h
  refine ws.head_append fun d hd => ?_
  rcases hr d hd with rfl | rfl | rfl <;> decide

/-- Whitespace is no colon. -/
theorem Ws.head_ne_colon {ws : Ws} {q : Bytes} (h : ws.bytes = [] → q.head? ≠ some 0x3a) :
    (ws.bytes ++ q).head? ≠ some 0x3a := by
  intro hcolon
  cases hws : ws.bytes with
  | nil =>
    rw [hws] at hcolon
    exact h hws hcolon
  | cons c t =>
    rw [hws] at hcolon
    obtain rfl := Option.some.inj hcolon
    exact absurd (ws.white 0x3a (hws ▸ List.mem_cons_self)) (by decide)

theorem Follows.head_ne_colon {q : Bytes} (h : Follows q) : q.head? ≠ some 0x3a := by
  obtain ⟨ws, r, rfl, hr⟩ := h
  exact Ws.head_ne_colon fun _ hcolon => absurd (hr 0x3a hcolon) (by decide)

theorem Text.follows_after (t : Text) : Follows t.after.bytes :=
  ⟨t.after, [], (List.append_nil _).symm, fun _ hc => absurd hc (by simp)⟩

/-- A search for a name. Where the name does not stand it goes on with the next character, and so it
does after an occurrence that is no key. -/
structure NameScan (n : Name) (β : Type) where
  scan : Bytes → β
  /-- What passing over a character does to the outcome. -/
  push : UInt8 → β → β
  step : ∀ c p, ¬ n.quoted <+: c :: p → scan (c :: p) = push c (scan p)
  skip : ∀ q, Follows q → scan (n.quoted ++ q) = n.quoted.foldr push (scan q)

namespace NameScan

variable {n : Name} {β : Type} (S : NameScan n β)

/-- The search passes over a text in which the name does not begin. -/
theorem scan_append {t q : Bytes} (h : ∀ a c b, t = a ++ c :: b → ¬ n.quoted <+: c :: (b ++ q)) :
    S.scan (t ++ q) = t.foldr S.push (S.scan q) := by
  induction t with
  | nil => rfl
  | cons c t ih =>
    rw [List.cons_append, S.step c (t ++ q) (h [] c t rfl), List.foldr_cons]
    rw [ih fun a d b ht => h (c :: a) d b (by rw [ht, List.cons_append])]

theorem scan_noQuote {t : Bytes} (ht : 0x22 ∉ t) (q : Bytes) :
    S.scan (t ++ q) = t.foldr S.push (S.scan q) := by
  refine S.scan_append fun a c b h hprefix => ht ?_
  obtain ⟨r, hr⟩ := hprefix
  obtain ⟨rfl, -⟩ := List.cons.inj hr
  exact h ▸ List.mem_append_right a List.mem_cons_self

/-- A literal that does not end with the name. -/
theorem scan_str {s : Str} (hs : ¬ s.EndsWith n) {q : Bytes}
    (hq : ∀ d ∈ q.head?, ¬ (0x61 ≤ d ∧ d ≤ 0x7a)) :
    S.scan (s.text ++ q) = s.text.foldr S.push (S.scan q) := by
  refine S.scan_append fun a c b h hprefix => hs ?_
  exact ⟨a, by rw [← quoted_prefix h hq hprefix, ← h]⟩

/-- The name at the end of a literal is found as such. -/
theorem scan_endsWith {s : Str} {a q : Bytes} (hs : s.text = a ++ n.quoted)
    (hq : ∀ d ∈ q.head?, ¬ (0x61 ≤ d ∧ d ≤ 0x7a)) :
    S.scan (s.text ++ q) = a.foldr S.push (S.scan (n.quoted ++ q)) := by
  rw [hs, List.append_assoc]
  refine S.scan_append fun a' c b h hprefix => ?_
  have hsplit : s.text = a' ++ c :: (b ++ n.quoted) := by
    rw [hs, h, List.append_assoc, List.cons_append]
  have heq := quoted_prefix hsplit hq (by rwa [List.append_assoc])
  have hlength := congrArg List.length heq
  rw [List.length_cons, List.length_append] at hlength
  omega

/-- A literal that is a value. -/
theorem scan_value (s : Str) {q : Bytes} (hq : Follows q) :
    S.scan (s.text ++ q) = s.text.foldr S.push (S.scan q) := by
  by_cases hs : s.EndsWith n
  · obtain ⟨a, ha⟩ := hs
    rw [S.scan_endsWith ha.symm hq.head, S.skip q hq, ← ha, List.foldr_append]
  · exact S.scan_str hs hq.head

end NameScan

/-- A search for a label in quotes with a colon behind it. Where these do not stand it goes on with
the next character. -/
structure LabelScan (n : Label) (β : Type) where
  scan : Bytes → β
  /-- What passing over a character does to the outcome. -/
  push : UInt8 → β → β
  step : ∀ c p, ¬ n.quoted ++ [0x3a] <+: c :: p → scan (c :: p) = push c (scan p)

namespace LabelScan

variable {n : Label} {β : Type} (S : LabelScan n β)

theorem scan_append {t q : Bytes}
    (h : ∀ a c b, t = a ++ c :: b → ¬ n.quoted ++ [0x3a] <+: c :: (b ++ q)) :
    S.scan (t ++ q) = t.foldr S.push (S.scan q) := by
  induction t with
  | nil => rfl
  | cons c t ih =>
    rw [List.cons_append, S.step c (t ++ q) (h [] c t rfl), List.foldr_cons]
    rw [ih fun a d b ht => h (c :: a) d b (by rw [ht, List.cons_append])]

theorem scan_noQuote {t : Bytes} (ht : 0x22 ∉ t) (q : Bytes) :
    S.scan (t ++ q) = t.foldr S.push (S.scan q) := by
  refine S.scan_append fun a c b h hprefix => ht ?_
  obtain ⟨r, hr⟩ := hprefix
  obtain ⟨rfl, -⟩ := List.cons.inj hr
  exact h ▸ List.mem_append_right a List.mem_cons_self

/-- A literal that does not end with the label in quotes, or has no colon behind it. -/
theorem scan_str {s : Str} {q : Bytes} (hq : ∀ d ∈ q.head?, d ∉ n.bytes)
    (h : n.quoted <:+ s.text → q.head? ≠ some 0x3a) :
    S.scan (s.text ++ q) = s.text.foldr S.push (S.scan q) := by
  refine S.scan_append fun a c b hs hprefix => ?_
  have hend : c :: b = n.quoted :=
    Label.eq_of_occurs hs hq ((List.prefix_append _ _).trans hprefix)
  rw [← List.cons_append, hend] at hprefix
  obtain ⟨r, hr⟩ := (List.prefix_append_right_inj _).1 hprefix
  refine h ⟨a, by rw [← hend, ← hs]⟩ ?_
  rw [← hr]
  rfl

/-- The label at the end of a literal with a colon behind it is found as such. -/
theorem scan_key {s : Str} {a q : Bytes} (hs : s.text = a ++ n.quoted) (hcolon : 0x3a ∉ n.bytes) :
    S.scan (s.text ++ 0x3a :: q) = a.foldr S.push (S.scan (n.quoted ++ 0x3a :: q)) := by
  rw [hs, List.append_assoc]
  refine S.scan_append fun a' c b h hprefix => ?_
  have hsplit : s.text = a' ++ c :: (b ++ n.quoted) := by
    rw [hs, h, List.append_assoc, List.cons_append]
  have heq := Label.eq_of_occurs (q := 0x3a :: q) hsplit
    (fun d hd => Option.some.inj hd ▸ hcolon) (by
      rw [List.append_assoc]
      exact (List.prefix_append _ _).trans hprefix)
  have hlength := congrArg List.length heq
  rw [List.length_cons, List.length_append] at hlength
  omega

end LabelScan

end BambooNet.JsonSyntax
