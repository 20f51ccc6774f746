import BambooNet.Agent.CoverCache
import BambooNet.Lib.JsonPatch

/-!
# Fields of a report that are changed in place

The agent changes a report without parsing it: it looks for `"key":`, passes over the spaces behind
it and rewrites the value it finds there (`rewriteValue`). In a report without escapes in its keys
and with nothing but spaces around its colons, the first occurrence is the first member with the
key: the key cannot be the end of a longer one, and what looks like it inside of a string has a
backslash before its last quote (`FieldName.findFirst_text`). So a rewriting of the text that is one
of the value changes the tree of the report (`rewriteValue_patch`).
-/

namespace BambooNet.Agent

open Json JsonSyntax

/-- Rewrite what stands behind the first `"key":`, from the value on. -/
def rewriteValue (key : Bytes) (rewrite : Bytes → Option Bytes) (payload : Bytes) : Option Bytes :=
  (findFirst (fieldNeedle key) payload).bind fun r =>
    (rewrite (dropSpaces r.2)).map fun p =>
      r.1 ++ fieldNeedle key ++ r.2.takeWhile (· = 0x20) ++ p

/-- How the members of a report are written: a key without escapes, the colon, spaces. -/
structure Spaced (key : Str) (after lead : Ws) (_ : Node) : Prop where
  key : key.Verbatim
  after : after.bytes = []
  lead : ∀ c ∈ lead.bytes, c = 0x20

def isWord (c : UInt8) : Bool := isDigit c || (0x61 ≤ c && c ≤ 0x7a) || c == 0x5f

theorem isDigit_of_isWord {c : UInt8} (h : isWord c = false) : isDigit c = false := by
  rw [isWord, Bool.or_assoc] at h
  exact (Bool.or_eq_false_iff.1 h).1

/-- The name of a field: lower case letters, digits and underscores. -/
structure FieldName where
  bytes : Bytes
  nonempty : bytes ≠ []
  word : ∀ c ∈ bytes, isWord c = true

/-! ## What may follow a value -/

theorem head_not_word {q : Bytes} (h : Follows q) : ∀ d ∈ q.head?, isWord d = false := by
  obtain ⟨ws, r, rfl, hr⟩ := h
  intro d hd
  cases hws : ws.bytes with
  | nil =>
    rw [hws] at hd
    rcases hr d hd with rfl | rfl | rfl <;> rfl
  | cons c t =>
    have hwhite : ∀ c ∈ whitespace, isWord c = false := List.all_iff_forall_prop.1 (by decide)
    rw [hws] at hd
    obtain rfl := Option.some.inj hd
    exact hwhite c (ws.white c (hws ▸ List.mem_cons_self))

namespace FieldName

variable (k : FieldName)

def label : Label where
  bytes := k.bytes
  nonempty := k.nonempty
  noQuote h := absurd (k.word _ h) (by decide)
  noBackslash h := absurd (k.word _ h) (by decide)

theorem fieldNeedle_eq : fieldNeedle k.bytes = k.label.quoted ++ [colon] := by
  rw [fieldNeedle, Label.quoted, List.cons_append, List.append_assoc]
  rfl

/-! ## The search -/

/-- The text behind the first `"key":`. -/
def scan (p : Bytes) : Option Bytes := (findFirst (fieldNeedle k.bytes) p).map (·.2)

/-- The search that forgets what it passes. -/
def labelScan : LabelScan k.label (Option Bytes) where
  scan := k.scan
  push _ r := r
  step c q h := by
    rw [scan, findFirst, if_neg (k.fieldNeedle_eq ▸ h), Option.map_map]
    rfl

theorem scan_plain {t : Bytes} (ht : 0x22 ∉ t) (q : Bytes) : k.scan (t ++ q) = k.scan q :=
  (k.labelScan.scan_noQuote ht q).trans (foldr_same _ _)

theorem scan_char {c : UInt8} {q : Bytes} (hc : c ≠ quote) : k.scan (c :: q) = k.scan q :=
  k.scan_plain (List.not_mem_cons_of_ne_of_not_mem (Ne.symm hc) List.not_mem_nil) q

theorem scan_found (q : Bytes) : k.scan (fieldNeedle k.bytes ++ q) = some q := by
  obtain ⟨t, ht⟩ : ∃ t, fieldNeedle k.bytes = quote :: t := ⟨_, rfl⟩
  rw [scan, ht, List.cons_append, findFirst, ← List.cons_append,
    if_pos (List.prefix_append (quote :: t) q), Option.map_some, List.drop_left]

/-- A literal that does not end with the name in quotes, or has no colon behind it. -/
theorem scan_str {s : Str} {q : Bytes} (hq : ∀ d ∈ q.head?, isWord d = false)
    (h : k.label.quoted <:+ s.text → q.head? ≠ some colon) : k.scan (s.text ++ q) = k.scan q := by
  refine (k.labelScan.scan_str (fun d hd hmem => ?_) h).trans (foldr_same _ _)
  have hword := hq d hd
  rw [k.word d hmem] at hword
  cases hword

/-- The key of another member is not the end of a key without escapes. -/
theorem not_suffix {s : Str} (hs : s.Verbatim) (hne : s.decoded ≠ k.bytes) :
    ¬ k.label.quoted <:+ s.text := by
  rintro ⟨a, ha⟩
  rw [hs.text_eq, Label.quoted] at ha
  cases a with
  | nil => exact hne ((List.append_left_inj _).1 (List.cons.inj ha).2).symm
  | cons c a =>
    obtain ⟨-, htail⟩ := List.cons.inj ha
    have hinside : a ++ 0x22 :: k.label.bytes = s.decoded := by
      refine (List.append_left_inj [0x22]).1 ?_
      rw [← htail, List.append_eq, List.append_assoc, List.cons_append]
    exact hs.quote_notMem (hinside ▸ List.mem_append_right a List.mem_cons_self)

/-- The search, with the members that it picks. -/
def search : MemberScan where
  domain := Spaced
  picks := named k.bytes
  scan := k.scan
  result lead p := lead.bytes ++ p
  char c q hc := k.scan_char hc
  value s q hq := k.scan_str (head_not_word hq) fun _ => hq.head_ne_colon
  key key after lead v q hkey hq := by
    have hcolon : ∀ d ∈ (colon :: (lead.bytes ++ (v.text ++ q))).head?, isWord d = false :=
      fun d hd => Option.some.inj hd ▸ rfl
    rw [hkey.after, List.nil_append, named]
    by_cases hname : key.decoded = k.bytes
    · have htext : key.text ++ colon :: (lead.bytes ++ (v.text ++ q)) =
          fieldNeedle k.bytes ++ (lead.bytes ++ (v.text ++ q)) := by
        rw [hkey.key.text_eq, hname, fieldNeedle]
        simp
      rw [if_pos (beq_iff_eq.2 hname), htext, scan_found]
    · rw [if_neg (mt beq_iff_eq.1 hname),
        k.scan_str hcolon fun h => absurd h (k.not_suffix hkey.key hname),
        k.scan_char (by decide)]
      exact k.scan_plain lead.quote_notMem _

/-- **The search finds the first member with the name**, with the text from its colon on. -/
theorem scan_text {t : Text} (ht : t.node.AllMembers Spaced) :
    k.scan t.bytes = (t.node.first (named k.bytes)).map fun f =>
      f.lead.bytes ++ (f.value.text ++ (f.rest ++ t.after.bytes)) :=
  k.search.scan_text ht rfl

end FieldName

/-! ## Rewriting the value -/

/-- No value begins with a space, and only a string with a quote. -/
theorem text_begins (v : Node) :
    ∃ c q, v.text = c :: q ∧ c ≠ 0x20 ∧ (v.str? = none → c ≠ quote) := by
  have hdigit {c : UInt8} (h : isDigit c = true) : c ≠ 0x20 ∧ c ≠ quote := by
    constructor <;> rintro rfl <;> exact absurd h (by decide)
  cases v with
  | number n =>
    obtain ⟨c, t, ht⟩ := List.exists_cons_of_ne_nil n.int.nonempty
    obtain ⟨hspace, hquote⟩ := hdigit (n.int.digits c (ht ▸ List.mem_cons_self))
    cases hneg : n.neg with
    | true =>
      refine ⟨minus, n.int.bytes ++ (n.fracText ++ n.expText), ?_, by decide, fun _ => by decide⟩
      rw [Node.text, Numeral.text, hneg]
      rfl
    | false =>
      refine ⟨c, t ++ (n.fracText ++ n.expText), ?_, hspace, fun _ => hquote⟩
      rw [Node.text, Numeral.text, hneg, ht]
      rfl
  | string s => exact ⟨quote, _, rfl, by decide, fun h => absurd h (by simp [Node.str?])⟩
  | bool b => cases b <;> exact ⟨_, _, rfl, by decide, fun _ => by decide⟩
  | null | emptyArray | array | emptyObject | object =>
    exact ⟨_, _, rfl, by decide, fun _ => by decide⟩

theorem dropSpaces_lead {lead : Bytes} (hlead : ∀ c ∈ lead, c = 0x20) (v : Node) (q : Bytes) :
    dropSpaces (lead ++ (v.text ++ q)) = v.text ++ q ∧
      (lead ++ (v.text ++ q)).takeWhile (· = 0x20) = lead := by
  obtain ⟨c, t, ht, hc, -⟩ := text_begins v
  have hall : ∀ c ∈ lead, decide (c = 0x20) = true := fun c h => decide_eq_true (hlead c h)
  rw [ht, List.cons_append]
  constructor
  · rw [dropSpaces, List.dropWhile_append_of_pos hall,
      List.dropWhile_cons_of_neg (by simpa using hc)]
  · rw [List.takeWhile_append_of_pos hall, List.takeWhile_cons_of_neg (by simpa using hc),
      List.append_nil]

/-- A rewriting of the text is one of the value. -/
def Rewrites (rewrite : Bytes → Option Bytes) (change : Node → Option Node) (v : Node) : Prop :=
  ∀ q, Follows q → rewrite (v.text ++ q) = (change v).map fun w => w.text ++ q

/-- **A value rewritten in the text is a value changed in the tree.** -/
theorem rewriteValue_patch (k : FieldName) {t : Text} (ht : t.node.AllMembers Spaced)
    {rewrite : Bytes → Option Bytes} {change : Node → Option Node}
    (h : ∀ v ∈ t.node.find k.bytes, Rewrites rewrite change v) :
    rewriteValue k.bytes rewrite t.bytes =
      ((t.node.find k.bytes).bind change).map fun _ => (t.patch k.bytes change).bytes := by
  have hscan := k.scan_text ht
  rw [← Node.map_first] at h ⊢
  rw [FieldName.scan] at hscan
  cases hf : t.node.first (named k.bytes) with
  | none =>
    rw [hf] at hscan
    rw [rewriteValue, Option.map_eq_none_iff.1 hscan]
    rfl
  | some f =>
    obtain ⟨key, after, hkey, -⟩ := Node.first_domain ht hf
    have hrest : Follows (f.rest ++ t.after.bytes) := Node.follows_first hf _
    obtain ⟨hdrop, htake⟩ := dropSpaces_lead hkey.lead f.value (f.rest ++ t.after.bytes)
    have hvalue := h f.value (by rw [hf]; rfl) _ hrest
    rw [hf] at hscan
    obtain ⟨⟨a, b⟩, hfind, rfl⟩ := Option.map_eq_some_iff.1 hscan
    -- what stands before the value, in the text and in the tree
    have hbefore : a ++ fieldNeedle k.bytes ++ f.lead.bytes = t.before.bytes ++ f.before := by
      have heq := eq_of_findFirst hfind
      rw [t.bytes_found f, ← List.append_assoc _ f.lead.bytes] at heq
      exact ((List.append_left_inj _).1 heq).symm
    rw [rewriteValue, hfind, Option.bind_some]
    simp only [hdrop, htake, hvalue, hbefore, Option.map_some, Option.bind_some, Option.map_map]
    cases hchange : change f.value with
    | none => rfl
    | some w =>
      have hpatch : t.patch k.bytes change = t.set f w := by
        simp only [Text.patch, hf, hchange]
      rw [hpatch, t.bytes_set f w]
      rfl

/-- A rewriting that settles the value has nothing to rewrite afterwards. -/
structure Settles (rewrite : Bytes → Option Bytes) (change : Node → Option Node) (w : Node) :
    Prop where
  rewrites : Rewrites rewrite change w
  settled : change w = none
  noMembers : w.AllMembers Spaced

theorem Spaced.other (key : Str) (after lead : Ws) (v w : Node) (h : Spaced key after lead v) :
    Spaced key after lead w :=
  ⟨h.key, h.after, h.lead⟩

/-- **One patch of a report**: the text is rewritten as the tree is, once and for all. -/
theorem rewriteValue_settles (k : FieldName) {t : Text} (ht : t.node.AllMembers Spaced)
    {rewrite : Bytes → Option Bytes} {change : Node → Option Node}
    (h : ∀ v ∈ t.node.find k.bytes, Rewrites rewrite change v)
    (hnew : ∀ v w, change v = some w → Settles rewrite change w) :
    (rewriteValue k.bytes rewrite t.bytes).getD t.bytes = (t.patch k.bytes change).bytes ∧
      rewriteValue k.bytes rewrite (t.patch k.bytes change).bytes = none := by
  have hsettled := Text.settled_patch (k := k.bytes) (fun v w hw => (hnew v w hw).settled) t
  rw [Text.Settled] at hsettled
  have hspaced := Text.allMembers_patch (k := k.bytes) Spaced.other
    (fun v w hw => (hnew v w hw).noMembers) ht
  constructor
  · rw [rewriteValue_patch k ht h]
    cases hchange : (t.node.find k.bytes).bind change with
    | none => rw [Text.patch_of_settled hchange, Option.map_none, Option.getD_none]
    | some w => rw [Option.map_some, Option.getD_some]
  · rw [rewriteValue_patch k hspaced, hsettled, Option.map_none]
    intro v hv
    rcases t.patch_cases k.bytes change with ⟨heq, -⟩ | ⟨f, w, hf, hw, heq⟩
    · exact h v (heq ▸ hv)
    · rw [heq, Text.set, Node.find_plug hf] at hv
      exact Option.some.inj hv ▸ (hnew _ _ hw).rewrites

end BambooNet.Agent
