import BambooNet.Json.Complete
import BambooNet.Json.Dump

/-!
# Printing and parsing back

What `dump` prints is the text of a tree without whitespace (`exists_node`), so that the parser
reads it back (`parse_dump`). A value nested too deep is printed all the same and then refused.
-/

namespace BambooNet.Json

open JsonSyntax

/-! ## The tree of a printed value -/

theorem hexLower_eq (d : Fin 16) : Hex.byte ⟨d, false⟩ = hexLower d := by
  revert d
  decide

/-- The character that `escape` writes for a byte. -/
theorem exists_char (c : UInt8) :
    ∃ ch : StrChar, ch.text = escapeByte c ∧ ch.decoded = [c] ∧ ∀ u s, ch ≠ .lone u s := by
  have short (e : UInt8) (h : (e, c) ∈ escapes) (htext : escapeByte c = [backslash, e]) :
      ∃ ch : StrChar, ch.text = escapeByte c ∧ ch.decoded = [c] ∧ ∀ u s, ch ≠ .lone u s :=
    ⟨.short (e, c) h, htext.symm, rfl, by simp⟩
  by_cases h1 : c = quote
  · exact short 0x22 (by rw [h1]; decide) (by rw [h1]; rfl)
  by_cases h2 : c = backslash
  · exact short 0x5c (by rw [h2]; decide) (by rw [h2]; rfl)
  by_cases h3 : c = 0x08
  · exact short 0x62 (by rw [h3]; decide) (by rw [h3]; rfl)
  by_cases h4 : c = 0x0c
  · exact short 0x66 (by rw [h4]; decide) (by rw [h4]; rfl)
  by_cases h5 : c = 0x0a
  · exact short 0x6e (by rw [h5]; decide) (by rw [h5]; rfl)
  by_cases h6 : c = 0x0d
  · exact short 0x72 (by rw [h6]; decide) (by rw [h6]; rfl)
  by_cases h7 : c = 0x09
  · exact short 0x74 (by rw [h7]; decide) (by rw [h7]; rfl)
  rw [escapeByte, if_neg h1, if_neg h2, if_neg h3, if_neg h4, if_neg h5, if_neg h6, if_neg h7]
  by_cases h8 : c < 0x20
  · have hlt : c.toNat < 32 := h8
    let u : Hex4 := ⟨⟨0, false⟩, ⟨0, false⟩, ⟨⟨c.toNat / 16, by omega⟩, false⟩,
      ⟨⟨c.toNat % 16, by omega⟩, false⟩⟩
    have hvalue : u.value = c.toNat := by
      show ((0 * 16 + 0) * 16 + c.toNat / 16) * 16 + c.toNat % 16 = c.toNat
      omega
    have hscalar : ¬ u.IsHigh ∧ ¬ u.IsLow := by
      rw [Hex4.IsHigh, Hex4.IsLow]
      omega
    refine ⟨.unicode u hscalar, ?_, ?_, by simp⟩
    · rw [if_pos h8, ← hexLower_eq ⟨c.toNat / 16, by omega⟩, ← hexLower_eq ⟨c.toNat % 16, by omega⟩]
      rfl
    · have hvalid : c.toNat.isValidChar := .inl (by omega)
      rw [StrChar.decoded, hvalue, ← utf8_eq hvalid, utf8, if_pos (by omega), UInt8.ofNat_toNat]
  · rw [if_neg h8]
    exact ⟨.raw c ⟨UInt8.not_lt.1 h8, h1, h2⟩, rfl, rfl, by simp⟩

theorem exists_str (s : Bytes) : ∃ str : Str, str.text = escape s ∧ str.decoded = s := by
  choose char htext hdecoded hlone using exists_char
  have happart (a b : UInt8) : (char a).Apart (char b) := by
    cases h : char a with
    | lone u s => exact absurd h (hlone a u s)
    | raw | short | unicode | pair => trivial
  refine ⟨⟨s.map char, (List.pairwise_map.2 (List.pairwise_of_forall happart)).isChain⟩, ?_, ?_⟩
  · simp [Str.text, StrChar.texts, escape, List.flatMap_map, htext]
  · simp [Str.decoded, List.flatMap_map, hdecoded]

/-- A tree of a printed value. -/
structure Prints (v : Value) (node : Node) : Prop where
  text : node.text = v.dump
  value : node.value intOf = v
  depth : node.depth = v.depth
  numbers : node.Numbers SmallInt

theorem exists_elements {vs : List Value} (hne : vs ≠ []) (h : ∀ v ∈ vs, ∃ node, Prints v node) :
    ∃ es : Elements, es.text = dumpElements vs ∧ es.values intOf = vs ∧
      es.depth = Value.depthElements vs ∧ es.Numbers SmallInt := by
  induction vs with
  | nil => exact absurd rfl hne
  | cons v vs ih =>
    obtain ⟨node, hnode⟩ := h v List.mem_cons_self
    cases vs with
    | nil =>
      refine ⟨.last .none node .none, ?_, ?_, ?_, hnode.numbers⟩
      · simp [Elements.text, Ws.none, dumpElements, hnode.text]
      · simp [Elements.values, hnode.value]
      · simp [Elements.depth, Value.depthElements, hnode.depth]
    | cons w ws =>
      obtain ⟨es, htext, hvalues, hdepth, hnum⟩ :=
        ih (by simp) fun u hu => h u (List.mem_cons_of_mem _ hu)
      refine ⟨.cons .none node .none es, ?_, ?_, ?_, hnode.numbers, hnum⟩
      · simp [Elements.text, Ws.none, dumpElements, hnode.text, htext]
      · rw [Elements.values, hnode.value, hvalues]
      · rw [Elements.depth, Value.depthElements, hnode.depth, hdepth]

/-- The entries may be in any order, and of those with one key the first counts. -/
theorem exists_members {es : Object} (hne : es ≠ []) (h : ∀ e ∈ es, ∃ node, Prints e.2 node) :
    ∃ ms : Members, ms.text = dumpEntries es ∧ ms.entries intOf = Entries.ofList es ∧
      ms.depth = Value.depthEntries es ∧ ms.Numbers SmallInt := by
  induction es with
  | nil => exact absurd rfl hne
  | cons e es ih =>
    obtain ⟨node, hnode⟩ := h e List.mem_cons_self
    obtain ⟨key, hkey, hdecoded⟩ := exists_str e.1
    cases es with
    | nil =>
      refine ⟨.last .none key .none .none node .none, ?_, ?_, ?_, hnode.numbers⟩
      · simp [Members.text, Ws.none, dumpEntries, hnode.text, hkey]
      · rw [Members.entries, hnode.value, hdecoded]
        rfl
      · simp [Members.depth, Value.depthEntries, hnode.depth]
    | cons f fs =>
      obtain ⟨ms, htext, hentries, hdepth, hnum⟩ :=
        ih (by simp) fun u hu => h u (List.mem_cons_of_mem _ hu)
      refine ⟨.cons .none key .none .none node .none ms, ?_, ?_, ?_, hnode.numbers, hnum⟩
      · simp [Members.text, Ws.none, dumpEntries, hnode.text, hkey, htext]
      · rw [Members.entries, hnode.value, hdecoded, hentries]
        rfl
      · rw [Members.depth, Value.depthEntries, hnode.depth, hdepth]

/-- **What is printed is a JSON text of the value.** -/
theorem exists_node {v : Value} (hwf : v.WF) (hint : v.IntNumbers) : ∃ node, Prints v node := by
  induction v with
  | null => exact ⟨.null, rfl, rfl, rfl, trivial⟩
  | bool b => exact ⟨.bool b, rfl, rfl, rfl, trivial⟩
  | number x =>
    cases hint with
    | number h =>
      obtain ⟨n, rfl, hn⟩ := h
      refine ⟨.number (Number.ofInt n), ?_, ?_, rfl, Number.isInt_ofInt n, ?_⟩
      · rw [Node.text, Number.text_ofInt, Value.dump, Double.dump, if_pos (by omega)]
      · rw [Node.value, intOf, Number.intValue_ofInt]
      · have hvalue := Number.intValue_ofInt n
        rw [Numeral.intValue] at hvalue
        split at hvalue <;> omega
  | string s =>
    obtain ⟨str, htext, hdecoded⟩ := exists_str s
    exact ⟨.string str, htext, congrArg Value.string hdecoded, rfl, trivial⟩
  | array vs ih =>
    cases hwf with
    | array _ hwf =>
    cases hint with
    | array _ hint =>
    by_cases hne : vs = []
    · subst hne
      exact ⟨.emptyArray .none, rfl, rfl, rfl, trivial⟩
    · obtain ⟨es, htext, hvalues, hdepth, hnum⟩ :=
        exists_elements hne fun v hv => ih v hv (hwf v hv) (hint v hv)
      refine ⟨.array es, ?_, ?_, ?_, hnum⟩
      · simp [Node.text, Value.dump, htext]
      · rw [Node.value, hvalues]
      · rw [Node.depth, Value.depth, hdepth]
  | object es ih =>
    cases hwf with
    | object hsorted hwf =>
    cases hint with
    | object _ hint =>
    by_cases hne : es = []
    · subst hne
      exact ⟨.emptyObject .none, rfl, rfl, rfl, trivial⟩
    · obtain ⟨ms, htext, hentries, hdepth, hnum⟩ :=
        exists_members hne fun e he => ih e he (hwf e he) (hint e he)
      refine ⟨.object ms, ?_, ?_, ?_, hnum⟩
      · simp [Node.text, Value.dump, htext]
      · rw [Node.value, hentries, Entries.Sorted.ofList_eq hsorted]
      · rw [Node.depth, Value.depth, hdepth]

theorem parse_of_prints {v : Value} {node : Node} (h : Prints v node)
    (hdepth : v.depth ≤ kMaxNestingDepth) : parse v.dump = .ok v := by
  have hparse := parse_total.1 ⟨.none, node, .none⟩ (h.depth.trans_le hdepth) h.numbers
  simpa [Text.bytes, Ws.none, h.text, h.value] using hparse

/-- Entries printed one after the other are a JSON text of an object. -/
theorem exists_text {es : Object} (hne : es ≠ []) (h : ∀ e ∈ es, ∃ node, Prints e.2 node)
    (hdepth : ∀ e ∈ es, e.2.depth < kMaxNestingDepth) :
    ∃ t : Text, t.bytes = (Value.object es).dump ∧
      parse t.bytes = .ok (.object (Entries.ofList es)) := by
  obtain ⟨ms, htext, hentries, hmsdepth, hnum⟩ := exists_members hne h
  have hle : Value.depthEntries es ≤ kMaxNestingDepth - 1 :=
    Value.depthEntries_le_iff.2 fun e he => Nat.le_sub_one_of_lt (hdepth e he)
  refine ⟨⟨.none, .object ms, .none⟩, ?_, ?_⟩
  · simp [Text.bytes, Ws.none, Node.text, Value.dump, htext]
  · have hnode : (Node.object ms).depth ≤ kMaxNestingDepth := by
      rw [Node.depth, hmsdepth]
      exact Nat.add_le_of_le_sub (by decide) hle
    rw [parse_total.1 ⟨.none, .object ms, .none⟩ hnode hnum, Node.value, hentries]

/-! ## Values nested too deep -/

/-- A fraction is left out or a dot and digits. -/
theorem exists_fraction {l : Bytes} (h : ∀ c ∈ l, isDigit c = true) :
    ∃ frac : Option Digits, ∀ neg int exp,
      (Numeral.mk neg int frac exp).fracText = Double.fraction l := by
  by_cases hnil : Double.trimZeros l = []
  · exact ⟨none, fun _ _ _ => (if_pos hnil).symm⟩
  · have hdigits : ∀ c ∈ Double.trimZeros l, isDigit c = true := fun c hc =>
      h c (List.mem_reverse.1 ((List.dropWhile_suffix _).subset (List.mem_reverse.1 hc)))
    exact ⟨some ⟨Double.trimZeros l, hdigits, hnil⟩, fun _ _ _ => (if_neg hnil).symm⟩

/-- A layout of digits is a numeral. -/
theorem exists_layout (neg : Bool) (p : ℤ) {digits : Bytes} (hne : digits ≠ [])
    (h : ∀ c ∈ digits, isDigit c = true) : ∃ n : Numeral, n.text = Double.layout neg p digits := by
  have htake (k : ℕ) (hk : k ≠ 0) : digits.take k ≠ [] := by simp [hne, hk]
  have hdrop (k : ℕ) : ∀ c ∈ digits.drop k, isDigit c = true := fun c hc =>
    h c (List.mem_of_mem_drop hc)
  unfold Double.layout
  by_cases hsci : p < -4 ∨ 17 ≤ p
  · rw [if_pos hsci]
    obtain ⟨frac, hfrac⟩ := exists_fraction (hdrop 1)
    have hexp : ∀ c ∈ (if p.natAbs < 10 then ascii "0" else []) ++ decimal p.natAbs,
        isDigit c = true := by
      intro c hc
      rcases List.mem_append.1 hc with hc | hc
      · split at hc
        · rw [List.mem_singleton.1 hc]
          decide
        · simp at hc
      · exact isDigit_of_mem_decimal c hc
    refine ⟨⟨neg, ⟨digits.take 1, fun c hc => h c (List.mem_of_mem_take hc), htake 1 (by decide)⟩,
      frac, some ⟨false, some (decide (p < 0)), ⟨_, hexp, by simp [decimal_ne_nil]⟩⟩⟩, ?_⟩
    rw [Numeral.text, hfrac]
    by_cases hp : p < 0 <;>
      simp [Numeral.expText, Exponent.text, Exponent.signText, hp, ascii]
  rw [if_neg hsci]
  by_cases hneg : p < 0
  · rw [if_pos hneg]
    obtain ⟨frac, hfrac⟩ := exists_fraction
      (l := List.replicate (-p - 1).toNat 0x30 ++ digits) (by
        intro c hc
        rcases List.mem_append.1 hc with hc | hc
        · rw [List.eq_of_mem_replicate hc]
          decide
        · exact h c hc)
    refine ⟨⟨neg, ⟨ascii "0", List.all_iff_forall_prop.1 (by decide), by decide⟩, frac, none⟩, ?_⟩
    rw [Numeral.text, hfrac]
    simp [Numeral.expText, ascii]
  · rw [if_neg hneg]
    obtain ⟨frac, hfrac⟩ := exists_fraction (hdrop (p + 1).toNat)
    refine ⟨⟨neg, ⟨digits.take (p + 1).toNat, fun c hc => h c (List.mem_of_mem_take hc),
      htake _ (by omega)⟩, frac, none⟩, ?_⟩
    rw [Numeral.text, hfrac]
    simp [Numeral.expText, ascii]

theorem exists_formatGeneral (neg : Bool) (a b : ℕ) :
    ∃ n : Numeral, n.text = Double.formatGeneral neg a b := by
  unfold Double.formatGeneral
  dsimp only
  split <;> split <;> exact exists_layout _ _ (decimal_ne_nil _) isDigit_of_mem_decimal

/-- A finite number is printed as a numeral. -/
theorem exists_numeral (x : Double) :
    (∃ n : Numeral, n.text = x.dump) ∨ (∃ neg, x = .inf neg) ∨ ∃ neg, x = .nan neg := by
  cases x with
  | int n =>
    rw [Double.dump]
    split
    · exact .inl ⟨(Number.ofInt n).toNumeral, Number.text_ofInt n⟩
    · exact .inl (exists_formatGeneral _ _ _)
  | dyadic m e _ => exact .inl (exists_formatGeneral _ _ _)
  | inf neg => exact .inr (.inl ⟨neg, rfl⟩)
  | nan neg => exact .inr (.inr ⟨neg, rfl⟩)

/-- A value read as a whole: what follows its text is left, and its containers are not too deep. -/
def Whole (depth : ℕ) (v : Value) (p : Bytes) (r : Parsed Value) : Prop :=
  ∀ w q, r = .ok (w, q) → q = p ∧ depth + v.depth ≤ kMaxNestingDepth

theorem dump_head (v : Value) : ∃ c t, v.dump = c :: t ∧ Leads c := by
  cases v with
  | null => exact ⟨0x6e, ascii "ull", rfl, by decide⟩
  | bool b =>
    cases b with
    | true => exact ⟨0x74, ascii "rue", rfl, by decide⟩
    | false => exact ⟨0x66, ascii "alse", rfl, by decide⟩
  | number x =>
    rcases exists_numeral x with ⟨n, hn⟩ | ⟨neg, rfl⟩ | ⟨neg, rfl⟩
    · obtain ⟨c, t, htext, hc⟩ := number_head n
      exact ⟨c, t, hn.symm.trans htext, (number_char hc).1⟩
    · cases neg with
      | true => exact ⟨minus, ascii "inf", rfl, by decide⟩
      | false => exact ⟨0x69, ascii "nf", rfl, by decide⟩
    · cases neg with
      | true => exact ⟨minus, ascii "nan", rfl, by decide⟩
      | false => exact ⟨0x6e, ascii "an", rfl, by decide⟩
  | string s => exact ⟨quote, _, rfl, by decide⟩
  | array vs => exact ⟨lbracket, _, rfl, by decide⟩
  | object es => exact ⟨lbrace, _, rfl, by decide⟩

theorem parseString_escape (s p : Bytes) : parseString (escape s ++ p) = .ok (s, p) := by
  obtain ⟨str, htext, hdecoded⟩ := exists_str s
  rw [← htext, parseString_text, hdecoded]

theorem stops_closing {c : UInt8} (hc : c = comma ∨ c = rbracket ∨ c = rbrace) (p : Bytes) :
    Stops (c :: p) := stops_close .none hc p

theorem skipWs_closing {c : UInt8} (hc : c = comma ∨ c = rbracket ∨ c = rbrace) (p : Bytes) :
    skipWs (c :: p) = c :: p := skipWs_close .none hc p

section Containers

variable {value : Bytes → Parsed Value} {depth : ℕ}

theorem elements_whole {vs : List Value} (hne : vs ≠ [])
    (h : ∀ v ∈ vs, ∀ p, Stops p → Whole depth v p (value (v.dump ++ p))) {fuel : ℕ}
    {us acc : List Value} {p q : Bytes}
    (hok : elements value fuel acc (dumpElements vs ++ rbracket :: p) = .ok (us, q)) :
    q = p ∧ ∀ v ∈ vs, depth + v.depth ≤ kMaxNestingDepth := by
  induction vs generalizing fuel acc with
  | nil => exact absurd rfl hne
  | cons v vs ih =>
    cases fuel with
    | zero => cases hok
    | succ fuel =>
      have hv := h v List.mem_cons_self
      cases vs with
      | nil =>
        have hv := hv _ (stops_closing (.inr (.inl rfl)) p)
        rw [dumpElements, elements] at hok
        split at hok
        · cases hok
        · next w q' heq =>
          obtain ⟨rfl, hdepth⟩ := hv w q' heq
          rw [skipWs_closing (.inr (.inl rfl))] at hok
          cases hok
          exact ⟨rfl, by simpa using hdepth⟩
      | cons v' vs =>
        have hv := hv _ (stops_closing (.inl rfl) (dumpElements (v' :: vs) ++ rbracket :: p))
        rw [dumpElements_cons, List.append_assoc, List.cons_append, elements] at hok
        split at hok
        · cases hok
        · next w q' heq =>
          obtain ⟨rfl, hdepth⟩ := hv w q' heq
          rw [skipWs_closing (.inl rfl)] at hok
          obtain ⟨rfl, hrest⟩ := ih (by simp) (fun u hu => h u (List.mem_cons_of_mem _ hu)) hok
          exact ⟨rfl, List.forall_mem_cons.2 ⟨hdepth, hrest⟩⟩

theorem members_whole {es : Object} (hne : es ≠ [])
    (h : ∀ e ∈ es, ∀ p, Stops p → Whole depth e.2 p (value (e.2.dump ++ p))) {fuel : ℕ}
    {obj acc : Object} {p q : Bytes}
    (hok : members value fuel acc (dumpEntries es ++ rbrace :: p) = .ok (obj, q)) :
    q = p ∧ ∀ e ∈ es, depth + e.2.depth ≤ kMaxNestingDepth := by
  induction es generalizing fuel acc with
  | nil => exact absurd rfl hne
  | cons e es ih =>
    obtain ⟨k, v⟩ := e
    cases fuel with
    | zero => cases hok
    | succ fuel =>
      have hv := h (k, v) List.mem_cons_self
      have hkey (q : Bytes) : parseString (skipWs (escape k ++ q)) = .ok (k, q) := by
        have hquote : skipWs (escape k ++ q) = escape k ++ q := skipWs_cons (by decide) _
        rw [hquote, parseString_escape]
      have hcolon (q : Bytes) : skipWs (colon :: q) = colon :: q := skipWs_cons (by decide) q
      cases es with
      | nil =>
        have hv := hv _ (stops_closing (.inr (.inr rfl)) p)
        simp only [dumpEntries, List.append_assoc, List.cons_append, members, hkey, hcolon, ne_eq,
          not_true_eq_false, if_false] at hok
        split at hok
        · cases hok
        · next w q' heq =>
          obtain ⟨rfl, hdepth⟩ := hv w q' heq
          rw [skipWs_closing (.inr (.inr rfl))] at hok
          cases hok
          exact ⟨rfl, by simpa using hdepth⟩
      | cons e' es =>
        have hv := hv _ (stops_closing (.inl rfl) (dumpEntries (e' :: es) ++ rbrace :: p))
        simp only [dumpEntries_cons, List.append_assoc, List.cons_append, members, hkey, hcolon,
          ne_eq, not_true_eq_false, if_false] at hok
        split at hok
        · cases hok
        · next w q' heq =>
          obtain ⟨rfl, hdepth⟩ := hv w q' heq
          rw [skipWs_closing (.inl rfl)] at hok
          obtain ⟨rfl, hrest⟩ := ih (by simp) (fun u hu => h u (List.mem_cons_of_mem _ hu)) hok
          exact ⟨rfl, List.forall_mem_cons.2 ⟨hdepth, hrest⟩⟩

end Containers

theorem number_whole (x : Double) (frames : ℕ) {depth : ℕ} (hdepth : depth ≤ kMaxNestingDepth)
    {p : Bytes} (hp : Stops p) :
    Whole depth (.number x) p (parseValue frames depth ((Value.number x).dump ++ p)) := by
  cases frames with
  | zero =>
    intro w q hok
    cases hok
  | succ frames =>
    rcases exists_numeral x with ⟨n, hn⟩ | ⟨neg, rfl⟩ | ⟨neg, rfl⟩
    · obtain ⟨c, t, htext, hc⟩ := number_head n
      obtain ⟨⟨hws, -⟩, hquote, hopen, ht, hf, hnull⟩ := number_char hc
      have hscan := scanNumber_text n hp
      intro w q hok
      rw [htext, List.cons_append] at hscan
      rw [Value.dump, ← hn, htext, List.cons_append, parseValue, valueWith, skipWs_cons hws] at hok
      simp only at hok
      rw [if_neg hquote, if_neg hopen, if_neg ht, if_neg hf, if_neg hnull, if_pos hc] at hok
      simp only [parseNumber, hscan] at hok
      split at hok
      · cases hok
      · cases hok
        exact ⟨rfl, hdepth⟩
    · intro w q hok
      cases neg <;> cases hok
    · intro w q hok
      cases neg <;> cases hok

/-- An open bracket is read when the nesting allows it. -/
theorem valueWith_open {value : Bytes → Parsed Value} {depth : ℕ} {c : UInt8}
    (hc : c = lbrace ∨ c = lbracket) {p q : Bytes} {w : Value}
    (hok : valueWith depth value (c :: p) = .ok (w, q)) :
    depth < kMaxNestingDepth ∧
      if c = lbrace then ∃ obj, parseObject value p = .ok (obj, q)
      else ∃ vs, parseArray value p = .ok (vs, q) := by
  have hws : isWs c = false := by rcases hc with rfl | rfl <;> decide
  have hquote : c ≠ quote := by rcases hc with rfl | rfl <;> decide
  rw [valueWith, skipWs_cons hws] at hok
  simp only [if_neg hquote, if_pos hc] at hok
  split at hok
  · cases hok
  · next hlt =>
    refine ⟨not_le.1 hlt, ?_⟩
    split at hok
    · next heq =>
      rw [if_pos heq]
      cases hobj : parseObject value p with
      | error e => simp [hobj, Except.map] at hok
      | ok r =>
        rw [hobj] at hok
        cases hok
        exact ⟨r.1, rfl⟩
    · next hne =>
      rw [if_neg hne]
      cases harr : parseArray value p with
      | error e => simp [harr, Except.map] at hok
      | ok r =>
        rw [harr] at hok
        cases hok
        exact ⟨r.1, rfl⟩

theorem array_whole {value : Bytes → Parsed Value} {depth : ℕ} {vs : List Value}
    (h : depth < kMaxNestingDepth →
      ∀ v ∈ vs, ∀ p, Stops p → Whole (depth + 1) v p (value (v.dump ++ p))) (p : Bytes) :
    Whole depth (.array vs) p (valueWith depth value ((Value.array vs).dump ++ p)) := by
  intro w q hok
  rw [Value.dump, List.append_assoc, List.append_assoc, List.singleton_append] at hok
  obtain ⟨hlt, harr⟩ := valueWith_open (.inr rfl) hok
  rw [if_neg (by decide)] at harr
  obtain ⟨us, harr⟩ := harr
  cases vs with
  | nil =>
    have hskip : skipWs (dumpElements [] ++ ([rbracket] ++ p)) = rbracket :: p :=
      skipWs_closing (.inr (.inl rfl)) p
    rw [parseArray, hskip] at harr
    cases harr
    exact ⟨rfl, hlt⟩
  | cons v vs =>
    obtain ⟨c, t, hc, hlead⟩ : ∃ c t, dumpElements (v :: vs) = c :: t ∧ Leads c := by
      obtain ⟨c, t, hc, hlead⟩ := dump_head v
      cases vs with
      | nil => exact ⟨c, t, by rw [dumpElements, hc], hlead⟩
      | cons v' vs => exact ⟨c, _, by rw [dumpElements_cons, hc, List.cons_append], hlead⟩
    have hskip : skipWs (dumpElements (v :: vs) ++ ([rbracket] ++ p)) =
        c :: (t ++ ([rbracket] ++ p)) := by
      rw [hc, List.cons_append, skipWs_cons hlead.1]
    rw [parseArray, hskip] at harr
    simp only [if_neg hlead.2.2] at harr
    rw [← List.cons_append, ← hc] at harr
    obtain ⟨rfl, hvs⟩ := elements_whole (by simp) (h hlt) harr
    have hdepth : Value.depthElements (v :: vs) ≤ kMaxNestingDepth - (depth + 1) :=
      Value.depthElements_le_iff.2 fun u hu => by have := hvs u hu; omega
    exact ⟨rfl, by rw [Value.depth]; omega⟩

theorem object_whole {value : Bytes → Parsed Value} {depth : ℕ} {es : Object}
    (h : depth < kMaxNestingDepth →
      ∀ e ∈ es, ∀ p, Stops p → Whole (depth + 1) e.2 p (value (e.2.dump ++ p))) (p : Bytes) :
    Whole depth (.object es) p (valueWith depth value ((Value.object es).dump ++ p)) := by
  intro w q hok
  rw [Value.dump, List.append_assoc, List.append_assoc, List.singleton_append] at hok
  obtain ⟨hlt, hobj⟩ := valueWith_open (.inl rfl) hok
  rw [if_pos rfl] at hobj
  obtain ⟨obj, hobj⟩ := hobj
  cases es with
  | nil =>
    have hskip : skipWs (dumpEntries [] ++ ([rbrace] ++ p)) = rbrace :: p :=
      skipWs_closing (.inr (.inr rfl)) p
    rw [parseObject, hskip] at hobj
    cases hobj
    exact ⟨rfl, hlt⟩
  | cons e es =>
    obtain ⟨t, ht⟩ : ∃ t, dumpEntries (e :: es) = quote :: t := by
      obtain ⟨k, v⟩ := e
      cases es with
      | nil => exact ⟨_, rfl⟩
      | cons e' es => exact ⟨_, by rw [dumpEntries_cons]; rfl⟩
    have hskip : skipWs (dumpEntries (e :: es) ++ ([rbrace] ++ p)) =
        quote :: (t ++ ([rbrace] ++ p)) := by
      rw [ht, List.cons_append, skipWs_cons (by decide)]
    rw [parseObject, hskip] at hobj
    simp only [if_neg (show quote ≠ rbrace by decide)] at hobj
    rw [← List.cons_append, ← ht] at hobj
    obtain ⟨rfl, hes⟩ := members_whole (by simp) (h hlt) hobj
    have hdepth : Value.depthEntries (e :: es) ≤ kMaxNestingDepth - (depth + 1) :=
      Value.depthEntries_le_iff.2 fun u hu => by have := hes u hu; omega
    exact ⟨rfl, by rw [Value.depth]; omega⟩

/-- **What is printed is read as a whole or refused.** -/
theorem parseValue_whole (v : Value) (frames : ℕ) {depth : ℕ} (hdepth : depth ≤ kMaxNestingDepth)
    {p : Bytes} (hp : Stops p) : Whole depth v p (parseValue frames depth (v.dump ++ p)) := by
  induction v generalizing frames depth p with
  | number x => exact number_whole x frames hdepth hp
  | null =>
    intro w q hok
    cases frames <;> cases hok
    exact ⟨rfl, hdepth⟩
  | bool b =>
    intro w q hok
    cases frames <;> cases b <;> cases hok <;> exact ⟨rfl, hdepth⟩
  | string s =>
    intro w q hok
    have hs := parseString_escape s p
    rw [escape, List.append_assoc, List.append_assoc, List.singleton_append] at hs
    cases frames with
    | zero => cases hok
    | succ frames =>
      rw [Value.dump, escape, List.append_assoc, List.append_assoc, List.singleton_append,
        parseValue, valueWith, skipWs_cons (by decide)] at hok
      simp only [if_true, hs] at hok
      cases hok
      exact ⟨rfl, hdepth⟩
  | array vs ih =>
    cases frames with
    | zero =>
      intro w q hok
      cases hok
    | succ frames => exact array_whole (fun hlt v hv p hp => ih v hv frames hlt hp) p
  | object es ih =>
    cases frames with
    | zero =>
      intro w q hok
      cases hok
    | succ frames => exact object_whole (fun hlt e he p hp => ih e he frames hlt hp) p

/-- A value nested too deep is refused. -/
theorem parse_too_deep {v : Value} (h : kMaxNestingDepth < v.depth) :
    ∃ e, parse v.dump = .error e := by
  have hstops : Stops [] := fun c hc => nomatch hc
  have hwhole := parseValue_whole v (kMaxNestingDepth + 1) (Nat.zero_le _) hstops
  rw [List.append_nil] at hwhole
  unfold parse
  rw [parseValue_skipWs]
  cases hparse : parseValue (kMaxNestingDepth + 1) 0 v.dump with
  | error e => exact ⟨e, rfl⟩
  | ok r =>
    obtain ⟨w, q⟩ := r
    have := (hwhole w q hparse).2
    omega

/-- **Printing and parsing back gives the value**, for every value whose numbers are integers up
to `2 ^ 53` and whose containers are not nested too deep; its strings and keys may be any bytes. A
value that is nested deeper is refused. -/
theorem parse_dump :
    (∀ v : Value, v.WF → v.IntNumbers → v.depth ≤ kMaxNestingDepth → parse v.dump = .ok v) ∧
      ∀ v : Value, kMaxNestingDepth < v.depth → ∃ e, parse v.dump = .error e := by
  refine ⟨fun v hwf hint hdepth => ?_, fun v hdepth => parse_too_deep hdepth⟩
  obtain ⟨node, hnode⟩ := exists_node hwf hint
  exact parse_of_prints hnode hdepth

theorem parse_dump_key :
    parse (Value.object [([0x01, 0xff], .array [.number (.int (-7))])]).dump =
      .ok (.object [([0x01, 0xff], .array [.number (.int (-7))])]) := by
  refine parse_dump.1 _ (.object (List.pairwise_singleton _ _) ?_) (.object trivial ?_) (by decide)
  · simpa using .array trivial (by simpa using .number trivial)
  · simpa using .array trivial (by simpa using .number ⟨-7, rfl, by decide⟩)

end BambooNet.Json
