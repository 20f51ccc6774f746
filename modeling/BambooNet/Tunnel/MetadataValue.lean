import BambooNet.Lib.XmlSyntax
import BambooNet.Tunnel.ModelMetadata

/-!
# The scanner on XML documents

What the scanner finds in the text of an XML document is what the document says. The scanner goes
through the text as the tree of the document was written: each lemma says what it does at a position
at which a piece of the tree stands, and where it goes on.

**Skipping.** Up to the element that is searched, the scanner moves over whole pieces of markup
(`valueFrom_content`). It stays in step since a `<` is always the beginning of markup, and since it
knows the sections in which one is not.

**Theorem (`value_document`).** The result is the character data of the first `metadata` element in
document order whose `name` attribute is the one asked for. Without such an element it is empty.
-/

namespace BambooNet.ModelMetadata

open StdString XmlSyntax

/-! ## Character data -/

theorem decodeTurn_byte {s t : Bytes} {i : ℕ} {c : UInt8} (h : s.drop i = c :: t) (hc : c ≠ 0x26) :
    decodeTurn s i = some ([c], i + 1) := by
  have hamp : (c == 0x26) = false := beq_eq_false_iff_ne.2 hc
  simp [decodeTurn, semicolon, byteIs, getElem?_of_drop h, hamp]

theorem decodeTurn_reference {s t ent d : Bytes} {i : ℕ}
    (h : s.drop i = 0x26 :: (ent ++ 0x3b :: t)) (hsemi : 0x3b ∉ ent) (hlen : ent.length ≤ 11)
    (hent : entity ent = some (some d)) :
    decodeTurn s i = some (d, i + ent.length + 2) := by
  have hfind := find_byte hsemi (drop_succ h)
  have hbyte : byteIs s i 0x26 = some true := by
    rw [byteIs, getElem?_of_drop h]
    rfl
  have hcode : semicolon s i = some (some (i + 1 + ent.length)) := by
    rw [semicolon, hbyte, Option.map_some, if_pos rfl, hfind, Option.filter_some,
      if_pos (decide_eq_true (by omega))]
  have hsub : substr s (i + 1) ent.length = some ent :=
    substr_of_drop (drop_succ h) (lt_of_drop h)
  have hstop : i + 1 + ent.length - i - 1 = ent.length := by omega
  rw [decodeTurn, hcode, Option.bind_some]
  simp only [reference, hstop, hsub, hent, Option.bind_eq_bind, Option.bind_some,
    Option.isSome_some, if_true, Option.map_some]
  exact congrArg (fun n => some (d, n)) (by omega)

theorem entity_known : ∀ e ∈ entities, entity e.1 = some (some [e.2]) ∧ 0x3b ∉ e.1 :=
  List.all_iff_forall_prop.1 (by decide)

theorem charRef_body (r : CharRef) :
    charRef r.body = some (some (String.utf8EncodeChar r.char)) := by
  have hne := r.ne_nil
  have hbase : (if r.hex then 16 else 10) ≤ 16 := by split <;> omega
  have hcp : ofDigits (if r.hex then 16 else 10) r.digits = r.char.toNat := r.value
  have hlt : r.char.toNat < 0x110000 := by
    rcases r.char.valid with h | h
    · exact h.trans (by decide)
    · exact h.2
  have hnul : r.digits.takeWhile (· ≠ 0) = r.digits := by
    refine List.takeWhile_eq_self_iff.2 fun c hc => ?_
    exact decide_eq_true (digit_not_markup c (r.digitValue_lt hc)).2.2
  have hmin : min (ofDigits (if r.hex then 16 else 10) r.digits) (2 ^ 64 - 1) = r.char.toNat := by
    rw [hcp, Nat.min_eq_left (by omega)]
  have hhex : either (byteIs r.body 1 0x78) (byteIs r.body 1 0x58) = some r.hex ∧
      r.body.drop (if r.hex then 2 else 1) = r.digits := by
    rw [CharRef.body]
    cases r.hex with
    | true => exact ⟨rfl, rfl⟩
    | false =>
      obtain ⟨d, t, hd⟩ := List.exists_cons_of_ne_nil hne
      obtain ⟨-, -, hx, hX⟩ := digit_not_sign d (r.digitValue_lt (hd ▸ List.mem_cons_self))
      rw [hd]
      refine ⟨?_, rfl⟩
      simp [byteIs, either, hx, hX]
  have hscalar : r.char.toNat < 0xd800 ∨ 0xdfff < r.char.toNat := r.char.valid.imp id (·.1)
  simp only [charRef, hhex.1, Option.bind_eq_bind, Option.bind_some, hhex.2, hnul,
    strtoul_digits hbase hne r.inBase, hmin]
  have hvalid : r.char.toNat.isValidChar := r.char.valid
  rw [if_pos ⟨hne, trivial, r.nonzero, by omega, hscalar⟩, appendUtf8, List.nil_append,
    Json.utf8_eq hvalid, Char.ofNat_toNat]
  rfl

theorem entity_charRef (r : CharRef) :
    entity r.body = some (some (String.utf8EncodeChar r.char)) := by
  have hnot {e : Bytes} (he : e.head? ≠ some 0x23) : r.body ≠ e := fun h => he (h ▸ rfl)
  have hlen : 1 < r.body.length := by
    have hpos := List.length_pos_iff.2 r.ne_nil
    rw [CharRef.body]
    split
    · simp
    · simpa using hpos
  have hhash : both (some (1 < r.body.length)) (byteIs r.body 0 0x23) = some true := by
    rw [decide_eq_true hlen]
    rfl
  rw [entity, if_neg (hnot (by decide)), if_neg (hnot (by decide)), if_neg (hnot (by decide)),
    if_neg (hnot (by decide)), if_neg (hnot (by decide)), hhash, Option.bind_eq_bind,
    Option.bind_some, if_pos rfl, charRef_body]

/-- The text of several pieces. -/
def texts (ps : List Piece) : Bytes := ps.flatMap Piece.text

def decoded (ps : List Piece) : Bytes := ps.flatMap Piece.decoded

/-- The references are at most 12 bytes long. -/
def Short (ps : List Piece) : Prop := ∀ p ∈ ps, p.text.length ≤ 12

theorem decodeTurn_piece {p : Piece} (hp : p.text.length ≤ 12) {s t : Bytes} {i : ℕ}
    (h : s.drop i = p.text ++ t) : decodeTurn s i = some (p.decoded, i + p.text.length) := by
  have href {ent d : Bytes} (htext : p.text = 0x26 :: (ent ++ [0x3b]))
      (hdecoded : p.decoded = d) (hsemi : 0x3b ∉ ent) (hent : entity ent = some (some d)) :
      decodeTurn s i = some (p.decoded, i + p.text.length) := by
    rw [htext] at h hp
    rw [List.cons_append, List.append_assoc] at h
    rw [List.length_cons, List.length_append, List.length_singleton] at hp
    rw [decodeTurn_reference h hsemi (by omega) hent, hdecoded, htext]
    simp [Nat.add_assoc]
  cases p with
  | byte c plain => exact decodeTurn_byte h plain.2
  | entity e known => exact href rfl rfl (entity_known e known).2 (entity_known e known).1
  | char r => exact href rfl rfl (r.notMem_body (.inr rfl)) (entity_charRef r)

theorem decodeFrom_pieces {ps : List Piece} (hps : Short ps) {s : Bytes} {i : ℕ}
    (h : s.drop i = texts ps) (out : Bytes) : decodeFrom s out i = some (out ++ decoded ps) := by
  induction ps generalizing i out with
  | nil =>
    have hend : ¬ i < s.length := fun hi => by
      rw [texts, List.flatMap_nil, List.drop_eq_nil_iff] at h
      omega
    rw [decodeFrom_end hend, decoded, List.flatMap_nil, List.append_nil]
  | cons p ps ih =>
    rw [texts, List.flatMap_cons] at h
    have hlt := le_of_drop h p.text_ne_nil
    have hpos := List.length_pos_iff.2 p.text_ne_nil
    rw [decodeFrom_turn (by omega) (decodeTurn_piece (hps p List.mem_cons_self) h),
      ih (fun q hq => hps q (List.mem_cons_of_mem _ hq)) (drop_add h), decoded, decoded,
      List.flatMap_cons, List.append_assoc]

theorem decodeXmlText_pieces {ps : List Piece} (hps : Short ps) :
    decodeXmlText (texts ps) = some (decoded ps) :=
  decodeFrom_pieces hps rfl []

theorem lt_notMem_texts (ps : List Piece) : 0x3c ∉ texts ps := by
  intro h
  obtain ⟨p, -, hp⟩ := List.mem_flatMap.1 h
  exact p.lt_notMem_text hp

/-! ## Sections -/

/-- What a section ends with is found behind its text. -/
theorem find_close {close : Bytes} (hne : close ≠ [])
    (hcut : ∀ k < close.length, 0 < k → ¬ close.drop k <+: close) {xml s t : Bytes} {pos : ℕ}
    (hs : ¬ close <:+: s) (h : xml.drop pos = s ++ (close ++ t)) :
    find close xml pos = some (pos + s.length) :=
  find_of_drop hne (findFirst_eq_none hs) (not_straddles_self hcut s t) h

section

variable {xml s t : Bytes} {pos : ℕ}

theorem find_cdataClose (hs : ¬ ascii "]]>" <:+: s) (h : xml.drop pos = s ++ (cdataClose ++ t)) :
    find cdataClose xml pos = some (pos + s.length) :=
  find_close (by decide) (by decide) hs h

theorem find_commentClose (hs : CommentText s) (h : xml.drop pos = s ++ (commentClose ++ t)) :
    find commentClose xml pos = some (pos + s.length) := by
  refine find_close (by decide) (by decide) ?_ h
  rintro ⟨a, b, rfl⟩
  exact hs ⟨a, ascii ">" ++ (b ++ ascii "-"), by simp [commentClose, ascii]⟩

theorem find_piClose (hs : PiText s) (h : xml.drop pos = s ++ (ascii "?>" ++ t)) :
    find (ascii "?>") xml pos = some (pos + s.length) :=
  find_close (by decide) (by decide) hs h

end

/-! ## The text of an element -/

section

variable {xml t : Bytes} {pos : ℕ}

/-- Character data up to the next markup. -/
theorem textTurn_pieces {ps : List Piece} (hps : Short ps) (closeTag : Bytes)
    (h : xml.drop pos = texts ps ++ 0x3c :: t) : textTurn xml closeTag pos =
      markupInText xml closeTag (pos + (texts ps).length) (decoded ps) := by
  have hpos : pos ≤ xml.length := by
    have hlt := lt_of_drop (drop_add h)
    omega
  have hsub := substr_of_drop h hpos
  rw [textTurn, find_byte (lt_notMem_texts ps) h]
  simp only [Nat.add_sub_cancel_left, hsub, decodeXmlText_pieces hps, Option.bind_eq_bind,
    Option.bind_some]

theorem markupInText_cdata {s : Bytes} (hs : ¬ ascii "]]>" <:+: s) (closeTag text : Bytes)
    (h : xml.drop pos = ascii "<![CDATA[" ++ (s ++ (ascii "]]>" ++ t))) :
    markupInText xml closeTag pos text = some (.more (text ++ s) (pos + 9 + s.length + 3)) := by
  have hle := le_of_drop h (by decide)
  have hlen : (ascii "<![CDATA[").length = 9 := rfl
  have hin : xml.drop (pos + 9) = s ++ (ascii "]]>" ++ t) := drop_add h
  have hsub : substr xml (pos + 9) s.length = some s := substr_of_drop hin (by omega)
  have hrun : pos + 9 + s.length - pos - 9 = s.length := by omega
  simp only [markupInText, cdataOpen, compareAt_here h (by decide), find_cdataClose hs hin, hrun,
    hsub, Option.bind_eq_bind, Option.bind_some, if_true, Option.map_some]

theorem markupInText_comment {s : Bytes} (hs : CommentText s) (closeTag text : Bytes)
    (h : xml.drop pos = ascii "<!--" ++ (s ++ (ascii "-->" ++ t))) :
    markupInText xml closeTag pos text = some (.more text (pos + 4 + s.length + 3)) := by
  have hin : xml.drop (pos + 4) = s ++ (ascii "-->" ++ t) := drop_add h
  have hcdata := compareAt_other (q := cdataOpen) h (by decide) (by decide) (by decide)
  simp only [markupInText, hcdata, commentOpen, compareAt_here h (by decide),
    find_commentClose hs hin, Option.bind_eq_bind, Option.bind_some, if_true, if_false,
    Bool.false_eq_true]
  rfl

theorem markupInText_close (text : Bytes) (h : xml.drop pos = ascii "</metadata" ++ t) :
    markupInText xml (ascii "</metadata") pos text = some (.close text) := by
  have hcdata := compareAt_other (q := cdataOpen) h (by decide) (by decide) (by decide)
  have hcomment := compareAt_other (q := commentOpen) h (by decide) (by decide) (by decide)
  simp only [markupInText, hcdata, hcomment, compareAt_here h (by decide), Option.bind_eq_bind,
    Option.bind_some, if_true, if_false, Bool.false_eq_true]
  rfl

theorem elementTextFrom_more {closeTag text : Bytes} {next : ℕ} (hpos : pos < xml.length)
    (h : textTurn xml closeTag pos = some (.more text next)) (out : Bytes) :
    elementTextFrom xml closeTag out pos = elementTextFrom xml closeTag (out ++ text) next := by
  rw [elementTextFrom, if_pos hpos, h]

theorem elementText_flat {c : Content} (hflat : c.Flat) {ps : List Piece}
    (hshort : Short (ps ++ c.pieces)) {out : Bytes}
    (h : xml.drop pos = texts ps ++ (c.text ++ (ascii "</metadata" ++ t))) :
    elementTextFrom xml (ascii "</metadata") out pos =
      some (out ++ (decoded ps ++ c.charData)) := by
  -- `ps` are the pieces since the last section
  induction c generalizing ps pos out with
  | nil =>
    rw [Content.pieces, List.append_nil] at hshort
    rw [Content.text, List.nil_append] at h
    have hlt : pos + (texts ps).length < xml.length := lt_of_drop (drop_add h)
    have hturn := textTurn_pieces hshort (ascii "</metadata") h
    rw [markupInText_close _ (drop_add h)] at hturn
    rw [elementTextFrom, if_pos (by omega), hturn, Content.charData, List.append_nil]
  | piece p rest ih =>
    have htexts : texts (ps ++ [p]) = texts ps ++ p.text := by simp [texts]
    have hdecoded : decoded (ps ++ [p]) = decoded ps ++ p.decoded := by simp [decoded]
    rw [Content.pieces, ← List.singleton_append, ← List.append_assoc] at hshort
    rw [Content.text, List.append_assoc, ← List.append_assoc, ← htexts] at h
    rw [ih hflat hshort h, hdecoded, Content.charData, List.append_assoc]
  | cdata s closed rest ih =>
    rw [Content.text, List.append_assoc, List.append_assoc, List.append_assoc] at h
    have hlt : pos + (texts ps).length < xml.length := lt_of_drop (drop_add h)
    have hps : Short ps := fun p hp => hshort p (List.mem_append_left _ hp)
    have hrest : Short ([] ++ rest.pieces) := fun p hp => hshort p (List.mem_append_right _ hp)
    have hturn := textTurn_pieces hps (ascii "</metadata") h
    rw [markupInText_cdata closed _ _ (drop_add h)] at hturn
    have hnext : xml.drop (pos + (texts ps).length + 9 + s.length + 3) =
        texts [] ++ (rest.text ++ (ascii "</metadata" ++ t)) :=
      drop_add (drop_add (drop_add (drop_add h)))
    rw [elementTextFrom_more (by omega) hturn, ih hflat hrest hnext, Content.charData]
    simp [decoded]
  | comment s closed rest ih =>
    rw [Content.text, List.append_assoc, List.append_assoc, List.append_assoc] at h
    have hlt : pos + (texts ps).length < xml.length := lt_of_drop (drop_add h)
    have hps : Short ps := fun p hp => hshort p (List.mem_append_left _ hp)
    have hrest : Short ([] ++ rest.pieces) := fun p hp => hshort p (List.mem_append_right _ hp)
    have hturn := textTurn_pieces hps (ascii "</metadata") h
    rw [markupInText_comment closed _ _ (drop_add h)] at hturn
    have hnext : xml.drop (pos + (texts ps).length + 4 + s.length + 3) =
        texts [] ++ (rest.text ++ (ascii "</metadata" ++ t)) :=
      drop_add (drop_add (drop_add (drop_add h)))
    rw [elementTextFrom_more (by omega) hturn, ih hflat hrest hnext, Content.charData]
    simp [decoded]
  | pi s closed rest => exact hflat.elim
  | empty tag rest => exact hflat.elim
  | element tag inner space white rest => exact hflat.elim

end

/-! ## Markup that is skipped -/

section

variable {xml t : Bytes} {pos : ℕ} (name : Bytes)

theorem valueFrom_skip {next : ℕ} (h : valueTurn xml name pos = some (.skip next)) :
    valueFrom xml name pos = valueFrom xml name next := by
  rw [valueFrom, h]

theorem valueFrom_result {text : Bytes} (h : valueTurn xml name pos = some (.result text)) :
    valueFrom xml name pos = some text := by
  rw [valueFrom, h]

/-- Text without markup. -/
theorem valueFrom_text {p : Bytes} (hp : 0x3c ∉ p) (h : xml.drop pos = p ++ t) :
    valueFrom xml name pos = valueFrom xml name (pos + p.length) := by
  have hturn : valueTurn xml name pos = valueTurn xml name (pos + p.length) := by
    rw [valueTurn, valueTurn, find_skip hp h]
  rw [valueFrom, hturn, ← valueFrom]

theorem valueTurn_markup (h : xml.drop pos = 0x3c :: t) :
    valueTurn xml name pos = markupTurn xml name pos := by
  have hfind : find [0x3c] xml pos = some pos := find_byte List.not_mem_nil h
  rw [valueTurn, hfind]

/-- A comment, a CDATA section or a processing instruction. -/
theorem valueFrom_section {start s close : Bytes} (hstart : start.head? = some 0x3c)
    (hsection : skippedSection xml pos = some (some (close, pos + start.length)))
    (hclose : find close xml (pos + start.length) = some (pos + start.length + s.length))
    (h : xml.drop pos = start ++ (s ++ (close ++ t))) : valueFrom xml name pos =
      valueFrom xml name (pos + (start ++ (s ++ close)).length) := by
  obtain ⟨u, rfl⟩ := List.head?_eq_some_iff.1 hstart
  have hturn : valueTurn xml name pos =
      some (.skip (pos + (0x3c :: u).length + s.length + close.length)) := by
    rw [valueTurn_markup name h, markupTurn, hsection, Option.bind_eq_bind, Option.bind_some]
    simp only [hclose]
    rfl
  rw [valueFrom_skip name hturn, List.length_append, List.length_append, Nat.add_assoc,
    Nat.add_assoc]

theorem valueFrom_comment {s : Bytes} (hs : CommentText s)
    (h : xml.drop pos = ascii "<!--" ++ (s ++ ascii "-->") ++ t) : valueFrom xml name pos =
      valueFrom xml name (pos + (ascii "<!--" ++ (s ++ ascii "-->")).length) := by
  rw [List.append_assoc, List.append_assoc] at h
  refine valueFrom_section name rfl ?_ (find_commentClose hs (drop_add h)) h
  simp only [skippedSection, commentOpen, compareAt_here h (by decide), Option.bind_eq_bind,
    Option.bind_some, if_true]
  rfl

theorem valueFrom_cdata {s : Bytes} (hs : ¬ ascii "]]>" <:+: s)
    (h : xml.drop pos = ascii "<![CDATA[" ++ (s ++ ascii "]]>") ++ t) :
    valueFrom xml name pos =
      valueFrom xml name (pos + (ascii "<![CDATA[" ++ (s ++ ascii "]]>")).length) := by
  rw [List.append_assoc, List.append_assoc] at h
  refine valueFrom_section name rfl ?_ (find_cdataClose hs (drop_add h)) h
  have hcomment := compareAt_other (q := commentOpen) h (by decide) (by decide) (by decide)
  simp only [skippedSection, hcomment, cdataOpen, compareAt_here h (by decide), Option.bind_eq_bind,
    Option.bind_some, if_true, if_false, Bool.false_eq_true]
  rfl

theorem valueFrom_pi {s : Bytes} (hs : PiText s)
    (h : xml.drop pos = ascii "<?" ++ (s ++ ascii "?>") ++ t) : valueFrom xml name pos =
      valueFrom xml name (pos + (ascii "<?" ++ (s ++ ascii "?>")).length) := by
  rw [List.append_assoc, List.append_assoc] at h
  refine valueFrom_section name rfl ?_ (find_piClose hs (drop_add h)) h
  have hcomment := compareAt_other (q := commentOpen) h (by decide) (by decide) (by decide)
  have hcdata := compareAt_other (q := cdataOpen) h (by decide) (by decide) (by decide)
  simp only [skippedSection, hcomment, hcdata, compareAt_here h (by decide), Option.bind_eq_bind,
    Option.bind_some, if_true, if_false, Bool.false_eq_true]
  rfl

/-- A tag begins no section. -/
theorem skippedSection_tag {c : UInt8} (hc : c ≠ 0x21 ∧ c ≠ 0x3f)
    (h : xml.drop pos = 0x3c :: c :: t) : skippedSection xml pos = some none := by
  have hother {d : UInt8} (u : Bytes) (hd : c ≠ d) :
      compareAt xml pos (0x3c :: d :: u) = some false := by
    refine compareAt_other (p := [0x3c, c]) h (List.cons_ne_nil _ _) ?_ ?_
    · intro hpre
      exact hd (List.cons_prefix_cons.1 (List.cons_prefix_cons.1 hpre).2).1.symm
    · intro hpre
      exact hd (List.cons_prefix_cons.1 (List.cons_prefix_cons.1 hpre).2).1
  have hcomment : compareAt xml pos commentOpen = some false := hother (ascii "--") hc.1
  have hcdata : compareAt xml pos cdataOpen = some false := hother (ascii "[CDATA[") hc.1
  have hpi : compareAt xml pos (ascii "<?") = some false := hother [] hc.2
  simp only [skippedSection, hcomment, hcdata, hpi, Option.bind_eq_bind, Option.bind_some, if_false,
    Bool.false_eq_true]
  rfl

/-- A tag that is none of a `metadata` element. -/
theorem valueFrom_other {c : UInt8} {p : Bytes} (hc : c ≠ 0x21 ∧ c ≠ 0x3f)
    (hother : otherMarkup xml pos = some true) (hp : 0x3c ∉ c :: p)
    (h : xml.drop pos = 0x3c :: (c :: p ++ t)) : valueFrom xml name pos =
      valueFrom xml name (pos + (0x3c :: c :: p).length) := by
  have hturn : valueTurn xml name pos = some (.skip (pos + 1)) := by
    rw [valueTurn_markup name h, markupTurn, skippedSection_tag hc h, Option.bind_eq_bind,
      Option.bind_some]
    simp only [hother, Option.bind_eq_bind, Option.bind_some, if_true]
    rfl
  rw [valueFrom_skip name hturn, valueFrom_text name hp (drop_succ h), List.length_cons (a := 0x3c),
    Nat.add_assoc, Nat.add_comm 1]

end

/-! ## Names of elements -/

theorem isXmlSpace_iff {c : UInt8} : isXmlSpace c = true ↔ c ∈ whitespace := by
  simp [isXmlSpace, whitespace, or_assoc]

theorem not_isXmlSpace {c : UInt8} (h : c ∉ whitespace) : isXmlSpace c = false := by
  rw [← Bool.not_eq_true, isXmlSpace_iff]
  exact h

theorem white_of_delimiters {c : UInt8} (h : c ∉ delimiters) : c ∉ whitespace :=
  fun hc => h (List.mem_append_left _ hc)

section

variable {xml t : Bytes} {pos : ℕ}

theorem otherMarkup_of_not_open (h : compareAt xml pos kOpen = some false) :
    otherMarkup xml pos = some true := by
  rw [otherMarkup, h]
  rfl

theorem otherMarkup_of_open {c : UInt8} (h : xml.drop pos = kOpen ++ c :: t) :
    otherMarkup xml pos = some (!isXmlSpace c && c ≠ 0x3e && c ≠ 0x2f) := by
  have hc := drop_add h
  rw [otherMarkup, compareAt_here h (by decide), Option.bind_eq_bind, Option.bind_some,
    getElem?_of_drop hc, decide_eq_true (lt_of_drop hc), Bool.not_true, either_false]
  rfl

/-- An end tag. -/
theorem otherMarkup_end (h : xml.drop pos = 0x3c :: 0x2f :: t) :
    otherMarkup xml pos = some true :=
  otherMarkup_of_not_open
    (compareAt_other (p := [0x3c, 0x2f]) h (by decide) (by decide) (by decide))

/-- Another element, whether or not its name starts with that of `metadata`. -/
theorem otherMarkup_name {n : Name} (hn : n.bytes ≠ ascii "metadata") {d : UInt8}
    (hd : d ∈ delimiters) (h : xml.drop pos = 0x3c :: (n.bytes ++ d :: t)) :
    otherMarkup xml pos = some true := by
  by_cases hpre : ascii "metadata" <+: n.bytes
  · obtain ⟨r, hr⟩ := hpre
    cases r with
    | nil => exact absurd (by rw [← hr, List.append_nil]) hn
    | cons c r =>
      have hc : c ∉ delimiters := n.plain c (hr ▸ by simp)
      have hopen : xml.drop pos = kOpen ++ c :: (r ++ d :: t) := by
        rw [h, ← hr, List.append_assoc]
        rfl
      have hgt : c ≠ 0x3e := fun heq => hc (heq ▸ by decide)
      have hslash : c ≠ 0x2f := fun heq => hc (heq ▸ by decide)
      rw [otherMarkup_of_open hopen, not_isXmlSpace (white_of_delimiters hc), decide_eq_true hgt,
        decide_eq_true hslash]
      rfl
  · have hletters : d ∉ ascii "metadata" := by
      have hall : ∀ d ∈ delimiters, d ∉ ascii "metadata" := List.all_iff_forall_prop.1 (by decide)
      exact hall d hd
    have htag : xml.drop pos = (0x3c :: (n.bytes ++ [d])) ++ t := by rw [h]; simp
    have hkOpen : kOpen = 0x3c :: ascii "metadata" := rfl
    refine otherMarkup_of_not_open (compareAt_other htag (List.cons_ne_nil _ _) ?_ ?_)
    · intro hopen
      rw [hkOpen, List.cons_prefix_cons] at hopen
      rcases List.prefix_concat_iff.1 hopen.2 with heq | hshort
      · rw [heq] at hletters
        exact hletters (List.mem_append_right _ List.mem_cons_self)
      · exact hpre hshort
    · intro hopen
      rw [hkOpen, List.cons_prefix_cons] at hopen
      exact hletters (hopen.2.subset (List.mem_append_right _ List.mem_cons_self))

theorem otherMarkup_metadata {d : UInt8} (hd : d ∈ whitespace ∨ d = 0x3e ∨ d = 0x2f)
    (h : xml.drop pos = kOpen ++ d :: t) : otherMarkup xml pos = some false := by
  rw [otherMarkup_of_open h]
  rcases hd with hd | rfl | rfl
  · rw [isXmlSpace_iff.2 hd]
    rfl
  · rfl
  · rfl

end

/-! ## The end of a tag -/

section

variable {xml t : Bytes} {pos : ℕ}

theorem xmlTagEndFrom_cons {c : UInt8} (h : xml.drop pos = c :: t) (quote : UInt8) :
    xmlTagEndFrom xml quote pos =
      if quote ≠ 0 then xmlTagEndFrom xml (if c = quote then 0 else quote) (pos + 1)
      else if c = 0x22 ∨ c = 0x27 then xmlTagEndFrom xml c (pos + 1)
      else if c = 0x3e then some (some pos)
      else xmlTagEndFrom xml 0 (pos + 1) := by
  rw [xmlTagEndFrom, if_pos (lt_of_drop h), getElem?_of_drop h, Option.bind_some]

/-- Outside quotes, up to the end of the tag. -/
def Outside (s : Bytes) : Prop := ∀ c ∈ s, c ≠ 0x22 ∧ c ≠ 0x27 ∧ c ≠ 0x3e

theorem xmlTagEndFrom_outside {p : Bytes} (hp : Outside p) (h : xml.drop pos = p ++ t) :
    xmlTagEndFrom xml 0 pos = xmlTagEndFrom xml 0 (pos + p.length) := by
  induction p generalizing pos with
  | nil => rfl
  | cons c p ih =>
    obtain ⟨hdouble, hsingle, hgt⟩ := hp c List.mem_cons_self
    rw [xmlTagEndFrom_cons h, if_neg (by decide), if_neg (not_or.2 ⟨hdouble, hsingle⟩), if_neg hgt,
      ih (fun d hd => hp d (List.mem_cons_of_mem _ hd)) (drop_succ h), List.length_cons,
      Nat.add_assoc, Nat.add_comm 1]

theorem xmlTagEndFrom_quoted {p : Bytes} {quote : UInt8} (hquote : quote ≠ 0) (hp : quote ∉ p)
    (h : xml.drop pos = p ++ quote :: t) :
    xmlTagEndFrom xml quote pos = xmlTagEndFrom xml 0 (pos + (p ++ [quote]).length) := by
  induction p generalizing pos with
  | nil => rw [xmlTagEndFrom_cons h, if_pos hquote, if_pos rfl]; rfl
  | cons c p ih =>
    rw [List.mem_cons, not_or] at hp
    rw [xmlTagEndFrom_cons h, if_pos hquote, if_neg (Ne.symm hp.1), ih hp.2 (drop_succ h),
      List.cons_append, List.length_cons, Nat.add_assoc, Nat.add_comm 1]

theorem outside_white {s : Bytes} (hs : Ws s) : Outside s := by
  have hall : ∀ c ∈ whitespace, c ≠ 0x22 ∧ c ≠ 0x27 ∧ c ≠ 0x3e :=
    List.all_iff_forall_prop.1 (by decide)
  intro c hc
  exact hall c (hs c hc)

theorem outside_front (a : Attribute) : Outside a.front := by
  obtain ⟨hbefore, heq, heq'⟩ := a.white
  intro c hc
  simp only [Attribute.front, List.mem_append, List.mem_cons] at hc
  rcases hc with hc | hc | hc | rfl | hc
  · exact outside_white hbefore c hc
  · have hplain := a.name.plain c hc
    refine ⟨?_, ?_, ?_⟩
    · exact fun heq => hplain (heq ▸ by decide)
    · exact fun heq => hplain (heq ▸ by decide)
    · exact fun heq => hplain (heq ▸ by decide)
  · exact outside_white heq c hc
  · decide
  · exact outside_white heq' c hc

theorem xmlTagEndFrom_attribute (a : Attribute) (h : xml.drop pos = a.text ++ t) :
    xmlTagEndFrom xml 0 pos = xmlTagEndFrom xml 0 (pos + a.text.length) := by
  have hquote : a.quote ≠ 0 ∧ (a.quote = 0x22 ∨ a.quote = 0x27) := by
    refine ⟨?_, a.isQuote⟩
    rcases a.isQuote with h | h
    · rw [h]
      decide
    · rw [h]
      decide
  have hvalue : a.quote ∉ a.value := fun hc => (a.plain _ hc).1 rfl
  rw [Attribute.text, List.append_assoc] at h
  have hopen : xml.drop (pos + a.front.length) = a.quote :: (a.value ++ (a.quote :: t)) := by
    rw [drop_add h]
    simp
  have hlen : pos + a.front.length + 1 + (a.value ++ [a.quote]).length = pos + a.text.length := by
    simp only [Attribute.text, List.length_append, List.length_cons]
    omega
  rw [xmlTagEndFrom_outside (outside_front a) h, xmlTagEndFrom_cons hopen, if_neg (by decide),
    if_pos hquote.2, xmlTagEndFrom_quoted hquote.1 hvalue (drop_succ hopen), hlen]

theorem xmlTagEndFrom_attributes {as : List Attribute}
    (h : xml.drop pos = as.flatMap Attribute.text ++ t) :
    xmlTagEndFrom xml 0 pos = xmlTagEndFrom xml 0 (pos + (as.flatMap Attribute.text).length) := by
  induction as generalizing pos with
  | nil => rfl
  | cons a as ih =>
    rw [List.flatMap_cons, List.append_assoc] at h
    rw [xmlTagEndFrom_attribute a h, ih (drop_add h), List.flatMap_cons, List.length_append,
      Nat.add_assoc]

theorem xmlTagEnd_inside (tag : Tag) {slash : Bytes} (hslash : slash = [] ∨ slash = [0x2f])
    (h : xml.drop pos = tag.inside ++ slash ++ 0x3e :: t) :
    xmlTagEnd xml pos = some (some (pos + (tag.inside ++ slash).length)) := by
  have hout : Outside slash := by
    rcases hslash with rfl | rfl
    · exact List.forall_mem_nil _
    · exact List.forall_mem_singleton.2 (by decide)
  rw [Tag.inside, List.append_assoc, List.append_assoc] at h
  have hspace := drop_add h
  have hend := drop_add hspace
  rw [xmlTagEnd, xmlTagEndFrom_attributes h, xmlTagEndFrom_outside (outside_white tag.white) hspace,
    xmlTagEndFrom_outside hout hend, xmlTagEndFrom_cons (drop_add hend), if_neg (by decide),
    if_neg (by decide), if_pos rfl, Tag.inside, List.length_append, List.length_append,
    Nat.add_assoc, Nat.add_assoc, Nat.add_assoc]

end

/-! ## Attributes -/

section

variable {attrs t : Bytes} {i : ℕ}

theorem skipWhile_white {s : Bytes} (hs : Ws s) (ht : ∀ c ∈ t.head?, c ∉ whitespace)
    (h : attrs.drop i = s ++ t) : skipWhile isXmlSpace attrs i = some (i + s.length) := by
  refine skipWhile_of_drop ?_ ?_ h
  · intro c hc
    exact isXmlSpace_iff.2 (hs c hc)
  · intro c hc
    exact not_isXmlSpace (ht c hc)

/-- A turn on an attribute. -/
theorem attributeTurn_attribute (a : Attribute) (h : attrs.drop i = a.text ++ t) :
    attributeTurn attrs i = some (.pair a.name.bytes (i + a.front.length)
      (i + a.front.length + 1 + a.value.length)) := by
  obtain ⟨hbefore, hbeforeEq, hafterEq⟩ := a.white
  have hvalue : a.quote ∉ a.value := fun hc => (a.plain _ hc).1 rfl
  have hquote : a.quote ∉ whitespace ∧ (a.quote = 0x22 ∨ a.quote = 0x27) := by
    refine ⟨?_, a.isQuote⟩
    rcases a.isQuote with h | h
    · rw [h]
      decide
    · rw [h]
      decide
  have hfront : i + a.before.length + a.name.bytes.length + a.beforeEq.length + 1 +
      a.afterEq.length = i + a.front.length := by
    simp only [Attribute.front, List.length_append, List.length_cons]
    omega
  simp only [Attribute.text, Attribute.front, List.append_assoc, List.cons_append] at h
  have hkey := drop_add h
  have heq := drop_add hkey
  have hsign := drop_add heq
  have hopen := drop_add (drop_succ hsign)
  -- the loops stop at the name, behind it, at the sign and at the quote
  have h1 : skipWhile isXmlSpace attrs i = some (i + a.before.length) := by
    refine skipWhile_white hbefore ?_ h
    obtain ⟨c, n, hn⟩ := List.exists_cons_of_ne_nil a.name.ne_nil
    have hc := white_of_delimiters (a.name.plain c (hn ▸ List.mem_cons_self))
    rw [hn]
    rintro d ⟨⟩
    exact hc
  have h2 : skipWhile (fun c => !isXmlSpace c && c ≠ 0x3d) attrs (i + a.before.length) =
      some (i + a.before.length + a.name.bytes.length) := by
    refine skipWhile_of_drop ?_ ?_ hkey
    · intro c hc
      have hplain := a.name.plain c hc
      have hsign : c ≠ 0x3d := fun heq => hplain (heq ▸ by decide)
      rw [not_isXmlSpace (white_of_delimiters hplain), decide_eq_true hsign]
      rfl
    · cases hb : a.beforeEq with
      | nil =>
        rintro d ⟨⟩
        rfl
      | cons e b =>
        rw [hb] at hbeforeEq
        rintro d ⟨⟩
        rw [isXmlSpace_iff.2 (hbeforeEq e List.mem_cons_self)]
        rfl
  have h3 := skipWhile_white hbeforeEq (by rintro c ⟨⟩; decide) heq
  have h4 := skipWhile_white hafterEq (by rintro c ⟨⟩; exact hquote.1) (drop_succ hsign)
  have h5 : substr attrs (i + a.before.length) a.name.bytes.length = some a.name.bytes :=
    substr_of_drop hkey (by have := lt_of_drop hsign; omega)
  have hstop := find_byte hvalue (drop_succ hopen)
  rw [hfront] at h4 hopen hstop
  have hbyte : byteIs attrs (i + a.before.length + a.name.bytes.length + a.beforeEq.length) 0x3d =
      some true := by
    rw [byteIs, getElem?_of_drop hsign]
    rfl
  have hmark (q : UInt8) : byteIs attrs (i + a.front.length) q = some (a.quote == q) := by
    rw [byteIs, getElem?_of_drop hopen, Option.map_some]
  have hboth : (!(a.quote == 0x22) && !(a.quote == 0x27)) = false := by
    rcases hquote.2 with h | h
    · rw [h]
      rfl
    · rw [h]
      rfl
  simp only [attributeTurn, h1, h2, h3, Nat.add_sub_cancel_left, h5, hbyte, h4, hmark,
    decide_eq_false (Nat.not_le.2 (lt_of_drop hsign)),
    decide_eq_false (Nat.not_le.2 (lt_of_drop hopen)), either_false, Option.map_some,
    both_of fun _ => rfl, hboth, getElem?_of_drop hopen, hstop, Option.bind_eq_bind,
    Option.bind_some]
  rfl

/-- A turn on the white space behind the attributes. -/
theorem attributeTurn_space {space : Bytes} (hspace : Ws space) (h : attrs.drop i = space)
    (hi : i < attrs.length) : attributeTurn attrs i = some (.stray (attrs.length + 1)) := by
  have hall : attrs.drop i = space ++ [] := by rw [h, List.append_nil]
  have hlen : i + space.length = attrs.length := by
    rw [← h, List.length_drop]
    omega
  have h1 : skipWhile isXmlSpace attrs i = some attrs.length := by
    rw [skipWhile_white hspace (by rintro c ⟨⟩) hall, hlen]
  have hend (f : UInt8 → Bool) : skipWhile f attrs attrs.length = some attrs.length := by
    rw [skipWhile, if_neg (Nat.lt_irrefl _)]
  simp only [attributeTurn, h1, hend, Nat.sub_self, substr_of_le (le_refl attrs.length),
    Option.bind_eq_bind, Option.bind_some, decide_eq_true (le_refl attrs.length)]
  rfl

theorem attributeFrom_attributes {as : List Attribute} {space : Bytes} (hspace : Ws space)
    (name : Bytes) (h : attrs.drop i = as.flatMap Attribute.text ++ space) :
    attributeFrom attrs name i = some ((as.find? (·.name.bytes = name)).map (·.value)) := by
  induction as generalizing i with
  | nil =>
    by_cases hi : i < attrs.length
    · rw [attributeFrom, if_pos hi, attributeTurn_space hspace h hi]
      dsimp only
      rw [attributeFrom, if_neg (by omega)]
      rfl
    · rw [attributeFrom, if_neg hi]
      rfl
  | cons a as ih =>
    rw [List.flatMap_cons, List.append_assoc] at h
    have hrest := drop_add h
    have hle := le_of_drop h (by simp [Attribute.text])
    have hlen : a.text.length = a.front.length + 1 + a.value.length + 1 := by
      simp only [Attribute.text, List.length_append, List.length_cons, List.length_nil]
      omega
    rw [attributeFrom, if_pos (by omega), attributeTurn_attribute a h]
    dsimp only
    by_cases hname : a.name.bytes = name
    · have hvalue : attrs.drop (i + a.front.length + 1) =
          a.value ++ (a.quote :: (as.flatMap Attribute.text ++ space)) := by
        rw [Attribute.text, List.append_assoc] at h
        have hopen := drop_add h
        rw [List.cons_append, List.cons_append] at hopen
        rw [drop_succ hopen]
        simp
      have hrun : i + a.front.length + 1 + a.value.length - (i + a.front.length) - 1 =
          a.value.length := by omega
      rw [if_pos hname, hrun, substr_of_drop hvalue (by omega), List.find?_cons_of_pos (by simpa)]
      rfl
    · rw [if_neg hname, List.find?_cons_of_neg (by simpa)]
      rw [hlen, ← Nat.add_assoc, ← Nat.add_assoc, ← Nat.add_assoc] at hrest
      exact ih hrest

/-- The first attribute of a name is found. -/
theorem xmlAttribute_inside (tag : Tag) (name : Bytes) :
    xmlAttribute tag.inside name = some (tag.attribute? name) :=
  attributeFrom_attributes tag.white name rfl

end

/-! ## Tags -/

/-- The tag of the `metadata` element with that name attribute. -/
def isMetadata (name : Bytes) (tag : Tag) : Bool :=
  tag.name.bytes = ascii "metadata" && tag.attribute? kName = some name

section

variable {xml t : Bytes} {pos : ℕ} (name : Bytes)

theorem metadataTurn_inside (tag : Tag) {slash : Bytes} (hslash : slash = [] ∨ slash = [0x2f])
    (next : ℕ) : metadataTurn xml name (tag.inside ++ slash) next =
      if tag.attribute? kName ≠ some name then some (.skip next)
      else if slash = [0x2f] then some (.result [])
      else (xmlElementText xml next (ascii "</metadata")).map .result := by
  rcases hslash with rfl | rfl
  · have hopen := tag.getLast?_inside
    simp only [metadataTurn, List.append_nil, if_neg hopen, xmlAttribute_inside,
      Option.bind_eq_bind, Option.bind_some]
    rfl
  · simp only [metadataTurn, List.getLast?_concat, List.dropLast_concat, if_true,
      xmlAttribute_inside, Option.bind_eq_bind, Option.bind_some]
    rfl

theorem valueTurn_metadata {tag : Tag} {slash : Bytes} (hslash : slash = [] ∨ slash = [0x2f])
    (htag : tag.name.bytes = ascii "metadata")
    (h : xml.drop pos = 0x3c :: (tag.name.bytes ++ (tag.inside ++ slash ++ 0x3e :: t))) :
    valueTurn xml name pos = metadataTurn xml name (tag.inside ++ slash)
      (pos + kOpen.length + (tag.inside ++ slash).length + 1) := by
  have hopen : xml.drop pos = kOpen ++ (tag.inside ++ slash ++ 0x3e :: t) := by
    rw [h, htag]
    rfl
  have hafter := drop_add hopen
  have hother : otherMarkup xml pos = some false := by
    rw [List.append_assoc] at hopen
    rcases hslash with rfl | rfl
    · obtain ⟨e, u, heq, he⟩ := tag.exists_head_inside 0x3e t
      rw [List.nil_append, heq] at hopen
      exact otherMarkup_metadata (he.imp_right .inl) hopen
    · obtain ⟨e, u, heq, he⟩ := tag.exists_head_inside 0x2f (0x3e :: t)
      rw [List.singleton_append, heq] at hopen
      exact otherMarkup_metadata (he.imp_right .inr) hopen
  have hsub : substr xml (pos + kOpen.length) (tag.inside ++ slash).length =
      some (tag.inside ++ slash) :=
    substr_of_drop hafter (by have := lt_of_drop (drop_add hafter); omega)
  rw [valueTurn_markup name h, markupTurn,
    skippedSection_tag (c := 0x6d) (by decide) (h.trans (by rw [htag]; rfl)), Option.bind_eq_bind,
    Option.bind_some]
  simp only [hother, xmlTagEnd_inside tag hslash hafter, Nat.add_sub_cancel_left, hsub,
    Option.bind_eq_bind, Option.bind_some, if_false, Bool.false_eq_true]

/-- A start tag that is not the one searched for. -/
theorem valueFrom_tag {tag : Tag} {slash : Bytes} (hslash : slash = [] ∨ slash = [0x2f])
    (htag : isMetadata name tag = false)
    (h : xml.drop pos = 0x3c :: (tag.name.bytes ++ (tag.inside ++ (slash ++ [0x3e]))) ++ t) :
    valueFrom xml name pos = valueFrom xml name
      (pos + (0x3c :: (tag.name.bytes ++ (tag.inside ++ (slash ++ [0x3e])))).length) := by
  by_cases hname : tag.name.bytes = ascii "metadata"
  · have hattr : tag.attribute? kName ≠ some name := by
      intro hattr
      rw [isMetadata, decide_eq_true hname, decide_eq_true hattr] at htag
      cases htag
    have hturn := valueTurn_metadata (t := t) name hslash hname (h.trans (by simp))
    rw [metadataTurn_inside name tag hslash, if_pos hattr] at hturn
    have hlen : kOpen.length = 1 + tag.name.bytes.length := by rw [hname]; rfl
    rw [valueFrom_skip name hturn, hlen]
    simp only [List.length_cons, List.length_append, List.length_nil]
    exact congrArg _ (by omega)
  · obtain ⟨c, n, hn⟩ := List.exists_cons_of_ne_nil tag.name.ne_nil
    have hlt : 0x3c ∉ c :: (n ++ (tag.inside ++ (slash ++ [0x3e]))) := by
      have hfirst := tag.name.notMem (c := 0x3c) (by decide)
      have hslashes : 0x3c ∉ slash := by
        rcases hslash with rfl | rfl
        · exact List.not_mem_nil
        · decide
      rw [hn] at hfirst
      rw [← List.cons_append, List.mem_append, List.mem_append, List.mem_append, not_or, not_or,
        not_or]
      exact ⟨hfirst, tag.lt_notMem_inside, hslashes, by decide⟩
    have hc : c ≠ 0x21 ∧ c ≠ 0x3f := by
      have hplain := tag.name.plain c (hn ▸ List.mem_cons_self)
      exact ⟨fun heq => hplain (heq ▸ by decide), fun heq => hplain (heq ▸ by decide)⟩
    have hother : otherMarkup xml pos = some true := by
      rcases hslash with rfl | rfl
      · obtain ⟨e, u, heq, he⟩ := tag.exists_head_inside 0x3e t
        refine otherMarkup_name (d := e) (t := u) hname ?_ ?_
        · exact he.elim (List.mem_append_left _) fun hd => hd ▸ by decide
        · rw [h, ← heq]
          simp
      · obtain ⟨e, u, heq, he⟩ := tag.exists_head_inside 0x2f (0x3e :: t)
        refine otherMarkup_name (d := e) (t := u) hname ?_ ?_
        · exact he.elim (List.mem_append_left _) fun hd => hd ▸ by decide
        · rw [h, ← heq]
          simp
    rw [hn] at h ⊢
    exact valueFrom_other name hc hother hlt h

theorem valueFrom_endTag (tag : Tag) {space : Bytes} (hspace : Ws space)
    (h : xml.drop pos = tag.endText space ++ t) :
    valueFrom xml name pos = valueFrom xml name (pos + (tag.endText space).length) := by
  have hlt : 0x3c ∉ 0x2f :: (tag.name.bytes ++ (space ++ [0x3e])) := by
    have hname := tag.name.notMem (c := 0x3c) (by decide)
    simp [hname, lt_notMem_white hspace]
  exact valueFrom_other name (by decide) (otherMarkup_end h) hlt h

end

/-! ## Content -/

/-- The search from `pos` ends at the element that is found, or goes on at `next`. -/
def Finds (xml name : Bytes) (pos next : ℕ) : Option Content → Prop
  | none => valueFrom xml name pos = valueFrom xml name next
  | some inner =>
    inner.Flat → Short inner.pieces → valueFrom xml name pos = some inner.charData

section

variable {xml t name : Bytes} {pos mid next : ℕ} {found found' : Option Content}

theorem Finds.after (h : valueFrom xml name pos = valueFrom xml name mid)
    (hmid : Finds xml name mid next found) : Finds xml name pos next found := by
  cases found with
  | none => exact h.trans hmid
  | some inner => exact fun hflat hshort => h.trans (hmid hflat hshort)

theorem Finds.or (h : Finds xml name pos mid found) (hmid : Finds xml name mid next found') :
    Finds xml name pos next (found.or found') := by
  cases found with
  | none => exact hmid.after h
  | some inner => exact h

theorem Finds.cast (h : Finds xml name pos next found) {next' : ℕ} (heq : next = next') :
    Finds xml name pos next' found := heq ▸ h

theorem valueFrom_empty {tag : Tag} (h : xml.drop pos = tag.emptyText ++ t)
    (htag : isMetadata name tag = true) : valueFrom xml name pos = some [] := by
  obtain ⟨hname, hattr⟩ := Bool.and_eq_true_iff.1 htag
  have hturn := valueTurn_metadata (t := t) name (.inr rfl) (of_decide_eq_true hname)
    (h.trans (by simp [Tag.emptyText]))
  rw [metadataTurn_inside name tag (.inr rfl), if_neg (not_not.2 (of_decide_eq_true hattr)),
    if_pos rfl] at hturn
  exact valueFrom_result name hturn

theorem valueFrom_element {tag : Tag} {inner : Content} {space : Bytes}
    (h : xml.drop pos = tag.text ++ (inner.text ++ (tag.endText space ++ t)))
    (htag : isMetadata name tag = true) (hflat : inner.Flat) (hshort : Short inner.pieces) :
    valueFrom xml name pos = some inner.charData := by
  obtain ⟨hname, hattr⟩ := Bool.and_eq_true_iff.1 htag
  have hbytes : tag.name.bytes = ascii "metadata" := of_decide_eq_true hname
  have hinner : xml.drop (pos + tag.text.length) = texts [] ++ (inner.text ++
      (ascii "</metadata" ++ (space ++ 0x3e :: t))) := by
    rw [drop_add h, Tag.endText, hbytes]
    simp [texts, ascii]
  have hlen : pos + kOpen.length + (tag.inside ++ []).length + 1 = pos + tag.text.length := by
    have hopen : kOpen.length = 1 + tag.name.bytes.length := by rw [hbytes]; rfl
    simp only [hopen, Tag.text, List.length_append, List.length_cons, List.length_nil]
    omega
  have hturn := valueTurn_metadata (t := inner.text ++ (tag.endText space ++ t)) name (.inl rfl)
    hbytes (h.trans (by simp [Tag.text]))
  rw [metadataTurn_inside name tag (.inl rfl), if_neg (not_not.2 (of_decide_eq_true hattr)),
    if_neg (List.cons_ne_nil _ _).symm, hlen, xmlElementText,
    elementText_flat hflat hshort hinner] at hturn
  exact valueFrom_result name hturn

theorem valueFrom_content (c : Content) (h : xml.drop pos = c.text ++ t) :
    Finds xml name pos (pos + c.text.length) (c.find? (isMetadata name)) := by
  induction c generalizing pos t with
  | nil => exact rfl
  | piece p rest ih =>
    rw [Content.text, List.append_assoc] at h
    refine ((ih (drop_add h)).after (valueFrom_text name p.lt_notMem_text h)).cast ?_
    rw [Content.text, List.length_append, Nat.add_assoc]
  | cdata s closed rest ih =>
    have hsplit : (Content.cdata s closed rest).text =
        ascii "<![CDATA[" ++ (s ++ ascii "]]>") ++ rest.text := by simp [Content.text]
    rw [hsplit, List.append_assoc] at h
    refine ((ih (drop_add h)).after (valueFrom_cdata name closed h)).cast ?_
    simp only [hsplit, List.length_append, Nat.add_assoc]
  | comment s closed rest ih =>
    have hsplit : (Content.comment s closed rest).text =
        ascii "<!--" ++ (s ++ ascii "-->") ++ rest.text := by simp [Content.text]
    rw [hsplit, List.append_assoc] at h
    refine ((ih (drop_add h)).after (valueFrom_comment name closed h)).cast ?_
    simp only [hsplit, List.length_append, Nat.add_assoc]
  | pi s closed rest ih =>
    have hsplit : (Content.pi s closed rest).text =
        ascii "<?" ++ (s ++ ascii "?>") ++ rest.text := by simp [Content.text]
    rw [hsplit, List.append_assoc] at h
    refine ((ih (drop_add h)).after (valueFrom_pi name closed h)).cast ?_
    simp only [hsplit, List.length_append, Nat.add_assoc]
  | empty tag rest ih =>
    rw [Content.text, List.append_assoc] at h
    rw [Content.find?]
    split
    · next htag =>
      intro _ _
      exact valueFrom_empty h htag
    · next htag =>
      have hskip := valueFrom_tag name (.inr rfl) (Bool.eq_false_iff.2 htag) h
      refine ((ih (drop_add h)).after hskip).cast ?_
      rw [Content.text, List.length_append, Nat.add_assoc]
  | element tag inner space white rest ih ih' =>
    rw [Content.text, List.append_assoc, List.append_assoc, List.append_assoc] at h
    rw [Content.find?]
    have hinner := drop_add h
    split
    · next htag =>
      intro hflat hshort
      exact valueFrom_element h htag hflat hshort
    · next htag =>
      have hother := Bool.eq_false_iff.2 htag
      have hskip := valueFrom_tag name (.inl (Eq.refl [])) hother h
      have hend := drop_add hinner
      have hrest := (ih' (drop_add hend)).after (valueFrom_endTag name tag white hend)
      refine (((ih hinner).or hrest).after hskip).cast ?_
      simp only [Content.text, List.length_append, Nat.add_assoc]

end

theorem valueFrom_length (xml name : Bytes) : valueFrom xml name xml.length = some [] := by
  have hturn : valueTurn xml name xml.length = some (.result []) := by
    rw [valueTurn, find, List.drop_length]
    rfl
  exact valueFrom_result name hturn

/-- **Theorem.** For a document the result is the character data of the first `metadata` element
with that name attribute, if these are all that is in it, and it is empty when there is no such
element. For every text the scanner ends without a read outside. -/
theorem value_document (name : Bytes) :
    (∀ doc : Document,
      (doc.content.find? (isMetadata name) = none → value doc.text name = some []) ∧
      ∀ inner, doc.content.find? (isMetadata name) = some inner → inner.Flat →
        Short inner.pieces → value doc.text name = some inner.charData) ∧
    ∀ xml, ∃ text, value xml name = some text := by
  refine ⟨fun doc => ?_, fun xml => value_total xml name⟩
  have hdrop : doc.text.drop 0 = doc.content.text ++ [] := (List.append_nil _).symm
  have hfinds : Finds doc.text name 0 _ _ := valueFrom_content doc.content hdrop
  rw [Nat.zero_add] at hfinds
  constructor
  · intro hnone
    rw [hnone] at hfinds
    exact hfinds.trans (valueFrom_length doc.text name)
  · intro inner hsome hflat hshort
    rw [hsome] at hfinds
    exact hfinds hflat hshort

/-- A title, behind a comment that holds another. -/
theorem value_document_titled :
    value (ascii "<!--<metadata>b</metadata>--><metadata name=" ++ 0x22 :: (ascii "T" ++
      0x22 :: ascii ">a&amp;</metadata>")) (ascii "T") = some (ascii "a&") := by
  have hplain {s : Bytes} (hs : (s.all fun c => decide (c ∉ delimiters)) = true) :
      ∀ c ∈ s, c ∉ delimiters := List.all_iff_forall_prop.1 hs
  have hwhite : Ws [0x20] := List.forall_mem_singleton.2 (by decide)
  let title : Attribute := {
    before := [0x20]
    name := ⟨kName, by decide, hplain (by decide)⟩
    beforeEq := []
    afterEq := []
    quote := 0x22
    value := ascii "T"
    separated := List.cons_ne_nil _ _
    white := ⟨hwhite, List.forall_mem_nil _, List.forall_mem_nil _⟩
    isQuote := .inl rfl
    plain := List.forall_mem_singleton.2 (by decide) }
  let tag : Tag := {
    name := ⟨ascii "metadata", by decide, hplain (by decide)⟩
    attributes := [title]
    space := []
    unique := List.nodup_singleton _
    white := List.forall_mem_nil _ }
  let inner : Content := .piece (.byte 0x61 (by decide))
    (.piece (.entity (ascii "amp", 0x26) (by decide)) .nil)
  have hshort : Short inner.pieces :=
    List.forall_mem_cons.2 ⟨by decide, List.forall_mem_singleton.2 (by decide)⟩
  have hcomment : CommentText (ascii "<metadata>b</metadata>") := by decide
  have hvalue := (value_document (ascii "T")).1
    ⟨[.comment _ hcomment], .full tag inner [] (List.forall_mem_nil _), []⟩
  exact hvalue.2 inner rfl trivial hshort

end BambooNet.ModelMetadata
