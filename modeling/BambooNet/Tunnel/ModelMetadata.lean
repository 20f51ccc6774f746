import BambooNet.Json.Complete
import BambooNet.Lib.CheckedReads
import BambooNet.Lib.StdString
import BambooNet.Lib.Strtoul

/-!
# Metadata of a sliced project

The title of a project is in the XML text of `3D/3dmodel.model`, in an element
`<metadata name="Title">`. It is found by a scanner that knows comments, CDATA sections and
processing instructions, and no other structure.

**Positions.** The program keeps positions in the text. `none` is a read outside it, or the
exception that a string operation throws at a position past the end. A loop is a function that takes
one turn, and the turns one after the other.

**Theorem (`value_total`).** For every text the scanner ends without a read outside.
-/

namespace BambooNet.ModelMetadata

open StdString

/-! ## Character data -/

def appendUtf8 (out : Bytes) (cp : ℕ) : Bytes := out ++ Json.utf8 cp

/-- The entity of a character reference `#…`. `ent` has two bytes or more. -/
def charRef (ent : Bytes) : Option (Option Bytes) := do
  let hex ← either (byteIs ent 1 0x78) (byteIs ent 1 0x58)
  let digits := (ent.drop (if hex then 2 else 1)).takeWhile (· ≠ 0)
  let number := strtoul (if hex then 16 else 10) digits
  let cp := number.1
  let ok := digits ≠ [] ∧ number.2 = [] ∧ cp ≠ 0 ∧ cp ≤ 0x10ffff ∧ (cp < 0xd800 ∨ 0xdfff < cp)
  pure (if ok then some (appendUtf8 [] cp) else none)

/-- What an entity stands for, when it is known. -/
def entity (ent : Bytes) : Option (Option Bytes) :=
  if ent = ascii "amp" then some (some [0x26])
  else if ent = ascii "lt" then some (some [0x3c])
  else if ent = ascii "gt" then some (some [0x3e])
  else if ent = ascii "quot" then some (some [0x22])
  else if ent = ascii "apos" then some (some [0x27])
  else do
    if ← both (some (1 < ent.length)) (byteIs ent 0 0x23) then charRef ent else pure none

/-- The semicolon of the reference at `i`, if there is one near. -/
def semicolon (s : Bytes) (i : ℕ) : Option (Option ℕ) :=
  (byteIs s i 0x26).map fun amp =>
    (if amp then find [0x3b] s (i + 1) else none).filter fun semi => semi - i ≤ 12

/-- The reference between `i` and `semi`, decoded or as it is. -/
def reference (s : Bytes) (i semi : ℕ) : Option Bytes := do
  let ent ← substr s (i + 1) (semi - i - 1)
  let decoded ← entity ent
  if decoded.isSome then decoded else substr s i (semi - i + 1)

/-- One turn of the loop in `decode_xml_text`: what is appended, and the next position. -/
def decodeTurn (s : Bytes) (i : ℕ) : Option (Bytes × ℕ) :=
  (semicolon s i).bind fun semi =>
    match semi with
    | none => s[i]?.map fun c => ([c], i + 1)
    | some semi => (reference s i semi).map fun t => (t, semi + 1)

theorem charRef_total {ent : Bytes} (h : 1 < ent.length) : ∃ r, charRef ent = some r := by
  rw [charRef, byteIs_of_lt h, byteIs_of_lt h, either_of fun _ => rfl]
  exact ⟨_, rfl⟩

theorem entity_total (ent : Bytes) : ∃ r, entity ent = some r := by
  rw [entity]
  split_ifs
  · exact ⟨_, rfl⟩
  · exact ⟨_, rfl⟩
  · exact ⟨_, rfl⟩
  · exact ⟨_, rfl⟩
  · exact ⟨_, rfl⟩
  · have hhash : both (some (1 < ent.length)) (byteIs ent 0 0x23) =
        some (decide (1 < ent.length) && ent.getD 0 0 == 0x23) :=
      both_of fun h => byteIs_of_lt (Nat.lt_trans Nat.zero_lt_one (of_decide_eq_true h)) 0x23
    rw [hhash, Option.bind_eq_bind, Option.bind_some]
    split
    · next h => exact charRef_total (of_decide_eq_true (Bool.and_eq_true_iff.1 h).1)
    · exact ⟨_, rfl⟩

theorem reference_total {s : Bytes} {i semi : ℕ} (hi : i < semi) (hsemi : semi < s.length) :
    ∃ t, reference s i semi = some t := by
  obtain ⟨r, hr⟩ := entity_total ((s.drop (i + 1)).take (semi - i - 1))
  rw [reference, substr_of_le (by omega), Option.bind_eq_bind, Option.bind_some, hr,
    Option.bind_eq_bind, Option.bind_some]
  split
  · next h => exact Option.isSome_iff_exists.1 h
  · exact ⟨_, substr_of_le (by omega) _⟩

theorem semicolon_spec {s : Bytes} {i : ℕ} (hi : i < s.length) :
    ∃ semi, semicolon s i = some semi ∧ ∀ e, semi = some e → i < e ∧ e < s.length := by
  rw [semicolon, byteIs_of_lt hi, Option.map_some]
  refine ⟨_, rfl, ?_⟩
  intro e he
  have hfind := (Option.filter_eq_some_iff.1 he).1
  split at hfind
  · have hbounds := find_bounds (List.cons_ne_nil _ _) hfind
    rw [List.length_singleton] at hbounds
    omega
  · cases hfind

/-- A turn reads inside, and moves on. -/
theorem decodeTurn_spec {s : Bytes} {i : ℕ} (hi : i < s.length) :
    ∃ t next, decodeTurn s i = some (t, next) ∧ i < next := by
  obtain ⟨semi, hsemi, hbounds⟩ := semicolon_spec hi
  rw [decodeTurn, hsemi, Option.bind_some]
  cases semi with
  | none =>
    obtain ⟨c, hc⟩ := exists_drop hi
    exact ⟨[c], i + 1, by rw [getElem?_of_drop hc]; rfl, Nat.lt_succ_self i⟩
  | some e =>
    obtain ⟨hlt, hlen⟩ := hbounds e rfl
    obtain ⟨t, ht⟩ := reference_total hlt hlen
    exact ⟨t, e + 1, by simp only [ht, Option.map_some], by omega⟩

def decodeFrom (s out : Bytes) (i : ℕ) : Option Bytes :=
  if i < s.length then
    match _h : decodeTurn s i with
    | none => none
    | some (t, next) => decodeFrom s (out ++ t) next
  else some out
termination_by s.length - i
decreasing_by
  obtain ⟨_, _, hturn, hnext⟩ := decodeTurn_spec ‹i < s.length›
  cases hturn.symm.trans _h
  omega

def decodeXmlText (s : Bytes) : Option Bytes := decodeFrom s [] 0

/-! ## Tags -/

def isXmlSpace (c : UInt8) : Bool := c = 0x20 || c = 0x09 || c = 0x0d || c = 0x0a

/-- One turn of the loop in `xml_attribute`. -/
inductive AttributeTurn
  /-- The text is no list of attributes. -/
  | broken
  | stray (next : ℕ)
  /-- The quotes around the value are at `start` and `stop`. -/
  | pair (key : Bytes) (start stop : ℕ)

def attributeTurn (attrs : Bytes) (i : ℕ) : Option AttributeTurn := do
  let keyStart ← skipWhile isXmlSpace attrs i
  let keyEnd ← skipWhile (fun c => !isXmlSpace c && c ≠ 0x3d) attrs keyStart
  let key ← substr attrs keyStart (keyEnd - keyStart)
  let j ← skipWhile isXmlSpace attrs keyEnd
  if ← either (some (attrs.length ≤ j)) ((byteIs attrs j 0x3d).map (!·)) then
    pure (.stray (if j = keyStart then j + 1 else j))
  else
    let start ← skipWhile isXmlSpace attrs (j + 1)
    if ← either (some (attrs.length ≤ start)) ((both ((byteIs attrs start 0x22).map (!·))
        ((byteIs attrs start 0x27).map (!·)))) then
      pure .broken
    else
      let quote ← attrs[start]?
      pure (((find [quote] attrs (start + 1)).map fun stop => .pair key start stop).getD .broken)

/-- Where the turn goes on. -/
def AttributeTurn.Advances (attrs : Bytes) (i : ℕ) : AttributeTurn → Prop
  | broken => True
  | stray next => i < next
  | pair _ start stop => i ≤ start ∧ start < stop ∧ stop < attrs.length

theorem attributeTurn_spec {attrs : Bytes} {i : ℕ} (hi : i < attrs.length) :
    ∃ turn, attributeTurn attrs i = some turn ∧ turn.Advances attrs i := by
  obtain ⟨keyStart, hstart⟩ := skipWhile_total isXmlSpace attrs i
  obtain ⟨keyEnd, hend⟩ := skipWhile_total (fun c => !isXmlSpace c && c ≠ 0x3d) attrs keyStart
  obtain ⟨j, hj⟩ := skipWhile_total isXmlSpace attrs keyEnd
  obtain ⟨hstart₁, hstart₂⟩ := skipWhile_bounds hstart
  obtain ⟨hend₁, hend₂⟩ := skipWhile_bounds hend
  obtain ⟨hj₁, hj₂⟩ := skipWhile_bounds hj
  have hequals : either (some (attrs.length ≤ j)) ((byteIs attrs j 0x3d).map (!·)) =
      some (decide (attrs.length ≤ j) || !(attrs.getD j 0 == 0x3d)) := by
    refine either_of fun h => ?_
    rw [byteIs_of_lt (Nat.not_le.1 (of_decide_eq_false h)), Option.map_some]
  simp only [attributeTurn, hstart, hend, hj, substr_of_le (hstart₂ hi.le), hequals,
    Option.bind_eq_bind, Option.bind_some]
  split
  · refine ⟨_, rfl, ?_⟩
    rw [AttributeTurn.Advances]
    split <;> omega
  · obtain ⟨start, hquote⟩ := skipWhile_total isXmlSpace attrs (j + 1)
    obtain ⟨hquote₁, hquote₂⟩ := skipWhile_bounds hquote
    have hopen : either (some (attrs.length ≤ start))
        (both ((byteIs attrs start 0x22).map (!·)) ((byteIs attrs start 0x27).map (!·))) =
        some (decide (attrs.length ≤ start) ||
          (!(attrs.getD start 0 == 0x22) && !(attrs.getD start 0 == 0x27))) := by
      refine either_of fun h => ?_
      have hlt := Nat.not_le.1 (of_decide_eq_false h)
      rw [byteIs_of_lt hlt, byteIs_of_lt hlt, Option.map_some, Option.map_some,
        both_of fun _ => rfl]
    simp only [hquote, hopen, Option.bind_some]
    split
    · exact ⟨_, rfl, trivial⟩
    · next hclosed =>
      simp only [Bool.or_eq_true, decide_eq_true_eq, not_or, Nat.not_le] at hclosed
      obtain ⟨c, hc⟩ := exists_drop hclosed.1
      rw [getElem?_of_drop hc, Option.bind_some]
      refine ⟨_, rfl, ?_⟩
      cases hfind : find [c] attrs (start + 1) with
      | none => exact trivial
      | some stop =>
        have hbounds := find_bounds (List.cons_ne_nil c []) hfind
        rw [List.length_singleton] at hbounds
        exact ⟨by omega, by omega, by omega⟩

def attributeFrom (attrs name : Bytes) (i : ℕ) : Option (Option Bytes) :=
  if i < attrs.length then
    match _h : attributeTurn attrs i with
    | none => none
    | some .broken => some none
    | some (.stray next) => attributeFrom attrs name next
    | some (.pair key start stop) =>
      if key = name then (substr attrs (start + 1) (stop - start - 1)).map some
      else attributeFrom attrs name (stop + 1)
  else some none
termination_by attrs.length - i
decreasing_by
  all_goals
    obtain ⟨_, hturn, hadvances⟩ := attributeTurn_spec ‹i < attrs.length›
    cases hturn.symm.trans _h
    simp only [AttributeTurn.Advances] at hadvances
    omega

def xmlAttribute (attrs name : Bytes) : Option (Option Bytes) := attributeFrom attrs name 0

def xmlTagEndFrom (xml : Bytes) (quote : UInt8) (pos : ℕ) : Option (Option ℕ) :=
  if pos < xml.length then
    xml[pos]?.bind fun c =>
      if quote ≠ 0 then xmlTagEndFrom xml (if c = quote then 0 else quote) (pos + 1)
      else if c = 0x22 ∨ c = 0x27 then xmlTagEndFrom xml c (pos + 1)
      else if c = 0x3e then some (some pos)
      else xmlTagEndFrom xml 0 (pos + 1)
  else some none
termination_by xml.length - pos

def xmlTagEnd (xml : Bytes) (pos : ℕ) : Option (Option ℕ) := xmlTagEndFrom xml 0 pos

/-! ## Elements -/

def cdataOpen : Bytes := ascii "<![CDATA["

def cdataClose : Bytes := ascii "]]>"

def commentOpen : Bytes := ascii "<!--"

def commentClose : Bytes := ascii "-->"

/-- One turn of the loop in `xml_element_text`. -/
inductive TextTurn
  /-- The element is unterminated or has child elements. -/
  | broken
  | more (text : Bytes) (next : ℕ)
  /-- The end tag. -/
  | close (text : Bytes)

/-- The markup at `lt`, behind character data. -/
def markupInText (xml closeTag : Bytes) (lt : ℕ) (text : Bytes) : Option TextTurn := do
  if ← compareAt xml lt cdataOpen then
    match find cdataClose xml (lt + 9) with
    | none => pure .broken
    | some e => (substr xml (lt + 9) (e - lt - 9)).map fun s => .more (text ++ s) (e + 3)
  else if ← compareAt xml lt commentOpen then
    match find commentClose xml (lt + 4) with
    | none => pure .broken
    | some e => pure (.more text (e + 3))
  else if ← compareAt xml lt closeTag then pure (.close text)
  else pure .broken

def textTurn (xml closeTag : Bytes) (pos : ℕ) : Option TextTurn :=
  match find [0x3c] xml pos with
  | none => some .broken
  | some lt => do
    let run ← substr xml pos (lt - pos)
    let text ← decodeXmlText run
    markupInText xml closeTag lt text

theorem decodeFrom_turn {s t : Bytes} {i next : ℕ} (hi : i < s.length)
    (h : decodeTurn s i = some (t, next)) (out : Bytes) :
    decodeFrom s out i = decodeFrom s (out ++ t) next := by
  rw [decodeFrom, if_pos hi, h]

theorem decodeFrom_end {s : Bytes} {i : ℕ} (hi : ¬ i < s.length) (out : Bytes) :
    decodeFrom s out i = some out := by
  rw [decodeFrom, if_neg hi]

theorem decodeFrom_total (s out : Bytes) (i : ℕ) : ∃ t, decodeFrom s out i = some t := by
  induction hn : s.length - i using Nat.strong_induction_on generalizing out i with
  | _ n ih =>
    by_cases hi : i < s.length
    · obtain ⟨t, next, hturn, hnext⟩ := decodeTurn_spec hi
      rw [decodeFrom_turn hi hturn]
      exact ih (s.length - next) (by omega) _ next rfl
    · exact ⟨out, decodeFrom_end hi out⟩

theorem markupInText_spec {xml : Bytes} {lt : ℕ} (hlt : lt < xml.length) (closeTag text : Bytes) :
    ∃ turn, markupInText xml closeTag lt text = some turn ∧
      ∀ t next, turn = .more t next → lt < next := by
  simp only [markupInText, compareAt_of_le hlt.le, Option.bind_eq_bind, Option.bind_some,
    decide_eq_true_eq]
  split
  · cases he : find cdataClose xml (lt + 9) with
    | none => exact ⟨_, rfl, fun t next h => by cases h⟩
    | some e =>
      have hclose := find_bounds (by decide) he
      simp only [substr_of_le (show lt + 9 ≤ xml.length by omega), Option.map_some]
      refine ⟨_, rfl, fun t next h => ?_⟩
      cases h
      omega
  · split
    · cases he : find commentClose xml (lt + 4) with
      | none => exact ⟨_, rfl, fun t next h => by cases h⟩
      | some e =>
        have hclose := find_bounds (by decide) he
        refine ⟨_, rfl, fun t next h => ?_⟩
        cases h
        omega
    · split
      · exact ⟨_, rfl, fun t next h => by cases h⟩
      · exact ⟨_, rfl, fun t next h => by cases h⟩

/-- A turn reads inside, and moves on. -/
theorem textTurn_spec (xml closeTag : Bytes) (pos : ℕ) :
    ∃ turn, textTurn xml closeTag pos = some turn ∧
      ∀ t next, turn = .more t next → pos < next ∧ pos < xml.length := by
  rw [textTurn]
  cases hlt : find [0x3c] xml pos with
  | none => exact ⟨_, rfl, fun t next h => by cases h⟩
  | some lt =>
    have hbounds := find_bounds (List.cons_ne_nil _ _) hlt
    rw [List.length_singleton] at hbounds
    obtain ⟨text, htext⟩ := decodeFrom_total ((xml.drop pos).take (lt - pos)) [] 0
    obtain ⟨turn, hturn, hnext⟩ :=
      markupInText_spec (show lt < xml.length by omega) closeTag text
    simp only [substr_of_le (show pos ≤ xml.length by omega), decodeXmlText, htext,
      Option.bind_eq_bind, Option.bind_some]
    refine ⟨turn, hturn, fun t next h => ?_⟩
    have hlt := hnext t next h
    omega

def elementTextFrom (xml closeTag out : Bytes) (pos : ℕ) : Option Bytes :=
  if pos < xml.length then
    match _h : textTurn xml closeTag pos with
    | none => none
    | some .broken => some []
    | some (.more text next) => elementTextFrom xml closeTag (out ++ text) next
    | some (.close text) => some (out ++ text)
  else some []
termination_by xml.length - pos
decreasing_by
  obtain ⟨_, hturn, hnext⟩ := textTurn_spec xml closeTag pos
  cases hturn.symm.trans _h
  have := hnext _ _ rfl
  omega

def xmlElementText (xml : Bytes) (pos : ℕ) (closeTag : Bytes) : Option Bytes :=
  elementTextFrom xml closeTag [] pos

/-! ## The search -/

def kOpen : Bytes := ascii "<metadata"

def kName : Bytes := ascii "name"

/-- The section at `pos` that is skipped: its end, and where that is looked for. -/
def skippedSection (xml : Bytes) (pos : ℕ) : Option (Option (Bytes × ℕ)) := do
  if ← compareAt xml pos commentOpen then pure (some (commentClose, pos + 4))
  else if ← compareAt xml pos cdataOpen then pure (some (cdataClose, pos + 9))
  else if ← compareAt xml pos (ascii "<?") then pure (some (ascii "?>", pos + 2))
  else pure none

/-- No tag of a `metadata` element is at `pos`. -/
def otherMarkup (xml : Bytes) (pos : ℕ) : Option Bool := do
  let after := pos + kOpen.length
  let opens ← compareAt xml pos kOpen
  either (some !opens) (both (some (after < xml.length))
    (xml[after]?.map fun c => !isXmlSpace c && c ≠ 0x3e && c ≠ 0x2f))

/-- One turn of the loop in `value`. -/
inductive Turn
  | result (text : Bytes)
  | skip (next : ℕ)

/-- The `metadata` element whose attributes are `attrs`, with the slash of an element without
content. -/
def metadataTurn (xml name attrs : Bytes) (next : ℕ) : Option Turn := do
  let selfClosing := attrs.getLast? = some 0x2f
  let attrs := if selfClosing then attrs.dropLast else attrs
  let key ← xmlAttribute attrs kName
  if key ≠ some name then pure (.skip next)
  else if selfClosing then pure (.result [])
  else (xmlElementText xml next (ascii "</metadata")).map .result

def markupTurn (xml name : Bytes) (pos : ℕ) : Option Turn := do
  let skipped ← skippedSection xml pos
  match skipped with
  | some (skipTo, skipFrom) =>
    match find skipTo xml skipFrom with
    | none => pure (.result [])
    | some e => pure (.skip (e + skipTo.length))
  | none =>
    if ← otherMarkup xml pos then pure (.skip (pos + 1))
    else do
      let after := pos + kOpen.length
      let tagEnd ← xmlTagEnd xml after
      match tagEnd with
      | none => pure (.result [])
      | some tagEnd => do
        let attrs ← substr xml after (tagEnd - after)
        metadataTurn xml name attrs (tagEnd + 1)

def valueTurn (xml name : Bytes) (pos : ℕ) : Option Turn :=
  match find [0x3c] xml pos with
  | none => some (.result [])
  | some pos => markupTurn xml name pos

/-! ### Reads inside -/

theorem attributeFrom_total (attrs name : Bytes) (i : ℕ) :
    ∃ r, attributeFrom attrs name i = some r := by
  induction hn : attrs.length - i using Nat.strong_induction_on generalizing i with
  | _ n ih =>
    by_cases hi : i < attrs.length
    · obtain ⟨turn, hturn, hadvances⟩ := attributeTurn_spec hi
      rw [attributeFrom, if_pos hi, hturn]
      cases turn with
      | broken => exact ⟨none, rfl⟩
      | stray next =>
        rw [AttributeTurn.Advances] at hadvances
        exact ih (attrs.length - next) (by omega) next rfl
      | pair key start stop =>
        rw [AttributeTurn.Advances] at hadvances
        dsimp only
        split
        · rw [substr_of_le (by omega)]
          exact ⟨_, rfl⟩
        · exact ih (attrs.length - (stop + 1)) (by omega) (stop + 1) rfl
    · rw [attributeFrom, if_neg hi]
      exact ⟨none, rfl⟩

theorem xmlTagEndFrom_spec (xml : Bytes) (quote : UInt8) (pos : ℕ) :
    ∃ r, xmlTagEndFrom xml quote pos = some r ∧ ∀ e, r = some e → pos ≤ e ∧ e < xml.length := by
  induction hn : xml.length - pos generalizing quote pos with
  | zero =>
    rw [xmlTagEndFrom, if_neg (by omega)]
    exact ⟨none, rfl, fun e h => by cases h⟩
  | succ n ih =>
    have hpos : pos < xml.length := by omega
    obtain ⟨c, hc⟩ := exists_drop hpos
    have hrest (quote : UInt8) : ∃ r, xmlTagEndFrom xml quote (pos + 1) = some r ∧
        ∀ e, r = some e → pos ≤ e ∧ e < xml.length := by
      obtain ⟨r, hr, hbounds⟩ := ih quote (pos + 1) (by omega)
      refine ⟨r, hr, fun e he => ?_⟩
      have hle := hbounds e he
      omega
    rw [xmlTagEndFrom, if_pos hpos, getElem?_of_drop hc, Option.bind_some]
    split
    · exact hrest _
    · split
      · exact hrest c
      · split
        · refine ⟨some pos, rfl, fun e he => ?_⟩
          cases he
          exact ⟨le_refl pos, hpos⟩
        · exact hrest 0

theorem elementTextFrom_total (xml closeTag out : Bytes) (pos : ℕ) :
    ∃ t, elementTextFrom xml closeTag out pos = some t := by
  induction hn : xml.length - pos using Nat.strong_induction_on generalizing out pos with
  | _ n ih =>
    rw [elementTextFrom]
    split
    · obtain ⟨turn, hturn, hnext⟩ := textTurn_spec xml closeTag pos
      rw [hturn]
      cases turn with
      | broken => exact ⟨[], rfl⟩
      | more text next =>
        have hlt := hnext text next rfl
        exact ih (xml.length - next) (by omega) _ next rfl
      | close text => exact ⟨out ++ text, rfl⟩
    · exact ⟨[], rfl⟩

theorem skippedSection_total {xml : Bytes} {pos : ℕ} (h : pos ≤ xml.length) :
    ∃ r, skippedSection xml pos = some r ∧
      ∀ skipTo skipFrom, r = some (skipTo, skipFrom) → skipTo ≠ [] ∧ pos ≤ skipFrom := by
  simp only [skippedSection, compareAt_of_le h, Option.bind_eq_bind, Option.bind_some]
  split_ifs
  · refine ⟨_, rfl, fun skipTo skipFrom he => ?_⟩
    cases he
    exact ⟨by decide, by omega⟩
  · refine ⟨_, rfl, fun skipTo skipFrom he => ?_⟩
    cases he
    exact ⟨by decide, by omega⟩
  · refine ⟨_, rfl, fun skipTo skipFrom he => ?_⟩
    cases he
    exact ⟨by decide, by omega⟩
  · exact ⟨none, rfl, fun skipTo skipFrom he => by cases he⟩

theorem otherMarkup_total {xml : Bytes} {pos : ℕ} (h : pos ≤ xml.length) :
    ∃ r, otherMarkup xml pos = some r ∧ (r = false → pos + kOpen.length ≤ xml.length) := by
  simp only [otherMarkup, compareAt_of_le h, Option.bind_eq_bind, Option.bind_some]
  by_cases hopen : kOpen <+: xml.drop pos
  · have hlen := hopen.length_le
    have hpos : kOpen ≠ [] := by decide
    have hkOpen := List.length_pos_iff.2 hpos
    rw [List.length_drop] at hlen
    rw [decide_eq_true hopen, Bool.not_true, either_false]
    by_cases hafter : pos + kOpen.length < xml.length
    · obtain ⟨c, hc⟩ := exists_drop hafter
      rw [decide_eq_true hafter, getElem?_of_drop hc, Option.map_some, both_of fun _ => rfl]
      exact ⟨_, rfl, fun _ => by omega⟩
    · rw [decide_eq_false hafter]
      exact ⟨false, rfl, fun _ => by omega⟩
  · rw [decide_eq_false hopen]
    exact ⟨true, rfl, fun h => by cases h⟩

theorem metadataTurn_spec (xml name attrs : Bytes) (next : ℕ) :
    ∃ turn, metadataTurn xml name attrs next = some turn ∧
      ∀ n, turn = .skip n → n = next := by
  obtain ⟨key, hkey⟩ := attributeFrom_total
    (if attrs.getLast? = some 0x2f then attrs.dropLast else attrs) kName 0
  obtain ⟨text, htext⟩ := elementTextFrom_total xml (ascii "</metadata") [] next
  simp only [metadataTurn, xmlAttribute, hkey, xmlElementText, htext, Option.bind_eq_bind,
    Option.bind_some, Option.map_some]
  split
  · refine ⟨_, rfl, fun n hn => ?_⟩
    cases hn
    rfl
  · split
    · exact ⟨_, rfl, fun n hn => by cases hn⟩
    · exact ⟨_, rfl, fun n hn => by cases hn⟩

theorem markupTurn_spec {xml : Bytes} {pos : ℕ} (name : Bytes) (h : pos < xml.length) :
    ∃ turn, markupTurn xml name pos = some turn ∧ ∀ next, turn = .skip next → pos < next := by
  obtain ⟨skipped, hskipped, hsection⟩ := skippedSection_total h.le
  rw [markupTurn, hskipped, Option.bind_eq_bind, Option.bind_some]
  cases skipped with
  | some e =>
    obtain ⟨skipTo, skipFrom⟩ := e
    obtain ⟨hto, hfrom⟩ := hsection skipTo skipFrom rfl
    dsimp only
    cases he : find skipTo xml skipFrom with
    | none => exact ⟨_, rfl, fun next hn => by cases hn⟩
    | some e =>
      have hbounds := find_bounds hto he
      have hlen := List.length_pos_iff.2 hto
      refine ⟨_, rfl, fun next hn => ?_⟩
      cases hn
      omega
  | none =>
    obtain ⟨other, hother, hopen⟩ := otherMarkup_total h.le
    simp only [hother, Option.bind_eq_bind, Option.bind_some]
    cases other with
    | true =>
      refine ⟨_, rfl, fun next hn => ?_⟩
      cases hn
      exact Nat.lt_succ_self pos
    | false =>
      have hafter := hopen rfl
      obtain ⟨tagEnd, hend, hbounds⟩ := xmlTagEndFrom_spec xml 0 (pos + kOpen.length)
      simp only [xmlTagEnd, hend, Option.bind_some]
      cases tagEnd with
      | none => exact ⟨_, rfl, fun next hn => by cases hn⟩
      | some e =>
        have he := hbounds e rfl
        obtain ⟨turn, hturn, hskip⟩ := metadataTurn_spec xml name
          ((xml.drop (pos + kOpen.length)).take (e - (pos + kOpen.length))) (e + 1)
        simp only [substr_of_le hafter, Option.bind_some, hturn]
        refine ⟨turn, rfl, fun next hn => ?_⟩
        have hnext := hskip next hn
        omega

theorem valueTurn_spec (xml name : Bytes) (pos : ℕ) :
    ∃ turn, valueTurn xml name pos = some turn ∧
      ∀ next, turn = .skip next → pos < next ∧ pos < xml.length := by
  rw [valueTurn]
  cases hlt : find [0x3c] xml pos with
  | none => exact ⟨_, rfl, fun next hn => by cases hn⟩
  | some lt =>
    have hbounds := find_bounds (List.cons_ne_nil _ _) hlt
    rw [List.length_singleton] at hbounds
    obtain ⟨turn, hturn, hskip⟩ := markupTurn_spec name (show lt < xml.length by omega)
    refine ⟨turn, hturn, fun next hn => ?_⟩
    have hnext := hskip next hn
    omega

def valueFrom (xml name : Bytes) (pos : ℕ) : Option Bytes :=
  match _h : valueTurn xml name pos with
  | none => none
  | some (.result text) => some text
  | some (.skip next) => valueFrom xml name next
termination_by xml.length - pos
decreasing_by
  obtain ⟨_, hturn, hnext⟩ := valueTurn_spec xml name pos
  cases hturn.symm.trans _h
  have := hnext _ rfl
  omega

def value (xml name : Bytes) : Option Bytes := valueFrom xml name 0

theorem valueFrom_total (xml name : Bytes) (pos : ℕ) : ∃ t, valueFrom xml name pos = some t := by
  induction hn : xml.length - pos using Nat.strong_induction_on generalizing pos with
  | _ n ih =>
    obtain ⟨turn, hturn, hnext⟩ := valueTurn_spec xml name pos
    rw [valueFrom, hturn]
    cases turn with
    | result text => exact ⟨text, rfl⟩
    | skip next =>
      have hlt := hnext next rfl
      exact ih (xml.length - next) (by omega) next rfl

/-- **Theorem.** The scanner ends, without a read outside. -/
theorem value_total (xml name : Bytes) : ∃ t, value xml name = some t := valueFrom_total xml name 0

end BambooNet.ModelMetadata
