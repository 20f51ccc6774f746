import BambooNet.Json.Members
import BambooNet.Json.TooDeep
import BambooNet.Lib.CString
import BambooNet.Lib.Calendar

/-!
# Presets in the cloud

A preset is a flat map. It is sent as an envelope with the version, the type and the base, and an
object `setting` of all options, and comes back as an envelope with an object of that name.

**Theorem (`presets_roundTrip`).** What is sent comes back byte by byte. A member of the envelope
keeps its value exactly when the parser accepts the response, `setting` has no member of that name
with another one (the options are stored behind the envelope, and replace it), and an integer
passes through a double and `int64_t`.
-/

namespace BambooNet.Cloud

open Json Json.Value Calendar CString JsonSyntax

/-! ## Keys -/

def kVersion : Bytes := ascii "version"

def kName : Bytes := ascii "name"

def kType : Bytes := ascii "type"

def kUpdateTime : Bytes := ascii "update_time"

def kUpdatedTime : Bytes := ascii "updated_time"

def kBaseId : Bytes := ascii "base_id"

def kSettingId : Bytes := ascii "setting_id"

def kFilamentId : Bytes := ascii "filament_id"

def kUserId : Bytes := ascii "user_id"

def kSetting : Bytes := ascii "setting"

def kPublic : Bytes := ascii "public"

def kCode : Bytes := ascii "code"

/-! ## Times -/

/-- A decimal field of `sscanf` of at most so many characters. -/
def scanField (width : ℕ) (s : Bytes) : Option (ℤ × Bytes) :=
  let s := s.dropWhile CString.isSpace
  let signed := s.head? = some 0x2d ∨ s.head? = some 0x2b
  let rest := if signed then s.tail else s
  let digits := (rest.take (if signed then width - 1 else width)).takeWhile isDigit
  if digits = [] then none
  else
    let n : ℤ := natOf digits
    some (if s.head? = some 0x2d then -n else n, rest.drop digits.length)

def scanLiteral (c : UInt8) (s : Bytes) : Option Bytes :=
  if s.head? = some c then some s.tail else none

/-- `"%4d-%2d-%2d %2d:%2d:%2d"`. -/
def scanIso (s : Bytes) : Option Tm := do
  let y ← scanField 4 s
  let s ← scanLiteral 0x2d y.2
  let mo ← scanField 2 s
  let s ← scanLiteral 0x2d mo.2
  let d ← scanField 2 s
  let h ← scanField 2 (d.2.dropWhile CString.isSpace)
  let s ← scanLiteral 0x3a h.2
  let mi ← scanField 2 s
  let s ← scanLiteral 0x3a mi.2
  let se ← scanField 2 s
  some { year := y.1 - 1900, mon := mo.1 - 1, mday := d.1, hour := h.1, min := mi.1, sec := se.1 }

/-- Seconds since 1970, 0 when that fails. -/
def parseIsoUtc (s : Bytes) : ℤ :=
  match scanIso (s.takeWhile (· ≠ 0)) with
  | none => 0
  | some tm => if timegm tm = -1 then 0 else timegm tm

/-! ## From the cloud -/

/-- A number that `long long` does not hold stays a double. -/
def numberToString (x : Double) : Bytes :=
  match x with
  | .int n => if -2 ^ 63 ≤ n ∧ n < 2 ^ 63 then decimalInt n else x.dump
  | _ => x.dump

def jsonScalarToString (v : Value) : Bytes :=
  match v with
  | .null => []
  | .bool b => if b then ascii "1" else ascii "0"
  | .string s => s
  | .number x => numberToString x
  | .array _ => v.dump
  | .object _ => v.dump

def parseBody (body : Bytes) : Value :=
  match parse body with
  | .ok v => v
  | .error _ => .object []

/-- What is copied of a member of the envelope. -/
def copied (v : Value) : Option Bytes :=
  match v with
  | .string s => some s
  | .number _ => some (decimalInt (v.asInt 0))
  | _ => none

def copyStr (root : Value) (out : SortedMap Bytes Bytes) (key : Bytes) : SortedMap Bytes Bytes :=
  match copied (root.find key) with
  | some text => out.insert key text
  | none => out

/-- The keys that are copied from the envelope. -/
def envelopeKeys : List Bytes := [kName, kType, kVersion, kSettingId, kBaseId, kFilamentId]

def updatedTime (root : Value) : Bytes :=
  let iso := (root.find kUpdateTime).asString
  let iso := if iso = [] then (root.find kUpdatedTime).asString else iso
  let unixTs := parseIsoUtc iso
  decimalInt (if unixTs = 0 then 1 else unixTs)

def fillValuesFromFull (root : Value) (userId : Bytes) : SortedMap Bytes Bytes :=
  let out := envelopeKeys.foldl (copyStr root) ∅
  let setting := root.find kSetting
  let out := if setting.isObject then
      setting.asObject.foldl (fun out e => out.insert e.1 (jsonScalarToString e.2)) out
    else out
  let out := out.insert kUpdatedTime (updatedTime root)
  let out := if out.get? kBaseId = none then out.insert kBaseId [] else out
  if userId = [] then out else out.insert kUserId userId

/-! ## To the cloud -/

def isTop (k : Bytes) : Bool := k = kVersion || k = kType || k = kBaseId

/-- What is not sent as an option. -/
def isSkipped (k : Bytes) : Bool :=
  isTop k || k = kCode || k = kName || k = kSettingId || k = kUserId || k = kPublic

def settingText : Bool → List (Bytes × Bytes) → Bytes
  | _, [] => []
  | first, (k, v) :: es =>
    if isSkipped k then settingText first es
    else
      (if first then [] else [comma]) ++ escape k ++ [colon] ++ escape v ++ settingText false es

def getOr (values : SortedMap Bytes Bytes) (k : Bytes) : Bytes := (values.get? k).getD []

def buildUploadBody (name : Bytes) (values : SortedMap Bytes Bytes) (isCreate : Bool) : Bytes :=
  let bid := getOr values kBaseId
  let typ := getOr values kType
  let ver := getOr values kVersion
  [lbrace] ++
    (if !isCreate && bid ≠ [] then ascii "\"base_id\":" ++ escape bid ++ [comma] else []) ++
    ascii "\"name\":" ++ escape name ++
    (if isCreate then ascii ",\"public\":false" else []) ++
    ascii ",\"setting\":" ++ [lbrace] ++ settingText true values.entries ++ [rbrace] ++
    (if isCreate then
      ascii ",\"type\":" ++ escape typ ++ ascii ",\"version\":" ++ escape ver
    else
      (if typ ≠ [] then ascii ",\"type\":" ++ escape typ else []) ++
        if ver ≠ [] then ascii ",\"version\":" ++ escape ver else []) ++
    (if isCreate && bid ≠ [] then ascii ",\"base_id\":" ++ escape bid else []) ++ [rbrace]

/-! ## What is downloaded -/

variable {root : Value} {userId key : Bytes}

/-- The member of `setting` under a key. -/
def settingMember (root : Value) (key : Bytes) : Option Value :=
  Entries.get? key (root.find kSetting).asObject

theorem get?_copyStr (out : SortedMap Bytes Bytes) (k : Bytes) : (copyStr root out k).get? key =
    if key = k then (copied (root.find k)).or (out.get? key) else out.get? key := by
  rw [copyStr]
  cases copied (root.find k) with
  | none => exact (ite_self _).symm
  | some text =>
    have hget := SortedMap.get?_insert out k key text
    by_cases hk : key = k
    · rw [if_pos hk] at hget ⊢
      exact hget
    · rw [if_neg hk] at hget ⊢
      exact hget

theorem get?_copyStr_of_not_mem {keys : List Bytes} (h : key ∉ keys) (out : SortedMap Bytes Bytes) :
    (keys.foldl (copyStr root) out).get? key = out.get? key := by
  induction keys generalizing out with
  | nil => rfl
  | cons k keys ih =>
    rw [List.mem_cons, not_or] at h
    rw [List.foldl_cons, ih h.2, get?_copyStr, if_neg h.1]

theorem get?_copyStr_of_mem {keys : List Bytes} (h : key ∈ keys) (out : SortedMap Bytes Bytes) :
    (keys.foldl (copyStr root) out).get? key = (copied (root.find key)).or (out.get? key) := by
  induction keys generalizing out with
  | nil => cases h
  | cons k keys ih =>
    rw [List.foldl_cons]
    by_cases hmem : key ∈ keys
    · rw [ih hmem, get?_copyStr]
      split
      · next hk => rw [← hk, ← Option.or_assoc, Option.or_self]
      · rfl
    · have hk : key = k := (List.mem_cons.1 h).resolve_right hmem
      rw [get?_copyStr_of_not_mem hmem, get?_copyStr, if_pos hk, hk]

/-- The parser keeps the members of an object in order. -/
theorem sorted_find (h : root.WF) (hne : key ≠ []) (hkey : ∀ c ∈ key, c ≠ 0x2e ∧ c ≠ 0x5b) :
    Entries.Sorted (root.find key).asObject := by
  have hsorted (v : Value) (hv : v.WF) : Entries.Sorted v.asObject := by
    cases hv with
    | object hes _ => exact hes
    | null | bool | number | string | array => exact List.Pairwise.nil
  rw [find_key hne hkey]
  cases hget : Entries.get? key root.asObject with
  | none => exact List.Pairwise.nil
  | some v =>
    cases h with
    | object _ hall => exact hsorted v (hall _ (Entries.mem_of_get?_eq_some hget))
    | null | bool | number | string | array => cases hget

theorem find_object {es : Object} (hne : key ≠ []) (hkey : ∀ c ∈ key, c ≠ 0x2e ∧ c ≠ 0x5b) :
    (Value.object es).find key = (Entries.get? key es).getD .null := find_key hne hkey _

theorem kSetting_plain : ∀ c ∈ kSetting, c ≠ 0x2e ∧ c ≠ 0x5b :=
  List.all_iff_forall_prop.1 (by decide)

theorem kType_plain : ∀ c ∈ kType, c ≠ 0x2e ∧ c ≠ 0x5b :=
  List.all_iff_forall_prop.1 (by decide)

theorem kVersion_plain : ∀ c ∈ kVersion, c ≠ 0x2e ∧ c ≠ 0x5b :=
  List.all_iff_forall_prop.1 (by decide)

theorem kBaseId_plain : ∀ c ∈ kBaseId, c ≠ 0x2e ∧ c ≠ 0x5b :=
  List.all_iff_forall_prop.1 (by decide)

theorem wf_parseBody (body : Bytes) : (parseBody body).WF := by
  rw [parseBody]
  rcases parse_cases body with ⟨e, he, -⟩ | ⟨v, hv, hwf, -⟩
  · rw [he]
    exact .object .nil fun e he => absurd he List.not_mem_nil
  · rw [hv]
    exact hwf

/-- **What is downloaded under a key**: the option, else what the envelope has. -/
theorem get?_fillValuesFromFull (hroot : root.WF) (htime : key ≠ kUpdatedTime)
    (huser : key ≠ kUserId) : (fillValuesFromFull root userId).get? key =
      (((settingMember root key).map jsonScalarToString).or
        ((envelopeKeys.foldl (copyStr root) ∅).get? key)).or
        (if key = kBaseId then some [] else none) := by
  have hsetting (out : SortedMap Bytes Bytes) : (if (root.find kSetting).isObject then
      (root.find kSetting).asObject.foldl (fun out e => out.insert e.1 (jsonScalarToString e.2)) out
      else out).get? key = ((settingMember root key).map jsonScalarToString).or (out.get? key) := by
    rw [settingMember]
    split
    · exact SortedMap.get?_foldl_insert _ (sorted_find hroot (by decide) kSetting_plain) out key
    · next hobj =>
      cases hfind : root.find kSetting with
      | object es =>
        rw [hfind] at hobj
        exact absurd rfl hobj
      | null | bool | number | string | array => rfl
  have huserId (out : SortedMap Bytes Bytes) :
      (if userId = [] then out else out.insert kUserId userId).get? key = out.get? key := by
    split
    · rfl
    · rw [SortedMap.get?_insert, if_neg huser]
  have hbase (out : SortedMap Bytes Bytes) : (if out.get? kBaseId = none then out.insert kBaseId []
      else out).get? key = (out.get? key).or (if key = kBaseId then some [] else none) := by
    by_cases hk : key = kBaseId
    · subst hk
      cases hout : out.get? kBaseId with
      | none => simp
      | some text => simp [hout]
    · rw [if_neg hk, Option.or_none]
      split
      · rw [SortedMap.get?_insert, if_neg hk]
      · rfl
  rw [fillValuesFromFull, huserId, hbase, SortedMap.get?_insert, if_neg htime, hsetting]

/-! ## The envelope -/

/-- The response has the member, as a string or as an integer, with this value. -/
def EnvelopeText (v : Node) (key text : Bytes) : Prop :=
  (∃ s, v.get? key = some (.string s) ∧ text = s.decoded) ∨
    ∃ n : Number, v.get? key = some (.number n) ∧ n.IsInt ∧ text = decimalInt n.intValue

/-- The parser accepts the response. -/
def Accepted (v : Node) : Prop := v.depth ≤ kMaxNestingDepth ∧ v.Numbers Readable

/-- Nothing in the response stands in the way of the member: an option of that name has its text,
and an integer without one passes through a double and `int64_t`. -/
def Undisturbed (v : Node) (key text : Bytes) : Prop :=
  (∀ w, settingMember (v.value numOf) key = some w → jsonScalarToString w = text) ∧
    (settingMember (v.value numOf) key = none →
      ∀ n : Number, v.get? key = some (.number n) → Double.Held n.intValue)

/-- When a member of the envelope arrives. Of a response that is not accepted nothing does, but a
base that is missing is stored as an empty one. -/
def Arrives (v : Node) (key text : Bytes) : Prop :=
  (Accepted v ∧ Undisturbed v key text) ∨ (¬ Accepted v ∧ key = kBaseId ∧ text = [])

theorem envelope_plain : ∀ key ∈ envelopeKeys, key ≠ kUpdatedTime ∧ key ≠ kUserId :=
  List.all_iff_forall_prop.1 (by decide)

theorem envelope_names : ∀ key ∈ envelopeKeys,
    key ≠ [] ∧ (key.all fun c => decide (c ≠ 0x2e ∧ c ≠ 0x5b)) = true :=
  List.all_iff_forall_prop.1 (by decide)

/-- A member of the response, as the program finds it. -/
theorem find_envelope {v : Node} (hkey : key ∈ envelopeKeys) :
    (v.value numOf).find key = ((v.get? key).map (Node.value numOf)).getD .null := by
  obtain ⟨hne, hplain⟩ := envelope_names key hkey
  refine find_value numOf hne (fun c hc => ?_) v
  exact of_decide_eq_true (List.all_eq_true.1 hplain c hc)

/-- An integer is copied as it is written when a double and `int64_t` hold it. -/
theorem copied_number_iff {n : Number} (hint : n.IsInt) (h : Readable n) :
    copied (.number (numOf n)) = some (decimalInt n.intValue) ↔ Double.Held n.intValue := by
  rw [← toInt64_numOf_iff hint h, copied, Option.some_inj]
  have hasInt : (Value.number (numOf n)).asInt 0 = (numOf n).toInt64.getD 0 := rfl
  rw [hasInt]
  constructor
  · intro heq
    have hvalue := decimalInt_injective heq
    cases hsome : (numOf n).toInt64 with
    | none =>
      -- only for a number that is no integer
      rw [hsome] at hvalue
      have hheld : Double.Held n.intValue :=
        .inl ⟨by rw [← hvalue]; decide, by rw [← hvalue]; decide, by rw [← hvalue]; simp⟩
      rw [(toInt64_numOf_iff hint h).2 hheld] at hsome
      cases hsome
    | some z =>
      rw [hsome] at hvalue
      exact congrArg some hvalue
  · intro heq
    rw [heq]
    rfl

/-- What the envelope has of a member is copied, but for an integer that does not pass. -/
theorem copied_envelope_iff {v : Node} {text : Bytes} (hread : v.Numbers Readable)
    (hkey : key ∈ envelopeKeys) (htext : EnvelopeText v key text) :
    copied ((v.value numOf).find key) = some text ↔
      ∀ n : Number, v.get? key = some (.number n) → Double.Held n.intValue := by
  rw [find_envelope hkey]
  rcases htext with ⟨s, hs, rfl⟩ | ⟨n, hn, hint, rfl⟩
  · rw [hs]
    exact iff_of_true rfl fun n hn => nomatch hn
  · have hreadn : Readable n := Node.numbers_get? hread hn
    rw [hn]
    have hiff := copied_number_iff hint hreadn
    constructor
    · intro h m hm
      obtain rfl : n = m := Node.number.inj (Option.some.inj hm)
      exact hiff.1 h
    · intro h
      exact hiff.2 (h n rfl)

/-- A member that the envelope has is copied as something. -/
theorem copied_isSome {v : Node} {text : Bytes} (hkey : key ∈ envelopeKeys)
    (htext : EnvelopeText v key text) : ∃ t, copied ((v.value numOf).find key) = some t := by
  rw [find_envelope hkey]
  rcases htext with ⟨s, hs, -⟩ | ⟨n, hn, -⟩
  · exact ⟨s.decoded, by rw [hs]; rfl⟩
  · exact ⟨decimalInt ((Value.number (numOf n)).asInt 0), by rw [hn]; rfl⟩

theorem arrives_of_accepted {v : Node} {text : Bytes} (hwf : (v.value numOf).WF)
    (hread : v.Numbers Readable) (hkey : key ∈ envelopeKeys) (htext : EnvelopeText v key text) :
    (fillValuesFromFull (v.value numOf) userId).get? key = some text ↔ Undisturbed v key text := by
  obtain ⟨htime, huser⟩ := envelope_plain key hkey
  have hcopied := copied_envelope_iff hread hkey htext
  obtain ⟨t, ht⟩ := copied_isSome hkey htext
  rw [get?_fillValuesFromFull hwf htime huser, get?_copyStr_of_mem hkey, Undisturbed, ← hcopied, ht]
  cases hmember : settingMember (v.value numOf) key with
  | some w =>
    constructor
    · intro h
      exact ⟨fun w' hw' => Option.some_inj.1 hw' ▸ Option.some_inj.1 h, fun h => by cases h⟩
    · intro h
      exact congrArg some (h.1 w rfl)
  | none =>
    constructor
    · intro h
      exact ⟨fun w hw => (by cases hw), fun _ => h⟩
    · intro h
      exact h.2 rfl

/-- Of a response that is not read only an empty base is there. -/
theorem get?_of_nothing (hkey : key ∈ envelopeKeys) (text : Bytes) :
    (fillValuesFromFull (.object []) userId).get? key = some text ↔ key = kBaseId ∧ text = [] := by
  obtain ⟨htime, huser⟩ := envelope_plain key hkey
  have hwf : (Value.object []).WF := .object .nil fun e he => absurd he List.not_mem_nil
  have hfind {k : Bytes} (hne : k ≠ []) (hplain : ∀ c ∈ k, c ≠ 0x2e ∧ c ≠ 0x5b) :
      (Value.object []).find k = .null := find_object hne hplain
  have hnone : copied ((Value.object []).find key) = none := by
    obtain ⟨hne, hplain⟩ := envelope_names key hkey
    rw [hfind hne fun c hc => of_decide_eq_true (List.all_eq_true.1 hplain c hc)]
    rfl
  have hmember : settingMember (.object []) key = none := by
    rw [settingMember, hfind (by decide) kSetting_plain]
    rfl
  rw [get?_fillValuesFromFull hwf htime huser, get?_copyStr_of_mem hkey, hmember, hnone]
  by_cases hbase : key = kBaseId
  · simp [hbase, eq_comm]
  · simp [hbase]

/-- **When a member of the envelope arrives.** -/
theorem arrives_iff (t : Text) {text : Bytes} (hkey : key ∈ envelopeKeys)
    (htext : EnvelopeText t.node key text) :
    (fillValuesFromFull (parseBody t.bytes) userId).get? key = some text ↔
      Arrives t.node key text := by
  have hwf := wf_parseBody t.bytes
  by_cases hacc : Accepted t.node
  · have hparse : parse t.bytes = .ok (t.node.value numOf) :=
      (parse_eq_ok_iff t _).2 ⟨hacc.1, hacc.2, rfl⟩
    have hbody : parseBody t.bytes = t.node.value numOf := by rw [parseBody, hparse]
    rw [hbody] at hwf ⊢
    rw [arrives_of_accepted hwf hacc.2 hkey htext]
    exact ⟨fun h => .inl ⟨hacc, h⟩, fun h => h.elim And.right fun h => absurd hacc h.1⟩
  · obtain ⟨e, he⟩ := parse_unfit t fun hdepth hnum => hacc ⟨hdepth, hnum⟩
    have hbody : parseBody t.bytes = .object [] := by rw [parseBody, he]
    rw [hbody, get?_of_nothing hkey]
    exact ⟨fun h => .inr ⟨hacc, h⟩, fun h => h.elim (fun h => absurd h.1 hacc) And.right⟩

/-! ## What is uploaded -/

variable {name : Bytes} {values : SortedMap Bytes Bytes} {isCreate : Bool}

def textValue (e : Bytes × Bytes) : Bytes × Value := (e.1, .string e.2)

/-- The options, as an object. -/
def options (values : SortedMap Bytes Bytes) : Object :=
  (values.entries.filter fun e => !isSkipped e.1).map textValue

def entryIf (c : Bool) (k v : Bytes) : Object := if c then [(k, .string v)] else []

/-- The members of the document that is sent, in their order. -/
def uploadEntries (name : Bytes) (values : SortedMap Bytes Bytes) (isCreate : Bool) : Object :=
  let bid := getOr values kBaseId
  let typ := getOr values kType
  let ver := getOr values kVersion
  entryIf (!isCreate && bid ≠ []) kBaseId bid ++ (kName, .string name) ::
    ((if isCreate then [(kPublic, .bool false)] else []) ++ (kSetting, .object (options values)) ::
      (entryIf (isCreate || typ ≠ []) kType typ ++ entryIf (isCreate || ver ≠ []) kVersion ver ++
        entryIf (isCreate && bid ≠ []) kBaseId bid))

theorem settingText_false (es : List (Bytes × Bytes)) : settingText false es =
    ((es.filter fun e => !isSkipped e.1).map textValue).flatMap fun e =>
      comma :: (escape e.1 ++ colon :: e.2.dump) := by
  induction es with
  | nil => rfl
  | cons e es ih =>
    rw [settingText]
    cases hskip : isSkipped e.1 with
    | true => simp [hskip, ih]
    | false => simp [hskip, ih, textValue, Value.dump]

theorem settingText_true (es : List (Bytes × Bytes)) : settingText true es =
    dumpEntries ((es.filter fun e => !isSkipped e.1).map textValue) := by
  induction es with
  | nil => rfl
  | cons e es ih =>
    rw [settingText]
    cases hskip : isSkipped e.1 with
    | true => simp [hskip, ih]
    | false => simp [hskip, settingText_false, textValue, Value.dump, dumpEntries_flatMap]

/-- **What is sent is the document**, printed. -/
theorem buildUploadBody_eq : buildUploadBody name values isCreate =
    (Value.object (uploadEntries name values isCreate)).dump := by
  have hbase : ascii "\"base_id\":" = escape kBaseId ++ [colon] := by decide
  have hname : ascii "\"name\":" = escape kName ++ [colon] := by decide
  have hsetting : ascii ",\"setting\":" = comma :: (escape kSetting ++ [colon]) := by decide
  have hpublic : ascii ",\"public\":false" =
      comma :: (escape kPublic ++ colon :: (Value.bool false).dump) := by decide
  have htype : ascii ",\"type\":" = comma :: (escape kType ++ [colon]) := by decide
  have hversion : ascii ",\"version\":" = comma :: (escape kVersion ++ [colon]) := by decide
  have hbehind : ascii ",\"base_id\":" = comma :: (escape kBaseId ++ [colon]) := by decide
  rw [buildUploadBody, uploadEntries, dump_object]
  simp only [htype, hversion, hbehind, hbase, hname, hsetting, hpublic, settingText_true]
  generalize getOr values kBaseId = bid
  generalize getOr values kType = typ
  generalize getOr values kVersion = ver
  cases isCreate with
  | true =>
    by_cases hbid : bid = []
    · simp [entryIf, hbid, dumpEntries_flatMap, Value.dump, options]
    · simp [entryIf, hbid, dumpEntries_flatMap, Value.dump, options]
  | false =>
    by_cases hbid : bid = [] <;> by_cases htyp : typ = [] <;> by_cases hver : ver = [] <;>
      simp [entryIf, hbid, htyp, hver, dumpEntries_flatMap, Value.dump, options]

theorem sorted_options (values : SortedMap Bytes Bytes) : Entries.Sorted (options values) :=
  List.pairwise_map.2 (values.sorted.filter _)

theorem get?_textValue (k : Bytes) (es : List (Bytes × Bytes)) :
    Entries.get? k (es.map textValue) = (Entries.get? k es).map Value.string := by
  induction es with
  | nil => rfl
  | cons e es ih =>
    have hkey : (textValue e).1 = e.1 := rfl
    rw [List.map_cons, Entries.get?, Entries.get?, ih, hkey]
    by_cases hk : k = e.1
    · rw [if_pos hk, if_pos hk]
      rfl
    · rw [if_neg hk, if_neg hk]

/-- The options are all entries but those that are skipped. -/
theorem get?_options (k : Bytes) : Entries.get? k (options values) =
    if isSkipped k then none else (values.get? k).map Value.string := by
  rw [options, get?_textValue]
  have hfilter : Entries.get? k (values.entries.filter fun e => !isSkipped e.1) =
      if isSkipped k then none else values.get? k := by
    refine Option.ext fun v => ?_
    rw [Entries.get?_eq_some_iff (values.sorted.filter _), List.mem_filter, SortedMap.mem_entries]
    cases isSkipped k <;> simp
  rw [hfilter]
  split <;> rfl

theorem mem_entryIf {c : Bool} {k v : Bytes} {e : Bytes × Value} (h : e ∈ entryIf c k v) :
    e.2 = .string v := by
  rw [entryIf] at h
  split at h
  · rw [List.mem_singleton.1 h]
  · cases h

/-- The values that are sent. -/
theorem mem_uploadEntries {e : Bytes × Value} (h : e ∈ uploadEntries name values isCreate) :
    (∃ s, e.2 = .string s) ∨ e.2 = .bool false ∨ e.2 = .object (options values) := by
  simp only [uploadEntries, List.mem_append, List.mem_cons] at h
  rcases h with h | rfl | h | rfl | (h | h) | h
  · exact .inl ⟨_, mem_entryIf h⟩
  · exact .inl ⟨_, rfl⟩
  · split at h
    · rw [List.mem_singleton.1 h]
      exact .inr (.inl rfl)
    · cases h
  · exact .inr (.inr rfl)
  · exact .inl ⟨_, mem_entryIf h⟩
  · exact .inl ⟨_, mem_entryIf h⟩
  · exact .inl ⟨_, mem_entryIf h⟩

theorem string_of_mem_options {e : Bytes × Value} (h : e ∈ options values) :
    ∃ s, e.2 = .string s := by
  obtain ⟨a, -, rfl⟩ := List.mem_map.1 h
  exact ⟨a.2, rfl⟩

/-- The document is read back. -/
theorem parse_buildUploadBody : parse (buildUploadBody name values isCreate) =
    .ok (.object (Entries.ofList (uploadEntries name values isCreate))) := by
  have hne : uploadEntries name values isCreate ≠ [] :=
    List.append_ne_nil_of_right_ne_nil _ (List.cons_ne_nil _ _)
  have hwf : (Value.object (options values)).WF := by
    refine .object (sorted_options values) fun e he => ?_
    obtain ⟨s, hs⟩ := string_of_mem_options he
    exact hs ▸ .string trivial
  have hint : (Value.object (options values)).IntNumbers := by
    refine .object trivial fun e he => ?_
    obtain ⟨s, hs⟩ := string_of_mem_options he
    exact hs ▸ .string trivial
  have hnode (e : Bytes × Value) (he : e ∈ uploadEntries name values isCreate) :
      ∃ node, Prints e.2 node := by
    rcases mem_uploadEntries he with ⟨s, hs⟩ | hs | hs
    · exact hs ▸ exists_node (.string trivial) (.string trivial)
    · exact hs ▸ exists_node (.bool trivial) (.bool trivial)
    · exact hs ▸ exists_node hwf hint
  have hdepth (e : Bytes × Value) (he : e ∈ uploadEntries name values isCreate) :
      e.2.depth < kMaxNestingDepth := by
    rcases mem_uploadEntries he with ⟨s, hs⟩ | hs | hs
    · exact hs ▸ (by decide : 0 < kMaxNestingDepth)
    · exact hs ▸ (by decide : 0 < kMaxNestingDepth)
    · have hflat : depthEntries (options values) ≤ 0 := by
        refine depthEntries_le_iff.2 fun e he => ?_
        obtain ⟨s, hs⟩ := string_of_mem_options he
        exact hs ▸ le_refl 0
      rw [hs, Value.depth, Nat.le_zero.1 hflat]
      decide
  obtain ⟨t, htext, hparse⟩ := exists_text hne hnode hdepth
  rw [buildUploadBody_eq, ← htext, hparse]

theorem find_upload {key : Bytes} (hne : key ≠ []) (hkey : ∀ c ∈ key, c ≠ 0x2e ∧ c ≠ 0x5b) :
    (Value.object (Entries.ofList (uploadEntries name values isCreate))).find key =
      (Entries.get? key (uploadEntries name values isCreate)).getD .null := by
  rw [find_object hne hkey, Entries.get?_ofList]

theorem get?_uploadEntries :
    Entries.get? kSetting (uploadEntries name values isCreate) = some (.object (options values)) ∧
    Entries.get? kType (uploadEntries name values isCreate) =
      (if isCreate || getOr values kType ≠ [] then some (.string (getOr values kType)) else none) ∧
    Entries.get? kVersion (uploadEntries name values isCreate) =
      (if isCreate || getOr values kVersion ≠ [] then some (.string (getOr values kVersion))
      else none) ∧
    Entries.get? kBaseId (uploadEntries name values isCreate) =
      if getOr values kBaseId ≠ [] then some (.string (getOr values kBaseId)) else none := by
  rw [uploadEntries]
  generalize getOr values kBaseId = bid
  generalize getOr values kType = typ
  generalize getOr values kVersion = ver
  generalize options values = opts
  cases isCreate with
  | true =>
    by_cases hbid : bid = []
    · simp only [entryIf, hbid]
      exact ⟨rfl, rfl, rfl, rfl⟩
    · simp only [entryIf, hbid, ne_eq, not_false_eq_true, decide_true]
      exact ⟨rfl, rfl, rfl, rfl⟩
  | false =>
    by_cases hbid : bid = [] <;> by_cases htyp : typ = [] <;> by_cases hver : ver = [] <;>
      simp only [entryIf, hbid, htyp, hver, ne_eq, not_false_eq_true, not_true_eq_false,
        decide_true, decide_false] <;>
      exact ⟨rfl, rfl, rfl, rfl⟩

/-! ## There and back -/

/-- A key of an option, and none of the keys that the program keeps for itself. -/
def IsOption (k : Bytes) : Prop :=
  k ≠ kCode ∧ k ≠ kName ∧ k ≠ kSettingId ∧ k ≠ kUserId ∧ k ≠ kPublic ∧ k ≠ kUpdatedTime

/-- An update leaves out an empty type or version. -/
def IsSent (isCreate : Bool) (k v : Bytes) : Prop :=
  k = kType ∨ k = kVersion → isCreate = true ∨ v ≠ []

/-- The response has what was sent under the keys that matter. -/
def Returns (root body : Value) : Prop :=
  root.find kSetting = body.find kSetting ∧ root.find kType = body.find kType ∧
    root.find kVersion = body.find kVersion ∧ root.find kBaseId = body.find kBaseId

/-- **What is sent comes back.** -/
theorem download_upload {body : Value} (hroot : root.WF)
    (hbody : parse (buildUploadBody name values isCreate) = .ok body) (hreturns : Returns root body)
    (hoption : IsOption key) {text : Bytes} (hvalue : values.get? key = some text)
    (hsent : IsSent isCreate key text) :
    (fillValuesFromFull root userId).get? key = some text := by
  rw [parse_buildUploadBody] at hbody
  cases hbody
  obtain ⟨hsetting, htype, hversion, hbase⟩ := hreturns
  obtain ⟨gsetting, gtype, gversion, gbase⟩ : _ ∧ _ ∧ _ ∧ _ :=
    @get?_uploadEntries name values isCreate
  rw [find_upload (by decide) kSetting_plain, gsetting] at hsetting
  rw [find_upload (by decide) kType_plain, gtype] at htype
  rw [find_upload (by decide) kVersion_plain, gversion] at hversion
  rw [find_upload (by decide) kBaseId_plain, gbase] at hbase
  obtain ⟨hcode, hname, hid, huser, hpublic, htime⟩ := hoption
  have hmember : settingMember root key = Entries.get? key (options values) := by
    rw [settingMember, hsetting]
    rfl
  have hgetOr (k : Bytes) (hk : key = k) : getOr values k = text := by
    rw [getOr, ← hk, hvalue]
    rfl
  rw [get?_fillValuesFromFull hroot htime huser, hmember, get?_options]
  cases hskip : isSkipped key with
  | false => simp [hvalue, jsonScalarToString]
  | true =>
    have htop : key = kVersion ∨ key = kType ∨ key = kBaseId := by
      simpa [isSkipped, isTop, hcode, hname, hid, huser, hpublic, or_assoc] using hskip
    rcases htop with rfl | rfl | rfl
    · rw [hgetOr _ rfl, if_pos (by simpa using hsent (.inr rfl))] at hversion
      rw [get?_copyStr_of_mem (by decide), hversion]
      rfl
    · rw [hgetOr _ rfl, if_pos (by simpa using hsent (.inl rfl))] at htype
      rw [get?_copyStr_of_mem (by decide), htype]
      rfl
    · rw [hgetOr _ rfl] at hbase
      rw [get?_copyStr_of_mem (by decide), hbase]
      by_cases htext : text = []
      · rw [htext]
        rfl
      · rw [if_pos htext]
        rfl

/-- **Presets in the cloud.** -/
theorem presets_roundTrip (response : Text) :
    (∀ (userId key text : Bytes), key ∈ envelopeKeys → EnvelopeText response.node key text →
      ((fillValuesFromFull (parseBody response.bytes) userId).get? key = some text ↔
        Arrives response.node key text)) ∧
    ∀ (name : Bytes) (values : SortedMap Bytes Bytes) (isCreate : Bool), ∃ body,
      parse (buildUploadBody name values isCreate) = .ok body ∧
      ∀ (root : Value) (userId key text : Bytes), root.WF → Returns root body → IsOption key →
        values.get? key = some text → IsSent isCreate key text →
        (fillValuesFromFull root userId).get? key = some text := by
  refine ⟨fun userId key text hkey htext => arrives_iff response hkey htext,
    fun name values isCreate => ⟨_, parse_buildUploadBody, ?_⟩⟩
  intro root userId key text hroot hreturns hoption hvalue hsent
  exact download_upload hroot parse_buildUploadBody hreturns hoption hvalue hsent

/-- A response whose options have another name. -/
noncomputable def renamed : Text :=
  ⟨.none, .object (.ofFields (strOf kName, .string (strOf (ascii "A")))
    [(strOf kSetting, .object (.ofFields (strOf kName, .string (strOf (ascii "B"))) []))]), .none⟩

theorem renamed_bytes : renamed.bytes =
    [lbrace] ++ ascii "\"name\":\"A\",\"setting\":" ++ [lbrace] ++ ascii "\"name\":\"B\"" ++
      [rbrace, rbrace] := by
  have hname : escape kName = ascii "\"name\"" := by decide
  have hsetting : escape kSetting = ascii "\"setting\"" := by decide
  have hA : escape (ascii "A") = ascii "\"A\"" := by decide
  have hB : escape (ascii "B") = ascii "\"B\"" := by decide
  rw [renamed, Text.bytes, Node.text, Members.text_ofFields]
  simp only [Field.text, Node.text, Members.text_ofFields, text_strOf, List.flatMap_cons,
    List.flatMap_nil, hname, hsetting, hA, hB, Ws.none]
  rfl

theorem parseBody_renamed : parseBody renamed.bytes =
    .object [(kName, .string (ascii "A")), (kSetting, .object [(kName, .string (ascii "B"))])] := by
  rw [renamed_bytes]
  rfl

theorem envelopeText_renamed : EnvelopeText renamed.node kName (ascii "A") := by
  refine .inl ⟨strOf (ascii "A"), ?_, (decoded_strOf _).symm⟩
  simp [renamed, Node.get?, Members.ofFields, Members.get?]

/-- The options replace the envelope. -/
theorem fillValuesFromFull_renamed : EnvelopeText renamed.node kName (ascii "A") ∧
    (fillValuesFromFull (parseBody renamed.bytes) []).get? kName = some (ascii "B") ∧
    ¬ ∀ (response : Text) (userId key text : Bytes), key ∈ envelopeKeys →
      EnvelopeText response.node key text →
      (fillValuesFromFull (parseBody response.bytes) userId).get? key = some text := by
  refine ⟨envelopeText_renamed, by rw [parseBody_renamed]; rfl, fun h => ?_⟩
  have hname := h renamed [] kName (ascii "A") (by decide) envelopeText_renamed
  rw [parseBody_renamed] at hname
  exact absurd hname (by decide +kernel)

end BambooNet.Cloud
