import BambooNet.Json.RoundTrip
import BambooNet.Json.TooDeep
import BambooNet.Json.Unambiguous
import BambooNet.Lib.JsonNesting
import BambooNet.Lib.Search

/-!
# Filtering a code out of a report

The filter looks for the text of the key `hms` with an array after it, finds the end of the array by
counting brackets, and puts the array back with the elements of a code left out. The end is always
right (`matchingArrayEnd_text`), and what is printed denotes what is kept.

**Which array.** The search stops at the first key whose text ends with the quoted name, which may
be the end of a longer key with an escaped quote, and it does not know a name that is written with
escapes. So the filter is right exactly when it comes to the frame's array and can read it, or has
nothing to do (`tryFilterHmsCode_iff`).
-/

namespace BambooNet.Agent

open Json JsonSyntax

/-! ## The filter -/

def kKey : Bytes := ascii "\"hms\""

/-- The array that follows a key, when a colon and an array do. -/
def arrayAfter (p : Bytes) : Option Bytes :=
  match skipWs p with
  | [] => none
  | c :: p => if c = colon ∧ (skipWs p).head? = some lbracket then some (skipWs p) else none

theorem length_lt_of_findFirst {p a q : Bytes} (h : findFirst kKey p = some (a, q)) :
    q.length < p.length := by
  have hkey : 0 < kKey.length := Nat.succ_pos 4
  exact Nat.lt_of_lt_of_le (Nat.lt_add_of_pos_left hkey) (length_of_findFirst h)

/-- The text from the first array that follows the key. -/
def findHms (p : Bytes) : Option Bytes :=
  match _ : findFirst kKey p with
  | none => none
  | some (_, q) =>
    match arrayAfter q with
    | some q => some q
    | none => findHms q
termination_by p.length
decreasing_by
  rename_i hfind
  exact length_lt_of_findFirst hfind

/-- The loop of `matching_array_end`. It returns how much of the text is passed. -/
def arrayEnd (depth : ℕ) (inStr esc : Bool) : Bytes → Option ℕ
  | [] => none
  | c :: p =>
    if inStr then
      if esc then (arrayEnd depth true false p).map (· + 1)
      else if c = backslash then (arrayEnd depth true true p).map (· + 1)
      else (arrayEnd depth (c ≠ quote) false p).map (· + 1)
    else if c = quote then (arrayEnd depth true false p).map (· + 1)
    else if c = lbracket then (arrayEnd (depth + 1) false false p).map (· + 1)
    else if c = rbracket then
      if depth = 0 then none
      else if depth = 1 then some 1
      else (arrayEnd (depth - 1) false false p).map (· + 1)
    else (arrayEnd depth false false p).map (· + 1)

/-- The length of the array that the text begins with. -/
def matchingArrayEnd (s : Bytes) : Option ℕ :=
  if s.head? = some lbracket then arrayEnd 0 false false s else none

def hasCode (targetCode : ℤ) (item : Value) : Bool :=
  item.isObject && (item.find (ascii "code")).isNumber &&
    (item.find (ascii "code")).asInt 0 == targetCode

/-- Whether the payload was changed, and the payload afterwards. -/
def tryFilterHmsCode (targetCode : ℤ) (payload : Bytes) : Bool × Bytes :=
  match findHms payload with
  | none => (false, payload)
  | some p =>
    match matchingArrayEnd p with
    | none => (false, payload)
    | some n =>
      match parse (p.take n) with
      | .ok (.array items) =>
        if items.any (hasCode targetCode) then
          let kept := items.filter fun item => !hasCode targetCode item
          (true, payload.take (payload.length - p.length) ++ (Value.array kept).dump ++ p.drop n)
        else (false, payload)
      | _ => (false, payload)

/-! ## The search in a frame -/

theorem findHms_none {p : Bytes} (h : findFirst kKey p = none) : findHms p = none := by
  rw [findHms]
  split
  · rfl
  · next heq => rw [h] at heq; cases heq

theorem findHms_some {p a q : Bytes} (h : findFirst kKey p = some (a, q)) :
    findHms p = (arrayAfter q).or (findHms q) := by
  rw [findHms]
  split
  · next heq => rw [h] at heq; cases heq
  · next heq =>
    rw [h] at heq
    obtain ⟨rfl, rfl⟩ := Prod.mk.inj (Option.some.inj heq)
    cases arrayAfter q <;> rfl

theorem hms_letters : ∀ c ∈ ascii "hms", 0x61 ≤ c ∧ c ≤ 0x7a :=
  List.all_iff_forall_prop.1 (by decide)

def hmsName : Name := ⟨ascii "hms", hms_letters, List.cons_ne_nil _ _⟩

theorem quoted_hmsName : hmsName.quoted = kKey := rfl

def isArray : Node → Bool
  | .emptyArray _ | .array _ => true
  | _ => false

theorem head_isArray (v : Node) (p : Bytes) :
    (v.text ++ p).head? = some lbracket ↔ isArray v = true := by
  obtain ⟨c, t, hv, hc⟩ := kind_head v
  have hkind : c = lbracket ↔ kind v = .array := by
    rw [← hc]
    constructor
    · rintro rfl
      rfl
    · intro h
      unfold Kind.of at h
      split at h; · cases h
      split at h; · cases h
      split at h; · cases h
      split at h; · cases h
      split at h
      · assumption
      · split at h <;> cases h
  rw [hv, List.cons_append, List.head?_cons, Option.some_inj, hkind]
  cases v with
  | bool b => cases b <;> decide
  | null | number | string | emptyArray | array | emptyObject | object => simp [kind, isArray]

theorem findHms_step (c : UInt8) (p : Bytes) (h : ¬ hmsName.quoted <+: c :: p) :
    findHms (c :: p) = findHms p := by
  have hcons : findFirst kKey (c :: p) = (findFirst kKey p).map fun r => (c :: r.1, r.2) := by
    rw [findFirst, if_neg (quoted_hmsName ▸ h)]
  cases hp : findFirst kKey p with
  | none =>
    rw [hp] at hcons
    rw [findHms_none hcons, findHms_none hp]
  | some r =>
    rw [hp] at hcons
    rw [findHms_some hcons, findHms_some hp]

theorem findHms_key (q : Bytes) : findHms (kKey ++ q) = (arrayAfter q).or (findHms q) := by
  have hfirst : findFirst kKey (kKey ++ q) = some ([], q) := by
    rw [show kKey ++ q = quote :: (ascii "hms\"" ++ q) from rfl, findFirst,
      if_pos ⟨q, rfl⟩]
    rfl
  exact findHms_some hfirst

theorem findHms_plain {t : Bytes} (ht : quote ∉ t) (q : Bytes) :
    findHms (t ++ q) = findHms q := by
  induction t with
  | nil => rfl
  | cons c t ih =>
    obtain ⟨hc, ht⟩ := not_or.1 (mt List.mem_cons.2 ht)
    have hmiss : ¬ hmsName.quoted <+: c :: (t ++ q) := by
      rintro ⟨r, hr⟩
      exact hc (List.cons.inj hr).1
    rw [List.cons_append, findHms_step c _ hmiss, ih ht]

/-- What comes after a value is no array of a key. -/
theorem arrayAfter_follows {q : Bytes} (hq : Follows q) : arrayAfter q = none := by
  obtain ⟨ws, r, rfl, hr⟩ := hq
  cases r with
  | nil =>
    rw [arrayAfter, skipWs_ws]
    rfl
  | cons c r =>
    have hc : isWs c = false ∧ c ≠ colon := by
      rcases hr c rfl with rfl | rfl | rfl <;> decide
    rw [arrayAfter, skipWs_ws, skipWs_cons hc.1]
    exact if_neg fun h => hc.2 h.1

theorem arrayAfter_colon (after lead : Ws) (v : Node) (q : Bytes) :
    arrayAfter (after.bytes ++ colon :: (lead.bytes ++ (v.text ++ q))) =
      if isArray v then some (v.text ++ q) else none := by
  obtain ⟨c, t, hv, hc⟩ := node_head v
  have hskip : skipWs (lead.bytes ++ (v.text ++ q)) = v.text ++ q := by
    rw [skipWs_ws, hv]
    exact skipWs_cons hc.1 _
  rw [arrayAfter, skipWs_colon]
  dsimp only
  rw [hskip]
  simp only [true_and, head_isArray]

theorem findHms_colon (after lead : Ws) (v : Node) (q : Bytes) (_ : Follows q) :
    findHms (hmsName.quoted ++ (after.bytes ++ colon :: (lead.bytes ++ (v.text ++ q)))) =
      if isArray v then some (v.text ++ q) else findHms (v.text ++ q) := by
  have hcolon : quote ∉ after.bytes ++ colon :: lead.bytes := by
    rw [List.mem_append, List.mem_cons]
    rintro (h | h | h)
    · exact after.quote_notMem h
    · exact absurd h (by decide)
    · exact lead.quote_notMem h
  have hpass := findHms_plain hcolon (v.text ++ q)
  rw [List.append_assoc, List.cons_append] at hpass
  rw [quoted_hmsName, findHms_key, arrayAfter_colon, hpass]
  split <;> rfl

/-- The search for the key, with an array after it. -/
def hmsSearch : KeySearch hmsName where
  scan := findHms
  picks _ _ v := isArray v
  result _ p := p
  step := findHms_step
  skip q hq := by rw [quoted_hmsName, findHms_key, arrayAfter_follows hq]; rfl
  key := findHms_colon

/-! ## The array -/

theorem arrayEnd_pass (d : ℕ) (c : UInt8) (p : Bytes) (hquote : c ≠ quote) (ho : c ≠ lbracket)
    (hc : c ≠ rbracket) : arrayEnd d false false (c :: p) =
      (arrayEnd d false false p).map (· + 1) := by
  rw [arrayEnd, if_neg (by decide), if_neg hquote, if_neg ho, if_neg hc]

theorem arrayEnd_stay (d : ℕ) (c : UInt8) (p : Bytes) (hquote : c ≠ quote)
    (hbackslash : c ≠ backslash) : arrayEnd d true false (c :: p) =
      (arrayEnd d true false p).map (· + 1) := by
  rw [arrayEnd, if_pos rfl, if_neg (by decide), if_neg hbackslash, decide_eq_true hquote]

theorem arrayEnd_closes (d : ℕ) (p : Bytes) : arrayEnd (d + 2) false false (rbracket :: p) =
    (arrayEnd (d + 1) false false p).map (· + 1) := by
  rw [arrayEnd, if_neg (by decide), if_neg (by decide), if_neg (by decide), if_pos rfl,
    if_neg (by omega), if_neg (by omega)]
  rfl

/-- The scan for the end of an array. -/
def arrayScan : NestScan where
  opening := lbracket
  closing := rbracket
  pair := .inl ⟨rfl, rfl⟩
  scan := arrayEnd
  escaped _ _ _ := rfl
  backslash _ _ := rfl
  leave _ _ := rfl
  stay := arrayEnd_stay
  enter _ _ := rfl
  opens _ _ := rfl
  closes := arrayEnd_closes
  ends _ := rfl
  pass := arrayEnd_pass

/-- **The end of the array is found.** -/
theorem matchingArrayEnd_text {v : Node} (hv : isArray v = true) (p : Bytes) :
    matchingArrayEnd (v.text ++ p) = some v.text.length := by
  have hends {t : Bytes} (ht : arrayScan.Balanced t) :
      arrayEnd 0 false false (lbracket :: (t ++ [rbracket]) ++ p) =
        some (lbracket :: (t ++ [rbracket])).length := by
    have h := NestScan.scan_brackets ht p
    rw [List.cons_append, List.append_assoc]
    exact h.trans (by simp)
  rw [matchingArrayEnd, if_pos ((head_isArray v p).2 hv)]
  match v with
  | .emptyArray ws => exact hends (NestScan.balanced_ws ws)
  | .array es => exact hends (NestScan.balanced_elements es)

/-- The element is an object whose code is the number. -/
def codeIs (targetCode : ℤ) (item : Value) : Bool :=
  match Entries.get? (ascii "code") item.asObject with
  | some (.number x) => x = .int targetCode
  | _ => false

theorem find_code (es : Object) :
    (Value.object es).find (ascii "code") = (Entries.get? (ascii "code") es).getD .null :=
  Value.find_key (by decide) (List.all_iff_forall_prop.1 (by decide)) _

theorem toInt64_small {n : ℤ} (h : n.natAbs ≤ 2 ^ 53) : (Double.int n).toInt64 = some n := by
  rw [Double.toInt64, if_neg (by omega), if_neg (by omega)]

/-- Codes up to `2 ^ 53` are compared exactly. -/
theorem hasCode_eq {item : Value} (h : Tame item) (targetCode : ℤ) :
    hasCode targetCode item = codeIs targetCode item := by
  cases item with
  | object es =>
    rw [hasCode, codeIs, find_code, Value.asObject]
    cases hcode : Entries.get? (ascii "code") es with
    | none => rfl
    | some v =>
      cases v with
      | number x =>
        obtain ⟨-, hint⟩ := h
        cases hint with
        | object _ hint =>
        cases hint _ (Entries.mem_of_get?_eq_some hcode) with
        | number hx =>
        obtain ⟨n, rfl, hn⟩ := hx
        simp only [Value.isObject, Value.isNumber, Option.getD_some, Value.asInt, toInt64_small hn,
          Bool.and_self, Bool.true_and, Double.int.injEq, beq_eq_decide]
      | null | bool | string | array | object => rfl
  | null | bool | number | string | array => rfl

/-! ## What the filter does to a frame -/

/-- The elements of an array, numbers being integers. -/
def items (v : Node) : List Value := (v.value intOf).asArray

theorem value_of_isArray {v : Node} (hv : isArray v = true) :
    v.value intOf = .array (items v) := by
  match v with
  | .emptyArray _ | .array _ => rfl

theorem tame_items {v : Node} (h : v.Numbers SmallInt) : ∀ item ∈ items v, Tame item := by
  intro item hitem
  match v with
  | .array es => exact tame_values es h item hitem
  | .null | .bool _ | .number _ | .string _ | .emptyArray _ | .emptyObject _ | .object _ =>
    cases hitem

/-- The elements that stay. -/
def kept (targetCode : ℤ) (v : Node) : List Value :=
  (items v).filter fun item => !codeIs targetCode item

/-- An element of the code is in the array. -/
def hasTarget (targetCode : ℤ) (v : Node) : Bool := (items v).any (codeIs targetCode)

theorem parse_array {v : Node} (hv : isArray v = true) (hnum : v.Numbers SmallInt)
    (hdepth : v.depth ≤ kMaxNestingDepth) : parse v.text = .ok (.array (items v)) := by
  have hparse := parse_total.1 ⟨.none, v, .none⟩ hdepth hnum
  rw [← value_of_isArray hv, ← hparse]
  simp [Text.bytes, Ws.none]

theorem parse_array_deep {v : Node} (hdepth : kMaxNestingDepth < v.depth) :
    ∃ e, parse v.text = .error e := by
  obtain ⟨e, he⟩ := parse_deep ⟨.none, v, .none⟩ hdepth
  exact ⟨e, by simpa [Text.bytes, Ws.none] using he⟩

theorem findHms_bytes (t : Text) :
    findHms t.bytes = (t.node.first hmsSearch.Picks).map fun f =>
      f.value.text ++ (f.rest ++ t.after.bytes) :=
  hmsSearch.scan_text t (findHms_none rfl)

theorem tryFilterHmsCode_none {t : Text} (h : t.node.first hmsSearch.Picks = none)
    (targetCode : ℤ) : tryFilterHmsCode targetCode t.bytes = (false, t.bytes) := by
  rw [tryFilterHmsCode, findHms_bytes, h]
  rfl

/-- **What the filter does** where it finds an array. -/
theorem tryFilterHmsCode_some {t : Text} {f : t.node.Found}
    (h : t.node.first hmsSearch.Picks = some f) (hnum : f.value.Numbers SmallInt)
    (targetCode : ℤ) :
    tryFilterHmsCode targetCode t.bytes =
      if f.value.depth ≤ kMaxNestingDepth ∧ hasTarget targetCode f.value = true then
        (true, t.before.bytes ++ f.before ++ (Value.array (kept targetCode f.value)).dump ++
          (f.rest ++ t.after.bytes))
      else (false, t.bytes) := by
  obtain ⟨key, after, hpicks⟩ := Node.first_spec h
  have hv : isArray f.value = true := (Bool.and_eq_true_iff.1 hpicks).2
  have hany : (items f.value).any (hasCode targetCode) = hasTarget targetCode f.value := by
    rw [hasTarget, Bool.eq_iff_iff, List.any_eq_true, List.any_eq_true]
    exact exists_congr fun item => and_congr_right fun hitem => by
      rw [hasCode_eq (tame_items hnum item hitem)]
  have hfilter : (items f.value).filter (fun item => !hasCode targetCode item) =
      kept targetCode f.value :=
    List.filter_congr fun item hitem => by rw [hasCode_eq (tame_items hnum item hitem)]
  rw [tryFilterHmsCode, findHms_bytes, h]
  dsimp only [Option.map_some]
  rw [matchingArrayEnd_text hv]
  dsimp only
  rw [List.take_left, List.drop_left]
  by_cases hdepth : f.value.depth ≤ kMaxNestingDepth
  · rw [parse_array hv hnum hdepth]
    dsimp only
    rw [hany, hfilter]
    have htake : t.bytes.take (t.bytes.length -
        (f.value.text ++ (f.rest ++ t.after.bytes)).length) = t.before.bytes ++ f.before := by
      rw [t.bytes_found f, List.length_append, Nat.add_sub_cancel, List.take_left]
    rw [htake]
    simp only [hdepth, true_and]
  · obtain ⟨e, he⟩ := parse_array_deep (Nat.lt_of_not_le hdepth)
    rw [he, if_neg fun hc => hdepth hc.1]

/-! ## What the filter is for -/

/-- The frame's array of the codes. -/
def isHms (key : Str) (_ _ : Ws) (v : Node) : Bool := key.decoded == ascii "hms" && isArray v

/-- The payload is a JSON text of the frame in which the elements of the code are left out of the
first array that is called `hms`, and the filter says whether there were such elements. -/
def Filtered (targetCode : ℤ) (t : Text) (r : Bool × Bytes) : Prop :=
  ∃ u : Text, u.bytes = r.2 ∧
    match t.node.first isHms with
    | none => r.1 = false ∧ u.node.doc = t.node.doc
    | some f => r.1 = hasTarget targetCode f.value ∧
      ∃ w, w.value intOf = .array (kept targetCode f.value) ∧ u.node.doc = (f.plug w).doc

/-- The search comes to the array, and the parser reads it; where it comes to another array there
is nothing to do. -/
structure Reached (targetCode : ℤ) (t : Text) : Prop where
  found : ∀ f, t.node.first isHms = some f → hasTarget targetCode f.value = true →
    t.node.first hmsSearch.Picks = some f ∧ f.value.depth ≤ kMaxNestingDepth
  only : ∀ f, t.node.first hmsSearch.Picks = some f → f.value.depth ≤ kMaxNestingDepth →
    hasTarget targetCode f.value = true → t.node.first isHms = some f

theorem length_values (es : Elements) : (es.values intOf).length = es.docs.length := by
  cases es with
  | last => rfl
  | cons _ _ _ rest => exact congrArg (· + 1) (length_values rest)

theorem size_of_array {v : Node} {vs : List Value} (h : v.value intOf = .array vs) :
    v.doc.size = vs.length := by
  match v with
  | .emptyArray _ =>
    obtain rfl := Value.array.inj h
    rfl
  | .array es =>
    obtain rfl := Value.array.inj h
    exact (length_values es).symm
  | .null | .bool _ | .number _ | .string _ | .emptyObject _ | .object _ => cases h

/-- Without the elements of the code the array is smaller. -/
theorem size_ne_of_kept {targetCode : ℤ} {v w : Node} (hv : isArray v = true)
    (hw : w.value intOf = .array (kept targetCode v)) (h : hasTarget targetCode v = true) :
    w.doc.size ≠ v.doc.size := by
  rw [size_of_array hw, size_of_array (value_of_isArray hv)]
  obtain ⟨item, hitem, hcode⟩ := List.any_eq_true.1 h
  exact (List.length_filter_lt_length_iff_exists.2 ⟨item, hitem, by simp [hcode]⟩).ne

theorem kept_eq_items {targetCode : ℤ} {v : Node} (h : hasTarget targetCode v = false) :
    kept targetCode v = items v := by
  refine List.filter_eq_self.2 fun item hitem => ?_
  rw [Bool.not_eq_true', Bool.eq_false_iff]
  intro hcode
  exact Bool.eq_false_iff.1 h (List.any_eq_true.2 ⟨item, hitem, hcode⟩)

theorem isArray_of_isHms {v : Node} {f : v.Found} (h : v.first isHms = some f) :
    isArray f.value = true := by
  obtain ⟨key, after, hkey⟩ := Node.first_spec h
  exact (Bool.and_eq_true_iff.1 hkey).2

theorem isArray_of_picks {v : Node} {f : v.Found} (h : v.first hmsSearch.Picks = some f) :
    isArray f.value = true := by
  obtain ⟨key, after, hkey⟩ := Node.first_spec h
  exact (Bool.and_eq_true_iff.1 hkey).2

/-- The text of what is kept. -/
theorem exists_kept {v : Node} (hnum : v.Numbers SmallInt) (targetCode : ℤ) :
    ∃ w : Node, w.text = (Value.array (kept targetCode v)).dump ∧
      w.value intOf = .array (kept targetCode v) := by
  have htame : ∀ item ∈ kept targetCode v, Tame item := fun item hitem =>
    tame_items hnum item (List.mem_of_mem_filter hitem)
  obtain ⟨w, hw⟩ := exists_node (.array trivial fun item hitem => (htame item hitem).1)
    (.array trivial fun item hitem => (htame item hitem).2)
  exact ⟨w, hw.text, hw.value⟩

/-- The numbers in the arrays that are called `hms`, and in the one the search comes to, are
integers up to `2 ^ 53`. -/
def IntArrays (t : Text) : Prop :=
  ∀ f, t.node.first isHms = some f ∨ t.node.first hmsSearch.Picks = some f →
    f.value.Numbers SmallInt

/-- A frame that is left alone is filtered when there is nothing to do. -/
theorem filtered_unchanged_iff (targetCode : ℤ) (t : Text) :
    Filtered targetCode t (false, t.bytes) ↔
      ∀ f, t.node.first isHms = some f → hasTarget targetCode f.value = false := by
  unfold Filtered
  cases h : t.node.first isHms with
  | none => exact iff_of_true ⟨t, rfl, rfl, rfl⟩ (by simp)
  | some f =>
    constructor
    · rintro ⟨u, -, hflag, -⟩ f' hf'
      obtain rfl := Option.some.inj hf'
      exact hflag.symm
    · intro hnone
      have hflag := hnone f rfl
      refine ⟨t, rfl, hflag.symm, f.value, ?_, congrArg Node.doc f.plug_value.symm⟩
      rw [kept_eq_items hflag, value_of_isArray (isArray_of_isHms h)]

/-- A frame whose array under the search was filtered, when this was the right one. -/
theorem filtered_changed_iff {targetCode : ℤ} {t : Text} {f : t.node.Found}
    (hfirst : t.node.first hmsSearch.Picks = some f)
    (htarget : hasTarget targetCode f.value = true) (hnum : f.value.Numbers SmallInt) :
    Filtered targetCode t (true, t.before.bytes ++ f.before ++
      (Value.array (kept targetCode f.value)).dump ++ (f.rest ++ t.after.bytes)) ↔
      t.node.first isHms = some f := by
  obtain ⟨w, htext, hw⟩ := exists_kept hnum targetCode
  have hbytes : (t.set f w).bytes = t.before.bytes ++ f.before ++
      (Value.array (kept targetCode f.value)).dump ++ (f.rest ++ t.after.bytes) := by
    rw [t.bytes_set, htext]
    simp only [List.append_assoc]
  rw [← hbytes]
  unfold Filtered
  constructor
  · rintro ⟨u, hu, hspec⟩
    cases hfound : t.node.first isHms with
    | none =>
      rw [hfound] at hspec
      exact absurd hspec.1 (by simp)
    | some g =>
      rw [hfound] at hspec
      obtain ⟨hflag, w', hw', hdoc⟩ := hspec
      -- Both arrays get smaller, so it is one array.
      have hsame : (f.plug w).doc = (g.plug w').doc := (doc_eq_of_bytes hu).symm.trans hdoc
      have hsize := size_ne_of_kept (isArray_of_picks hfirst) hw htarget
      have hsize' := size_ne_of_kept (isArray_of_isHms hfound) hw' hflag.symm
      exact congrArg some (Node.first_same hfound hfirst hsize' hsize hsame.symm)
  · intro hfound
    rw [hfound]
    exact ⟨t.set f w, rfl, htarget.symm, w, hw, rfl⟩

/-- **The filter is right exactly when it reaches the frame's array.** Of several members that are
called `hms` the first in the order of the text whose value is an array is meant. -/
theorem tryFilterHmsCode_iff (targetCode : ℤ) (t : Text) (hnum : IntArrays t) :
    Filtered targetCode t (tryFilterHmsCode targetCode t.bytes) ↔ Reached targetCode t := by
  cases hfirst : t.node.first hmsSearch.Picks with
  | none =>
    rw [tryFilterHmsCode_none hfirst, filtered_unchanged_iff]
    constructor
    · intro h
      exact ⟨fun f hf htarget => absurd htarget (by simp [h f hf]),
        fun f hf => absurd (hfirst.symm.trans hf) (by simp)⟩
    · intro h f hf
      refine Bool.eq_false_of_not_eq_true fun htarget => ?_
      exact absurd (hfirst.symm.trans (h.found f hf htarget).1) (by simp)
  | some f =>
    rw [tryFilterHmsCode_some hfirst (hnum f (.inr hfirst))]
    split
    · next hedits =>
      obtain ⟨hdepth, htarget⟩ := hedits
      rw [filtered_changed_iff hfirst htarget (hnum f (.inr hfirst))]
      constructor
      · intro hfound
        refine ⟨fun g hg _ => ?_, fun g hg _ _ => ?_⟩
        · obtain rfl := Option.some.inj (hfound.symm.trans hg)
          exact ⟨hfirst, hdepth⟩
        · obtain rfl := Option.some.inj (hfirst.symm.trans hg)
          exact hfound
      · exact fun h => h.only f hfirst hdepth htarget
    · next hedits =>
      rw [filtered_unchanged_iff]
      constructor
      · intro h
        refine ⟨fun g hg htarget => absurd htarget (by simp [h g hg]),
          fun g hg hdepth htarget => ?_⟩
        obtain rfl := Option.some.inj (hfirst.symm.trans hg)
        exact absurd ⟨hdepth, htarget⟩ hedits
      · intro h g hg
        refine Bool.eq_false_of_not_eq_true fun htarget => hedits ?_
        obtain ⟨hg', hdepth⟩ := h.found g hg htarget
        obtain rfl := Option.some.inj (hfirst.symm.trans hg')
        exact ⟨hdepth, htarget⟩

def hmsKey : Str :=
  ⟨[.raw 0x68 (by decide), .raw 0x6d (by decide), .raw 0x73 (by decide)],
    .cons_cons trivial (.cons_cons trivial (.singleton _))⟩

def codeKey : Str :=
  ⟨[.raw 0x63 (by decide), .raw 0x6f (by decide), .raw 0x64 (by decide), .raw 0x65 (by decide)],
    .cons_cons trivial (.cons_cons trivial (.cons_cons trivial (.singleton _)))⟩

/-- `[{"code":7}]`. -/
def sevenArray : Node :=
  .array (.last .none (.object (.last .none codeKey .none .none (.number (.ofInt 7)) .none)) .none)

/-- `{"hms":[{"code":7}]}`. -/
def sevenFrame : Text :=
  ⟨.none, .object (.last .none hmsKey .none .none sevenArray .none), .none⟩

theorem tryFilterHmsCode_iff_seven :
    Filtered 7 sevenFrame (tryFilterHmsCode 7 sevenFrame.bytes) ↔ Reached 7 sevenFrame := by
  refine tryFilterHmsCode_iff 7 sevenFrame fun f hf => ?_
  have hvalue : f.value = sevenArray := by
    rcases hf with hf | hf
    · obtain rfl := Option.some.inj hf
      rfl
    · obtain rfl := Option.some.inj hf
      rfl
  rw [hvalue]
  exact ⟨Number.isInt_ofInt 7, by decide⟩

/-- `{"\"hms":[],"hms":[{"code":7}]}`. -/
def escapedFrame : Text :=
  let key : Str :=
    ⟨.short (0x22, 0x22) (by decide) :: hmsKey.chars, .cons_cons trivial hmsKey.apart⟩
  ⟨.none, .object (.cons .none key .none .none (.emptyArray .none) .none
    (.last .none hmsKey .none .none sevenArray .none)), .none⟩

/-- A key that ends with an escaped quote and the name hides the array. -/
theorem escaped_key_not_filtered :
    ¬ Filtered 7 escapedFrame (tryFilterHmsCode 7 escapedFrame.bytes) := by
  obtain ⟨f, hf, hvalue⟩ : ∃ f, escapedFrame.node.first hmsSearch.Picks = some f ∧
      f.value = .emptyArray .none := ⟨_, rfl, rfl⟩
  obtain ⟨g, hg, htarget⟩ : ∃ g, escapedFrame.node.first isHms = some g ∧
      hasTarget 7 g.value = true := ⟨_, rfl, rfl⟩
  rw [tryFilterHmsCode_some hf (hvalue ▸ trivial), hvalue, if_neg (by decide),
    filtered_unchanged_iff]
  intro h
  exact absurd (h g hg) (by simp [htarget])

end BambooNet.Agent
