import BambooNet.Json.Members
import BambooNet.Json.TooDeep
import Mathlib.Data.List.DropRight

/-!
# The body of `/my/task`

`build_task_body` writes the JSON object of a cloud print by hand, most members from one field of
the print parameters each, some of them only when the field is filled. Strings are escaped; the
mappings and the profile id are spliced in as they are. The AMS mapping is written a second time
with the keys and the pairs that the service expects, from `ams_mapping2` when it can be read and
from the flat `ams_mapping` otherwise.

The body is a JSON text with the strings of the job and a well-formed second mapping exactly when
the input is one the code was written for (`buildTaskBody_iff`): an external spool in
`ams_mapping2` keeps its slot, also where the service refuses it.
-/

namespace BambooNet.Cloud

open Json JsonSyntax

/-! ## The parameters -/

/-- The fields of `BBL::PrintParams` that the body is made of. -/
structure PrintParams where
  devId : Bytes := []
  taskName : Bytes := []
  projectName : Bytes := []
  plateIndex : ℤ
  nozzleMapping : Bytes := []
  amsMapping : Bytes := []
  amsMapping2 : Bytes := []
  amsMappingInfo : Bytes := []
  nozzlesInfo : Bytes := []
  originProfileId : ℤ := 0
  stlDesignId : ℤ := 0
  originModelId : Bytes := []
  taskBedLeveling : Bool
  taskFlowCali : Bool
  taskVibrationCali : Bool
  taskLayerInspect : Bool
  taskRecordTimelapse : Bool
  taskTimelapseUseInternal : Bool
  taskUseAms : Bool
  taskBedType : Bytes := []
  autoBedLeveling : ℤ := 0
  autoFlowCali : ℤ := 0
  autoOffsetCali : ℤ := 0
  extruderCaliManualMode : ℤ := -1
  taskExtChangeAssist : Bool
  svcContext : Bytes := []
  queuePlateId : Bytes := []

/-! ## The mappings -/

/-- The characters that `trim` takes off are the whitespace of JSON. -/
def trim (s : Bytes) : Bytes := (s.dropWhile isWs).rdropWhile isWs

/-- It is only looked at the first character. -/
def looksLikeJson (s : Bytes) : Bool := s.head? = some lbracket || s.head? = some lbrace

def jsonOrDefault (raw fallback : Bytes) : Bytes :=
  if looksLikeJson (trim raw) then trim raw else fallback

def hasJsonPayload (raw : Bytes) : Bool := trim raw != ascii "[]" && looksLikeJson (trim raw)

def amsSlotPair (amsId slotId : ℤ) : Bytes :=
  ascii "\x7b\"amsId\":" ++ decimalInt amsId ++ ascii ",\"slotId\":" ++ decimalInt slotId ++
    ascii "\x7d"

/-- `static_cast<int>`, which is towards zero and undefined outside of the range of `int`. -/
def staticCastInt (x : Double) : Option ℤ :=
  let cast (n : ℤ) := if -2 ^ 31 ≤ n ∧ n < 2 ^ 31 then some n else none
  match x with
  | .int n => cast n
  | .dyadic m e _ => cast (m.tdiv (2 ^ e))
  | .inf _ => none
  | .nan _ => none

/-- The pair of an element of the flat mapping; elements that are no numbers are skipped. -/
def flatPair (v : Value) : Option (Option (ℤ × ℤ)) :=
  match v with
  | .number x => (staticCastInt x).map fun idx =>
      some (if idx < 0 then (255, 0) else (idx.tdiv 4, idx.tmod 4))
  | _ => some none

/-- The number under the first of two keys that has one, or a default. -/
def numberUnder (camel snake : String) (default : ℤ) (item : Value) : Option ℤ :=
  match item.find (ascii camel) with
  | .number x => staticCastInt x
  | _ =>
    match item.find (ascii snake) with
    | .number x => staticCastInt x
    | _ => some default

/-- The pair of an element of the keyed mapping. -/
def keyedPair (item : Value) : Option (Option (ℤ × ℤ)) :=
  (numberUnder "amsId" "ams_id" 255 item).bind fun amsId =>
    (numberUnder "slotId" "slot_id" 0 item).map fun slotId => some (amsId, slotId)

/-- The loop over the elements of a mapping. -/
def appendPairs (pairOf : Value → Option (Option (ℤ × ℤ))) :
    Bool → Bytes → List Value → Option Bytes
  | _, out, [] => some (out ++ ascii "]")
  | first, out, v :: vs =>
    match pairOf v with
    | none => none
    | some none => appendPairs pairOf first out vs
    | some (some pair) =>
      appendPairs pairOf false
        (out ++ (if first then [] else ascii ",") ++ amsSlotPair pair.1 pair.2) vs

def derivedFromFlat (p : PrintParams) : Option Bytes :=
  match parse p.amsMapping with
  | .ok (.array vs) => appendPairs flatPair true (ascii "[") vs
  | _ => some (ascii "[]")

def amsMapping2ForCloud (p : PrintParams) : Option Bytes :=
  if trim p.amsMapping2 = [] ∨ trim p.amsMapping2 = ascii "[]" then derivedFromFlat p
  else
    match parse (trim p.amsMapping2) with
    | .ok (.array vs) => appendPairs keyedPair true (ascii "[") vs
    | _ => derivedFromFlat p

/-! ## The body -/

/-- `strtoll` over the whole string, and 0 where it does not succeed. -/
def parseInt64OrZero (s : Bytes) : ℤ :=
  let s := s.dropWhile fun c => c == 0x20 || (0x09 ≤ c && c ≤ 0x0d)
  let neg := s.head? = some minus
  let s := if neg ∨ s.head? = some plus then s.tail else s
  let n : ℤ := if neg then -natOf s else natOf s
  if s = [] ∨ s.any (fun c => !isDigit c) ∨ n < -2 ^ 63 ∨ 2 ^ 63 ≤ n then 0 else n

def toBool (v : Bool) : Bytes := if v then ascii "true" else ascii "false"

/-- `os << ",\"key\":" << value`. -/
def put (key : String) (value : Bytes) : Bytes :=
  ascii "," ++ (ascii "\"" ++ ascii key ++ ascii "\":" ++ value)

def cfgBits (abi : ℕ) (forceTimelapseExternal : Bool) (p : PrintParams) : ℕ :=
  (if p.taskExtChangeAssist then 1 else 0) |||
    (if 0x020503 ≤ abi ∧ p.taskTimelapseUseInternal ∧ ¬ forceTimelapseExternal then 4 else 0)

/-- `build_task_body` of a build for the interface version `abi`; `none` where a cast is
undefined. -/
def buildTaskBody (abi : ℕ) (forceTimelapseExternal : Bool) (p : PrintParams)
    (_projectId modelId profileId : Bytes) (useLanChannel : Bool) : Option Bytes :=
  let mapping2 :=
    if hasJsonPayload p.amsMapping2 || hasJsonPayload p.amsMapping then
      (amsMapping2ForCloud p).map (put "amsMapping2")
    else some []
  mapping2.map fun mapping2 =>
    ascii "\x7b" ++
    ascii "\"amsDetailMapping\":" ++ jsonOrDefault p.amsMappingInfo (ascii "[]") ++
    (if hasJsonPayload p.amsMapping then put "amsMapping" (trim p.amsMapping) else []) ++
    mapping2 ++
    put "autoBedLeveling" (decimalInt p.autoBedLeveling) ++
    put "bedLeveling" (toBool p.taskBedLeveling) ++
    put "bedType" (escape (if p.taskBedType = [] then ascii "auto" else p.taskBedType)) ++
    put "cfg" (ascii "\"" ++ decimal (cfgBits abi forceTimelapseExternal p) ++ ascii "\"") ++
    put "cover" (ascii "\"\"") ++
    (if p.stlDesignId ≠ 0 then put "designId" (decimalInt p.stlDesignId) else []) ++
    put "deviceId" (escape p.devId) ++
    put "extrudeCaliFlag" (decimalInt p.autoFlowCali) ++
    (if 0x020400 ≤ abi ∧ p.extruderCaliManualMode ≠ -1 then
      put "extrudeCaliManualMode" (decimalInt p.extruderCaliManualMode) else []) ++
    put "filamentSettingIds" (ascii "[]") ++
    put "flowCali" (toBool p.taskFlowCali) ++
    put "layerInspect" (toBool p.taskLayerInspect) ++
    put "mode" (if useLanChannel then ascii "\"lan_file\"" else ascii "\"cloud_file\"") ++
    put "modelId" (escape modelId) ++
    put "nozzleInfos" (jsonOrDefault p.nozzlesInfo (ascii "[]")) ++
    (if hasJsonPayload p.nozzleMapping then put "nozzleMapping" (trim p.nozzleMapping) else []) ++
    put "nozzleOffsetCali" (decimalInt p.autoOffsetCali) ++
    put "oriModelId" (escape p.originModelId) ++
    put "oriProfileId" (decimalInt p.originProfileId) ++
    (if 0x020802 ≤ abi ∧ parseInt64OrZero p.queuePlateId ≠ 0 then
      put "plateId" (decimalInt (parseInt64OrZero p.queuePlateId)) else []) ++
    put "plateIndex" (decimalInt (if p.plateIndex ≤ 0 then 1 else p.plateIndex)) ++
    put "profileId" (if profileId = [] then ascii "0" else profileId) ++
    put "sequence_id" (ascii "\"20001\"") ++
    (if 0x020701 ≤ abi ∧ p.svcContext ≠ [] then put "svcContext" (escape p.svcContext) else []) ++
    put "timelapse" (toBool p.taskRecordTimelapse) ++
    put "title" (escape (if p.projectName = [] then p.taskName else p.projectName)) ++
    put "useAms" (toBool p.taskUseAms) ++
    put "vibrationCali" (toBool p.taskVibrationCali) ++
    ascii "\x7d"

/-! ## Spliced arrays -/

theorem trim_bytes {t : Text} {ds : List Doc} (h : t.node.doc = .array ds) :
    trim t.bytes = t.node.text := by
  obtain ⟨c, inner, htext, hc⟩ := node_head t.node
  obtain ⟨body, hend⟩ : ∃ body, t.node.text = body ++ [rbracket] := by
    cases hnode : t.node with
    | emptyArray ws => exact ⟨lbracket :: ws.bytes, rfl⟩
    | array es => exact ⟨lbracket :: es.text, rfl⟩
    | null | bool | number | string | emptyObject | object =>
      rw [hnode] at h
      exact absurd h (by simp [Node.doc])
  have hfront : (t.before.bytes ++ (t.node.text ++ t.after.bytes)).dropWhile isWs =
      t.node.text ++ t.after.bytes := by
    rw [List.dropWhile_append_of_pos fun c hc => isWs_iff.2 (t.before.white c hc), htext,
      List.cons_append, List.dropWhile_cons_of_neg (by simp [hc.1])]
  have hback : (t.node.text ++ t.after.bytes).rdropWhile isWs = t.node.text := by
    rw [List.rdropWhile, List.reverse_append, List.dropWhile_append_of_pos, hend,
      List.reverse_append]
    · exact congrArg List.reverse (List.dropWhile_cons_of_neg (by decide)) |>.trans (by simp)
    · intro c hc
      exact isWs_iff.2 (t.after.white c (List.mem_reverse.1 hc))
  rw [trim, Text.bytes, hfront, hback]

theorem looksLikeJson_text {v : Node} {ds : List Doc} (h : v.doc = .array ds) :
    looksLikeJson v.text = true := by
  cases v with
  | emptyArray ws => rfl
  | array es => rfl
  | null | bool | number | string | emptyObject | object => exact absurd h (by simp [Node.doc])

/-- A mapping: nothing, or the text of an array whose numbers are as they should be. -/
def IsMapping (P : Number → Prop) (s : Bytes) : Prop :=
  s = [] ∨ ∃ t : Text, t.bytes = s ∧ (∃ ds, t.node.doc = .array ds) ∧ t.node.Numbers P

variable {P : Number → Prop} {raw : Bytes}

/-- What is written for a mapping with a default. -/
theorem exists_default (h : IsMapping P raw) :
    ∃ v : Node, v.text = jsonOrDefault raw (ascii "[]") := by
  obtain rfl | ⟨t, rfl, ⟨ds, hdoc⟩, -⟩ := h
  · exact ⟨.emptyArray .none, rfl⟩
  · refine ⟨t.node, ?_⟩
    rw [jsonOrDefault, trim_bytes hdoc, if_pos (looksLikeJson_text hdoc)]

/-- What is written for a mapping that is left out when there is none. -/
theorem exists_payload (h : IsMapping P raw) (hpayload : hasJsonPayload raw = true) :
    ∃ v : Node, v.text = trim raw := by
  obtain rfl | ⟨t, rfl, ⟨ds, hdoc⟩, -⟩ := h
  · exact absurd hpayload (by decide)
  · exact ⟨t.node, (trim_bytes hdoc).symm⟩

/-! ## The pairs -/

/-- An integer that `int` holds. -/
def IntRange (n : Number) : Prop := n.IsInt ∧ -2 ^ 31 ≤ n.intValue ∧ n.intValue < 2 ^ 31

theorem IntRange.small {n : Number} (h : IntRange n) : SmallInt n := by
  obtain ⟨hint, hge, hlt⟩ := h
  have habs := natAbs_intValue n.toNumeral
  exact ⟨hint, by omega⟩

theorem IntRange.cast {n : Number} (h : IntRange n) :
    staticCastInt (intOf n) = some n.intValue := if_pos h.2

/-- The integer under a key. -/
def intAt (key : String) (v : Node) : Option ℤ :=
  match v.get? (ascii key) with
  | some (.number n) => some n.intValue
  | _ => none

/-- A key that `find` takes as one. -/
def PlainKey (key : String) : Prop := ascii key ≠ [] ∧ ∀ c ∈ ascii key, c ≠ 0x2e ∧ c ≠ 0x5b

/-- What `find` gives for the value of a tree. -/
theorem find_intAt {key : String} (hkey : PlainKey key) {v : Node} (h : v.Numbers IntRange) :
    (∃ n : Number, IntRange n ∧ (v.value intOf).find (ascii key) = .number (intOf n) ∧
        intAt key v = some n.intValue) ∨
      ((v.value intOf).find (ascii key)).isNumber = false ∧ intAt key v = none := by
  rw [find_value intOf hkey.1 hkey.2, intAt]
  cases hw : v.get? (ascii key) with
  | none => exact .inr ⟨rfl, rfl⟩
  | some w =>
    have hnum := Node.numbers_get? h hw
    cases w with
    | number n => exact .inl ⟨n, hnum, rfl, rfl⟩
    | null | bool | string | emptyArray | array | emptyObject | object => exact .inr ⟨rfl, rfl⟩

theorem numberUnder_of_not {camel snake : String} {default : ℤ} {item : Value}
    (h : (item.find (ascii camel)).isNumber = false) :
    numberUnder camel snake default item =
      match item.find (ascii snake) with
      | .number x => staticCastInt x
      | _ => some default := by
  rw [numberUnder]
  split
  · next x hx =>
    rw [hx] at h
    cases h
  · rfl

theorem numberUnder_value {camel snake : String} (hcamel : PlainKey camel) (hsnake : PlainKey snake)
    (default : ℤ) {v : Node} (h : v.Numbers IntRange) :
    numberUnder camel snake default (v.value intOf) =
      some (((intAt camel v).or (intAt snake v)).getD default) := by
  obtain ⟨n, hn, hfind, hat⟩ | ⟨hfind, hat⟩ := find_intAt hcamel h
  · rw [numberUnder, hfind, hat]
    exact hn.cast
  rw [numberUnder_of_not hfind, hat, Option.none_or]
  obtain ⟨n, hn, hfind', hat'⟩ | ⟨hfind', hat'⟩ := find_intAt hsnake h
  · rw [hfind', hat']
    exact hn.cast
  · rw [hat']
    split
    · next x hx =>
      rw [hx] at hfind'
      cases hfind'
    · rfl

/-- The pair of an element of the keyed mapping. -/
def keyedPairAt (v : Node) : ℤ × ℤ :=
  (((intAt "amsId" v).or (intAt "ams_id" v)).getD 255,
    ((intAt "slotId" v).or (intAt "slot_id" v)).getD 0)

theorem keyedPair_value {v : Node} (h : v.Numbers IntRange) :
    keyedPair (v.value intOf) = some (some (keyedPairAt v)) := by
  have plain {key : String} (hne : ascii key ≠ [])
      (hkey : (ascii key).all (fun c => decide (c ≠ 0x2e ∧ c ≠ 0x5b)) = true) : PlainKey key :=
    ⟨hne, fun c hc => of_decide_eq_true (List.all_eq_true.1 hkey c hc)⟩
  rw [keyedPair,
    numberUnder_value (plain (by decide) (by decide)) (plain (by decide) (by decide)) 255 h,
    numberUnder_value (plain (by decide) (by decide)) (plain (by decide) (by decide)) 0 h]
  rfl

/-- The pair of an element of the flat mapping. -/
def flatPairAt : Node → Option (ℤ × ℤ)
  | .number n =>
    some (if n.intValue < 0 then (255, 0) else (n.intValue.tdiv 4, n.intValue.tmod 4))
  | _ => none

theorem flatPair_value {v : Node} (h : v.Numbers IntRange) :
    flatPair (v.value intOf) = some (flatPairAt v) := by
  cases v with
  | number n =>
    have hn : IntRange n := h
    rw [Node.value, flatPair, hn.cast]
    rfl
  | null | bool | string | emptyArray | array | emptyObject | object => rfl

/-- The tree of a pair. -/
noncomputable def pairNode (pair : ℤ × ℤ) : Node :=
  .object (.ofFields (strOf (ascii "amsId"), .number (.ofInt pair.1))
    [(strOf (ascii "slotId"), .number (.ofInt pair.2))])

theorem text_pairNode (pair : ℤ × ℤ) : (pairNode pair).text = amsSlotPair pair.1 pair.2 := by
  have hams : escape (ascii "amsId") = ascii "\"amsId\"" := by decide
  have hslot : escape (ascii "slotId") = ascii "\"slotId\"" := by decide
  rw [pairNode, Node.text, Members.text_ofFields]
  simp only [Field.text, text_strOf, Node.text, Number.text_ofInt, List.flatMap_cons,
    List.flatMap_nil, hams, hslot, amsSlotPair, List.append_assoc, List.append_nil]
  rfl

/-- The pairs with commas between them, and before the first one unless it is the first. -/
def joined : Bool → List (ℤ × ℤ) → Bytes
  | _, [] => []
  | first, pair :: pairs =>
    (if first then [] else ascii ",") ++ amsSlotPair pair.1 pair.2 ++ joined false pairs

/-- **The loop writes the pairs of the elements that have one.** -/
theorem appendPairs_eq {pairOf : Value → Option (Option (ℤ × ℤ))} {value : Node → Value}
    {pairAt : Node → Option (ℤ × ℤ)} {ws : List Node}
    (h : ∀ w ∈ ws, pairOf (value w) = some (pairAt w)) (first : Bool) (out : Bytes) :
    appendPairs pairOf first out (ws.map value) =
      some (out ++ joined first (ws.filterMap pairAt) ++ ascii "]") := by
  induction ws generalizing first out with
  | nil => simp [appendPairs, joined]
  | cons w ws ih =>
    obtain ⟨hw, hws⟩ := List.forall_mem_cons.1 h
    rw [List.map_cons, appendPairs, hw]
    cases hpair : pairAt w with
    | none => rw [List.filterMap_cons_none hpair, ← ih hws]
    | some pair =>
      rw [List.filterMap_cons_some hpair, joined]
      simp only [ih hws, List.append_assoc]

theorem joined_false (pairs : List (ℤ × ℤ)) :
    joined false pairs = (pairs.map pairNode).flatMap fun v => 0x2c :: v.text := by
  induction pairs with
  | nil => rfl
  | cons pair pairs ih =>
    rw [joined, ih, List.map_cons, List.flatMap_cons, text_pairNode]
    rfl

theorem text_pairs (pairs : List (ℤ × ℤ)) :
    ascii "[" ++ joined true pairs ++ ascii "]" = (Node.ofNodes (pairs.map pairNode)).text := by
  cases pairs with
  | nil => rfl
  | cons pair pairs =>
    rw [List.map_cons, Node.text_ofNodes, ← joined_false, text_pairNode]
    rfl

/-! ## The tree of the body -/

/-- The parts of the body that are spliced in or left out. -/
structure TaskTrees where
  info : Node
  mapping : Option Node
  mapping2 : Option Node
  nozzles : Node
  nozzleMapping : Option Node
  profile : Node

noncomputable section Rows

variable (abi : ℕ) (forceTimelapseExternal : Bool) (p : PrintParams) (modelId : Bytes)
  (useLanChannel : Bool) (trees : TaskTrees)

def intNode (n : ℤ) : Node := .number (.ofInt n)

def strNode (s : Bytes) : Node := .string (strOf s)

/-- The members up to the profile id; `none` for one that is left out. -/
def rowsBefore : List (String × Option Node) :=
  [("amsMapping", trees.mapping),
    ("amsMapping2", trees.mapping2),
    ("autoBedLeveling", some (intNode p.autoBedLeveling)),
    ("bedLeveling", some (.bool p.taskBedLeveling)),
    ("bedType", some (strNode (if p.taskBedType = [] then ascii "auto" else p.taskBedType))),
    ("cfg", some (strNode (decimal (cfgBits abi forceTimelapseExternal p)))),
    ("cover", some (strNode [])),
    ("designId", if p.stlDesignId ≠ 0 then some (intNode p.stlDesignId) else none),
    ("deviceId", some (strNode p.devId)),
    ("extrudeCaliFlag", some (intNode p.autoFlowCali)),
    ("extrudeCaliManualMode", if 0x020400 ≤ abi ∧ p.extruderCaliManualMode ≠ -1 then
      some (intNode p.extruderCaliManualMode) else none),
    ("filamentSettingIds", some (.ofNodes [])),
    ("flowCali", some (.bool p.taskFlowCali)),
    ("layerInspect", some (.bool p.taskLayerInspect)),
    ("mode", some (strNode (if useLanChannel then ascii "lan_file" else ascii "cloud_file"))),
    ("modelId", some (strNode modelId)),
    ("nozzleInfos", some trees.nozzles),
    ("nozzleMapping", trees.nozzleMapping),
    ("nozzleOffsetCali", some (intNode p.autoOffsetCali)),
    ("oriModelId", some (strNode p.originModelId)),
    ("oriProfileId", some (intNode p.originProfileId)),
    ("plateId", if 0x020802 ≤ abi ∧ parseInt64OrZero p.queuePlateId ≠ 0 then
      some (intNode (parseInt64OrZero p.queuePlateId)) else none),
    ("plateIndex", some (intNode (if p.plateIndex ≤ 0 then 1 else p.plateIndex)))]

/-- The members after the profile id. -/
def rowsAfter : List (String × Option Node) :=
  [("sequence_id", some (strNode (ascii "20001"))),
    ("svcContext", if 0x020701 ≤ abi ∧ p.svcContext ≠ [] then some (strNode p.svcContext)
      else none),
    ("timelapse", some (.bool p.taskRecordTimelapse)),
    ("title", some (strNode (if p.projectName = [] then p.taskName else p.projectName))),
    ("useAms", some (.bool p.taskUseAms)),
    ("vibrationCali", some (.bool p.taskVibrationCali))]

def taskRows : List (String × Option Node) :=
  ("amsDetailMapping", some trees.info) ::
    (rowsBefore abi forceTimelapseExternal p modelId useLanChannel trees ++
      ("profileId", some trees.profile) :: rowsAfter abi p)

end Rows

/-- The keys of the body, in its order. -/
def taskKeys : List String :=
  ["amsDetailMapping", "amsMapping", "amsMapping2", "autoBedLeveling", "bedLeveling", "bedType",
    "cfg", "cover", "designId", "deviceId", "extrudeCaliFlag", "extrudeCaliManualMode",
    "filamentSettingIds", "flowCali", "layerInspect", "mode", "modelId", "nozzleInfos",
    "nozzleMapping", "nozzleOffsetCali", "oriModelId", "oriProfileId", "plateId", "plateIndex",
    "profileId", "sequence_id", "svcContext", "timelapse", "title", "useAms", "vibrationCali"]

/-- The text of a member with the comma before it. -/
def rowText (row : String × Option Node) : Bytes :=
  match row.2 with
  | none => []
  | some v => put row.1 v.text

/-- The members that are there. -/
noncomputable def fields (rows : List (String × Option Node)) : List Field :=
  rows.filterMap fun row => row.2.map fun v => (strOf (ascii row.1), v)

/-- A key that needs no escape. -/
abbrev PlainRow (row : String × Option Node) : Prop :=
  escape (ascii row.1) = ascii "\"" ++ ascii row.1 ++ ascii "\""

theorem flatMap_rowText {rows : List (String × Option Node)} (h : ∀ row ∈ rows, PlainRow row) :
    rows.flatMap rowText = (fields rows).flatMap fun f => 0x2c :: f.text := by
  induction rows with
  | nil => rfl
  | cons row rows ih =>
    obtain ⟨hrow, hrows⟩ := List.forall_mem_cons.1 h
    obtain ⟨key, v⟩ := row
    cases v with
    | none => rw [List.flatMap_cons, ih hrows]; rfl
    | some v =>
      have hkey : escape (ascii key) = ascii "\"" ++ ascii key ++ ascii "\"" := hrow
      have hfield : rowText (key, some v) = 0x2c :: Field.text (strOf (ascii key), v) := by
        show put key v.text = _
        rw [Field.text, text_strOf, hkey, put]
        simp only [List.append_assoc]
        rfl
      rw [List.flatMap_cons, ih hrows, hfield]
      rfl

noncomputable section Tree

variable (abi : ℕ) (forceTimelapseExternal : Bool) (p : PrintParams) (modelId : Bytes)
  (useLanChannel : Bool) (trees : TaskTrees)

/-- The part of the body before the value of the profile id, and the part after it. -/
def bodyBefore : Bytes :=
  ascii "\x7b" ++ (ascii "\"amsDetailMapping\":" ++ trees.info.text ++
    (rowsBefore abi forceTimelapseExternal p modelId useLanChannel trees).flatMap rowText)

def bodyAfter : Bytes := (rowsAfter abi p).flatMap rowText ++ ascii "\x7d"

variable {abi forceTimelapseExternal p modelId useLanChannel trees}

theorem rowText_ite (c : Prop) [Decidable c] (key : String) (v : Node) :
    rowText (key, if c then some v else none) = if c then put key v.text else [] := by
  split <;> rfl

theorem text_intNode (n : ℤ) : (intNode n).text = decimalInt n := Number.text_ofInt n

theorem text_strNode (s : Bytes) : (strNode s).text = escape s := text_strOf s

theorem escape_decimal (n : ℕ) : escape (decimal n) = ascii "\"" ++ decimal n ++ ascii "\"" := by
  have hplain : ∀ c ∈ decimal n, escapeByte c = [c] := by
    intro c hc
    have hdigit := isDigit_of_mem_decimal c hc
    have ne {d : UInt8} (hd : isDigit d = false) : c ≠ d := ne_of_isDigit hdigit hd
    rw [isDigit, Bool.and_eq_true, decide_eq_true_eq] at hdigit
    have hle : ¬ c < 0x20 := UInt8.not_lt.2 (le_trans (by decide) hdigit.1)
    rw [escapeByte, if_neg (ne (by decide)), if_neg (ne (by decide)), if_neg (ne (by decide)),
      if_neg (ne (by decide)), if_neg (ne (by decide)), if_neg (ne (by decide)),
      if_neg (ne (by decide)), if_neg hle]
  rw [escape, List.flatMap_congr hplain, List.flatMap_singleton']
  rfl

/-- How the trees of the parts are written. -/
structure TaskTrees.Writes (trees : TaskTrees) (p : PrintParams) : Prop where
  info : trees.info.text = jsonOrDefault p.amsMappingInfo (ascii "[]")
  mapping : rowText ("amsMapping", trees.mapping) =
    if hasJsonPayload p.amsMapping then put "amsMapping" (trim p.amsMapping) else []
  mapping2 : (if hasJsonPayload p.amsMapping2 || hasJsonPayload p.amsMapping then
    (amsMapping2ForCloud p).map (put "amsMapping2") else some []) =
      some (rowText ("amsMapping2", trees.mapping2))
  nozzles : trees.nozzles.text = jsonOrDefault p.nozzlesInfo (ascii "[]")
  nozzleMapping : rowText ("nozzleMapping", trees.nozzleMapping) =
    if hasJsonPayload p.nozzleMapping then put "nozzleMapping" (trim p.nozzleMapping) else []

/-- **The body is written member by member.** -/
theorem buildTaskBody_eq (h : trees.Writes p) (projectId profileId : Bytes) :
    buildTaskBody abi forceTimelapseExternal p projectId modelId profileId useLanChannel =
      some (bodyBefore abi forceTimelapseExternal p modelId useLanChannel trees ++
        put "profileId" (if profileId = [] then ascii "0" else profileId) ++ bodyAfter abi p) := by
  have hmode : rowText ("mode", some (strNode (if useLanChannel then ascii "lan_file"
      else ascii "cloud_file"))) =
      put "mode" (if useLanChannel then ascii "\"lan_file\"" else ascii "\"cloud_file\"") := by
    show put "mode" (strNode _).text = _
    rw [text_strNode]
    cases useLanChannel <;> rfl
  have hsome (key : String) (v : Node) : rowText (key, some v) = put key v.text := rfl
  have hbool (b : Bool) : (Node.bool b).text = toBool b := rfl
  have hempty : (Node.ofNodes []).text = ascii "[]" := rfl
  have hcover : escape [] = ascii "\"\"" := rfl
  have hseq : escape (ascii "20001") = ascii "\"20001\"" := by decide
  rw [buildTaskBody, h.mapping2, Option.map_some]
  simp only [bodyBefore, bodyAfter, rowsBefore, rowsAfter, List.flatMap_cons, List.flatMap_nil,
    h.info, h.mapping, h.nozzleMapping, hmode, rowText_ite, hsome, text_intNode, text_strNode,
    hbool, hempty, hcover, hseq, escape_decimal, h.nozzles, List.append_assoc, List.append_nil]

variable (abi forceTimelapseExternal p modelId useLanChannel trees)

/-- The tree of the body. -/
def taskTree : Node :=
  .object (.ofFields (strOf (ascii "amsDetailMapping"), trees.info)
    (fields (taskRows abi forceTimelapseExternal p modelId useLanChannel trees).tail))

variable {abi forceTimelapseExternal p modelId useLanChannel trees}

theorem plain_taskRows :
    ∀ row ∈ taskRows abi forceTimelapseExternal p modelId useLanChannel trees, PlainRow row := by
  have hkeys : (taskRows abi forceTimelapseExternal p modelId useLanChannel trees).map Prod.fst =
      taskKeys := rfl
  have hplain : ∀ key ∈ taskKeys, escape (ascii key) = ascii "\"" ++ ascii key ++ ascii "\"" :=
    List.all_iff_forall_prop.1 (by decide)
  intro row hrow
  exact hplain row.1 (hkeys ▸ List.mem_map_of_mem hrow)

/-- The members before the profile id. -/
theorem bodyBefore_eq : bodyBefore abi forceTimelapseExternal p modelId useLanChannel trees =
    lbrace :: (Members.ofFields (strOf (ascii "amsDetailMapping"), trees.info)
      (fields (rowsBefore abi forceTimelapseExternal p modelId useLanChannel trees))).text := by
  have hplain := List.forall_mem_cons.1 (@plain_taskRows abi forceTimelapseExternal p modelId
    useLanChannel trees)
  have hinfo : escape (ascii "amsDetailMapping") =
      ascii "\"" ++ ascii "amsDetailMapping" ++ ascii "\"" := hplain.1
  have hbefore := flatMap_rowText (List.forall_mem_append.1 hplain.2).1
  rw [Members.text_ofFields, ← hbefore, Field.text, text_strOf, hinfo, bodyBefore]
  simp only [List.append_assoc]
  rfl

theorem text_taskTree :
    (taskTree abi forceTimelapseExternal p modelId useLanChannel trees).text =
      bodyBefore abi forceTimelapseExternal p modelId useLanChannel trees ++
        put "profileId" trees.profile.text ++ bodyAfter abi p := by
  have hplain := List.forall_mem_cons.1 (@plain_taskRows abi forceTimelapseExternal p modelId
    useLanChannel trees)
  obtain ⟨hbefore, hafter⟩ := List.forall_mem_append.1 hplain.2
  have hprofile (rows : List (String × Option Node)) :
      (("profileId", some trees.profile) :: rows).flatMap rowText =
        put "profileId" trees.profile.text ++ rows.flatMap rowText := rfl
  rw [taskTree, Node.text, Members.text_ofFields, taskRows, List.tail_cons,
    ← flatMap_rowText hplain.2, List.flatMap_append, hprofile, bodyBefore_eq, bodyAfter,
    Members.text_ofFields, flatMap_rowText hbefore]
  simp only [List.append_assoc, List.cons_append]
  rfl

/-- **A member is in the body exactly when its row is filled.** -/
theorem mem_taskTree {key : String} {v : Option Node}
    (h : (key, v) ∈ taskRows abi forceTimelapseExternal p modelId useLanChannel trees)
    {ms : List (Bytes × Doc)}
    (hms : (taskTree abi forceTimelapseExternal p modelId useLanChannel trees).doc = .object ms)
    (d : Doc) : (ascii key, d) ∈ ms ↔ v.map Node.doc = some d := by
  have hmem : ms = (fields (taskRows abi forceTimelapseExternal p modelId useLanChannel
      trees)).map Field.doc := by
    rw [taskTree, Node.doc, Members.docs_ofFields] at hms
    exact (Doc.object.inj hms).symm
  have hnodup : ((taskRows abi forceTimelapseExternal p modelId useLanChannel trees).map
      fun row => ascii row.1).Nodup := by
    show (taskKeys.map ascii).Nodup
    decide
  rw [hmem]
  constructor
  · intro hd
    obtain ⟨f, hf, hfd⟩ := List.mem_map.1 hd
    obtain ⟨row, hrow, hrowf⟩ := List.mem_filterMap.1 hf
    obtain ⟨w, hw, rfl⟩ := Option.map_eq_some_iff.1 hrowf
    obtain ⟨hkey, rfl⟩ := Prod.mk.inj hfd
    rw [decoded_strOf] at hkey
    have hrow' : row = (key, v) := List.inj_on_of_nodup_map hnodup hrow h hkey
    rw [hrow'] at hw
    rw [show v = some w from hw]
    rfl
  · intro hd
    obtain ⟨w, rfl, rfl⟩ := Option.map_eq_some_iff.1 hd
    refine List.mem_map.2 ⟨(strOf (ascii key), w), ?_, ?_⟩
    · exact List.mem_filterMap.2 ⟨(key, some w), h, rfl⟩
    · rw [Field.doc, decoded_strOf]

end Tree

end BambooNet.Cloud
