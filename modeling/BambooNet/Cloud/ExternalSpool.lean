import BambooNet.Cloud.TaskBody

/-!
# The external spool in the cloud mapping

What the service expects of the body, in terms of the documents that the parameters and the body
denote: the strings of the job, and one pair for every element of the mapping, where the external
spool, AMS 255, has slot 0. The body is such a text exactly when `Usable` holds of the parameters
(`buildTaskBody_iff`). Studio's own spelling of an external spool in `ams_mapping2` has slot 255.
-/

namespace BambooNet.Cloud

open Json JsonSyntax

/-! ## What is expected -/

/-- The documents that a mapping lists. -/
def Lists (s : Bytes) (ds : List Doc) : Prop :=
  s = [] ∧ ds = [] ∨ ∃ t : Text, t.bytes = s ∧ t.node.doc = .array ds

/-- The number under a key. -/
def numberAt (key : String) (d : Doc) : Option ℚ :=
  match d.get? (ascii key) with
  | some (.number q) => some q
  | _ => none

/-- The AMS of an element, in either spelling. -/
def amsIdOf (d : Doc) : Option ℚ := (numberAt "amsId" d).or (numberAt "ams_id" d)

def slotIdOf (d : Doc) : Option ℚ := (numberAt "slotId" d).or (numberAt "slot_id" d)

/-- AMS and slot of an element of the keyed mapping; without them it is an external spool. -/
def keyedPairOf (d : Doc) : ℚ × ℚ := ((amsIdOf d).getD 255, (slotIdOf d).getD 0)

/-- AMS and slot of an element of the flat mapping. -/
def FlatPairOf (d : Doc) (pair : ℚ × ℚ) : Prop :=
  ∃ i : ℤ, d = .number i ∧
    pair = if i < 0 then (255, 0) else (((i / 4 : ℤ) : ℚ), ((i % 4 : ℤ) : ℚ))

/-- An entry of the second mapping. -/
def pairDoc (pair : ℚ × ℚ) : Doc :=
  .object [(ascii "amsId", .number pair.1), (ascii "slotId", .number pair.2)]

/-- The second mapping is derived from `ams_mapping2`, which is filled and can be read. -/
def FromMapping2 (p : PrintParams) : Prop :=
  ¬ (trim p.amsMapping2 = [] ∨ trim p.amsMapping2 = ascii "[]") ∧
    ∃ vs, parse (trim p.amsMapping2) = .ok (.array vs)

/-- One pair for every element of the mapping that the second mapping is derived from. -/
def Derived (p : PrintParams) (pairs : List (ℚ × ℚ)) : Prop :=
  (FromMapping2 p ∧ ∃ ds, Lists p.amsMapping2 ds ∧ pairs = ds.map keyedPairOf) ∨
    (¬ FromMapping2 p ∧ ∃ ds, Lists p.amsMapping ds ∧ List.Forall₂ FlatPairOf ds pairs)

/-- The members with a string of the job. -/
def stringMembers (abi : ℕ) (p : PrintParams) (modelId : Bytes) : List (String × Bytes) :=
  [("bedType", if p.taskBedType = [] then ascii "auto" else p.taskBedType),
    ("deviceId", p.devId), ("modelId", modelId), ("oriModelId", p.originModelId),
    ("title", if p.projectName = [] then p.taskName else p.projectName)] ++
  if 0x020701 ≤ abi ∧ p.svcContext ≠ [] then [("svcContext", p.svcContext)] else []

/-- The members that the service expects. -/
structure TaskMembers (abi : ℕ) (p : PrintParams) (modelId : Bytes) (ms : List (Bytes × Doc)) :
    Prop where
  strings : ∀ e ∈ stringMembers abi p modelId, ∀ d, (ascii e.1, d) ∈ ms ↔ d = .string e.2
  mapping2 : ∀ d, (ascii "amsMapping2", d) ∈ ms → ∃ pairs, d = .array (pairs.map pairDoc) ∧
    Derived p pairs ∧ ∀ pair ∈ pairs, pair.1 = 255 → pair.2 = 0

/-- A body that the service can read. -/
def IsTaskBody (abi : ℕ) (p : PrintParams) (modelId body : Bytes) : Prop :=
  ∃ (t : Text) (ms : List (Bytes × Doc)), t.bytes = body ∧ t.node.doc = .object ms ∧
    TaskMembers abi p modelId ms

/-- The parameters that the code was written for. -/
structure Usable (p : PrintParams) (profileId : Bytes) : Prop where
  /-- The profile id is a JSON number. -/
  profile : profileId.head? = some 0x30 → profileId = [0x30]
  /-- An external spool of `ams_mapping2` has slot 0. -/
  keyed : FromMapping2 p → ∀ ds, Lists p.amsMapping2 ds → ∀ d ∈ ds,
    amsIdOf d = none ∨ amsIdOf d = some 255 → slotIdOf d = none ∨ slotIdOf d = some 0
  /-- No slot of the flat mapping belongs to an AMS 255, and nothing else is in it. -/
  flat : ¬ FromMapping2 p → ∀ ds, Lists p.amsMapping ds → ∀ d ∈ ds,
    ∃ i : ℤ, d = .number i ∧ i ≠ 1021 ∧ i ≠ 1022 ∧ i ≠ 1023

/-! ## Mappings and what they list -/

theorem Lists.unique {s : Bytes} {ds ds' : List Doc} (h : Lists s ds) (h' : Lists s ds') :
    ds = ds' := by
  have nonempty {t : Text} {es : List Doc} (hbytes : t.bytes = []) : t.node.doc ≠ .array es := by
    obtain ⟨c, text, htext, -⟩ := node_head t.node
    rw [Text.bytes, htext] at hbytes
    exact absurd hbytes (by simp)
  obtain ⟨rfl, rfl⟩ | ⟨t, rfl, ht⟩ := h
  · obtain ⟨-, rfl⟩ | ⟨t', hbytes, ht'⟩ := h'
    · rfl
    · exact absurd ht' (nonempty hbytes)
  · obtain ⟨hbytes, -⟩ | ⟨t', hbytes, ht'⟩ := h'
    · exact absurd ht (nonempty hbytes)
    · rw [doc_eq_of_bytes hbytes, ht] at ht'
      exact Doc.array.inj ht'

/-- A mapping that lists something is a payload. -/
theorem Lists.payload {s : Bytes} {ds : List Doc} (h : Lists s ds) (hne : ds ≠ []) :
    hasJsonPayload s = true := by
  obtain ⟨-, hnil⟩ | ⟨t, rfl, ht⟩ := h
  · exact absurd hnil hne
  rw [hasJsonPayload, trim_bytes ht, looksLikeJson_text ht, Bool.and_true, bne_iff_ne]
  intro hempty
  have hbytes : Text.bytes ⟨.none, t.node, .none⟩ =
      Text.bytes ⟨.none, .emptyArray .none, .none⟩ := by
    simp only [Text.bytes, Ws.none, hempty]
    rfl
  have hdoc := doc_eq_of_bytes hbytes
  exact hne (Doc.array.inj (ht.symm.trans hdoc))

/-- What a mapping lists are its elements. -/
theorem exists_lists {P : Number → Prop} {s : Bytes} (h : IsMapping P s) :
    (s = [] ∧ Lists s []) ∨ ∃ t : Text, t.bytes = s ∧ (∃ ds, t.node.doc = .array ds) ∧
      t.node.Numbers P ∧ Lists s (t.node.nodes.map Node.doc) := by
  obtain rfl | ⟨t, rfl, ⟨ds, hdoc⟩, hnum⟩ := h
  · exact .inl ⟨rfl, .inl ⟨rfl, rfl⟩⟩
  · refine .inr ⟨t, rfl, ⟨ds, hdoc⟩, hnum, .inr ⟨t, rfl, ?_⟩⟩
    rw [hdoc, Node.nodes_of_doc hdoc]

/-! ## The pairs that are written -/

/-- A pair as it is denoted. -/
def castPair (pair : ℤ × ℤ) : ℚ × ℚ := (pair.1, pair.2)

theorem doc_pairNode (pair : ℤ × ℤ) : (pairNode pair).doc = pairDoc (castPair pair) := by
  have hint (n : ℤ) : (Node.number (.ofInt n)).doc = .number n := by
    rw [Node.doc, Numeral.toRat_of_isInt (Number.isInt_ofInt n), Number.intValue_ofInt]
  rw [pairNode, Node.doc, Members.docs_ofFields]
  simp only [Field.doc, decoded_strOf, hint, List.map_cons, List.map_nil, pairDoc, castPair]

theorem numberAt_doc (key : String) {v : Node} (h : v.Numbers IntRange) :
    numberAt key v.doc = (intAt key v).map Int.cast := by
  rw [numberAt, intAt, Node.get?_doc]
  cases hw : v.get? (ascii key) with
  | none => rfl
  | some w =>
    have hnum := Node.numbers_get? h hw
    cases w with
    | number n =>
      have hn : IntRange n := hnum
      rw [Option.map_some, Node.doc, Numeral.toRat_of_isInt hn.1]
      rfl
    | null | bool | string | emptyArray | array | emptyObject | object => rfl

theorem castPair_keyedPairAt {v : Node} (h : v.Numbers IntRange) :
    castPair (keyedPairAt v) = keyedPairOf v.doc := by
  have either (camel snake : String) (default : ℤ) :
      ((((intAt camel v).or (intAt snake v)).getD default : ℤ) : ℚ) =
        ((numberAt camel v.doc).or (numberAt snake v.doc)).getD (default : ℚ) := by
    rw [numberAt_doc camel h, numberAt_doc snake h]
    cases intAt camel v with
    | some n => rfl
    | none => cases intAt snake v <;> rfl
  have hams := either "amsId" "ams_id" 255
  have hslot := either "slotId" "slot_id" 0
  push_cast at hams hslot
  exact Prod.ext hams hslot

/-- The pair of an element that is an integer. -/
theorem flatPairAt_of_int {v : Node} {i : ℤ} (h : v.Numbers IntRange) (hdoc : v.doc = .number i) :
    ∃ pair, flatPairAt v = some pair ∧ FlatPairOf v.doc (castPair pair) := by
  cases v with
  | number n =>
    have hn : IntRange n := h
    have hint : n.intValue = i := by
      have hrat := Doc.number.inj hdoc
      rw [Numeral.toRat_of_isInt hn.1] at hrat
      exact_mod_cast hrat
    refine ⟨_, rfl, i, hdoc, ?_⟩
    rw [hint]
    split
    · simp [castPair]
    · next hneg =>
      rw [Int.tdiv_eq_ediv_of_nonneg (by omega), Int.tmod_eq_emod_of_nonneg (by omega)]
      rfl
  | null | bool | string | emptyArray | array | emptyObject | object =>
    exact absurd hdoc (by simp [Node.doc])

/-- The parser reads a mapping that is not nested too deep. -/
theorem parse_text {v : Node} {ds : List Doc} (h : v.Numbers IntRange) (hdoc : v.doc = .array ds)
    (before after : Ws) :
    (v.depth ≤ kMaxNestingDepth ∧ parse (Text.bytes ⟨before, v, after⟩) =
        .ok (.array (v.nodes.map (Node.value intOf)))) ∨
      kMaxNestingDepth < v.depth ∧ ∃ e, parse (Text.bytes ⟨before, v, after⟩) = .error e := by
  have hsmall := numbers_mono (fun _ => IntRange.small) v h
  rcases Nat.lt_or_ge kMaxNestingDepth v.depth with hdeep | hle
  · exact .inr ⟨hdeep, parse_deep ⟨before, v, after⟩ hdeep⟩
  · refine .inl ⟨hle, ?_⟩
    rw [parse_total.1 ⟨before, v, after⟩ hle hsmall, value_of_array intOf hdoc]

/-- **What is written from `ams_mapping2`.** -/
theorem mapping2_of_keyed {p : PrintParams} (hmap : IsMapping IntRange p.amsMapping2)
    (h : FromMapping2 p) : ∃ pairs : List (ℤ × ℤ),
      amsMapping2ForCloud p = some (Node.ofNodes (pairs.map pairNode)).text ∧
        Derived p (pairs.map castPair) := by
  obtain ⟨hnil, -⟩ | ⟨t, ht, ⟨ds, hdoc⟩, hnum, hlists⟩ := exists_lists hmap
  · exact (h.1 (.inl (by rw [hnil]; rfl))).elim
  have htrim : trim p.amsMapping2 = Text.bytes ⟨.none, t.node, .none⟩ := by
    rw [← ht, trim_bytes hdoc]
    simp [Text.bytes, Ws.none]
  obtain ⟨-, hparse⟩ | ⟨-, e, he⟩ := parse_text hnum hdoc .none .none
  · refine ⟨t.node.nodes.map keyedPairAt, ?_, .inl ⟨h, _, hlists, ?_⟩⟩
    · rw [amsMapping2ForCloud, if_neg h.1, htrim, hparse]
      refine (appendPairs_eq (fun w hw => keyedPair_value (Node.numbers_nodes hnum w hw))
        true _).trans (congrArg some ?_)
      rw [← text_pairs]
      simp
    · rw [List.map_map, List.map_map]
      exact List.map_congr_left fun w hw => castPair_keyedPairAt (Node.numbers_nodes hnum w hw)
  · obtain ⟨vs, hvs⟩ := h.2
    rw [htrim, he] at hvs
    cases hvs

/-- **What is written from the flat mapping**, which is all of it when there are only integers. -/
theorem mapping2_of_flat {p : PrintParams} (hmap : IsMapping IntRange p.amsMapping)
    (h : ¬ FromMapping2 p) : ∃ pairs : List (ℤ × ℤ),
      amsMapping2ForCloud p = some (Node.ofNodes (pairs.map pairNode)).text ∧
        ((∀ ds, Lists p.amsMapping ds → ∀ d ∈ ds, ∃ i : ℤ, d = .number i) →
          Derived p (pairs.map castPair)) := by
  have hflat : amsMapping2ForCloud p = derivedFromFlat p := by
    rw [amsMapping2ForCloud]
    split
    · rfl
    · next hfilled =>
      split
      · next vs hvs => exact (h ⟨hfilled, vs, hvs⟩).elim
      · rfl
  rw [hflat]
  obtain ⟨hnil, hlists⟩ | ⟨t, ht, ⟨ds, hdoc⟩, hnum, hlists⟩ := exists_lists hmap
  · refine ⟨[], ?_, fun _ => .inr ⟨h, [], hlists, .nil⟩⟩
    rw [derivedFromFlat, hnil]
    rfl
  obtain ⟨-, hparse⟩ | ⟨hdeep, e, he⟩ := parse_text hnum hdoc t.before t.after
  · refine ⟨t.node.nodes.filterMap flatPairAt, ?_, fun hints => .inr ⟨h, _, hlists, ?_⟩⟩
    · rw [derivedFromFlat, ← ht, hparse]
      refine (appendPairs_eq (fun w hw => flatPair_value (Node.numbers_nodes hnum w hw))
        true _).trans (congrArg some ?_)
      rw [← text_pairs]
    · have hnodes := Node.numbers_nodes hnum
      have hall (w : Node) (hw : w ∈ t.node.nodes) := hints _ hlists w.doc (List.mem_map_of_mem hw)
      generalize t.node.nodes = ws at hnodes hall
      induction ws with
      | nil => exact .nil
      | cons w ws ih =>
        obtain ⟨i, hi⟩ := hall w List.mem_cons_self
        obtain ⟨pair, hpair, hof⟩ := flatPairAt_of_int (hnodes w List.mem_cons_self) hi
        rw [List.map_cons, List.filterMap_cons_some hpair, List.map_cons]
        exact .cons hof (ih (fun v hv => hnodes v (List.mem_cons_of_mem _ hv))
          fun v hv => hall v (List.mem_cons_of_mem _ hv))
  · refine ⟨[], ?_, fun hints => ?_⟩
    · rw [derivedFromFlat, ← ht, he]
      rfl
    · -- an array of integers is not nested at all
      have hshallow : t.node.depth ≤ 0 + 1 := by
        refine Node.depth_le hdoc fun w hw => ?_
        obtain ⟨i, hi⟩ := hints _ hlists w.doc (List.mem_map_of_mem hw)
        cases w with
        | number n => exact Nat.le_refl 0
        | null | bool | string | emptyArray | array | emptyObject | object =>
          exact absurd hi (by simp [Node.doc])
      exact absurd (hdeep.trans_le hshallow) (by decide)

/-! ## The body -/

variable {abi : ℕ} {forceTimelapseExternal : Bool} {p : PrintParams}
  {projectId modelId profileId : Bytes} {useLanChannel : Bool}

/-- The mappings are empty or arrays of what the code can read, and the profile id is empty or a
run of digits. -/
structure WellTyped (p : PrintParams) (profileId : Bytes) : Prop where
  info : IsMapping (fun _ => True) p.amsMappingInfo
  mapping : IsMapping IntRange p.amsMapping
  mapping2 : IsMapping IntRange p.amsMapping2
  nozzles : IsMapping (fun _ => True) p.nozzlesInfo
  nozzleMapping : IsMapping (fun _ => True) p.nozzleMapping
  profile : ∀ c ∈ profileId, isDigit c = true

theorem exists_row {P : Number → Prop} {raw : Bytes} (key : String) (h : IsMapping P raw) :
    ∃ v : Option Node, rowText (key, v) =
      if hasJsonPayload raw then put key (trim raw) else [] := by
  by_cases hpayload : hasJsonPayload raw = true
  · obtain ⟨v, hv⟩ := exists_payload h hpayload
    exact ⟨some v, by rw [if_pos hpayload, ← hv]; rfl⟩
  · exact ⟨none, by rw [if_neg hpayload]; rfl⟩

/-- What the second mapping becomes. -/
theorem exists_mapping2 (h : WellTyped p profileId) : ∃ pairs : List (ℤ × ℤ),
    amsMapping2ForCloud p = some (Node.ofNodes (pairs.map pairNode)).text ∧
      (Usable p profileId → Derived p (pairs.map castPair)) := by
  by_cases hfrom : FromMapping2 p
  · obtain ⟨pairs, htext, hderived⟩ := mapping2_of_keyed h.mapping2 hfrom
    exact ⟨pairs, htext, fun _ => hderived⟩
  · obtain ⟨pairs, htext, hderived⟩ := mapping2_of_flat h.mapping hfrom
    refine ⟨pairs, htext, fun husable => hderived fun ds hds d hd => ?_⟩
    obtain ⟨i, hi, -⟩ := husable.flat hfrom ds hds d hd
    exact ⟨i, hi⟩

theorem exists_left {α β : Type} {R : α → β → Prop} {as : List α} {bs : List β}
    (h : List.Forall₂ R as bs) {b : β} (hb : b ∈ bs) : ∃ a ∈ as, R a b := by
  induction h with
  | nil => cases hb
  | cons hab _ ih =>
    obtain rfl | hb := List.mem_cons.1 hb
    · exact ⟨_, List.mem_cons_self, hab⟩
    · obtain ⟨a, ha, hr⟩ := ih hb
      exact ⟨a, List.mem_cons_of_mem _ ha, hr⟩

/-- Slots of AMS 255 in the flat mapping. -/
theorem flatPairOf_sentinel {i : ℤ} {pair : ℚ × ℚ} (h : FlatPairOf (.number i) pair) :
    (pair.1 = 255 → pair.2 = 0) ↔ i ≠ 1021 ∧ i ≠ 1022 ∧ i ≠ 1023 := by
  obtain ⟨j, hj, rfl⟩ := h
  have hij : i = j := by exact_mod_cast Doc.number.inj hj
  subst hij
  split
  · next hneg =>
    refine iff_of_true (fun _ => rfl) ⟨?_, ?_, ?_⟩ <;> omega
  · next hnonneg =>
    have hams : (((i / 4 : ℤ) : ℚ) = 255) ↔ i / 4 = 255 := by norm_cast
    have hslot : (((i % 4 : ℤ) : ℚ) = 0) ↔ i % 4 = 0 := by norm_cast
    rw [hams, hslot]
    omega

/-- The pairs of usable parameters have slot 0 for an external spool. -/
theorem Derived.sentinel {pairs : List (ℚ × ℚ)} (h : Derived p pairs)
    (husable : Usable p profileId) : ∀ pair ∈ pairs, pair.1 = 255 → pair.2 = 0 := by
  intro pair hpair h255
  obtain ⟨hfrom, ds, hlists, rfl⟩ | ⟨hfrom, ds, hlists, hpairs⟩ := h
  · obtain ⟨d, hd, rfl⟩ := List.mem_map.1 hpair
    have hams : amsIdOf d = none ∨ amsIdOf d = some 255 := by
      cases ha : amsIdOf d with
      | none => exact .inl rfl
      | some q =>
        rw [keyedPairOf, ha] at h255
        exact .inr (congrArg some h255)
    obtain hslot | hslot := husable.keyed hfrom ds hlists d hd hams
    · rw [keyedPairOf, hslot]
      rfl
    · rw [keyedPairOf, hslot]
      rfl
  · obtain ⟨d, hd, hof⟩ := exists_left hpairs hpair
    obtain ⟨i, rfl, hi⟩ := husable.flat hfrom ds hlists d hd
    exact (flatPairOf_sentinel hof).2 hi h255

/-- Every part of the body has a tree, if the profile id has one. -/
theorem exists_trees (h : WellTyped p profileId) :
    ∃ (trees : TaskTrees) (pairs : List (ℤ × ℤ)), trees.Writes p ∧
      (trees.mapping2 = if hasJsonPayload p.amsMapping2 || hasJsonPayload p.amsMapping then
        some (.ofNodes (pairs.map pairNode)) else none) ∧
      (Usable p profileId → Derived p (pairs.map castPair)) ∧
      ((profileId.head? = some 0x30 → profileId = [0x30]) →
        trees.profile.text = if profileId = [] then ascii "0" else profileId) := by
  obtain ⟨info, hinfo⟩ := exists_default h.info
  obtain ⟨nozzles, hnozzles⟩ := exists_default h.nozzles
  obtain ⟨mapping, hmapping⟩ := exists_row "amsMapping" h.mapping
  obtain ⟨nozzleMapping, hnozzleMapping⟩ := exists_row "nozzleMapping" h.nozzleMapping
  obtain ⟨pairs, htext, hderived⟩ := exists_mapping2 h
  have hnumber : ∃ v : Node, (profileId.head? = some 0x30 → profileId = [0x30]) →
      v.text = if profileId = [] then ascii "0" else profileId := by
    by_cases hnil : profileId = []
    · exact ⟨intNode 0, fun _ => by rw [if_pos hnil, text_intNode]; rfl⟩
    by_cases hzero : profileId.head? = some 0x30 → profileId = [0x30]
    · refine ⟨.number ⟨⟨false, ⟨profileId, h.profile, hnil⟩, none, none⟩, hzero⟩, fun _ => ?_⟩
      rw [if_neg hnil]
      simp [Node.text, Numeral.text, Numeral.fracText, Numeral.expText]
    · exact ⟨.null, fun hz => absurd hz hzero⟩
  obtain ⟨profile, hprofile⟩ := hnumber
  refine ⟨⟨info, mapping, if hasJsonPayload p.amsMapping2 || hasJsonPayload p.amsMapping then
    some (.ofNodes (pairs.map pairNode)) else none, nozzles, nozzleMapping, profile⟩, pairs,
    ⟨hinfo, hmapping, ?_, hnozzles, hnozzleMapping⟩, rfl, hderived, hprofile⟩
  rw [rowText_ite, htext]
  split <;> rfl

/-- **A profile id with a leading zero is no JSON number**, and the body no JSON text. -/
theorem no_text {trees : TaskTrees} (hdigits : ∀ c ∈ profileId, isDigit c = true)
    (hzero : profileId.head? = some 0x30) (hne : profileId ≠ [0x30]) {t : Text}
    {ms : List (Bytes × Doc)} (hdoc : t.node.doc = .object ms) :
    t.bytes ≠ bodyBefore abi forceTimelapseExternal p modelId useLanChannel trees ++
      put "profileId" profileId ++ bodyAfter abi p := by
  intro hbytes
  obtain ⟨d, id, rfl⟩ : ∃ d id, profileId = 0x30 :: d :: id := by
    match profileId, hzero, hne with
    | [c], hzero, hne => exact absurd (congrArg ([·]) (Option.some.inj hzero)) hne
    | c :: d :: id, hzero, _ => exact ⟨d, id, by rw [Option.some.inj hzero]⟩
  have hd : isDigit d = true := hdigits d (by simp)
  have hkey : put "profileId" (0x30 :: d :: id) =
      comma :: (escape (ascii "profileId") ++ colon :: 0x30 :: d :: id) := by
    rw [show escape (ascii "profileId") = ascii "\"profileId\"" from by decide]
    rfl
  rw [bodyBefore_eq, hkey] at hbytes
  have hskip := congrArg skipWs hbytes
  simp only [Text.bytes, skipWs_ws, List.cons_append, List.append_assoc] at hskip
  rw [skipWs_cons (c := lbrace) (by decide)] at hskip
  cases hnode : t.node with
  | emptyObject ws =>
    rw [hnode] at hskip
    simp only [Node.text, List.cons_append, List.append_assoc, List.nil_append] at hskip
    rw [skipWs_cons (by decide)] at hskip
    exact not_empty_members (List.cons.inj hskip).2
  | object ms' =>
    rw [hnode] at hskip
    simp only [Node.text, List.cons_append, List.append_assoc, List.nil_append] at hskip
    rw [skipWs_cons (by decide)] at hskip
    obtain ⟨rest, hrest⟩ := members_follow _ (List.cons.inj hskip).2.symm
    obtain ⟨v, r, hr, hv⟩ := members_value (by decide) hrest
    obtain ⟨c, s, hhead, hkind⟩ := kind_head v
    rw [hhead] at hv
    obtain ⟨rfl, -⟩ := List.cons.inj hv
    rw [show Kind.of 0x30 = .number from by decide] at hkind
    cases v with
    | number n => exact number_ne_leadingZero n hd hr (hhead ▸ hv.symm)
    | bool b => cases b <;> exact absurd hkind (by decide)
    | null | string | emptyArray | array | emptyObject | object =>
      exact absurd hkind (by simp [kind])
  | null | bool | number | string | emptyArray | array =>
    rw [hnode] at hdoc
    exact absurd hdoc (by simp [Node.doc])

theorem mem_stringRows {trees : TaskTrees} {e : String × Bytes}
    (he : e ∈ stringMembers abi p modelId) :
    (e.1, some (strNode e.2)) ∈
      taskRows abi forceTimelapseExternal p modelId useLanChannel trees := by
  rw [stringMembers, List.mem_append] at he
  obtain he | he := he
  · simp only [List.mem_cons, List.not_mem_nil, or_false] at he
    obtain rfl | rfl | rfl | rfl | rfl := he <;> simp [taskRows, rowsBefore, rowsAfter]
  · split at he
    · next hcontext =>
      obtain rfl := List.mem_singleton.1 he
      simp [taskRows, rowsBefore, rowsAfter, hcontext]
    · cases he

theorem mem_mapping2Row {trees : TaskTrees} :
    ("amsMapping2", trees.mapping2) ∈
      taskRows abi forceTimelapseExternal p modelId useLanChannel trees := by
  simp [taskRows, rowsBefore]

/-- A body that can be read has usable parameters. -/
theorem usable_of_isTaskBody (h : WellTyped p profileId) {body : Bytes}
    (hsome : buildTaskBody abi forceTimelapseExternal p projectId modelId profileId useLanChannel =
      some body) (hread : IsTaskBody abi p modelId body) : Usable p profileId := by
  obtain ⟨trees, pairs, hwrites, hrow, -, hprofile⟩ := exists_trees h
  obtain ⟨t, ms, hbytes, hdoc, hms⟩ := hread
  obtain rfl := Option.some.inj (hsome.symm.trans (buildTaskBody_eq hwrites projectId profileId))
  have hzero : profileId.head? = some 0x30 → profileId = [0x30] := by
    intro hzero
    by_contra hne
    have hnil : profileId ≠ [] := by
      rintro rfl
      cases hzero
    rw [if_neg hnil] at hbytes
    exact no_text h.profile hzero hne hdoc hbytes
  have htree : (taskTree abi forceTimelapseExternal p modelId useLanChannel trees).doc =
      .object ms := by
    have htext : Text.bytes ⟨.none,
        taskTree abi forceTimelapseExternal p modelId useLanChannel trees, .none⟩ = t.bytes := by
      rw [hbytes, ← hprofile hzero, ← text_taskTree]
      simp [Text.bytes, Ws.none]
    exact (doc_eq_of_bytes htext).trans hdoc
  -- a mapping that lists something is there, and as it is expected
  have hpairs (hpayload : (hasJsonPayload p.amsMapping2 || hasJsonPayload p.amsMapping) = true) :
      ∃ pairs, Derived p pairs ∧ ∀ pair ∈ pairs, pair.1 = 255 → pair.2 = 0 := by
    have hmem := (mem_taskTree mem_mapping2Row htree _).2
      (show trees.mapping2.map Node.doc = some _ by rw [hrow, if_pos hpayload]; rfl)
    obtain ⟨pairs, -, hpairs⟩ := hms.mapping2 _ hmem
    exact ⟨pairs, hpairs⟩
  refine ⟨hzero, fun hfrom ds hlists d hd hams => ?_, fun hfrom ds hlists d hd => ?_⟩
  · have hpayload := hlists.payload (List.ne_nil_of_mem hd)
    obtain ⟨pairs, hder, hsentinel⟩ := hpairs (by rw [hpayload, Bool.true_or])
    obtain ⟨-, ds', hlists', rfl⟩ | ⟨hnot, -⟩ := hder
    · obtain rfl := hlists.unique hlists'
      have hspool : (keyedPairOf d).1 = 255 := by
        obtain hams | hams := hams
        · rw [keyedPairOf, hams]
          rfl
        · rw [keyedPairOf, hams]
          rfl
      have hslot := hsentinel _ (List.mem_map_of_mem hd) hspool
      cases hs : slotIdOf d with
      | none => exact .inl rfl
      | some q =>
        rw [keyedPairOf, hs] at hslot
        exact .inr (congrArg some hslot)
    · exact absurd hfrom hnot
  · have hpayload := hlists.payload (List.ne_nil_of_mem hd)
    obtain ⟨pairs, hder, hsentinel⟩ := hpairs (by rw [hpayload, Bool.or_true])
    obtain ⟨hfrom', -⟩ | ⟨-, ds', hlists', hall⟩ := hder
    · exact absurd hfrom' hfrom
    · obtain rfl := hlists.unique hlists'
      obtain ⟨pair, hpair, hof⟩ := exists_left hall.flip hd
      have hof' : FlatPairOf d pair := hof
      obtain ⟨i, rfl, -⟩ := hof
      exact ⟨i, rfl, (flatPairOf_sentinel hof').1 (hsentinel pair hpair)⟩

/-- Usable parameters give a body that can be read. -/
theorem isTaskBody_of_usable (h : WellTyped p profileId) (husable : Usable p profileId) :
    ∃ body, buildTaskBody abi forceTimelapseExternal p projectId modelId profileId useLanChannel =
      some body ∧ IsTaskBody abi p modelId body := by
  obtain ⟨trees, pairs, hwrites, hrow, hderived, hprofile⟩ := exists_trees h
  refine ⟨_, buildTaskBody_eq hwrites projectId profileId, ⟨.none,
    taskTree abi forceTimelapseExternal p modelId useLanChannel trees, .none⟩, _, ?_, rfl,
    fun e he d => ?_, fun d hd => ?_⟩
  · rw [← hprofile husable.profile, ← text_taskTree]
    simp [Text.bytes, Ws.none]
  · rw [mem_taskTree (mem_stringRows he) rfl, Option.map_some, strNode, Node.doc, decoded_strOf]
    exact ⟨fun hd => (Option.some.inj hd).symm, fun hd => hd ▸ rfl⟩
  · rw [mem_taskTree mem_mapping2Row rfl, hrow] at hd
    split at hd
    · refine ⟨pairs.map castPair, ?_, hderived husable, (hderived husable).sentinel husable⟩
      rw [← Option.some.inj hd, Node.doc_ofNodes, List.map_map, List.map_map]
      exact congrArg Doc.array (List.map_congr_left fun pair _ => doc_pairNode pair)
    · cases hd

/-- **The body can be read by the service exactly when the parameters are usable.** -/
theorem buildTaskBody_iff (h : WellTyped p profileId) :
    (∃ body, buildTaskBody abi forceTimelapseExternal p projectId modelId profileId useLanChannel =
      some body ∧ IsTaskBody abi p modelId body) ↔ Usable p profileId :=
  ⟨fun hbody => hbody.elim fun _ hread => usable_of_isTaskBody h hread.1 hread.2,
    isTaskBody_of_usable h⟩

/-- A print from an external spool, without options. -/
def spoolParams (amsMapping amsMapping2 : Bytes) : PrintParams where
  devId := ascii "DEV001"
  taskName := ascii "test_print"
  projectName := ascii "TestProject"
  plateIndex := 1
  amsMapping := amsMapping
  amsMapping2 := amsMapping2
  taskBedLeveling := false
  taskFlowCali := false
  taskVibrationCali := false
  taskLayerInspect := false
  taskRecordTimelapse := false
  taskTimelapseUseInternal := false
  taskUseAms := false
  taskExtChangeAssist := false

theorem intRange_ofInt {n : ℤ} (hge : -2 ^ 31 ≤ n) (hlt : n < 2 ^ 31) : IntRange (.ofInt n) := by
  refine ⟨Number.isInt_ofInt n, ?_⟩
  rw [Number.intValue_ofInt]
  exact ⟨hge, hlt⟩

/-- `[-1]`. -/
def flatSpool : Text := ⟨.none, .ofNodes [.number (.ofInt (-1))], .none⟩

theorem flatSpool_doc : flatSpool.node.doc = .array [.number (-1 : ℤ)] := by
  rw [flatSpool, Node.doc_ofNodes, List.map_singleton, Node.doc,
    Numeral.toRat_of_isInt (Number.isInt_ofInt _), Number.intValue_ofInt]

theorem buildTaskBody_flatSpool :
    ∃ body, buildTaskBody 0x020802 false (spoolParams flatSpool.bytes []) (ascii "proj1")
      (ascii "model1") (ascii "42") false = some body ∧
      IsTaskBody 0x020802 (spoolParams flatSpool.bytes []) (ascii "model1") body := by
  have hnot : ¬ FromMapping2 (spoolParams flatSpool.bytes []) := fun h => h.1 (.inl rfl)
  refine (buildTaskBody_iff ⟨.inl rfl, .inr ⟨flatSpool, rfl, ⟨_, flatSpool_doc⟩,
    intRange_ofInt (by decide) (by decide)⟩, .inl rfl, .inl rfl, .inl rfl,
    List.all_iff_forall_prop.1 (by decide)⟩).2 ⟨fun h => absurd h (by decide),
      fun h => absurd h hnot, fun _ ds hlists d hd => ?_⟩
  obtain rfl := hlists.unique (.inr ⟨flatSpool, rfl, flatSpool_doc⟩)
  obtain rfl := List.mem_singleton.1 hd
  exact ⟨-1, rfl, by decide⟩

/-! ## How Studio writes an external spool -/

/-- `[\x7b"ams_id":255,"slot_id":255\x7d]`. -/
noncomputable def keyedSpool : Text :=
  ⟨.none, .ofNodes [.object (.ofFields (strOf (ascii "ams_id"), intNode 255)
    [(strOf (ascii "slot_id"), intNode 255)])], .none⟩

theorem keyedSpool_bytes :
    keyedSpool.bytes = ascii "[\x7b\"ams_id\":255,\"slot_id\":255\x7d]" := by
  have hams : escape (ascii "ams_id") = ascii "\"ams_id\"" := by decide
  have hslot : escape (ascii "slot_id") = ascii "\"slot_id\"" := by decide
  have hint : decimalInt 255 = ascii "255" := by decide
  rw [keyedSpool, Text.bytes, Node.text_ofNodes, Node.text, Members.text_ofFields]
  simp only [Field.text, text_strOf, text_intNode, List.flatMap_cons, List.flatMap_nil, hams,
    hslot, hint, Ws.none]
  rfl

theorem keyedSpool_doc : keyedSpool.node.doc =
    .array [.object [(ascii "ams_id", .number 255), (ascii "slot_id", .number 255)]] := by
  have hint : (intNode 255).doc = .number 255 := by
    rw [intNode, Node.doc, Numeral.toRat_of_isInt (Number.isInt_ofInt _), Number.intValue_ofInt]
    rfl
  rw [keyedSpool, Node.doc_ofNodes, List.map_singleton, Node.doc, Members.docs_ofFields]
  simp only [Field.doc, decoded_strOf, hint, List.map_cons, List.map_nil]

theorem keyedSpool_numbers : keyedSpool.node.Numbers IntRange :=
  have h : IntRange (.ofInt 255) := intRange_ofInt (by decide) (by decide)
  ⟨h, h⟩

theorem wellTyped_keyedSpool : WellTyped (spoolParams [] keyedSpool.bytes) (ascii "42") where
  info := .inl rfl
  mapping := .inl rfl
  mapping2 := .inr ⟨keyedSpool, rfl, ⟨_, keyedSpool_doc⟩, keyedSpool_numbers⟩
  nozzles := .inl rfl
  nozzleMapping := .inl rfl
  profile := List.all_iff_forall_prop.1 (by decide)

/-- The pair goes out with slot 255. -/
theorem not_usable_keyedSpool : ¬ Usable (spoolParams [] keyedSpool.bytes) (ascii "42") := by
  intro h
  have hfrom : FromMapping2 (spoolParams [] keyedSpool.bytes) := by
    refine ⟨?_, ?_⟩
    · show ¬ (trim keyedSpool.bytes = [] ∨ trim keyedSpool.bytes = ascii "[]")
      rw [keyedSpool_bytes]
      decide
    · show ∃ vs, parse (trim keyedSpool.bytes) = .ok (.array vs)
      have htrim : trim keyedSpool.bytes = keyedSpool.bytes := by
        rw [trim_bytes keyedSpool_doc]
        simp [keyedSpool, Text.bytes, Ws.none]
      obtain ⟨-, hparse⟩ | ⟨hdeep, -⟩ :=
        parse_text keyedSpool_numbers keyedSpool_doc keyedSpool.before keyedSpool.after
      · exact ⟨_, htrim ▸ hparse⟩
      · exact absurd (show kMaxNestingDepth < 2 from hdeep) (by decide)
  have hslot := h.keyed hfrom _ (.inr ⟨keyedSpool, rfl, keyedSpool_doc⟩) _ List.mem_cons_self
    (.inr rfl)
  obtain hslot | hslot := hslot
  · cases hslot
  · have hzero : (255 : ℚ) = 0 := Option.some.inj hslot
    norm_num at hzero

/-- **An external spool as Studio writes it makes a body that the service refuses.** -/
theorem buildTaskBody_keyedSpool :
    let p := spoolParams [] (ascii "[\x7b\"ams_id\":255,\"slot_id\":255\x7d]")
    WellTyped p (ascii "42") ∧
      ¬ ∃ body, buildTaskBody 0x020802 false p (ascii "proj1") (ascii "model1") (ascii "42") false =
        some body ∧ IsTaskBody 0x020802 p (ascii "model1") body := by
  rw [← keyedSpool_bytes]
  refine ⟨wellTyped_keyedSpool, fun hbody => ?_⟩
  obtain ⟨body, hsome, hread⟩ := hbody
  exact not_usable_keyedSpool (usable_of_isTaskBody wellTyped_keyedSpool hsome hread)

end BambooNet.Cloud
