import BambooNet.Config.Edits

/-!
# Each of the three fixes

A fix edits its own key and leaves nothing of it to do: `fixLines_spec`, `fixLogToFile_spec` and
`fixClientName_spec`. A result of 0 means that it changed nothing (`fixLogToFile_zero`,
`fixClientName_zero`).
-/

namespace BambooNet.Config

open CString

variable {es : List Bytes}

/-! ## `block_cloud` -/

/-- Line `i` sets `block_cloud` to a true value. -/
def BlockTarget (ls : List Bytes) (i : ℕ) : Prop :=
  ∃ l v, ls[i]? = some l ∧ parseBlockCloudLine l = some v ∧ truthy v false = true

theorem blank_eolOf (line : Bytes) : Blank (eolOf line) := by
  rw [eolOf]
  split
  · exact List.forall_mem_singleton.2 (by decide)
  · obtain ⟨ws, hws, hline⟩ := exists_stripEol line
    have hdrop := @List.drop_left _ (stripEol line) ws
    rw [hline] at hdrop
    rw [hdrop]
    exact hws

theorem parseBlockCloudLine_off {ws : Bytes} (hws : Blank ws) :
    parseBlockCloudLine (ascii "block_cloud = 0" ++ ws) = some (ascii "0") := by
  rw [parseBlockCloudLine_append_blank _ hws]
  decide

theorem parseBlockCloudLine_fixLine (line : Bytes) :
    parseBlockCloudLine (fixLine line) =
      (parseBlockCloudLine line).map fun v => if truthy v false then ascii "0" else v := by
  rw [fixLine, parseBlockCloudLine_stripEol]
  cases hval : parseBlockCloudLine line with
  | none => rw [hval, Option.map_none]
  | some v =>
    dsimp only
    split
    · next htrue => rw [parseBlockCloudLine_off (blank_eolOf line), Option.map_some, if_pos htrue]
    · next hfalse => rw [hval, Option.map_some, if_neg hfalse]

theorem fixLine_of_off {line : Bytes}
    (h : ∀ v, parseBlockCloudLine line = some v → truthy v false = false) :
    fixLine line = line := by
  rw [fixLine, parseBlockCloudLine_stripEol]
  cases hval : parseBlockCloudLine line with
  | none => rfl
  | some v =>
    dsimp only
    rw [h v hval]
    rfl

theorem ended_off {line : Bytes} (h : Ended newline line) :
    Ended newline (ascii "block_cloud = 0" ++ eolOf line) := by
  obtain ⟨b, hb, rfl⟩ := h
  have hstrip : stripEol (b ++ [newline]) = stripEol b :=
    List.rdropWhile_concat_pos isEol b newline rfl
  have hle : (stripEol b).length ≤ b.length := (List.rdropWhile_prefix isEol b).length_le
  have hne : (stripEol b).length ≠ (b ++ [newline]).length := by
    rw [List.length_append, List.length_singleton]
    omega
  rw [eolOf, hstrip, if_neg hne, List.drop_append_of_le_length hle]
  refine ⟨ascii "block_cloud = 0" ++ b.drop (stripEol b).length, ?_, by simp⟩
  rw [List.mem_append, not_or]
  exact ⟨by decide, fun hmem => hb (List.mem_of_mem_drop hmem)⟩

theorem piece_off {line : Bytes} (h : newline ∉ line) :
    Ended newline (ascii "block_cloud = 0" ++ eolOf line) ∨
      newline ∉ ascii "block_cloud = 0" ++ eolOf line ∧
        ascii "block_cloud = 0" ++ eolOf line ≠ [] := by
  rw [eolOf]
  split
  · exact .inl ⟨ascii "block_cloud = 0", by decide, rfl⟩
  · refine .inr ⟨?_, List.append_ne_nil_of_left_ne_nil (by decide) _⟩
    rw [List.mem_append, not_or]
    exact ⟨by decide, fun hmem => h (List.mem_of_mem_drop hmem)⟩

theorem fixLine_cases (line : Bytes) :
    fixLine line = line ∨ fixLine line = ascii "block_cloud = 0" ++ eolOf line ∧
      ∃ v, parseBlockCloudLine line = some v ∧ truthy v false = true := by
  rw [fixLine, parseBlockCloudLine_stripEol]
  cases hval : parseBlockCloudLine line with
  | none => exact .inl rfl
  | some v =>
    dsimp only
    split
    · next htrue => exact .inr ⟨rfl, v, rfl, htrue⟩
    · exact .inl rfl

theorem pieces_fixLine (h : Pieces newline es) : Pieces newline (es.map fixLine) := by
  apply h.replace
  rw [List.forall₂_map_right_iff]
  refine List.forall₂_same.2 fun line _ => ?_
  rcases fixLine_cases line with heq | ⟨heq, -⟩
  · rw [heq]
    exact ⟨id, .inr⟩
  · rw [heq]
    exact ⟨ended_off, fun hline => piece_off hline.1⟩

/-- The line as `getline` reads it is unchanged, or it is one of the key before and after. -/
theorem body_fixLine {line : Bytes} (h : Ended newline line ∨ newline ∉ line ∧ line ≠ []) :
    body newline (fixLine line) = body newline line ∨
      (keyOf (body newline line) = some (ascii "block_cloud") ∧
        keyOf (body newline (fixLine line)) = some (ascii "block_cloud")) ∧
      ∃ v, parseBlockCloudLine (body newline line) = some v ∧ truthy v false = true := by
  rcases fixLine_cases line with heq | ⟨heq, v, hval, htrue⟩
  · exact .inl (by rw [heq])
  · have hoff : Ended newline (fixLine line) ∨ newline ∉ fixLine line ∧ fixLine line ≠ [] := by
      rw [heq]
      exact h.elim (fun hend => .inl (ended_off hend)) fun hno => piece_off hno.1
    have hval' : parseBlockCloudLine (fixLine line) = some (ascii "0") := by
      rw [heq, parseBlockCloudLine_off (blank_eolOf line)]
    refine .inr ⟨⟨?_, ?_⟩, v, ?_, htrue⟩
    · rw [keyOf_body h, keyOf_of_parseBlockCloudLine hval]
    · rw [keyOf_body hoff, keyOf_of_parseBlockCloudLine hval']
    · rw [reads_parseBlockCloudLine.body h, hval]

theorem fixLines_cases (es : List Bytes) :
    es.filterMap parseBlockCloudLine = [] ∧
        fixLines es = (appendBlock es kBlockCloudHeader, .appended) ∨
      es.filterMap parseBlockCloudLine ≠ [] ∧ (fixLines es).1 = es.map fixLine ∧
        ((fixLines es).2 = .set ∧
            (∃ v ∈ es.filterMap parseBlockCloudLine, truthy v false = true) ∨
          (fixLines es).2 = .unchanged ∧ es.map fixLine = es) := by
  have hvalues : es.filterMap (fun line => parseBlockCloudLine (stripEol line)) =
      es.filterMap parseBlockCloudLine :=
    List.filterMap_congr fun line _ => parseBlockCloudLine_stripEol line
  rw [fixLines, hvalues]
  split
  · next hnil => exact .inl ⟨hnil, rfl⟩
  · next hne =>
    refine .inr ⟨hne, rfl, ?_⟩
    dsimp only
    split
    · next hany => exact .inl ⟨rfl, List.any_eq_true.1 hany⟩
    · next hoff =>
      refine .inr ⟨rfl, ?_⟩
      conv_rhs => rw [← List.map_id es]
      apply List.map_congr_left
      intro line hline
      apply fixLine_of_off
      intro v hv
      have hmem := List.mem_filterMap.2 ⟨line, hline, hv⟩
      rw [List.any_eq_true] at hoff
      exact Bool.eq_false_iff.2 fun htrue => hoff ⟨v, hmem, htrue⟩

/-- `es₁` is `es` with `block_cloud` off. -/
structure BlockFixed (es es₁ : List Bytes) : Prop where
  pieces : Pieces newline es₁
  edit : Edit (ascii "block_cloud") (bodies es) (bodies es₁)
  kept : ∀ i l, (bodies es)[i]? = some l → ¬ BlockTarget (bodies es) i →
    (bodies es₁)[i]? = some l
  set : es₁.filterMap parseBlockCloudLine ≠ []
  off : ∀ v ∈ es₁.filterMap parseBlockCloudLine, truthy v false = false

theorem blockFixed_map (h : Pieces newline es) (hset : es.filterMap parseBlockCloudLine ≠ []) :
    BlockFixed es (es.map fixLine) := by
  have hvalues : (es.map fixLine).filterMap parseBlockCloudLine =
      (es.filterMap parseBlockCloudLine).map fun v => if truthy v false then ascii "0" else v := by
    rw [List.filterMap_map, List.map_filterMap]
    exact List.filterMap_congr fun line _ => parseBlockCloudLine_fixLine line
  refine ⟨pieces_fixLine h, ?_, ?_, ?_, ?_⟩
  · refine ⟨bodies (es.map fixLine), [], (List.append_nil _).symm, ?_, List.forall_mem_nil _⟩
    rw [bodies, bodies, List.map_map, List.forall₂_map_left_iff, List.forall₂_map_right_iff]
    refine List.forall₂_same.2 fun line hline => ?_
    exact (body_fixLine (h.ended_or line hline)).imp id And.left
  · intro i l hl htarget
    rw [bodies, List.getElem?_map, Option.map_eq_some_iff] at hl
    obtain ⟨line, hline, rfl⟩ := hl
    rw [bodies, List.getElem?_map, List.getElem?_map, hline]
    rcases body_fixLine (h.ended_or line (List.mem_of_getElem? hline)) with heq | ⟨-, v, hv, htrue⟩
    · exact congrArg some heq
    · refine absurd ⟨body newline line, v, ?_, hv, htrue⟩ htarget
      rw [bodies, List.getElem?_map, hline]
      rfl
  · rw [hvalues]
    exact fun hnil => hset (List.map_eq_nil_iff.1 hnil)
  · rw [hvalues]
    intro v hv
    obtain ⟨u, -, rfl⟩ := List.mem_map.1 hv
    split
    · decide
    · next hfalse => exact Bool.eq_false_iff.2 hfalse

/-- The header is evaluated once, for all that is said of it. -/
theorem header_facts :
    ((splitLines newline kBlockCloudHeader).all fun l =>
        fixKeys.all fun k => keyOf l ≠ some k ∨ k = ascii "block_cloud") = true ∧
      (splitLines newline kBlockCloudHeader).filterMap parseBlockCloudLine = [ascii "0"] ∧
      (closed kBlockCloudHeader = kBlockCloudHeader ∧ stripEol kBlockCloudHeader ≠ []) ∧
      keepEnds newline kBlockCloudHeader =
        (keepEnds newline kBlockCloudHeader).dropLast ++ [ascii "block_cloud = 0\n"] ∧
      ((kBlockCloudHeader :: keepEnds newline kBlockCloudHeader).all fun l =>
        keyOf l ≠ some (ascii "log_to_file") ∧ keyOf l ≠ some (ascii "client_name")) = true := by
  decide +kernel

theorem header_keys : ∀ l ∈ splitLines newline kBlockCloudHeader, ∀ k ∈ fixKeys,
    keyOf l = some k → k = ascii "block_cloud" := by
  intro l hl k hk hkey
  have hall := List.all_eq_true.1 (List.all_eq_true.1 header_facts.1 l hl) k hk
  exact (of_decide_eq_true hall).resolve_left fun hne => hne hkey

theorem header_values :
    (splitLines newline kBlockCloudHeader).filterMap parseBlockCloudLine = [ascii "0"] :=
  header_facts.2.1

/-- `block_cloud` is off after the fix, whose list of lines may have the header in one piece. -/
theorem fixLines_spec (h : Pieces newline es) :
    ∃ es₁, BlockFixed es es₁ ∧
      ((fixLines es).1 = es₁ ∧
          ((fixLines es).2 = .set ∨ (fixLines es).2 = .unchanged ∧ es₁ = es) ∨
        (fixLines es).2 = .appended ∧ ∃ init, (fixLines es).1 = init ++ [kBlockCloudHeader] ∧
          es₁ = init ++ keepEnds newline kBlockCloudHeader) := by
  rcases fixLines_cases es with ⟨hnil, hfix⟩ | ⟨hset, hfix, hout⟩
  · obtain ⟨init, extra, happend, hinit, hbodies, gap, rfl, hgap⟩ :=
      bodies_appendBlock h kBlockCloudHeader
    have hpieces := Pieces.of_ended hinit (pieces_keepEnds (d := newline) kBlockCloudHeader)
    have hvalues : (init ++ keepEnds newline kBlockCloudHeader).filterMap parseBlockCloudLine =
        [ascii "0"] := by
      rw [← reads_parseBlockCloudLine.filterMap_bodies hpieces, hbodies,
        filterMap_gap (by decide) hgap, reads_parseBlockCloudLine.filterMap_bodies h, hnil,
        header_values, List.nil_append]
    refine ⟨init ++ keepEnds newline kBlockCloudHeader, ⟨hpieces, ?_, ?_, ?_, ?_⟩,
      .inr ⟨?_, init, ?_, rfl⟩⟩
    · rw [hbodies]
      exact edit_appendBlock hgap header_keys _
    · intro i l hl _
      rw [hbodies]
      exact getElem?_kept hl
    · rw [hvalues]
      decide
    · rw [hvalues]
      exact List.forall_mem_singleton.2 (by decide)
    · rw [hfix]
    · rw [hfix, happend]
  · exact ⟨es.map fixLine, blockFixed_map h hset, .inl ⟨hfix, hout.imp And.left id⟩⟩

/-! ## `log_to_file` -/

theorem valid_logValue (installerDefault : Bool) : Valid (logValue installerDefault) := by
  intro v w h
  rw [logValue] at h
  split_ifs at h
  obtain rfl := Option.some.inj h
  exact ⟨by decide, List.all_iff_forall_prop.1 (by decide)⟩

/-- `es₂` is `es` with a `log_to_file`. -/
structure LogFixed (installerDefault : Bool) (es es₂ : List Bytes) : Prop where
  pieces : Pieces newline es₂
  edit : Edit (ascii "log_to_file") (bodies es) (bodies es₂)
  kept : ∀ i l, (bodies es)[i]? = some l →
    ¬ FirstTarget (ascii "log_to_file") (logValue installerDefault) (bodies es) i →
    (bodies es₂)[i]? = some l
  set : es₂.filterMap (valueOf (ascii "log_to_file")) ≠ []

theorem logLine_keys : ∀ l ∈ splitLines newline (ascii "log_to_file = 1\n"), ∀ k ∈ fixKeys,
    keyOf l = some k → k = ascii "log_to_file" :=
  List.all_iff_forall_prop.1 (by decide)

theorem logLine_values :
    (splitLines newline (ascii "log_to_file = 1\n")).filterMap (valueOf (ascii "log_to_file")) =
      [ascii "1"] := by
  decide

theorem keepEnds_logLine :
    keepEnds newline (ascii "log_to_file = 1\n") = [ascii "log_to_file = 1\n"] := by
  decide

theorem fixLogToFile_spec (h : Pieces newline es) (installerDefault : Bool) :
    LogFixed installerDefault es (fixLogToFile es installerDefault).1 := by
  have hread := reads_valueOf isKey_logToFile
  rw [fixLogToFile]
  cases hrw : rewriteFirst (ascii "log_to_file") (logValue installerDefault) es with
  | none =>
    obtain ⟨init, extra, happend, hinit, hbodies, gap, rfl, hgap⟩ :=
      bodies_appendBlock h (ascii "log_to_file = 1\n")
    have hpieces := Pieces.of_ended hinit
      (pieces_keepEnds (d := newline) (ascii "log_to_file = 1\n"))
    dsimp only
    rw [happend, ← keepEnds_logLine]
    refine ⟨hpieces, ?_, ?_, ?_⟩
    · rw [hbodies]
      exact edit_appendBlock hgap logLine_keys _
    · intro i l hl _
      rw [hbodies]
      exact getElem?_kept hl
    · rw [← hread.filterMap_bodies hpieces, hbodies, filterMap_gap (by decide) hgap,
        logLine_values]
      exact List.append_ne_nil_of_right_ne_nil _ (by decide)
  | some e =>
    obtain ⟨es', b⟩ := e
    have hspec := rewritten isKey_logToFile (valid_logValue installerDefault) h hrw
    obtain ⟨v, hv, -⟩ := hspec.head
    refine ⟨hspec.pieces, hspec.edit, hspec.kept, ?_⟩
    intro hnil
    rw [hnil] at hv
    cases hv

theorem one_ne_zero_int32 : (1 : Int32) ≠ 0 := by decide

/-- A result of 0 changes nothing. -/
theorem fixLogToFile_zero {installerDefault : Bool}
    (h : (fixLogToFile es installerDefault).2 = 0) : (fixLogToFile es installerDefault).1 = es := by
  rw [fixLogToFile] at h ⊢
  cases hrw : rewriteFirst (ascii "log_to_file") (logValue installerDefault) es with
  | none =>
    rw [hrw] at h
    exact absurd h one_ne_zero_int32
  | some e =>
    obtain ⟨es', b⟩ := e
    rw [hrw] at h
    cases b with
    | false => exact eq_of_rewriteFirst_false isKey_logToFile hrw
    | true => exact absurd h one_ne_zero_int32

theorem fixLogToFile_settled (h : es.filterMap (valueOf (ascii "log_to_file")) ≠ []) :
    fixLogToFile es false = (es, 0) := by
  rw [fixLogToFile]
  rcases rewriteFirst_cases isKey_logToFile (logValue false) es with
    ⟨hnone, -⟩ | ⟨a, l, b, v, -, -, -, ⟨-, hrw⟩ | ⟨w, l', hf, -⟩⟩
  · exact absurd (List.filterMap_eq_nil_iff.2 hnone) h
  · rw [hrw]
    rfl
  · cases hf

/-! ## `client_name` -/

theorem valid_clientValue : Valid clientValue := by
  intro v w h
  rw [clientValue] at h
  split_ifs at h
  obtain rfl := Option.some.inj h
  exact ⟨by decide, List.all_iff_forall_prop.1 (by decide)⟩

theorem clientValue_clientValue {u v : Bytes} (h : clientValue u = some v) :
    clientValue v = none := by
  rw [clientValue] at h
  split_ifs at h
  obtain rfl := Option.some.inj h
  decide

/-- `es₃` is `es` with a `client_name` that may stay. -/
structure ClientFixed (es es₃ : List Bytes) : Prop where
  pieces : Pieces newline es₃
  edit : Edit (ascii "client_name") (bodies es) (bodies es₃)
  kept : ∀ i l, (bodies es)[i]? = some l →
    ¬ FirstTarget (ascii "client_name") clientValue (bodies es) i → (bodies es₃)[i]? = some l
  stays : ∀ v, (es₃.filterMap (valueOf (ascii "client_name"))).head? = some v → clientValue v = none

theorem fixClientName_spec (h : Pieces newline es) : ClientFixed es (fixClientName es).1 := by
  rw [fixClientName]
  cases hrw : rewriteFirst (ascii "client_name") clientValue es with
  | none =>
    have hnone := valueOf_of_rewriteFirst_none isKey_clientName hrw
    refine ⟨h, Edit.refl _ _, fun _ _ hi _ => hi, ?_⟩
    intro v hv
    dsimp only at hv
    rw [List.filterMap_eq_nil_iff.2 hnone] at hv
    cases hv
  | some e =>
    obtain ⟨es', b⟩ := e
    have hspec := rewritten isKey_clientName valid_clientValue h hrw
    obtain ⟨v, hv, hstay⟩ := hspec.head
    refine ⟨hspec.pieces, hspec.edit, hspec.kept, ?_⟩
    intro u hu
    dsimp only at hu
    rw [hv] at hu
    obtain rfl := Option.some.inj hu
    rcases hstay with hnone | ⟨x, hx⟩
    · exact hnone
    · exact clientValue_clientValue hx

theorem fixClientName_zero (h : (fixClientName es).2 = 0) : (fixClientName es).1 = es := by
  rw [fixClientName] at h ⊢
  cases hrw : rewriteFirst (ascii "client_name") clientValue es with
  | none => rfl
  | some e =>
    obtain ⟨es', b⟩ := e
    rw [hrw] at h
    cases b with
    | false => exact eq_of_rewriteFirst_false isKey_clientName hrw
    | true => exact absurd h one_ne_zero_int32

theorem fixClientName_settled (h : ∀ v, (es.filterMap (valueOf (ascii "client_name"))).head? =
    some v → clientValue v = none) : fixClientName es = (es, 0) := by
  rw [fixClientName]
  rcases rewriteFirst_cases isKey_clientName clientValue es with
    ⟨-, hrw⟩ | ⟨a, l, b, v, rfl, ha, hl, ⟨-, hrw⟩ | ⟨w, l', hf, -⟩⟩
  · rw [hrw]
  · rw [hrw]
    rfl
  · have := h v (head?_filterMap_split ha hl)
    rw [hf] at this
    cases this

end BambooNet.Config
