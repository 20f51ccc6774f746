import BambooNet.Config.SingleFixes

/-!
# A fixed file stays as it is

**One string of three lines.** The block that is appended for `block_cloud` is one entry of the
list, though a later read finds three lines in it. None of the other keys is in it, so the fixes
behind it do the same as on the lines of the file written so far (`fixes_header`).

**The three fixes together.** Each edits its own key, so what one of them settles the others keep
(`settled`), and lines with nothing to fix stay (`confFixes_settled`).

**The theorem.** `fixes_settle`.
-/

namespace BambooNet.Config

open CString

variable {es : List Bytes}

/-! ## The header in one piece -/

variable {init X X' : List Bytes}

theorem valueOf_eq_none_of_keyOf {key l : Bytes} (hkey : IsKey key) (h : keyOf l ≠ some key) :
    valueOf key l = none := by
  cases hval : valueOf key l with
  | none => rfl
  | some v => exact absurd (keyOf_of_valueOf hkey hval) h

/-- The scan for a key that is not behind `init` does the same whatever is there. -/
theorem fixClientName_append (hX : ∀ l ∈ X, keyOf l ≠ some (ascii "client_name"))
    (hX' : ∀ l ∈ X', keyOf l ≠ some (ascii "client_name")) (hflat : X.flatten = X'.flatten) :
    (fixClientName (init ++ X)).1.flatten = (fixClientName (init ++ X')).1.flatten ∧
      (fixClientName (init ++ X)).2 = (fixClientName (init ++ X')).2 := by
  have hkey := isKey_clientName
  rw [fixClientName, fixClientName,
    rewriteFirst_append hkey fun l hl => valueOf_eq_none_of_keyOf hkey (hX l hl),
    rewriteFirst_append hkey fun l hl => valueOf_eq_none_of_keyOf hkey (hX' l hl)]
  cases rewriteFirst (ascii "client_name") clientValue init with
  | none =>
    refine ⟨?_, rfl⟩
    dsimp only [Option.map_none]
    rw [List.flatten_append, List.flatten_append, hflat]
  | some e =>
    refine ⟨?_, rfl⟩
    dsimp only [Option.map_some]
    rw [List.flatten_append, List.flatten_append, hflat]

theorem header_closed : closed kBlockCloudHeader = kBlockCloudHeader ∧
    stripEol kBlockCloudHeader ≠ [] :=
  header_facts.2.2.1

theorem header_last : ∃ base last, keepEnds newline kBlockCloudHeader = base ++ [last] ∧
    closed last = last ∧ stripEol last ≠ [] :=
  ⟨(keepEnds newline kBlockCloudHeader).dropLast, ascii "block_cloud = 0\n",
    header_facts.2.2.2.1, by decide⟩

theorem header_foreign : ∀ l ∈ kBlockCloudHeader :: keepEnds newline kBlockCloudHeader,
    keyOf l ≠ some (ascii "log_to_file") ∧ keyOf l ≠ some (ascii "client_name") := by
  intro l hl
  exact of_decide_eq_true (List.all_eq_true.1 header_facts.2.2.2.2 l hl)

theorem logBlock_foreign : ∀ l ∈ [[newline], ascii "log_to_file = 1\n"],
    keyOf l ≠ some (ascii "client_name") :=
  List.all_iff_forall_prop.1 (by decide)

theorem appendBlock_header (init : List Bytes) (block : Bytes) :
    appendBlock (init ++ [kBlockCloudHeader]) block =
        init ++ ([kBlockCloudHeader] ++ [[newline], block]) ∧
      appendBlock (init ++ keepEnds newline kBlockCloudHeader) block =
        init ++ (keepEnds newline kBlockCloudHeader ++ [[newline], block]) := by
  obtain ⟨hclosed, hne⟩ := header_closed
  obtain ⟨base, last, hlast, hclosed', hne'⟩ := header_last
  constructor
  · rw [appendBlock_concat, hclosed, if_neg hne]
    simp
  · rw [hlast, ← List.append_assoc, appendBlock_concat, hclosed', if_neg hne']
    simp

/-- So the other two fixes do the same whether the header is one piece or three lines. -/
theorem fixes_header (init : List Bytes) (installerDefault : Bool) :
    let log := fixLogToFile (init ++ [kBlockCloudHeader]) installerDefault
    let log' := fixLogToFile (init ++ keepEnds newline kBlockCloudHeader) installerDefault
    log.2 = log'.2 ∧ (fixClientName log.1).1.flatten = (fixClientName log'.1).1.flatten ∧
      (fixClientName log.1).2 = (fixClientName log'.1).2 := by
  have hkey := isKey_logToFile
  have hflat : [kBlockCloudHeader].flatten = (keepEnds newline kBlockCloudHeader).flatten := by
    rw [List.flatten_singleton, flatten_keepEnds]
  have hone : ∀ l ∈ [kBlockCloudHeader], keyOf l ≠ some (ascii "log_to_file") ∧
      keyOf l ≠ some (ascii "client_name") :=
    List.forall_mem_singleton.2 (header_foreign _ List.mem_cons_self)
  have hthree : ∀ l ∈ keepEnds newline kBlockCloudHeader, keyOf l ≠ some (ascii "log_to_file") ∧
      keyOf l ≠ some (ascii "client_name") :=
    fun l hl => header_foreign l (List.mem_cons_of_mem _ hl)
  dsimp only
  rw [fixLogToFile, fixLogToFile,
    rewriteFirst_append hkey fun l hl => valueOf_eq_none_of_keyOf hkey (hone l hl).1,
    rewriteFirst_append hkey fun l hl => valueOf_eq_none_of_keyOf hkey (hthree l hl).1]
  cases rewriteFirst (ascii "log_to_file") (logValue installerDefault) init with
  | none =>
    obtain ⟨happend, happend'⟩ := appendBlock_header init (ascii "log_to_file = 1\n")
    dsimp only [Option.map_none]
    rw [happend, happend']
    refine ⟨rfl, fixClientName_append ?_ ?_ ?_⟩
    · exact List.forall_mem_append.2 ⟨fun l hl => (hone l hl).2, logBlock_foreign⟩
    · exact List.forall_mem_append.2 ⟨fun l hl => (hthree l hl).2, logBlock_foreign⟩
    · rw [List.flatten_append, List.flatten_append, hflat]
  | some e =>
    refine ⟨rfl, fixClientName_append ?_ ?_ hflat⟩
    · exact fun l hl => (hone l hl).2
    · exact fun l hl => (hthree l hl).2

/-! ## The three fixes together -/

/-- Lines with nothing to fix. -/
structure Settled (es : List Bytes) : Prop where
  pieces : Pieces newline es
  set : es.filterMap parseBlockCloudLine ≠ []
  off : ∀ v ∈ es.filterMap parseBlockCloudLine, truthy v false = false
  log : es.filterMap (valueOf (ascii "log_to_file")) ≠ []
  stays : ∀ v, (es.filterMap (valueOf (ascii "client_name"))).head? = some v → clientValue v = none

theorem edit_filterMap {key other : Bytes} {r : Bytes → Option Bytes} {es' : List Bytes}
    (h : Pieces newline es) (h' : Pieces newline es') (hedit : Edit key (bodies es) (bodies es'))
    (hr : Reads other r) (hne : other ≠ key) (hmem : other ∈ fixKeys) :
    es'.filterMap r = es.filterMap r := by
  rw [← hr.filterMap_bodies h', hedit.filterMap_eq hr hne hmem, hr.filterMap_bodies h]

theorem settled {installerDefault : Bool} {es₁ es₂ es₃ : List Bytes} (hblock : BlockFixed es es₁)
    (hlog : LogFixed installerDefault es₁ es₂) (hclient : ClientFixed es₂ es₃) : Settled es₃ := by
  have hlogBlock := edit_filterMap hblock.pieces hlog.pieces hlog.edit reads_parseBlockCloudLine
    (by decide) (by decide)
  have hclientBlock := edit_filterMap hlog.pieces hclient.pieces hclient.edit
    reads_parseBlockCloudLine (by decide) (by decide)
  have hclientLog := edit_filterMap hlog.pieces hclient.pieces hclient.edit
    (reads_valueOf isKey_logToFile) (by decide) (by decide)
  refine ⟨hclient.pieces, ?_, ?_, ?_, hclient.stays⟩
  · rw [hclientBlock, hlogBlock]
    exact hblock.set
  · rw [hclientBlock, hlogBlock]
    exact hblock.off
  · rw [hclientLog]
    exact hlog.set

/-- The lines that a call changes. -/
def Targeted (present : Bool) (ls : List Bytes) (i : ℕ) : Prop :=
  BlockTarget ls i ∨ FirstTarget (ascii "log_to_file") (logValue (!present)) ls i ∨
    FirstTarget (ascii "client_name") clientValue ls i

theorem kept {present : Bool} {es₁ es₂ es₃ : List Bytes} (hblock : BlockFixed es es₁)
    (hlog : LogFixed (!present) es₁ es₂) (hclient : ClientFixed es₂ es₃) {i : ℕ} {l : Bytes}
    (hl : (bodies es)[i]? = some l) (htarget : ¬ Targeted present (bodies es) i) :
    (bodies es₃)[i]? = some l := by
  have hl₁ := hblock.kept i l hl fun h => htarget (.inl h)
  have hl₂ : (bodies es₂)[i]? = some l := by
    apply hlog.kept i l hl₁
    intro h
    exact htarget (.inr (.inl (h.of_edit isKey_logToFile hblock.edit (by decide) hl)))
  apply hclient.kept i l hl₂
  intro h
  have h₁ := h.of_edit isKey_clientName hlog.edit (by decide) hl₁
  exact htarget (.inr (.inr (h₁.of_edit isKey_clientName hblock.edit (by decide) hl)))

theorem fixLines_settled (h : Settled es) : fixLines es = (es, .unchanged) := by
  rcases fixLines_cases es with ⟨hnil, -⟩ | ⟨-, hfix, ⟨-, v, hv, htrue⟩ | ⟨hout, hsame⟩⟩
  · exact absurd hnil h.set
  · rw [h.off v hv] at htrue
    cases htrue
  · exact Prod.ext (hfix.trans hsame) hout

theorem zero_code :
    EnsureOutcome.unchanged.code ||| (0 : Int32) <<< 8 ||| (0 : Int32) <<< 16 = 0 := by
  decide

/-- There is nothing to do for settled lines. -/
theorem confFixes_settled (h : Settled es) :
    confFixes true es.flatten = (es.flatten, false, 0) := by
  rw [confFixes, splitLinesKeepEnds, h.pieces.keepEnds_flatten, fixLines_settled h, Bool.not_true,
    fixLogToFile_settled h.log]
  dsimp only
  rw [fixClientName_settled h.stays]
  exact congrArg (fun code => (es.flatten, false, code)) zero_code

/-- The call as if the file was read again behind the first fix. -/
theorem confFixes_reopened (present : Bool) (data : Bytes) :
    ∃ es₁, BlockFixed (keepEnds newline data) es₁ ∧
      (((fixLines (keepEnds newline data)).2 = .set ∨
          (fixLines (keepEnds newline data)).2 = .appended) ∨ es₁ = keepEnds newline data) ∧
      let log := fixLogToFile es₁ (!present)
      let client := fixClientName log.1
      (confFixes present data).1 = client.1.flatten ∧
        (confFixes present data).2.1 = ((fixLines (keepEnds newline data)).2 == .set ||
          (fixLines (keepEnds newline data)).2 == .appended || log.2 != 0 || client.2 != 0) := by
  obtain ⟨es₁, hblock, hout⟩ := fixLines_spec (pieces_keepEnds (d := newline) data)
  refine ⟨es₁, hblock, ?_, ?_⟩
  · rcases hout with ⟨-, hset | ⟨-, hsame⟩⟩ | ⟨happ, -⟩
    · exact .inl (.inl hset)
    · exact .inr hsame
    · exact .inl (.inr happ)
  · rw [confFixes, splitLinesKeepEnds]
    dsimp only
    rcases hout with ⟨heq, -⟩ | ⟨-, init, heq, rfl⟩
    · rw [heq]
      exact ⟨rfl, rfl⟩
    · obtain ⟨hlog, htext, hclient⟩ := fixes_header init (!present)
      rw [heq, hlog, htext, hclient]
      exact ⟨rfl, rfl⟩

theorem confFixes_spec (present : Bool) (data : Bytes) :
    ∃ es, (confFixes present data).1 = es.flatten ∧ Settled es ∧
      (∀ i l, (splitLines newline data)[i]? = some l →
        ¬ Targeted present (splitLines newline data) i → (bodies es)[i]? = some l) ∧
      ((confFixes present data).2.1 = false → (confFixes present data).1 = data) := by
  obtain ⟨es₁, hblock, hsame, htext, hchanged⟩ := confFixes_reopened present data
  have hlog := fixLogToFile_spec hblock.pieces (!present)
  have hclient := fixClientName_spec hlog.pieces
  refine ⟨_, htext, settled hblock hlog hclient, ?_, ?_⟩
  · intro i l hl htarget
    rw [splitLines_eq_map, ← bodies] at hl htarget
    exact kept hblock hlog hclient hl htarget
  · intro hno
    rw [hchanged] at hno
    simp only [Bool.or_eq_false_iff, beq_eq_false_iff_ne, bne_eq_false_iff_eq] at hno
    obtain ⟨⟨⟨hset, happ⟩, hzero⟩, hzero'⟩ := hno
    rcases hsame with (hset' | happ') | hsame
    · exact absurd hset' hset
    · exact absurd happ' happ
    · rw [htext, fixClientName_zero hzero', fixLogToFile_zero hzero, hsame, flatten_keepEnds]

/-- What the parser at run time reads of settled lines. -/
theorem blockCloud_settled (h : Settled es) :
    (parseFile (some es.flatten)).blockCloud = false := by
  have hread := reads_parseBlockCloudLine
  have hvalues := hread.filterMap_bodies h.pieces
  apply blockCloud_parseFile
  · intro l hl val hval
    rw [h.pieces.splitLines_flatten, ← bodies] at hl
    by_contra htrue
    have htrue := Bool.eq_true_of_not_eq_false htrue
    have hmem := List.mem_filterMap.2 ⟨l, hl, blockCloudOf_truthy hval htrue⟩
    rw [hvalues] at hmem
    rw [h.off val hmem] at htrue
    cases htrue
  · obtain ⟨v, hv⟩ := List.exists_mem_of_ne_nil _ h.set
    rw [← hvalues] at hv
    obtain ⟨l, hl, hval⟩ := List.mem_filterMap.1 hv
    refine ⟨l, ?_, blockCloudOf_ne_none hval⟩
    rw [h.pieces.splitLines_flatten, ← bodies]
    exact hl

/-! ## The file -/

theorem fixLogToFile_code (es : List Bytes) (installerDefault : Bool) :
    (fixLogToFile es installerDefault).2 = 0 ∨ (fixLogToFile es installerDefault).2 = 1 := by
  rw [fixLogToFile]
  cases rewriteFirst (ascii "log_to_file") (logValue installerDefault) es with
  | none => exact .inr rfl
  | some e =>
    obtain ⟨es', b⟩ := e
    cases b with
    | false => exact .inl rfl
    | true => exact .inr rfl

theorem fixClientName_code (es : List Bytes) :
    (fixClientName es).2 = 0 ∨ (fixClientName es).2 = 1 := by
  rw [fixClientName]
  cases rewriteFirst (ascii "client_name") clientValue es with
  | none => exact .inl rfl
  | some e =>
    obtain ⟨es', b⟩ := e
    cases b with
    | false => exact .inl rfl
    | true => exact .inr rfl

theorem fixLines_outcome (es : List Bytes) : (fixLines es).2 ≠ .error := by
  rcases fixLines_cases es with ⟨-, hfix⟩ | ⟨-, -, ⟨hout, -⟩ | ⟨hout, -⟩⟩
  · rw [hfix]
    exact EnsureOutcome.noConfusion
  · rw [hout]
    decide
  · rw [hout]
    decide

theorem packed_ne (outcome : EnsureOutcome) (hout : outcome ≠ .error) {log client : Int32}
    (hlog : log = 0 ∨ log = 1) (hclient : client = 0 ∨ client = 1) :
    outcome.code ||| log <<< 8 ||| client <<< 16 ≠ -1 := by
  rcases hlog with rfl | rfl <;> rcases hclient with rfl | rfl <;> cases outcome <;>
    first
    | exact absurd rfl hout
    | decide

/-- The result is never the one for a failure. -/
theorem confFixes_ne (present : Bool) (data : Bytes) : (confFixes present data).2.2 ≠ -1 := by
  apply packed_ne _ _ (fixLogToFile_code _ _) (fixClientName_code _)
  split
  · exact fixLines_outcome _
  · decide

/-- A missing file is created from the template. -/
theorem opened_eq (template : Bytes) (disk : Disk) :
    (if disk.conf.isSome then some disk else disk.writeAtomic template) =
        some { disk with conf := some (disk.conf.getD template) } ∨
      (if disk.conf.isSome then some disk else disk.writeAtomic template) = none ∧
        disk.writable = false := by
  obtain ⟨conf, readable, writable⟩ := disk
  cases conf with
  | some data => exact .inl rfl
  | none =>
    cases writable with
    | true => exact .inl rfl
    | false => exact .inr ⟨rfl, rfl⟩

/-- A call that succeeds has read the file, or the template in its place, and left the fixes. -/
theorem ensureConfFixes_eq {template confPath : Bytes} {disk : Disk}
    (h : (ensureConfFixes template confPath disk).1 ≠ -1) :
    confPath ≠ [] ∧ disk.readable = true ∧
      ensureConfFixes template confPath disk =
        ((confFixes disk.conf.isSome (disk.conf.getD template)).2.2,
          { disk with conf := some (confFixes disk.conf.isSome (disk.conf.getD template)).1 }) := by
  obtain ⟨es, -, -, -, hsame⟩ := confFixes_spec disk.conf.isSome (disk.conf.getD template)
  unfold ensureConfFixes at h ⊢
  by_cases hpath : confPath = []
  · rw [if_pos hpath] at h
    exact absurd rfl h
  rw [if_neg hpath] at h ⊢
  rcases opened_eq template disk with hopen | ⟨hopen, -⟩
  · rw [hopen] at h ⊢
    dsimp only [Disk.readAll, Disk.writeAtomic] at h ⊢
    by_cases hread : disk.readable = true
    · rw [if_pos hread] at h ⊢
      dsimp only at h ⊢
      refine ⟨hpath, hread, ?_⟩
      split
      · next hchanged =>
        rw [if_pos hchanged] at h
        by_cases hwrite : disk.writable = true
        · rw [if_pos hwrite]
        · rw [if_neg hwrite] at h
          exact absurd rfl h
      · next hno => rw [hsame (Bool.eq_false_iff.2 hno)]
    · rw [if_neg hread] at h
      exact absurd rfl h
  · rw [hopen] at h
    exact absurd rfl h

/-- With a path and a disk that works the call succeeds. -/
theorem ensureConfFixes_ok {template confPath : Bytes} {disk : Disk} (hpath : confPath ≠ [])
    (hread : disk.readable = true) (hwrite : disk.writable = true) :
    (ensureConfFixes template confPath disk).1 ≠ -1 := by
  unfold ensureConfFixes
  rw [if_neg hpath]
  rcases opened_eq template disk with hopen | ⟨-, hno⟩
  · rw [hopen]
    dsimp only [Disk.readAll, Disk.writeAtomic]
    rw [if_pos hread]
    dsimp only
    rw [if_pos hwrite]
    split
    · exact confFixes_ne _ _
    · exact confFixes_ne _ _
  · rw [hwrite] at hno
    cases hno

/-- **The fixes settle.** A call that succeeds, as it does with a path and a disk that works, leaves
a file in which `block_cloud` is off for the parser at run time. A second call finds nothing to do:
its result is 0 and the file stays. Every line of the file that the call found, or of the template
in its place, is in the new file at its place, unless it is one that the call changes. -/
theorem fixes_settle (template confPath : Bytes) (disk : Disk) :
    (confPath ≠ [] → disk.readable = true → disk.writable = true →
      (ensureConfFixes template confPath disk).1 ≠ -1) ∧
    ((ensureConfFixes template confPath disk).1 ≠ -1 →
      ∃ text, (ensureConfFixes template confPath disk).2.conf = some text ∧
        (parseFile (some text)).blockCloud = false ∧
        ensureConfFixes template confPath (ensureConfFixes template confPath disk).2 =
          (0, (ensureConfFixes template confPath disk).2) ∧
        ∀ i line, (splitLines newline (disk.conf.getD template))[i]? = some line →
          ¬ Targeted disk.conf.isSome (splitLines newline (disk.conf.getD template)) i →
          (splitLines newline text)[i]? = some line) := by
  refine ⟨ensureConfFixes_ok, fun hok => ?_⟩
  obtain ⟨hpath, hread, heq⟩ := ensureConfFixes_eq hok
  obtain ⟨es, htext, hsettled, hkept, -⟩ :=
    confFixes_spec disk.conf.isSome (disk.conf.getD template)
  rw [heq, htext]
  refine ⟨es.flatten, rfl, blockCloud_settled hsettled, ?_, ?_⟩
  · have hagain := confFixes_settled hsettled
    unfold ensureConfFixes
    rw [if_neg hpath]
    dsimp only [Option.isSome_some, Disk.readAll]
    rw [if_pos rfl]
    dsimp only
    rw [if_pos hread]
    dsimp only
    rw [hagain]
    rfl
  · intro i line hline htarget
    rw [hsettled.pieces.splitLines_flatten, ← bodies]
    exact hkept i line hline htarget

/-- An old file whose last line has no end. -/
def oldFile : Bytes := ascii "client_name = \"OpenBambooNetworking\"\r\nblock_cloud = 1 # old"

theorem fixes_settle_oldFile :
    ∃ text, (ensureConfFixes [] (ascii "obn.conf") ⟨some oldFile, true, true⟩).2.conf = some text ∧
      (parseFile (some text)).blockCloud = false ∧
      ensureConfFixes [] (ascii "obn.conf")
          (ensureConfFixes [] (ascii "obn.conf") ⟨some oldFile, true, true⟩).2 =
        (0, (ensureConfFixes [] (ascii "obn.conf") ⟨some oldFile, true, true⟩).2) ∧
      ∀ i line, (splitLines newline oldFile)[i]? = some line →
        ¬ Targeted true (splitLines newline oldFile) i →
        (splitLines newline text)[i]? = some line := by
  have h := fixes_settle [] (ascii "obn.conf") ⟨some oldFile, true, true⟩
  exact h.2 (h.1 (by decide) rfl rfl)

end BambooNet.Config
