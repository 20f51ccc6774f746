import BambooNet.Agent.ReportFields
import BambooNet.Json.Unambiguous
import BambooNet.Lib.JsonReading

/-!
# A file capability that is put into a report

Some printers do not report that their files can be browsed. The agent puts a `file` object into the
`ipcam` object of such a report. It looks for `"ipcam":` in the text, takes the next opening brace,
finds the brace that closes it by counting, and looks for `"file":` on the way.

**The end of an object is found** whatever is in it, and the key is seen when it is one of the
object's own (`objectEnd_members`).

**Which objects.** A member is written in with a comma before it, which makes no JSON text when the
object is empty. When the value is no object, the brace is another one and the text that is counted
may begin inside of a string. Otherwise the report is the right one exactly when the search comes to
the report's object (`tryInjectIpcamFileLocal_suited`).
-/

namespace BambooNet.Agent

open Json JsonSyntax

/-! ## The program -/

def kIpcam : Bytes := fieldNeedle (ascii "ipcam")

def kFileKey : Bytes := fieldNeedle (ascii "file")

def kInject : Bytes := ascii
  ",\"file\":\x7b\"local\":\"local\",\"remote\":\"none\",\"model_download\":\"enabled\"\x7d"

/-- What is found further on. -/
def further (n : ℕ) (r : Option (ℕ × Bool)) : Option (ℕ × Bool) := r.map fun e => (e.1 + n, e.2)

/-- The loop: how far it is to the brace that closes, and whether the key was seen. -/
def objectEnd (depth : ℕ) (inStr esc fileHit : Bool) : Bytes → Option (ℕ × Bool)
  | [] => none
  | c :: p =>
    if inStr then
      if esc then further 1 (objectEnd depth true false fileHit p)
      else if c = backslash then further 1 (objectEnd depth true true fileHit p)
      else further 1 (objectEnd depth (c ≠ quote) esc fileHit p)
    else if c = quote then
      let hit := fileHit || decide (depth = 1 ∧ kFileKey <+: c :: p)
      further 1 (objectEnd depth true esc hit p)
    else if c = lbrace then further 1 (objectEnd (depth + 1) false esc fileHit p)
    else if c = rbrace then
      if depth - 1 = 0 then some (0, fileHit)
      else further 1 (objectEnd (depth - 1) false esc fileHit p)
    else further 1 (objectEnd depth false esc fileHit p)

/-- The payload, and whether it was patched. -/
def tryInjectIpcamFileLocal (payload : Bytes) : Bytes × Bool :=
  match findFirst kIpcam payload with
  | none => (payload, false)
  | some r =>
    match findFirst [lbrace] r.2 with
    | none => (payload, false)
    | some b =>
      match objectEnd 1 false false false b.2 with
      | none => (payload, false)
      | some e =>
        if e.2 then (payload, false)
        else (r.1 ++ kIpcam ++ b.1 ++ [lbrace] ++ b.2.take e.1 ++ kInject ++ b.2.drop e.1, true)

/-! ## The key -/

theorem plain_file : ∀ c ∈ ascii "file", IsPlain c := List.all_iff_forall_prop.1 (by decide)

theorem letters_file : ∀ c ∈ ascii "file", 0x61 ≤ c ∧ c ≤ 0x7a :=
  List.all_iff_forall_prop.1 (by decide)

def fileLabel : Label := Name.label ⟨ascii "file", letters_file, List.cons_ne_nil _ _⟩

def fileKey : Str := .verbatim (ascii "file") plain_file

/-- A key that is written as the search has it. -/
def spellsFile (key : Str) (after : Ws) : Bool :=
  decide (key.text = fileKey.text ∧ after.bytes = [])

/-! ## The end of an object -/

section Scan

variable {d : ℕ} {h h' h'' : Bool} {s t q : Bytes}

theorem further_further (m n : ℕ) (r : Option (ℕ × Bool)) :
    further m (further n r) = further (n + m) r := by
  cases r with
  | none => rfl
  | some e => exact congrArg (fun k => some (k, e.2)) (Nat.add_assoc _ _ _)

/-- Outside of strings the scan passes over a text and comes out at the same depth. -/
def Passes (d : ℕ) (h h' : Bool) (t q : Bytes) : Prop :=
  objectEnd d false false h (t ++ q) = further t.length (objectEnd d false false h' q)

theorem passes_nil : Passes d h h [] q := by
  rw [Passes, List.nil_append]
  cases objectEnd d false false h q with
  | none => rfl
  | some e => rfl

theorem Passes.append (hs : Passes d h h' s (t ++ q)) (ht : Passes d h' h'' t q) :
    Passes d h h'' (s ++ t) q := by
  rw [Passes, List.append_assoc, hs, ht, further_further, List.length_append, Nat.add_comm]

theorem passes_char {c : UInt8} (hquote : c ≠ quote) (hopen : c ≠ lbrace) (hclose : c ≠ rbrace) :
    Passes d h h [c] q := by
  show objectEnd d false false h (c :: q) = _
  rw [objectEnd, if_neg (by decide), if_neg hquote, if_neg hopen, if_neg hclose]
  rfl

theorem passes_neutral (ht : ∀ c ∈ t, Neutral c) : Passes d h h t q := by
  induction t with
  | nil => exact passes_nil
  | cons c t ih =>
    obtain ⟨⟨hquote, -, -, hopen, hclose⟩, ht⟩ := List.forall_mem_cons.1 ht
    exact Passes.append (passes_char hquote hopen hclose) (ih ht)

theorem passes_ws (ws : Ws) : Passes d h h ws.bytes q := passes_neutral (neutral_ws ws)

/-! ### Strings -/

theorem objectEnd_raw {c : UInt8} (hquote : c ≠ quote) (hbackslash : c ≠ backslash) (q : Bytes) :
    objectEnd d true false h (c :: q) = further 1 (objectEnd d true false h q) := by
  rw [objectEnd, if_pos rfl, if_neg (by decide), if_neg hbackslash, decide_eq_true hquote]

theorem objectEnd_escape (c : UInt8) (q : Bytes) :
    objectEnd d true false h (backslash :: c :: q) = further 2 (objectEnd d true false h q) :=
  further_further 1 1 _

theorem objectEnd_hex4 (u : Hex4) (q : Bytes) :
    objectEnd d true false h (u.text ++ q) = further 6 (objectEnd d true false h q) := by
  have hdigit (x : Hex) (q : Bytes) :
      objectEnd d true false h (x.byte :: q) = further 1 (objectEnd d true false h q) :=
    objectEnd_raw (hex_ne x).1 (hex_ne x).2 q
  refine (objectEnd_escape 0x75 _).trans ?_
  show further 2 (objectEnd d true false h (u.a.byte :: u.b.byte :: u.c.byte :: u.d.byte :: q)) = _
  rw [hdigit, hdigit, hdigit, hdigit, further_further, further_further, further_further,
    further_further]

theorem objectEnd_strChar (ch : StrChar) (q : Bytes) :
    objectEnd d true false h (ch.text ++ q) =
      further ch.text.length (objectEnd d true false h q) := by
  cases ch with
  | raw c plain => exact objectEnd_raw plain.2.1 plain.2.2 q
  | short e known => exact objectEnd_escape e.1 q
  | unicode u scalar => exact objectEnd_hex4 u q
  | pair hi lo high low =>
    rw [StrChar.text, List.append_assoc, objectEnd_hex4, objectEnd_hex4, further_further,
      List.length_append]
    rfl
  | lone u surrogate => exact objectEnd_hex4 u q

theorem objectEnd_texts (cs : List StrChar) (q : Bytes) :
    objectEnd d true false h (StrChar.texts cs ++ q) =
      further (StrChar.texts cs).length (objectEnd d true false h q) := by
  induction cs with
  | nil =>
    show objectEnd d true false h q = further 0 _
    cases objectEnd d true false h q with
    | none => rfl
    | some e => rfl
  | cons ch cs ih =>
    have hcons : StrChar.texts (ch :: cs) = ch.text ++ StrChar.texts cs := rfl
    rw [hcons, List.append_assoc, objectEnd_strChar, ih, further_further, List.length_append,
      Nat.add_comm]

/-- A literal. The key is looked for where it begins. -/
theorem passes_str (s : Str) (q : Bytes) :
    Passes d h (h || decide (d = 1 ∧ kFileKey <+: s.text ++ q)) s.text q := by
  rw [Passes]
  generalize hhit : (h || decide (d = 1 ∧ kFileKey <+: s.text ++ q)) = hit
  have henter : objectEnd d false false h (s.text ++ q) =
      further 1 (objectEnd d true false hit (StrChar.texts s.chars ++ ([quote] ++ q))) := by
    rw [← hhit, ← List.append_assoc]
    rfl
  have hleave : objectEnd d true false hit ([quote] ++ q) =
      further 1 (objectEnd d false false hit q) := rfl
  have hlength : s.text.length = 1 + (StrChar.texts s.chars).length + 1 := by
    simp [Str.text, Nat.add_comm]
  rw [henter, objectEnd_texts, hleave, further_further, further_further, hlength]
  rfl

/-! ### Values -/

/-- Where the key is found it is the whole literal, with a colon directly behind. -/
theorem kFileKey_at {s : Str} (hq : ∀ c ∈ q.head?, c ∉ fileLabel.bytes)
    (h : kFileKey <+: s.text ++ q) : s.text = fileKey.text ∧ q.head? = some colon := by
  have hquoted : s.text = fileLabel.quoted :=
    fileLabel.eq_of_occurs (a := []) rfl hq ((List.prefix_append _ [colon]).trans h)
  obtain ⟨r, hr⟩ := h
  have hkey : kFileKey ++ r = fileLabel.quoted ++ colon :: r := rfl
  rw [hquoted, hkey] at hr
  rw [← List.append_cancel_left hr, hquoted, fileKey, Str.text_verbatim]
  exact ⟨rfl, rfl⟩

theorem passes_value (s : Str) (hq : Follows q) : Passes d h h s.text q := by
  have hmiss : ¬ (d = 1 ∧ kFileKey <+: s.text ++ q) := by
    rintro ⟨-, hkey⟩
    refine hq.head_ne_colon (kFileKey_at (fun c hc hmem => hq.head c hc ?_) hkey).2
    exact letters_file c hmem
  have hstr := passes_str (d := d) (h := h) s q
  rwa [decide_eq_false hmiss, Bool.or_false] at hstr

/-- A key, with the whitespace and the colon behind. -/
theorem passes_key (key : Str) (after : Ws) (q : Bytes) :
    Passes d h (h || (decide (d = 1) && spellsFile key after))
      (key.text ++ (after.bytes ++ [colon])) q := by
  have hspells : decide (d = 1 ∧ kFileKey <+: key.text ++ ((after.bytes ++ [colon]) ++ q)) =
      (decide (d = 1) && spellsFile key after) := by
    rw [Bool.decide_and, spellsFile, List.append_assoc]
    congr 1
    refine decide_eq_decide.2 ⟨fun hkey => ?_, ?_⟩
    · have hhead := head_colon after q
      obtain ⟨htext, hcolon⟩ := kFileKey_at (fun c hc hmem => hhead c hc (letters_file c hmem))
        hkey
      by_contra hother
      exact Ws.head_ne_colon (fun hnil => absurd ⟨htext, hnil⟩ hother) hcolon
    · rintro ⟨htext, hnil⟩
      rw [htext, hnil, fileKey, Str.text_verbatim]
      exact ⟨q, rfl⟩
  have hstr := passes_str (d := d) (h := h) key ((after.bytes ++ [colon]) ++ q)
  rw [hspells] at hstr
  refine Passes.append hstr (Passes.append (passes_ws after) ?_)
  exact passes_char (by decide) (by decide) (by decide)

/-- Braces around a text that is passed over. -/
theorem Passes.braces (hd : 0 < d) (ht : Passes (d + 1) h h' t (rbrace :: q)) :
    Passes d h h' (lbrace :: (t ++ [rbrace])) q := by
  have hopen : objectEnd d false false h (lbrace :: (t ++ [rbrace]) ++ q) =
      further 1 (objectEnd (d + 1) false false h (t ++ (rbrace :: q))) := by
    rw [List.cons_append, List.append_assoc]
    rfl
  have hclose : objectEnd (d + 1) false false h' (rbrace :: q) =
      further 1 (objectEnd d false false h' q) := by
    rw [objectEnd, if_neg (by decide), if_neg (by decide), if_neg (by decide), if_pos rfl,
      Nat.add_sub_cancel, if_neg hd.ne']
  have hlength : (lbrace :: (t ++ [rbrace])).length = 1 + t.length + 1 := by
    simp [Nat.add_comm]
  rw [Passes, hopen, ht, hclose, further_further, further_further, hlength]
  rfl

mutual

/-- The scan passes over a value. -/
theorem passes_node {d : ℕ} {h : Bool} {q : Bytes} (v : Node) (hd : 0 < d) (hq : Follows q) :
    Passes d h h v.text q := by
  cases v with
  | null => exact passes_neutral (List.all_iff_forall_prop.1 (by decide))
  | bool b => cases b <;> exact passes_neutral (List.all_iff_forall_prop.1 (by decide))
  | number n => exact passes_neutral (neutral_numeral n.toNumeral)
  | string s => exact passes_value s hq
  | emptyArray ws =>
    exact Passes.append (s := [0x5b]) (passes_char (by decide) (by decide) (by decide))
      (Passes.append (passes_ws ws) (passes_char (by decide) (by decide) (by decide)))
  | emptyObject ws => exact Passes.braces hd (passes_ws ws)
  | array es =>
    exact Passes.append (s := [0x5b]) (passes_char (by decide) (by decide) (by decide))
      (Passes.append (passes_elements es hd q) (passes_char (by decide) (by decide) (by decide)))
  | object ms =>
    have hms := passes_members (h := h) ms (Nat.succ_pos d) q
    rw [decide_eq_false (by omega : ¬ d + 1 = 1), Bool.false_and, Bool.or_false] at hms
    exact Passes.braces hd hms

theorem passes_elements {d : ℕ} {h : Bool} (es : Elements) (hd : 0 < d) (q : Bytes) :
    Passes d h h es.text (0x5d :: q) := by
  cases es with
  | last before v after =>
    have hv := passes_node (h := h) v hd (follows_close after (.inr (.inl rfl)) q)
    exact Passes.append (passes_ws before) (Passes.append hv (passes_ws after))
  | cons before v after rest =>
    have hv := passes_node (h := h) v hd
      (follows_close after (c := 0x2c) (.inl rfl) (rest.text ++ 0x5d :: q))
    have hrest := passes_elements (h := h) rest hd q
    refine Passes.append (passes_ws before) (Passes.append ?_ (Passes.append (passes_ws after)
      (Passes.append (s := [0x2c]) (passes_char (by decide) (by decide) (by decide)) hrest)))
    rwa [List.append_assoc, List.cons_append]

theorem passes_members {d : ℕ} {h : Bool} (ms : Members) (hd : 0 < d) (q : Bytes) :
    Passes d h (h || (decide (d = 1) && ms.anyKey spellsFile)) ms.text (0x7d :: q) := by
  cases ms with
  | last before key after lead v after' =>
    have htext : (Members.last before key after lead v after').text = before.bytes ++
        ((key.text ++ (after.bytes ++ [colon])) ++ (lead.bytes ++ (v.text ++ after'.bytes))) := by
      simp [Members.text]
    rw [htext]
    refine Passes.append (passes_ws before) (Passes.append (passes_key key after _) ?_)
    refine Passes.append (passes_ws lead) (Passes.append ?_ (passes_ws after'))
    exact passes_node v hd (follows_close after' (.inr (.inr rfl)) q)
  | cons before key after lead v after' rest =>
    have htext : (Members.cons before key after lead v after' rest).text = before.bytes ++
        ((key.text ++ (after.bytes ++ [colon])) ++ (lead.bytes ++ (v.text ++ (after'.bytes ++
          ([0x2c] ++ rest.text))))) := by
      simp [Members.text]
    have hhit : (h || (decide (d = 1) && (spellsFile key after || rest.anyKey spellsFile))) =
        ((h || (decide (d = 1) && spellsFile key after)) ||
          (decide (d = 1) && rest.anyKey spellsFile)) := by
      rw [Bool.and_or_distrib_left, Bool.or_assoc]
    rw [htext, Members.anyKey, hhit]
    refine Passes.append (passes_ws before) (Passes.append (passes_key key after _) ?_)
    generalize (h || (decide (d = 1) && spellsFile key after)) = hit
    have hv : Passes d hit hit v.text ((after'.bytes ++ ([0x2c] ++ rest.text)) ++ 0x7d :: q) := by
      rw [List.append_assoc]
      exact passes_node v hd (follows_close after' (.inl rfl) (rest.text ++ 0x7d :: q))
    have hcomma : Passes d hit hit [0x2c] (rest.text ++ 0x7d :: q) :=
      passes_char (by decide) (by decide) (by decide)
    have hrest := Passes.append hcomma (passes_members (h := hit) rest hd q)
    exact Passes.append (passes_ws lead) (Passes.append hv (Passes.append (passes_ws after') hrest))

end

/-- **The brace that closes an object is found**, and the key when it is one of its own. -/
theorem objectEnd_members (ms : Members) (q : Bytes) :
    objectEnd 1 false false false (ms.text ++ rbrace :: q) =
      some (ms.text.length, ms.anyKey spellsFile) := by
  have hms := passes_members (h := false) ms Nat.one_pos q
  rw [decide_eq_true rfl, Bool.true_and, Bool.false_or] at hms
  refine hms.trans ?_
  exact congrArg (fun n => some (n, ms.anyKey spellsFile)) (Nat.zero_add _)

theorem objectEnd_empty (ws : Ws) (q : Bytes) :
    objectEnd 1 false false false (ws.bytes ++ rbrace :: q) = some (ws.bytes.length, false) := by
  refine (passes_ws ws).trans ?_
  exact congrArg (fun n => some (n, false)) (Nat.zero_add _)

end Scan

/-! ## The search -/

theorem isWord_ipcam : ascii "ipcam" ≠ [] ∧ ∀ c ∈ ascii "ipcam", isWord c = true :=
  ⟨List.cons_ne_nil _ _, List.all_iff_forall_prop.1 (by decide)⟩

def ipcamKey : FieldName := ⟨ascii "ipcam", isWord_ipcam.1, isWord_ipcam.2⟩

theorem letters_ipcam : (∀ c ∈ ascii "ipcam", 0x61 ≤ c ∧ c ≤ 0x7a) ∧ ascii "ipcam" ≠ [] :=
  ⟨List.all_iff_forall_prop.1 (by decide), List.cons_ne_nil _ _⟩

def ipcamName : Name := ⟨ascii "ipcam", letters_ipcam.1, letters_ipcam.2⟩

theorem plain_ipcam : ∀ c ∈ ascii "ipcam", IsPlain c := List.all_iff_forall_prop.1 (by decide)

/-- The search passes over the name when there is no colon directly behind. -/
theorem ipcamScan_skip {q : Bytes} (hhead : ∀ d ∈ q.head?, ¬ (0x61 ≤ d ∧ d ≤ 0x7a))
    (hcolon : q.head? ≠ some colon) :
    ipcamKey.scan (ipcamName.quoted ++ q) = ipcamKey.scan q := by
  have hstr := ipcamKey.labelScan.scan_str (s := .verbatim (ascii "ipcam") plain_ipcam)
    (fun d hd hmem => hhead d hd (letters_ipcam.1 d hmem)) fun _ => hcolon
  rw [Str.text_verbatim] at hstr
  exact hstr.trans (foldr_same _ _)

/-- The search for the key. -/
def ipcamSearch : KeySearch ipcamName where
  scan := ipcamKey.scan
  picks after _ _ := decide (after.bytes = [])
  result lead p := lead.bytes ++ p
  step c p h := by
    have hmiss : ¬ ipcamKey.label.quoted ++ [0x3a] <+: c :: p := fun hpre =>
      h ((List.prefix_append _ _).trans hpre)
    exact ipcamKey.labelScan.step c p hmiss
  skip q hq := ipcamScan_skip hq.head hq.head_ne_colon
  key after lead v q hq := by
    by_cases hafter : after.bytes = []
    · rw [if_pos (decide_eq_true hafter), hafter]
      exact ipcamKey.scan_found _
    · have hcolon : quote ∉ after.bytes ++ colon :: lead.bytes := by
        rw [List.mem_append, List.mem_cons]
        rintro (h | h | h)
        · exact after.quote_notMem h
        · exact absurd h (by decide)
        · exact lead.quote_notMem h
      have hplain := ipcamKey.scan_plain hcolon (v.text ++ q)
      rw [List.append_assoc, List.cons_append] at hplain
      rw [if_neg (mt of_decide_eq_true hafter), ipcamScan_skip (head_colon after _)
        (Ws.head_ne_colon fun h => absurd h hafter), ← hplain]

/-! ## What becomes of a report -/

theorem plain_words : (∀ c ∈ ascii "local", IsPlain c) ∧ (∀ c ∈ ascii "remote", IsPlain c) ∧
    (∀ c ∈ ascii "none", IsPlain c) ∧ (∀ c ∈ ascii "model_download", IsPlain c) ∧
    ∀ c ∈ ascii "enabled", IsPlain c :=
  ⟨List.all_iff_forall_prop.1 (by decide), List.all_iff_forall_prop.1 (by decide),
    List.all_iff_forall_prop.1 (by decide), List.all_iff_forall_prop.1 (by decide),
    List.all_iff_forall_prop.1 (by decide)⟩

/-- `{"local":"local","remote":"none","model_download":"enabled"}`. -/
def fileValue : Node :=
  let here : Str := .verbatim (ascii "local") plain_words.1
  .object (.cons .none here .none .none (.string here) .none
    (.cons .none (.verbatim (ascii "remote") plain_words.2.1) .none .none
      (.string (.verbatim (ascii "none") plain_words.2.2.1)) .none
    (.last .none (.verbatim (ascii "model_download") plain_words.2.2.2.1) .none .none
      (.string (.verbatim (ascii "enabled") plain_words.2.2.2.2)) .none)))

/-- The object with the member. -/
def withFile : Node → Node
  | .object ms => .object (ms.snoc fileKey fileValue)
  | .emptyObject ws => .object (.last ws fileKey .none .none fileValue .none)
  | .null => .null
  | .bool b => .bool b
  | .number n => .number n
  | .string s => .string s
  | .emptyArray ws => .emptyArray ws
  | .array es => .array es

theorem kInject_eq : kInject = 0x2c :: (fileKey.text ++ 0x3a :: fileValue.text) := by
  simp only [fileKey, fileValue, Node.text, Members.text, Str.text_verbatim]
  rfl

variable {t : Text} {f : t.node.Found}

theorem tryInject_none (hf : t.node.first ipcamSearch.Picks = none) :
    tryInjectIpcamFileLocal t.bytes = (t.bytes, false) := by
  have hscan := ipcamSearch.scan_text t rfl
  rw [hf] at hscan
  have hfind : findFirst kIpcam t.bytes = none := Option.map_eq_none_iff.1 hscan
  rw [tryInjectIpcamFileLocal, hfind]

/-- Where the search comes to. -/
theorem ipcam_found (hf : t.node.first ipcamSearch.Picks = some f) :
    ∃ a, findFirst kIpcam t.bytes =
        some (a, f.lead.bytes ++ (f.value.text ++ (f.rest ++ t.after.bytes))) ∧
      a ++ kIpcam ++ f.lead.bytes = t.before.bytes ++ f.before := by
  have hscan := ipcamSearch.scan_text t rfl
  rw [hf] at hscan
  obtain ⟨⟨a, b⟩, hfind, rfl⟩ := Option.map_eq_some_iff.1 hscan
  refine ⟨a, hfind, ?_⟩
  have heq := eq_of_findFirst hfind
  rw [t.bytes_found f] at heq
  refine ((List.append_left_inj (f.value.text ++ (f.rest ++ t.after.bytes))).1 ?_).symm
  rw [heq, List.append_assoc _ f.lead.bytes]
  rfl

theorem brace_notMem_ws (ws : Ws) : lbrace ∉ ws.bytes := fun h =>
  absurd (neutral_ws ws lbrace h) (by decide)

/-- What is done in an object. -/
theorem tryInject_braces (hf : t.node.first ipcamSearch.Picks = some f) {inner : Bytes} {hit : Bool}
    (hv : f.value.text = lbrace :: (inner ++ [rbrace]))
    (hend : ∀ q, objectEnd 1 false false false (inner ++ rbrace :: q) =
      some (inner.length, hit)) :
    tryInjectIpcamFileLocal t.bytes = if hit then (t.bytes, false) else
      (t.before.bytes ++ f.before ++
        lbrace :: (inner ++ (kInject ++ rbrace :: (f.rest ++ t.after.bytes))), true) := by
  obtain ⟨a, hfind, hbefore⟩ := ipcam_found hf
  have hbrace : findFirst [lbrace] (f.lead.bytes ++ (f.value.text ++ (f.rest ++ t.after.bytes))) =
      some (f.lead.bytes, inner ++ rbrace :: (f.rest ++ t.after.bytes)) := by
    rw [hv, List.cons_append, findFirst_byte (brace_notMem_ws f.lead), List.append_assoc]
    rfl
  simp only [tryInjectIpcamFileLocal, hfind, hbrace, hend, List.take_left, List.drop_left, hbefore,
    List.append_assoc]
  rfl

theorem tryInject_object (hf : t.node.first ipcamSearch.Picks = some f) {ms : Members}
    (hv : f.value = .object ms) :
    tryInjectIpcamFileLocal t.bytes = if ms.anyKey spellsFile then (t.bytes, false) else
      ((t.set f (withFile f.value)).bytes, true) := by
  rw [tryInject_braces hf (hv ▸ rfl) (objectEnd_members ms), t.bytes_set f, hv, withFile, Node.text,
    Members.text_snoc, ← kInject_eq]
  simp only [List.cons_append, List.append_assoc]
  rfl

theorem tryInject_empty (hf : t.node.first ipcamSearch.Picks = some f) {ws : Ws}
    (hv : f.value = .emptyObject ws) :
    tryInjectIpcamFileLocal t.bytes = (t.before.bytes ++ f.before ++
      lbrace :: (ws.bytes ++ (kInject ++ rbrace :: (f.rest ++ t.after.bytes))), true) :=
  tryInject_braces hf (hv ▸ rfl) (objectEnd_empty ws)

/-- Where no brace comes there is nothing to do. -/
theorem tryInject_noBrace (hf : t.node.first ipcamSearch.Picks = some f)
    (hv : lbrace ∉ f.value.text ++ f.rest) :
    tryInjectIpcamFileLocal t.bytes = (t.bytes, false) := by
  obtain ⟨a, hfind, -⟩ := ipcam_found hf
  have hmem : lbrace ∉ f.lead.bytes ++ (f.value.text ++ (f.rest ++ t.after.bytes)) := by
    simp only [List.mem_append, not_or] at hv ⊢
    exact ⟨brace_notMem_ws f.lead, hv.1, hv.2, brace_notMem_ws t.after⟩
  simp only [tryInjectIpcamFileLocal, hfind, findFirst_byte_eq_none hmem]

/-! ## What the report should be -/

/-- The `ipcam` object of a report. -/
def isIpcam (key : Str) (_ _ : Ws) (v : Node) : Bool := key.decoded == ascii "ipcam" && v.isObject

def hasFile (v : Node) : Bool := v.anyKey fun key _ => key.decoded == ascii "file"

/-- The `ipcam` object has got the member if it had none, and otherwise nothing is changed. -/
structure Injected (t : Text) (payload : Bytes) : Prop where
  injected : ∀ f, t.node.first isIpcam = some f → hasFile f.value = false →
    ∃ u : Text, u.bytes = payload ∧ u.node.doc = (f.plug (withFile f.value)).doc
  unchanged : (∀ f, t.node.first isIpcam = some f → hasFile f.value = true) → payload = t.bytes

/-- The search comes to what it is meant to come to, and leaves everything else. -/
structure Suited (t : Text) : Prop where
  found : ∀ f, t.node.first isIpcam = some f → hasFile f.value = false →
    t.node.first ipcamSearch.Picks = some f ∧ ∀ ws, f.value ≠ .emptyObject ws
  only : ∀ f, t.node.first ipcamSearch.Picks = some f → f.value.isObject = true →
    f.value.anyKey spellsFile = false → t.node.first isIpcam = some f ∧ hasFile f.value = false
  stays : ∀ f, t.node.first ipcamSearch.Picks = some f → f.value.isObject = false →
    lbrace ∉ f.value.text ++ f.rest

/-- The search comes to a value that is no object, and a brace comes behind. -/
def Strays (t : Text) : Prop :=
  ∃ f, t.node.first ipcamSearch.Picks = some f ∧ f.value.isObject = false ∧
    lbrace ∈ f.value.text ++ f.rest

theorem isObject_of_isIpcam (hf : t.node.first isIpcam = some f) : f.value.isObject = true := by
  obtain ⟨key, after, hpicks⟩ := Node.first_spec hf
  exact (Bool.and_eq_true_iff.1 hpicks).2

/-- A key that is written as the search has it is the key. -/
theorem hasFile_of_spells {v : Node} (h : v.anyKey spellsFile = true) : hasFile v = true := by
  refine Node.anyKey_mono (fun key after hspells => ?_) h
  obtain ⟨htext, -⟩ := of_decide_eq_true hspells
  have hverbatim : key.Verbatim := by
    rw [Str.Verbatim, htext]
    exact Str.verbatim_verbatim _ plain_file
  rw [hverbatim.text_eq, fileKey, Str.text_verbatim] at htext
  exact beq_iff_eq.2 (List.append_left_inj _ |>.1 (List.cons.inj htext).2)

theorem size_withFile {v : Node} (hv : v.isObject = true) : (withFile v).doc.size ≠ v.doc.size := by
  cases v with
  | emptyObject ws => exact Nat.one_ne_zero
  | object ms =>
    have hlength := Members.length_snoc fileKey fileValue ms
    exact fun h => absurd (hlength.symm.trans h) (Nat.succ_ne_self _)
  | null | bool | number | string | emptyArray | array => exact absurd hv Bool.false_ne_true

theorem injected_unchanged_iff :
    Injected t t.bytes ↔ ∀ g, t.node.first isIpcam = some g → hasFile g.value = true := by
  constructor
  · intro h g hg
    by_contra hfile
    obtain ⟨u, hbytes, hdoc⟩ := h.injected g hg (Bool.eq_false_of_not_eq_true hfile)
    exact g.ne_of_size (size_withFile (isObject_of_isIpcam hg))
      (hdoc.symm.trans (doc_eq_of_bytes hbytes))
  · intro h
    exact ⟨fun g hg hfile => Bool.noConfusion ((h g hg).symm.trans hfile), fun _ => rfl⟩

/-- An object that has got the member was the right one. -/
theorem injected_set_iff (hf : t.node.first ipcamSearch.Picks = some f)
    (hv : f.value.isObject = true) :
    Injected t (t.set f (withFile f.value)).bytes ↔
      t.node.first isIpcam = some f ∧ hasFile f.value = false := by
  constructor
  · intro h
    have hsize := size_withFile hv
    have hexists : ∃ g, t.node.first isIpcam = some g ∧ hasFile g.value = false := by
      by_contra hnone
      refine f.ne_of_size hsize (doc_eq_of_bytes (h.unchanged fun g hg => ?_))
      exact Bool.of_not_eq_false fun hfile => hnone ⟨g, hg, hfile⟩
    obtain ⟨g, hg, hfile⟩ := hexists
    obtain ⟨u, hbytes, hdoc⟩ := h.injected g hg hfile
    -- Both objects get larger, so it is one object.
    have hsame : (f.plug (withFile f.value)).doc = (g.plug (withFile g.value)).doc :=
      (doc_eq_of_bytes hbytes).symm.trans hdoc
    obtain rfl := Node.first_same hf hg hsize (size_withFile (isObject_of_isIpcam hg)) hsame
    exact ⟨hg, hfile⟩
  · rintro ⟨hg, hfile⟩
    refine ⟨fun g hg' _ => ?_, fun hall => ?_⟩
    · obtain rfl := Option.some.inj (hg.symm.trans hg')
      exact ⟨t.set f (withFile f.value), rfl, rfl⟩
    · exact Bool.noConfusion ((hall f hg).symm.trans hfile)

/-- No text begins so in the place of a value. -/
theorem not_injected_empty {ws : Ws} {q : Bytes} :
    ¬ Injected t (t.before.bytes ++ f.before ++ lbrace :: (ws.bytes ++ (kInject ++ q))) := by
  have hno (u : Text) := t.not_comma_first f ws ((fileKey.text ++ 0x3a :: fileValue.text) ++ q) u
  rw [kInject_eq]
  intro h
  by_cases hall : ∀ g, t.node.first isIpcam = some g → hasFile g.value = true
  · exact hno t (h.unchanged hall).symm
  · refine hall fun g hg => Bool.of_not_eq_false fun hfile => ?_
    obtain ⟨u, hbytes, -⟩ := h.injected g hg hfile
    exact hno u hbytes

/-! ## Which reports -/

/-- Where the search comes to nothing that is changed. -/
theorem suited_iff_unchanged
    (honly : ∀ f, t.node.first ipcamSearch.Picks = some f → f.value.isObject = true →
      f.value.anyKey spellsFile = true)
    (hstays : ∀ f, t.node.first ipcamSearch.Picks = some f → f.value.isObject = false →
      lbrace ∉ f.value.text ++ f.rest) :
    Suited t ↔ Injected t t.bytes := by
  rw [injected_unchanged_iff]
  constructor
  · intro h g hg
    refine Bool.of_not_eq_false fun hfile => ?_
    have hspells := honly g (h.found g hg hfile).1 (isObject_of_isIpcam hg)
    exact Bool.noConfusion ((hasFile_of_spells hspells).symm.trans hfile)
  · intro hall
    exact ⟨fun g hg hfile => Bool.noConfusion ((hall g hg).symm.trans hfile),
      fun f hf hv hspells => Bool.noConfusion ((honly f hf hv).symm.trans hspells), hstays⟩

/-- Where it comes to an object that gets the member. -/
theorem suited_iff_first (hf : t.node.first ipcamSearch.Picks = some f) {ms : Members}
    (hv : f.value = .object ms) (hspells : ms.anyKey spellsFile = false) :
    Suited t ↔ t.node.first isIpcam = some f ∧ hasFile f.value = false := by
  have hobject : f.value.isObject = true := hv ▸ rfl
  constructor
  · intro h
    exact h.only f hf hobject (hv ▸ hspells)
  · rintro ⟨hg, hfile⟩
    refine ⟨fun g hg' _ => ?_, fun f' hf' _ _ => ?_, fun f' hf' hv' => ?_⟩
    · obtain rfl := Option.some.inj (hg.symm.trans hg')
      exact ⟨hf, fun ws hempty => Node.noConfusion (hv.symm.trans hempty)⟩
    · obtain rfl := Option.some.inj (hf.symm.trans hf')
      exact ⟨hg, hfile⟩
    · obtain rfl := Option.some.inj (hf.symm.trans hf')
      exact Bool.noConfusion (hobject.symm.trans hv')

/-- An empty object is never the right one. -/
theorem not_suited_empty (hf : t.node.first ipcamSearch.Picks = some f) {ws : Ws}
    (hv : f.value = .emptyObject ws) : ¬ Suited t := by
  intro h
  obtain ⟨hg, hfile⟩ := h.only f hf (hv ▸ rfl) (hv ▸ rfl)
  exact (h.found f hg hfile).2 ws hv

/-- Where it comes to an object. -/
theorem injected_iff_of_object (hf : t.node.first ipcamSearch.Picks = some f)
    (hobject : f.value.isObject = true) :
    Injected t (tryInjectIpcamFileLocal t.bytes).1 ↔ Suited t := by
  have hself {f'} (h : t.node.first ipcamSearch.Picks = some f') : f = f' :=
    Option.some.inj (hf.symm.trans h)
  cases hv : f.value with
  | object ms =>
    rw [tryInject_object hf hv]
    cases hspells : ms.anyKey spellsFile with
    | true =>
      refine (suited_iff_unchanged (fun f' h _ => ?_) fun f' h hv' => ?_).symm
      · exact hself h ▸ hv ▸ hspells
      · exact Bool.noConfusion (hobject.symm.trans (hself h ▸ hv'))
    | false => exact (injected_set_iff hf hobject).trans (suited_iff_first hf hv hspells).symm
  | emptyObject ws =>
    rw [tryInject_empty hf hv]
    exact iff_of_false not_injected_empty (not_suited_empty hf hv)
  | null | bool | number | string | emptyArray | array =>
    rw [hv] at hobject
    exact absurd hobject Bool.false_ne_true

/-- Where it comes to another value, behind which no brace is. -/
theorem injected_iff_of_noBrace (hf : t.node.first ipcamSearch.Picks = some f)
    (hobject : f.value.isObject = false) (hbrace : lbrace ∉ f.value.text ++ f.rest) :
    Injected t (tryInjectIpcamFileLocal t.bytes).1 ↔ Suited t := by
  rw [tryInject_noBrace hf hbrace]
  refine (suited_iff_unchanged (fun f' hf' hv => ?_) fun f' hf' _ => ?_).symm
  · obtain rfl := Option.some.inj (hf.symm.trans hf')
    exact Bool.noConfusion (hobject.symm.trans hv)
  · obtain rfl := Option.some.inj (hf.symm.trans hf')
    exact hbrace

/-- **The report is the right one** when the search comes to the right object. Otherwise it is not,
unless the brace is another one. Of several members that are called `ipcam` the first in the order
of the text whose value is an object is meant. -/
theorem tryInjectIpcamFileLocal_suited (t : Text) :
    (Suited t → Injected t (tryInjectIpcamFileLocal t.bytes).1) ∧
      (Injected t (tryInjectIpcamFileLocal t.bytes).1 → Suited t ∨ Strays t) := by
  cases hf : t.node.first ipcamSearch.Picks with
  | none =>
    have hiff : Suited t ↔ Injected t t.bytes := by
      refine suited_iff_unchanged (fun f h => ?_) fun f h => ?_
      · cases hf.symm.trans h
      · cases hf.symm.trans h
    rw [tryInject_none hf]
    exact ⟨hiff.1, fun h => .inl (hiff.2 h)⟩
  | some f =>
    cases hobject : f.value.isObject with
    | true =>
      have hiff := injected_iff_of_object hf hobject
      exact ⟨hiff.2, fun h => .inl (hiff.1 h)⟩
    | false =>
      by_cases hbrace : lbrace ∈ f.value.text ++ f.rest
      · exact ⟨fun h => absurd hbrace (h.stays f hf hobject),
          fun _ => .inr ⟨f, hf, hobject, hbrace⟩⟩
      · have hiff := injected_iff_of_noBrace hf hobject hbrace
        exact ⟨hiff.2, fun h => .inl (hiff.1 h)⟩

/-- `{"ipcam":v}`. -/
def ipcamFrame (v : Node) : Text :=
  ⟨.none, .object (.last .none (.verbatim (ascii "ipcam") plain_ipcam) .none .none v .none), .none⟩

theorem ipcamFrame_first (v : Node) :
    ∃ f, (ipcamFrame v).node.first ipcamSearch.Picks = some f ∧ f.value = v :=
  ⟨_, rfl, rfl⟩

/-- `{"remote":null}`. -/
def remoteOnly : Node :=
  .object (.last .none (.verbatim (ascii "remote") plain_words.2.1) .none .none .null .none)

theorem remoteOnly_injected :
    Injected (ipcamFrame remoteOnly) (tryInjectIpcamFileLocal (ipcamFrame remoteOnly).bytes).1 := by
  obtain ⟨f, hf, hv⟩ := ipcamFrame_first remoteOnly
  have hfirst : (ipcamFrame remoteOnly).node.first isIpcam = some f := hf ▸ rfl
  refine (tryInjectIpcamFileLocal_suited _).1 ((suited_iff_first hf hv rfl).2 ⟨hfirst, ?_⟩)
  rw [hv]
  rfl

/-- What becomes of an empty object is no JSON text. -/
theorem empty_not_injected :
    ¬ Injected (ipcamFrame (.emptyObject .none))
      (tryInjectIpcamFileLocal (ipcamFrame (.emptyObject .none)).bytes).1 := by
  obtain ⟨f, hf, hv⟩ := ipcamFrame_first (.emptyObject .none)
  rw [tryInject_empty hf hv]
  exact not_injected_empty

end BambooNet.Agent
