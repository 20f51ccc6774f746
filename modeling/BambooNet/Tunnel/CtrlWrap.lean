import BambooNet.Json.Prepend
import BambooNet.Lib.JsonNesting
import BambooNet.Tunnel.Messages
import Mathlib.Data.List.DropRight

/-!
# Requests with binary data

A request gets the member `mtype` in front of its other members and is followed by two line ends and
the binary data. The receiver finds the end of the JSON text by counting braces outside of strings.

**The end of a printed object** is found whatever its strings contain (`balanced_dump`), so the
binary data always comes out as it went in. The JSON text comes out as the object with `mtype`,
except that the empty object is left with a comma that nothing follows, and that an object which
begins with an `mtype` of its own keeps it (`wrapped_iff`).
-/

namespace BambooNet.Tunnel

open Json JsonSyntax

def kMtypeCtrlJson : ℤ := 0x3001

def mtype : Bytes := ascii "mtype"

def wrapCtrlAbi (abiJson : Bytes) : Bytes :=
  let trimmed := abiJson.rdropWhile isWs
  if ascii "\x7b\"mtype\"" <+: trimmed then abiJson
  else
    match trimmed with
    | [] => abiJson
    | c :: rest =>
      if c = lbrace then ascii "\x7b\"mtype\":" ++ decimalInt kMtypeCtrlJson ++ comma :: rest
      else abiJson

def wrapCtrlAbiWithBinary (abiJson bin : Bytes) : Bytes :=
  wrapCtrlAbi abiJson ++ if bin = [] then [] else ascii "\n\n" ++ bin

/-! ## The end of a printed object -/

theorem scanJson_stay (d : ℕ) (c : UInt8) (p : Bytes) (hquote : c ≠ quote)
    (hbackslash : c ≠ backslash) : scanJson d true false (c :: p) =
      (scanJson d true false p).map (· + 1) := by
  rw [scanJson, if_pos rfl, if_neg (by decide), if_neg hbackslash, decide_eq_true hquote]

theorem scanJson_pass (d : ℕ) (c : UInt8) (p : Bytes) (hquote : c ≠ quote) (ho : c ≠ lbrace)
    (hc : c ≠ rbrace) : scanJson d false false (c :: p) =
      (scanJson d false false p).map (· + 1) := by
  rw [scanJson, if_neg (by decide), if_neg hquote, if_neg ho, if_neg hc]

theorem scanJson_closes (d : ℕ) (p : Bytes) : scanJson (d + 2) false false (rbrace :: p) =
    (scanJson (d + 1) false false p).map (· + 1) := by
  rw [scanJson, if_neg (by decide), if_neg (by decide), if_neg (by decide), if_pos rfl,
    if_neg (by omega)]
  rfl

/-- The scan for the end of an object. -/
def jsonScan : NestScan where
  opening := lbrace
  closing := rbrace
  pair := .inr ⟨rfl, rfl⟩
  scan := scanJson
  escaped _ _ _ := rfl
  backslash _ _ := rfl
  leave _ _ := rfl
  stay := scanJson_stay
  enter _ _ := rfl
  opens _ _ := rfl
  closes := scanJson_closes
  ends _ := rfl
  pass := scanJson_pass

theorem balanced_escape (s : Bytes) : jsonScan.Balanced (escape s) := by
  obtain ⟨str, htext, -⟩ := exists_str s
  exact htext ▸ NestScan.balanced_str str

theorem balanced_literal {t : Bytes} (h : t.all fun c => decide (Neutral c)) :
    jsonScan.Balanced t :=
  NestScan.balanced_neutral fun c hc => of_decide_eq_true (List.all_eq_true.1 h c hc)

theorem balanced_number (x : Double) : jsonScan.Balanced x.dump := by
  rcases exists_numeral x with ⟨n, hn⟩ | ⟨neg, rfl⟩ | ⟨neg, rfl⟩
  · exact hn ▸ NestScan.balanced_neutral (neutral_numeral n)
  · cases neg <;> exact balanced_literal rfl
  · cases neg <;> exact balanced_literal rfl

theorem balanced_elements {vs : List Value} (h : ∀ v ∈ vs, jsonScan.Balanced v.dump) :
    jsonScan.Balanced (dumpElements vs) := by
  induction vs with
  | nil => exact NestScan.balanced_nil
  | cons v vs ih =>
    obtain ⟨hv, hvs⟩ := List.forall_mem_cons.1 h
    cases vs with
    | nil => exact hv
    | cons v' vs =>
      rw [dumpElements_cons]
      exact hv.append ((balanced_literal (t := [comma]) rfl).append (ih hvs))

theorem balanced_entries {es : Object} (h : ∀ e ∈ es, jsonScan.Balanced e.2.dump) :
    jsonScan.Balanced (dumpEntries es) := by
  induction es with
  | nil => exact NestScan.balanced_nil
  | cons e es ih =>
    obtain ⟨he, hes⟩ := List.forall_mem_cons.1 h
    have hcolon : jsonScan.Balanced [colon] := balanced_literal rfl
    cases es with
    | nil => exact ((balanced_escape e.1).append hcolon).append he
    | cons e' es =>
      rw [dumpEntries_cons]
      exact (balanced_escape e.1).append
        (hcolon.append (he.append ((balanced_literal (t := [comma]) rfl).append (ih hes))))

/-- **The braces of a printed value are balanced** outside of its strings. -/
theorem balanced_dump (v : Value) : jsonScan.Balanced v.dump := by
  induction v with
  | null => exact balanced_literal rfl
  | bool b => cases b <;> exact balanced_literal rfl
  | number x => exact balanced_number x
  | string s => exact balanced_escape s
  | array vs ih =>
    have hdump : (Value.array vs).dump = lbracket :: (dumpElements vs ++ [rbracket]) := by
      simp [Value.dump]
    rw [hdump]
    exact NestScan.Balanced.around (balanced_elements ih) (.inl ⟨rfl, rfl⟩)
  | object es ih =>
    rw [dump_object]
    exact NestScan.Balanced.brackets (balanced_entries ih)

/-- **The binary data comes out** after any JSON text whose braces are balanced. -/
theorem splitJsonPrefix_binary {t : Bytes} (h : jsonScan.Balanced t) (b : Bytes) :
    splitJsonPrefix (lbrace :: (t ++ [rbrace]) ++ if b = [] then [] else ascii "\n\n" ++ b) =
      some (lbrace :: (t ++ [rbrace]), b) := by
  have hlength : (lbrace :: (t ++ [rbrace])).length = t.length + 2 := by simp
  have hdrop : dropSeparator (if b = [] then [] else ascii "\n\n" ++ b) = b := by
    by_cases hb : b = []
    · rw [if_pos hb, hb]
      rfl
    · rw [if_neg hb]
      rfl
  have hscan : scanJson 0 false false (lbrace :: (t ++ rbrace :: _)) = some (t.length + 2) :=
    NestScan.scan_brackets h (if b = [] then [] else ascii "\n\n" ++ b)
  rw [List.append_cons, ← List.cons_append] at hscan
  rw [splitJsonPrefix, List.cons_append, if_pos List.head?_cons, ← List.cons_append, hscan,
    Option.map_some, ← hlength, List.take_left, List.drop_left, hdrop]

/-! ## What is sent for an object -/

/-- The object has an `mtype` that is printed first. -/
def FirstIsMtype (es : Object) : Prop := es.head?.map (·.1) = some mtype

instance : DecidablePred FirstIsMtype := fun _ => inferInstanceAs (Decidable (_ = _))

theorem exists_dumpEntries {es : Object} (hne : es ≠ []) : ∃ t, dumpEntries es = quote :: t := by
  obtain ⟨e, es, rfl⟩ := List.exists_cons_of_ne_nil hne
  exact ⟨_, dumpEntries_flatMap e.1 e.2 es⟩

/-- The check of the first bytes finds the key, since no other key is printed like it. -/
theorem prefix_dump_iff {es : Object} :
    ascii "\x7b\"mtype\"" <+: (Value.object es).dump ↔ FirstIsMtype es := by
  have hhead : ascii "\x7b\"mtype\"" = lbrace :: escape mtype := by decide
  rw [hhead, dump_object, List.cons_prefix_cons, and_iff_right rfl]
  cases es with
  | nil => exact iff_of_false (by decide) (by decide)
  | cons e es =>
    obtain ⟨k, v⟩ := e
    rw [dumpEntries_flatMap, List.append_assoc, FirstIsMtype, List.head?_cons, Option.map_some,
      Option.some_inj]
    constructor
    · rintro ⟨r, hr⟩
      have hk := parseString_escape mtype r
      rw [hr, parseString_escape] at hk
      exact (Prod.mk.inj (Except.ok.inj hk)).1
    · rintro rfl
      exact List.prefix_append _ _

theorem rdropWhile_dump (es : Object) :
    (Value.object es).dump.rdropWhile isWs = (Value.object es).dump := by
  rw [dump_object, ← List.cons_append]
  exact List.rdropWhile_concat_neg _ _ _ (by decide)

/-- The member that is put in front. -/
def mtypeMember : Bytes := escape mtype ++ colon :: (decimalInt kMtypeCtrlJson ++ [comma])

theorem wrapCtrlAbi_dump (es : Object) :
    wrapCtrlAbi (Value.object es).dump = if FirstIsMtype es then (Value.object es).dump
      else lbrace :: (mtypeMember ++ dumpEntries es ++ [rbrace]) := by
  have hmember : ascii "\x7b\"mtype\":" ++ decimalInt kMtypeCtrlJson ++ [comma] =
      lbrace :: mtypeMember := by decide
  rw [wrapCtrlAbi]
  simp only [rdropWhile_dump, prefix_dump_iff]
  by_cases h : FirstIsMtype es
  · rw [if_pos h, if_pos h]
  · rw [if_neg h, if_neg h, dump_object]
    dsimp only
    rw [if_pos rfl, List.append_cons, hmember, List.cons_append, List.append_assoc]

/-- What is sent is an object with its braces balanced. -/
theorem exists_balanced (es : Object) :
    ∃ t, jsonScan.Balanced t ∧ wrapCtrlAbi (Value.object es).dump = lbrace :: (t ++ [rbrace]) := by
  have hentries : jsonScan.Balanced (dumpEntries es) :=
    balanced_entries fun e _ => balanced_dump e.2
  have hmember : jsonScan.Balanced mtypeMember :=
    (balanced_escape mtype).append (balanced_literal rfl)
  rw [wrapCtrlAbi_dump]
  split
  · exact ⟨dumpEntries es, hentries, dump_object es⟩
  · exact ⟨mtypeMember ++ dumpEntries es, hmember.append hentries, rfl⟩

/-- The object with the member added. -/
def withMtype (es : Object) : Object :=
  Entries.insert mtype (.number (.int kMtypeCtrlJson)) es

/-- The object is not empty, its text is read as the object (a member `mtype` apart), and when it
begins with an `mtype`, this is the one to add. -/
structure Wrappable (es : Object) : Prop where
  nonempty : es ≠ []
  readsBack : ∃ es', parse (Value.object es).dump = .ok (.object es') ∧
    withMtype es' = withMtype es ∧ (FirstIsMtype es → withMtype es' = es')

theorem withMtype_withMtype (es : Object) (h : Entries.Sorted es) :
    withMtype (withMtype es) = withMtype es := by
  refine Entries.Sorted.ext ((h.insert _ _).insert _ _) (h.insert _ _) fun k => ?_
  rw [withMtype, withMtype, Entries.get?_insert, Entries.get?_insert]
  split <;> rfl

theorem parse_wrapCtrlAbi_iff {es : Object} (h : Entries.Sorted es) :
    parse (wrapCtrlAbi (Value.object es).dump) = .ok (.object (withMtype es)) ↔ Wrappable es := by
  rw [wrapCtrlAbi_dump]
  by_cases hfirst : FirstIsMtype es
  · have hne : es ≠ [] := by
      rintro rfl
      exact absurd hfirst (by decide)
    rw [if_pos hfirst]
    constructor
    · intro hparse
      exact ⟨hne, _, hparse, withMtype_withMtype es h, fun _ => withMtype_withMtype es h⟩
    · rintro ⟨-, es', hparse, hsame, hkept⟩
      rw [hparse, ← hsame, hkept hfirst]
  · rw [if_neg hfirst]
    by_cases hne : es = []
    · have hcomma := @parse_only_comma mtype kMtypeCtrlJson (by decide)
      rw [hne, mtypeMember]
      simp only [dumpEntries, List.append_nil, List.append_assoc, List.cons_append,
        List.nil_append, hcomma]
      exact iff_of_false (by simp) fun hw => hw.nonempty rfl
    · obtain ⟨t, ht⟩ := exists_dumpEntries hne
      have hdump : (Value.object es).dump = lbrace :: quote :: (t ++ [rbrace]) := by
        rw [dump_object, ht, List.cons_append]
      have hsent : lbrace :: (mtypeMember ++ dumpEntries es ++ [rbrace]) = lbrace ::
          (escape mtype ++ colon :: (decimalInt kMtypeCtrlJson ++ comma :: quote ::
            (t ++ [rbrace]))) := by
        simp [mtypeMember, ht]
      rw [hsent, parse_prepend mtype (by decide), ← hdump]
      constructor
      · rintro ⟨es', hparse, hsame⟩
        exact ⟨hne, es', hparse, (Value.object.inj hsame).symm, fun hf => absurd hf hfirst⟩
      · rintro ⟨-, es', hparse, hsame, -⟩
        exact ⟨es', hparse, congrArg Value.object hsame.symm⟩

/-- Integers up to `2 ^ 53` and no deep nesting are enough for a text that is read as the object. -/
theorem wrappable_iff_of_int {es : Object} (hwf : (Value.object es).WF)
    (hint : (Value.object es).IntNumbers) (hdepth : (Value.object es).depth ≤ kMaxNestingDepth) :
    Wrappable es ↔ es ≠ [] ∧ (FirstIsMtype es → withMtype es = es) := by
  have hparse := parse_dump.1 _ hwf hint hdepth
  constructor
  · rintro ⟨hne, es', hes', hsame, hkept⟩
    obtain rfl := Value.object.inj (Except.ok.inj (hparse.symm.trans hes'))
    exact ⟨hne, hkept⟩
  · rintro ⟨hne, hkept⟩
    exact ⟨hne, es, hparse, rfl, hkept⟩

/-- **Wrapping and splitting**: for every object and every binary data, the split succeeds and gives
the data back, and the JSON part is the object with `mtype` exactly when the object is wrappable. -/
theorem wrapped_iff {es : Object} (h : Entries.Sorted es) (b : Bytes) :
    ∃ json, splitJsonPrefix (wrapCtrlAbiWithBinary (Value.object es).dump b) = some (json, b) ∧
      (parse json = .ok (.object (withMtype es)) ↔ Wrappable es) := by
  obtain ⟨t, ht, hwrap⟩ := exists_balanced es
  refine ⟨wrapCtrlAbi (Value.object es).dump, ?_, parse_wrapCtrlAbi_iff h⟩
  rw [wrapCtrlAbiWithBinary, hwrap]
  exact splitJsonPrefix_binary ht b

/-- An object with a string full of braces, and data that begins with line ends and a brace. -/
def trickyObject : Object := [(ascii "a", .string (ascii "\x7d\x7d\"\x7b"))]

theorem wrapped_iff_tricky : ∃ json,
    splitJsonPrefix (wrapCtrlAbiWithBinary (Value.object trickyObject).dump (ascii "\n\n\x7b")) =
      some (json, ascii "\n\n\x7b") ∧
    (parse json = .ok (.object (withMtype trickyObject)) ↔ Wrappable trickyObject) :=
  wrapped_iff (List.pairwise_singleton _ _) _

/-- The empty object comes out with a comma that nothing follows. -/
theorem empty_object_not_wrapped : ¬ ∃ json bin,
    splitJsonPrefix (wrapCtrlAbiWithBinary (Value.object []).dump []) = some (json, bin) ∧
      parse json = .ok (.object (withMtype [])) := by
  rintro ⟨json, bin, hsplit, hparse⟩
  obtain ⟨t, ht, hwrap⟩ := exists_balanced []
  have hsplit' := splitJsonPrefix_binary ht []
  rw [← hwrap] at hsplit'
  rw [wrapCtrlAbiWithBinary, hsplit'] at hsplit
  obtain ⟨rfl, -⟩ := Prod.mk.inj (Option.some.inj hsplit)
  exact ((parse_wrapCtrlAbi_iff .nil).1 hparse).nonempty rfl

end BambooNet.Tunnel
