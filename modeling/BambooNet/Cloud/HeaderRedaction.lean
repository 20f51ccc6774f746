import BambooNet.Lib.CString
import BambooNet.Lib.Lines

/-!
# Header blocks in the log

The headers of a request are logged as they are sent, and users attach the log to bug reports. What
a header such as `Authorization` or `Cookie` carries is therefore replaced by its length.

**Two runs.** Blocks that differ in credentials only are logged alike. `SameButCredential` relates
two such lines, and `redactLine` sends both to one text: the scanners meet the same bytes up to the
credential (`SameButCredential.redactLine_eq`).

**Theorem (`redact_hides`).** Such blocks give one text, and a line that is no secret header is in
that text as it stands.
-/

namespace BambooNet.Http

/-! ## The program -/

def space : UInt8 := 0x20

def colon : UInt8 := 0x3a

def newline : UInt8 := 0x0a

def cr : UInt8 := 0x0d

def kAuthorization : Bytes := ascii "authorization"

def kProxyAuthorization : Bytes := ascii "proxy-authorization"

def kSecretHeaders : List Bytes :=
  [kAuthorization, kProxyAuthorization, ascii "cookie", ascii "set-cookie",
    ascii "x-amz-security-token", ascii "x-oss-security-token", ascii "x-bbl-device-security-sign"]

def redacted (n : ℕ) : Bytes := ascii "<redacted " ++ decimal n ++ ascii " bytes>"

/-- A secret up to the end of its line. The carriage return of a line end is none of it. -/
def redactTail (secret : Bytes) : Bytes :=
  if secret.getLast? = some cr then redacted (secret.length - 1) ++ [cr]
  else redacted secret.length

def redactLine (line : Bytes) : Bytes :=
  match cutAt colon line with
  | none => line
  | some (field, rest) =>
    let name := CString.lower field
    if kSecretHeaders.contains name then
      let value := rest.dropWhile (· == space)
      if value = [] then line
      else
        let kept := field ++ colon :: rest.takeWhile (· == space)
        if name = kAuthorization ∨ name = kProxyAuthorization then
          match cutAt space value with
          | none => kept ++ redactTail value
          | some (scheme, credential) => kept ++ (scheme ++ space :: redactTail credential)
        else kept ++ redactTail value
    else line

def redactSecretHeaders (block : Bytes) : Bytes :=
  if block = [] then []
  else
    match _h : cutAt newline block with
    | none => redactLine block
    | some (line, rest) => redactLine line ++ newline :: redactSecretHeaders rest
termination_by block.length
decreasing_by
  obtain ⟨rfl, -⟩ := cutAt_eq_some_iff.1 _h
  simp only [List.length_append, List.length_cons]
  omega

/-! ## Lines that differ in a credential -/

/-- Optional white space of a header. -/
abbrev Blank (s : Bytes) : Prop := ∀ c ∈ s, c = space ∨ c = 0x09

/-- A text that does not start with a space. -/
abbrev Visible (s : Bytes) : Prop := ∃ c, s.head? = some c ∧ c ≠ space

/-- What a secret header hides. -/
structure Credential (s : Bytes) : Prop where
  visible : Visible s
  oneLine : ∀ c ∈ s, c ≠ cr ∧ c ≠ newline

/-- The text of a secret header line up to its credential. -/
inductive Stem : Bytes → Prop
  /-- The whole value is the credential. -/
  | value {field pad : Bytes} (hcolon : colon ∉ field) (hpad : Blank pad)
      (hname : CString.lower field ∈ kSecretHeaders)
      (hwhole : CString.lower field ≠ kAuthorization ∧ CString.lower field ≠ kProxyAuthorization) :
      Stem (field ++ colon :: pad)
  /-- The credential follows the scheme word. -/
  | scheme {field pad word : Bytes} (n : ℕ) (hcolon : colon ∉ field) (hpad : Blank pad)
      (hname : CString.lower field = kAuthorization ∨ CString.lower field = kProxyAuthorization)
      (hword : word ≠ [] ∧ space ∉ word) :
      Stem (field ++ colon :: (pad ++ word ++ List.replicate (n + 1) space))

/-- Lines that are the same up to the bytes of a credential. -/
inductive SameButCredential : Bytes → Bytes → Prop
  | refl (line : Bytes) : SameButCredential line line
  | secret {stem s s' eol : Bytes} (hstem : Stem stem) (hs : Credential s) (hs' : Credential s')
      (hlen : s.length = s'.length) (heol : eol = [] ∨ eol = [cr]) :
      SameButCredential (stem ++ s ++ eol) (stem ++ s' ++ eol)

/-- A line with the name of a secret header. -/
def SecretHeader (line : Bytes) : Prop :=
  ∃ field rest, line = field ++ colon :: rest ∧ colon ∉ field ∧
    CString.lower field ∈ kSecretHeaders

/-! ## One line -/

theorem redactTail_credential {s eol : Bytes} (pre : Bytes) (hs : Credential s)
    (heol : eol = [] ∨ eol = [cr]) :
    redactTail (pre ++ (s ++ eol)) = redacted (pre.length + s.length) ++ eol := by
  rcases heol with rfl | rfl
  · have hlast : (pre ++ s).getLast? ≠ some cr := by
      intro h
      obtain ⟨c, hc, -⟩ := hs.visible
      have hne : s ≠ [] := fun hnil => by rw [hnil] at hc; cases hc
      rw [List.getLast?_append_of_ne_nil _ hne] at h
      exact (hs.oneLine cr (List.mem_of_getLast? h)).1 rfl
    rw [List.append_nil, redactTail, if_neg hlast, List.append_nil, List.length_append]
  · rw [← List.append_assoc, redactTail, if_pos List.getLast?_concat, List.length_append,
      List.length_append, List.length_singleton, Nat.add_sub_cancel]

section

variable {field rest lead t : Bytes}

theorem Visible.append (h : Visible lead) (t : Bytes) : Visible (lead ++ t) := by
  obtain ⟨c, hc, hne⟩ := h
  obtain ⟨s, rfl⟩ := List.head?_eq_some_iff.1 hc
  exact ⟨c, rfl, hne⟩

theorem takeWhile_lead (ht : Visible t) :
    (lead ++ t).takeWhile (· == space) = lead.takeWhile (· == space) := by
  obtain ⟨c, hc, hne⟩ := ht
  obtain ⟨t, rfl⟩ := List.head?_eq_some_iff.1 hc
  induction lead with
  | nil => simp [hne]
  | cons a lead ih =>
    by_cases ha : a = space
    · simp only [List.cons_append, List.takeWhile_cons, ha, beq_self_eq_true, if_true, ih]
    · simp [ha]

theorem dropWhile_lead (ht : Visible t) :
    (lead ++ t).dropWhile (· == space) = lead.dropWhile (· == space) ++ t := by
  have hsplit := List.takeWhile_append_dropWhile (p := (· == space)) (l := lead ++ t)
  rw [takeWhile_lead ht] at hsplit
  conv_rhs at hsplit => rw [← List.takeWhile_append_dropWhile (p := (· == space)) (l := lead)]
  rw [List.append_assoc] at hsplit
  exact List.append_cancel_left hsplit

theorem redactLine_value (hcolon : colon ∉ field) (hname : CString.lower field ∈ kSecretHeaders)
    (hwhole : CString.lower field ≠ kAuthorization ∧ CString.lower field ≠ kProxyAuthorization)
    (hvalue : rest.dropWhile (· == space) ≠ []) :
    redactLine (field ++ colon :: rest) = field ++ colon :: rest.takeWhile (· == space) ++
      redactTail (rest.dropWhile (· == space)) := by
  simp only [redactLine, cutAt_eq_some_iff.2 ⟨rfl, hcolon⟩]
  rw [if_pos (List.contains_iff_mem.2 hname), if_neg hvalue, if_neg (not_or.2 hwhole)]

theorem redactLine_scheme {scheme credential : Bytes} (hcolon : colon ∉ field)
    (hname : CString.lower field = kAuthorization ∨ CString.lower field = kProxyAuthorization)
    (hcut : cutAt space (rest.dropWhile (· == space)) = some (scheme, credential)) :
    redactLine (field ++ colon :: rest) = field ++ colon :: rest.takeWhile (· == space) ++
      (scheme ++ space :: redactTail credential) := by
  have hsecret : CString.lower field ∈ kSecretHeaders := by
    rcases hname with h | h
    · rw [h, kSecretHeaders]
      exact List.mem_cons_self
    · rw [h, kSecretHeaders]
      exact List.mem_cons_of_mem _ List.mem_cons_self
  have hvalue : rest.dropWhile (· == space) ≠ [] := fun h => by rw [h] at hcut; cases hcut
  simp only [redactLine, cutAt_eq_some_iff.2 ⟨rfl, hcolon⟩]
  rw [if_pos (List.contains_iff_mem.2 hsecret), if_neg hvalue, if_pos hname, hcut]

end

/-- What is written for a stem depends on the length of the credential only. -/
theorem Stem.exists_kept {stem : Bytes} (h : Stem stem) :
    ∃ kept m, ∀ {s eol : Bytes}, Credential s → eol = [] ∨ eol = [cr] →
      redactLine (stem ++ (s ++ eol)) = kept ++ (redacted (m + s.length) ++ eol) := by
  cases h with
  | @value field pad hcolon hpad hname hwhole =>
    refine ⟨field ++ colon :: pad.takeWhile (· == space), (pad.dropWhile (· == space)).length, ?_⟩
    intro s eol hs heol
    have hvisible := hs.visible.append eol
    have hvalue : (pad ++ (s ++ eol)).dropWhile (· == space) ≠ [] := by
      intro h
      obtain ⟨c, hc, -⟩ := hs.visible
      rw [dropWhile_lead hvisible, List.append_eq_nil_iff, List.append_eq_nil_iff] at h
      rw [h.2.1] at hc
      cases hc
    rw [List.append_assoc, List.cons_append, redactLine_value hcolon hname hwhole hvalue,
      takeWhile_lead hvisible, dropWhile_lead hvisible, redactTail_credential _ hs heol]
  | @scheme field pad word n hcolon hpad hname hword =>
    have hwordVisible : Visible (word ++ List.replicate (n + 1) space) := by
      obtain ⟨hne, hspace⟩ := hword
      obtain ⟨c, t, rfl⟩ := List.exists_cons_of_ne_nil hne
      exact ⟨c, rfl, fun hc => hspace (hc ▸ List.mem_cons_self)⟩
    -- the scan for a space stops before the credential
    have hspace : space ∈ (pad ++ word ++ List.replicate (n + 1) space).dropWhile (· == space) := by
      rw [List.append_assoc, dropWhile_lead hwordVisible]
      simp
    obtain ⟨⟨scheme, between⟩, hcut⟩ := Option.ne_none_iff_exists'.1
      fun hnone => cutAt_eq_none_iff.1 hnone hspace
    obtain ⟨hlead, hfree⟩ := cutAt_eq_some_iff.1 hcut
    refine ⟨field ++ colon ::
      (pad ++ word ++ List.replicate (n + 1) space).takeWhile (· == space) ++ (scheme ++ [space]),
      between.length, ?_⟩
    intro s eol hs heol
    have hvisible := hs.visible.append eol
    have hcut' : cutAt space ((pad ++ word ++ List.replicate (n + 1) space ++
        (s ++ eol)).dropWhile (· == space)) = some (scheme, between ++ (s ++ eol)) := by
      rw [dropWhile_lead hvisible, hlead, cutAt_eq_some_iff]
      exact ⟨by simp, hfree⟩
    rw [List.append_assoc, List.cons_append, redactLine_scheme hcolon hname hcut',
      takeWhile_lead hvisible, redactTail_credential _ hs heol]
    simp

theorem SameButCredential.redactLine_eq {line line' : Bytes} (h : SameButCredential line line') :
    redactLine line = redactLine line' := by
  cases h with
  | refl => rfl
  | @secret stem s s' eol hstem hs hs' hlen heol =>
    obtain ⟨kept, m, hkept⟩ := hstem.exists_kept
    rw [List.append_assoc, List.append_assoc, hkept hs heol, hkept hs' heol, hlen]

theorem redactLine_of_not_secret {line : Bytes} (h : ¬ SecretHeader line) :
    redactLine line = line := by
  cases hcut : cutAt colon line with
  | none => simp only [redactLine, hcut]
  | some e =>
    obtain ⟨field, rest⟩ := e
    have hname : ¬ kSecretHeaders.contains (CString.lower field) := by
      intro hname
      obtain ⟨hline, hcolon⟩ := cutAt_eq_some_iff.1 hcut
      exact h ⟨field, rest, hline, hcolon, List.contains_iff_mem.1 hname⟩
    simp only [redactLine, hcut]
    rw [if_neg hname]

/-! ## Blocks of lines -/

theorem SameButCredential.newline_notMem {line line' : Bytes} (h : SameButCredential line line')
    (hline : newline ∉ line) : newline ∉ line' := by
  cases h with
  | refl => exact hline
  | @secret stem s s' eol hstem hs hs' hlen heol =>
    simp only [List.mem_append, not_or] at hline ⊢
    exact ⟨⟨hline.1.1, fun hmem => (hs'.oneLine _ hmem).2 rfl⟩, hline.2⟩

section

variable {lines lines' : List Bytes}

theorem newline_notMem_of_same (hsame : List.Forall₂ SameButCredential lines lines')
    (h : ∀ line ∈ lines, newline ∉ line) : ∀ line ∈ lines', newline ∉ line := by
  induction hsame with
  | nil => exact h
  | cons hline _ ih =>
    rw [List.forall_mem_cons] at h ⊢
    exact ⟨hline.newline_notMem h.1, ih h.2⟩

theorem map_redactLine_of_same (hsame : List.Forall₂ SameButCredential lines lines') :
    lines.map redactLine = lines'.map redactLine := by
  induction hsame with
  | nil => rfl
  | cons hline _ ih => rw [List.map_cons, List.map_cons, hline.redactLine_eq, ih]

end

theorem redactSecretHeaders_last {line : Bytes} (h : newline ∉ line) :
    redactSecretHeaders line = redactLine line := by
  rw [redactSecretHeaders, cutAt_eq_none_iff.2 h]
  split
  · next hnil =>
    rw [hnil]
    rfl
  · rfl

theorem redactSecretHeaders_line {line : Bytes} (h : newline ∉ line) (rest : Bytes) :
    redactSecretHeaders (line ++ newline :: rest) =
      redactLine line ++ newline :: redactSecretHeaders rest := by
  rw [redactSecretHeaders, if_neg (by simp), cutAt_eq_some_iff.2 ⟨rfl, h⟩]

theorem redactSecretHeaders_lines {lines : List Bytes} (h : ∀ line ∈ lines, newline ∉ line) :
    redactSecretHeaders ([newline].intercalate lines) =
      [newline].intercalate (lines.map redactLine) := by
  induction lines with
  | nil => rw [redactSecretHeaders]; rfl
  | cons line lines ih =>
    have hline := h line List.mem_cons_self
    cases lines with
    | nil => simpa using redactSecretHeaders_last hline
    | cons next lines =>
      have ih := ih fun l hl => h l (List.mem_cons_of_mem _ hl)
      rw [List.intercalate_cons_cons, List.append_assoc, List.singleton_append,
        redactSecretHeaders_line hline, ih]
      simp

/-- **Theorem.** Blocks that are the same but for credentials give the same text, and what is no
secret header is returned byte for byte. -/
theorem redact_hides {lines : List Bytes} (h : ∀ line ∈ lines, newline ∉ line) :
    (∀ lines', List.Forall₂ SameButCredential lines lines' →
      redactSecretHeaders ([newline].intercalate lines) =
        redactSecretHeaders ([newline].intercalate lines')) ∧
      ∃ out, redactSecretHeaders ([newline].intercalate lines) = [newline].intercalate out ∧
        List.Forall₂ (fun line written => ¬ SecretHeader line → written = line) lines out := by
  refine ⟨?_, lines.map redactLine, redactSecretHeaders_lines h, ?_⟩
  · intro lines' hsame
    rw [redactSecretHeaders_lines h, redactSecretHeaders_lines (newline_notMem_of_same hsame h),
      map_redactLine_of_same hsame]
  · rw [List.forall₂_map_right_iff, List.forall₂_same]
    intro line _ hsecret
    exact redactLine_of_not_secret hsecret

theorem redact_hides_bearer :
    redactSecretHeaders ([newline].intercalate
        [ascii "AUTHORIZATION: Bearer ab" ++ [cr], ascii "Host: h" ++ [cr], []]) =
      redactSecretHeaders ([newline].intercalate
        [ascii "AUTHORIZATION: Bearer xy" ++ [cr], ascii "Host: h" ++ [cr], []]) := by
  refine (redact_hides (by decide)).1 _ (.cons ?_ (.cons (.refl _) (.cons (.refl _) .nil)))
  have hstem : Stem (ascii "AUTHORIZATION: Bearer ") :=
    @Stem.scheme (ascii "AUTHORIZATION") [space] (ascii "Bearer") 0 (by decide)
      (List.all_iff_forall_prop.1 (by decide)) (by decide) (by decide)
  have hcredential {s : Bytes} (hs : s = ascii "ab" ∨ s = ascii "xy") : Credential s := by
    rcases hs with rfl | rfl
    · exact ⟨⟨0x61, rfl, by decide⟩, List.all_iff_forall_prop.1 (by decide)⟩
    · exact ⟨⟨0x78, rfl, by decide⟩, List.all_iff_forall_prop.1 (by decide)⟩
  exact .secret hstem (hcredential (.inl rfl)) (hcredential (.inr rfl)) rfl (.inr rfl)

end BambooNet.Http
