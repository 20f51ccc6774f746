import BambooNet.Lib.Decimal
import BambooNet.Lib.Search
import Mathlib.Data.List.DropRight

/-!
# The name of a print on the printer

A print is stored under the project's name, the task's, or that of the file, without what a path
may not hold and with the extension of sliced projects. A slicer that counts plates from zero writes
`plate_0` where the printer wants `plate_1`.

**Theorem (`toPrintBasename_iff`).** The name is free of separators and control bytes and has the
extension. It is settled after one pass, and only an index of exactly 0 is turned into 1, exactly
when the first `plate_0` is the only one and no digit follows it: else the program takes the first
digit of another index for the index.
-/

namespace BambooNet.Lan

/-! ## The program -/

structure PrintParams where
  projectName : Bytes
  taskName : Bytes
  filename : Bytes

def isSeparator (c : UInt8) : Bool := c = 0x2f || c = 0x5c

def lower (c : UInt8) : UInt8 := if 0x41 ≤ c && c ≤ 0x5a then c - 0x41 + 0x61 else c

/-- What stands behind the last separator. -/
def basenameOf (path : Bytes) : Bytes := path.rtakeWhile fun c => !isSeparator c

def gcodeExtension : Bytes := ascii ".gcode.3mf"

def extension : Bytes := ascii ".3mf"

def defaultName : Bytes := ascii "print.gcode.3mf"

def sanitizeRemoteName (name : Bytes) : Bytes :=
  let name := name.dropWhile fun c => c = 0x2e || isSeparator c || c = 0x20
  let name := name.rdropWhile fun c => c = 0x20 || c = 0x2e
  name.map fun c => if c < 0x20 || isSeparator c then 0x5f else c

def dropLastN (n : ℕ) (name : Bytes) : Bytes := name.take (name.length - n)

def strip3mfExtension (name : Bytes) : Bytes :=
  if gcodeExtension <:+ name then dropLastN gcodeExtension.length name
  else if extension <:+ name then dropLastN extension.length name
  else name

def pickRemoteName (p : PrintParams) : Bytes :=
  let project := if p.projectName = [] then p.taskName else p.projectName
  let project := strip3mfExtension (sanitizeRemoteName project)
  if project ≠ [] then project ++ gcodeExtension
  else
    let name := sanitizeRemoteName (basenameOf p.filename)
    if name ≠ [] then name else defaultName

def endsWithCi (name suffix : Bytes) : Bool :=
  suffix.length ≤ name.length && (name.drop (name.length - suffix.length)).map lower = suffix

def plate : Bytes := ascii "plate_"

/-- The first `plate_0` becomes `plate_1`. -/
def replacePlate (name : Bytes) : Bytes :=
  match findFirst (plate ++ [0x30]) name with
  | some (before, behind) => before ++ (plate ++ [0x31]) ++ behind
  | none => name

def ensureExtension (name : Bytes) : Bytes :=
  if endsWithCi name gcodeExtension then name
  else
    (if endsWithCi name extension then dropLastN extension.length name else name) ++ gcodeExtension

def toPrintBasename (fname : Bytes) : Bytes :=
  let name := basenameOf fname
  if name = [] then defaultName else ensureExtension (replacePlate name)

/-! ## What the name is for -/

def extensionLength (name : Bytes) : ℕ :=
  if endsWithCi name gcodeExtension then gcodeExtension.length
  else if endsWithCi name extension then extension.length
  else 0

/-- The name without its extension. -/
def stem (name : Bytes) : Bytes := dropLastN (extensionLength name) name

def startsDigit (text : Bytes) : Bool := text.head?.any isDigit

/-- The names differ only in the digit of an index that is exactly 0 in the one, and 1 in the
other. -/
structure ZeroTurned (name name' : Bytes) : Prop where
  length : name'.length = name.length
  turned : ∀ i, name'[i]? ≠ name[i]? →
    name'[i]? = some 0x31 ∧ plate ++ [0x30] <:+ name.take (i + 1) ∧
      startsDigit (name.drop (i + 1)) = false

/-- The index of the plate that a name is for: the number behind the first `plate_` that has one. -/
def plateIndex : Bytes → Option ℕ
  | [] => none
  | c :: text =>
    if plate <+: c :: text ∧ startsDigit ((c :: text).drop plate.length) then
      some (natOf (((c :: text).drop plate.length).takeWhile isDigit))
    else plateIndex text

/-- Neither a separator nor a control byte. -/
def Safe (c : UInt8) : Prop := isSeparator c = false ∧ ¬ c < 0x20

/-- A file name that the printer takes. -/
structure RemoteName (name : Bytes) : Prop where
  safe : ∀ c ∈ name, Safe c
  ends : endsWithCi name gcodeExtension = true

/-- The name is settled, and nothing but an index of 0 was changed. An empty last component has
nothing that could be kept: it becomes `defaultName`. -/
structure Settled (fname : Bytes) : Prop where
  again : toPrintBasename (toPrintBasename fname) = toPrintBasename fname
  turned : basenameOf fname ≠ [] →
    ZeroTurned (stem (basenameOf fname)) (stem (toPrintBasename fname))

/-- The first marker is the only one, and ends behind its 0. -/
def OneMarker (fname : Bytes) : Prop :=
  ∀ before behind, findFirst (plate ++ [0x30]) (basenameOf fname) = some (before, behind) →
    findFirst (plate ++ [0x30]) behind = none ∧ startsDigit behind = false

variable {a b name : Bytes} {c : UInt8}

/-! ## Extensions -/

theorem endsWithCi_iff {suffix : Bytes} :
    endsWithCi name suffix = true ↔ ∃ t e, name = t ++ e ∧ e.map lower = suffix := by
  constructor
  · intro h
    rw [endsWithCi, Bool.and_eq_true] at h
    exact ⟨_, _, (List.take_append_drop _ name).symm, of_decide_eq_true h.2⟩
  · rintro ⟨t, e, rfl, rfl⟩
    simp [endsWithCi]

theorem length_le_of_endsWithCi {suffix : Bytes} (h : endsWithCi name suffix = true) :
    suffix.length ≤ name.length := by
  rw [endsWithCi, Bool.and_eq_true] at h
  exact of_decide_eq_true h.1

/-- An extension lies behind a byte that is not of it. -/
theorem endsWithCi_append_cons {suffix : Bytes} (hc : lower c ∉ suffix) :
    endsWithCi (a ++ c :: b) suffix = endsWithCi b suffix := by
  rw [Bool.eq_iff_iff, endsWithCi_iff, endsWithCi_iff]
  constructor
  · rintro ⟨t, e, heq, rfl⟩
    have he : c ∉ e := fun h => hc (List.mem_map_of_mem h)
    rcases List.append_eq_append_iff.1 heq with ⟨r, -, hr⟩ | ⟨r, -, hr⟩
    · cases r with
      | nil =>
        rw [List.nil_append] at hr
        exact absurd (hr ▸ List.mem_cons_self) he
      | cons d r =>
        obtain ⟨-, rfl⟩ := List.cons.inj hr
        exact ⟨r, e, rfl, rfl⟩
    · exact absurd (hr ▸ List.mem_append_right r List.mem_cons_self) he
  · rintro ⟨t, e, rfl, rfl⟩
    exact ⟨a ++ c :: t, e, by simp, rfl⟩

theorem endsWithCi_append (t e : Bytes) : endsWithCi (t ++ e) (e.map lower) = true :=
  endsWithCi_iff.2 ⟨t, e, rfl, rfl⟩

theorem extensionLength_le (name : Bytes) : extensionLength name ≤ name.length := by
  rw [extensionLength]
  split
  · next h => exact length_le_of_endsWithCi h
  · split
    · next h => exact length_le_of_endsWithCi h
    · exact Nat.zero_le _

theorem extension_subset : ∀ c ∈ extension, c ∈ gcodeExtension :=
  List.all_iff_forall_prop.1 (by decide)

/-- The stem reaches beyond a byte that no extension has. -/
theorem stem_append_cons (hc : lower c ∉ gcodeExtension) :
    stem (a ++ c :: b) = a ++ c :: stem b := by
  have hlen : extensionLength (a ++ c :: b) = extensionLength b := by
    rw [extensionLength, endsWithCi_append_cons hc,
      endsWithCi_append_cons fun h => hc (extension_subset _ h), extensionLength]
  have hle := extensionLength_le b
  have hcut : (a ++ c :: b).length - extensionLength b =
      a.length + (b.length - extensionLength b + 1) := by
    rw [List.length_append, List.length_cons]
    omega
  rw [stem, dropLastN, hlen, hcut, List.take_length_add_append, List.take_succ_cons]
  rfl

theorem lower_eq_dot (h : lower c = 0x2e) : c = 0x2e := by
  revert h
  exact forall_byte (p := fun c => lower c = 0x2e → c = 0x2e) (by decide +kernel) c

theorem startsDigit_of_extension {e suffix : Bytes} (h : e.map lower = 0x2e :: suffix) :
    startsDigit e = false := by
  obtain ⟨d, e, rfl⟩ := List.exists_cons_of_ne_nil (l := e) (by rintro rfl; cases h)
  rw [lower_eq_dot (List.cons.inj h).1]
  rfl

theorem dropLastN_append (t e : Bytes) : dropLastN e.length (t ++ e) = t := by
  rw [dropLastN, List.length_append, Nat.add_sub_cancel, List.take_left]

/-- What an extension is cut off at. -/
theorem exists_append_of_endsWithCi {suffix : Bytes} (h : endsWithCi name suffix = true) :
    ∃ e, name = dropLastN suffix.length name ++ e ∧ e.map lower = suffix := by
  obtain ⟨t, e, rfl, rfl⟩ := endsWithCi_iff.1 h
  rw [List.length_map, dropLastN_append]
  exact ⟨e, rfl, rfl⟩

theorem exists_append_stem (name : Bytes) :
    ∃ e, name = stem name ++ e ∧ (e = [] ∨ ∃ suffix, e.map lower = 0x2e :: suffix) := by
  rw [stem, extensionLength]
  split
  · next h =>
    obtain ⟨e, he, hext⟩ := exists_append_of_endsWithCi h
    exact ⟨e, he, .inr ⟨_, hext⟩⟩
  · split
    · next h =>
      obtain ⟨e, he, hext⟩ := exists_append_of_endsWithCi h
      exact ⟨e, he, .inr ⟨_, hext⟩⟩
    · exact ⟨[], by rw [dropLastN, Nat.sub_zero, List.take_length, List.append_nil], .inl rfl⟩

theorem startsDigit_stem (name : Bytes) : startsDigit (stem name) = startsDigit name := by
  obtain ⟨e, he, hext⟩ := exists_append_stem name
  have hfalse : startsDigit e = false := by
    rcases hext with rfl | ⟨suffix, hext⟩
    · rfl
    · exact startsDigit_of_extension hext
  conv_rhs => rw [he]
  cases stem name with
  | nil => exact hfalse.symm
  | cons c t => rfl

theorem stem_ensureExtension (name : Bytes) : stem (ensureExtension name) = stem name := by
  have hadd (t : Bytes) : stem (t ++ gcodeExtension) = t := by
    have hext : endsWithCi (t ++ gcodeExtension) gcodeExtension = true :=
      endsWithCi_append t gcodeExtension
    rw [stem, extensionLength, if_pos hext, dropLastN_append]
  rw [ensureExtension]
  split
  · rfl
  · next h =>
    rw [hadd, stem, extensionLength, if_neg h]
    split
    · rfl
    · rw [dropLastN, Nat.sub_zero, List.take_length]

theorem ends_ensureExtension (name : Bytes) :
    endsWithCi (ensureExtension name) gcodeExtension = true := by
  rw [ensureExtension]
  split
  · next h => exact h
  · exact endsWithCi_append _ gcodeExtension

theorem mem_ensureExtension (h : c ∈ ensureExtension name) : c ∈ name ∨ c ∈ gcodeExtension := by
  rw [ensureExtension] at h
  split at h
  · exact .inl h
  · refine (List.mem_append.1 h).imp_left fun h => ?_
    split at h
    · exact List.mem_of_mem_take h
    · exact h

/-- The extension is added, or nothing is changed. -/
theorem ensureExtension_of_length (h : (ensureExtension name).length = name.length) :
    ensureExtension name = name := by
  rw [ensureExtension] at h ⊢
  split
  · rfl
  · next hext =>
    exfalso
    have hgcode : gcodeExtension.length = 10 := rfl
    have hshort : extension.length = 4 := rfl
    rw [if_neg hext, List.length_append, hgcode] at h
    split at h
    · rw [dropLastN, List.length_take, hshort] at h
      omega
    · omega

/-! ## Markers -/

/-- An extension neither holds nor completes a marker. -/
theorem findFirst_append_extension {t e : Bytes} (he : ∀ c ∈ e, lower c ∈ gcodeExtension)
    (hhead : ∀ c ∈ e.head?, c = 0x2e) :
    findFirst (plate ++ [0x30]) (t ++ e) = none ↔ findFirst (plate ++ [0x30]) t = none := by
  have hnone : findFirst (plate ++ [0x30]) e = none :=
    findFirst_eq_none_of_mem (c := 0x70) (by decide) fun h => absurd (he _ h) (by decide)
  have hcut : ¬ Straddles (plate ++ [0x30]) t e := by
    cases e with
    | nil =>
      rintro ⟨_, n₂, -, hn₂, -, -, hpre⟩
      exact hn₂ (List.prefix_nil.1 hpre)
    | cons c e =>
      rw [hhead c rfl]
      exact not_straddles_head (by decide)
  rw [findFirst_append (by decide) hcut, hnone, Option.map_none, Option.or_none,
    Option.map_eq_none_iff]

theorem findFirst_ensureExtension (name : Bytes) :
    findFirst (plate ++ [0x30]) (ensureExtension name) = none ↔
      findFirst (plate ++ [0x30]) name = none := by
  have hadd (t : Bytes) : findFirst (plate ++ [0x30]) (t ++ gcodeExtension) = none ↔
      findFirst (plate ++ [0x30]) t = none :=
    findFirst_append_extension (List.all_iff_forall_prop.1 (by decide))
      fun c hc => (Option.some_inj.1 hc).symm
  rw [ensureExtension]
  split
  · rfl
  · rw [hadd]
    split
    · next h =>
      obtain ⟨e, he, hext⟩ := exists_append_of_endsWithCi h
      have hmem (c : UInt8) (hc : c ∈ e) : lower c ∈ gcodeExtension :=
        extension_subset _ (hext ▸ List.mem_map_of_mem hc)
      rw [← findFirst_append_extension (t := dropLastN _ name) hmem, ← he]
      intro c hc
      cases e with
      | nil => cases hc
      | cons d e =>
        rw [← Option.some_inj.1 hc]
        exact lower_eq_dot (List.cons.inj hext).1
    · rfl

variable {before behind : Bytes}

theorem replacePlate_some (h : findFirst (plate ++ [0x30]) name = some (before, behind)) :
    name = before ++ plate ++ 0x30 :: behind ∧
      replacePlate name = before ++ plate ++ 0x31 :: behind := by
  constructor
  · rw [eq_of_findFirst h]
    simp
  · rw [replacePlate, h]
    simp

theorem replacePlate_none (h : findFirst (plate ++ [0x30]) name = none) :
    replacePlate name = name := by
  rw [replacePlate, h]

theorem mem_replacePlate (h : c ∈ replacePlate name) : c ∈ name ∨ c ∈ plate ++ [0x31] := by
  cases hfind : findFirst (plate ++ [0x30]) name with
  | none => exact .inl (replacePlate_none hfind ▸ h)
  | some r =>
    obtain ⟨before, behind⟩ := r
    obtain ⟨hname, hreplaced⟩ := replacePlate_some hfind
    rw [hreplaced] at h
    rw [hname]
    simp only [List.mem_append, List.mem_cons, List.not_mem_nil, or_false] at h ⊢
    tauto

/-- Another marker is one behind the first. -/
theorem findFirst_replacePlate (h : findFirst (plate ++ [0x30]) name = some (before, behind)) :
    findFirst (plate ++ [0x30]) (replacePlate name) = none ↔
      findFirst (plate ++ [0x30]) behind = none := by
  have hleft : ¬ Straddles (plate ++ [0x30]) before (plate ++ [0x31]) :=
    not_straddles_head (c := 0x70) (by decide)
  have hright : ¬ Straddles (plate ++ [0x30]) (before ++ plate ++ [0x31]) behind :=
    not_straddles_last (by decide)
  have hone : findFirst (plate ++ [0x30]) (plate ++ [0x31]) = none :=
    findFirst_eq_none_of_mem (c := 0x30) (by decide) (by decide)
  have hsplit : before ++ plate ++ 0x31 :: behind = before ++ plate ++ [0x31] ++ behind := by
    simp
  rw [(replacePlate_some h).2, hsplit, findFirst_append (by decide) hright, List.append_assoc,
    findFirst_append (by decide) hleft, findFirst_left (by decide) h, hone]
  simp

/-! ## One pass -/

theorem isSeparator_of_mem_basenameOf (h : c ∈ basenameOf name) : isSeparator c = false := by
  simpa using List.mem_rtakeWhile_imp h

theorem basenameOf_eq_self (h : ∀ c ∈ name, isSeparator c = false) : basenameOf name = name :=
  List.rtakeWhile_eq_self_iff.2 fun c hc => by rw [h c hc]; rfl

theorem toPrintBasename_of_ne_nil (h : basenameOf name ≠ []) :
    toPrintBasename name = ensureExtension (replacePlate (basenameOf name)) := if_neg h

theorem ends_toPrintBasename (name : Bytes) :
    endsWithCi (toPrintBasename name) gcodeExtension = true := by
  by_cases h : basenameOf name = []
  · rw [toPrintBasename, if_pos h]
    decide
  · rw [toPrintBasename_of_ne_nil h]
    exact ends_ensureExtension _

/-- Where the bytes of a name come from. -/
theorem mem_toPrintBasename (h : c ∈ toPrintBasename name) :
    c ∈ basenameOf name ∨ c ∈ defaultName ++ plate ++ [0x31] := by
  by_cases hnil : basenameOf name = []
  · rw [toPrintBasename, if_pos hnil] at h
    right
    simp [h]
  · rw [toPrintBasename_of_ne_nil hnil] at h
    have hext : gcodeExtension ⊆ defaultName := List.all_iff_forall_prop.1 (by decide)
    rcases mem_ensureExtension h with h | h
    · refine (mem_replacePlate h).imp_right fun h => ?_
      rw [List.append_assoc]
      exact List.mem_append_right _ h
    · right
      simp [hext h]

theorem isSeparator_of_mem (h : c ∈ toPrintBasename name) : isSeparator c = false := by
  have hown : ∀ c ∈ defaultName ++ plate ++ [0x31], isSeparator c = false :=
    List.all_iff_forall_prop.1 (by decide)
  exact (mem_toPrintBasename h).elim isSeparator_of_mem_basenameOf (hown c)

theorem toPrintBasename_again (name : Bytes) : toPrintBasename (toPrintBasename name) =
    ensureExtension (replacePlate (toPrintBasename name)) := by
  have hself : basenameOf (toPrintBasename name) = toPrintBasename name :=
    basenameOf_eq_self fun c hc => isSeparator_of_mem hc
  have hne : toPrintBasename name ≠ [] := by
    intro h
    have hlen := length_le_of_endsWithCi (ends_toPrintBasename name)
    rw [h] at hlen
    cases hlen
  rw [toPrintBasename_of_ne_nil (hself.symm ▸ hne), hself]

/-- A name is settled when it has no marker left. -/
theorem again_iff (name : Bytes) : toPrintBasename (toPrintBasename name) = toPrintBasename name ↔
    findFirst (plate ++ [0x30]) (toPrintBasename name) = none := by
  rw [toPrintBasename_again]
  generalize hout : toPrintBasename name = out
  constructor
  · intro h
    cases hfind : findFirst (plate ++ [0x30]) out with
    | none => rfl
    | some r =>
      exfalso
      obtain ⟨before, behind⟩ := r
      obtain ⟨hname, hreplaced⟩ := replacePlate_some hfind
      have hlen : (ensureExtension (replacePlate out)).length = (replacePlate out).length := by
        rw [h, hreplaced, hname]
        simp
      rw [ensureExtension_of_length hlen, hreplaced, hname] at h
      have := List.append_cancel_left h
      cases this
  · intro h
    rw [replacePlate_none h, ensureExtension, if_pos (hout ▸ ends_toPrintBasename name)]

/-! ## What is changed -/

theorem ZeroTurned.refl (name : Bytes) : ZeroTurned name name :=
  ⟨rfl, fun _ h => absurd rfl h⟩

/-- A marker may be turned when it ends behind its 0. -/
theorem zeroTurned_iff {text rest : Bytes} (htext : plate <:+ text) :
    ZeroTurned (text ++ 0x30 :: rest) (text ++ 0x31 :: rest) ↔ startsDigit rest = false := by
  have hcut : (text ++ 0x30 :: rest).drop (text.length + 1) = rest := by
    rw [← List.drop_drop, List.drop_left]
    rfl
  have hat (d : UInt8) : (text ++ d :: rest)[text.length]? = some d := by
    rw [List.getElem?_append_right (le_refl _), Nat.sub_self]
    rfl
  constructor
  · intro h
    have hne : (text ++ 0x31 :: rest)[text.length]? ≠ (text ++ 0x30 :: rest)[text.length]? := by
      rw [hat, hat]
      decide
    exact hcut ▸ (h.turned text.length hne).2.2
  · intro h
    refine ⟨by simp, fun i hi => ?_⟩
    rcases lt_trichotomy i text.length with hlt | rfl | hgt
    · refine (hi ?_).elim
      rw [List.getElem?_append_left hlt, List.getElem?_append_left hlt]
    · refine ⟨hat _, ?_, hcut.symm ▸ h⟩
      rw [List.append_cons text 0x30 rest, List.take_left' (by simp)]
      obtain ⟨t, rfl⟩ := htext
      exact ⟨t, (List.append_assoc t plate _).symm⟩
    · refine (hi ?_).elim
      obtain ⟨k, rfl⟩ := Nat.exists_eq_add_of_lt hgt
      rw [List.append_cons, List.append_cons text 0x30]
      rw [List.getElem?_append_right (by simp), List.getElem?_append_right (by simp)]
      simp

theorem findFirst_toPrintBasename (h : basenameOf name ≠ []) :
    findFirst (plate ++ [0x30]) (toPrintBasename name) = none ↔
      findFirst (plate ++ [0x30]) (replacePlate (basenameOf name)) = none := by
  rw [toPrintBasename_of_ne_nil h, findFirst_ensureExtension]

theorem stem_toPrintBasename (h : basenameOf name ≠ []) :
    stem (toPrintBasename name) = stem (replacePlate (basenameOf name)) := by
  rw [toPrintBasename_of_ne_nil h, stem_ensureExtension]

/-- The stems of a name with a marker, before and after. -/
theorem stem_replacePlate (h : findFirst (plate ++ [0x30]) name = some (before, behind)) :
    stem name = before ++ plate ++ 0x30 :: stem behind ∧
      stem (replacePlate name) = before ++ plate ++ 0x31 :: stem behind := by
  obtain ⟨hname, hreplaced⟩ := replacePlate_some h
  constructor
  · conv_lhs => rw [hname]
    exact stem_append_cons (by decide)
  · rw [hreplaced]
    exact stem_append_cons (by decide)

/-- **A pass is harmless** exactly when there is one marker, and it ends behind its 0. -/
theorem settled_iff (fname : Bytes) : Settled fname ↔ OneMarker fname := by
  by_cases hnil : basenameOf fname = []
  · constructor
    · intro _ before behind hfind
      rw [hnil] at hfind
      cases hfind
    · intro _
      refine ⟨?_, fun h => absurd hnil h⟩
      rw [again_iff, toPrintBasename, if_pos hnil]
      decide
  · rw [OneMarker]
    cases hfind : findFirst (plate ++ [0x30]) (basenameOf fname) with
    | none =>
      have hsame := replacePlate_none hfind
      constructor
      · intro _ before behind hsome
        cases hsome
      · intro _
        constructor
        · rwa [again_iff, findFirst_toPrintBasename hnil, hsame]
        · intro _
          rw [stem_toPrintBasename hnil, hsame]
          exact .refl _
    | some r =>
      obtain ⟨before, behind⟩ := r
      obtain ⟨hstem, hstem'⟩ := stem_replacePlate hfind
      have hagain : toPrintBasename (toPrintBasename fname) = toPrintBasename fname ↔
          findFirst (plate ++ [0x30]) behind = none := by
        rw [again_iff, findFirst_toPrintBasename hnil, findFirst_replacePlate hfind]
      have hturned : ZeroTurned (stem (basenameOf fname)) (stem (toPrintBasename fname)) ↔
          startsDigit behind = false := by
        rw [stem_toPrintBasename hnil, hstem, hstem', zeroTurned_iff (List.suffix_append _ _),
          startsDigit_stem]
      constructor
      · rintro ⟨h, h'⟩ _ _ hsome
        cases hsome
        exact ⟨hagain.1 h, hturned.1 (h' hnil)⟩
      · intro h
        obtain ⟨h₁, h₂⟩ := h before behind rfl
        exact ⟨hagain.2 h₁, fun _ => hturned.2 h₂⟩

/-! ## Plates -/

theorem takeWhile_append_cons {p : UInt8 → Bool} (hc : p c = false) :
    (a ++ c :: b).takeWhile p = a.takeWhile p := by
  induction a with
  | nil => simp [hc]
  | cons d a ih => rw [List.cons_append, List.takeWhile_cons, List.takeWhile_cons, ih]

theorem startsDigit_append_cons (hc : isDigit c = false) :
    startsDigit (a ++ c :: b) = startsDigit a := by
  cases a with
  | nil => exact hc
  | cons d a => rfl

theorem takeWhile_of_startsDigit (h : startsDigit b = false) : b.takeWhile isDigit = [] := by
  cases b with
  | nil => rfl
  | cons c b =>
    have hc : isDigit c = false := h
    rw [List.takeWhile_cons, hc]
    rfl

theorem plateIndex_plate (h : startsDigit b = true) :
    plateIndex (plate ++ b) = some (natOf (b.takeWhile isDigit)) :=
  if_pos ⟨List.prefix_append plate b, h⟩

/-- The first index lies before another marker, or behind it. -/
theorem plateIndex_cons_append : plateIndex (c :: a ++ 0x70 :: b) =
    if plate <+: c :: a ∧ startsDigit ((c :: a).drop plate.length) then
      some (natOf (((c :: a).drop plate.length).takeWhile isDigit))
    else plateIndex (a ++ 0x70 :: b) := by
  have hpre : plate <+: c :: a ++ 0x70 :: b ↔ plate <+: c :: a :=
    prefix_append_iff (List.cons_ne_nil c a) (not_straddles_head (by decide))
  rw [List.cons_append, plateIndex, ← List.cons_append]
  by_cases h : plate <+: c :: a
  · rw [List.drop_append_of_le_length h.length_le, startsDigit_append_cons (by decide),
      takeWhile_append_cons (by decide)]
    exact if_congr (and_congr_left' hpre) rfl rfl
  · rw [if_neg fun hc => h (hpre.1 hc.1), if_neg fun hc => h hc.1]

/-- Where the index of 0 is not the index of the plate, that is kept. -/
theorem plateIndex_turned {n : ℕ} (hbehind : startsDigit behind = false) (hn : 1 ≤ n)
    (h : plateIndex (before ++ plate ++ 0x30 :: behind) = some n) :
    plateIndex (before ++ plate ++ 0x31 :: behind) = some n := by
  rw [List.append_assoc] at h ⊢
  induction before with
  | nil =>
    rw [List.nil_append, plateIndex_plate rfl, List.takeWhile_cons, if_pos (by decide),
      takeWhile_of_startsDigit hbehind] at h
    rw [← Option.some_inj.1 h] at hn
    exact absurd hn (by decide)
  | cons c before ih =>
    have hsplit (d : UInt8) : plateIndex (c :: before ++ (plate ++ d :: behind)) = _ :=
      plateIndex_cons_append
    rw [hsplit] at h ⊢
    split at h
    · next hc => rw [if_pos hc, h]
    · next hc =>
      rw [if_neg hc]
      exact ih h

/-- **A plate other than 0 is kept.** -/
theorem plateIndex_toPrintBasename {fname : Bytes} {n : ℕ} (hmarker : OneMarker fname)
    (hn : 1 ≤ n) (h : plateIndex (stem (basenameOf fname)) = some n) :
    plateIndex (stem (toPrintBasename fname)) = some n := by
  have hnil : basenameOf fname ≠ [] := by
    intro hnil
    rw [hnil] at h
    cases h
  rw [stem_toPrintBasename hnil]
  cases hfind : findFirst (plate ++ [0x30]) (basenameOf fname) with
  | none => rwa [replacePlate_none hfind]
  | some r =>
    obtain ⟨before, behind⟩ := r
    obtain ⟨hstem, hstem'⟩ := stem_replacePlate hfind
    have hdigit := (hmarker before behind hfind).2
    rw [hstem']
    rw [hstem] at h
    exact plateIndex_turned ((startsDigit_stem behind).trans hdigit) hn h

/-! ## The name that is stored -/

theorem safe_sanitizeRemoteName (h : c ∈ sanitizeRemoteName name) : Safe c := by
  obtain ⟨d, -, rfl⟩ := List.mem_map.1 h
  split
  · exact ⟨by decide, by decide⟩
  · next hd =>
    rw [Bool.or_eq_true, not_or] at hd
    exact ⟨Bool.eq_false_iff.2 hd.2, fun hlt => hd.1 (decide_eq_true hlt)⟩

theorem strip3mfExtension_subset : strip3mfExtension name ⊆ name := by
  rw [strip3mfExtension]
  split
  · exact List.take_subset _ _
  · split
    · exact List.take_subset _ _
    · exact List.Subset.refl _

theorem safe_defaultName : ∀ c ∈ defaultName ++ plate ++ [0x31], Safe c := by
  have h : (defaultName ++ plate ++ [0x31]).all
      (fun c => !isSeparator c && !decide (c < 0x20)) = true := by
    decide
  intro c hc
  have := List.all_eq_true.1 h c hc
  rw [Bool.and_eq_true, Bool.not_eq_true', Bool.not_eq_true'] at this
  exact ⟨this.1, of_decide_eq_false this.2⟩

theorem safe_pickRemoteName (p : PrintParams) : ∀ c ∈ pickRemoteName p, Safe c := by
  have hext : gcodeExtension ⊆ defaultName ++ plate ++ [0x31] :=
    List.all_iff_forall_prop.1 (by decide)
  intro c hc
  simp only [pickRemoteName] at hc
  generalize (if p.projectName = [] then p.taskName else p.projectName) = project at hc
  split at hc
  · rcases List.mem_append.1 hc with hc | hc
    · exact safe_sanitizeRemoteName (strip3mfExtension_subset hc)
    · exact safe_defaultName c (hext hc)
  · split at hc
    · exact safe_sanitizeRemoteName hc
    · exact safe_defaultName c (by simp [hc])

theorem basenameOf_subset : basenameOf name ⊆ name :=
  (List.rtakeWhile_suffix _ _).subset

theorem remoteName_toPrintBasename (p : PrintParams) :
    RemoteName (toPrintBasename (pickRemoteName p)) where
  safe c hc := (mem_toPrintBasename hc).elim
    (fun h => safe_pickRemoteName p c (basenameOf_subset h)) (safe_defaultName c)
  ends := ends_toPrintBasename _

/-- **The name on the printer.** -/
theorem toPrintBasename_iff (fname : Bytes) :
    (∀ p, RemoteName (toPrintBasename (pickRemoteName p))) ∧
      (Settled fname ↔ OneMarker fname) ∧
      ∀ fname' m n, OneMarker fname → OneMarker fname' →
        plateIndex (stem (basenameOf fname)) = some m →
        plateIndex (stem (basenameOf fname')) = some n → 1 ≤ m → 1 ≤ n → m ≠ n →
        toPrintBasename fname ≠ toPrintBasename fname' := by
  refine ⟨remoteName_toPrintBasename, settled_iff fname, ?_⟩
  intro fname' m n hf hf' hm hn hm1 hn1 hne heq
  have hkept := plateIndex_toPrintBasename hf hm1 hm
  rw [heq, plateIndex_toPrintBasename hf' hn1 hn] at hkept
  exact hne (Option.some_inj.1 hkept).symm

theorem toPrintBasename_iff_plates :
    Settled (ascii "a/b_plate_0.3mf") ∧
      toPrintBasename (ascii "d/plate_2.3mf") ≠ toPrintBasename (ascii "plate_10.gcode.3mf") := by
  have hzero : OneMarker (ascii "a/b_plate_0.3mf") := by
    intro before behind hsome
    have hfind : findFirst (plate ++ [0x30]) (basenameOf (ascii "a/b_plate_0.3mf")) =
        some (ascii "b_", extension) := by decide
    cases hfind.symm.trans hsome
    exact ⟨by decide, by decide⟩
  have hone {fname : Bytes} (h : findFirst (plate ++ [0x30]) (basenameOf fname) = none) :
      OneMarker fname := by
    intro before behind hsome
    rw [h] at hsome
    cases hsome
  refine ⟨(toPrintBasename_iff _).2.1.2 hzero, ?_⟩
  exact (toPrintBasename_iff _).2.2 _ 2 10 (hone (by decide)) (hone (by decide)) (by decide)
    (by decide) (by decide) (by decide) (by decide)

/-- A digit of another index is taken for the index, and one plate's name becomes another's. A
second marker is turned by a second pass. -/
theorem toPrintBasename_other_plate :
    toPrintBasename (pickRemoteName ⟨ascii "a_plate_05", [], []⟩) =
        toPrintBasename (pickRemoteName ⟨ascii "a_plate_15", [], []⟩) ∧
      plateIndex (stem (pickRemoteName ⟨ascii "a_plate_05", [], []⟩)) = some 5 ∧
      plateIndex (stem (pickRemoteName ⟨ascii "a_plate_15", [], []⟩)) = some 15 ∧
      toPrintBasename (toPrintBasename (ascii "plate_0 plate_0")) ≠
        toPrintBasename (ascii "plate_0 plate_0") ∧
      ¬ ∀ p, Settled (pickRemoteName p) := by
  refine ⟨by decide, by decide, by decide, by decide, fun h => ?_⟩
  have hturned := (h ⟨ascii "a_plate_05", [], []⟩).turned (by decide)
  exact absurd (hturned.turned 8 (by decide)).2.2 (by decide)

end BambooNet.Lan
