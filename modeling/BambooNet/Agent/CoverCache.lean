import BambooNet.Json.Dump
import BambooNet.Lib.Runs
import BambooNet.Lib.Search
import BambooNet.Lib.SortedMap
import Mathlib.Data.List.TakeWhile

/-!
# Covers of LAN prints

A print that was sent over the LAN reports its cloud ids as zeros. The agent writes a synthetic
subtask id in their place, the hash of the print's name and token, and remembers what it stands for,
so that a later request for the subtask finds the cover. It keeps 16 of them, and makes room by
dropping the smallest id.
-/

namespace BambooNet.Agent

open Json

/-! ## Fields of a report -/

/-- `"key":`. -/
def fieldNeedle (key : Bytes) : Bytes := quote :: (key ++ [quote, colon])

/-- A string as it is written, up to the quote that ends it. -/
def scanRaw : Bytes → Option Bytes
  | [] => none
  | [c] => if c = quote then some [] else none
  | c :: d :: p =>
    if c = quote then some []
    else if c = backslash then (scanRaw p).map fun s => c :: d :: s
    else (scanRaw (d :: p)).map fun s => c :: s

def dropSpaces (p : Bytes) : Bytes := p.dropWhile (· = 0x20)

/-- The string that a value begins with. -/
def peekString (p : Bytes) : Option Bytes :=
  match dropSpaces p with
  | [] => none
  | c :: p => if c = quote then scanRaw p else none

def jsonPeekStringField (payload key : Bytes) : Option Bytes :=
  (findFirst (fieldNeedle key) payload).bind fun r => peekString r.2

/-- `std::stoi`: white space, a sign, digits; `none` where it throws. -/
def stoi? (s : Bytes) : Option ℤ :=
  let s := s.dropWhile fun c => c == 0x20 || (0x09 ≤ c && c ≤ 0x0d)
  let (neg, s) := match s with
    | c :: s' => if c = minus then (true, s') else if c = plus then (false, s') else (false, s)
    | [] => (false, s)
  let digits := s.takeWhile isDigit
  let n : ℤ := if neg then -natOf digits else natOf digits
  if digits = [] ∨ n < -2 ^ 31 ∨ 2 ^ 31 ≤ n then none else some n

/-- A number, bare or in quotes. -/
def jsonPeekIntField (payload key : Bytes) : Option ℤ :=
  (findFirst (fieldNeedle key) payload).bind fun r =>
    match dropSpaces r.2 with
    | [] => none
    | c :: p =>
      if c = quote then
        match jsonPeekStringField payload key with
        | none => none
        | some s => if s = [] then none else stoi? s
      else
        let digits := if c = minus then p else c :: p
        match digits with
        | [] => none
        | d :: _ =>
          if isDigit d then
            stoi? ((if c = minus then [minus] else []) ++ digits.takeWhile isDigit)
          else none

/-! ## The plate -/

/-- The digits of a plate number; more than four are no plate. -/
def plateDigits (n : ℕ) : Bytes → ℕ
  | [] => n
  | c :: p =>
    if isDigit c then
      let n := n * 10 + (c.toNat - 0x30)
      if n > 9999 then 0 else plateDigits n p
    else n

/-- The number in a path such as `Metadata/plate_2.gcode`. -/
def plateIdxFromPath (path : Bytes) : ℕ :=
  match afterLast (ascii "plate_") path with
  | none => 0
  | some p => plateDigits 0 p

/-- The plate by its field, else by a path, else the first. -/
def resolveCoverPlateIdx (payload : Bytes) : ℤ :=
  let fromPath (key : Bytes) : ℕ :=
    match jsonPeekStringField payload key with
    | none => 0
    | some path => plateIdxFromPath path
  let plate := (jsonPeekIntField payload (ascii "plate_idx")).getD 0
  if plate > 0 then plate
  else if fromPath (ascii "gcode_file") > 0 then fromPath (ascii "gcode_file")
  else if fromPath (ascii "param") > 0 then fromPath (ascii "param")
  else 1

/-! ## Synthetic ids -/

/-- FNV-1a with 32 bits. -/
def fnv1a32 (s : Bytes) : UInt32 :=
  s.foldl (fun h c => (h ^^^ c.toUInt32) * 16777619) 2166136261

/-- `%08x`. -/
def hex8 (h : UInt32) : Bytes :=
  (List.range 8).map fun i => hexLower (h.toNat / 16 ^ (7 - i) % 16)

def syntheticSubtaskId (subtaskName version : Bytes) : Bytes :=
  let keyed := if version = [] then subtaskName else subtaskName ++ 0x01 :: version
  ascii "lan-" ++ hex8 (fnv1a32 keyed)

/-- Write `value` where the field is `"0"` or empty; `none` when it is neither. -/
def patchStringZeroTo (payload key value : Bytes) : Option Bytes :=
  (findFirst (fieldNeedle key) payload).bind fun r =>
    let front := r.1 ++ fieldNeedle key ++ r.2.takeWhile (· = 0x20)
    match dropSpaces r.2 with
    | 0x22 :: 0x22 :: rest => some (front ++ quote :: (value ++ quote :: rest))
    | 0x22 :: 0x30 :: 0x22 :: rest => some (front ++ quote :: (value ++ quote :: rest))
    | _ => none

/-- The cloud ids of a print and what is written for them. -/
def cloudIds (id : Bytes) : List (Bytes × Bytes) :=
  [(ascii "project_id", ascii "lan"), (ascii "profile_id", ascii "lan"),
    (ascii "task_id", id), (ascii "subtask_id", id)]

/-- The payload after the patches, and whether any of them did something. -/
def patchAll (payload : Bytes) (ids : List (Bytes × Bytes)) : Bytes × Bool :=
  ids.foldl (fun r e => match patchStringZeroTo r.1 e.1 e.2 with
    | some payload => (payload, true)
    | none => r) (payload, false)

/-- The patched payload and the synthetic id that is in it; `none` when nothing is patched. -/
def tryRewritePrintIds (payload version : Bytes) : Option (Bytes × Bytes) :=
  match jsonPeekStringField payload (ascii "subtask_name") with
  | none => none
  | some name =>
    if name = [] ∨ name = ascii "-1" then none
    else
      let id := syntheticSubtaskId name version
      let r := patchAll payload (cloudIds id)
      if r.2 then some (r.1, id) else none

/-! ## The patches leave the name -/

theorem scanRaw_quote (w : Bytes) : scanRaw (quote :: w) = some [] := by
  cases w <;> rfl

/-- A quote after a plain character ends the string, whatever comes behind it. -/
theorem scanRaw_stops {x : UInt8} (hquote : x ≠ quote) (hback : x ≠ backslash) (w w' : Bytes) :
    ∀ b : Bytes, scanRaw (b ++ x :: quote :: w) = scanRaw (b ++ x :: quote :: w')
  | [] => by
    simp only [List.nil_append, scanRaw, if_neg hquote, if_neg hback, scanRaw_quote]
  | [c] => by
    simp only [List.singleton_append, scanRaw, if_neg hquote, if_neg hback, scanRaw_quote]
  | c :: d :: b => by
    have h₁ := scanRaw_stops hquote hback w w' b
    have h₂ := scanRaw_stops hquote hback w w' (d :: b)
    simp only [List.cons_append, scanRaw] at h₂ ⊢
    rw [h₁, h₂]

theorem dropSpaces_append (b : Bytes) {x : UInt8} (hx : x ≠ 0x20) :
    ∃ b', ∀ q, dropSpaces (b ++ x :: q) = b' ++ x :: q := by
  induction b with
  | nil => exact ⟨[], fun q => by simp [dropSpaces, hx]⟩
  | cons c b ih =>
    obtain ⟨b', hdrop⟩ := ih
    by_cases hc : c = 0x20
    · exact ⟨b', fun q => by
        rw [← hdrop q, dropSpaces, List.cons_append, List.dropWhile_cons_of_pos (by simpa using hc),
          dropSpaces]⟩
    · exact ⟨c :: b, fun q => by
        rw [dropSpaces, List.cons_append, List.dropWhile_cons_of_neg (by simpa using hc)]⟩

/-- A value is read the same with anything behind a quote that follows a plain character. -/
theorem peekString_stops {x : UInt8} (hquote : x ≠ quote) (hback : x ≠ backslash) (hx : x ≠ 0x20)
    (b w w' : Bytes) : peekString (b ++ x :: quote :: w) = peekString (b ++ x :: quote :: w') := by
  obtain ⟨b', hdrop⟩ := dropSpaces_append b hx
  rw [peekString, peekString, hdrop, hdrop]
  cases b' with
  | nil => simp only [List.nil_append, if_neg hquote]
  | cons c b' => simp only [List.cons_append, scanRaw_stops hquote hback w w' b']

section Patches

variable {name : Bytes} (hname : quote ∉ name)

include hname

/-- The only quotes of a field are those around its name. -/
theorem split_at_quote {u v : Bytes} (h : name ++ [quote, colon] = u ++ quote :: v) :
    u = name ∧ v = [colon] := by
  induction name generalizing u with
  | nil =>
    match u with
    | [] => exact ⟨rfl, (List.cons.inj h).2.symm⟩
    | [c] => exact absurd (List.cons.inj (List.cons.inj h).2).1 (by decide)
    | c :: d :: u =>
      have hnil := (List.cons.inj (List.cons.inj h).2).2
      exact absurd hnil.symm (by simp)
  | cons c name ih =>
    rw [List.mem_cons, not_or] at hname
    cases u with
    | nil => exact absurd (List.cons.inj h).1.symm hname.1
    | cons d u =>
      obtain ⟨rfl, htail⟩ := List.cons.inj h
      obtain ⟨hu, hv⟩ := ih hname.2 htail
      exact ⟨congrArg _ hu, hv⟩

/-- A quoted text other than the name is no part of an occurrence of the field. -/
theorem findFirst_behind {m : Bytes} (hm : quote ∉ m) (hne : m ≠ name)
    (hcolon : m.head? ≠ some colon) (p rest : Bytes) :
    (findFirst (fieldNeedle name) (p ++ quote :: (m ++ quote :: rest))).map (·.2) =
      ((findFirst (fieldNeedle name) p).map fun r => r.2 ++ quote :: (m ++ quote :: rest)).or
        ((findFirst (fieldNeedle name) (quote :: rest)).map (·.2)) := by
  have hneedle : fieldNeedle name ≠ [] := List.cons_ne_nil _ _
  -- the two parts of an occurrence, the second of which begins with a quote
  have parts {n₁ n₂ q : Bytes} (hn₁ : n₁ ≠ []) (hn₂ : n₂ ≠ [])
      (heq : fieldNeedle name = n₁ ++ n₂) (hpre : n₂ <+: quote :: q) :
      n₁ = quote :: name ∧ n₂ = [quote, colon] := by
    obtain ⟨c, n₁, rfl⟩ := List.exists_cons_of_ne_nil hn₁
    obtain ⟨d, n₂, rfl⟩ := List.exists_cons_of_ne_nil hn₂
    obtain ⟨rfl, -⟩ := List.cons_prefix_cons.1 hpre
    obtain ⟨rfl, htail⟩ := List.cons.inj heq
    obtain ⟨hu, hv⟩ := split_at_quote hname htail
    rw [hu, hv]
    exact ⟨rfl, rfl⟩
  have hcut₁ : ¬ Straddles (fieldNeedle name) p (quote :: (m ++ quote :: rest)) := by
    rintro ⟨n₁, n₂, hn₁, hn₂, heq, -, hpre⟩
    obtain ⟨-, rfl⟩ := parts hn₁ hn₂ heq hpre
    have hfirst := (List.cons_prefix_cons.1 hpre).2
    cases m with
    | nil => exact absurd (List.cons_prefix_cons.1 hfirst).1 (by decide)
    | cons c m => exact hcolon (congrArg some (List.cons_prefix_cons.1 hfirst).1.symm)
  have hcut₂ : ¬ Straddles (fieldNeedle name) (quote :: m) (quote :: rest) := by
    rintro ⟨n₁, n₂, hn₁, hn₂, heq, hsuf, hpre⟩
    obtain ⟨rfl, -⟩ := parts hn₁ hn₂ heq hpre
    rcases List.suffix_cons_iff.1 hsuf with h | h
    · exact hne (List.cons.inj h).2.symm
    · exact hm (h.subset List.mem_cons_self)
  have hinside : findFirst (fieldNeedle name) (quote :: m) = none := by
    by_contra hsome
    obtain ⟨⟨a, b⟩, h⟩ := Option.ne_none_iff_exists'.1 hsome
    have heq := eq_of_findFirst h
    have hmem : quote ∈ m := by
      cases a with
      | nil =>
        rw [(List.cons.inj heq).2]
        simp
      | cons c a =>
        rw [(List.cons.inj heq).2]
        simp [fieldNeedle]
    exact hm hmem
  rw [findFirst_append hneedle hcut₁, ← List.cons_append, findFirst_append hneedle hcut₂, hinside]
  cases findFirst (fieldNeedle name) p with
  | some r => rfl
  | none =>
    cases findFirst (fieldNeedle name) (quote :: rest) with
    | none => rfl
    | some r => rfl

omit hname

/-- What follows the last occurrence of a field before the patch ends with the patched key. -/
theorem exists_key_tail {n k sp pre a b : Bytes} {x y : UInt8} (hxy : x ≠ y) (hx : x ≠ colon)
    (hsp : ∀ c ∈ sp, c = 0x20)
    (h : pre ++ fieldNeedle (k ++ [x]) ++ sp = a ++ fieldNeedle (n ++ [y]) ++ b) :
    ∃ b', b = b' ++ x :: quote :: colon :: sp := by
  have hkey : pre ++ fieldNeedle (k ++ [x]) ++ sp =
      (pre ++ quote :: k) ++ (x :: quote :: colon :: sp) := by
    simp [fieldNeedle]
  have hn : a ++ fieldNeedle (n ++ [y]) = (a ++ quote :: n) ++ [y, quote, colon] := by
    simp [fieldNeedle]
  rw [hkey, hn] at h
  have hb : b <:+ (pre ++ quote :: k) ++ (x :: quote :: colon :: sp) := ⟨_, h.symm⟩
  rcases List.suffix_or_suffix_of_suffix hb (List.suffix_append _ _) with hsuf | ⟨b', hb'⟩
  · obtain ⟨t, ht⟩ := hsuf
    -- otherwise the name ends inside of the key's end or of the spaces
    rw [← ht, ← List.append_assoc, List.append_left_inj] at h
    have hlast (c : UInt8) (t' : Bytes) (ht' : t = t' ++ [c]) : c = colon := by
      rw [ht', ← List.append_assoc] at h
      exact List.singleton_inj.1 (List.append_inj_right' (h.trans (by simp :
        _ = (a ++ quote :: n ++ [y, quote]) ++ [colon])) rfl)
    match t, ht with
    | [], ht => exact ⟨[], ht⟩
    | [c], ht =>
      obtain ⟨rfl, -⟩ := List.cons.inj ht
      exact absurd (hlast c [] rfl) hx
    | [c, d], ht =>
      obtain ⟨rfl, -⟩ := List.cons.inj (List.cons.inj ht).2
      exact absurd (hlast quote [c] rfl) (by decide)
    | [c, d, e], ht =>
      obtain ⟨rfl, -⟩ := List.cons.inj ht
      have heq := (List.append_inj' h rfl).2
      exact absurd (List.cons.inj heq).1 hxy
    | c :: d :: e :: f :: t, ht =>
      have hspaces : f :: t ++ b = sp := (List.cons.inj (List.cons.inj (List.cons.inj ht).2).2).2
      obtain ⟨t', g, hg⟩ := List.eq_nil_or_concat' (f :: t) |>.resolve_left (by simp)
      have hspace : g = 0x20 := hsp g (by rw [← hspaces, hg]; simp)
      have hcolon := hlast g (c :: d :: e :: t') (by rw [hg]; rfl)
      exact absurd (hspace.symm.trans hcolon) (by decide)
  · exact ⟨b', hb'.symm⟩

/-- **A quoted text behind another field can be replaced**: the name is read the same. -/
theorem peek_replace {n k : Bytes} {x y : UInt8} (hname : quote ∉ n ++ [y]) (hxy : x ≠ y)
    (hx : x ≠ colon ∧ x ≠ quote ∧ x ≠ backslash ∧ x ≠ 0x20) {sp : Bytes} (hsp : ∀ c ∈ sp, c = 0x20)
    {m m' : Bytes} (hm : quote ∉ m ∧ m ≠ n ++ [y] ∧ m.head? ≠ some colon)
    (hm' : quote ∉ m' ∧ m' ≠ n ++ [y] ∧ m'.head? ≠ some colon) (pre rest : Bytes) :
    jsonPeekStringField
        (pre ++ fieldNeedle (k ++ [x]) ++ sp ++ quote :: (m ++ quote :: rest)) (n ++ [y]) =
      jsonPeekStringField
        (pre ++ fieldNeedle (k ++ [x]) ++ sp ++ quote :: (m' ++ quote :: rest)) (n ++ [y]) := by
  have hpeek (t : Bytes) : jsonPeekStringField t (n ++ [y]) =
      ((findFirst (fieldNeedle (n ++ [y])) t).map (·.2)).bind peekString := by
    rw [jsonPeekStringField, Option.bind_map]
    rfl
  rw [hpeek, hpeek, findFirst_behind hname hm.1 hm.2.1 hm.2.2,
    findFirst_behind hname hm'.1 hm'.2.1 hm'.2.2]
  cases hfind : findFirst (fieldNeedle (n ++ [y])) (pre ++ fieldNeedle (k ++ [x]) ++ sp) with
  | none => rfl
  | some r =>
    obtain ⟨b', hb'⟩ := exists_key_tail hxy hx.1 hsp (eq_of_findFirst hfind)
    show peekString (r.2 ++ _) = peekString (r.2 ++ _)
    rw [hb', List.append_assoc, List.append_assoc]
    exact peekString_stops hx.2.1 hx.2.2.1 hx.2.2.2 b' _ _

end Patches

theorem dropSpaces_eq (p : Bytes) : p = p.takeWhile (· = 0x20) ++ dropSpaces p :=
  List.takeWhile_append_dropWhile.symm

/-- A patch replaces a quoted text behind its field. -/
theorem patchStringZeroTo_cases {payload key value payload' : Bytes}
    (h : patchStringZeroTo payload key value = some payload') :
    ∃ pre sp m rest, (∀ c ∈ sp, c = 0x20) ∧ (m = [] ∨ m = [0x30]) ∧
      payload = pre ++ fieldNeedle key ++ sp ++ quote :: (m ++ quote :: rest) ∧
      payload' = pre ++ fieldNeedle key ++ sp ++ quote :: (value ++ quote :: rest) := by
  obtain ⟨r, hr, h⟩ := Option.bind_eq_some_iff.1 h
  have hpay := eq_of_findFirst hr
  have hsp : ∀ c ∈ r.2.takeWhile (· = 0x20), c = 0x20 := fun c hc => by
    simpa using List.mem_takeWhile_imp hc
  have hsplit := dropSpaces_eq r.2
  split at h
  · next rest heq =>
    rw [heq] at hsplit
    refine ⟨r.1, _, [], rest, hsp, .inl rfl, ?_, (Option.some.inj h).symm⟩
    rw [hpay, List.append_assoc _ _ (quote :: _)]
    exact congrArg _ hsplit
  · next rest heq =>
    rw [heq] at hsplit
    refine ⟨r.1, _, [0x30], rest, hsp, .inr rfl, ?_, (Option.some.inj h).symm⟩
    rw [hpay, List.append_assoc _ _ (quote :: _)]
    exact congrArg _ hsplit
  · cases h

/-- The field that names the print. -/
def subtaskNameKey : Bytes := ascii "subtask_name"

/-- A patch that may be made: the key ends with another letter than the name's does. -/
structure Harmless (e : Bytes × Bytes) : Prop where
  key : ∃ k, e.1 = k ++ [0x64]
  value : quote ∉ e.2 ∧ e.2 ≠ subtaskNameKey ∧ e.2.head? ≠ some colon

theorem peek_patch {payload payload' : Bytes} {e : Bytes × Bytes} (he : Harmless e)
    (h : patchStringZeroTo payload e.1 e.2 = some payload') :
    jsonPeekStringField payload' subtaskNameKey = jsonPeekStringField payload subtaskNameKey := by
  obtain ⟨k, hk⟩ := he.key
  obtain ⟨pre, sp, m, rest, hsp, hm, rfl, rfl⟩ := patchStringZeroTo_cases h
  have hm' : quote ∉ m ∧ m ≠ subtaskNameKey ∧ m.head? ≠ some colon := by
    rcases hm with rfl | rfl
    · decide
    · decide
  rw [hk]
  exact @peek_replace (ascii "subtask_nam") k 0x64 0x65 (by decide) (by decide) (by decide) sp hsp
    e.2 m he.value hm' pre rest

theorem peek_patchAll {ids : List (Bytes × Bytes)} (h : ∀ e ∈ ids, Harmless e) (payload : Bytes) :
    jsonPeekStringField (patchAll payload ids).1 subtaskNameKey =
      jsonPeekStringField payload subtaskNameKey := by
  suffices hfold : ∀ r : Bytes × Bool, jsonPeekStringField
      (ids.foldl (fun r e => match patchStringZeroTo r.1 e.1 e.2 with
        | some payload => (payload, true)
        | none => r) r).1 subtaskNameKey = jsonPeekStringField r.1 subtaskNameKey from
    hfold (payload, false)
  induction ids with
  | nil => exact fun r => rfl
  | cons e ids ih =>
    intro r
    rw [List.foldl_cons, ih fun e he => h e (List.mem_cons_of_mem _ he)]
    split
    · next payload' hpatch => exact peek_patch (h e List.mem_cons_self) hpatch
    · rfl

theorem quote_not_mem_syntheticSubtaskId (name version : Bytes) :
    quote ∉ syntheticSubtaskId name version := by
  have hhex (d : Fin 16) : hexLower d ≠ quote := by
    revert d
    decide
  intro hmem
  rcases List.mem_append.1 hmem with hmem | hmem
  · revert hmem
    decide
  · obtain ⟨i, -, hi⟩ := List.mem_map.1 hmem
    exact hhex ⟨_, Nat.mod_lt _ (by decide)⟩ hi

theorem harmless_cloudIds (name version : Bytes) :
    ∀ e ∈ cloudIds (syntheticSubtaskId name version), Harmless e := by
  have hid : ∃ t, syntheticSubtaskId name version = 0x6c :: t := ⟨_, rfl⟩
  obtain ⟨t, ht⟩ := hid
  have hval : quote ∉ syntheticSubtaskId name version ∧
      syntheticSubtaskId name version ≠ subtaskNameKey ∧
      (syntheticSubtaskId name version).head? ≠ some colon := by
    refine ⟨quote_not_mem_syntheticSubtaskId name version, ?_, ?_⟩
    · rw [ht]
      exact fun h => absurd (List.cons.inj h).1 (by decide)
    · rw [ht]
      exact fun h => absurd (Option.some.inj h) (by decide)
  simp only [cloudIds, List.forall_mem_cons]
  refine ⟨⟨⟨ascii "project_i", by decide⟩, by decide⟩, ⟨⟨ascii "profile_i", by decide⟩, by decide⟩,
    ⟨⟨ascii "task_i", rfl⟩, hval⟩, ⟨⟨ascii "subtask_i", rfl⟩, hval⟩, ?_⟩
  exact fun e he => absurd he List.not_mem_nil

/-- **A payload that is given an id still names its print.** -/
theorem peek_of_rewrite {payload version payload' id : Bytes}
    (h : tryRewritePrintIds payload version = some (payload', id)) :
    ∃ name, jsonPeekStringField payload' subtaskNameKey = some name ∧ name ≠ [] ∧
      name ≠ ascii "-1" := by
  unfold tryRewritePrintIds at h
  split at h
  · cases h
  · next name hname =>
    split at h
    · cases h
    · next hproper =>
      dsimp only at h
      split at h
      · obtain ⟨rfl, -⟩ := Prod.mk.inj (Option.some.inj h)
        rw [peek_patchAll (harmless_cloudIds name version)]
        exact ⟨name, hname, not_or.1 hproper⟩
      · cases h

/-! ## The cache -/

structure SyntheticSubtask where
  subtaskName : Bytes
  plateIdx : ℤ := 1
  version : Bytes
  deriving DecidableEq

/-- A report as it comes to the cover cache; `started` is how a start of the cover server would
end. -/
structure Report where
  payload : Bytes
  started : Bool

namespace Report

/-- The token of the print: its job number, else the time it was started. -/
def version (r : Report) : Bytes :=
  let task := (jsonPeekStringField r.payload (ascii "task_id")).getD []
  if task = [] ∨ task = ascii "0" then
    (jsonPeekStringField r.payload (ascii "gcode_start_time")).getD []
  else task

/-- The report that is handed on. -/
def patched (r : Report) : Bytes :=
  match tryRewritePrintIds r.payload r.version with
  | some (payload, _) => payload
  | none => r.payload

/-- The synthetic id the report was given. -/
def givenId (r : Report) : Option Bytes := (tryRewritePrintIds r.payload r.version).map (·.2)

/-- What the report says of its print. -/
def subtask (r : Report) : SyntheticSubtask where
  subtaskName := (jsonPeekStringField r.patched (ascii "subtask_name")).getD []
  plateIdx := resolveCoverPlateIdx r.patched
  version := r.version

/-- The id that the report's print is remembered under. -/
def coverId (r : Report) : Option Bytes :=
  match r.givenId with
  | none => none
  | some id =>
    if r.subtask.subtaskName = [] ∨ r.subtask.subtaskName = ascii "-1" then none else some id

end Report

/-- The part of the agent that remembers prints. `coverServer` says that the server runs. -/
structure CoverCache where
  syntheticSubtasks : SortedMap Bytes SyntheticSubtask := ∅
  coverServer : Bool := false

namespace CoverCache

def capacity : ℕ := 16

/-- Drop first entries while there are more than `capacity`. -/
def evict : List (Bytes × SyntheticSubtask) → List (Bytes × SyntheticSubtask)
  | [] => []
  | e :: l => if (e :: l).length > capacity then evict l else e :: l

theorem evict_suffix (l : List (Bytes × SyntheticSubtask)) : evict l <:+ l := by
  induction l with
  | nil => exact List.suffix_refl _
  | cons e l ih =>
    rw [evict]
    split
    · exact ih.trans (List.suffix_cons e l)
    · exact List.suffix_refl _

/-- A report is processed. -/
def step (c : CoverCache) (r : Report) : CoverCache :=
  match r.coverId with
  | none => c
  | some id =>
    let m := c.syntheticSubtasks.insert id r.subtask
    { syntheticSubtasks := ⟨evict m.entries, m.sorted.sublist (evict_suffix _).sublist⟩
      coverServer := c.coverServer || r.started }

structure SubtaskCoverInfo where
  subtaskName : Bytes
  plateIdx : ℤ
  url : Bytes
  deriving DecidableEq

/-- The cover of a subtask, `urlFor` giving the URL that a running cover server has for it. -/
def lookupSyntheticSubtask (urlFor : Bytes → ℤ → Bytes → Bytes) (c : CoverCache)
    (subtaskId : Bytes) : Option SubtaskCoverInfo :=
  (c.syntheticSubtasks.get? subtaskId).map fun t =>
    { subtaskName := t.subtaskName
      plateIdx := t.plateIdx
      url := if c.coverServer then urlFor t.subtaskName t.plateIdx t.version else [] }

/-! ## Making room -/

theorem length_evict_le (l : List (Bytes × SyntheticSubtask)) : (evict l).length ≤ capacity := by
  induction l with
  | nil => exact Nat.zero_le _
  | cons e l ih =>
    rw [evict]
    split
    · exact ih
    · next hle => exact not_lt.1 hle

theorem evict_of_le {l : List (Bytes × SyntheticSubtask)} (h : l.length ≤ capacity) :
    evict l = l := by
  cases l with
  | nil => rfl
  | cons e l => exact if_neg (not_lt.2 h)

/-- One entry too many costs the first one. -/
theorem evict_of_full {e : Bytes × SyntheticSubtask} {l : List (Bytes × SyntheticSubtask)}
    (h : l.length = capacity) : evict (e :: l) = l := by
  rw [evict, if_pos (by rw [List.length_cons, h]; exact Nat.lt_succ_self _), evict_of_le h.le]

/-- There is room for an id: it is in the cache, the cache is not full, or a smaller id is there to
be dropped. -/
def HasRoom (l : List (Bytes × SyntheticSubtask)) (id : Bytes) : Prop :=
  (Entries.get? id l).isSome ∨ l.length < capacity ∨ ∃ e ∈ l, e.1 < id

/-- **An entry is there after it was stored exactly when there was room.** -/
theorem get?_evict_insert {l : List (Bytes × SyntheticSubtask)} (hsorted : Entries.Sorted l)
    (hlen : l.length ≤ capacity) (id : Bytes) (t : SyntheticSubtask) :
    Entries.get? id (evict (Entries.insert id t l)) = some t ↔ HasRoom l id := by
  have hget : Entries.get? id (Entries.insert id t l) = some t := by
    rw [Entries.get?_insert, if_pos rfl]
  have hlength := Entries.length_insert id t hsorted
  by_cases hroom : (Entries.get? id l).isSome ∨ l.length < capacity
  · have hfits : (Entries.insert id t l).length ≤ capacity := by
      rw [hlength]
      rcases hroom with hsome | hlt
      · rwa [if_pos hsome]
      · split <;> omega
    rw [evict_of_le hfits]
    exact iff_of_true hget (or_assoc.1 (.inl hroom))
  · rw [not_or, not_lt] at hroom
    rw [if_neg hroom.1, le_antisymm hlen hroom.2] at hlength
    obtain ⟨e, l', hl'⟩ := List.exists_cons_of_length_eq_add_one hlength
    have hsorted' := hsorted.insert id t
    rw [hl'] at hget hlength hsorted' ⊢
    obtain ⟨hfirst, hrest⟩ := List.pairwise_cons.1 hsorted'
    rw [evict_of_full (Nat.succ.inj hlength)]
    by_cases hid : id = e.1
    · -- the new id is the smallest, and goes at once
      refine iff_of_false (fun h => ?_) ?_
      · exact absurd (hid ▸ hfirst _ (Entries.mem_of_get?_eq_some h)) (lt_irrefl _)
      · rintro (hsome | hlt | ⟨e', he', hlt⟩)
        · exact hroom.1 hsome
        · exact absurd hlt (not_lt.2 hroom.2)
        · have hold : Entries.get? e'.1 (e :: l') = some e'.2 := by
            rw [← hl', Entries.get?_insert, if_neg hlt.ne, Entries.get?_eq_some_iff hsorted]
            exact he'
          rcases List.mem_cons.1 (Entries.mem_of_get?_eq_some hold) with heq | hmem
          · exact hlt.ne ((congrArg Prod.fst heq).trans hid.symm)
          · exact lt_asymm hlt (hid ▸ hfirst _ hmem)
    · rw [Entries.get?, if_neg hid] at hget
      refine iff_of_true hget (.inr (.inr ⟨e, ?_, hfirst _ (Entries.mem_of_get?_eq_some hget)⟩))
      have hmem : e ∈ Entries.insert id t l := hl' ▸ List.mem_cons_self
      exact (Entries.mem_insert hmem).resolve_left fun heq => hid (congrArg Prod.fst heq).symm

/-! ## One report -/

/-- A report that is given an id is remembered under it. -/
theorem coverId_eq_givenId (r : Report) : r.coverId = r.givenId := by
  unfold Report.coverId
  cases hgiven : r.givenId with
  | none => rfl
  | some id =>
    obtain ⟨⟨payload', id'⟩, hrewrite, -⟩ := Option.map_eq_some_iff.1 hgiven
    obtain ⟨name, hname, hne, hproper⟩ := peek_of_rewrite hrewrite
    have hpatched : r.patched = payload' := by rw [Report.patched, hrewrite]
    have hsubtask : r.subtask.subtaskName = name := by
      show (jsonPeekStringField r.patched (ascii "subtask_name")).getD [] = name
      rw [hpatched]
      exact congrArg (Option.getD · []) hname
    simp only [hsubtask, hne, hproper, or_self, if_false]

/-- A report that is given an id is found under it afterwards. -/
def Kept (urlFor : Bytes → ℤ → Bytes → Bytes) (c : CoverCache) (r : Report) : Prop :=
  ∀ id ∈ r.givenId, (c.step r).lookupSyntheticSubtask urlFor id = some
    { subtaskName := r.subtask.subtaskName
      plateIdx := r.subtask.plateIdx
      url := if (c.step r).coverServer then
        urlFor r.subtask.subtaskName r.subtask.plateIdx r.subtask.version else [] }

/-- There is room for the id of a report. -/
def Room (c : CoverCache) (r : Report) : Prop :=
  ∀ id ∈ r.givenId, HasRoom c.syntheticSubtasks.entries id

theorem size_step_le {c : CoverCache} (h : c.syntheticSubtasks.size ≤ capacity) (r : Report) :
    (c.step r).syntheticSubtasks.size ≤ capacity := by
  unfold step
  split
  · exact h
  · exact length_evict_le _

theorem step_of_given {c : CoverCache} {r : Report} {id : Bytes} (h : r.givenId = some id) :
    (c.step r).syntheticSubtasks.entries =
      evict (Entries.insert id r.subtask c.syntheticSubtasks.entries) := by
  rw [← coverId_eq_givenId] at h
  rw [step, h]
  rfl

/-- What an eviction leaves under a key was there. -/
theorem get?_evict {l : List (Bytes × SyntheticSubtask)} (hsorted : Entries.Sorted l) {id : Bytes}
    {t : SyntheticSubtask} (h : Entries.get? id (evict l) = some t) :
    Entries.get? id l = some t :=
  (Entries.get?_eq_some_iff hsorted).2
    ((evict_suffix l).subset (Entries.mem_of_get?_eq_some h))

/-- **A report is found exactly when there was room for it.** -/
theorem kept_iff_room (urlFor : Bytes → ℤ → Bytes → Bytes) {c : CoverCache}
    (hsize : c.syntheticSubtasks.size ≤ capacity) (r : Report) :
    c.Kept urlFor r ↔ c.Room r := by
  refine forall₂_congr fun id hid => ?_
  have hsorted := c.syntheticSubtasks.sorted
  rw [← get?_evict_insert hsorted hsize id r.subtask, lookupSyntheticSubtask, SortedMap.get?,
    step_of_given hid]
  constructor
  · intro h
    obtain ⟨t, ht, -⟩ := Option.map_eq_some_iff.1 h
    have hget := get?_evict (hsorted.insert id r.subtask) ht
    rw [Entries.get?_insert, if_pos rfl] at hget
    rw [ht, hget]
  · intro h
    rw [h]
    rfl

/-! ## Runs of reports -/

theorem size_run_le (rs : List Report) :
    (run step ({} : CoverCache) rs).syntheticSubtasks.size ≤ capacity := by
  have halong : Along step (fun _ _ => True) {} rs := Along.of_forall (fun _ _ => trivial) _
  exact @run_invariant _ _ step (fun c => c.syntheticSubtasks.size ≤ capacity) _
    (fun _ r h _ => size_step_le h r) _ _ (Nat.zero_le _) halong

/-- **The cache stays small, and finds every report right after it exactly when there is room for
each of them.** -/
theorem found_along_iff (urlFor : Bytes → ℤ → Bytes → Bytes) (rs : List Report) :
    ((∀ done r rest, rs = done ++ r :: rest → (run step ({} : CoverCache) done).Kept urlFor r) ↔
      Along step Room {} rs) ∧
    ∀ done, done <+: rs → (run step ({} : CoverCache) done).syntheticSubtasks.size ≤ capacity := by
  refine ⟨?_, fun done _ => size_run_le done⟩
  rw [along_iff]
  exact forall₄_congr fun done r rest _ => kept_iff_room urlFor (size_run_le done) r

/-- A report of a print with a name of one character. -/
def namedReport (c : Char) : Report where
  payload := ascii ("\x7b\"print\":\x7b\"subtask_name\":\"" ++ c.toString ++
    "\",\"task_id\":\"0\"\x7d\x7d")
  started := true

/-- The id of the seventeenth print is smaller than those of the sixteen before it: its entry is
dropped as it is stored, and the lookup that follows the report fails. -/
theorem smallest_id_not_found : ∃ rs r id, rs.length = 16 ∧ r.givenId = some id ∧
    ∀ urlFor, ((run step ({} : CoverCache) rs).step r).lookupSyntheticSubtask urlFor id = none := by
  let rs := "abcdfghijklmnopq".toList.map namedReport
  refine ⟨rs, namedReport 'e', ascii "lan-e00c22e0", rfl, by decide +kernel, fun urlFor => ?_⟩
  have hnone : ((run step ({} : CoverCache) rs).step (namedReport 'e')).syntheticSubtasks.get?
      (ascii "lan-e00c22e0") = none := by
    decide +kernel
  rw [lookupSyntheticSubtask, hnone]
  rfl

end CoverCache

end BambooNet.Agent
