import BambooNet.Ftps.Client
import BambooNet.Lib.Calendar
import BambooNet.Lib.Search
import Mathlib.Data.List.GetD
import Mathlib.Data.List.TakeWhile

/-!
# Lines of a directory listing

`parseLsLine` reads an entry off a line as `ls -l` prints it. The line is split into tokens that
remember where they start, and the name is what stands from the ninth token on.

**Lines as printed** (`LsLine`). Eight columns, each with the spaces after it, and a name. The
tokens of the columns are the columns (`tokens_cols`), so that the name is read as it stands in
the line (`name_parseLsLine`), up to the first `" -> "`.

Main result: `verbatim_iff`, which also says what becomes of the line of a link.
-/

namespace BambooNet.Ftps

open CString (atoi digit_ne isSpace)
open Calendar

/-! ## The parser -/

structure Entry where
  name : Bytes := []
  size : ℕ := 0
  /-- Seconds since 1970, if known. -/
  mtime : ℕ := 0
  isDir : Bool := false
  deriving DecidableEq, Repr

/-- A token starts at an offset of the line. -/
structure Tok where
  start : ℕ
  len : ℕ
  deriving DecidableEq, Repr

/-- The tokens from offset `i` on, between runs of spaces. `start` is that of the token which is
being read. -/
@[grind =] def tokens : ℕ → Option ℕ → Bytes → List Tok
  | _, none, [] => []
  | i, some start, [] => [⟨start, i - start⟩]
  | i, none, c :: rest =>
    if c = space then tokens (i + 1) none rest else tokens (i + 1) (some i) rest
  | i, some start, c :: rest =>
    if c = space then ⟨start, i - start⟩ :: tokens (i + 1) none rest
    else tokens (i + 1) (some start) rest

def Tok.str (line : Bytes) (t : Tok) : Bytes := (line.drop t.start).take t.len

def toLower (c : UInt8) : UInt8 := if 0x41 ≤ c ∧ c ≤ 0x5a then c + 0x20 else c

def kMonths : List Bytes :=
  [ascii "jan", ascii "feb", ascii "mar", ascii "apr", ascii "may", ascii "jun",
    ascii "jul", ascii "aug", ascii "sep", ascii "oct", ascii "nov", ascii "dec"]

/-- The number of a month from its name, zero for other tokens. -/
def lsMonthIndex (tok : Bytes) : ℕ :=
  if tok.length ≠ 3 then 0
  else ((kMonths.findIdx? (· == tok.map toLower)).map (· + 1)).getD 0

def kSixMonths : ℤ := 60 * 60 * 24 * 183

/-- The time of the `HH:MM` form, whose year is the current one, or the one before it for a date
more than six months in the future. `timegm` has brought the fields into their ranges. -/
def recentTime (mo : ℕ) (day hour min now : ℤ) : ℤ :=
  let candidate := timegm
    { year := (gmtime now).year, mon := mo - 1, mday := day, hour := hour, min := min }
  if candidate > now + kSixMonths then
    timegm { gmtime candidate with year := (gmtime candidate).year - 1 }
  else candidate

/-- The modification time that the date columns give, if they give one. -/
def lsTime (mon day ty : Bytes) (now : ℤ) : Option ℤ :=
  let mo := lsMonthIndex mon
  let day := atoi day
  if 0 < mo ∧ 0 < day ∧ ty ≠ [] then
    let candidate := match cutAt 0x3a ty with
      | some (hour, min) => recentTime mo day (atoi hour) (atoi min) now
      | none =>
        if atoi ty ≥ 1970 then timegm { year := atoi ty - 1900, mon := mo - 1, mday := day } else 0
    if candidate > 0 then some candidate else none
  else none

def arrow : Bytes := ascii " -> "

/-- What stands before the first arrow. -/
def beforeArrow (name : Bytes) : Bytes := ((findFirst arrow name).map (·.1)).getD name

/-- The current time. A caller that passes none in `nowUtc` gets that of the clock. -/
def currentTime (nowUtc clock : ℤ) : ℤ := if nowUtc ≠ 0 then nowUtc else clock

/-- The entry of a line. -/
def parseLsLine (line : Bytes) (e : Entry) (nowUtc clock : ℤ) : Entry :=
  if line = [] then e
  else
    let e := { e with isDir := line.head? = some 0x64 }
    let toks := tokens 0 none line
    if toks.length < 9 then e
    else
      let tokenStr (idx : ℕ) := (toks.getD idx ⟨0, 0⟩).str line
      let e := { e with size := (strtoull ((tokenStr 4).takeWhile (· ≠ 0))).getD 0 }
      let e := match lsTime (tokenStr 5) (tokenStr 6) (tokenStr 7) (currentTime nowUtc clock) with
        | some t => { e with mtime := t.toNat }
        | none => e
      { e with name := beforeArrow (line.drop (toks.getD 8 ⟨0, 0⟩).start) }

/-! ## Lines as printed -/

/-- A column and the number of spaces after it. -/
abbrev Col := Bytes × ℕ

def Col.bytes (c : Col) : Bytes := c.1 ++ List.replicate c.2 space

/-- A line of `ls -l`. -/
structure LsLine where
  /-- Permissions, links, owner, group, size, month, day, and time or year. -/
  cols : List Col
  name : Bytes
  length_cols : cols.length = 8
  token : ∀ c ∈ cols, c.1 ≠ [] ∧ space ∉ c.1
  gap : ∀ c ∈ cols, 0 < c.2
  name_ne : name ≠ []
  name_head : name.head? ≠ some space

namespace LsLine

variable (l : LsLine)

def col (k : ℕ) : Bytes := (l.cols.map (·.1)).getD k []

def bytes : Bytes := l.cols.flatMap Col.bytes ++ l.name

/-- The first letter of the permissions. -/
def typeLetter : Option UInt8 := (l.col 0).head?

/-- Columns and a name that make a line. -/
structure Spaced (cols : List Bytes) (name : Bytes) : Prop where
  length_cols : cols.length = 8
  token : ∀ c ∈ cols, c ≠ [] ∧ space ∉ c
  name_ne : name ≠ []
  name_head : name.head? ≠ some space

theorem Spaced.cols {cols : List Bytes} {name : Bytes} (h : Spaced cols name) :
    ∀ c ∈ cols.map fun c => (c, 1), (c.1 ≠ [] ∧ space ∉ c.1) ∧ 0 < c.2 := by
  intro c hc
  obtain ⟨w, hw, rfl⟩ := List.mem_map.1 hc
  exact ⟨h.token w hw, Nat.one_pos⟩

/-- A line with one space after each column. -/
def spaced (cols : List Bytes) (name : Bytes) (h : Spaced cols name) : LsLine where
  cols := cols.map fun c => (c, 1)
  name := name
  length_cols := (List.length_map _).trans h.length_cols
  token := fun c hc => (h.cols c hc).1
  gap := fun c hc => (h.cols c hc).2
  name_ne := h.name_ne
  name_head := h.name_head

end LsLine

/-! ## The tokens of a line -/

theorem tokens_spaces (i n : ℕ) (rest : Bytes) :
    tokens i none (List.replicate n space ++ rest) = tokens (i + n) none rest := by
  induction n generalizing i with
  | zero => rfl
  | succ n ih =>
    rw [List.replicate_succ, List.cons_append, tokens, if_pos rfl, ih]
    congr 1
    omega

theorem tokens_word (i start : ℕ) {w : Bytes} (hw : space ∉ w) (rest : Bytes) :
    tokens i (some start) (w ++ space :: rest) =
      ⟨start, i + w.length - start⟩ :: tokens (i + w.length + 1) none rest := by
  induction w generalizing i with
  | nil => rw [List.nil_append, tokens, if_pos rfl]; rfl
  | cons c w ih =>
    obtain ⟨hc, hw⟩ := List.ne_and_not_mem_of_not_mem_cons hw
    rw [List.cons_append, tokens, if_neg (Ne.symm hc), ih _ hw, List.length_cons]
    congr 2 <;> omega

/-- A column is one token. -/
theorem tokens_col (i : ℕ) {c : Col} (hne : c.1 ≠ []) (hc : space ∉ c.1) (hgap : 0 < c.2)
    (rest : Bytes) :
    tokens i none (c.bytes ++ rest) =
      ⟨i, c.1.length⟩ :: tokens (i + c.bytes.length) none rest := by
  obtain ⟨w, n⟩ := c
  obtain ⟨n, rfl⟩ := Nat.exists_eq_succ_of_ne_zero hgap.ne'
  obtain ⟨a, w, rfl⟩ := List.exists_cons_of_ne_nil hne
  obtain ⟨ha, hw⟩ := List.ne_and_not_mem_of_not_mem_cons hc
  show tokens i none ((a :: w) ++ List.replicate (n + 1) space ++ rest) = _
  rw [List.replicate_succ, List.append_assoc, List.cons_append, List.cons_append, tokens,
    if_neg (Ne.symm ha), tokens_word _ _ hw, tokens_spaces]
  simp only [Col.bytes, List.length_append, List.length_cons, List.length_replicate]
  congr 2 <;> omega

/-- The tokens of columns that stand from offset `i` on. -/
def colToks : ℕ → List Col → List Tok
  | _, [] => []
  | i, c :: cols => ⟨i, c.1.length⟩ :: colToks (i + c.bytes.length) cols

@[simp] theorem length_colToks (i : ℕ) (cols : List Col) :
    (colToks i cols).length = cols.length := by
  induction cols generalizing i with
  | nil => rfl
  | cons c cols ih => rw [colToks, List.length_cons, List.length_cons, ih]

theorem tokens_cols (i : ℕ) {cols : List Col}
    (hcols : ∀ c ∈ cols, (c.1 ≠ [] ∧ space ∉ c.1) ∧ 0 < c.2) (rest : Bytes) :
    tokens i none (cols.flatMap Col.bytes ++ rest) =
      colToks i cols ++ tokens (i + (cols.flatMap Col.bytes).length) none rest := by
  induction cols generalizing i with
  | nil => rfl
  | cons c cols ih =>
    obtain ⟨⟨hne, hc⟩, hgap⟩ := hcols c List.mem_cons_self
    rw [List.flatMap_cons, List.append_assoc, tokens_col i hne hc hgap,
      ih _ fun d hd => hcols d (List.mem_cons_of_mem _ hd), colToks, List.cons_append,
      List.length_append, Nat.add_assoc]

/-- The token strings of the columns are the columns. -/
theorem str_colToks (before rest : Bytes) (cols : List Col) :
    (colToks before.length cols).map (Tok.str (before ++ (cols.flatMap Col.bytes ++ rest))) =
      cols.map (·.1) := by
  induction cols generalizing before with
  | nil => rfl
  | cons c cols ih =>
    have hrest := ih (before ++ c.bytes)
    rw [List.length_append, List.append_assoc, ← List.append_assoc c.bytes] at hrest
    rw [colToks, List.map_cons, List.map_cons, List.flatMap_cons, hrest]
    congr 1
    rw [Tok.str, List.drop_left, Col.bytes, List.append_assoc, List.append_assoc, List.take_left]

theorem exists_tokens_some (i start : ℕ) (rest : Bytes) :
    ∃ len more, tokens i (some start) rest = ⟨start, len⟩ :: more := by
  induction rest generalizing i with
  | nil => exact ⟨_, _, rfl⟩
  | cons c rest ih =>
    rw [tokens]
    split
    · exact ⟨_, _, rfl⟩
    · exact ih (i + 1)

namespace LsLine

variable (l : LsLine) (e : Entry) (nowUtc clock : ℤ)

/-- The token after the columns starts where the name does. -/
theorem exists_tokens : ∃ len more, tokens 0 none l.bytes =
    colToks 0 l.cols ++ ⟨(l.cols.flatMap Col.bytes).length, len⟩ :: more := by
  obtain ⟨c, rest, hname⟩ := List.exists_cons_of_ne_nil l.name_ne
  have hc : c ≠ space := fun h => l.name_head (by rw [hname, h]; rfl)
  obtain ⟨len, more, htok⟩ := exists_tokens_some ((l.cols.flatMap Col.bytes).length + 1)
    (l.cols.flatMap Col.bytes).length rest
  refine ⟨len, more, ?_⟩
  rw [bytes, tokens_cols 0 fun c hc => ⟨l.token c hc, l.gap c hc⟩, hname, tokens, if_neg hc,
    Nat.zero_add, htok]

theorem str_tokens {k : ℕ} (hk : k < 8) :
    ((tokens 0 none l.bytes).getD k ⟨0, 0⟩).str l.bytes = l.col k := by
  obtain ⟨len, more, htok⟩ := l.exists_tokens
  have hk' : k < (colToks 0 l.cols).length := by
    rw [length_colToks, l.length_cols]
    exact hk
  have hstr := str_colToks [] l.name l.cols
  rw [List.nil_append, List.length_nil] at hstr
  rw [htok, List.getD_append _ _ _ _ hk', col, ← hstr, List.getD_eq_getElem _ _ hk',
    List.getD_eq_getElem _ _ (by rwa [List.length_map]), List.getElem_map]
  rfl

theorem head_bytes : l.bytes.head? = l.typeLetter := by
  obtain ⟨c, cols, hcols⟩ := List.exists_cons_of_ne_nil
    (l := l.cols) (by rw [← List.length_pos_iff, l.length_cols]; decide)
  obtain ⟨a, w, hw⟩ := List.exists_cons_of_ne_nil
    (l.token c (hcols ▸ List.mem_cons_self)).1
  simp [bytes, typeLetter, col, hcols, Col.bytes, hw]

/-- **What the parser reads off a line.** -/
theorem parseLsLine_bytes : parseLsLine l.bytes e nowUtc clock =
    { name := beforeArrow l.name
      size := (strtoull ((l.col 4).takeWhile (· ≠ 0))).getD 0
      mtime := ((lsTime (l.col 5) (l.col 6) (l.col 7) (currentTime nowUtc clock)).map
        Int.toNat).getD e.mtime
      isDir := l.typeLetter = some 0x64 } := by
  obtain ⟨len, more, htok⟩ := l.exists_tokens
  have hne : l.bytes ≠ [] := by simp [bytes, l.name_ne]
  have hlen : (tokens 0 none l.bytes).length = 8 + (more.length + 1) := by
    rw [htok, List.length_append, length_colToks, l.length_cols, List.length_cons]
  have hname : l.bytes.drop ((tokens 0 none l.bytes).getD 8 ⟨0, 0⟩).start = l.name := by
    rw [htok, List.getD_append_right _ _ _ _ (by rw [length_colToks, l.length_cols]),
      length_colToks, l.length_cols]
    exact List.drop_left
  simp only [parseLsLine, if_neg hne, if_neg (show ¬ (tokens 0 none l.bytes).length < 9 by omega),
    hname, l.str_tokens (show 4 < 8 by decide), l.str_tokens (show 5 < 8 by decide),
    l.str_tokens (show 6 < 8 by decide), l.str_tokens (show 7 < 8 by decide), l.head_bytes]
  cases lsTime (l.col 5) (l.col 6) (l.col 7) (currentTime nowUtc clock) <;> rfl

end LsLine

/-! ## What a listing promises -/

theorem strtoull_digits {s : Bytes} (hne : s ≠ []) (hs : ∀ c ∈ s, isDigit c = true) :
    strtoull (s.takeWhile (· ≠ 0)) = some (min (natOf s) (2 ^ 64 - 1)) := by
  have hnul : s.takeWhile (· ≠ 0) = s :=
    List.takeWhile_eq_self_iff.2 fun c hc => by simpa using (digit_ne (hs c hc)).1
  have hdigits : s.takeWhile isDigit = s := List.takeWhile_eq_self_iff.2 hs
  obtain ⟨c, t, rfl⟩ := List.exists_cons_of_ne_nil hne
  obtain ⟨-, hspace, hminus, hplus⟩ := digit_ne (hs c List.mem_cons_self)
  have hskip : (c :: t).dropWhile isSpace = c :: t := by
    rw [List.dropWhile_cons, hspace]
    rfl
  simp only [hnul, strtoull, hskip, List.head?_cons, Option.some.injEq, hminus, hplus, or_self,
    if_false, hdigits, hne]
  split
  · rw [Nat.min_eq_right (by omega)]
  · rw [Nat.min_eq_left (by omega)]

theorem beforeArrow_eq_self_iff {name : Bytes} :
    beforeArrow name = name ↔ findFirst arrow name = none := by
  rw [beforeArrow]
  cases h : findFirst arrow name with
  | none => simp
  | some r =>
    refine iff_of_false (fun heq => ?_) (by simp)
    have hlen := congrArg List.length (eq_of_findFirst h)
    have hself : r.1.length = name.length := congrArg List.length heq
    rw [List.length_append, List.length_append, ← hself] at hlen
    have : arrow.length = 4 := rfl
    omega

/-- The entry is that of the line. -/
structure Verbatim (l : LsLine) (e : Entry) : Prop where
  name : e.name = l.name
  size : e.size = natOf (l.col 4)
  isDir : e.isDir = true ↔ l.typeLetter = some 0x64

/-- The entry of the line of a link is that of the link, without the target. -/
structure Linked (l : LsLine) (e : Entry) : Prop where
  name : ∀ name target, findFirst arrow l.name = some (name, target) → e.name = name
  size : e.size = natOf (l.col 4)
  isDir : e.isDir = false

theorem beforeArrow_of_find {line name target : Bytes}
    (h : findFirst arrow line = some (name, target)) : beforeArrow line = name := by
  rw [beforeArrow, h]
  rfl

/-- **The entry of a line is that of the line if its name has no arrow and its size fits.** A name
with an arrow is cut there, whatever the type of the file. For a link this is right. -/
theorem verbatim_iff (l : LsLine) (hsize : ∀ c ∈ l.col 4, isDigit c = true) (e : Entry)
    (nowUtc clock : ℤ) :
    (Verbatim l (parseLsLine l.bytes e nowUtc clock) ↔
      findFirst arrow l.name = none ∧ natOf (l.col 4) < 2 ^ 64) ∧
    (∀ name target, findFirst arrow l.name = some (name, target) →
      (parseLsLine l.bytes e nowUtc clock).name = name) ∧
    (l.typeLetter = some 0x6c →
      (Linked l (parseLsLine l.bytes e nowUtc clock) ↔ natOf (l.col 4) < 2 ^ 64)) := by
  have hne : l.col 4 ≠ [] := by
    have hlen : 4 < (l.cols.map (·.1)).length := by
      rw [List.length_map, l.length_cols]
      decide
    rw [LsLine.col, List.getD_eq_getElem _ _ hlen, List.getElem_map]
    exact (l.token _ (List.getElem_mem _)).1
  have hfits : min (natOf (l.col 4)) (2 ^ 64 - 1) = natOf (l.col 4) ↔ natOf (l.col 4) < 2 ^ 64 := by
    omega
  rw [l.parseLsLine_bytes, strtoull_digits hne hsize, Option.getD_some]
  refine ⟨⟨fun h => ⟨beforeArrow_eq_self_iff.1 h.name, hfits.1 h.size⟩,
    fun ⟨hname, hlt⟩ => ⟨beforeArrow_eq_self_iff.2 hname, hfits.2 hlt, decide_eq_true_iff⟩⟩,
    fun name target h => beforeArrow_of_find h,
    fun hlink => ⟨fun h => hfits.1 h.size, fun hlt => ?_⟩⟩
  refine ⟨fun name target h => beforeArrow_of_find h, hfits.2 hlt, ?_⟩
  show decide (l.typeLetter = some 0x64) = false
  rw [hlink]
  rfl

theorem cacheLine_fits : LsLine.Spaced
    (["drwxr-xr-x", "2", "root", "root", "4096", "Apr", "21", "09:30"].map ascii)
    (ascii "my  cache") := ⟨rfl, by decide, by decide, by decide⟩

/-- `drwxr-xr-x 2 root root 4096 Apr 21 09:30 my  cache`. -/
def cacheLine : LsLine :=
  .spaced (["drwxr-xr-x", "2", "root", "root", "4096", "Apr", "21", "09:30"].map ascii)
    (ascii "my  cache") cacheLine_fits

theorem linkLine_fits : LsLine.Spaced
    (["lrwxrwxrwx", "1", "root", "root", "7", "Apr", "21", "09:30"].map ascii)
    (ascii "last  one -> a.3mf") := ⟨rfl, by decide, by decide, by decide⟩

/-- `lrwxrwxrwx 1 root root 7 Apr 21 09:30 last  one -> a.3mf`. -/
def linkLine : LsLine :=
  .spaced (["lrwxrwxrwx", "1", "root", "root", "7", "Apr", "21", "09:30"].map ascii)
    (ascii "last  one -> a.3mf") linkLine_fits

theorem verbatim_iff_cache :
    Verbatim cacheLine (parseLsLine cacheLine.bytes {} 1776823200 0) ∧
    Linked linkLine (parseLsLine linkLine.bytes {} 1776823200 0) := by
  have hcache : ∀ c ∈ cacheLine.col 4, isDigit c = true := List.all_iff_forall_prop.1 (by decide)
  have hlink : ∀ c ∈ linkLine.col 4, isDigit c = true := List.all_iff_forall_prop.1 (by decide)
  exact ⟨(verbatim_iff cacheLine hcache {} 1776823200 0).1.2 ⟨by decide, by decide⟩,
    ((verbatim_iff linkLine hlink {} 1776823200 0).2.2 (by decide)).2 (by decide)⟩

theorem arrowLine_fits : LsLine.Spaced
    (["-rw-r--r--", "1", "root", "root", "1000", "Apr", "21", "12:00"].map ascii)
    (ascii "a -> b.3mf") := ⟨rfl, by decide, by decide, by decide⟩

/-- `-rw-r--r-- 1 root root 1000 Apr 21 12:00 a -> b.3mf`, a regular file. -/
def arrowLine : LsLine :=
  .spaced (["-rw-r--r--", "1", "root", "root", "1000", "Apr", "21", "12:00"].map ascii)
    (ascii "a -> b.3mf") arrowLine_fits

/-- A regular file with an arrow in its name loses the rest of it. -/
theorem arrow_name_cut :
    ¬ ∀ (l : LsLine) (e : Entry) (nowUtc clock : ℤ), (∀ c ∈ l.col 4, isDigit c = true) →
      (l.typeLetter = some 0x2d ∨ l.typeLetter = some 0x64) →
      Verbatim l (parseLsLine l.bytes e nowUtc clock) := by
  intro h
  have hname := (h arrowLine {} 1776823200 0 (List.all_iff_forall_prop.1 (by decide))
    (by decide)).name
  rw [LsLine.parseLsLine_bytes] at hname
  revert hname
  decide

end BambooNet.Ftps
