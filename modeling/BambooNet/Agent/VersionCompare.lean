import BambooNet.Json.Parse
import BambooNet.Lib.FirstDifference
import Mathlib.Data.List.GetD
import Mathlib.Data.List.TakeWhile

/-!
# Comparing versions

Versions such as `01.08.02.00` are compared by their components. The loop that reads the components
goes on at a dot and after a run of digits. At any other character the run is empty and the loop
stays where it is (`parts_stuck`). Components that do not fit an `int` are undefined behaviour, and
an empty component is left out, which moves the components after it.

**For regular versions** the comparison is the sign of the first component that differs
(`returns_regular`), and the regular versions are the only ones for which it is that against all of
them (`regular_of_agrees`). The empty string is not one: it counts as equal to everything.
-/

namespace BambooNet.Agent

open Json

/-- Why a comparison has no result: an `int` overflows, or the rounds of the loop ran out. -/
inductive CompareFault
  | overflow
  | unfinished
  deriving DecidableEq

/-- The digits that come next, added to the number so far. -/
def scanComponent (n : ℕ) : Bytes → Except CompareFault (ℕ × Bytes)
  | [] => .ok (n, [])
  | c :: p =>
    if isDigit c then
      let n := 10 * n + (c.toNat - 0x30)
      if n < 2 ^ 31 then scanComponent n p else .error .overflow
    else .ok (n, c :: p)

/-- The components, in at most `fuel` rounds of the loop. -/
def parts : ℕ → Bytes → List ℕ → Except CompareFault (List ℕ)
  | 0, _, _ => .error .unfinished
  | _ + 1, [], out => .ok out
  | fuel + 1, c :: p, out =>
    if c = dot then parts fuel p out
    else
      match scanComponent 0 (c :: p) with
      | .error e => .error e
      | .ok (n, rest) => parts fuel rest (out ++ [n])

/-- `rounds` rounds of the comparison, from component `i` on. -/
def compareParts (pa pb : List ℕ) : ℕ → ℕ → ℤ
  | 0, _ => 0
  | rounds + 1, i =>
    if pa.getD i 0 < pb.getD i 0 then -1
    else if pb.getD i 0 < pa.getD i 0 then 1
    else compareParts pa pb rounds (i + 1)

def versionCompare (fuel : ℕ) (a b : Bytes) : Except CompareFault ℤ :=
  if a = b ∨ a = [] ∨ b = [] then .ok 0
  else
    match parts fuel a [], parts fuel b [] with
    | .ok pa, .ok pb => .ok (compareParts pa pb (max pa.length pb.length) 0)
    | .error e, _ => .error e
    | .ok _, .error e => .error e

/-- The comparison ends with the result `r`. -/
def Returns (a b : Bytes) (r : ℤ) : Prop := ∃ fuel, versionCompare fuel a b = .ok r

/-! ## Versions -/

/-- Components between dots. -/
def components (s : Bytes) : List Bytes := s.splitOn dot

/-- The number of a component. A missing one is 0, and so is an empty one. -/
def component (s : Bytes) (k : ℕ) : ℕ := natOf ((components s).getD k [])

/-- Dot-separated components. Each may be empty, and so may be the whole. -/
def VersionText (s : Bytes) : Prop := ∀ c ∈ s, isDigit c = true ∨ c = dot

/-- A version whose components fit an `int`, with no empty one before one that is not zero. -/
structure Regular (s : Bytes) : Prop where
  nonempty : s ≠ []
  chars : VersionText s
  bounded : ∀ d ∈ components s, natOf d < 2 ^ 31
  compact : (components s).Pairwise fun d e => d = [] → natOf e = 0

/-- The comparison ends, and is the sign of the first component that differs. -/
def Agrees (a b : Bytes) : Prop :=
  ∃ r, Returns a b r ∧
    (VersionText a → VersionText b → FirstSign (component a) (component b) r)

/-- What the comparison is made for. -/
def Comparable (a b : Bytes) : Prop := a = b ∨ (Regular a ∧ Regular b)

/-! ## Reading a component -/

theorem natOf_nil : natOf [] = 0 := rfl

/-- The number that digits make after a number. -/
def natFrom (n : ℕ) (ds : Bytes) : ℕ := ds.foldl (fun n d => 10 * n + (d.toNat - 0x30)) n

theorem natFrom_zero (ds : Bytes) : natFrom 0 ds = natOf ds := rfl

theorem le_natFrom (n : ℕ) (ds : Bytes) : n ≤ natFrom n ds := by
  induction ds generalizing n with
  | nil => exact le_refl n
  | cons d ds ih =>
    have := ih (10 * n + (d.toNat - 0x30))
    rw [natFrom, List.foldl_cons, ← natFrom]
    omega

/-- A run of digits that fits is read as its number. -/
theorem scanComponent_digits {ds rest : Bytes} (hds : ∀ c ∈ ds, isDigit c = true)
    (hrest : ∀ c ∈ rest.head?, isDigit c = false) {n : ℕ} (hn : natFrom n ds < 2 ^ 31) :
    scanComponent n (ds ++ rest) = .ok (natFrom n ds, rest) := by
  induction ds generalizing n with
  | nil =>
    cases rest with
    | nil => rfl
    | cons c rest => simp [scanComponent, hrest c rfl, natFrom]
  | cons d ds ih =>
    have hle := le_natFrom (10 * n + (d.toNat - 0x30)) ds
    rw [natFrom, List.foldl_cons, ← natFrom] at hn ⊢
    rw [List.cons_append, scanComponent, if_pos (hds d List.mem_cons_self)]
    dsimp only
    rw [if_pos (by omega), ih (fun c hc => hds c (List.mem_cons_of_mem _ hc)) hn]

/-- What is read is a run of digits that fits. -/
theorem scanComponent_cases {s rest : Bytes} {n m : ℕ} (hn : n < 2 ^ 31)
    (h : scanComponent n s = .ok (m, rest)) :
    ∃ ds, s = ds ++ rest ∧ (∀ c ∈ ds, isDigit c = true) ∧
      (∀ c ∈ rest.head?, isDigit c = false) ∧ m = natFrom n ds ∧ m < 2 ^ 31 := by
  induction s generalizing n with
  | nil =>
    obtain ⟨rfl, rfl⟩ := Prod.mk.inj (Except.ok.inj h)
    exact ⟨[], rfl, by simp, by simp, rfl, hn⟩
  | cons c s ih =>
    rw [scanComponent] at h
    split at h
    · next hc =>
      dsimp only at h
      split at h
      · next hlt =>
        obtain ⟨ds, rfl, hds, hrest, hm, hm'⟩ := ih hlt h
        exact ⟨c :: ds, rfl, List.forall_mem_cons.2 ⟨hc, hds⟩, hrest, hm, hm'⟩
      · cases h
    · next hc =>
      obtain ⟨rfl, rfl⟩ := Prod.mk.inj (Except.ok.inj h)
      exact ⟨[], rfl, by simp, by simpa using hc, rfl, hn⟩

/-! ## Reading the components -/

/-- **At a character that is neither a digit nor a dot the loop stays.** -/
theorem parts_stuck {c : UInt8} (hdigit : isDigit c = false) (hdot : c ≠ dot) (p : Bytes)
    (fuel : ℕ) (out : List ℕ) : parts fuel (c :: p) out = .error .unfinished := by
  induction fuel generalizing out with
  | zero => rfl
  | succ fuel ih =>
    have hscan : scanComponent 0 (c :: p) = .ok (0, c :: p) := by simp [scanComponent, hdigit]
    rw [parts, if_neg hdot, hscan]
    exact ih _

theorem dot_not_mem {ds : Bytes} (hds : ∀ c ∈ ds, isDigit c = true) : dot ∉ ds :=
  fun hdot => absurd (hds _ hdot) (by decide)

theorem components_digits {ds : Bytes} (hds : ∀ c ∈ ds, isDigit c = true) :
    components ds = [ds] :=
  List.splitOn_eq_singleton (dot_not_mem hds)

theorem components_append {ds : Bytes} (hds : ∀ c ∈ ds, isDigit c = true) (p : Bytes) :
    components (ds ++ dot :: p) = ds :: components p :=
  List.splitOn_append_cons_self_of_not_mem (dot_not_mem hds) p

theorem components_dot (p : Bytes) : components (dot :: p) = [] :: components p :=
  @components_append [] (by simp) p

/-- The components that the loop reads. -/
def read (s : Bytes) : List ℕ := ((components s).filter (· ≠ [])).map natOf

theorem read_dot (p : Bytes) : read (dot :: p) = read p := by
  rw [read, components_dot]
  rfl

theorem read_append {ds rest : Bytes} (hne : ds ≠ []) (hds : ∀ c ∈ ds, isDigit c = true)
    (hrest : rest = [] ∨ ∃ p, rest = dot :: p) : read (ds ++ rest) = natOf ds :: read rest := by
  rcases hrest with rfl | ⟨p, rfl⟩
  · rw [List.append_nil, read, components_digits hds]
    simp [hne]
    rfl
  · rw [read_dot, read, components_append hds]
    simp [hne, read]

theorem forall_component_append {ds rest : Bytes} (hds : ∀ c ∈ ds, isDigit c = true)
    (hrest : rest = [] ∨ ∃ p, rest = dot :: p) {P : Bytes → Prop} (hnil : P []) :
    (∀ d ∈ components (ds ++ rest), P d) ↔ P ds ∧ ∀ d ∈ components rest, P d := by
  rcases hrest with rfl | ⟨p, rfl⟩
  · rw [List.append_nil, components_digits hds]
    simp [components, List.splitOn_nil, hnil]
  · rw [components_append hds, components_dot]
    simp [hnil]

/-- **What the loop reads**: nothing but digits and dots, with components that fit, and of these
the ones that are not empty. -/
theorem parts_cases {fuel : ℕ} {s : Bytes} {out res : List ℕ} (h : parts fuel s out = .ok res) :
    (∀ c ∈ s, isDigit c = true ∨ c = dot) ∧ (∀ d ∈ components s, natOf d < 2 ^ 31) ∧
      res = out ++ read s := by
  induction fuel generalizing s out with
  | zero => cases h
  | succ fuel ih =>
    cases s with
    | nil =>
      obtain rfl := Except.ok.inj h
      exact ⟨by simp, by simp [components, natOf_nil], by simp [read, components]⟩
    | cons c p =>
      by_cases hc : c = dot
      · subst hc
        rw [parts, if_pos rfl] at h
        obtain ⟨hchars, hbounded, hres⟩ := ih h
        refine ⟨List.forall_mem_cons.2 ⟨.inr rfl, hchars⟩, ?_, by rw [hres, read_dot]⟩
        rw [components_dot]
        exact List.forall_mem_cons.2 ⟨by decide, hbounded⟩
      · rw [parts, if_neg hc] at h
        cases hscan : scanComponent 0 (c :: p) with
        | error e =>
          rw [hscan] at h
          cases h
        | ok r =>
          obtain ⟨n, rest⟩ := r
          rw [hscan] at h
          obtain ⟨ds, hs, hds, hstop, rfl, hlt⟩ := scanComponent_cases (by decide) hscan
          obtain ⟨hchars, hbounded, hres⟩ := ih h
          have hrest : rest = [] ∨ ∃ p, rest = dot :: p := by
            cases rest with
            | nil => exact .inl rfl
            | cons e rest =>
              have hdigit := hstop e rfl
              rcases hchars e List.mem_cons_self with he | rfl
              · rw [hdigit] at he
                cases he
              · exact .inr ⟨rest, rfl⟩
          have hne : ds ≠ [] := by
            rintro rfl
            rcases hrest with rfl | ⟨q, rfl⟩
            · cases hs
            · exact hc (List.cons.inj hs).1
          rw [natFrom_zero] at hlt hres
          rw [hs]
          refine ⟨fun d hd => ?_, ?_, ?_⟩
          · exact (List.mem_append.1 hd).elim (fun hd => .inl (hds d hd)) (hchars d)
          · exact (forall_component_append hds hrest (by decide)).2 ⟨hlt, hbounded⟩
          · rw [hres, read_append hne hds hrest, List.append_assoc, List.singleton_append]

/-- A run of digits in front, up to the next dot. -/
theorem exists_run {c : UInt8} {p : Bytes} (hc : c ≠ dot)
    (hchars : ∀ d ∈ c :: p, isDigit d = true ∨ d = dot) :
    ∃ ds rest, c :: p = ds ++ rest ∧ ds ≠ [] ∧ (∀ d ∈ ds, isDigit d = true) ∧
      (rest = [] ∨ ∃ q, rest = dot :: q) := by
  have hdigit : isDigit c = true := (hchars c List.mem_cons_self).resolve_right hc
  refine ⟨(c :: p).takeWhile isDigit, (c :: p).dropWhile isDigit,
    List.takeWhile_append_dropWhile.symm, ?_, fun d hd => List.mem_takeWhile_imp hd, ?_⟩
  · rw [List.takeWhile_cons_of_pos hdigit]
    exact List.cons_ne_nil _ _
  · cases hrest : (c :: p).dropWhile isDigit with
    | nil => exact .inl rfl
    | cons e q =>
      have hstop : isDigit e = false := by
        have := List.head?_dropWhile_not isDigit (c :: p)
        simpa [hrest] using this
      have hmem : e ∈ c :: p := (List.dropWhile_suffix isDigit).subset (hrest ▸ List.mem_cons_self)
      rcases hchars e hmem with he | rfl
      · rw [hstop] at he
        cases he
      · exact .inr ⟨q, rfl⟩

/-- **Digits and dots are read in as many rounds as there are characters.** -/
theorem parts_ok {s : Bytes} (hchars : ∀ c ∈ s, isDigit c = true ∨ c = dot)
    (hbounded : ∀ d ∈ components s, natOf d < 2 ^ 31) {fuel : ℕ} (hfuel : s.length < fuel)
    (out : List ℕ) : parts fuel s out = .ok (out ++ read s) := by
  induction fuel generalizing s out with
  | zero => omega
  | succ fuel ih =>
    cases s with
    | nil => simp [parts, read, components]
    | cons c p =>
      by_cases hc : c = dot
      · subst hc
        rw [components_dot] at hbounded
        rw [parts, if_pos rfl, read_dot]
        exact ih (fun d hd => hchars d (List.mem_cons_of_mem _ hd))
          (fun d hd => hbounded d (List.mem_cons_of_mem _ hd)) (Nat.lt_of_succ_lt_succ hfuel) out
      · obtain ⟨ds, rest, hs, hne, hds, hrest⟩ := exists_run hc hchars
        have hstop : ∀ d ∈ rest.head?, isDigit d = false := by
          intro d hd
          rcases hrest with rfl | ⟨q, rfl⟩
          · cases hd
          · obtain rfl := Option.some.inj hd
            decide
        have hlen : rest.length < fuel := by
          have h := congrArg List.length hs
          have hpos := List.length_pos_iff.2 hne
          rw [List.length_append] at h
          omega
        rw [hs] at hchars hbounded
        obtain ⟨hlt, hbounded⟩ := (forall_component_append hds hrest (by decide)).1 hbounded
        rw [parts, if_neg hc, hs, scanComponent_digits hds hstop hlt]
        dsimp only
        rw [ih (fun d hd => hchars d (List.mem_append_right _ hd)) hbounded hlen,
          read_append hne hds hrest, natFrom_zero, List.append_assoc, List.singleton_append]

/-! ## Comparing the components -/

/-- A list as a sequence that goes on with zeros. -/
def padded (l : List ℕ) (i : ℕ) : ℕ := l.getD i 0

/-- The rounds from `i` on find the first difference when there is none before and behind them. -/
theorem compareParts_firstSign {pa pb : List ℕ} {rounds i : ℕ}
    (hbefore : ∀ j < i, padded pa j = padded pb j)
    (hbehind : ∀ j, i + rounds ≤ j → padded pa j = padded pb j) :
    FirstSign (padded pa) (padded pb) (compareParts pa pb rounds i) := by
  induction rounds generalizing i with
  | zero =>
    have heq : padded pa = padded pb := funext fun j =>
      (lt_or_ge j i).elim (hbefore j) (hbehind j)
    rw [heq]
    exact FirstSign.refl _
  | succ rounds ih =>
    -- a difference at `i` is the first one
    have first {k : ℕ} (hk : ∀ j < k, padded pa j = padded pb j)
        (hne : padded pa k ≠ padded pb k) (hi : padded pa i ≠ padded pb i) : k = i := by
      rcases lt_trichotomy k i with hlt | heq | hlt
      · exact absurd (hbefore k hlt) hne
      · exact heq
      · exact absurd (hk i hlt) hi
    rw [compareParts]
    split
    · next hlt =>
      have hlt : padded pa i < padded pb i := hlt
      refine ⟨fun heq => absurd (congrFun heq i) hlt.ne, fun _ _ _ => rfl, fun k hk hgt => ?_⟩
      obtain rfl := first hk hgt.ne' hlt.ne
      exact absurd hgt (lt_asymm hlt)
    · next hnlt =>
      split
      · next hgt =>
        have hgt : padded pb i < padded pa i := hgt
        refine ⟨fun heq => absurd (congrFun heq i) hgt.ne', fun k hk hlt => ?_, fun _ _ _ => rfl⟩
        obtain rfl := first hk hlt.ne hgt.ne'
        exact absurd hlt (lt_asymm hgt)
      · next hngt =>
        have heq : padded pa i = padded pb i := le_antisymm (not_lt.1 hngt) (not_lt.1 hnlt)
        refine ih (fun j hj => ?_) (fun j hj => hbehind j (by omega))
        rcases Nat.lt_succ_iff_lt_or_eq.1 hj with hlt | rfl
        · exact hbefore j hlt
        · exact heq

theorem compareParts_spec (pa pb : List ℕ) : FirstSign (padded pa) (padded pb)
    (compareParts pa pb (max pa.length pb.length) 0) := by
  refine compareParts_firstSign (fun j hj => absurd hj (Nat.not_lt_zero j)) fun j hj => ?_
  rw [Nat.zero_add] at hj
  rw [padded, padded, List.getD_eq_default _ _ (by omega), List.getD_eq_default _ _ (by omega)]

/-! ## Empty components -/

theorem padded_map (l : List Bytes) (k : ℕ) : padded (l.map natOf) k = natOf (l.getD k []) := by
  rw [padded, ← natOf_nil, List.getD_map]

/-- The number of a component that is not left out stands where it was or before. -/
theorem exists_of_padded_filter {l : List Bytes} {k : ℕ}
    (h : padded ((l.filter (· ≠ [])).map natOf) k ≠ 0) :
    ∃ j, k ≤ j ∧ padded (l.map natOf) j ≠ 0 := by
  induction l generalizing k with
  | nil => exact absurd rfl h
  | cons d l ih =>
    by_cases hd : d = []
    · subst hd
      obtain ⟨j, hj, hne⟩ := ih (k := k) h
      exact ⟨j + 1, by omega, hne⟩
    · rw [List.filter_cons_of_pos (by simpa using hd)] at h
      cases k with
      | zero => exact ⟨0, le_refl 0, h⟩
      | succ k =>
        obtain ⟨j, hj, hne⟩ := ih (k := k) h
        exact ⟨j + 1, by omega, hne⟩

/-- A sequence that is one place ahead of itself ends in zeros. -/
theorem padded_eq_zero_of_ahead {l : List Bytes}
    (h : ∀ k, padded ((l.filter (· ≠ [])).map natOf) (k + 1) = padded (l.map natOf) k) (k : ℕ) :
    padded (l.map natOf) k = 0 := by
  by_contra hne
  -- a number that is not zero would have another one behind it, without an end
  have next (k : ℕ) (hk : padded (l.map natOf) k ≠ 0) :
      ∃ j, k < j ∧ padded (l.map natOf) j ≠ 0 := by
    obtain ⟨j, hj, hjne⟩ := exists_of_padded_filter (by rwa [h k])
    exact ⟨j, hj, hjne⟩
  have far (n : ℕ) : ∃ j, n ≤ j ∧ padded (l.map natOf) j ≠ 0 := by
    induction n with
    | zero => exact ⟨k, Nat.zero_le k, hne⟩
    | succ n ih =>
      obtain ⟨j, hj, hjne⟩ := ih
      obtain ⟨i, hi, hine⟩ := next j hjne
      exact ⟨i, by omega, hine⟩
  obtain ⟨j, hj, hjne⟩ := far (l.map natOf).length
  exact hjne (List.getD_eq_default _ _ hj)

/-- **Leaving out the empty components changes nothing exactly when none of them is before a
component that is not zero.** -/
theorem padded_filter_iff {l : List Bytes} :
    padded ((l.filter (· ≠ [])).map natOf) = padded (l.map natOf) ↔
      l.Pairwise fun d e => d = [] → natOf e = 0 := by
  induction l with
  | nil => exact iff_of_true rfl .nil
  | cons d l ih =>
    rw [List.pairwise_cons, ← ih]
    by_cases hd : d = []
    · subst hd
      have hfilter : ([] :: l).filter (· ≠ []) = l.filter (· ≠ []) := rfl
      rw [hfilter]
      constructor
      · intro h
        have hzero (k : ℕ) : padded (l.map natOf) k = 0 :=
          padded_eq_zero_of_ahead (fun k => congrFun h (k + 1)) k
        have hall : ∀ e ∈ l, natOf e = 0 := by
          intro e he
          obtain ⟨k, hk, rfl⟩ := List.getElem_of_mem he
          have := hzero k
          rwa [padded_map, List.getD_eq_getElem _ _ hk] at this
        refine ⟨fun e he _ => hall e he, funext fun k => ?_⟩
        rw [hzero k]
        by_contra hne
        obtain ⟨j, -, hj⟩ := exists_of_padded_filter hne
        exact hj (hzero j)
      · rintro ⟨hall, h⟩
        have hzero (k : ℕ) : padded (l.map natOf) k = 0 := by
          rw [padded_map]
          rcases lt_or_ge k l.length with hk | hk
          · rw [List.getD_eq_getElem _ _ hk]
            exact hall _ (List.getElem_mem hk) rfl
          · rw [List.getD_eq_default _ _ hk]
            rfl
        rw [h]
        funext k
        cases k with
        | zero => exact hzero 0
        | succ k => exact (hzero (k + 1)).trans (hzero k).symm
    · have hfilter : (d :: l).filter (· ≠ []) = d :: l.filter (· ≠ []) :=
        List.filter_cons_of_pos (by simpa using hd)
      rw [hfilter]
      constructor
      · exact fun h => ⟨fun e _ h => absurd h hd, funext fun k => congrFun h (k + 1)⟩
      · rintro ⟨-, h⟩
        funext k
        cases k with
        | zero => rfl
        | succ k => exact congrFun h k

/-! ## The comparison -/

/-- What a string must be for the loop to read it: digits and dots, with components that fit. -/
structure Readable (s : Bytes) : Prop where
  chars : VersionText s
  bounded : ∀ d ∈ components s, natOf d < 2 ^ 31

/-- The cases that are decided without reading. -/
def Uncompared (a b : Bytes) : Prop := a = b ∨ a = [] ∨ b = []

theorem returns_of_uncompared {a b : Bytes} (h : Uncompared a b) : Returns a b 0 := ⟨0, if_pos h⟩

theorem versionCompare_of_readable {a b : Bytes} (ha : Readable a) (hb : Readable b)
    (h : ¬ Uncompared a b) : ∃ r, Returns a b r := by
  refine ⟨compareParts (read a) (read b) (max (read a).length (read b).length) 0,
    max a.length b.length + 1, ?_⟩
  rw [versionCompare, if_neg (show ¬ (a = b ∨ a = [] ∨ b = []) from h),
    parts_ok ha.chars ha.bounded (by omega), parts_ok hb.chars hb.bounded (by omega)]
  rfl

/-- A comparison that reads its arguments compares what it has read. -/
theorem returns_cases {a b : Bytes} {r : ℤ} (hr : Returns a b r) (h : ¬ Uncompared a b) :
    Readable a ∧ Readable b ∧ FirstSign (padded (read a)) (padded (read b)) r := by
  obtain ⟨fuel, hr⟩ := hr
  rw [versionCompare, if_neg (show ¬ (a = b ∨ a = [] ∨ b = []) from h)] at hr
  split at hr
  · next pa pb ha hb =>
    obtain ⟨hachars, habounded, rfl⟩ := parts_cases ha
    obtain ⟨hbchars, hbbounded, rfl⟩ := parts_cases hb
    obtain rfl := Except.ok.inj hr
    exact ⟨⟨hachars, habounded⟩, ⟨hbchars, hbbounded⟩, compareParts_spec _ _⟩
  · cases hr
  · cases hr

/-- **When the comparison ends.** -/
theorem returns_iff (a b : Bytes) :
    (∃ r, Returns a b r) ↔ Uncompared a b ∨ (Readable a ∧ Readable b) := by
  constructor
  · rintro ⟨r, hr⟩
    by_cases h : Uncompared a b
    · exact .inl h
    · obtain ⟨ha, hb, -⟩ := returns_cases hr h
      exact .inr ⟨ha, hb⟩
  · intro h
    by_cases hun : Uncompared a b
    · exact ⟨0, returns_of_uncompared hun⟩
    · obtain ⟨ha, hb⟩ := h.resolve_left hun
      exact versionCompare_of_readable ha hb hun

theorem component_eq (s : Bytes) : component s = padded ((components s).map natOf) :=
  funext fun k => (padded_map _ k).symm

theorem Regular.readable {s : Bytes} (h : Regular s) : Readable s := ⟨h.chars, h.bounded⟩

theorem Regular.read_eq {s : Bytes} (h : Regular s) : padded (read s) = component s := by
  rw [component_eq]
  exact padded_filter_iff.2 h.compact

/-- **Regular versions are compared by their first difference.** -/
theorem returns_regular {a b : Bytes} {r : ℤ} (ha : Regular a) (hb : Regular b)
    (hr : Returns a b r) : FirstSign (component a) (component b) r := by
  by_cases hun : Uncompared a b
  · obtain ⟨fuel, hr⟩ := hr
    rw [versionCompare, if_pos (show a = b ∨ a = [] ∨ b = [] from hun)] at hr
    obtain rfl := Except.ok.inj hr
    rcases hun with rfl | rfl | rfl
    · exact FirstSign.refl _
    · exact absurd rfl ha.nonempty
    · exact absurd rfl hb.nonempty
  · obtain ⟨-, -, hsign⟩ := returns_cases hr hun
    rwa [ha.read_eq, hb.read_eq] at hsign

theorem agrees_regular {a b : Bytes} (ha : Regular a) (hb : Regular b) : Agrees a b := by
  obtain ⟨r, hr⟩ := (returns_iff a b).2 (.inr ⟨ha.readable, hb.readable⟩)
  exact ⟨r, hr, fun _ _ => returns_regular ha hb hr⟩

theorem agrees_of_comparable {a b : Bytes} (h : Comparable a b) : Agrees a b := by
  obtain rfl | ⟨ha, hb⟩ := h
  · exact ⟨0, returns_of_uncompared (.inl rfl), fun _ _ => FirstSign.refl _⟩
  · exact agrees_regular ha hb

/-! ## Versions to compare with -/

/-- The version with the numbers of a version as its components. -/
def normalized (s : Bytes) : Bytes :=
  [dot].intercalate ((components s).map fun d => decimal (natOf d))

theorem components_normalized (s : Bytes) :
    components (normalized s) = (components s).map fun d => decimal (natOf d) := by
  refine List.splitOn_intercalate dot (fun l hl => ?_) ?_
  · obtain ⟨d, -, rfl⟩ := List.mem_map.1 hl
    exact dot_not_mem isDigit_of_mem_decimal
  · simp [components]

theorem component_normalized (s : Bytes) : component (normalized s) = component s := by
  rw [component_eq, component_eq, components_normalized, List.map_map]
  exact congrArg padded (List.map_congr_left fun d _ => natOf_decimal (natOf d))

theorem chars_intercalate {l : List Bytes} (h : ∀ d ∈ l, ∀ c ∈ d, isDigit c = true) :
    ∀ c ∈ [dot].intercalate l, isDigit c = true ∨ c = dot := by
  induction l with
  | nil => simp
  | cons d l ih =>
    obtain ⟨hd, hl⟩ := List.forall_mem_cons.1 h
    intro c hc
    cases l with
    | nil => exact .inl (hd c (by simpa using hc))
    | cons e l =>
      rw [List.intercalate_cons_cons] at hc
      rcases List.mem_append.1 hc with hc | hc
      · rcases List.mem_append.1 hc with hc | hc
        · exact .inl (hd c hc)
        · exact .inr (List.mem_singleton.1 hc)
      · exact ih hl c hc

theorem regular_normalized {s : Bytes} (h : Readable s) : Regular (normalized s) := by
  have hmem {d : Bytes} (hd : d ∈ components (normalized s)) :
      ∃ e ∈ components s, d = decimal (natOf e) := by
    rw [components_normalized] at hd
    obtain ⟨e, he, rfl⟩ := List.mem_map.1 hd
    exact ⟨e, he, rfl⟩
  have hne {d : Bytes} (hd : d ∈ components (normalized s)) : d ≠ [] := by
    obtain ⟨e, -, rfl⟩ := hmem hd
    exact decimal_ne_nil _
  refine ⟨fun hnil => ?_, ?_, fun d hd => ?_, ?_⟩
  · exact hne (d := []) (by rw [hnil]; simp [components]) rfl
  · refine chars_intercalate fun d hd => ?_
    obtain ⟨e, -, rfl⟩ := List.mem_map.1 hd
    exact fun _ => isDigit_of_mem_decimal _
  · obtain ⟨e, he, rfl⟩ := hmem hd
    rw [natOf_decimal]
    exact h.bounded e he
  · exact List.pairwise_of_forall_mem_list fun d hd e _ hnil => absurd hnil (hne hd)

/-- A number on its own is a version. -/
theorem regular_decimal {n : ℕ} (hn : n < 2 ^ 31) : Regular (decimal n) := by
  refine ⟨decimal_ne_nil n, fun c hc => .inl (isDigit_of_mem_decimal c hc), ?_, ?_⟩
  · rw [components_digits isDigit_of_mem_decimal]
    simpa [natOf_decimal] using hn
  · rw [components_digits isDigit_of_mem_decimal]
    exact List.pairwise_singleton _ _

/-- A regular version that is not a given string. -/
theorem exists_regular_ne (a : Bytes) : ∃ b, Regular b ∧ a ≠ b := by
  by_cases ha : a = decimal 0
  · refine ⟨decimal 1, regular_decimal (by decide), fun h => ?_⟩
    exact absurd (decimal_injective (ha.symm.trans h)) (by decide)
  · exact ⟨decimal 0, regular_decimal (by decide), ha⟩

/-- The empty string is taken for equal to `1`, and has a smaller first component. -/
theorem not_agrees_nil : ¬ Agrees [] (decimal 1) := by
  rintro ⟨r, ⟨fuel, hr⟩, hsign⟩
  rw [versionCompare, if_pos (.inr (.inl rfl))] at hr
  obtain rfl := Except.ok.inj hr
  have hone := (regular_decimal (show 1 < 2 ^ 31 by decide)).chars
  have hsame := (hsign (fun c hc => absurd hc List.not_mem_nil) hone).zero_iff.1 rfl
  have hfirst : component (decimal 1) 0 = 1 := by
    rw [component, components_digits isDigit_of_mem_decimal]
    exact natOf_decimal 1
  have hnil : component [] 0 = 0 := rfl
  rw [← hsame, hnil] at hfirst
  exact absurd hfirst (by decide)

/-- A version that is in order with all the regular ones is regular itself: it is compared with its
own numbers. -/
theorem regular_of_agrees {a : Bytes} (h : ∀ b, Regular b → Agrees a b) : Regular a := by
  have hne : a ≠ [] := by
    rintro rfl
    exact not_agrees_nil (h _ (regular_decimal (by decide)))
  have compared {b : Bytes} (hb : Regular b) (hab : a ≠ b) : ¬ Uncompared a b := by
    rintro (heq | heq | heq)
    · exact hab heq
    · exact hne heq
    · exact hb.nonempty heq
  obtain ⟨b, hb, hab⟩ := exists_regular_ne a
  obtain ⟨r, hr, -⟩ := h b hb
  obtain ⟨hread, -, -⟩ := returns_cases hr (compared hb hab)
  have hnorm := regular_normalized hread
  by_cases heq : a = normalized a
  · exact heq ▸ hnorm
  obtain ⟨r, hr, hsign⟩ := h _ hnorm
  obtain ⟨-, -, hparts⟩ := returns_cases hr (compared hnorm heq)
  have hzero : r = 0 := (hsign hread.chars hnorm.chars).same (component_normalized a).symm
  have hsame := hparts.zero_iff.1 hzero
  rw [hnorm.read_eq, component_normalized, component_eq] at hsame
  exact ⟨hne, hread.chars, hread.bounded, padded_filter_iff.1 hsame⟩

/-! ## The order -/

theorem returns_swap {a b : Bytes} {r : ℤ} (hr : Returns a b r) : Returns b a (-r) := by
  by_cases hun : Uncompared a b
  · have hswap : Uncompared b a := hun.imp Eq.symm Or.symm
    obtain ⟨fuel, hr⟩ := hr
    rw [versionCompare, if_pos (show a = b ∨ a = [] ∨ b = [] from hun)] at hr
    obtain rfl := Except.ok.inj hr
    exact returns_of_uncompared hswap
  · have hswap : ¬ Uncompared b a := fun h => hun (h.imp Eq.symm Or.symm)
    obtain ⟨ha, hb, hsign⟩ := returns_cases hr hun
    obtain ⟨r', hr'⟩ := versionCompare_of_readable hb ha hswap
    obtain ⟨-, -, hsign'⟩ := returns_cases hr' hswap
    rwa [← hsign'.unique hsign.swap]

/-- The comparisons chain, but not at an empty string between two others. -/
theorem returns_trans {a b c : Bytes} {r r' : ℤ} (hb : b = [] → a = b ∨ b = c)
    (hab : Returns a b r) (hbc : Returns b c r') (hr : r ≤ 0) (hr' : r' ≤ 0) :
    ∃ r'' ≤ 0, Returns a c r'' := by
  by_cases hac : Uncompared a c
  · exact ⟨0, le_refl 0, returns_of_uncompared hac⟩
  obtain ⟨-, ha, hc⟩ : a ≠ c ∧ a ≠ [] ∧ c ≠ [] := by simpa [Uncompared] using hac
  by_cases hab' : a = b
  · exact ⟨r', hr', hab' ▸ hbc⟩
  by_cases hbc' : b = c
  · exact ⟨r, hr, hbc' ▸ hab⟩
  have hb : b ≠ [] := fun h => (hb h).elim hab' hbc'
  obtain ⟨hra, -, hsign⟩ := returns_cases hab (by simp [Uncompared, hab', ha, hb])
  obtain ⟨-, hrc, hsign'⟩ := returns_cases hbc (by simp [Uncompared, hbc', hb, hc])
  obtain ⟨r'', hr''⟩ := versionCompare_of_readable hra hrc hac
  obtain ⟨-, -, hsign''⟩ := returns_cases hr'' hac
  exact ⟨r'', hsign.trans hsign' hsign'' hr hr', hr''⟩

/-- **The comparison of versions.** It ends on equal strings, on empty ones and on two readable
ones. Between two regular versions, and between equal strings, it is the order of the components;
only a regular version is so ordered against all regular ones. Where it ends, its two directions
have opposite signs. Comparisons chain, but not at an empty string between two others, and so
between comparable strings they always do. -/
theorem version_compare_iff (a : Bytes) :
    (∀ b, (∃ r, Returns a b r) ↔ Uncompared a b ∨ (Readable a ∧ Readable b)) ∧
    (∀ b, Comparable a b → Agrees a b ∧ Agrees b a) ∧
    ((∀ b, Regular b → Agrees a b ∧ Agrees b a) ↔ Regular a) ∧
    (∀ b r, Returns a b r → Returns b a (-r)) ∧
    (∀ b c r r', (b = [] → a = b ∨ b = c) → Returns a b r → Returns b c r' → r ≤ 0 → r' ≤ 0 →
      ∃ r'' ≤ 0, Returns a c r'') ∧
    ∀ b c r r', Comparable a b → Comparable b c → Returns a b r → Returns b c r' →
      r ≤ 0 → r' ≤ 0 → ∃ r'' ≤ 0, Returns a c r'' := by
  refine ⟨returns_iff a, fun b h => ?_, ⟨fun h => ?_, fun ha b hb => ?_⟩,
    fun b r => returns_swap, fun b c r r' => returns_trans, fun b c r r' hab hbc => ?_⟩
  · exact ⟨agrees_of_comparable h, agrees_of_comparable (h.imp Eq.symm And.symm)⟩
  · exact regular_of_agrees fun b hb => (h b hb).1
  · exact ⟨agrees_regular ha hb, agrees_regular hb ha⟩
  · refine returns_trans fun hnil => ?_
    rcases hab with heq | ⟨-, hb⟩
    · exact .inl heq
    · exact absurd hnil hb.nonempty

/-- A letter in front stops the loop for good. -/
theorem letter_never_compared : ¬ ∃ r, Returns (ascii "v1") (ascii "1") r := by
  rintro ⟨r, fuel, h⟩
  rw [versionCompare, if_neg (by decide)] at h
  rw [show ascii "v1" = 0x76 :: ascii "1" from by decide, parts_stuck (by decide) (by decide)] at h
  cases h

end BambooNet.Agent
