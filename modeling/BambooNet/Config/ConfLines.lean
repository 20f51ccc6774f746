import BambooNet.Config.EnsureFixes

/-!
# What the scanners see in a line

Both scanners of the fixes and the parser at run time find the same key in a line, the text before
its first `=` without the spaces around it (`keyOf`), and they ignore how the line ends. They differ
on the value: `token` is its first word, the parser takes it all. Where the parser reads a true
value, that is one word, so the fix sees the same (`blockCloudOf_truthy`).
-/

namespace BambooNet.Config

open CString

/-! ## Keys -/

/-- The keys that the scanners look for. -/
structure IsKey (key : Bytes) : Prop where
  word : Word key
  no_equals : 0x3d ∉ key
  no_comment : key.head? ≠ some 0x23

/-- The key of a line. -/
def keyOf (line : Bytes) : Option Bytes := (cutAt 0x3d line).map fun e => trim e.1

variable {key c line : Bytes}

theorem notMem_equals_of_blank {s : Bytes} (h : Blank s) : (0x3d : UInt8) ∉ s := by
  intro hmem
  have := h _ hmem
  revert this
  decide

theorem afterKey_of_cutAt (hkey : IsKey key) {k d : Bytes} (hcut : cutAt 0x3d c = some (k, d))
    (hk : trim k = key) : afterKey key c = some (d.dropWhile isSpace) := by
  obtain ⟨rfl, -⟩ := cutAt_eq_some_iff.1 hcut
  obtain ⟨pre, post, hpre, hpost, heq⟩ := exists_trim k
  rw [hk] at heq
  subst heq
  have hstart : (pre ++ key ++ post ++ 0x3d :: d).dropWhile isSpace =
      key ++ (post ++ 0x3d :: d) := by
    rw [List.append_assoc, List.append_assoc, List.dropWhile_append_of_pos hpre, hkey.word.head]
  have hne : ¬ (key ++ (post ++ 0x3d :: d) = [] ∨
      (key ++ (post ++ 0x3d :: d)).head? = some 0x23) := by
    rintro (h | h)
    · exact hkey.word.ne_nil (List.append_eq_nil_iff.1 h).1
    · cases hk : key with
      | nil => exact hkey.word.ne_nil hk
      | cons x xs =>
        rw [hk] at h
        exact hkey.no_comment (by rw [hk]; exact h)
  unfold afterKey
  rw [hstart, if_neg hne, if_pos (List.prefix_append _ _), List.drop_left,
    List.dropWhile_append_of_pos hpost, List.dropWhile_cons_of_neg (by decide)]
  rfl

theorem cutAt_of_afterKey (hkey : IsKey key) {s : Bytes} (h : afterKey key c = some s) :
    ∃ k d, cutAt 0x3d c = some (k, d) ∧ trim k = key := by
  unfold afterKey at h
  dsimp only at h
  split_ifs at h with hne hprefix
  obtain ⟨u, hu⟩ := hprefix
  rw [← hu, List.drop_left] at h
  cases hrest : u.dropWhile isSpace with
  | nil =>
    rw [hrest] at h
    cases h
  | cons x v =>
    rw [hrest] at h
    dsimp only at h
    split_ifs at h with hx
    subst hx
    -- the spaces before and behind the key
    have hpre : Blank (c.takeWhile isSpace) := fun _ hm => List.mem_takeWhile_imp hm
    have hpost : Blank (u.takeWhile isSpace) := fun _ hm => List.mem_takeWhile_imp hm
    refine ⟨c.takeWhile isSpace ++ key ++ u.takeWhile isSpace, v,
      cutAt_eq_some_iff.2 ⟨?_, ?_⟩, trim_pad hpre hkey.word hpost⟩
    · rw [List.append_assoc, List.append_assoc, ← hrest, List.takeWhile_append_dropWhile, hu,
        List.takeWhile_append_dropWhile]
    · rw [List.mem_append, List.mem_append, not_or, not_or]
      exact ⟨⟨notMem_equals_of_blank hpre, hkey.no_equals⟩, notMem_equals_of_blank hpost⟩

/-- The scan finds `key =` where the first `=` has the key before it. -/
theorem afterKey_eq_some_iff (hkey : IsKey key) {s : Bytes} :
    afterKey key c = some s ↔
      ∃ k d, cutAt 0x3d c = some (k, d) ∧ trim k = key ∧ d.dropWhile isSpace = s := by
  constructor
  · intro h
    obtain ⟨k, d, hcut, hk⟩ := cutAt_of_afterKey hkey h
    rw [afterKey_of_cutAt hkey hcut hk] at h
    exact ⟨k, d, hcut, hk, Option.some.inj h⟩
  · rintro ⟨k, d, hcut, hk, rfl⟩
    exact afterKey_of_cutAt hkey hcut hk

theorem isKey_blockCloud : IsKey (ascii "block_cloud") :=
  ⟨⟨by decide, List.all_iff_forall_prop.1 (by decide)⟩, by decide, by decide⟩

theorem isKey_logToFile : IsKey (ascii "log_to_file") :=
  ⟨⟨by decide, List.all_iff_forall_prop.1 (by decide)⟩, by decide, by decide⟩

theorem isKey_clientName : IsKey (ascii "client_name") :=
  ⟨⟨by decide, List.all_iff_forall_prop.1 (by decide)⟩, by decide, by decide⟩

/-! ## Values -/

/-- The first word behind the `=`, as far as `p` holds. -/
def token (p : UInt8 → Bool) (d : Bytes) : Bytes := (d.dropWhile isSpace).takeWhile p

def valueChar (c : UInt8) : Bool := !isSpace c && c != 0x23

theorem not_space_of_valueChar (c : UInt8) (h : isSpace c = true) : valueChar c = false := by
  rw [valueChar, h]
  rfl

theorem parseBlockCloudLine_eq_some_iff {v : Bytes} :
    parseBlockCloudLine c = some v ↔ ∃ k d, cutAt 0x3d c = some (k, d) ∧
      trim k = ascii "block_cloud" ∧ token (!isSpace ·) d = v ∧ v ≠ [] := by
  unfold parseBlockCloudLine
  constructor
  · intro h
    cases hafter : afterKey (ascii "block_cloud") c with
    | none =>
      rw [hafter] at h
      cases h
    | some s =>
      rw [hafter] at h
      dsimp only at h
      split_ifs at h with hv
      obtain ⟨k, d, hcut, hk, rfl⟩ := (afterKey_eq_some_iff isKey_blockCloud).1 hafter
      obtain rfl := Option.some.inj h
      exact ⟨k, d, hcut, hk, rfl, hv⟩
  · rintro ⟨k, d, hcut, hk, rfl, hv⟩
    rw [afterKey_of_cutAt isKey_blockCloud hcut hk]
    exact if_neg hv

theorem findKeyValue_eq_some_iff (hkey : IsKey key) {i j : ℕ} :
    findKeyValue c key = some (i, j) ↔ ∃ k d, cutAt 0x3d c = some (k, d) ∧ trim k = key ∧
      k.length + 1 + (d.takeWhile isSpace).length = i ∧ i + (token valueChar d).length = j ∧
      token valueChar d ≠ [] := by
  -- where the value starts
  have hstart {k d : Bytes} (hcut : cutAt 0x3d c = some (k, d)) :
      c.length - (d.dropWhile isSpace).length = k.length + 1 + (d.takeWhile isSpace).length := by
    have hc : c.length = k.length + (d.length + 1) := by
      rw [(cutAt_eq_some_iff.1 hcut).1, List.length_append, List.length_cons]
    have hd : (d.takeWhile isSpace).length + (d.dropWhile isSpace).length = d.length := by
      rw [← List.length_append, List.takeWhile_append_dropWhile]
    omega
  have hpos {v : Bytes} {n : ℕ} : n < n + v.length ↔ v ≠ [] := by
    rw [← List.length_pos_iff]
    omega
  unfold findKeyValue
  constructor
  · intro h
    cases hafter : afterKey key c with
    | none =>
      rw [hafter] at h
      cases h
    | some s =>
      rw [hafter] at h
      dsimp only at h
      split_ifs at h with hv
      obtain ⟨k, d, hcut, hk, rfl⟩ := (afterKey_eq_some_iff hkey).1 hafter
      obtain ⟨rfl, rfl⟩ := Prod.mk.inj (Option.some.inj h)
      exact ⟨k, d, hcut, hk, (hstart hcut).symm, rfl, hpos.1 hv⟩
  · rintro ⟨k, d, hcut, hk, rfl, rfl, hv⟩
    rw [afterKey_of_cutAt hkey hcut hk]
    dsimp only
    rw [hstart hcut]
    exact if_pos (hpos.2 hv)

theorem keyOf_of_parseBlockCloudLine {v : Bytes} (h : parseBlockCloudLine c = some v) :
    keyOf c = some (ascii "block_cloud") := by
  obtain ⟨k, d, hcut, hk, -⟩ := parseBlockCloudLine_eq_some_iff.1 h
  rw [keyOf, hcut, Option.map_some, hk]

theorem keyOf_of_findKeyValue (hkey : IsKey key) {e : ℕ × ℕ} (h : findKeyValue c key = some e) :
    keyOf c = some key := by
  obtain ⟨k, d, hcut, hk, -⟩ := (findKeyValue_eq_some_iff hkey).1 h
  rw [keyOf, hcut, Option.map_some, hk]

/-! ## The end of a line -/

theorem token_append_blank {p : UInt8 → Bool} (hp : ∀ c, isSpace c = true → p c = false)
    (d : Bytes) {ws : Bytes} (hws : Blank ws) : token p (d ++ ws) = token p d := by
  have hend : ws.takeWhile p = [] := by
    cases ws with
    | nil => rfl
    | cons x ws =>
      rw [List.takeWhile_cons_of_neg]
      rw [hp x (hws x List.mem_cons_self)]
      decide
  unfold token
  rw [List.dropWhile_append]
  split
  · next h =>
    rw [List.isEmpty_iff] at h
    rw [List.dropWhile_eq_nil_iff.2 hws, h]
  · rw [List.takeWhile_append, hend]
    split
    · next h =>
      rw [List.append_nil]
      exact ((List.takeWhile_prefix p).eq_of_length h).symm
    · rfl

theorem cutAt_append_blank (c : Bytes) {ws : Bytes} (hws : Blank ws) :
    cutAt 0x3d (c ++ ws) = (cutAt 0x3d c).map fun e => (e.1, e.2 ++ ws) := by
  cases hcut : cutAt 0x3d c with
  | none =>
    rw [Option.map_none, cutAt_eq_none_iff, List.mem_append, not_or]
    exact ⟨cutAt_eq_none_iff.1 hcut, notMem_equals_of_blank hws⟩
  | some e =>
    obtain ⟨k, d⟩ := e
    obtain ⟨rfl, hk⟩ := cutAt_eq_some_iff.1 hcut
    rw [Option.map_some, cutAt_eq_some_iff]
    exact ⟨by rw [List.append_assoc, List.cons_append], hk⟩

theorem keyOf_append_blank (c : Bytes) {ws : Bytes} (hws : Blank ws) :
    keyOf (c ++ ws) = keyOf c := by
  rw [keyOf, cutAt_append_blank c hws, keyOf, Option.map_map]
  rfl

theorem parseBlockCloudLine_append_blank (c : Bytes) {ws : Bytes} (hws : Blank ws) :
    parseBlockCloudLine (c ++ ws) = parseBlockCloudLine c := by
  have hspace (x : UInt8) (hx : isSpace x = true) : (!isSpace x) = false := by rw [hx]; rfl
  apply Option.ext
  intro v
  rw [parseBlockCloudLine_eq_some_iff, parseBlockCloudLine_eq_some_iff, cutAt_append_blank c hws]
  cases cutAt 0x3d c with
  | none => simp
  | some e =>
    obtain ⟨k, d⟩ := e
    simp [token_append_blank hspace d hws]

theorem findKeyValue_append_blank (hkey : IsKey key) (c : Bytes) {ws : Bytes} (hws : Blank ws) :
    findKeyValue (c ++ ws) key = findKeyValue c key := by
  apply Option.ext
  rintro ⟨i, j⟩
  rw [findKeyValue_eq_some_iff hkey, findKeyValue_eq_some_iff hkey, cutAt_append_blank c hws]
  cases cutAt 0x3d c with
  | none => simp
  | some e =>
    obtain ⟨k, d⟩ := e
    -- where there is a value, the spaces before it end within the line
    have hlead (hv : token valueChar d ≠ []) :
        (d ++ ws).takeWhile isSpace = d.takeWhile isSpace := by
      rw [List.takeWhile_append, if_neg]
      intro hlen
      have hself := (List.takeWhile_prefix isSpace).eq_of_length hlen
      have hnone := List.dropWhile_eq_nil_iff.2 (List.takeWhile_eq_self_iff.1 hself)
      exact hv (by rw [token, hnone, List.takeWhile_nil])
    have htoken := token_append_blank not_space_of_valueChar d hws
    constructor
    · rintro ⟨k', d', heq, hk, hi, hj, hv⟩
      cases heq
      rw [htoken] at hj hv
      rw [hlead hv] at hi
      exact ⟨k, d, rfl, hk, hi, hj, hv⟩
    · rintro ⟨k', d', heq, hk, hi, hj, hv⟩
      cases heq
      refine ⟨k, d ++ ws, rfl, hk, ?_, ?_, ?_⟩
      · rw [hlead hv]
        exact hi
      · rw [htoken]
        exact hj
      · rw [htoken]
        exact hv

theorem isSpace_of_isEol : ∀ c, isEol c = true → isSpace c = true := by
  intro c h
  rw [isEol, Bool.or_eq_true, beq_iff_eq, beq_iff_eq] at h
  rcases h with rfl | rfl
  · rfl
  · rfl

theorem exists_stripEol (line : Bytes) : ∃ ws, Blank ws ∧ stripEol line ++ ws = line :=
  ⟨line.rtakeWhile isEol, fun c hc => isSpace_of_isEol c (List.mem_rtakeWhile_imp hc),
    List.rdropWhile_append_rtakeWhile⟩

@[simp] theorem parseBlockCloudLine_stripEol (line : Bytes) :
    parseBlockCloudLine (stripEol line) = parseBlockCloudLine line := by
  obtain ⟨ws, hws, hline⟩ := exists_stripEol line
  rw [← parseBlockCloudLine_append_blank _ hws, hline]

theorem findKeyValue_stripEol (hkey : IsKey key) (line : Bytes) :
    findKeyValue (stripEol line) key = findKeyValue line key := by
  obtain ⟨ws, hws, hline⟩ := exists_stripEol line
  rw [← findKeyValue_append_blank hkey _ hws, hline]

/-! ## The value at run time -/

theorem ne_comment_of_trim {k : Bytes} (h : trim k = ascii "block_cloud") :
    k.head? ≠ some 0x23 := by
  cases k with
  | nil =>
    intro h
    cases h
  | cons x k =>
    intro hx
    obtain rfl := Option.some.inj hx
    have hprefix : ascii "block_cloud" <+: 0x23 :: k := by
      rw [← h, trim, List.dropWhile_cons_of_neg (by decide)]
      exact List.rdropWhile_prefix isSpace _
    exact absurd (List.cons_prefix_cons.1 hprefix).1 (by decide)

theorem parseLine_of_cutAt {k d : Bytes} (hcut : cutAt 0x3d line = some (k, d))
    (hk : trim k = ascii "block_cloud") :
    parseLine line = some (ascii "block_cloud", trim d) := by
  have hne : k ≠ [] := by
    rintro rfl
    revert hk
    decide
  have hhead : line.head? ≠ some 0x23 := by
    rw [(cutAt_eq_some_iff.1 hcut).1, List.head?_append_of_ne_nil _ hne]
    exact ne_comment_of_trim hk
  rw [parseLine, if_neg hhead, hcut]
  dsimp only
  rw [if_neg hne, hk, if_neg (by decide)]

theorem cutAt_of_parseLine {val : Bytes} (h : parseLine line = some (key, val)) :
    ∃ k d, cutAt 0x3d line = some (k, d) ∧ trim k = key ∧ trim d = val := by
  unfold parseLine at h
  split_ifs at h
  cases hcut : cutAt 0x3d line with
  | none =>
    rw [hcut] at h
    cases h
  | some e =>
    obtain ⟨k, d⟩ := e
    rw [hcut] at h
    dsimp only at h
    split_ifs at h
    obtain ⟨hk, hd⟩ := Prod.mk.inj (Option.some.inj h)
    exact ⟨k, d, rfl, hk, hd⟩

theorem blockCloudOf_eq_some_iff {val : Bytes} :
    blockCloudOf line = some val ↔ ∃ k d, cutAt 0x3d line = some (k, d) ∧
      trim k = ascii "block_cloud" ∧ trim d = val := by
  unfold blockCloudOf
  constructor
  · intro h
    cases hparse : parseLine line with
    | none =>
      rw [hparse] at h
      cases h
    | some e =>
      obtain ⟨key, v⟩ := e
      rw [hparse] at h
      dsimp only at h
      split_ifs at h with hkey
      subst hkey
      obtain rfl := Option.some.inj h
      exact cutAt_of_parseLine hparse
  · rintro ⟨k, d, hcut, hk, rfl⟩
    rw [parseLine_of_cutAt hcut hk]
    exact if_pos rfl

theorem isSpace_lower (c : UInt8) :
    isSpace (if 0x41 ≤ c ∧ c ≤ 0x5a then c + 0x20 else c) = isSpace c := by
  refine forall_byte (p := fun c => isSpace (if 0x41 ≤ c ∧ c ≤ 0x5a then c + 0x20 else c) =
    isSpace c) ?_ c
  decide +kernel

theorem word_of_lower {val : Bytes} (h : Word (lower val)) : Word val := by
  refine ⟨?_, ?_⟩
  · rintro rfl
    exact h.ne_nil rfl
  · intro c hc
    have := h.not_isSpace _ (List.mem_map_of_mem hc)
    rwa [isSpace_lower] at this

theorem word_of_truthy {val : Bytes} (h : truthy val false = true) : Word val := by
  unfold truthy at h
  dsimp only at h
  split_ifs at h with htrue
  apply word_of_lower
  rcases htrue with hval | hval | hval
  all_goals
    rw [hval]
    exact ⟨by decide, List.all_iff_forall_prop.1 (by decide)⟩

/-- A true value that the parser reads is one that the fix finds. -/
theorem blockCloudOf_truthy {val : Bytes} (h : blockCloudOf line = some val)
    (htrue : truthy val false = true) : parseBlockCloudLine line = some val := by
  obtain ⟨k, d, hcut, hk, rfl⟩ := blockCloudOf_eq_some_iff.1 h
  have hword := word_of_truthy htrue
  exact parseBlockCloudLine_eq_some_iff.2
    ⟨k, d, hcut, hk, takeWhile_of_trim hword, hword.ne_nil⟩

/-- Where the fix finds a value, the parser reads one. -/
theorem blockCloudOf_ne_none {v : Bytes} (h : parseBlockCloudLine line = some v) :
    blockCloudOf line ≠ none := by
  obtain ⟨k, d, hcut, hk, -⟩ := parseBlockCloudLine_eq_some_iff.1 h
  rw [blockCloudOf_eq_some_iff.2 ⟨k, d, hcut, hk, rfl⟩]
  exact Option.some_ne_none _

end BambooNet.Config
