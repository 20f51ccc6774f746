import BambooNet.Config.RewriteFirst

/-!
# Edits of one key

A fix changes lines of its own key and adds lines behind the others (`Edit`), so the values of the
other keys stay (`Edit.filterMap_eq`) and so do the lines that it has no reason to touch. Here are
the two ways to edit: `rewriteFirst` puts a value in place of another, `appendBlock` adds lines.
-/

namespace BambooNet.Config

open CString

/-! ## Lines and their ends -/

/-- The lines as the parser at run time reads them. -/
def bodies (es : List Bytes) : List Bytes := es.map (body newline)

variable {key : Bytes} {es : List Bytes}

theorem exists_body {l : Bytes} (h : Ended newline l ∨ newline ∉ l ∧ l ≠ []) :
    ∃ ws, Blank ws ∧ body newline l ++ ws = l := by
  rcases h with ⟨b, hb, rfl⟩ | ⟨hno, -⟩
  · refine ⟨[newline], List.forall_mem_singleton.2 (by decide), ?_⟩
    rw [body_concat hb]
  · exact ⟨[], List.forall_mem_nil _, by rw [body_of_notMem hno, List.append_nil]⟩

/-- What a scanner reads of `key` does not depend on the end of the line. -/
structure Reads (key : Bytes) (r : Bytes → Option Bytes) : Prop where
  keyOf : ∀ l v, r l = some v → keyOf l = some key
  append_blank : ∀ c ws, Blank ws → r (c ++ ws) = r c

theorem reads_parseBlockCloudLine : Reads (ascii "block_cloud") parseBlockCloudLine where
  keyOf _ _ h := keyOf_of_parseBlockCloudLine h
  append_blank c _ hws := parseBlockCloudLine_append_blank c hws

theorem reads_valueOf (hkey : IsKey key) : Reads key (valueOf key) where
  keyOf _ _ h := keyOf_of_valueOf hkey h
  append_blank c _ hws := valueOf_append_blank hkey c hws

variable {r : Bytes → Option Bytes}

theorem Reads.body (hr : Reads key r) {l : Bytes}
    (h : Ended newline l ∨ newline ∉ l ∧ l ≠ []) : r (body newline l) = r l := by
  obtain ⟨ws, hws, hl⟩ := exists_body h
  rw [← hr.append_blank _ ws hws, hl]

theorem keyOf_body {l : Bytes} (h : Ended newline l ∨ newline ∉ l ∧ l ≠ []) :
    Config.keyOf (body newline l) = Config.keyOf l := by
  obtain ⟨ws, hws, hl⟩ := exists_body h
  rw [← keyOf_append_blank _ hws, hl]

theorem Reads.filterMap_bodies (hr : Reads key r) (h : Pieces newline es) :
    (bodies es).filterMap r = es.filterMap r := by
  rw [bodies, List.filterMap_map]
  apply List.filterMap_congr
  intro l hl
  exact hr.body (h.ended_or l hl)

/-! ## Edits -/

def fixKeys : List Bytes := [ascii "block_cloud", ascii "log_to_file", ascii "client_name"]

/-- `ls'` is `ls` but for lines of `key`, and with more lines behind it. -/
def Edit (key : Bytes) (ls ls' : List Bytes) : Prop :=
  ∃ kept extra, ls' = kept ++ extra ∧
    List.Forall₂ (fun l l' => l' = l ∨ keyOf l = some key ∧ keyOf l' = some key) ls kept ∧
    ∀ l ∈ extra, ∀ k ∈ fixKeys, keyOf l = some k → k = key

namespace Edit

variable {other : Bytes} {ls ls' : List Bytes}

theorem read_eq (hr : Reads other r) (hne : other ≠ key) {l l' : Bytes}
    (h : l' = l ∨ keyOf l = some key ∧ keyOf l' = some key) : r l' = r l := by
  rcases h with rfl | ⟨hl, hl'⟩
  · rfl
  · have hnone {x : Bytes} (hx : keyOf x = some key) : r x = none := by
      cases hval : r x with
      | none => rfl
      | some v =>
        have := hr.keyOf x v hval
        rw [hx] at this
        exact absurd (Option.some.inj this).symm hne
    rw [hnone hl, hnone hl']

/-- Line by line, the other keys are read as before. -/
theorem getElem?_read (h : Edit key ls ls') (hr : Reads other r) (hne : other ≠ key) {i : ℕ}
    {l : Bytes} (hl : ls[i]? = some l) : ∃ l', ls'[i]? = some l' ∧ r l' = r l := by
  obtain ⟨kept, extra, rfl, hkept, -⟩ := h
  induction hkept generalizing i with
  | nil => simp at hl
  | cons hhead _ ih =>
    cases i with
    | zero =>
      obtain rfl := Option.some.inj hl
      exact ⟨_, rfl, read_eq hr hne hhead⟩
    | succ i => exact ih hl

/-- So are their values. -/
theorem filterMap_eq (h : Edit key ls ls') (hr : Reads other r) (hne : other ≠ key)
    (hmem : other ∈ fixKeys) : ls'.filterMap r = ls.filterMap r := by
  obtain ⟨kept, extra, rfl, hkept, hextra⟩ := h
  have hnone : extra.filterMap r = [] := by
    rw [List.filterMap_eq_nil_iff]
    intro l hl
    cases hval : r l with
    | none => rfl
    | some v => exact absurd (hextra l hl other hmem (hr.keyOf l v hval)) hne
  rw [List.filterMap_append, hnone, List.append_nil]
  clear hextra hnone
  induction hkept with
  | nil => rfl
  | cons hhead _ ih => rw [List.filterMap_cons, List.filterMap_cons, read_eq hr hne hhead, ih]

theorem refl (key : Bytes) (ls : List Bytes) : Edit key ls ls :=
  ⟨ls, [], (List.append_nil ls).symm, List.forall₂_same.2 fun _ _ => .inl rfl,
    List.forall_mem_nil _⟩

/-- One line of the key is another. -/
theorem one {l l' : Bytes} (hl : Config.keyOf l = some key) (hl' : Config.keyOf l' = some key)
    (a b : List Bytes) : Edit key (a ++ l :: b) (a ++ l' :: b) := by
  refine ⟨a ++ l' :: b, [], (List.append_nil _).symm, ?_, List.forall_mem_nil _⟩
  exact List.rel_append (List.forall₂_same.2 fun _ _ => .inl rfl)
    (.cons (.inr ⟨hl, hl'⟩) (List.forall₂_same.2 fun _ _ => .inl rfl))

/-- Lines behind the others. -/
theorem behind {extra : List Bytes}
    (h : ∀ l ∈ extra, ∀ k ∈ fixKeys, Config.keyOf l = some k → k = key) (ls : List Bytes) :
    Edit key ls (ls ++ extra) :=
  ⟨ls, extra, rfl, List.forall₂_same.2 fun _ _ => .inl rfl, h⟩

end Edit

/-! ## The first line of a key -/

/-- Line `i` is the first with a value for `key`, and `f` has another for it. -/
def FirstTarget (key : Bytes) (f : Bytes → Option Bytes) (ls : List Bytes) (i : ℕ) : Prop :=
  ∃ l v, ls[i]? = some l ∧ valueOf key l = some v ∧ f v ≠ none ∧
    ∀ j < i, ∀ x, ls[j]? = some x → valueOf key x = none

/-- An edit of another key makes no line a target that was none. -/
theorem FirstTarget.of_edit {other : Bytes} {f : Bytes → Option Bytes} {ls ls' : List Bytes}
    (hkey : IsKey key) (hedit : Edit other ls ls') (hne : key ≠ other) {i : ℕ} {l : Bytes}
    (hl : ls[i]? = some l) (h : FirstTarget key f ls' i) : FirstTarget key f ls i := by
  have hread := reads_valueOf hkey
  obtain ⟨l', v, hl', hv, hf, hbefore⟩ := h
  obtain ⟨x, hx, heq⟩ := hedit.getElem?_read hread hne hl
  rw [hl'] at hx
  obtain rfl := Option.some.inj hx
  refine ⟨l, v, hl, heq ▸ hv, hf, ?_⟩
  intro j hj y hy
  obtain ⟨z, hz, heq'⟩ := hedit.getElem?_read hread hne hy
  exact heq' ▸ hbefore j hj z hz

/-- What `f` gives is a value. -/
def Valid (f : Bytes → Option Bytes) : Prop :=
  ∀ v w, f v = some w → w ≠ [] ∧ ∀ x ∈ w, valueChar x = true

theorem newline_notMem_of_valueChar {w : Bytes} (hw : ∀ x ∈ w, valueChar x = true) :
    newline ∉ w := by
  intro hmem
  have := hw _ hmem
  revert this
  decide

theorem bodies_split (a : List Bytes) (l : Bytes) (b : List Bytes) :
    bodies (a ++ l :: b) = bodies a ++ body newline l :: bodies b := by
  rw [bodies, List.map_append, List.map_cons, bodies, bodies]

/-- The scan edits its key, and no line but the first that `f` has a value for. -/
structure Rewritten (key : Bytes) (f : Bytes → Option Bytes) (es es' : List Bytes) : Prop where
  pieces : Pieces newline es'
  edit : Edit key (bodies es) (bodies es')
  kept : ∀ i l, (bodies es)[i]? = some l → ¬ FirstTarget key f (bodies es) i →
    (bodies es')[i]? = some l
  /-- The first value is one that `f` leaves or gives. -/
  head : ∃ v, (es'.filterMap (valueOf key)).head? = some v ∧ (f v = none ∨ ∃ u, f u = some v)

theorem head?_filterMap_split {a b : List Bytes} {l v : Bytes}
    (ha : ∀ x ∈ a, valueOf key x = none) (hl : valueOf key l = some v) :
    ((a ++ l :: b).filterMap (valueOf key)).head? = some v := by
  rw [List.filterMap_append, List.filterMap_eq_nil_iff.2 ha, List.filterMap_cons, hl]
  rfl

theorem getElem?_split_ne {α : Type*} (a b : List α) (x x' : α) {i : ℕ} (hi : i ≠ a.length) :
    (a ++ x' :: b)[i]? = (a ++ x :: b)[i]? := by
  rcases Nat.lt_or_gt_of_ne hi with hlt | hgt
  · rw [List.getElem?_append_left hlt, List.getElem?_append_left hlt]
  · obtain ⟨n, hn⟩ := Nat.exists_eq_add_of_lt hgt
    subst hn
    rw [List.getElem?_append_right (by omega), List.getElem?_append_right (by omega),
      (by omega : a.length + n + 1 - a.length = n + 1)]
    rfl

/-- One line replaced, the first of its key. -/
theorem rewritten_one (hkey : IsKey key) {f : Bytes → Option Bytes} {a b : List Bytes}
    {l l' v w : Bytes} (hw : w ≠ []) (hchar : ∀ x ∈ w, valueChar x = true)
    (h : Pieces newline (a ++ l :: b)) (ha : ∀ x ∈ a, valueOf key x = none)
    (hl : valueOf key l = some v) (hfv : f v = some w) (hrep : Replaced key w l l') :
    Rewritten key f (a ++ l :: b) (a ++ l' :: b) := by
  have hread := reads_valueOf hkey
  have hno := newline_notMem_of_valueChar hchar
  have hpiece := h.ended_or l (List.mem_append_right _ List.mem_cons_self)
  have hpiece' : Ended newline l' ∨ newline ∉ l' ∧ l' ≠ [] :=
    hpiece.imp (hrep.ended hno) fun hl => hrep.newline_notMem hno hl.1
  have hl' : valueOf key l' = some w := hrep.valueOf_eq hkey hw hchar
  refine ⟨?_, ?_, ?_, ?_⟩
  · apply h.replace
    refine List.rel_append (List.forall₂_same.2 fun x _ => ⟨id, .inr⟩)
      (.cons ⟨hrep.ended hno, fun hl => .inr (hrep.newline_notMem hno hl.1)⟩
        (List.forall₂_same.2 fun x _ => ⟨id, .inr⟩))
  · rw [bodies_split, bodies_split]
    apply Edit.one
    · rw [keyOf_body hpiece, keyOf_of_valueOf hkey hl]
    · rw [keyOf_body hpiece', keyOf_of_valueOf hkey hl']
  · intro i x hx htarget
    rw [bodies_split] at hx htarget ⊢
    by_cases hi : i = (bodies a).length
    · subst hi
      refine absurd ⟨body newline l, v, ?_, ?_, ?_, ?_⟩ htarget
      · rw [List.getElem?_append_right le_rfl, Nat.sub_self]
        rfl
      · rw [hread.body hpiece, hl]
      · rw [hfv]
        exact Option.some_ne_none w
      · intro j hj y hy
        rw [List.getElem?_append_left hj] at hy
        obtain ⟨z, hz, rfl⟩ := List.mem_map.1 (List.mem_of_getElem? hy)
        rw [hread.body (h.ended_or z (List.mem_append_left _ hz)), ha z hz]
    · rw [getElem?_split_ne _ _ (body newline l) _ hi, hx]
  · exact ⟨w, head?_filterMap_split ha hl', .inr ⟨v, hfv⟩⟩

theorem rewritten (hkey : IsKey key) {f : Bytes → Option Bytes} (hf : Valid f)
    (h : Pieces newline es) {es' : List Bytes} {b : Bool}
    (hrw : rewriteFirst key f es = some (es', b)) : Rewritten key f es es' := by
  rcases rewriteFirst_cases hkey f es with ⟨-, hnone⟩ | ⟨a, l, c, v, rfl, ha, hl, hcase⟩
  · rw [hrw] at hnone
    cases hnone
  · rcases hcase with ⟨hfv, hsome⟩ | ⟨w, l', hfv, hrep, hsome⟩
    · rw [hrw] at hsome
      cases hsome
      exact ⟨h, Edit.refl _ _, fun _ _ hi _ => hi, v, head?_filterMap_split ha hl, .inl hfv⟩
    · rw [hrw] at hsome
      cases hsome
      exact rewritten_one hkey (hf v w hfv).1 (hf v w hfv).2 h ha hl hfv hrep

/-! ## A block behind the lines -/

/-- A line with an end. -/
def closed (last : Bytes) : Bytes :=
  if last.getLast? = some newline then last else last ++ [newline]

theorem appendBlock_concat (base : List Bytes) (last block : Bytes) :
    appendBlock (base ++ [last]) block =
      base ++ [closed last] ++ (if stripEol (closed last) = [] then [] else [[newline]]) ++
        [block] := by
  rw [appendBlock, List.getLast?_concat, List.dropLast_concat]
  rfl

theorem ended_closed {last : Bytes} (h : Ended newline last ∨ newline ∉ last ∧ last ≠ []) :
    Ended newline (closed last) ∧ body newline (closed last) = body newline last := by
  rcases h with ⟨b, hb, rfl⟩ | ⟨hno, -⟩
  · rw [closed, if_pos List.getLast?_concat]
    exact ⟨⟨b, hb, rfl⟩, rfl⟩
  · have hlast : last.getLast? ≠ some newline := fun h => hno (List.mem_of_getLast? h)
    rw [closed, if_neg hlast, body_concat hno, body_of_notMem hno]
    exact ⟨⟨last, hno, rfl⟩, rfl⟩

/-- The block comes behind the lines that were there and at most an empty one. -/
theorem appendBlock_eq (h : Pieces newline es) (block : Bytes) :
    ∃ init gap, (∀ l ∈ init, Ended newline l) ∧ (∀ l ∈ gap, l = []) ∧
      bodies init = bodies es ++ gap ∧ appendBlock es block = init ++ [block] := by
  cases es using List.reverseRecOn with
  | nil => exact ⟨[], [], List.forall_mem_nil _, List.forall_mem_nil _, rfl, rfl⟩
  | append_singleton base last _ =>
    obtain ⟨hbase, hlast⟩ := h.ended_of_append
    obtain ⟨hend, hbody⟩ := ended_closed hlast
    have hinit : ∀ l ∈ base ++ [closed last], Ended newline l := by
      rw [List.forall_mem_append, List.forall_mem_singleton]
      exact ⟨hbase, hend⟩
    have hbodies : bodies (base ++ [closed last]) = bodies (base ++ [last]) := by
      rw [bodies, List.map_append, List.map_singleton, hbody, bodies, List.map_append,
        List.map_singleton]
    rw [appendBlock_concat]
    split
    · refine ⟨base ++ [closed last], [], hinit, List.forall_mem_nil _, ?_, ?_⟩
      · rw [hbodies, List.append_nil]
      · rw [List.append_nil]
    · refine ⟨base ++ [closed last] ++ [[newline]], [[]], ?_, ?_, ?_, rfl⟩
      · rw [List.forall_mem_append, List.forall_mem_singleton]
        exact ⟨hinit, [], List.not_mem_nil, rfl⟩
      · exact List.forall_mem_singleton.2 rfl
      · rw [← hbodies, bodies, List.map_append, bodies]
        rfl

/-- The lines afterwards: those that were there, at most an empty one, and the block. -/
theorem bodies_appendBlock (h : Pieces newline es) (block : Bytes) :
    ∃ init extra, appendBlock es block = init ++ [block] ∧ (∀ l ∈ init, Ended newline l) ∧
      bodies (init ++ keepEnds newline block) = bodies es ++ extra ∧
      ∃ gap, extra = gap ++ splitLines newline block ∧ ∀ l ∈ gap, l = [] := by
  obtain ⟨init, gap, hinit, hgap, hbodies, happend⟩ := appendBlock_eq h block
  refine ⟨init, gap ++ splitLines newline block, happend, hinit, ?_, gap, rfl, hgap⟩
  rw [bodies, List.map_append, ← splitLines_eq_map, ← bodies, hbodies, List.append_assoc]

/-- Appending is an edit, when the lines of the block have no other key. -/
theorem edit_appendBlock {gap : List Bytes} (hgap : ∀ l ∈ gap, l = []) {block : Bytes}
    (hblock : ∀ l ∈ splitLines newline block, ∀ k ∈ fixKeys, keyOf l = some k → k = key)
    (ls : List Bytes) : Edit key ls (ls ++ (gap ++ splitLines newline block)) := by
  apply Edit.behind
  rw [List.forall_mem_append]
  refine ⟨?_, hblock⟩
  intro l hl k _ hk
  rw [hgap l hl] at hk
  cases hk

theorem getElem?_kept {ls extra : List Bytes} {i : ℕ} {l : Bytes} (h : ls[i]? = some l) :
    (ls ++ extra)[i]? = some l := by
  rw [List.getElem?_append_left (List.getElem?_eq_some_iff.1 h).1, h]

theorem filterMap_gap (hr : r [] = none) {gap : List Bytes} (hgap : ∀ l ∈ gap, l = [])
    (ls block : List Bytes) :
    (ls ++ (gap ++ block)).filterMap r = ls.filterMap r ++ block.filterMap r := by
  have hnone : gap.filterMap r = [] := by
    rw [List.filterMap_eq_nil_iff]
    intro l hl
    rw [hgap l hl, hr]
  rw [List.filterMap_append, List.filterMap_append, hnone, List.nil_append]

end BambooNet.Config
