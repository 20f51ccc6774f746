import Mathlib.Order.Lattice
import Mathlib.Data.List.Basic
import Mathlib.Data.Nat.Basic
import Mathlib.Data.List.Perm.Subperm

/-!
# Maps sorted by key

An ordered container with unique keys, as a list of entries in increasing key order. The order
is a field of the structure, so that a map out of order cannot be built. The operations are
described by what a lookup returns afterwards (`get?_insert`, `get?_erase`, `get?_filterMap`).
-/

namespace BambooNet

variable {K V W : Type*} [LinearOrder K]

/-! ## Entry lists -/

namespace Entries

/-- Increasing keys. -/
def Sorted (l : List (K × V)) : Prop := l.Pairwise fun a b => a.1 < b.1

/-- The value stored under a key. -/
@[grind =] def get? (k : K) : List (K × V) → Option V
  | [] => none
  | (k', v) :: l => if k = k' then some v else get? k l

/-- Insert in key order, replacing the value of a key that is there. -/
@[grind =] def insert (k : K) (v : V) : List (K × V) → List (K × V)
  | [] => [(k, v)]
  | (k', v') :: l =>
    if k < k' then (k, v) :: (k', v') :: l
    else if k = k' then (k, v) :: l
    else (k', v') :: insert k v l

theorem mem_insert {k : K} {v : V} {l : List (K × V)} {e : K × V} (h : e ∈ insert k v l) :
    e = (k, v) ∨ e ∈ l := by
  induction l with
  | nil => simpa [insert] using h
  | cons a l ih =>
    obtain ⟨k', v'⟩ := a
    simp only [insert] at h
    split at h
    · simpa using h
    · split at h
      · rcases List.mem_cons.1 h with h | h
        · exact .inl h
        · exact .inr (List.mem_cons_of_mem _ h)
      · rcases List.mem_cons.1 h with h | h
        · exact .inr (h ▸ List.mem_cons_self)
        · exact (ih h).imp_right (List.mem_cons_of_mem _)

theorem Sorted.insert {l : List (K × V)} (h : Sorted l) (k : K) (v : V) :
    Sorted (insert k v l) := by
  induction l with
  | nil => simp [Entries.insert, Sorted]
  | cons a l ih =>
    obtain ⟨k', v'⟩ := a
    obtain ⟨hhd, htl⟩ := List.pairwise_cons.1 h
    simp only [Entries.insert]
    split
    · next hlt =>
      refine List.pairwise_cons.2 ⟨fun e he => ?_, h⟩
      rcases List.mem_cons.1 he with rfl | he
      · exact hlt
      · exact lt_trans hlt (hhd e he)
    · split
      · next heq => exact List.pairwise_cons.2 ⟨fun e he => heq ▸ hhd e he, htl⟩
      · next hlt hne =>
        refine List.pairwise_cons.2 ⟨fun e he => ?_, ih htl⟩
        rcases mem_insert he with rfl | he
        · exact lt_of_le_of_ne (not_lt.1 hlt) (Ne.symm hne)
        · exact hhd e he

theorem get?_insert (k k' : K) (v : V) (l : List (K × V)) :
    get? k' (insert k v l) = if k' = k then some v else get? k' l := by
  induction l with
  | nil => simp [insert, get?]
  | cons a l ih =>
    obtain ⟨k'', v''⟩ := a
    simp only [insert]
    split
    · rfl
    · split
      · next heq => by_cases hk : k' = k <;> simp [get?, hk, ← heq]
      · next hne =>
        by_cases hk : k' = k''
        · simp [get?, hk, Ne.symm hne]
        · simp [get?, hk, ih]

theorem mem_of_get?_eq_some {l : List (K × V)} {k : K} {v : V} (h : get? k l = some v) :
    (k, v) ∈ l := by
  induction l with
  | nil => cases h
  | cons a l ih =>
    obtain ⟨k', v'⟩ := a
    rw [get?] at h
    split at h
    · next hk =>
      cases h
      exact hk ▸ List.mem_cons_self
    · exact List.mem_cons_of_mem _ (ih h)

theorem length_insert (k : K) (v : V) {l : List (K × V)} (h : Sorted l) :
    (insert k v l).length = if (get? k l).isSome then l.length else l.length + 1 := by
  induction l with
  | nil => rfl
  | cons a l ih =>
    obtain ⟨k', v'⟩ := a
    obtain ⟨hhd, htl⟩ := List.pairwise_cons.1 h
    have ih := ih htl
    rw [insert, get?]
    by_cases hlt : k < k'
    · -- the key is before all others
      have hnone : get? k l = none := by
        by_contra hne
        obtain ⟨w, hw⟩ := Option.ne_none_iff_exists'.1 hne
        exact absurd (hhd _ (mem_of_get?_eq_some hw)) (lt_asymm hlt)
      rw [if_pos hlt, if_neg (ne_of_lt hlt), hnone]
      rfl
    · by_cases heq : k = k'
      · rw [if_neg hlt, if_pos heq, if_pos heq]
        rfl
      · rw [if_neg hlt, if_neg heq, if_neg heq, List.length_cons, ih, List.length_cons]
        split <;> rfl

theorem get?_eq_some_iff {l : List (K × V)} (h : Sorted l) {k : K} {v : V} :
    get? k l = some v ↔ (k, v) ∈ l := by
  induction l with
  | nil => simp [get?]
  | cons a l ih =>
    obtain ⟨k', v'⟩ := a
    obtain ⟨hhd, htl⟩ := List.pairwise_cons.1 h
    by_cases hk : k = k'
    · subst hk
      have : (k, v) ∉ l := fun hm => lt_irrefl k (hhd (k, v) hm)
      simp [get?, this, eq_comm]
    · simp [get?, hk, ih htl]

theorem get?_eq_none_iff {l : List (K × V)} {k : K} :
    get? k l = none ↔ ∀ e ∈ l, e.1 ≠ k := by
  induction l with
  | nil => simp [get?]
  | cons a l ih =>
    obtain ⟨k', v'⟩ := a
    by_cases hk : k = k'
    · simp [get?, hk]
    · simp [get?, hk, ih, Ne.symm hk]

theorem Sorted.keys_nodup {l : List (K × V)} (h : Sorted l) : (l.map (·.1)).Nodup :=
  (List.pairwise_map.2 h).imp ne_of_lt

theorem Sorted.nodup {l : List (K × V)} (h : Sorted l) : l.Nodup :=
  h.imp fun hab heq => (ne_of_lt hab) (congrArg Prod.fst heq)

/-- Sorted entries are determined by their lookups. -/
theorem Sorted.ext {l l' : List (K × V)} (h : Sorted l) (h' : Sorted l')
    (heq : ∀ k, get? k l = get? k l') : l = l' := by
  have hmem (e : K × V) : e ∈ l ↔ e ∈ l' := by
    rw [← Prod.eta e, ← get?_eq_some_iff h, ← get?_eq_some_iff h', heq]
  have hperm := (List.perm_ext_iff_of_nodup h.nodup h'.nodup).2 hmem
  exact hperm.eq_of_pairwise (fun a b _ _ hab hba => absurd hab (lt_asymm hba)) h h'

/-- Drop a key. -/
def erase (k : K) (l : List (K × V)) : List (K × V) := l.filter fun e => e.1 ≠ k

theorem mem_erase {k : K} {l : List (K × V)} {e : K × V} :
    e ∈ erase k l ↔ e ∈ l ∧ e.1 ≠ k := by
  simp [erase]

theorem Sorted.erase {l : List (K × V)} (h : Sorted l) (k : K) : Sorted (erase k l) :=
  h.filter _

theorem get?_erase_self (k : K) (l : List (K × V)) : get? k (erase k l) = none :=
  get?_eq_none_iff.2 fun _ he => (mem_erase.1 he).2

/-- Inserting under a new key adds an entry. -/
theorem insert_perm {k : K} {l : List (K × V)} (h : ∀ e ∈ l, e.1 ≠ k) (v : V) :
    (insert k v l).Perm ((k, v) :: l) := by
  induction l with
  | nil => exact .refl _
  | cons a l ih =>
    obtain ⟨k', v'⟩ := a
    rw [insert]
    split
    · exact .refl _
    · rw [if_neg (h _ List.mem_cons_self).symm]
      exact ((ih fun e he => h e (List.mem_cons_of_mem _ he)).cons _).trans (.swap _ _ _)

/-- Inserting replaces the entry of the key. -/
theorem Sorted.insert_perm_erase {l : List (K × V)} (h : Sorted l) (k : K) (v : V) :
    (Entries.insert k v l).Perm ((k, v) :: Entries.erase k l) := by
  have hne : ∀ e ∈ Entries.erase k l, e.1 ≠ k := fun e he => (mem_erase.1 he).2
  have hnew := insert_perm hne v
  have heq : Entries.insert k v (Entries.erase k l) = Entries.insert k v l := by
    refine ((h.erase k).insert k v).ext (h.insert k v) fun k' => ?_
    rw [get?_insert, get?_insert]
    split
    · rfl
    · next hk =>
      refine Option.ext fun w => ?_
      rw [get?_eq_some_iff (h.erase k), get?_eq_some_iff h, mem_erase]
      exact and_iff_left hk
  exact heq ▸ hnew

/-- The entries of a list, of which the first with a key counts. -/
def ofList (l : List (K × V)) : List (K × V) := l.foldr (fun e m => insert e.1 e.2 m) []

theorem sorted_ofList (l : List (K × V)) : Sorted (ofList l) := by
  induction l with
  | nil => exact .nil
  | cons e l ih => exact ih.insert e.1 e.2

theorem get?_ofList (k : K) (l : List (K × V)) : get? k (ofList l) = get? k l := by
  induction l with
  | nil => rfl
  | cons e l ih =>
    have hcons : get? k (ofList (e :: l)) = get? k (insert e.1 e.2 (ofList l)) := rfl
    rw [hcons, get?_insert, ih]
    rfl

theorem Sorted.ofList_eq {l : List (K × V)} (h : Sorted l) : ofList l = l :=
  (sorted_ofList l).ext h fun k => get?_ofList k l

/-- Every entry counts exactly when no two have the same key. -/
theorem ofList_perm_iff {l : List (K × V)} : (ofList l).Perm l ↔ (l.map (·.1)).Nodup := by
  constructor
  · intro h
    exact (h.map (·.1)).nodup_iff.1 (sorted_ofList l).keys_nodup
  · intro h
    induction l with
    | nil => exact .refl _
    | cons e l ih =>
      obtain ⟨hnew, hrest⟩ := List.nodup_cons.1 h
      have hperm := ih hrest
      refine (insert_perm (fun e' he' heq => hnew ?_) e.2).trans (hperm.cons e)
      exact List.mem_map.2 ⟨e', hperm.mem_iff.1 he', heq⟩

end Entries

/-! ## Maps -/

/-- A map as its entries in increasing key order. -/
structure SortedMap (K V : Type*) [LinearOrder K] where
  entries : List (K × V)
  sorted : Entries.Sorted entries
  deriving DecidableEq

namespace SortedMap

instance : EmptyCollection (SortedMap K V) := ⟨⟨[], List.Pairwise.nil⟩⟩

instance : Inhabited (SortedMap K V) := ⟨∅⟩

@[ext] theorem ext {m m' : SortedMap K V} (h : m.entries = m'.entries) : m = m' := by
  cases m; cases m'; simp_all

/-- The value stored under a key. -/
def get? (m : SortedMap K V) (k : K) : Option V := Entries.get? k m.entries

/-- Store a value under a key. -/
def insert (m : SortedMap K V) (k : K) (v : V) : SortedMap K V :=
  ⟨Entries.insert k v m.entries, m.sorted.insert k v⟩

/-- Change or drop every entry by its key. -/
def filterMap (m : SortedMap K V) (f : K → V → Option W) : SortedMap K W where
  entries := m.entries.filterMap fun e => (f e.1 e.2).map (e.1, ·)
  sorted := by
    refine List.Pairwise.filterMap _ ?_ m.sorted
    intro a b hab c hc d hd
    obtain ⟨x, -, rfl⟩ := Option.map_eq_some_iff.1 hc
    obtain ⟨y, -, rfl⟩ := Option.map_eq_some_iff.1 hd
    exact hab

/-- Drop a key. -/
def erase (m : SortedMap K V) (k : K) : SortedMap K V :=
  m.filterMap fun k' v => if k' = k then none else some v

/-- Number of entries. -/
def size (m : SortedMap K V) : ℕ := m.entries.length

@[simp] theorem entries_empty : (∅ : SortedMap K V).entries = [] := rfl

@[simp] theorem get?_empty (k : K) : (∅ : SortedMap K V).get? k = none := rfl

theorem mem_entries {m : SortedMap K V} {k : K} {v : V} :
    (k, v) ∈ m.entries ↔ m.get? k = some v :=
  (Entries.get?_eq_some_iff m.sorted).symm

@[simp] theorem get?_insert (m : SortedMap K V) (k k' : K) (v : V) :
    (m.insert k v).get? k' = if k' = k then some v else m.get? k' :=
  Entries.get?_insert k k' v m.entries

/-- Entries stored one after the other come before what was there. -/
theorem get?_foldl_insert (f : W → V) {l : List (K × W)} (h : Entries.Sorted l)
    (m : SortedMap K V) (k : K) : (l.foldl (fun m e => m.insert e.1 (f e.2)) m).get? k =
      ((Entries.get? k l).map f).or (m.get? k) := by
  induction l generalizing m with
  | nil => rfl
  | cons e l ih =>
    obtain ⟨hhead, htail⟩ := List.pairwise_cons.1 h
    rw [List.foldl_cons, ih htail, get?_insert, Entries.get?]
    by_cases hk : k = e.1
    · have hnone : Entries.get? k l = none :=
        Entries.get?_eq_none_iff.2 fun e' he' heq =>
          ne_of_lt (hhead e' he') (hk.symm.trans heq.symm)
      rw [hnone, if_pos hk, if_pos hk]
      rfl
    · rw [if_neg hk, if_neg hk]

theorem get?_filterMap (m : SortedMap K V) (f : K → V → Option W) (k : K) :
    (m.filterMap f).get? k = (m.get? k).bind (f k) := by
  refine Option.ext fun w => ?_
  rw [← mem_entries, filterMap, List.mem_filterMap]
  constructor
  · rintro ⟨⟨k', v⟩, hm, hf⟩
    obtain ⟨x, hx, heq⟩ := Option.map_eq_some_iff.1 hf
    obtain ⟨rfl, rfl⟩ := Prod.mk.inj heq
    rw [mem_entries.1 hm]
    exact hx
  · intro h
    obtain ⟨v, hv, hf⟩ := Option.bind_eq_some_iff.1 h
    exact ⟨(k, v), mem_entries.2 hv, by simp [hf]⟩

@[simp] theorem get?_erase (m : SortedMap K V) (k k' : K) :
    (m.erase k).get? k' = if k' = k then none else m.get? k' := by
  rw [erase, get?_filterMap]
  by_cases h : k' = k
  · cases m.get? k' <;> simp [h]
  · cases m.get? k' <;> simp [h]

/-- Dropping the first key leaves the other entries. -/
theorem entries_erase_head {m : SortedMap K V} {k : K} {v : V} {l : List (K × V)}
    (h : m.entries = (k, v) :: l) : (m.erase k).entries = l := by
  have hsorted : Entries.Sorted ((k, v) :: l) := h ▸ m.sorted
  have hl : l.filterMap (fun e => (if e.1 = k then none else some e.2).map (e.1, ·)) = l := by
    conv_rhs => rw [← List.filterMap_some (l := l)]
    refine List.filterMap_congr fun e he => ?_
    have hne : e.1 ≠ k := (ne_of_lt ((List.pairwise_cons.1 hsorted).1 e he)).symm
    simp [hne]
  simp only [erase, filterMap, h, List.filterMap_cons, if_pos, Option.map_none]
  exact hl

/-- Equal lookups make equal maps. -/
theorem ext_get? {m m' : SortedMap K V} (h : ∀ k, m.get? k = m'.get? k) : m = m' :=
  ext (m.sorted.ext m'.sorted h)

/-! ## How many keys hold a value -/

section
variable {m : SortedMap K V} {k : K} {v : V}

theorem erase_of_get?_eq_none (h : m.get? k = none) : m.erase k = m := by
  refine ext_get? fun k' => ?_
  rw [get?_erase]
  split
  · next hk => rw [hk, h]
  · rfl

theorem insert_of_get?_eq_some (h : m.get? k = some v) : m.insert k v = m := by
  refine ext_get? fun k' => ?_
  rw [get?_insert]
  split
  · next hk => rw [hk, h]
  · rfl

theorem insert_erase (m : SortedMap K V) (k : K) (v : V) :
    (m.erase k).insert k v = m.insert k v := by
  refine ext_get? fun k' => ?_
  rw [get?_insert, get?_insert, get?_erase]
  split <;> rfl

variable [DecidableEq V]

/-- The number of keys that hold a value. -/
def holders (m : SortedMap K V) (v : V) : ℕ := m.entries.countP fun e => e.2 = v

theorem holders_insert (m : SortedMap K V) (k : K) (v w : V) :
    (m.insert k v).holders w = (m.erase k).holders w + if v = w then 1 else 0 := by
  have hnew : ∀ e ∈ (m.erase k).entries, e.1 ≠ k :=
    Entries.get?_eq_none_iff.1 ((get?_erase m k k).trans (if_pos rfl))
  have hperm : (m.insert k v).entries.Perm ((k, v) :: (m.erase k).entries) :=
    insert_erase m k v ▸ Entries.insert_perm hnew v
  rw [holders, hperm.countP_eq, List.countP_cons]
  simp only [decide_eq_true_eq]
  rfl

theorem holders_of_get?_eq_some (h : m.get? k = some v) (w : V) :
    m.holders w = (m.erase k).holders w + if v = w then 1 else 0 := by
  rw [← holders_insert, insert_of_get?_eq_some h]

end

/-- A list as a map from its indices. -/
def enum (l : List V) : SortedMap ℕ V where
  entries := l.mapIdx fun i v => (i, v)
  sorted := by
    refine List.pairwise_iff_getElem.2 fun i j hi hj hij => ?_
    rw [List.getElem_mapIdx, List.getElem_mapIdx]
    exact hij

@[simp] theorem get?_enum (l : List V) (i : ℕ) : (enum l).get? i = l[i]? := by
  refine Option.ext fun v => ?_
  rw [← mem_entries, enum, List.mem_mapIdx, List.getElem?_eq_some_iff]
  constructor
  · rintro ⟨j, hj, heq⟩
    obtain ⟨rfl, rfl⟩ := Prod.mk.inj heq
    exact ⟨hj, rfl⟩
  · rintro ⟨hi, rfl⟩
    exact ⟨i, hi, rfl⟩

theorem size_insert_le (m : SortedMap K V) (k : K) (v : V) : (m.insert k v).size ≤ m.size + 1 := by
  have hlength := Entries.length_insert k v m.sorted
  show (Entries.insert k v m.entries).length ≤ m.entries.length + 1
  split at hlength <;> omega

@[simp] theorem size_enum (l : List V) : (enum l).size = l.length := by simp [size, enum]

/-- `n` keys below `n` are all the keys below `n`. -/
theorem keys_eq_range {m : SortedMap ℕ V} {n : ℕ} (hsize : m.size = n)
    (hlt : ∀ k v, m.get? k = some v → k < n) : m.entries.map (·.1) = List.range n := by
  have hsorted : (m.entries.map (·.1)).Pairwise (· < ·) := List.pairwise_map.2 m.sorted
  have hnodup : (m.entries.map (·.1)).Nodup := hsorted.imp ne_of_lt
  have hsub : m.entries.map (·.1) ⊆ List.range n := by
    intro k hk
    obtain ⟨⟨k', v⟩, he, rfl⟩ := List.mem_map.1 hk
    exact List.mem_range.2 (hlt k' v (mem_entries.1 he))
  have hlen : (List.range n).length ≤ (m.entries.map (·.1)).length := by
    rw [List.length_range, List.length_map, ← hsize]
    exact le_refl _
  have hperm := (List.subperm_of_subset hnodup hsub).perm_of_length_le hlen
  exact hperm.eq_of_pairwise (fun a b _ _ hab hba => absurd hab (lt_asymm hba)) hsorted
    List.pairwise_lt_range

/-- A map with all the keys below `n` has `n` of them. -/
theorem le_size {m : SortedMap ℕ V} {n : ℕ} (h : ∀ k < n, ∃ v, m.get? k = some v) : n ≤ m.size := by
  have hsub : List.range n ⊆ m.entries.map (·.1) := by
    intro k hk
    obtain ⟨v, hv⟩ := h k (List.mem_range.1 hk)
    exact List.mem_map.2 ⟨(k, v), mem_entries.2 hv, rfl⟩
  have hle := (List.subperm_of_subset List.nodup_range hsub).length_le
  rwa [List.length_range, List.length_map] at hle

end SortedMap

end BambooNet
