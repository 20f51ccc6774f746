import BambooNet.Lib.Bytes
import BambooNet.Lib.GaussJordan
import BambooNet.Lib.VandermondeCode
import BambooNet.Tutk.Gf
import Mathlib.Data.List.GetD

/-!
# Forward error correction of the TUTK transport

A group is `k` data blocks and `m` parity blocks of one length. `encode` computes a parity block,
`recover` fills in missing data blocks from any `k` blocks of the group. Both work through
`generatorRow`, which inverts the top of a Vandermonde matrix over `Gf`.

`generatorRow_eq` connects the code's rows to the systematic code of
`BambooNet.Lib.VandermondeCode`; `recover_spec` is what the rest of the transport relies on.
-/

namespace BambooNet.Tutk

open GaussJordan (Rows tabulate toMatrix)
open scoped Matrix

/-! ## The code -/

/-- The field element of a matrix index, cast to a byte first. -/
def point (r : ℕ) : Gf := ⟨UInt8.ofNat r⟩

/-- Row `row` of the systematic generator: a unit vector for data rows. -/
def generatorRow (k row : ℕ) : Vector Gf k :=
  if row < k then Vector.ofFn fun c => if c = row then 1 else 0
  else
    let top : Rows Gf k := tabulate fun r c => Gf.pow (point r) c
    -- the result of `invert` is not checked: a singular matrix is used as it was left
    let top := match GaussJordan.invert top with
      | .ok inv => inv
      | .error m => m
    Vector.ofFn fun c =>
      (List.finRange k).foldl (fun v (j : Fin k) => v + Gf.pow (point row) j * toMatrix top j c) 0

/-- `out[i] ^= c * src[i]` for every `i`. -/
def addScaled (out : Bytes) (c : Gf) (src : Bytes) : Bytes :=
  List.zipWith (fun o s => (⟨o⟩ + c * ⟨s⟩ : Gf).byte) out src

/-- The sum of scaled blocks of length `len`. -/
def combine (len : ℕ) (terms : List (Gf × Bytes)) : Bytes :=
  terms.foldl (fun out t => addScaled out t.1 t.2) (List.replicate len 0)

/-- Parity block of row `row` over equally sized data blocks. -/
def encode (data : List Bytes) (row : ℕ) : Bytes :=
  let coef := generatorRow data.length row
  combine (data.headD []).length
    ((List.finRange data.length).map fun c => (coef[c], data[c]))

/-- The first `k` blocks that are present, that is of length `len`. -/
def presentRows (blocks : List Bytes) (k len : ℕ) : List ℕ :=
  ((List.range blocks.length).filter fun i => (blocks.getD i []).length = len).take k

/-- The generator rows of the chosen blocks. -/
def rowMatrix (k : ℕ) (rows : List ℕ) : Rows Gf k :=
  Vector.ofFn fun j => generatorRow k (rows.getD j 0)

/-- Data block `d` from the chosen blocks; a zero coefficient is skipped. -/
def restore {k : ℕ} (blocks : List Bytes) (rows : List ℕ) (m : Rows Gf k) (len : ℕ)
    (d : Fin k) : Bytes :=
  combine len (((List.finRange k).filter fun j : Fin k => toMatrix m d j ≠ 0).map fun j : Fin k =>
    (toMatrix m d j, blocks.getD (rows.getD j 0) []))

/-- Fill in the missing data blocks; `none` when fewer than `k` blocks are present. -/
def recover (blocks : List Bytes) (k len : ℕ) : Option (List Bytes) :=
  if k = 0 ∨ blocks.length < k ∨ k > 255 then none
  else
    let rows := presentRows blocks k len
    if rows.length < k then none
    else
      match GaussJordan.invert (rowMatrix k rows) with
      | .error _ => none
      | .ok m =>
        some (blocks.mapIdx fun d b =>
          if h : d < k then if b.length = len then b else restore blocks rows m len ⟨d, h⟩ else b)

/-! ## Points and rows -/

theorem point_injOn : Set.InjOn point (Set.Iio 256) := by
  intro a ha b hb h
  have := congrArg (fun g : Gf => g.byte.toNat) h
  simp only [point, UInt8.toNat_ofNat'] at this
  rwa [Nat.mod_eq_of_lt ha, Nat.mod_eq_of_lt hb] at this

theorem foldl_add_eq_sum {α M : Type*} [AddCommMonoid M] (l : List α) (f : α → M) (z : M) :
    l.foldl (fun v j => v + f j) z = z + (l.map f).sum := by
  induction l generalizing z with
  | nil => simp
  | cons a l ih => rw [List.foldl_cons, ih, List.map_cons, List.sum_cons, add_assoc]

/-- Terms that vanish may be left out of a sum. -/
theorem sum_map_filter {α M : Type*} [AddCommMonoid M] {p : α → Bool} {f : α → M} (l : List α)
    (h : ∀ a, p a = false → f a = 0) : ((l.filter p).map f).sum = (l.map f).sum := by
  induction l with
  | nil => rfl
  | cons a l ih =>
    cases hp : p a with
    | true => simp [hp, ih]
    | false => simp [hp, ih, h a hp]

/-- **The rows the code computes are the rows of the systematic Vandermonde code.** -/
theorem generatorRow_eq {k row : ℕ} (hk : k ≤ 255) (c : Fin k) :
    (generatorRow k row).get c = VandermondeCode.generator point k row c := by
  show (generatorRow k row)[c] = _
  have hinj : Set.InjOn point (Set.Iio k) :=
    point_injOn.mono fun a (ha : a < k) => lt_of_lt_of_le ha (by omega)
  by_cases hrow : row < k
  · rw [VandermondeCode.generator_data hinj hrow]
    simp [generatorRow, hrow]
  · have htop : toMatrix (tabulate fun r c : Fin k => Gf.pow (point r) c) =
        VandermondeCode.top point k := by
      rw [GaussJordan.toMatrix_tabulate]
      funext r c
      rw [Gf.pow_eq]
      rfl
    have hdet : (toMatrix (tabulate fun r c : Fin k => Gf.pow (point r) c)).det ≠ 0 := by
      rw [htop]
      exact VandermondeCode.det_top_ne_zero hinj
    obtain ⟨inv, hinv, heq⟩ := GaussJordan.invert_of_det_ne_zero hdet
    have hdef : generatorRow k row = Vector.ofFn fun c => (List.finRange k).foldl
        (fun v (j : Fin k) => v + Gf.pow (point row) j * toMatrix inv j c) 0 := by
      unfold generatorRow
      rw [if_neg hrow]
      simp only [hinv]
    rw [hdef, Fin.getElem_fin, Vector.getElem_ofFn,
      foldl_add_eq_sum _ (fun j : Fin k => Gf.pow (point row) j * toMatrix inv j c), zero_add,
      ← List.ofFn_eq_map, List.sum_ofFn]
    refine Finset.sum_congr rfl fun j _ => ?_
    rw [heq, htop, Gf.pow_eq]
    rfl

/-! ## Blocks as words over the field -/

/-- Symbol `i` of a block. -/
def sym (b : Bytes) (i : ℕ) : Gf := ⟨b.getD i 0⟩

theorem ext_sym {a b : Bytes} (hlen : a.length = b.length)
    (h : ∀ i < a.length, sym a i = sym b i) : a = b := by
  refine List.ext_getElem hlen fun i ha hb => ?_
  have := congrArg Gf.byte (h i ha)
  simpa [sym, List.getD_eq_getElem?_getD, ha, hb] using this

theorem addScaled_length {out src : Bytes} (c : Gf) (h : src.length = out.length) :
    (addScaled out c src).length = out.length := by
  simp [addScaled, h]

theorem sym_addScaled {out src : Bytes} (c : Gf) {i : ℕ} (h : src.length = out.length)
    (hi : i < out.length) : sym (addScaled out c src) i = sym out i + c * sym src i := by
  have hs : i < src.length := h ▸ hi
  refine Gf.ext_byte ?_
  simp [sym, addScaled, List.getD_eq_getElem?_getD, hi, hs]

/-- A combination of blocks of one length is the sum of their scaled symbols. -/
theorem combine_spec {len : ℕ} (terms : List (Gf × Bytes))
    (h : ∀ t ∈ terms, t.2.length = len) :
    (combine len terms).length = len ∧
      ∀ i < len, sym (combine len terms) i = (terms.map fun t => t.1 * sym t.2 i).sum := by
  -- generalised over the block accumulated so far
  suffices hgen : ∀ out : Bytes, out.length = len →
      (terms.foldl (fun out t => addScaled out t.1 t.2) out).length = len ∧
        ∀ i < len, sym (terms.foldl (fun out t => addScaled out t.1 t.2) out) i =
          sym out i + (terms.map fun t => t.1 * sym t.2 i).sum by
    obtain ⟨hl, hsum⟩ := hgen (List.replicate len 0) (by simp)
    refine ⟨hl, fun i hi => ?_⟩
    have hz : sym (List.replicate len 0) i = 0 := by
      simp [sym, List.getD_eq_getElem?_getD, hi]
      rfl
    rw [combine, hsum i hi, hz, zero_add]
  induction terms with
  | nil => intro out hout; simpa using hout
  | cons t terms ih =>
    intro out hout
    have ht : t.2.length = out.length := by rw [hout]; exact h t (by simp)
    obtain ⟨hl, hsum⟩ := ih (fun s hs => h s (by simp [hs])) (addScaled out t.1 t.2)
      (by rw [addScaled_length _ ht, hout])
    refine ⟨hl, fun i hi => ?_⟩
    rw [List.foldl_cons, hsum i hi, sym_addScaled _ ht (hout ▸ hi), List.map_cons, List.sum_cons,
      add_assoc]

/-! ## Encoding -/

/-- Symbol `i` of every data block. -/
def column (data : List Bytes) (i : ℕ) : Fin data.length → Gf := fun c => sym data[c] i

theorem encode_spec {data : List Bytes} {len : ℕ} (row : ℕ) (hk0 : data ≠ [])
    (hk : data.length ≤ 255) (hlen : ∀ b ∈ data, b.length = len) :
    (encode data row).length = len ∧ ∀ i < len, sym (encode data row) i =
      VandermondeCode.generator point data.length row ⬝ᵥ column data i := by
  have hhead : (data.headD []).length = len := by
    obtain ⟨b, l, rfl⟩ := List.exists_cons_of_ne_nil hk0
    exact hlen b (by simp)
  have hterms : ∀ t ∈ (List.finRange data.length).map fun c =>
      ((generatorRow data.length row)[c], data[c]), t.2.length = len := by
    intro t ht
    obtain ⟨c, -, rfl⟩ := List.mem_map.1 ht
    exact hlen _ (List.getElem_mem _)
  obtain ⟨hl, hsum⟩ := combine_spec _ hterms
  refine ⟨by rw [encode, hhead]; exact hl, fun i hi => ?_⟩
  rw [encode, hhead]
  show sym (combine len _) i = _
  rw [hsum i hi, List.map_map, ← List.ofFn_eq_map, List.sum_ofFn]
  refine Finset.sum_congr rfl fun c _ => ?_
  rw [← generatorRow_eq hk c]
  rfl

/-- The code is systematic: row `d` of the code is data block `d`. -/
theorem encode_data {data : List Bytes} {len d : ℕ} (hd : d < data.length)
    (hk : data.length ≤ 255) (hlen : ∀ b ∈ data, b.length = len) : encode data d = data[d] := by
  have hne : data ≠ [] := List.ne_nil_of_length_pos (by omega)
  have hinj : Set.InjOn point (Set.Iio data.length) :=
    point_injOn.mono fun a (ha : a < _) => lt_of_lt_of_le ha (by omega)
  obtain ⟨hl, hsym⟩ := encode_spec d hne hk hlen
  have hdl : data[d].length = len := hlen _ (List.getElem_mem _)
  refine ext_sym (hl.trans hdl.symm) fun i hi => ?_
  rw [hsym i (hl ▸ hi), VandermondeCode.generator_data hinj hd]
  have hunit : (fun c : Fin data.length => if (c : ℕ) = d then (1 : Gf) else 0) =
      Pi.single ⟨d, hd⟩ 1 := by
    funext c
    simp [Pi.single_apply, Fin.ext_iff]
  rw [hunit, single_one_dotProduct]
  rfl

/-! ## Recovery -/

theorem presentRows_nodup (blocks : List Bytes) (k len : ℕ) :
    (presentRows blocks k len).Nodup :=
  ((List.nodup_range.filter _).sublist (List.take_sublist _ _))

theorem mem_presentRows {blocks : List Bytes} {k len r : ℕ} (h : r ∈ presentRows blocks k len) :
    r < blocks.length ∧ (blocks.getD r []).length = len := by
  have := List.mem_of_mem_take h
  simpa using this

/-- How many blocks of the group are present. -/
def present (blocks : List Bytes) (len : ℕ) : ℕ := blocks.countP fun b => b.length = len

theorem present_eq_card (blocks : List Bytes) (len : ℕ) :
    present blocks len =
      ((Finset.range blocks.length).filter fun i => (blocks.getD i []).length = len).card := by
  have hmap : (List.range blocks.length).map (fun i => blocks.getD i []) = blocks := by
    refine List.ext_getElem (by simp) fun i _ hi => ?_
    simp [List.getD_eq_getElem?_getD, hi]
  rw [present]
  conv_lhs => rw [← hmap, List.countP_map, List.countP_eq_length_filter]
  rfl

theorem presentRows_length (blocks : List Bytes) (k len : ℕ) :
    (presentRows blocks k len).length = min k (present blocks len) := by
  have hmap : (List.range blocks.length).map (fun i => blocks.getD i []) = blocks := by
    refine List.ext_getElem (by simp) fun i _ hi => ?_
    simp [List.getD_eq_getElem?_getD, hi]
  rw [presentRows, List.length_take, ← List.countP_eq_length_filter, present]
  conv_rhs => rw [← hmap, List.countP_map]
  rfl

/-- Fewer than `k` present blocks are refused. -/
theorem recover_eq_none {blocks : List Bytes} {k len : ℕ} (h : present blocks len < k) :
    recover blocks k len = none := by
  have hrows : (presentRows blocks k len).length < k := by
    rw [presentRows_length]
    omega
  unfold recover
  split
  · rfl
  · rw [if_pos hrows]

/-- What `recover` computes once its `k` rows are chosen: the inverse matrix `m` gives back every
symbol of every data block. -/
theorem decode_column {data : List Bytes} {rows : Fin data.length → ℕ} {len : ℕ}
    {m : Rows Gf data.length} (hk0 : data ≠ []) (hk : data.length ≤ 255)
    (hlen : ∀ b ∈ data, b.length = len)
    (hrows : Function.Injective fun j => point (rows j))
    (hm : toMatrix m = (Matrix.of fun j =>
      VandermondeCode.generator point data.length (rows j))⁻¹)
    (d : Fin data.length) {i : ℕ} (hi : i < len) :
    ∑ j, m[d][j] * sym (encode data (rows j)) i = sym data[d] i := by
  have hinj : Set.InjOn point (Set.Iio data.length) :=
    point_injOn.mono fun a (ha : a < _) => lt_of_lt_of_le ha (by omega)
  calc ∑ j, m[d][j] * sym (encode data (rows j)) i
      = (toMatrix m *ᵥ fun j => VandermondeCode.generator point data.length (rows j) ⬝ᵥ
          column data i) d := by
        refine Finset.sum_congr rfl fun j _ => ?_
        rw [(encode_spec (rows j) hk0 hk hlen).2 i hi]
        rfl
    _ = column data i d := by rw [hm, VandermondeCode.decode hinj hrows]
    _ = sym data[d] i := rfl

theorem toMatrix_rowMatrix {k : ℕ} (hk : k ≤ 255) (rows : List ℕ) :
    toMatrix (rowMatrix k rows) =
      Matrix.of fun j : Fin k => VandermondeCode.generator point k (rows.getD j 0) := by
  funext j c
  show (rowMatrix k rows)[j][c] = VandermondeCode.generator point k (rows.getD j 0) c
  rw [← generatorRow_eq hk c]
  show (rowMatrix k rows)[j][c] = (generatorRow k (rows.getD j 0))[c]
  simp [rowMatrix]

/-- The chosen rows are distinct rows of the code. -/
theorem point_rows_injective {blocks : List Bytes} {k len : ℕ} (hn : blocks.length ≤ 255)
    (hrl : (presentRows blocks k len).length = k) :
    Function.Injective fun j : Fin k => point ((presentRows blocks k len).getD j 0) := by
  have hget (j : Fin k) : ∃ h : (j : ℕ) < (presentRows blocks k len).length,
      (presentRows blocks k len).getD j 0 = (presentRows blocks k len)[(j : ℕ)] :=
    ⟨by omega, List.getD_eq_getElem _ _ _⟩
  have hlt (j : Fin k) : (presentRows blocks k len).getD j 0 < 256 := by
    obtain ⟨hj, heq⟩ := hget j
    have := (mem_presentRows (heq ▸ List.getElem_mem hj)).1
    omega
  intro a b hab
  have hrow := point_injOn (hlt a) (hlt b) hab
  obtain ⟨ha, heqa⟩ := hget a
  obtain ⟨hb, heqb⟩ := hget b
  rw [heqa, heqb] at hrow
  exact Fin.ext ((presentRows_nodup blocks k len).getElem_inj_iff.1 hrow)

theorem restore_spec {data blocks : List Bytes} {rows : List ℕ} {m : Rows Gf data.length}
    {len : ℕ} (hk0 : data ≠ []) (hk : data.length ≤ 255) (hlen : ∀ b ∈ data, b.length = len)
    (hrows : Function.Injective fun j : Fin data.length => point (rows.getD j 0))
    (hm : toMatrix m = (toMatrix (rowMatrix data.length rows))⁻¹)
    (hword : ∀ j : Fin data.length, blocks.getD (rows.getD j 0) [] = encode data (rows.getD j 0))
    (d : Fin data.length) : restore blocks rows m len d = data[d] := by
  rw [toMatrix_rowMatrix hk] at hm
  obtain ⟨hl, hsum⟩ := @combine_spec len
    (((List.finRange data.length).filter fun j : Fin data.length => toMatrix m d j ≠ 0).map
      fun j : Fin data.length => (toMatrix m d j, blocks.getD (rows.getD j 0) [])) (by
    intro t ht
    obtain ⟨j, -, rfl⟩ := List.mem_map.1 ht
    rw [hword j]
    exact (encode_spec _ hk0 hk hlen).1)
  have hdl : data[d].length = len := hlen _ (List.getElem_mem _)
  refine ext_sym (hl.trans hdl.symm) fun i hi => ?_
  have hi' : i < len := hl ▸ hi
  rw [restore, hsum i hi', ← decode_column hk0 hk hlen hrows hm d hi', List.map_map,
    sum_map_filter _ (fun j hj => by simp_all), ← List.ofFn_eq_map, List.sum_ofFn]
  refine Finset.sum_congr rfl fun j _ => ?_
  rw [← hword j]
  rfl

/-- **Any `k` blocks of a group restore its data blocks.** The blocks of length `len` are blocks of
the code word; the others are missing. -/
theorem recover_spec {data blocks : List Bytes} {len : ℕ} (hk0 : data ≠ [])
    (hlen : ∀ b ∈ data, b.length = len) (hk : data.length ≤ blocks.length)
    (hn : blocks.length ≤ 255)
    (hblocks : ∀ i (h : i < blocks.length), blocks[i].length = len → blocks[i] = encode data i)
    (hpresent : data.length ≤ present blocks len) :
    recover blocks data.length len = some (data ++ blocks.drop data.length) := by
  have hpos : 0 < data.length := List.length_pos_iff.2 hk0
  have hk' : data.length ≤ 255 := hk.trans hn
  set rows := presentRows blocks data.length len with hrowsdef
  have hrl : rows.length = data.length := by
    rw [hrowsdef, presentRows_length]
    omega
  have hword (j : Fin data.length) : blocks.getD (rows.getD j 0) [] =
      encode data (rows.getD j 0) := by
    have hj : (j : ℕ) < rows.length := by omega
    have hmem : rows.getD j 0 ∈ rows := by
      rw [List.getD_eq_getElem _ _ hj]
      exact List.getElem_mem hj
    obtain ⟨hlt, hl⟩ := mem_presentRows hmem
    rw [List.getD_eq_getElem _ _ hlt] at hl ⊢
    exact hblocks _ hlt hl
  have hinj : Function.Injective fun j : Fin data.length => point (rows.getD j 0) :=
    point_rows_injective hn hrl
  have hdet : (toMatrix (rowMatrix data.length rows)).det ≠ 0 := by
    rw [toMatrix_rowMatrix hk']
    exact VandermondeCode.det_generator_ne_zero
      (point_injOn.mono fun a (ha : a < _) => lt_of_lt_of_le ha (by omega)) hinj
  obtain ⟨m, hm, hinv⟩ := GaussJordan.invert_of_det_ne_zero hdet
  unfold recover
  rw [if_neg (by omega)]
  simp only [← hrowsdef, hm]
  rw [if_neg (by omega), Option.some.injEq]
  refine List.ext_getElem (by simp; omega) fun d hd₁ hd₂ => ?_
  have hd : d < blocks.length := by simpa using hd₁
  rw [List.getElem_mapIdx]
  by_cases hdk : d < data.length
  · rw [dif_pos hdk, List.getElem_append_left hdk]
    split
    · next hl => rw [hblocks d hd hl, encode_data hdk hk' hlen]
    · exact restore_spec hk0 hk' hlen hinj hinv hword ⟨d, hdk⟩
  · rw [dif_neg hdk, List.getElem_append_right (by omega), List.getElem_drop]
    congr 1
    omega

/-! ## Groups -/

/-- A whole group: the data blocks and their `m` parity blocks. -/
def group (data : List Bytes) (m : ℕ) : List Bytes :=
  data ++ (List.range m).map fun p => encode data (data.length + p)

/-- The group as it arrives: a lost block is empty. -/
def received (blocks : List Bytes) (keep : ℕ → Bool) : List Bytes :=
  blocks.mapIdx fun i b => if keep i then b else []

@[simp] theorem length_group (data : List Bytes) (m : ℕ) :
    (group data m).length = data.length + m := by
  simp [group]

@[simp] theorem length_received (blocks : List Bytes) (keep : ℕ → Bool) :
    (received blocks keep).length = blocks.length := by
  simp [received]

/-- Every block of a group is a block of the code word. -/
theorem getElem_group {data : List Bytes} {m len i : ℕ} (hk : data.length ≤ 255)
    (hlen : ∀ b ∈ data, b.length = len) (h : i < (group data m).length) :
    (group data m)[i] = encode data i := by
  by_cases hi : i < data.length
  · simp only [group, List.getElem_append_left hi, encode_data hi hk hlen]
  · simp only [group, List.getElem_append_right (not_lt.1 hi), List.getElem_map,
      List.getElem_range]
    congr 1
    omega

/-- The blocks of a group that arrive are the ones of the block length. -/
theorem present_received {data : List Bytes} {m len : ℕ} (hk0 : data ≠ [])
    (hk : data.length ≤ 255) (hlen0 : 1 ≤ len) (hlen : ∀ b ∈ data, b.length = len)
    (keep : ℕ → Bool) :
    present (received (group data m) keep) len = (List.range (data.length + m)).countP keep := by
  have hmap : received (group data m) keep =
      (List.range (data.length + m)).map fun i => if keep i then encode data i else [] := by
    refine List.ext_getElem (by simp) fun i hi _ => ?_
    have hi' : i < (group data m).length := by simpa using hi
    simp [received, getElem_group hk hlen hi']
  rw [present, hmap, List.countP_map]
  refine List.countP_congr fun i _ => ?_
  cases hi : keep i with
  | true => simp [hi, (encode_spec i hk0 hk hlen).1]
  | false => simp [hi]; omega

/-- **A group is recovered exactly when `k` of its blocks survive.** Whatever the mix of data and
parity, every data block comes back as it was sent; with fewer than `k` blocks `recover` fails. -/
theorem recover_group {data : List Bytes} {m len : ℕ} (hk0 : 1 ≤ data.length)
    (hn : data.length + m ≤ 255) (hlen0 : 1 ≤ len) (hlen : ∀ b ∈ data, b.length = len)
    (keep : ℕ → Bool) :
    let blocks := received (group data m) keep
    let survivors := (List.range (data.length + m)).countP keep
    (data.length ≤ survivors →
      recover blocks data.length len = some (data ++ blocks.drop data.length)) ∧
    (survivors < data.length → recover blocks data.length len = none) := by
  intro blocks survivors
  have hne : data ≠ [] := List.ne_nil_of_length_pos hk0
  have hk : data.length ≤ 255 := by omega
  have hcount : present blocks len = survivors := present_received hne hk hlen0 hlen keep
  refine ⟨fun h => ?_, fun h => recover_eq_none (by omega)⟩
  refine recover_spec hne hlen (by simp [blocks]) (by simpa [blocks] using hn) ?_ (by omega)
  intro i hi hil
  have hi' : i < (group data m).length := by simpa [blocks] using hi
  simp only [blocks, received, List.getElem_mapIdx] at hil ⊢
  split at hil
  · next hkeep => rw [if_pos hkeep, getElem_group hk hlen hi']
  · simp at hil; omega

theorem recover_group_of_parity :
    recover (received (group [[7], [9]] 1) (· != 0)) 2 1 =
      some ([[7], [9]] ++ (received (group [[7], [9]] 1) (· != 0)).drop 2) :=
  (@recover_group [[7], [9]] 1 1 (by decide) (by decide) (by decide)
    (by decide) (· != 0)).1 (by decide)

end BambooNet.Tutk
