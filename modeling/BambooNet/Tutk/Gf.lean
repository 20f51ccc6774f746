import BambooNet.Lib.LogTable
import Mathlib.Algebra.Field.Basic
import Mathlib.Data.Finset.Card
import Mathlib.Order.Interval.Finset.Nat

/-!
# The field GF(256) of the FEC code

Bytes under xor, multiplied through a table of the powers of 2 modulo the polynomial `0x11d` and
its table of logarithms. The tables satisfy `LogTable` (`gfTable`), which makes `Gf` a field.
-/

namespace BambooNet.Tutk

structure Gf where
  byte : UInt8
  deriving DecidableEq, Repr

namespace Gf

/-! ## Tables -/

/-- Double `x` modulo `0x11d`. -/
def double (x : ℕ) : ℕ :=
  let x := x <<< 1
  if x &&& 0x100 ≠ 0 then x ^^^ 0x11d else x

/-- `x` and what doubling makes of it, `k` entries. -/
def powersFrom : ℕ → ℕ → List ℕ
  | 0, _ => []
  | k + 1, x => x :: powersFrom k (double x)

/-- The powers of 2, before they repeat. -/
def powers : List ℕ := powersFrom 255 1

def expTable : Array UInt8 :=
  let p := powers.map UInt8.ofNat
  (p ++ p ++ p.take 2).toArray

def logTable : Array ℕ :=
  powers.zipIdx.foldl (fun t e => t.setIfInBounds e.1 e.2) (Array.replicate 256 0)

def exp (i : ℕ) : Gf := ⟨expTable.getD i 0⟩

def log (a : Gf) : ℕ := logTable.getD a.byte.toNat 0

instance : Zero Gf := ⟨⟨0⟩⟩

instance : One Gf := ⟨⟨1⟩⟩

def mul (a b : Gf) : Gf := if a ≠ 0 ∧ b ≠ 0 then exp (log a + log b) else 0

def inv (a : Gf) : Gf := exp (255 - log a)

def pow (a : Gf) (n : ℕ) : Gf :=
  if n = 0 then 1 else if a ≠ 0 then exp ((log a * n) % 255) else 0

/-! ## Addition -/

instance : Add Gf := ⟨fun a b => ⟨a.byte ^^^ b.byte⟩⟩

@[simp] theorem byte_add (a b : Gf) : (a + b).byte = a.byte ^^^ b.byte := rfl

@[simp] theorem byte_zero : (0 : Gf).byte = 0 := rfl

theorem ext_byte {a b : Gf} (h : a.byte = b.byte) : a = b := by cases a; cases b; simp_all

instance : Neg Gf := ⟨id⟩

theorem neg_eq (a : Gf) : -a = a := rfl

instance : AddCommGroup Gf where
  add_assoc a b c := ext_byte (by simp [UInt8.xor_assoc])
  zero_add a := ext_byte (by simp)
  add_zero a := ext_byte (by simp)
  neg_add_cancel a := ext_byte (by simp [neg_eq])
  add_comm a b := ext_byte (by simp [UInt8.xor_comm])
  nsmul := nsmulRec
  zsmul := zsmulRec

/-! ## Doubling

`power i` is the `i`-th power of 2. The powers run through all nonzero bytes before they come
back to 1 after 255 steps. -/

def power (i : ℕ) : ℕ := double^[i] 1

/-- Doubling is additive: the reduction depends on the top bit only, and the top bit of a sum is
the sum of the top bits. -/
def doubleHom : Gf →+ Gf where
  toFun a := ⟨⟨(a.byte.toBitVec <<< 1) ^^^ if a.byte.toBitVec.msb then 0x1d#8 else 0#8⟩⟩
  map_zero' := rfl
  map_add' a b := by
    apply ext_byte
    apply UInt8.toBitVec_inj.1
    simp only [byte_add, UInt8.toBitVec_xor, BitVec.shiftLeft_xor_distrib, BitVec.msb_xor]
    generalize a.byte.toBitVec <<< 1 = x, b.byte.toBitVec <<< 1 = y
    cases a.byte.toBitVec.msb <;> cases b.byte.toBitVec.msb
    · simp
    · simp [BitVec.xor_assoc]
    · simp [BitVec.xor_assoc, BitVec.xor_comm y]
    · simp only [Bool.xor_self, Bool.false_eq_true, if_false, if_true, BitVec.xor_zero]
      rw [BitVec.xor_assoc, BitVec.xor_comm 0x1d#8, BitVec.xor_assoc, BitVec.xor_self,
        BitVec.xor_zero]

theorem doubleHom_byte : ∀ n : Fin 256,
    doubleHom ⟨UInt8.ofNat n⟩ = ⟨UInt8.ofNat (double n)⟩ ∧ double n < 256 := by
  decide +kernel

theorem power_succ (i : ℕ) : power (i + 1) = double (power i) :=
  Function.iterate_succ_apply' double i 1

theorem power_lt (i : ℕ) : power i < 256 := by
  cases i with
  | zero => decide
  | succ i => rw [power_succ]; exact (doubleHom_byte ⟨power i, power_lt i⟩).2

theorem power_period : power 255 = 1 := by decide +kernel

theorem power_add_period (i : ℕ) : power (i + 255) = power i := by
  rw [power, Function.iterate_add_apply]
  exact congrArg (double^[i]) power_period

theorem power_mod (i : ℕ) : power (i % 255) = power i := by
  induction i using Nat.strong_induction_on with
  | _ i ih =>
    rcases Nat.lt_or_ge i 255 with h | h
    · rw [Nat.mod_eq_of_lt h]
    · obtain ⟨j, rfl⟩ : ∃ j, i = j + 255 := ⟨i - 255, by omega⟩
      rw [Nat.add_mod_right, power_add_period, ih j (by omega)]

theorem powersFrom_eq (k x : ℕ) : powersFrom k x = (List.range k).map fun i => double^[i] x := by
  induction k generalizing x with
  | zero => rfl
  | succ k ih =>
    rw [powersFrom, ih, List.range_succ_eq_map, List.map_cons, List.map_map]
    rfl

theorem powers_eq : powers = (List.range 255).map power := powersFrom_eq 255 1

/-- The bits set at the elements of a list. -/
def mask (l : List ℕ) : ℕ := l.foldr (fun x m => 2 ^ x ||| m) 0

theorem testBit_mask (l : List ℕ) (n : ℕ) : (mask l).testBit n = decide (n ∈ l) := by
  induction l with
  | nil => simp [mask]
  | cons x l ih =>
    have : mask (x :: l) = 2 ^ x ||| mask l := rfl
    rw [this, Nat.testBit_or, ih, Nat.testBit_two_pow]
    simp only [List.mem_cons, Bool.decide_or, eq_comm]

/-- The powers of 2 are all the nonzero bytes. -/
theorem mem_powers {n : ℕ} (h0 : n ≠ 0) (h : n < 256) : n ∈ powers := by
  have hmask : mask powers = 2 ^ 256 - 2 := by decide +kernel
  have hbit : (2 ^ 256 - 2).testBit n = true := by
    have hsub : 2 ^ 256 - 2 = 2 ^ 256 - (1 + 1) := rfl
    have h1 : Nat.testBit 1 n = false :=
      Bool.eq_false_iff.2 fun h1 => h0 (Nat.testBit_one_eq_true_iff_self_eq_zero.1 h1)
    rw [hsub, Nat.testBit_two_pow_sub_succ (by decide), decide_eq_true h, h1]
    rfl
  rw [← hmask, testBit_mask] at hbit
  exact of_decide_eq_true hbit

theorem toFinset_powers : powers.toFinset = Finset.Icc 1 255 := by
  refine (Finset.eq_of_subset_of_card_le (fun n hn => ?_) ?_).symm
  · obtain ⟨h1, h2⟩ := Finset.mem_Icc.1 hn
    exact List.mem_toFinset.2 (mem_powers (by omega) (by omega))
  · calc powers.toFinset.card ≤ powers.length := List.toFinset_card_le _
      _ = (Finset.Icc 1 255).card := by rw [powers_eq]; simp

theorem powers_nodup : powers.Nodup := by
  have hcard : powers.toFinset.card = powers.length := by
    rw [toFinset_powers, powers_eq]
    simp
  exact Multiset.toFinset_card_eq_card_iff_nodup.1 hcard

theorem power_ne_zero (i : ℕ) : power i ≠ 0 := by
  have hmem : power (i % 255) ∈ powers.toFinset := by
    rw [List.mem_toFinset, powers_eq]
    exact List.mem_map_of_mem (List.mem_range.2 (Nat.mod_lt _ (by decide)))
  rw [toFinset_powers, power_mod, Finset.mem_Icc] at hmem
  omega

/-! ## What the tables hold -/

theorem exp_eq {i : ℕ} (h : i < 512) : exp i = ⟨UInt8.ofNat (power i)⟩ := by
  have hp (j : ℕ) (hj : j < 255) :
      (powers.map UInt8.ofNat)[j]? = some (UInt8.ofNat (power j)) := by
    rw [powers_eq, List.getElem?_map, List.getElem?_map, List.getElem?_range hj]
    rfl
  have hl : (powers.map UInt8.ofNat).length = 255 := by rw [powers_eq]; simp
  have hget : expTable[i]? = some (UInt8.ofNat (power i)) := by
    rw [expTable, List.getElem?_toArray]
    rcases Nat.lt_or_ge i 255 with h1 | h1
    · rw [List.append_assoc, List.getElem?_append_left (by omega), hp i h1]
    · obtain ⟨j, rfl⟩ : ∃ j, i = j + 255 := ⟨i - 255, by omega⟩
      rw [List.append_assoc, List.getElem?_append_right (by omega), hl, Nat.add_sub_cancel,
        power_add_period]
      rcases Nat.lt_or_ge j 255 with h2 | h2
      · rw [List.getElem?_append_left (by omega), hp j h2]
      · obtain ⟨l, rfl⟩ : ∃ l, j = l + 255 := ⟨j - 255, by omega⟩
        rw [List.getElem?_append_right (by omega), hl, Nat.add_sub_cancel, power_add_period,
          List.getElem?_take_of_lt (by omega), hp l (by omega)]
  rw [exp, Array.getD_eq_getD_getElem?, hget]
  rfl

/-- Writing the indices of a duplicate-free list at its elements. -/
theorem getElem?_foldl_set {l : List ℕ} (hl : l.Nodup) (k : ℕ) (t : Array ℕ)
    (ht : ∀ x ∈ l, x < t.size) :
    (∀ x ∉ l, ((l.zipIdx k).foldl (fun t e => t.setIfInBounds e.1 e.2) t)[x]? = t[x]?) ∧
      ∀ (i : ℕ) (hi : i < l.length),
        ((l.zipIdx k).foldl (fun t e => t.setIfInBounds e.1 e.2) t)[l[i]]? = some (k + i) := by
  induction l generalizing k t with
  | nil => exact ⟨fun _ _ => rfl, fun i hi => absurd hi (Nat.not_lt_zero i)⟩
  | cons y l ih =>
    obtain ⟨hy, hl⟩ := List.nodup_cons.1 hl
    obtain ⟨hout, hin⟩ := ih hl (k + 1) (t.setIfInBounds y k)
      (fun x hx => by rw [Array.size_setIfInBounds]; exact ht x (List.mem_cons_of_mem _ hx))
    rw [List.zipIdx_cons, List.foldl_cons]
    refine ⟨fun x hx => ?_, fun i hi => ?_⟩
    · rw [List.mem_cons, not_or] at hx
      rw [hout x hx.2, Array.getElem?_setIfInBounds_ne (Ne.symm hx.1)]
    · cases i with
      | zero =>
        rw [List.getElem_cons_zero, hout y hy,
          Array.getElem?_setIfInBounds_self_of_lt (ht y List.mem_cons_self), Nat.add_zero]
      | succ i =>
        rw [List.getElem_cons_succ, hin i (Nat.lt_of_succ_lt_succ hi)]
        congr 1
        omega

theorem log_power {i : ℕ} (h : i < 255) : log ⟨UInt8.ofNat (power i)⟩ = i := by
  have hlen : powers.length = 255 := by rw [powers_eq]; simp
  have hrange : ∀ x ∈ powers, x < (Array.replicate 256 0 : Array ℕ).size := by
    intro x hx
    rw [powers_eq, List.mem_map] at hx
    obtain ⟨j, -, rfl⟩ := hx
    rw [Array.size_replicate]
    exact power_lt j
  have hget := (getElem?_foldl_set powers_nodup 0 _ hrange).2 i (by omega)
  have hilt : i < powers.length := by omega
  have hi : powers[i] = power i := by
    simp only [powers_eq, List.getElem_map, List.getElem_range]
  rw [hi, Nat.zero_add] at hget
  have hmod : (UInt8.ofNat (power i)).toNat = power i := by
    rw [UInt8.toNat_ofNat', Nat.mod_eq_of_lt (power_lt i)]
  rw [log, Array.getD_eq_getD_getElem?, hmod, logTable, hget]
  rfl

/-- A nonzero byte is a power of 2. -/
theorem exists_power {a : Gf} (h : a ≠ 0) : ∃ i < 255, a = ⟨UInt8.ofNat (power i)⟩ := by
  have hne : a.byte.toNat ≠ 0 := fun h0 =>
    h (ext_byte (UInt8.toNat_inj.1 h0))
  have hmem := mem_powers hne a.byte.toNat_lt
  rw [powers_eq, List.mem_map] at hmem
  obtain ⟨i, hi, he⟩ := hmem
  refine ⟨i, List.mem_range.1 hi, ext_byte ?_⟩
  rw [he]
  exact (UInt8.ofNat_toNat).symm

/-! ## The field -/

theorem ofNat_power_ne_zero (i : ℕ) : (⟨UInt8.ofNat (power i)⟩ : Gf) ≠ 0 := by
  intro h
  have := congrArg (fun a : Gf => a.byte.toNat) h
  simp only [UInt8.toNat_ofNat', byte_zero, UInt8.toNat_zero] at this
  rw [Nat.mod_eq_of_lt (power_lt i)] at this
  exact power_ne_zero i this

/-- **The tables of the code are a logarithm table of the bytes under xor.** -/
def gfTable : LogTable Gf where
  period := 255
  exp i := ⟨UInt8.ofNat (power i)⟩
  log := log
  gen := doubleHom
  exp_ne_zero := ofNat_power_ne_zero
  exp_log a h := by
    obtain ⟨i, hi, rfl⟩ := exists_power h
    rw [log_power hi]
  log_exp i := by rw [← power_mod, log_power (Nat.mod_lt _ (by decide))]
  exp_mod i := by rw [power_mod]
  gen_exp i := by rw [power_succ]; exact (doubleHom_byte ⟨power i, power_lt i⟩).1
  log_lt a h := by
    obtain ⟨i, hi, rfl⟩ := exists_power h
    rwa [log_power hi]

@[simp] theorem gfTable_exp (i : ℕ) : gfTable.exp i = ⟨UInt8.ofNat (power i)⟩ := rfl

@[simp] theorem gfTable_log (a : Gf) : gfTable.log a = log a := by simp only [gfTable]

@[simp] theorem gfTable_period : gfTable.period = 255 := rfl

theorem log_lt {a : Gf} (h : a ≠ 0) : log a < 255 := by
  obtain ⟨i, hi, rfl⟩ := exists_power h
  rwa [log_power hi]

/-- `Gf::mul` is the multiplication of the table. -/
theorem mul_eq (a b : Gf) : mul a b = gfTable.mul a b := by
  by_cases h : a ≠ 0 ∧ b ≠ 0
  · have h1 := log_lt h.1
    have h2 := log_lt h.2
    rw [mul, LogTable.mul, if_pos h, if_pos h, exp_eq (by omega), gfTable_exp, gfTable_log,
      gfTable_log]
  · rw [mul, LogTable.mul, if_neg h, if_neg h]

/-! ## The field -/

protected theorem mul_assoc (a b c : Gf) : mul (mul a b) c = mul a (mul b c) := by
  simp only [mul_eq, gfTable.mul_assoc]

protected theorem mul_comm (a b : Gf) : mul a b = mul b a := by
  rw [mul_eq, mul_eq, gfTable.mul_comm]

protected theorem one_mul (a : Gf) : mul 1 a = a := by
  rw [mul_eq]
  exact gfTable.one_mul a

protected theorem mul_one (a : Gf) : mul a 1 = a := by
  rw [Gf.mul_comm, Gf.one_mul]

protected theorem zero_mul (a : Gf) : mul 0 a = 0 := by
  rw [mul_eq, gfTable.zero_mul]

protected theorem mul_zero (a : Gf) : mul a 0 = 0 := by
  rw [Gf.mul_comm, Gf.zero_mul]

protected theorem right_distrib (a b c : Gf) : mul (a + b) c = mul a c + mul b c := by
  simp only [mul_eq, gfTable.right_distrib]

protected theorem left_distrib (a b c : Gf) : mul a (b + c) = mul a b + mul a c := by
  rw [Gf.mul_comm, Gf.right_distrib, Gf.mul_comm b, Gf.mul_comm c]

protected theorem mul_inv {a : Gf} (h : a ≠ 0) : mul a (inv a) = 1 := by
  have hlt := log_lt h
  have hinv : inv a = gfTable.inv a := by
    rw [inv, LogTable.inv, if_neg h, exp_eq (by omega), gfTable_exp, gfTable_log,
      gfTable_period]
  rw [hinv, mul_eq, gfTable.mul_inv_cancel h, gfTable_exp]
  rfl

protected theorem zero_ne_one : (0 : Gf) ≠ 1 := (ofNat_power_ne_zero 0).symm

protected theorem mul_inv_cancel (a : Gf) (h : a ≠ 0) :
    mul a (if a = 0 then 0 else inv a) = 1 := by
  rw [if_neg h, Gf.mul_inv h]

instance : Field Gf where
  mul := mul
  one := 1
  inv a := if a = 0 then 0 else inv a
  mul_assoc := Gf.mul_assoc
  one_mul := Gf.one_mul
  mul_one := Gf.mul_one
  mul_comm := Gf.mul_comm
  zero_mul := Gf.zero_mul
  mul_zero := Gf.mul_zero
  left_distrib := Gf.left_distrib
  right_distrib := Gf.right_distrib
  exists_pair_ne := ⟨0, 1, Gf.zero_ne_one⟩
  mul_inv_cancel := Gf.mul_inv_cancel
  inv_zero := if_pos rfl
  nnqsmul := _
  qsmul := _

theorem mul_def (a b : Gf) : a * b = mul a b := rfl

theorem pow_eq (a : Gf) (n : ℕ) : pow a n = a ^ n := by
  by_cases hn : n = 0
  · rw [pow, if_pos hn, hn, pow_zero]
  rw [pow, if_neg hn]
  by_cases ha : a = 0
  · rw [if_neg (not_not.2 ha), ha, zero_pow hn]
  obtain ⟨i, hi, rfl⟩ := exists_power ha
  rw [if_pos ha, log_power hi, exp_eq (by omega), power_mod]
  clear hn
  induction n with
  | zero => rfl
  | succ n ih =>
    rw [pow_succ, ← ih, mul_def, mul_eq]
    exact (gfTable.mul_exp (i * n) i).symm

end Gf

end BambooNet.Tutk
