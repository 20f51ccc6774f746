import BambooNet.Lib.Decimal
import BambooNet.Lib.SortedMap
import Mathlib.Data.List.TakeWhile
import Mathlib.Data.Nat.Log

/-!
# JSON values

The values of `obn::json`: numbers are binary64, objects are maps from keys to values in key order.
An object is kept as its list of entries; `Value.WF` says that all of them are in order.
-/

namespace BambooNet.Json

/-! ## Numbers -/

/-- A binary64 number: an integer, `m / 2 ^ e` in lowest terms, an infinity or a NaN. The sign of
zero is left out, nothing reads it. -/
inductive Double
  | int (n : ℤ)
  | dyadic (m : ℤ) (e : ℕ) (lowest : m % 2 = 1 ∧ 0 < e)
  | inf (neg : Bool)
  | nan (neg : Bool)
  deriving DecidableEq

namespace Double

theorem signed_lowest (neg : Bool) (k : ℕ) {q : ℕ} (h : q % 2 = 1) :
    (if neg then -q else q : ℤ) % 2 = 1 ∧ 0 < k + 1 :=
  ⟨by split <;> omega, Nat.succ_pos k⟩

/-- `q / 2 ^ k` with the sign, in lowest terms. -/
def reduce (neg : Bool) : ℕ → ℕ → Double
  | 0, q => .int (if neg then -q else q)
  | k + 1, q =>
    if h : q % 2 = 1 then
      .dyadic (if neg then -q else q) (k + 1) (signed_lowest neg k h)
    else reduce neg k (q / 2)

/-- `a / b` rounded to an integer, ties to even. -/
def roundDiv (a b : ℕ) : ℕ :=
  let q := a / b
  let r := 2 * (a % b)
  if r < b ∨ (r = b ∧ q % 2 = 0) then q else q + 1

/-- The exponent `l` with `2 ^ l ≤ a / b < 2 ^ (l + 1)`. -/
def log2Ratio (a b : ℕ) : ℤ :=
  if b ≤ a then Nat.log2 (a / b) else -(Nat.log2 ((b - 1) / a) + 1)

/-- `a / b` rounded to the nearest double; `none` where `strtod` reports a range error: on overflow,
and on a result below the normal numbers that is not exact. -/
def ofRatio (neg : Bool) (a b : ℕ) : Option Double :=
  if a = 0 then some (.int 0)
  else
    let l := log2Ratio a b
    let e := max (l - 52) (-1074)
    let a' := a * 2 ^ (-e).toNat
    let b' := b * 2 ^ e.toNat
    let q := roundDiv a' b'
    if 971 < e ∨ (e = 971 ∧ q = 2 ^ 53) then none
    else if l < -1022 ∧ a' % b' ≠ 0 then none
    else some (reduce neg (-e).toNat (q * 2 ^ e.toNat))

/-- `static_cast<int64_t>`, which is towards zero, clamped to its range. -/
def toInt64 : Double → Option ℤ
  | .int n => some (if n ≥ 2 ^ 63 then 2 ^ 63 - 1 else if n ≤ -2 ^ 63 then -2 ^ 63 else n)
  | .dyadic m e _ => some (m.tdiv (2 ^ e))
  | .inf neg => some (if neg then -2 ^ 63 else 2 ^ 63 - 1)
  | .nan _ => none

/-- `x > 0.0`. -/
def isPos : Double → Bool
  | .int n => 0 < n
  | .dyadic m _ _ => 0 < m
  | .inf neg => !neg
  | .nan _ => false

theorem reduce_mul_two_pow (neg : Bool) (k n : ℕ) :
    reduce neg k (n * 2 ^ k) = .int (if neg then -n else n) := by
  induction k with
  | zero => simp [reduce]
  | succ k ih =>
    have hmul : n * 2 ^ (k + 1) = 2 * (n * 2 ^ k) := by ring
    rw [reduce, hmul, dif_neg (by omega), Nat.mul_div_cancel_left _ (by decide), ih]

theorem roundDiv_mul (n : ℕ) {b : ℕ} (hb : 0 < b) : roundDiv (n * b) b = n := by
  simp [roundDiv, hb]

theorem roundDiv_mul_mul (n y : ℕ) {b : ℕ} (hb : 0 < b) :
    roundDiv (n * b) (y * b) = roundDiv n y := by
  have hlt : 2 * (n % y * b) < y * b ↔ 2 * (n % y) < y := by
    rw [← mul_assoc]
    exact Nat.mul_lt_mul_right hb
  have heq : 2 * (n % y * b) = y * b ↔ 2 * (n % y) = y := by
    rw [← mul_assoc]
    exact Nat.mul_left_inj hb.ne'
  simp only [roundDiv, Nat.mul_div_mul_right n y hb, Nat.mul_mod_mul_right, hlt, heq]

theorem log2Ratio_mul {n b : ℕ} (hn : n ≠ 0) (hb : 0 < b) :
    log2Ratio (n * b) b = Nat.log2 n := by
  rw [log2Ratio, if_pos (Nat.le_mul_of_pos_left b (Nat.pos_of_ne_zero hn)),
    Nat.mul_div_cancel _ hb]

/-- An integer whose bits below the 53 highest are zero is exact. -/
theorem ofRatio_exact (neg : Bool) {n b : ℕ} (hn : 2 ^ (Nat.log2 n - 52) ∣ n)
    (hlarge : Nat.log2 n ≤ 1000) (hb : 0 < b) :
    ofRatio neg (n * b) b = some (.int (if neg then -n else n)) := by
  unfold ofRatio
  by_cases h0 : n = 0
  · simp [h0]
  have hnb : n * b ≠ 0 := Nat.mul_ne_zero h0 hb.ne'
  rw [if_neg hnb, log2Ratio_mul h0 hb]
  dsimp only
  -- the power of two the mantissa is scaled by divides `n`
  obtain ⟨c, hc⟩ : ∃ c, n * 2 ^ (-max ((Nat.log2 n : ℤ) - 52) (-1074)).toNat =
      c * 2 ^ (max ((Nat.log2 n : ℤ) - 52) (-1074)).toNat := by
    have hexp : (max ((Nat.log2 n : ℤ) - 52) (-1074)).toNat = Nat.log2 n - 52 := by omega
    rw [hexp]
    obtain ⟨c, hc⟩ := dvd_mul_of_dvd_left hn (2 ^ (-max ((Nat.log2 n : ℤ) - 52) (-1074)).toNat)
    exact ⟨c, by rw [hc, mul_comm]⟩
  have hhigh : max ((Nat.log2 n : ℤ) - 52) (-1074) ≤ 948 := by omega
  generalize max ((Nat.log2 n : ℤ) - 52) (-1074) = e at hc hhigh ⊢
  have hbe : 0 < b * 2 ^ e.toNat := by positivity
  have hscaled : n * b * 2 ^ (-e).toNat = c * (b * 2 ^ e.toNat) := by
    calc n * b * 2 ^ (-e).toNat = b * (n * 2 ^ (-e).toNat) := by ring
      _ = c * (b * 2 ^ e.toNat) := by rw [hc]; ring
  simp only [hscaled, roundDiv_mul c hbe]
  rw [if_neg (by omega), if_neg (by simp), ← hc, reduce_mul_two_pow]

/-- **Integers of magnitude at most `2 ^ 53` are exact.** -/
theorem ofRatio_int (neg : Bool) {n b : ℕ} (hn : n ≤ 2 ^ 53) (hb : 0 < b) :
    ofRatio neg (n * b) b = some (.int (if neg then -n else n)) := by
  by_cases h0 : n = 0
  · simp [h0, ofRatio]
  have hle : 2 ^ Nat.log2 n ≤ n := Nat.log2_self_le h0
  have h53 : Nat.log2 n ≤ 53 := by
    by_contra hlt
    have := Nat.pow_le_pow_right (show 0 < 2 by decide) (show 54 ≤ Nat.log2 n by omega)
    omega
  refine ofRatio_exact neg ?_ (by omega) hb
  by_cases hl : Nat.log2 n ≤ 52
  · rw [Nat.sub_eq_zero_of_le hl, pow_zero]
    exact one_dvd n
  · have h : Nat.log2 n = 53 := by omega
    rw [h] at hle ⊢
    obtain rfl : n = 2 ^ 53 := le_antisymm hn hle
    exact ⟨2 ^ 52, by norm_num⟩

/-- `static_cast<double>` of an unsigned integer. -/
def ofNat (n : ℕ) : Double := (ofRatio false n 1).getD (.inf false)

theorem ofNat_of_le {n : ℕ} (hn : n ≤ 2 ^ 53) : ofNat n = .int n := by
  have := ofRatio_int false hn Nat.one_pos
  rw [Nat.mul_one] at this
  rw [ofNat, this]
  rfl

theorem log2_lt_of_lt {n k : ℕ} (h : n < 2 ^ k) (hk : 0 < k) : Nat.log2 n < k := by
  by_cases h0 : n = 0
  · rwa [h0, Nat.log2_zero]
  · exact (Nat.log2_lt h0).mpr h

/-- Below `2 ^ 64` the multiples of `2 ^ 11` are exact. -/
theorem ofNat_of_dvd {n : ℕ} (hn : n < 2 ^ 64) (hdvd : 2 ^ 11 ∣ n) : ofNat n = .int n := by
  have hlog := log2_lt_of_lt hn (by decide)
  have hpow : 2 ^ (Nat.log2 n - 52) ∣ 2 ^ 11 := pow_dvd_pow 2 (by omega)
  have := ofRatio_exact false (hpow.trans hdvd) (by omega) Nat.one_pos
  rw [Nat.mul_one] at this
  rw [ofNat, this]
  rfl

/-- Rounding below `2 ^ 64` does not go past a multiple of `2 ^ 11`. -/
theorem ofNat_ge {n : ℕ} (hn : n < 2 ^ 64) :
    ∃ m : ℕ, ofNat n = .int m ∧ ∀ d ≤ n, 2 ^ 11 ∣ d → d ≤ m := by
  have hlog := log2_lt_of_lt hn (by decide)
  by_cases hl : Nat.log2 n ≤ 52
  · have := ofRatio_exact false (n := n) (b := 1)
      (by rw [Nat.sub_eq_zero_of_le hl, pow_zero]; exact one_dvd n) (by omega) Nat.one_pos
    rw [Nat.mul_one] at this
    exact ⟨n, by rw [ofNat, this]; rfl, fun d hd _ => hd⟩
  obtain ⟨e, he⟩ : ∃ e : ℕ, Nat.log2 n = 52 + e := ⟨Nat.log2 n - 52, by omega⟩
  have h0 : n ≠ 0 := by
    rintro rfl
    rw [Nat.log2_zero] at he
    omega
  have hratio : log2Ratio n 1 = 52 + e := by
    rw [log2Ratio, if_pos (by omega), Nat.div_one, he]
    norm_num
  have hmax : max ((52 + e : ℤ) - 52) (-1074) = e := by omega
  refine ⟨roundDiv n (2 ^ e) * 2 ^ e, ?_, fun d hd hdvd => ?_⟩
  · rw [ofNat, ofRatio, if_neg h0]
    simp only [hratio, hmax]
    rw [if_neg (by omega), if_neg (by omega)]
    simp [reduce]
  · have hfloor : n / 2 ^ e ≤ roundDiv n (2 ^ e) := by
      rw [roundDiv]
      split <;> omega
    have hdvd' : 2 ^ e ∣ d := (pow_dvd_pow 2 (by omega)).trans hdvd
    calc d = d / 2 ^ e * 2 ^ e := (Nat.div_mul_cancel hdvd').symm
      _ ≤ n / 2 ^ e * 2 ^ e := Nat.mul_le_mul_right _ (Nat.div_le_div_right hd)
      _ ≤ roundDiv n (2 ^ e) * 2 ^ e := Nat.mul_le_mul_right _ hfloor

/-! ## Integers through a double -/

/-- An integer with a sign. -/
def signed (neg : Bool) (n : ℕ) : ℤ := if neg then -n else n

/-- What a large integer is rounded to. -/
theorem ofRatio_large {neg : Bool} {n b e : ℕ} {x : Double} (hb : 0 < b)
    (hlog : Nat.log2 n = 52 + e) (h : ofRatio neg (n * b) b = some x) :
    x = .int (signed neg (roundDiv n (2 ^ e) * 2 ^ e)) := by
  have h0 : n ≠ 0 := by
    rintro rfl
    rw [Nat.log2_zero] at hlog
    omega
  have hmax : max (((52 + e : ℕ) : ℤ) - 52) (-1074) = e := by omega
  have hscaled : roundDiv (n * b) (b * 2 ^ e) = roundDiv n (2 ^ e) := by
    rw [mul_comm b, roundDiv_mul_mul n _ hb]
  rw [ofRatio, if_neg (Nat.mul_ne_zero h0 hb.ne'), log2Ratio_mul h0 hb, hlog] at h
  simp only [hmax, Int.toNat_natCast, Int.toNat_neg_natCast, pow_zero, mul_one, hscaled] at h
  split at h
  · cases h
  · split at h
    · cases h
    · exact (Option.some.inj h).symm

theorem toInt64_int (n : ℤ) : (Double.int n).toInt64 =
    some (if n ≥ 2 ^ 63 then 2 ^ 63 - 1 else if n ≤ -2 ^ 63 then -2 ^ 63 else n) := rfl

/-- An integer that `int64_t` and a double hold, or the largest one of `int64_t`, which is rounded
out of the range and clamped back to it. -/
def Held (z : ℤ) : Prop :=
  (-2 ^ 63 ≤ z ∧ z < 2 ^ 63 ∧ 2 ^ (Nat.log2 z.natAbs - 52) ∣ z.natAbs) ∨ z = 2 ^ 63 - 1

theorem natAbs_signed (neg : Bool) (n : ℕ) : (signed neg n).natAbs = n := by
  unfold signed
  split
  · rw [Int.natAbs_neg, Int.natAbs_natCast]
  · exact Int.natAbs_natCast n

/-- What rounding makes of a multiple, of the largest `int64_t`, and of everything else. -/
theorem roundDiv_pow_mul {n e : ℕ} (hlog : Nat.log2 n = 52 + e) :
    (2 ^ e ∣ n → roundDiv n (2 ^ e) * 2 ^ e = n) ∧
      (n = 2 ^ 63 - 1 → roundDiv n (2 ^ e) * 2 ^ e = 2 ^ 63) := by
  constructor
  · rintro ⟨c, rfl⟩
    rw [mul_comm (2 ^ e), roundDiv_mul c (by positivity)]
  · rintro rfl
    have hlarge : Nat.log2 (2 ^ 63 - 1) = 62 := by decide
    obtain rfl : e = 10 := by omega
    rfl

/-- **An integer keeps its value** through a double to `int64_t` exactly when both hold it. -/
theorem toInt64_ofRatio_iff {neg : Bool} {n b : ℕ} {x : Double} (hb : 0 < b)
    (h : ofRatio neg (n * b) b = some x) :
    x.toInt64 = some (signed neg n) ↔ Held (signed neg n) := by
  have hcases : signed neg n = n ∨ signed neg n = -n := by
    unfold signed
    split
    · exact .inr rfl
    · exact .inl rfl
  rw [Held, natAbs_signed]
  rcases Nat.lt_or_ge (Nat.log2 n) 53 with hsmall | hlarge
  · have hle : n ≤ 2 ^ 53 :=
      (Nat.lt_log2_self.trans_le (Nat.pow_le_pow_right (by decide) hsmall)).le
    have hx : x = .int (signed neg n) := Option.some.inj (h.symm.trans (ofRatio_int neg hle hb))
    rw [hx, toInt64_int, if_neg (by omega), if_neg (by omega)]
    refine iff_of_true rfl (.inl ⟨by omega, by omega, ?_⟩)
    rw [Nat.sub_eq_zero_of_le (Nat.lt_succ_iff.1 hsmall), pow_zero]
    exact one_dvd n
  · obtain ⟨e, hlog⟩ : ∃ e, Nat.log2 n = 52 + e := ⟨Nat.log2 n - 52, by omega⟩
    obtain ⟨hmul, hmax⟩ := roundDiv_pow_mul hlog
    rw [ofRatio_large hb hlog h, toInt64_int, Option.some_inj, hlog, Nat.add_sub_cancel_left]
    generalize hw : roundDiv n (2 ^ e) * 2 ^ e = w at hmul hmax
    have hwcases : neg = false ∧ signed neg w = w ∧ signed neg n = n ∨
        neg = true ∧ signed neg w = -w ∧ signed neg n = -n := by
      cases neg
      · exact .inl ⟨rfl, rfl, rfl⟩
      · exact .inr ⟨rfl, rfl, rfl⟩
    constructor
    · intro heq
      split_ifs at heq with hhigh hlow
      · exact .inr heq.symm
      · have hn : n = 2 ^ 63 := by omega
        have hlog63 : Nat.log2 (2 ^ 63) = 63 := by decide
        subst hn
        obtain rfl : e = 11 := by omega
        exact .inl ⟨by omega, by omega, ⟨2 ^ 52, by norm_num⟩⟩
      · have hsame : w = n := by omega
        exact .inl ⟨by omega, by omega, hsame ▸ hw ▸ Nat.dvd_mul_left _ _⟩
    · rintro (⟨hlow, hhigh, hdvd⟩ | hz)
      · rw [hmul hdvd, if_neg (by omega)]
        split
        · omega
        · rfl
      · have hn : n = 2 ^ 63 - 1 := by omega
        rw [hmax hn, if_pos]
        · exact hz.symm
        · rcases hwcases with ⟨rfl, -, -⟩ | ⟨rfl, -, hneg⟩
          · show ((2 ^ 63 : ℕ) : ℤ) ≥ 2 ^ 63
            norm_num
          · omega

/-- A run of digits without its trailing zeros. -/
def trimZeros (l : Bytes) : Bytes := (l.reverse.dropWhile (· = 0x30)).reverse

/-- A fraction, which is left out when it is zero. -/
def fraction (l : Bytes) : Bytes :=
  if trimZeros l = [] then [] else ascii "." ++ trimZeros l

/-- The layout of `%g`: a decimal exponent and the significant digits from that place on, in
scientific notation when the exponent is below -4 or above 16. -/
def layout (neg : Bool) (p : ℤ) (digits : Bytes) : Bytes :=
  (if neg then ascii "-" else []) ++
    if p < -4 ∨ 17 ≤ p then
      digits.take 1 ++ fraction (digits.drop 1) ++ ascii "e" ++
        (if p < 0 then ascii "-" else ascii "+") ++
        (if p.natAbs < 10 then ascii "0" else []) ++ decimal p.natAbs
    else if p < 0 then ascii "0" ++ fraction (List.replicate (-p - 1).toNat 0x30 ++ digits)
    else digits.take (p + 1).toNat ++ fraction (digits.drop (p + 1).toNat)

/-- `%.17g` of `a / b`: 17 significant digits. -/
def formatGeneral (neg : Bool) (a b : ℕ) : Bytes :=
  let p : ℤ := if b ≤ a then Nat.log 10 (a / b) else -(Nat.log 10 ((b - 1) / a) + 1)
  let d := roundDiv (a * 10 ^ (16 - p).toNat) (b * 10 ^ (p - 16).toNat)
  if d = 10 ^ 17 then layout neg (p + 1) (decimal (10 ^ 16)) else layout neg p (decimal d)

/-- How `dump` prints a number: integers that `int64_t` holds as integers. -/
def dump : Double → Bytes
  | .int n =>
    if -(2 ^ 63 - 1024) ≤ n ∧ n ≤ 2 ^ 63 - 1024 then decimalInt n
    else formatGeneral (decide (n < 0)) n.natAbs 1
  | .dyadic m e _ => formatGeneral (decide (m < 0)) m.natAbs (2 ^ e)
  | .inf neg => if neg then ascii "-inf" else ascii "inf"
  | .nan neg => if neg then ascii "-nan" else ascii "nan"

end Double

/-! ## Values -/

inductive Value
  | null
  | bool (b : Bool)
  | number (x : Double)
  | string (s : Bytes)
  | array (vs : List Value)
  | object (entries : List (Bytes × Value))

instance : Inhabited Value := ⟨.null⟩

/-- The entries of an object. -/
abbrev Object := List (Bytes × Value)

namespace Value

def isObject : Value → Bool
  | .object _ => true
  | _ => false

def isNumber : Value → Bool
  | .number _ => true
  | _ => false

/-- The accessors give a default for a value of another kind. -/
def asBool : Value → Bool
  | .bool b => b
  | _ => false

def asString : Value → Bytes
  | .string s => s
  | _ => []

def asInt (v : Value) (default : ℤ) : ℤ :=
  match v with
  | .number x => x.toInt64.getD default
  | _ => default

def asArray : Value → List Value
  | .array vs => vs
  | _ => []

def asObject : Value → Object
  | .object es => es
  | _ => []

/-- `std::stoul`: spaces, a sign, digits; a negative number wraps. -/
def stoul? (s : Bytes) : Option ℕ :=
  let s := s.dropWhile fun c => c == 0x20 || (0x09 ≤ c && c ≤ 0x0d)
  let (neg, s) := match s with
    | c :: s' => if c = 0x2d then (true, s') else if c = 0x2b then (false, s') else (false, s)
    | [] => (false, s)
  let digits := s.takeWhile isDigit
  let n := natOf digits
  if digits = [] ∨ 2 ^ 64 ≤ n then none else some (if neg then (2 ^ 64 - n) % 2 ^ 64 else n)

/-- The path after a key or an index, without the dot. -/
def dropDot (path : Bytes) : Bytes := if path.head? = some 0x2e then path.drop 1 else path

def findLoop : ℕ → Value → Bytes → Value
  | _, cur, [] => cur
  | 0, _, _ :: _ => .null
  | fuel + 1, cur, c :: path =>
    if c = 0x5b then
      let idx := path.takeWhile (· ≠ 0x5d)
      match path.drop idx.length, cur with
      | _ :: path, .array vs =>
        match (stoul? idx).bind fun i => vs[i]? with
        | none => .null
        | some v => findLoop fuel v (dropDot path)
      | _, _ => .null
    else
      let key := (c :: path).takeWhile fun c => c ≠ 0x2e ∧ c ≠ 0x5b
      match cur with
      | .object es =>
        match Entries.get? key es with
        | none => .null
        | some v => findLoop fuel v (dropDot ((c :: path).drop key.length))
      | _ => .null

/-- The value at a path such as `a.b[2].c`, null on a miss. -/
def find (v : Value) (path : Bytes) : Value := findLoop path.length v path

/-- A path without dots and brackets is a key. -/
theorem find_key {key : Bytes} (hne : key ≠ []) (hkey : ∀ c ∈ key, c ≠ 0x2e ∧ c ≠ 0x5b)
    (v : Value) : v.find key = (Entries.get? key v.asObject).getD .null := by
  obtain ⟨c, path, rfl⟩ := List.exists_cons_of_ne_nil hne
  have hall : (c :: path).takeWhile (fun c => c ≠ 0x2e ∧ c ≠ 0x5b) = c :: path :=
    List.takeWhile_eq_self_iff.2 fun d hd => decide_eq_true (hkey d hd)
  have hdone (v : Value) : findLoop path.length v [] = v := by cases path <;> rfl
  rw [find, List.length_cons, findLoop, if_neg (hkey c List.mem_cons_self).2]
  simp only [hall, List.drop_length]
  cases v with
  | object es =>
    cases hget : Entries.get? (c :: path) es with
    | none => simp [asObject, hget]
    | some w => simpa [asObject, hget, dropDot] using hdone w
  | null | bool | number | string | array => simp [asObject, Entries.get?]

/-- Induction over a value and all values in it. -/
@[elab_as_elim, induction_eliminator]
theorem induction {P : Value → Prop} (null : P .null) (bool : ∀ b, P (.bool b))
    (number : ∀ x, P (.number x)) (string : ∀ s, P (.string s))
    (array : ∀ vs, (∀ v ∈ vs, P v) → P (.array vs))
    (object : ∀ es : Object, (∀ e ∈ es, P e.2) → P (.object es)) (v : Value) : P v :=
  @Value.rec P (fun vs => ∀ v ∈ vs, P v) (fun es => ∀ e ∈ es, P e.2) (fun e => P e.2)
    null bool number string array object (by simp)
    (fun _ _ hv hvs _ hw => (List.mem_cons.1 hw).elim (fun h => h ▸ hv) (hvs _)) (by simp)
    (fun _ _ he hes _ hw => (List.mem_cons.1 hw).elim (fun h => h ▸ he) (hes _))
    (fun _ _ hv => hv) v

mutual

/-- How deep containers are nested. -/
def depth : Value → ℕ
  | .array vs => depthElements vs + 1
  | .object es => depthEntries es + 1
  | _ => 0

def depthElements : List Value → ℕ
  | [] => 0
  | v :: vs => max v.depth (depthElements vs)

def depthEntries : Object → ℕ
  | [] => 0
  | (_, v) :: es => max v.depth (depthEntries es)

end

theorem depthElements_le_iff {vs : List Value} {n : ℕ} :
    depthElements vs ≤ n ↔ ∀ v ∈ vs, v.depth ≤ n := by
  induction vs with
  | nil => simp [depthElements]
  | cons v vs ih => simp [depthElements, ih]

theorem depthEntries_le_iff {es : Object} {n : ℕ} :
    depthEntries es ≤ n ↔ ∀ e ∈ es, e.2.depth ≤ n := by
  induction es with
  | nil => simp [depthEntries]
  | cons e es ih => simp [depthEntries, ih]

/-- A property of a value and of all values in it. -/
inductive All (P : Value → Prop) : Value → Prop
  | null : P .null → All P .null
  | bool {b} : P (.bool b) → All P (.bool b)
  | number {x} : P (.number x) → All P (.number x)
  | string {s} : P (.string s) → All P (.string s)
  | array {vs} : P (.array vs) → (∀ v ∈ vs, All P v) → All P (.array vs)
  | object {es} : P (.object es) → (∀ e ∈ es, All P e.2) → All P (.object es)

/-- Every object has its keys in order. -/
def WF : Value → Prop := All fun
  | .object es => Entries.Sorted es
  | _ => True

/-- Every number is an integer of magnitude at most `2 ^ 53`. -/
def IntNumbers : Value → Prop := All fun
  | .number x => ∃ n : ℤ, x = .int n ∧ n.natAbs ≤ 2 ^ 53
  | _ => True

end Value

end BambooNet.Json
