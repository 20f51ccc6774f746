import BambooNet.Lib.ExpGolomb
import BambooNet.Lib.Program

/-!
# The geometry in an SPS

`parse_sps_geometry` walks through the syntax of a sequence parameter set up to the timing in its
VUI, and computes the size of the cropped frame.

**The walk** (`readSps`) is a program over what is read. The bit reader of the code runs it on
32-bit numbers (`RbspReader`, which remembers when a number did not fit its type), and so does a
reader over unbounded integers (`decode`), which is what the syntax elements are. They agree until a
sum in a scaling list does not fit (`read_spec`).

**Theorem (`geometry_iff`).** No number is too large for its type and what is reported is the exact
size, if and only if no sum in a scaling list and no sum of two cropping offsets is.
-/

namespace BambooNet.Camera.Sps

open BitString

/-! ## The bit reader -/

/-- The reader of the code; `wrapped` once a sum was not its exact value, `outside` once a read was
not in the buffer. -/
structure RbspReader where
  buf : Bytes
  bit : ℕ
  ok : Bool
  wrapped : Bool
  outside : Bool
  deriving DecidableEq

/-- The bytes without those of emulation prevention. -/
def unescaped : Bytes → Bytes
  | a :: b :: c :: rest =>
    if a = 0 ∧ b = 0 ∧ c = 3 then 0 :: 0 :: unescaped rest else a :: unescaped (b :: c :: rest)
  | s => s

namespace RbspReader

def new (data : Bytes) : RbspReader := ⟨unescaped data, 0, true, false, false⟩

/-- A sum as a `uint32_t`. -/
def uint32 (r : RbspReader) (x : ℕ) : ℕ × RbspReader :=
  (x % 2 ^ 32, { r with wrapped := r.wrapped || decide (2 ^ 32 ≤ x) })

/-- A sum as an `int32_t`. -/
def int32 (r : RbspReader) (x : ℤ) : ℤ × RbspReader :=
  (x.bmod (2 ^ 32), { r with wrapped := r.wrapped || decide ¬ (-2 ^ 31 ≤ x ∧ x < 2 ^ 31) })

/-- A product or difference as an `int64_t`. -/
def int64 (r : RbspReader) (x : ℤ) : ℤ × RbspReader :=
  (x.bmod (2 ^ 64), { r with wrapped := r.wrapped || decide ¬ (-2 ^ 63 ≤ x ∧ x < 2 ^ 63) })

/-- The loop of `u`, with the bits so far in `v`. -/
def uLoop : ℕ → ℕ → RbspReader → ℕ × RbspReader
  | 0, v, r => (v, r)
  | n + 1, v, r =>
    let byte := r.bit / 8
    if r.buf.length ≤ byte then (0, { r with ok := false })
    else
      match r.buf[byte]? with
      | none => (0, { r with outside := true })
      | some b =>
        let shift := 7 - r.bit % 8
        uLoop n ((v <<< 1) % 2 ^ 32 ||| (b.toNat >>> shift &&& 1)) { r with bit := r.bit + 1 }

def u (bits : ℕ) (r : RbspReader) : ℕ × RbspReader := uLoop bits 0 r

/-- The loop of `ue`, after `zeros` zeros and with room for `left` more; `none` for too many. -/
def zeroLoop : ℕ → ℕ → RbspReader → Option ℕ × RbspReader
  | 0, zeros, r =>
    if r.ok = false then (some zeros, r)
    else if (r.u 1).1 ≠ 0 then (some zeros, (r.u 1).2)
    else (none, { (r.u 1).2 with ok := false })
  | left + 1, zeros, r =>
    if r.ok = false then (some zeros, r)
    else if (r.u 1).1 ≠ 0 then (some zeros, (r.u 1).2)
    else zeroLoop left (zeros + 1) (r.u 1).2

def ue (r : RbspReader) : ℕ × RbspReader :=
  match zeroLoop 31 0 r with
  | (none, r) => (0, r)
  | (some zeros, r) =>
    if r.ok = false ∨ zeros = 0 then (0, r)
    else (r.u zeros).2.uint32 ((1 <<< zeros) - 1 + (r.u zeros).1)

def se (r : RbspReader) : ℤ × RbspReader :=
  let (k, r) := r.ue
  if k = 0 then (0, r)
  else
    let (k1, r) := r.uint32 (k + 1)
    let mag : ℤ := (k1 / 2 : ℕ)
    (if k % 2 = 1 then mag else -mag, r)

end RbspReader

/-! ## The walk -/

/-- What a remainder by 256 can be. -/
structure Scale where
  val : ℤ
  lower : -256 < val
  upper : val < 256

theorem Scale.lower_ofSum (x : ℤ) : -256 < x.tmod 256 := by
  have := Int.lt_tmod_of_pos x (by decide : (0 : ℤ) < 256)
  omega

theorem Scale.upper_ofSum (x : ℤ) : x.tmod 256 < 256 := Int.tmod_lt_of_pos x (by decide)

def Scale.ofSum (x : ℤ) : Scale := ⟨x.tmod 256, Scale.lower_ofSum x, Scale.upper_ofSum x⟩

/-- What the parser asks of the reader. -/
inductive Op
  | u (bits : Fin 33)
  | ue
  | se
  /-- `r.ue() + 1`. -/
  | ueSucc
  | ok
  /-- A round of `skip_scaling_list`: the next scale, or `none` when the reader is not `ok`. -/
  | nextScale (last next : Scale)

def Op.Ans : Op → Type
  | u _ | ue | ueSucc => ℕ
  | se => ℤ
  | ok => Bool
  | nextScale _ _ => Option Scale

abbrev Reading := Program Op Op.Ans

def u (bits : Fin 33) : Reading ℕ := .lift (Op.u bits)
def ue : Reading ℕ := .lift Op.ue
def se : Reading ℤ := .lift Op.se
def ueSucc : Reading ℕ := .lift Op.ueSucc
def ok : Reading Bool := .lift Op.ok
def nextScale (last next : Scale) : Reading (Option Scale) := .lift (Op.nextScale last next)

def profileHasChromaBlock (profileIdc : ℕ) : Bool :=
  profileIdc ∈ [100, 110, 122, 244, 44, 83, 86, 118, 128, 138, 139, 134, 135]

/-- `skip_scaling_list`, with the rounds that are left. -/
def skipScalingList : ℕ → Scale → Scale → Reading Unit
  | 0, _, _ => pure ()
  | size + 1, last, next => do
    match ← nextScale last next with
    | none => pure ()
    | some next => skipScalingList size (if next.val = 0 then last else next) next

theorem Scale.eight_lower : (-256 : ℤ) < 8 := by decide
theorem Scale.eight_upper : (8 : ℤ) < 256 := by decide

def Scale.eight : Scale := ⟨8, Scale.eight_lower, Scale.eight_upper⟩

/-- The scaling lists from the `i`th on. -/
def skipScalingLists : ℕ → ℕ → Reading Unit
  | _, 0 => pure ()
  | i, lists + 1 => do
    if ← ok then
      if (← u 1) ≠ 0 then skipScalingList (if i < 6 then 16 else 64) .eight .eight
      skipScalingLists (i + 1) lists

/-- `offset_for_ref_frame`, as long as the reader is `ok`. -/
def skipOffsets : ℕ → Reading Unit
  | 0 => pure ()
  | n + 1 => do
    if ← ok then
      let _ ← se
      skipOffsets n

/-- What the walk keeps of the SPS. -/
structure Fields where
  chromaFormatIdc : ℕ
  separateColourPlane : Bool
  widthMbs : ℕ
  heightMaps : ℕ
  frameMbsOnly : Bool
  cropL : ℕ
  cropR : ℕ
  cropT : ℕ
  cropB : ℕ
  fps : ℕ
  deriving DecidableEq

/-- A frame takes two ticks. The quotient keeps so far from 1000 and from every half that rounding
it to a `double` leaves the comparison and the sum as they are. -/
def fpsOf (numUnitsInTick timeScale : ℕ) : ℕ :=
  if timeScale < 1000 * (2 * numUnitsInTick) then
    (timeScale + numUnitsInTick) / (2 * numUnitsInTick)
  else 0

/-- The block of the high profiles: `chroma_format_idc` and `separate_colour_plane_flag`. -/
def readChroma (profileIdc : ℕ) : Reading (ℕ × Bool) :=
  if profileHasChromaBlock profileIdc then do
    let chromaFormatIdc ← ue
    let mut separateColourPlane := false
    if chromaFormatIdc = 3 then
      separateColourPlane := (← u 1) ≠ 0
    let _ ← ue
    let _ ← ue
    let _ ← u 1
    if (← u 1) ≠ 0 then
      skipScalingLists 0 (if chromaFormatIdc ≠ 3 then 8 else 12)
    return (chromaFormatIdc, separateColourPlane)
  else return (1, false)

/-- The elements of the picture order count. -/
def skipPocType : Reading Unit := do
  let pocType ← ue
  if pocType = 0 then
    let _ ← ue
  else if pocType = 1 then
    let _ ← u 1
    let _ ← se
    let _ ← se
    skipOffsets (← ue)

/-- The offsets at the left, right, top and bottom. -/
def readCropping : Reading (ℕ × ℕ × ℕ × ℕ) := do
  if (← u 1) ≠ 0 then
    let cropL ← ue
    let cropR ← ue
    let cropT ← ue
    let cropB ← ue
    return (cropL, cropR, cropT, cropB)
  else return (0, 0, 0, 0)

/-- The VUI up to the timing, for the frame rate. -/
def readFps : Reading ℕ := do
  if (← u 1) ≠ 0 then
    if (← u 1) ≠ 0 then
      if (← u 8) = 255 then
        let _ ← u 16
        let _ ← u 16
    if (← u 1) ≠ 0 then
      let _ ← u 1
    if (← u 1) ≠ 0 then
      let _ ← u 3
      let _ ← u 1
      if (← u 1) ≠ 0 then
        let _ ← u 8
        let _ ← u 8
        let _ ← u 8
    if (← u 1) ≠ 0 then
      let _ ← ue
      let _ ← ue
    if (← u 1) ≠ 0 then
      let numUnitsInTick ← u 32
      let timeScale ← u 32
      let _ ← u 1
      if (← ok) ∧ numUnitsInTick > 0 ∧ timeScale > 0 then
        return fpsOf numUnitsInTick timeScale
  return 0

/-- What follows the size: `frame_mbs_only_flag`, the cropping and the frame rate. -/
def readRest : Reading (Bool × (ℕ × ℕ × ℕ × ℕ) × ℕ) := do
  let frameMbsOnly := (← u 1) ≠ 0
  if !frameMbsOnly then
    let _ ← u 1
  let _ ← u 1
  let cropping ← readCropping
  let fps ← readFps
  return (frameMbsOnly, cropping, fps)

/-- From the number of macroblocks in a row on. -/
def readFrame (chroma : ℕ × Bool) : Reading Fields := do
  let widthMbs ← ueSucc
  let heightMaps ← ueSucc
  let (frameMbsOnly, (cropL, cropR, cropT, cropB), fps) ← readRest
  return { chromaFormatIdc := chroma.1, separateColourPlane := chroma.2, widthMbs, heightMaps,
           frameMbsOnly, cropL, cropR, cropT, cropB, fps }

def readSps : Reading Fields := do
  let profileIdc ← u 8
  let _ ← u 8
  let _ ← u 8
  let _ ← ue
  let chroma ← readChroma profileIdc
  let _ ← ue
  skipPocType
  let _ ← ue
  let _ ← u 1
  readFrame chroma

/-- The reader's answers. -/
def RbspReader.handle : (op : Op) → StateM RbspReader op.Ans
  | .u bits => fun r => r.u bits
  | .ue => fun r => r.ue
  | .se => fun r => r.se
  | .ueSucc => fun r => r.ue.2.uint32 (r.ue.1 + 1)
  | .ok => fun r => (r.ok, r)
  | .nextScale last next => fun r =>
    if r.ok = false then (none, r)
    else if next.val ≠ 0 then
      let (delta, r) := r.se
      let (sum, r) := r.int32 (last.val + delta)
      let (sum, r) := r.int32 (sum + 256)
      (some (.ofSum sum), r)
    else (some next, r)

/-! ## The size -/

structure SpsGeometry where
  width : ℤ
  height : ℤ
  fps : ℤ
  deriving DecidableEq

/-- What the call returns and leaves in `out`, and the reader at its end. -/
structure Outcome where
  result : Bool
  out : SpsGeometry
  reader : RbspReader

def chromaArrayType (e : Fields) : ℕ := if e.separateColourPlane then 0 else e.chromaFormatIdc

/-- `SubWidthC` and `SubHeightC`; 1 for the formats without subsampling and for reserved ones. -/
def subsampling (chroma : ℕ) : ℕ × ℕ :=
  if chroma = 1 then (2, 2) else if chroma = 2 then (2, 1) else (1, 1)

def unitX (e : Fields) : ℕ :=
  if chromaArrayType e = 0 then 1 else (subsampling (chromaArrayType e)).1

def unitY (e : Fields) : ℕ :=
  (if chromaArrayType e = 0 then 1 else (subsampling (chromaArrayType e)).2) *
    (if e.frameMbsOnly then 1 else 2)

/-- A coded size less the samples that are cropped on both sides. -/
def cropped (coded : ℤ) (a b unit : ℕ) (r : RbspReader) : ℤ × RbspReader :=
  let (crop, r) := r.uint32 (a + b)
  let (crop, r) := r.int64 (crop * unit)
  let (coded, r) := r.int64 coded
  r.int64 (coded - crop)

/-- What follows the walk. -/
def finish (e : Fields) (out : SpsGeometry) (r : RbspReader) : Outcome :=
  let (w, r) := cropped (e.widthMbs * 16) e.cropL e.cropR (unitX e) r
  let (h, r) := cropped (e.heightMaps * 16 * (if e.frameMbsOnly then 1 else 2)) e.cropT e.cropB
    (unitY e) r
  if w ≤ 0 ∨ h ≤ 0 ∨ w > 16384 ∨ h > 16384 then ⟨false, out, r⟩
  else ⟨true, ⟨w, h, e.fps⟩, r⟩

def parseSpsGeometry (sps : Bytes) (out : SpsGeometry) : Outcome :=
  if sps.length < 4 then ⟨false, out, .new []⟩
  else
    let (e, r) := readSps.interp RbspReader.handle (.new (sps.drop 1))
    if r.ok = false then ⟨false, out, r⟩ else finish e out r

/-! ## The syntax elements -/

/-- Why an SPS has no syntax elements: it ends in them, or they run away. -/
inductive Failure
  | cut
  | scale
  deriving DecidableEq

def exactly {α : Type} (x : Option (α × List Bool)) : Except Failure (α × List Bool) :=
  x.elim (.error .cut) .ok

/-- The sums of `skip_scaling_list` fit 32 bits. -/
def ScaleFits (last : Scale) (delta : ℤ) : Prop :=
  -2 ^ 31 ≤ last.val + delta ∧ last.val + delta + 256 < 2 ^ 31

instance instDecidableScaleFits (last : Scale) (delta : ℤ) : Decidable (ScaleFits last delta) :=
  inferInstanceAs (Decidable (_ ∧ _))

/-- The answers over unbounded numbers, from the bits that are left. -/
def exact : (op : Op) → StateT (List Bool) (Except Failure) op.Ans
  | .u bits => fun s => exactly (readBits bits s)
  | .ue => fun s => exactly (readUe 31 s)
  | .se => fun s => exactly ((readUe 31 s).map fun x => (signed x.1, x.2))
  | .ueSucc => fun s => exactly ((readUe 31 s).map fun x => (x.1 + 1, x.2))
  | .ok => fun s => .ok (true, s)
  | .nextScale last next => fun s =>
    if next.val = 0 then .ok (some next, s)
    else
      match readUe 31 s with
      | none => .error .cut
      | some (k, s) =>
        if ScaleFits last (signed k) then .ok (some (.ofSum (last.val + signed k + 256)), s)
        else .error .scale

/-- The syntax elements of an SPS. -/
def decode (sps : Bytes) : Except Failure Fields :=
  (readSps.interp exact (bits (unescaped (sps.drop 1)))).map Prod.fst

/-- The width and height of the cropped frame, as the standard has them. -/
def frameSize (e : Fields) : ℤ × ℤ :=
  (16 * e.widthMbs - unitX e * (e.cropL + e.cropR),
    16 * ((if e.frameMbsOnly then 1 else 2) * e.heightMaps) - unitY e * (e.cropT + e.cropB))

/-! ## The reader against the bits -/

/-- What reading never changes, and `ok` never comes back. -/
structure Quiet (r r' : RbspReader) : Prop where
  buf : r'.buf = r.buf
  wrapped : r'.wrapped = r.wrapped
  outside : r'.outside = r.outside
  ok : r.ok = false → r'.ok = false

theorem Quiet.refl (r : RbspReader) : Quiet r r := ⟨rfl, rfl, rfl, id⟩

theorem Quiet.trans {r r' r'' : RbspReader} (h : Quiet r r') (h' : Quiet r' r'') : Quiet r r'' :=
  ⟨h'.buf.trans h.buf, h'.wrapped.trans h.wrapped, h'.outside.trans h.outside, h'.ok ∘ h.ok⟩

theorem Quiet.failed (r : RbspReader) : Quiet r { r with ok := false } :=
  ⟨rfl, rfl, rfl, fun _ => rfl⟩

theorem uint32_fits {x : ℕ} (r : RbspReader) (h : x < 2 ^ 32) : r.uint32 x = (x, r) := by
  rw [RbspReader.uint32, Nat.mod_eq_of_lt h, decide_eq_false (Nat.not_le.2 h), Bool.or_false]

theorem bmod_of_fits {x : ℤ} {n : ℕ} (hlow : -2 ^ n ≤ x) (hhigh : x < 2 ^ n) :
    x.bmod (2 ^ (n + 1)) = x := by
  refine Int.bmod_eq_of_le ?_ ?_
  · push_cast [pow_succ]
    omega
  · push_cast [pow_succ]
    omega

theorem int32_fits {x : ℤ} (r : RbspReader) (h : -2 ^ 31 ≤ x ∧ x < 2 ^ 31) :
    r.int32 x = (x, r) := by
  rw [RbspReader.int32, bmod_of_fits h.1 h.2, decide_eq_false (not_not.2 h), Bool.or_false]

theorem int64_fits {x : ℤ} (r : RbspReader) (h : -2 ^ 63 ≤ x ∧ x < 2 ^ 63) :
    r.int64 x = (x, r) := by
  rw [RbspReader.int64, bmod_of_fits h.1 h.2, decide_eq_false (not_not.2 h), Bool.or_false]

/-- A bit behind the end of the buffer is not read. -/
theorem uLoop_end {r : RbspReader} (h : r.buf.length ≤ r.bit / 8) (n v : ℕ) :
    RbspReader.uLoop (n + 1) v r = (0, { r with ok := false }) := by
  rw [RbspReader.uLoop]
  exact if_pos h

theorem uLoop_bit {r : RbspReader} {b : UInt8} (h : r.buf[r.bit / 8]? = some b) (n v : ℕ) :
    RbspReader.uLoop (n + 1) v r =
      RbspReader.uLoop n ((v <<< 1) % 2 ^ 32 ||| (b.toNat >>> (7 - r.bit % 8) &&& 1))
        { r with bit := r.bit + 1 } := by
  have hlt := (List.getElem?_eq_some_iff.1 h).1
  rw [RbspReader.uLoop]
  simp only [if_neg (Nat.not_le.2 hlt), h]

theorem quiet_uLoop (n v : ℕ) (r : RbspReader) : Quiet r (RbspReader.uLoop n v r).2 := by
  induction n generalizing v r with
  | zero => exact .refl r
  | succ n ih =>
    by_cases h : r.buf.length ≤ r.bit / 8
    · rw [uLoop_end h]
      exact .failed r
    · rw [uLoop_bit (List.getElem?_eq_getElem (Nat.not_le.1 h))]
      have hstep : Quiet r { r with bit := r.bit + 1 } := ⟨rfl, rfl, rfl, id⟩
      exact hstep.trans (ih _ _)

/-- A reader that has not failed, with the bits that are left. -/
structure Live (r : RbspReader) (s : List Bool) : Prop where
  ok : r.ok = true
  wrapped : r.wrapped = false
  outside : r.outside = false
  rest : (bits r.buf).drop r.bit = s

/-- The reader has come to its end, without more. -/
structure Dead (r : RbspReader) : Prop where
  ok : r.ok = false
  wrapped : r.wrapped = false
  outside : r.outside = false

theorem Live.dead {r r' : RbspReader} {s : List Bool} (h : Live r s) (hq : Quiet r r')
    (hok : r'.ok = false) : Dead r' :=
  ⟨hok, hq.wrapped.trans h.wrapped, hq.outside.trans h.outside⟩

theorem Dead.quiet {r r' : RbspReader} (h : Dead r) (hq : Quiet r r') : Dead r' :=
  ⟨hq.ok h.ok, hq.wrapped.trans h.wrapped, hq.outside.trans h.outside⟩

theorem shifted_bit {b v : ℕ} (k : ℕ) (hv : v < 2 ^ 31) :
    (v <<< 1) % 2 ^ 32 ||| (b >>> k &&& 1) = 2 * v + (b.testBit k).toNat := by
  have hbit : b >>> k &&& 1 = (b.testBit k).toNat := by
    rw [Nat.and_one_is_mod, Nat.shiftRight_eq_div_pow, Nat.toNat_testBit]
  have hlt : (b.testBit k).toNat < 2 ^ 1 := Bool.toNat_lt _
  have hshift : (v <<< 1) % 2 ^ 32 = v <<< 1 := by
    rw [Nat.shiftLeft_eq]
    exact Nat.mod_eq_of_lt (by omega)
  rw [hbit, hshift, Nat.or_comm, or_shiftLeft_eq_add hlt]
  omega

/-- One bit of the loop. -/
theorem Live.uLoop_succ {r : RbspReader} {b : Bool} {s : List Bool} (h : Live r (b :: s)) {v : ℕ}
    (hv : v < 2 ^ 31) (n : ℕ) :
    RbspReader.uLoop (n + 1) v r =
      RbspReader.uLoop n (2 * v + b.toNat) { r with bit := r.bit + 1 } ∧
    Live { r with bit := r.bit + 1 } s := by
  have hget : (bits r.buf)[r.bit]? = some b := by
    rw [← List.head?_drop, h.rest]
    rfl
  have hlt : r.bit / 8 < r.buf.length := by
    have := (List.getElem?_eq_some_iff.1 hget).1
    rw [length_bits] at this
    omega
  have hbyte := List.getElem?_eq_getElem hlt
  have hb : r.buf[r.bit / 8].toNat.testBit (7 - r.bit % 8) = b :=
    Option.some.inj ((getElem?_bits hbyte).symm.trans hget)
  constructor
  · rw [uLoop_bit hbyte, shifted_bit _ hv, hb]
  · refine ⟨h.ok, h.wrapped, h.outside, ?_⟩
    show (bits r.buf).drop (r.bit + 1) = s
    rw [← List.drop_drop, h.rest]
    rfl

theorem Live.uLoop_nil {r : RbspReader} (h : Live r []) (n v : ℕ) :
    RbspReader.uLoop (n + 1) v r = (0, { r with ok := false }) := by
  refine uLoop_end ?_ n v
  have hlen := List.drop_eq_nil_iff.1 h.rest
  rw [length_bits] at hlen
  omega

theorem bit_lt {m v : ℕ} (hv : v < 2 ^ m) (b : Bool) : 2 * v + b.toNat < 2 ^ (m + 1) := by
  have := b.toNat_lt
  rw [pow_succ]
  omega

theorem Live.uLoop {r : RbspReader} {s : List Bool} (h : Live r s) {m n v : ℕ} (hv : v < 2 ^ m)
    (hm : m + n ≤ 32) (hn : n ≤ s.length) :
    (RbspReader.uLoop n v r).1 = natFrom v (s.take n) ∧
      Live (RbspReader.uLoop n v r).2 (s.drop n) := by
  induction n generalizing r s m v with
  | zero => exact ⟨rfl, h⟩
  | succ n ih =>
    cases s with
    | nil => cases hn
    | cons b s =>
      have hv31 : v < 2 ^ 31 := hv.trans_le (Nat.pow_le_pow_right (by decide) (by omega))
      obtain ⟨heq, hnext⟩ := h.uLoop_succ hv31 n
      rw [heq]
      exact ih hnext (bit_lt hv b) (by omega) (Nat.le_of_succ_le_succ hn)

/-- A number that runs out of bits is 0. -/
theorem Live.uLoop_short {r : RbspReader} {s : List Bool} (h : Live r s) {m n v : ℕ}
    (hv : v < 2 ^ m) (hm : m + n ≤ 32) (hn : s.length < n) :
    (RbspReader.uLoop n v r).1 = 0 ∧ (RbspReader.uLoop n v r).2.ok = false := by
  induction n generalizing r s m v with
  | zero => cases hn
  | succ n ih =>
    cases s with
    | nil =>
      rw [h.uLoop_nil]
      exact ⟨rfl, rfl⟩
    | cons b s =>
      have hv31 : v < 2 ^ 31 := hv.trans_le (Nat.pow_le_pow_right (by decide) (by omega))
      obtain ⟨heq, hnext⟩ := h.uLoop_succ hv31 n
      rw [heq]
      exact ih hnext (bit_lt hv b) (by omega) (Nat.lt_of_succ_lt_succ hn)

theorem uLoop_lt {m v : ℕ} (hv : v < 2 ^ m) (n : ℕ) (hm : m + n ≤ 32) (r : RbspReader) :
    (RbspReader.uLoop n v r).1 < 2 ^ (m + n) := by
  induction n generalizing m v r with
  | zero => exact hv
  | succ n ih =>
    by_cases h : r.buf.length ≤ r.bit / 8
    · rw [uLoop_end h]
      exact Nat.two_pow_pos _
    · have hv31 : v < 2 ^ 31 := hv.trans_le (Nat.pow_le_pow_right (by decide) (by omega))
      rw [uLoop_bit (List.getElem?_eq_getElem (Nat.not_le.1 h)), shifted_bit _ hv31,
        ← Nat.add_assoc, Nat.add_right_comm]
      exact ih (bit_lt hv _) (by omega) _

/-- What a read answers, against the bits; `P` of an answer that is not there. -/
def Follows {α : Type} (P : α → Prop) (x : α × RbspReader) : Option (α × List Bool) → Prop
  | some y => x.1 = y.1 ∧ Live x.2 y.2
  | none => P x.1 ∧ x.2.ok = false

theorem u_follows {r : RbspReader} {s : List Bool} (h : Live r s) {n : ℕ} (hn : n ≤ 32) :
    Follows (· = 0) (r.u n) (readBits n s) := by
  by_cases hlen : n ≤ s.length
  · rw [readBits, if_pos hlen]
    exact h.uLoop (m := 0) Nat.one_pos (by omega) hlen
  · rw [readBits, if_neg hlen]
    exact h.uLoop_short (m := 0) Nat.one_pos (by omega) (Nat.not_le.1 hlen)

/-! ## Exp-Golomb codes -/

theorem quiet_u (n : ℕ) (r : RbspReader) : Quiet r (r.u n).2 := quiet_uLoop n 0 r

theorem Live.u_one {r : RbspReader} {b : Bool} {s : List Bool} (h : Live r (b :: s)) :
    (r.u 1).1 = b.toNat ∧ Live (r.u 1).2 s := by
  have hone := u_follows h (n := 1) (by decide)
  have hread : readBits 1 (b :: s) = some (b.toNat, s) := by
    rw [readBits, if_pos (by simp)]
    simp [natFrom]
  rwa [hread] at hone

theorem Live.u_nil {r : RbspReader} (h : Live r []) : r.u 1 = (0, { r with ok := false }) :=
  h.uLoop_nil 0 0

theorem zeroLoop_failed {r : RbspReader} (h : r.ok = false) (left zeros : ℕ) :
    RbspReader.zeroLoop left zeros r = (some zeros, r) := by
  cases left with
  | zero => rw [RbspReader.zeroLoop, if_pos h]
  | succ left => rw [RbspReader.zeroLoop, if_pos h]

theorem quiet_zeroLoop (left zeros : ℕ) (r : RbspReader) :
    Quiet r (RbspReader.zeroLoop left zeros r).2 := by
  induction left generalizing zeros r with
  | zero =>
    rw [RbspReader.zeroLoop]
    split
    · exact .refl r
    · split
      · exact quiet_u 1 r
      · exact (quiet_u 1 r).trans (.failed _)
  | succ left ih =>
    rw [RbspReader.zeroLoop]
    split
    · exact .refl r
    · split
      · exact quiet_u 1 r
      · exact (quiet_u 1 r).trans (ih _ _)

theorem zeroLoop_le {left zeros z : ℕ} {r : RbspReader}
    (h : (RbspReader.zeroLoop left zeros r).1 = some z) : z ≤ zeros + left := by
  induction left generalizing zeros r with
  | zero =>
    rw [RbspReader.zeroLoop] at h
    split at h
    · exact le_of_eq (Option.some.inj h).symm
    · split at h
      · exact le_of_eq (Option.some.inj h).symm
      · cases h
  | succ left ih =>
    rw [RbspReader.zeroLoop] at h
    split at h
    · exact (Option.some.inj h) ▸ Nat.le_add_right _ _
    · split at h
      · exact (Option.some.inj h) ▸ Nat.le_add_right _ _
      · have := ih h
        omega

/-- The code begins with `z` zeros and a one. -/
theorem Live.zeroLoop {r : RbspReader} {s t : List Bool} {z left : ℕ} (h : Live r s)
    (hz : leadingZeros s = some (z, t)) (hle : z ≤ left) (zeros : ℕ) :
    (RbspReader.zeroLoop left zeros r).1 = some (zeros + z) ∧
      Live (RbspReader.zeroLoop left zeros r).2 t := by
  induction s generalizing r z left zeros with
  | nil => cases hz
  | cons b s ih =>
    obtain ⟨hbit, hnext⟩ := h.u_one
    have hok : ¬ r.ok = false := by
      rw [h.ok]
      decide
    cases b with
    | true =>
      obtain ⟨rfl, rfl⟩ := Prod.mk.inj (Option.some.inj hz)
      have hone : (r.u 1).1 ≠ 0 := by
        rw [hbit]
        decide
      cases left with
      | zero =>
        rw [RbspReader.zeroLoop, if_neg hok, if_pos hone]
        exact ⟨rfl, hnext⟩
      | succ left =>
        rw [RbspReader.zeroLoop, if_neg hok, if_pos hone]
        exact ⟨rfl, hnext⟩
    | false =>
      obtain ⟨⟨z', t'⟩, hz', heq⟩ := Option.map_eq_some_iff.1 hz
      obtain ⟨rfl, rfl⟩ := Prod.mk.inj heq
      obtain ⟨left, rfl⟩ := Nat.exists_eq_add_of_le' (Nat.one_le_of_lt hle)
      have hzero : ¬ (r.u 1).1 ≠ 0 := not_not.2 hbit
      rw [RbspReader.zeroLoop, if_neg hok, if_neg hzero]
      have hrest := ih hnext hz' (Nat.le_of_succ_le_succ hle) (zeros + 1)
      rwa [Nat.add_assoc, Nat.add_comm 1] at hrest

/-- Too many zeros, or zeros to the end. -/
theorem Live.zeroLoop_fails {r : RbspReader} {s : List Bool} {left : ℕ} (h : Live r s)
    (hz : ∀ z t, leadingZeros s = some (z, t) → left < z) (zeros : ℕ) :
    (RbspReader.zeroLoop left zeros r).2.ok = false := by
  induction s generalizing r left zeros with
  | nil =>
    have hok : ¬ r.ok = false := by
      rw [h.ok]
      decide
    cases left with
    | zero => simp [RbspReader.zeroLoop, h.ok, h.u_nil]
    | succ left =>
      rw [RbspReader.zeroLoop, if_neg hok, h.u_nil, if_neg (by simp), zeroLoop_failed rfl]
  | cons b s ih =>
    obtain ⟨hbit, hnext⟩ := h.u_one
    have hok : ¬ r.ok = false := by
      rw [h.ok]
      decide
    cases b with
    | true => exact absurd (hz 0 s rfl) (Nat.not_lt_zero _)
    | false =>
      have hzero : ¬ (r.u 1).1 ≠ 0 := not_not.2 hbit
      cases left with
      | zero => rw [RbspReader.zeroLoop, if_neg hok, if_neg hzero]
      | succ left =>
        rw [RbspReader.zeroLoop, if_neg hok, if_neg hzero]
        refine ih hnext (fun z t hzt => ?_) (zeros + 1)
        have hcons : leadingZeros (false :: s) = some (z + 1, t) := by
          rw [leadingZeros, hzt]
          rfl
        exact Nat.lt_of_succ_lt_succ (hz _ _ hcons)

theorem ue_none {r : RbspReader} (h : (RbspReader.zeroLoop 31 0 r).1 = none) :
    r.ue = (0, (RbspReader.zeroLoop 31 0 r).2) := by
  rw [RbspReader.ue]
  cases hz : RbspReader.zeroLoop 31 0 r with
  | mk zeros r' =>
    rw [hz] at h
    obtain rfl := h
    rfl

theorem ue_sum_lt {z x : ℕ} (hz : z ≤ 31) (hx : x < 2 ^ z) : (1 <<< z) - 1 + x < 2 ^ 32 - 1 := by
  have hpow : 2 ^ z ≤ 2 ^ 31 := Nat.pow_le_pow_right (by decide) hz
  rw [Nat.one_shiftLeft]
  omega

/-- The sum that a code stands for fits. -/
theorem ue_some {r : RbspReader} {z : ℕ} (h : (RbspReader.zeroLoop 31 0 r).1 = some z) :
    r.ue =
      if (RbspReader.zeroLoop 31 0 r).2.ok = false ∨ z = 0 then (0, (RbspReader.zeroLoop 31 0 r).2)
      else (2 ^ z - 1 + ((RbspReader.zeroLoop 31 0 r).2.u z).1,
        ((RbspReader.zeroLoop 31 0 r).2.u z).2) := by
  have hle := zeroLoop_le h
  rw [RbspReader.ue]
  cases hz : RbspReader.zeroLoop 31 0 r with
  | mk zeros r' =>
    rw [hz] at h
    obtain rfl := h
    have hlt := uLoop_lt (v := 0) (m := 0) Nat.one_pos z (by omega) r'
    rw [Nat.zero_add] at hlt
    have hsum := ue_sum_lt (by omega) hlt
    show (if r'.ok = false ∨ z = 0 then (0, r')
      else (r'.u z).2.uint32 ((1 <<< z) - 1 + (r'.u z).1)) = _
    rw [uint32_fits _ (by unfold RbspReader.u; omega), Nat.one_shiftLeft]

theorem ue_failed {r : RbspReader} (h : (RbspReader.zeroLoop 31 0 r).2.ok = false) :
    r.ue = (0, (RbspReader.zeroLoop 31 0 r).2) := by
  cases hz : (RbspReader.zeroLoop 31 0 r).1 with
  | none => exact ue_none hz
  | some z => rw [ue_some hz, if_pos (.inl h)]

theorem quiet_ue (r : RbspReader) : Quiet r r.ue.2 := by
  have hloop := quiet_zeroLoop 31 0 r
  cases h : (RbspReader.zeroLoop 31 0 r).1 with
  | none => rwa [ue_none h]
  | some z =>
    rw [ue_some h]
    split
    · exact hloop
    · exact hloop.trans (quiet_u z _)

/-- A code is at most `2 ^ 32 - 2`, so that one can be added to it. -/
theorem ue_lt (r : RbspReader) : r.ue.1 + 1 < 2 ^ 32 := by
  cases h : (RbspReader.zeroLoop 31 0 r).1 with
  | none =>
    rw [ue_none h]
    exact Nat.one_lt_two_pow (by decide)
  | some z =>
    have hle := zeroLoop_le h
    rw [ue_some h]
    split
    · exact Nat.one_lt_two_pow (by decide)
    · have hlt := uLoop_lt (v := 0) (m := 0) Nat.one_pos z (by omega)
        (RbspReader.zeroLoop 31 0 r).2
      rw [Nat.zero_add] at hlt
      have hsum := ue_sum_lt (by omega) hlt
      rw [Nat.one_shiftLeft] at hsum
      show 2 ^ z - 1 + (RbspReader.uLoop z 0 (RbspReader.zeroLoop 31 0 r).2).1 + 1 < 2 ^ 32
      omega

theorem ue_follows {r : RbspReader} {s : List Bool} (h : Live r s) :
    Follows (· < 2 ^ 31) r.ue (readUe 31 s) := by
  cases hz : leadingZeros s with
  | none =>
    have hnone : ∀ z t, leadingZeros s = some (z, t) → 31 < z := by
      intro z t hzt
      rw [hz] at hzt
      cases hzt
    have hfail := h.zeroLoop_fails hnone 0
    rw [readUe, hz, ue_failed hfail]
    exact ⟨Nat.two_pow_pos 31, hfail⟩
  | some y =>
    by_cases hle : y.1 ≤ 31
    · obtain ⟨hloop, hlive⟩ := h.zeroLoop hz hle 0
      rw [Nat.zero_add] at hloop
      have hok : ¬ (RbspReader.zeroLoop 31 0 r).2.ok = false := by
        rw [hlive.ok]
        decide
      have hread := u_follows hlive (n := y.1) (by omega)
      rw [readUe, hz, Option.bind_some, if_pos hle, ue_some hloop]
      by_cases hzero : y.1 = 0
      · rw [if_pos (.inr hzero), hzero]
        exact ⟨rfl, hlive⟩
      · rw [if_neg (not_or.2 ⟨hok, hzero⟩)]
        cases hbits : readBits y.1 y.2 with
        | none =>
          rw [hbits] at hread
          refine ⟨?_, hread.2⟩
          have hpow : 2 ^ y.1 ≤ 2 ^ 31 := Nat.pow_le_pow_right (by decide) hle
          have hpos := Nat.two_pow_pos y.1
          show 2 ^ y.1 - 1 + _ < 2 ^ 31
          rw [hread.1]
          omega
        | some x =>
          rw [hbits] at hread
          exact ⟨congrArg (2 ^ y.1 - 1 + ·) hread.1, hread.2⟩
    · have hmany : ∀ z t, leadingZeros s = some (z, t) → 31 < z := by
        intro z t hzt
        rw [hz] at hzt
        obtain rfl := Option.some.inj hzt
        exact Nat.not_le.1 hle
      have hfail := h.zeroLoop_fails hmany 0
      rw [readUe, hz, Option.bind_some, if_neg hle, ue_failed hfail]
      exact ⟨Nat.two_pow_pos 31, hfail⟩

/-- A signed number comes out exact, too. -/
theorem se_eq (r : RbspReader) : r.se = (signed r.ue.1, r.ue.2) := by
  have hlt := ue_lt r
  show (if r.ue.1 = 0 then ((0 : ℤ), r.ue.2)
    else
      (if r.ue.1 % 2 = 1 then (((r.ue.2.uint32 (r.ue.1 + 1)).1 / 2 : ℕ) : ℤ)
        else -(((r.ue.2.uint32 (r.ue.1 + 1)).1 / 2 : ℕ) : ℤ), (r.ue.2.uint32 (r.ue.1 + 1)).2)) = _
  by_cases hzero : r.ue.1 = 0
  · rw [if_pos hzero, hzero]
    rfl
  · rw [if_neg hzero, uint32_fits _ hlt, signed]

theorem natAbs_signed (k : ℕ) : (signed k).natAbs = (k + 1) / 2 := by
  rw [signed]
  split
  · exact Int.natAbs_natCast _
  · rw [Int.natAbs_neg, Int.natAbs_natCast]

/-! ## The walk on both readers -/

/-- How a failure shows in the reader of the code. -/
def Shows : Failure → RbspReader → Prop
  | .cut, r => Dead r
  | .scale, r => r.wrapped = true ∧ r.outside = false

theorem quiet_se (r : RbspReader) : Quiet r r.se.2 := by
  rw [se_eq]
  exact quiet_ue r

theorem Shows.quiet {e : Failure} {r r' : RbspReader} (h : Shows e r) (hq : Quiet r r') :
    Shows e r' := by
  cases e with
  | cut => exact Dead.quiet h hq
  | scale => exact ⟨hq.wrapped.trans h.1, hq.outside.trans h.2⟩

theorem Shows.int32 {r : RbspReader} (h : Shows .scale r) (x : ℤ) : Shows .scale (r.int32 x).2 :=
  ⟨by rw [RbspReader.int32, h.1, Bool.true_or], h.2⟩

/-- What a failure has left in the reader stays there. -/
theorem shows_handle (e : Failure) (op : Op) (r : RbspReader) (h : Shows e r) :
    Shows e (RbspReader.handle op r).2 := by
  cases op with
  | u bits => exact h.quiet (quiet_u bits r)
  | ue => exact h.quiet (quiet_ue r)
  | se => exact h.quiet (quiet_se r)
  | ueSucc =>
    show Shows e (r.ue.2.uint32 (r.ue.1 + 1)).2
    rw [uint32_fits _ (ue_lt r)]
    exact h.quiet (quiet_ue r)
  | ok => exact h
  | nextScale last next =>
    by_cases hok : r.ok = false
    · rw [show RbspReader.handle (.nextScale last next) r = (none, r) from if_pos hok]
      exact h
    · cases e with
      | cut => exact absurd h.ok hok
      | scale =>
        have hse : Shows .scale r.se.2 := h.quiet (quiet_se r)
        by_cases hnext : next.val ≠ 0
        · simp only [RbspReader.handle, if_neg hok, if_pos hnext]
          exact (hse.int32 _).int32 _
        · simp only [RbspReader.handle, if_neg hok, if_neg hnext]
          exact h

theorem agrees_exactly {α : Type} {P : α → Prop} {r : RbspReader} {s : List Bool} (h : Live r s)
    {x : α × RbspReader} {y : Option (α × List Bool)} (hq : Quiet r x.2) (hf : Follows P x y) :
    Program.Agrees Live Shows x (exactly y) := by
  cases y with
  | none => exact h.dead hq hf.2
  | some y => exact hf

theorem agrees_nextScale {r : RbspReader} {s : List Bool} (h : Live r s) (last next : Scale) :
    Program.Agrees Live Shows (RbspReader.handle (.nextScale last next) r)
      (exact (.nextScale last next) s) := by
  have hok : ¬ r.ok = false := by
    rw [h.ok]
    decide
  have hlower := last.lower
  have hupper := last.upper
  by_cases hnext : next.val = 0
  · simp only [RbspReader.handle, if_neg hok, exact, if_pos hnext, if_neg (not_not.2 hnext)]
    exact ⟨rfl, h⟩
  · have hq := quiet_ue r
    have hf := ue_follows h
    simp only [RbspReader.handle, if_neg hok, exact, if_neg hnext, if_pos hnext, ne_eq,
      se_eq]
    cases hread : readUe 31 s with
    | none =>
      rw [hread] at hf
      have hsmall : (signed r.ue.1).natAbs ≤ 2 ^ 30 := by
        have := hf.1
        rw [natAbs_signed]
        omega
      rw [int32_fits (x := last.val + signed r.ue.1) _ ⟨by omega, by omega⟩,
        int32_fits (x := last.val + signed r.ue.1 + 256) _ ⟨by omega, by omega⟩]
      exact h.dead hq hf.2
    | some y =>
      rw [hread] at hf
      obtain ⟨hvalue, hlive⟩ := hf
      rw [hvalue]
      by_cases hfits : ScaleFits last (signed y.1)
      · obtain ⟨hlow, hhigh⟩ := hfits
        rw [int32_fits _ ⟨hlow, by omega⟩, int32_fits _ ⟨by omega, hhigh⟩]
        simp only [if_pos (show ScaleFits last (signed y.1) from ⟨hlow, hhigh⟩)]
        exact ⟨rfl, hlive⟩
      · simp only [if_neg hfits]
        refine ⟨?_, hlive.outside⟩
        by_cases hfirst : -2 ^ 31 ≤ last.val + signed y.1 ∧ last.val + signed y.1 < 2 ^ 31
        · rw [int32_fits _ hfirst]
          have hsecond : ¬ (-2 ^ 31 ≤ last.val + signed y.1 + 256 ∧
              last.val + signed y.1 + 256 < 2 ^ 31) := fun hin => hfits ⟨hfirst.1, hin.2⟩
          simp only [RbspReader.int32, decide_eq_true hsecond, Bool.or_true]
        · simp only [RbspReader.int32, decide_eq_true hfirst, Bool.or_true, Bool.true_or]

theorem agrees_handle (op : Op) (r : RbspReader) (s : List Bool) (h : Live r s) :
    Program.Agrees Live Shows (RbspReader.handle op r) (exact op s) := by
  cases op with
  | u bits => exact agrees_exactly h (quiet_u bits r) (u_follows h (Nat.le_of_lt_succ bits.2))
  | ue => exact agrees_exactly h (quiet_ue r) (ue_follows h)
  | se =>
    have hf := ue_follows h
    have heq : RbspReader.handle .se r = (signed r.ue.1, r.ue.2) := se_eq r
    rw [heq]
    refine agrees_exactly (P := fun _ => True) h (quiet_ue r) ?_
    cases hread : readUe 31 s with
    | none =>
      rw [hread] at hf
      exact ⟨trivial, hf.2⟩
    | some y =>
      rw [hread] at hf
      exact ⟨congrArg signed hf.1, hf.2⟩
  | ueSucc =>
    have hf := ue_follows h
    have heq : RbspReader.handle .ueSucc r = (r.ue.1 + 1, r.ue.2) := uint32_fits _ (ue_lt r)
    rw [heq]
    refine agrees_exactly (P := fun _ => True) h (quiet_ue r) ?_
    cases hread : readUe 31 s with
    | none =>
      rw [hread] at hf
      exact ⟨trivial, hf.2⟩
    | some y =>
      rw [hread] at hf
      exact ⟨congrArg (· + 1) hf.1, hf.2⟩
  | ok => exact ⟨h.ok, h⟩
  | nextScale last next => exact agrees_nextScale h last next

theorem live_new (data : Bytes) : Live (.new data) (bits (unescaped data)) :=
  ⟨rfl, rfl, rfl, List.drop_zero⟩

/-- **The reader of the code finds the syntax elements**, or shows why there are none. -/
theorem read_spec (sps : Bytes) :
    match decode sps with
    | .ok e => (readSps.interp RbspReader.handle (.new (sps.drop 1))).1 = e ∧
        ∃ s, Live (readSps.interp RbspReader.handle (.new (sps.drop 1))).2 s
    | .error e => Shows e (readSps.interp RbspReader.handle (.new (sps.drop 1))).2 := by
  have hrun := Program.interp_agrees agrees_handle shows_handle readSps (live_new (sps.drop 1))
  rw [decode]
  cases hdecode : readSps.interp exact (bits (unescaped (sps.drop 1))) with
  | ok y =>
    rw [hdecode] at hrun
    exact ⟨hrun.1, y.2, hrun.2⟩
  | error e =>
    rw [hdecode] at hrun
    exact hrun

/-! ## The numbers of macroblocks -/

def Below (x : ℕ) : Prop := x < 2 ^ 32

/-- One more than a code fits. -/
def Bounded : (op : Op) → op.Ans → Prop
  | .ueSucc, x => Below x
  | _, _ => True

theorem bounded_handle (op : Op) (r : RbspReader) : Bounded op (RbspReader.handle op r).1 := by
  cases op with
  | ueSucc =>
    have hlt : (r.ue.1 + 1) % 2 ^ 32 < 2 ^ 32 := Nat.mod_lt _ (Nat.two_pow_pos 32)
    exact hlt
  | u bits => trivial
  | ue => trivial
  | se => trivial
  | ok => trivial
  | nextScale last next => trivial

theorem sizes_readFrame (chroma : ℕ × Bool) :
    (readFrame chroma).Ensures (fun _ => True) Bounded
      (fun e => e.widthMbs < 2 ^ 32 ∧ e.heightMaps < 2 ^ 32) := by
  have hsucc : ueSucc.Ensures (fun _ => True) Bounded Below := ⟨trivial, fun _ hx => hx⟩
  refine hsucc.bind fun w hw => hsucc.bind fun h hh => ?_
  exact (Program.Ensures.any readRest).bind fun _ _ => ⟨hw, hh⟩

theorem sizes_readSps :
    readSps.Ensures (fun _ => True) Bounded
      (fun e => e.widthMbs < 2 ^ 32 ∧ e.heightMaps < 2 ^ 32) := by
  refine (Program.Ensures.any _).bind fun _ _ => ?_
  refine (Program.Ensures.any _).bind fun _ _ => ?_
  refine (Program.Ensures.any _).bind fun _ _ => ?_
  refine (Program.Ensures.any _).bind fun _ _ => ?_
  refine (Program.Ensures.any _).bind fun chroma _ => ?_
  refine (Program.Ensures.any _).bind fun _ _ => ?_
  refine (Program.Ensures.any _).bind fun _ _ => ?_
  refine (Program.Ensures.any _).bind fun _ _ => ?_
  refine (Program.Ensures.any _).bind fun _ _ => ?_
  exact sizes_readFrame chroma

theorem sizes_lt (r : RbspReader) :
    (readSps.interp RbspReader.handle r).1.widthMbs < 2 ^ 32 ∧
      (readSps.interp RbspReader.handle r).1.heightMaps < 2 ^ 32 :=
  sizes_readSps.interp bounded_handle r

/-! ## The reported size -/

/-- The sizes that are accepted. -/
def InRange (size : ℤ × ℤ) : Prop :=
  (1 ≤ size.1 ∧ size.1 ≤ 16384) ∧ 1 ≤ size.2 ∧ size.2 ≤ 16384

instance instDecidableInRange (size : ℤ × ℤ) : Decidable (InRange size) :=
  inferInstanceAs (Decidable (_ ∧ _))

theorem unitX_le (e : Fields) : unitX e ≤ 2 := by
  unfold unitX subsampling
  split_ifs <;> decide

theorem unitY_le (e : Fields) : unitY e ≤ 4 := by
  unfold unitY subsampling
  split_ifs <;> decide

/-- With offsets whose sum fits, every number fits. -/
theorem cropped_fits {coded : ℤ} {a b unit : ℕ} (hlow : 0 ≤ coded) (hhigh : coded ≤ 2 ^ 37)
    (hsum : a + b < 2 ^ 32) (hunit : unit ≤ 4) (r : RbspReader) :
    cropped coded a b unit r = (coded - unit * (a + b), r) := by
  have hprod : (a + b) * unit ≤ 2 ^ 32 * 4 := Nat.mul_le_mul (Nat.le_of_lt hsum) hunit
  have hcast : ((a + b : ℕ) : ℤ) * unit = ((a + b) * unit : ℕ) := (Nat.cast_mul _ _).symm
  have hexact : coded - ((a + b) * unit : ℕ) = coded - unit * (a + b) := by
    push_cast
    ring
  simp only [cropped, uint32_fits _ hsum, hcast]
  rw [← hexact]
  generalize (a + b) * unit = crop at *
  rw [int64_fits (x := crop) _ ⟨by omega, by omega⟩, int64_fits (x := coded) _ ⟨by omega, by omega⟩,
    int64_fits (x := coded - crop) _ ⟨by omega, by omega⟩]

theorem finish_fits {e : Fields} (hw : e.widthMbs < 2 ^ 32) (hh : e.heightMaps < 2 ^ 32)
    (hx : e.cropL + e.cropR < 2 ^ 32) (hy : e.cropT + e.cropB < 2 ^ 32) (out : SpsGeometry)
    (r : RbspReader) :
    finish e out r =
      if InRange (frameSize e) then ⟨true, ⟨(frameSize e).1, (frameSize e).2, e.fps⟩, r⟩
      else ⟨false, out, r⟩ := by
  have hout : ((frameSize e).1 ≤ 0 ∨ (frameSize e).2 ≤ 0 ∨ (frameSize e).1 > 16384 ∨
      (frameSize e).2 > 16384) ↔ ¬ InRange (frameSize e) := by
    unfold InRange
    omega
  have hcoded : 0 ≤ (e.heightMaps : ℤ) * 16 * (if e.frameMbsOnly then 1 else 2) ∧
      (e.heightMaps : ℤ) * 16 * (if e.frameMbsOnly then 1 else 2) ≤ 2 ^ 37 := by
    split <;> omega
  have hwidth := @cropped_fits (e.widthMbs * 16) _ _ _ (by omega) (by omega) hx
    ((unitX_le e).trans (by decide)) r
  have hheight := cropped_fits hcoded.1 hcoded.2 hy (unitY_le e) r
  have hsize : ((e.widthMbs * 16 - unitX e * (e.cropL + e.cropR) : ℤ),
      (e.heightMaps * 16 * (if e.frameMbsOnly then 1 else 2) -
        unitY e * (e.cropT + e.cropB) : ℤ)) = frameSize e := by
    simp only [frameSize, Prod.mk.injEq]
    exact ⟨by ring, by ring⟩
  have hw' := congrArg Prod.fst hsize
  have hh' := congrArg Prod.snd hsize
  simp only at hw' hh'
  simp only [finish, hwidth, hheight, hw', hh', hout, ite_not]

theorem wrapped_uint32 {r : RbspReader} (h : r.wrapped = true) (x : ℕ) :
    (r.uint32 x).2.wrapped = true := by
  rw [RbspReader.uint32, h, Bool.true_or]

theorem wrapped_int64 {r : RbspReader} (h : r.wrapped = true) (x : ℤ) :
    (r.int64 x).2.wrapped = true := by
  rw [RbspReader.int64, h, Bool.true_or]

theorem uint32_wraps {x : ℕ} (r : RbspReader) (h : 2 ^ 32 ≤ x) :
    (r.uint32 x).2.wrapped = true := by
  rw [RbspReader.uint32, decide_eq_true h, Bool.or_true]

theorem cropped_wrapped {a b : ℕ} {r : RbspReader} (h : r.wrapped = true ∨ 2 ^ 32 ≤ a + b)
    (coded : ℤ) (unit : ℕ) : (cropped coded a b unit r).2.wrapped = true := by
  refine wrapped_int64 (wrapped_int64 (wrapped_int64 ?_ _) _) _
  rcases h with h | hsum
  · exact wrapped_uint32 h _
  · exact uint32_wraps r hsum

/-- A number that did not fit is remembered to the end. -/
theorem finish_wrapped {e : Fields} {r : RbspReader} (out : SpsGeometry)
    (h : r.wrapped = true ∨ 2 ^ 32 ≤ e.cropL + e.cropR ∨ 2 ^ 32 ≤ e.cropT + e.cropB) :
    (finish e out r).reader.wrapped = true := by
  rw [finish]
  split
  next w r' hw =>
  split
  next height r'' hh =>
    have hwrapped : r''.wrapped = true := by
      have hsecond := congrArg (·.2.wrapped) hh
      have hfirst := congrArg (·.2.wrapped) hw
      simp only at hsecond hfirst
      rw [← hsecond]
      rcases h with h | hx | hy
      · exact cropped_wrapped (.inl (hfirst ▸ cropped_wrapped (.inl h) _ _)) _ _
      · exact cropped_wrapped (.inl (hfirst ▸ cropped_wrapped (.inr hx) _ _)) _ _
      · exact cropped_wrapped (.inr hy) _ _
    split
    · exact hwrapped
    · exact hwrapped

theorem parse_short {sps : Bytes} (h : sps.length < 4) (out : SpsGeometry) :
    parseSpsGeometry sps out = ⟨false, out, .new []⟩ := if_pos h

theorem parse_long {sps : Bytes} (h : ¬ sps.length < 4) (out : SpsGeometry) :
    parseSpsGeometry sps out =
      if (readSps.interp RbspReader.handle (.new (sps.drop 1))).2.ok = false then
        ⟨false, out, (readSps.interp RbspReader.handle (.new (sps.drop 1))).2⟩
      else finish (readSps.interp RbspReader.handle (.new (sps.drop 1))).1 out
        (readSps.interp RbspReader.handle (.new (sps.drop 1))).2 := by
  rw [parseSpsGeometry, if_neg h]
  generalize readSps.interp RbspReader.handle (.new (sps.drop 1)) = x
  cases x
  rfl

/-- Three bytes end in the profile and level. -/
theorem decode_short {sps : Bytes} (h : sps.length < 4) : decode sps = .error .cut := by
  rcases sps with _ | ⟨a, _ | ⟨b, _ | ⟨c, _ | ⟨d, sps⟩⟩⟩⟩
  · rfl
  · rfl
  · rfl
  · rfl
  · simp only [List.length_cons] at h
    omega

/-- What the arithmetic of a call is to do. -/
structure Sound (sps : Bytes) (out : SpsGeometry) (r : Outcome) : Prop where
  fits : r.reader.wrapped = false
  inside : r.reader.outside = false
  size : r.result = true →
    ∃ e, decode sps = .ok e ∧ (r.out.width, r.out.height) = frameSize e ∧ InRange (frameSize e)
  rejected : ∀ e, decode sps = .ok e → ¬ InRange (frameSize e) → r.result = false ∧ r.out = out

/-- The sums of the scaling lists, and of the cropping offsets, fit their types. -/
def SumsFit (sps : Bytes) : Prop :=
  decode sps ≠ .error .scale ∧
    ∀ e, decode sps = .ok e → e.cropL + e.cropR < 2 ^ 32 ∧ e.cropT + e.cropB < 2 ^ 32

theorem sound_of_sumsFit {sps : Bytes} (h : SumsFit sps) (out : SpsGeometry) :
    Sound sps out (parseSpsGeometry sps out) := by
  by_cases hshort : sps.length < 4
  · rw [parse_short hshort]
    refine ⟨rfl, rfl, fun hfalse => (by cases hfalse), fun e he => ?_⟩
    rw [decode_short hshort] at he
    cases he
  · have hread := read_spec sps
    have hsizes := sizes_lt (.new (sps.drop 1))
    rw [parse_long hshort]
    generalize readSps.interp RbspReader.handle (.new (sps.drop 1)) = x at *
    cases hdecode : decode sps with
    | error failure =>
      cases failure with
      | cut =>
        rw [hdecode] at hread
        rw [if_pos hread.ok]
        refine ⟨hread.wrapped, hread.outside, fun hfalse => (by cases hfalse), fun e he => ?_⟩
        rw [hdecode] at he
        cases he
      | scale => exact absurd hdecode h.1
    | ok e =>
      rw [hdecode] at hread
      obtain ⟨rfl, s, hlive⟩ := hread
      obtain ⟨hx, hy⟩ := h.2 _ hdecode
      have hok : ¬ x.2.ok = false := by
        rw [hlive.ok]
        decide
      rw [if_neg hok, finish_fits hsizes.1 hsizes.2 hx hy]
      split
      · next hin =>
        refine ⟨hlive.wrapped, hlive.outside, fun _ => ⟨_, hdecode, rfl, hin⟩, fun e he hout => ?_⟩
        obtain rfl := Except.ok.inj (hdecode.symm.trans he)
        exact absurd hin hout
      · exact ⟨hlive.wrapped, hlive.outside, fun hfalse => (by cases hfalse),
          fun _ _ _ => ⟨rfl, rfl⟩⟩

/-- A sum that does not fit is one that wraps. -/
theorem wrapped_of_not_sumsFit {sps : Bytes} (h : ¬ SumsFit sps) (out : SpsGeometry) :
    (parseSpsGeometry sps out).reader.wrapped = true := by
  by_cases hshort : sps.length < 4
  · refine absurd ⟨?_, ?_⟩ h
    · rw [decode_short hshort]
      exact fun heq => (by cases heq)
    · intro e he
      rw [decode_short hshort] at he
      cases he
  · have hread := read_spec sps
    rw [parse_long hshort]
    generalize readSps.interp RbspReader.handle (.new (sps.drop 1)) = x at *
    cases hdecode : decode sps with
    | error failure =>
      cases failure with
      | cut =>
        refine absurd ⟨?_, ?_⟩ h
        · rw [hdecode]
          exact fun heq => (by cases heq)
        · intro e he
          rw [hdecode] at he
          cases he
      | scale =>
        rw [hdecode] at hread
        split
        · exact hread.1
        · exact finish_wrapped out (.inl hread.1)
    | ok e =>
      rw [hdecode] at hread
      obtain ⟨rfl, s, hlive⟩ := hread
      have hok : ¬ x.2.ok = false := by
        rw [hlive.ok]
        decide
      rw [if_neg hok]
      refine finish_wrapped out (.inr ?_)
      by_contra hfit
      obtain ⟨hx, hy⟩ := not_or.1 hfit
      refine h ⟨?_, ?_⟩
      · rw [hdecode]
        exact fun heq => (by cases heq)
      · intro e he
        obtain rfl := Except.ok.inj (hdecode.symm.trans he)
        exact ⟨Nat.not_le.1 hx, Nat.not_le.1 hy⟩

/-- **The arithmetic of the geometry** is exact when the sums fit, and wraps when one does not. -/
theorem geometry_iff (sps : Bytes) (out : SpsGeometry) :
    Sound sps out (parseSpsGeometry sps out) ↔ SumsFit sps := by
  refine ⟨fun h => ?_, fun h => sound_of_sumsFit h out⟩
  by_contra hfit
  have hwrapped := wrapped_of_not_sumsFit hfit out
  rw [h.fits] at hwrapped
  cases hwrapped

/-- A Baseline SPS of 1280 by 720 whose offsets at the left and right are `2 ^ 31` each. -/
def hostileSps : Bytes :=
  [0x67, 0x42, 0x00, 0x1e, 0xda, 0x01, 0x40, 0x16, 0xf0, 0x00, 0x00, 0x03, 0x00, 0x10, 0x00,
    0x00, 0x03, 0x00, 0x20, 0x00, 0x00, 0x03, 0x00, 0x20, 0x00, 0x00, 0x03, 0x00, 0x74]

theorem decode_hostile :
    decode hostileSps = .ok ⟨1, false, 80, 45, true, 2 ^ 31, 2 ^ 31, 0, 0, 0⟩ := by
  decide +kernel

/-- The offsets wrap to none, and the size is reported as if nothing were cropped. -/
theorem hostile_accepted :
    ¬ ∀ (sps : Bytes) (out : SpsGeometry), Sound sps out (parseSpsGeometry sps out) := by
  intro h
  have hrejected := (h hostileSps ⟨0, 0, 0⟩).rejected _ decode_hostile (by decide)
  have haccepted : (parseSpsGeometry hostileSps ⟨0, 0, 0⟩).result = true := by decide +kernel
  rw [hrejected.1] at haccepted
  cases haccepted

end BambooNet.Camera.Sps
