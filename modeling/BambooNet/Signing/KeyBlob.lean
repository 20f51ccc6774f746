import BambooNet.Lib.Base64
import BambooNet.Lib.CString
import BambooNet.Lib.Fields
import BambooNet.Signing.AppCertCipher

/-!
# The key of an app certificate

The server answers with the parts of an RSA key, five numbers of one length, behind a header. It
encrypts them, puts the nonce, a tag and the length before the ciphertext, and sends the whole in
base64.

**Theorem (`keyBlob_codec`).** The decoder gives back the five parts, whatever the alphabet of the
text, its padding and its spaces, exactly when no space is a vertical tab or a form feed, which it
takes for characters of base64. It stays inside its buffers on every text, and stores nothing that
it does not report.
-/

namespace BambooNet.AppCert

open Base64 Checked CString Fields

/-! ## Base64 -/

def val (c : UInt8) : Option ℕ :=
  if 0x41 ≤ c ∧ c ≤ 0x5a then some (c.toNat - 0x41)
  else if 0x61 ≤ c ∧ c ≤ 0x7a then some (c.toNat - 0x61 + 26)
  else if 0x30 ≤ c ∧ c ≤ 0x39 then some (c.toNat - 0x30 + 52)
  else if c = 0x2b ∨ c = 0x2d then some 62
  else if c = 0x2f ∨ c = 0x5f then some 63
  else none

/-- What the decoder leaves out. -/
def isBlank (c : UInt8) : Bool := c = 0x20 || c = 0x09 || c = 0x0d || c = 0x0a

def toStandard (c : UInt8) : UInt8 := if c = 0x2d then 0x2b else if c = 0x5f then 0x2f else c

/-- Padding has no value. -/
def sextet (c : UInt8) : Except (Stop Bytes) (Option ℕ) :=
  if c = pad then .ok none
  else do
    let q ← orFail (val c) (ascii "invalid base64 character")
    .ok (some q)

def joinSextets (q0 q1 q2 q3 : ℕ) : ℕ := q0 <<< 18 ||| q1 <<< 12 ||| q2 <<< 6 ||| q3

def byteAt (w shift : ℕ) : UInt8 := UInt8.ofNat (w >>> shift &&& 0xff)

def decodeGroup (q0 q1 q2 q3 : Option ℕ) : Except (Stop Bytes) Bytes := do
  let q0 ← orFail q0 (ascii "truncated base64")
  let q1 ← orFail q1 (ascii "truncated base64")
  let w := joinSextets q0 q1 (q2.getD 0) (q3.getD 0)
  .ok (byteAt w 16 :: ((if q2.isSome then [byteAt w 8] else []) ++
    if q3.isSome then [byteAt w 0] else []))

/-- Four characters in each round. A round on fewer would read past the end. -/
@[grind =] def decodeGroups : Bytes → Except (Stop Bytes) Bytes
  | [] => .ok []
  | a :: b :: c :: d :: rest => do
    let q0 ← sextet a
    let q1 ← sextet b
    let q2 ← sextet c
    let q3 ← sextet d
    let bytes ← decodeGroup q0 q1 q2 q3
    let more ← decodeGroups rest
    .ok (bytes ++ more)
  | _ => .error .outside

def padded (s : Bytes) : Bytes := s ++ List.replicate ((4 - s.length % 4) % 4) pad

def b64DecodeAny (text : Bytes) : Except (Stop Bytes) Bytes :=
  decodeGroups (padded ((text.filter fun c => !isBlank c).map toStandard))

def kB64Tbl : Bytes := ascii "ABCDEFGHIJKLMNOPQRSTUVWXYZabcdefghijklmnopqrstuvwxyz0123456789+/"

def urlChar (q : ℕ) : UInt8 :=
  let c := kB64Tbl.getD q 0
  if c = 0x2b then 0x2d else if c = 0x2f then 0x5f else c

/-- The character for six bits of a word. -/
def charAt (w shift : ℕ) : UInt8 := urlChar (w >>> shift &&& 63)

@[grind =] def b64urlEncode : Bytes → Bytes
  | a :: b :: c :: rest =>
    let w := a.toNat <<< 16 ||| b.toNat <<< 8 ||| c.toNat
    charAt w 18 :: charAt w 12 :: charAt w 6 :: charAt w 0 :: b64urlEncode rest
  | [a, b] =>
    let w := a.toNat <<< 16 ||| b.toNat <<< 8
    [charAt w 18, charAt w 12, charAt w 6, pad]
  | [a] =>
    let w := a.toNat <<< 16
    [charAt w 18, charAt w 12, pad, pad]
  | [] => []

/-! ## The blob -/

def kTagLen : ℕ := 16

def kLenFieldLen : ℕ := 4

def kCtLenOffset : ℕ := kNonceLen + kTagLen

def kBlobHdrLen : ℕ := kCtLenOffset + kLenFieldLen

def kPtHdrLen : ℕ := 4 + 4 + 4 + 5 * 4

def kLimbCount : ℕ := 5

def kMagic : Bytes := [0x59, 0x45, 0x4b, 0x53]

abbrev Limbs := Vector Bytes kLimbCount

/-- `substr` throws when it starts past the end, and stops at the end. -/
def substr (s : Bytes) (pos n : ℕ) : Except (Stop Bytes) Bytes :=
  if s.length < pos then .error .outside else .ok ((s.drop pos).take n)

def bytesText (msg : String) (n : ℕ) : Bytes := ascii msg ++ decimal n ++ ascii " bytes"

/-- The plaintext of a blob, with its parts in five equal pieces. -/
def keyPlaintext (blobB64 : Bytes) : Except (Stop Bytes) Bytes := do
  let blob ← b64DecodeAny blobB64
  failIf (blob.length < kBlobHdrLen + kPtHdrLen + kLimbCount)
    (bytesText "key blob too short: " blob.length)
  let field ← readLe kLenFieldLen blob kCtLenOffset
  let ctLen := if blob.length < kBlobHdrLen + field then (blob.length - kBlobHdrLen) % 2 ^ 32
    else field
  let nonce ← substr blob 0 kNonceLen
  let ct ← substr blob kBlobHdrLen ctLen
  let pt ← ctrXor kAppcertKey nonce ct
  failIf (pt.length < kPtHdrLen + kLimbCount)
    (ascii "SKEY magic missing (wrong cipher / framing)")
  let magic ← readSlice 4 pt 0
  failIf (magic ≠ kMagic) (ascii "SKEY magic missing (wrong cipher / framing)")
  failIf (pt.length - kPtHdrLen = 0 ∨ (pt.length - kPtHdrLen) % kLimbCount ≠ 0)
    (bytesText "SKEY plaintext is not 5 equal CRT limbs: " pt.length)
  .ok pt

/-- The pieces are stored one by one. -/
@[grind =] def storeLimbs (pt : Bytes) (limb : ℕ) : List (Fin kLimbCount) → Limbs →
    Except (Stop Bytes) Unit × Limbs
  | [], limbs => (.ok (), limbs)
  | i :: is, limbs =>
    match substr pt (kPtHdrLen + i.val * limb) limb with
    | .error e => (.error e, limbs)
    | .ok piece => storeLimbs pt limb is (limbs.set i.val piece i.isLt)

/-- Success or why there is none, and the parts behind the pointer. -/
def decodeKeyBlob (blobB64 : Bytes) (limbs : Limbs) : Except (Stop Bytes) Unit × Limbs :=
  match keyPlaintext blobB64 with
  | .error e => (.error e, limbs)
  | .ok pt => storeLimbs pt ((pt.length - kPtHdrLen) / kLimbCount) (List.finRange kLimbCount) limbs

/-! ## Words of four groups -/

theorem mul_or {x y k : ℕ} (h : y < 2 ^ k) : 2 ^ k * x ||| y = 2 ^ k * x + y :=
  (Nat.two_pow_add_eq_or_of_lt h x).symm

theorem joinSextets_eq {q0 q1 q2 q3 : ℕ} (h1 : q1 < 64) (h2 : q2 < 64) (h3 : q3 < 64) :
    joinSextets q0 q1 q2 q3 = q0 * 2 ^ 18 + q1 * 2 ^ 12 + q2 * 2 ^ 6 + q3 := by
  have hs0 : q0 <<< 18 = 2 ^ 18 * q0 := by rw [Nat.shiftLeft_eq, Nat.mul_comm]
  have hs1 : q1 <<< 12 = 2 ^ 12 * q1 := by rw [Nat.shiftLeft_eq, Nat.mul_comm]
  have hs2 : q2 <<< 6 = 2 ^ 6 * q2 := by rw [Nat.shiftLeft_eq, Nat.mul_comm]
  have hj1 : 2 ^ 18 * q0 + 2 ^ 12 * q1 = 2 ^ 12 * (2 ^ 6 * q0 + q1) := by ring
  have hj2 :
      2 ^ 12 * (2 ^ 6 * q0 + q1) + 2 ^ 6 * q2 = 2 ^ 6 * (2 ^ 6 * (2 ^ 6 * q0 + q1) + q2) := by
    ring
  rw [joinSextets, hs0, hs1, hs2, mul_or (by omega), hj1, mul_or (by omega), hj2,
    mul_or (by omega)]
  ring

theorem byteAt_eq (w shift : ℕ) : byteAt w shift = UInt8.ofNat (w / 2 ^ shift % 256) := by
  rw [byteAt, Nat.shiftRight_eq_div_pow, Nat.and_two_pow_sub_one_eq_mod _ 8]

theorem bytesAt_joinSextets {q0 q1 q2 q3 : ℕ} (h0 : q0 < 64) (h1 : q1 < 64) (h2 : q2 < 64)
    (h3 : q3 < 64) :
    byteAt (joinSextets q0 q1 q2 q3) 16 = first q0 q1 ∧
      byteAt (joinSextets q0 q1 q2 q3) 8 = second q1 q2 ∧
      byteAt (joinSextets q0 q1 q2 q3) 0 = third q2 q3 := by
  rw [joinSextets_eq h1 h2 h3, byteAt_eq, byteAt_eq, byteAt_eq, first, second, third]
  refine ⟨congrArg _ ?_, congrArg _ ?_, congrArg _ ?_⟩ <;> omega

theorem charAt_eq (w shift : ℕ) : charAt w shift = urlChar (w / 2 ^ shift % 64) := by
  rw [charAt, Nat.shiftRight_eq_div_pow, Nat.and_two_pow_sub_one_eq_mod _ 6]

theorem joinBytes_eq (a b c : UInt8) : a.toNat <<< 16 ||| b.toNat <<< 8 ||| c.toNat =
    a.toNat * 2 ^ 16 + b.toNat * 2 ^ 8 + c.toNat := by
  have hb := b.toNat_lt
  have hc := c.toNat_lt
  have hs0 : a.toNat <<< 16 = 2 ^ 16 * a.toNat := by rw [Nat.shiftLeft_eq, Nat.mul_comm]
  have hs1 : b.toNat <<< 8 = 2 ^ 8 * b.toNat := by rw [Nat.shiftLeft_eq, Nat.mul_comm]
  have hj : 2 ^ 16 * a.toNat + 2 ^ 8 * b.toNat = 2 ^ 8 * (2 ^ 8 * a.toNat + b.toNat) := by ring
  rw [hs0, hs1, mul_or (by omega), hj, mul_or (by omega)]
  ring

/-! ## Texts -/

theorem val_toStandard (c : UInt8) : val (toStandard c) = valueAny c := by
  refine forall_byte (p := fun c => val (toStandard c) = valueAny c) ?_ c
  decide +kernel

theorem val_urlChar : ∀ q < 64, valueAny (urlChar q) = some q ∧ isSpace (urlChar q) = false := by
  decide +kernel

theorem sextet_of_val {c : UInt8} {q : ℕ} (h : val c = some q) : sextet c = .ok (some q) := by
  have hc : c ≠ pad := by
    rintro rfl
    cases h
  rw [sextet, if_neg hc, h]
  rfl

theorem sextet_pad : sextet pad = .ok none := rfl

variable {a b c d : UInt8} {x y z w : ℕ} {rest bytes : Bytes}

/-- Four characters. -/
theorem decodeGroups_four (ha : val a = some x) (hb : val b = some y) (hc : val c = some z)
    (hd : val d = some w) (hx : x < 64) (hy : y < 64) (hz : z < 64) (hw : w < 64)
    (hrest : decodeGroups rest = .ok bytes) : decodeGroups (a :: b :: c :: d :: rest) =
      .ok (first x y :: second y z :: third z w :: bytes) := by
  obtain ⟨h0, h1, h2⟩ := bytesAt_joinSextets hx hy hz hw
  rw [decodeGroups, sextet_of_val ha, sextet_of_val hb, sextet_of_val hc, sextet_of_val hd, hrest,
    ← h0, ← h1, ← h2]
  rfl

/-- Three characters and padding. -/
theorem decodeGroups_three (ha : val a = some x) (hb : val b = some y) (hc : val c = some z)
    (hx : x < 64) (hy : y < 64) (hz : z < 64) :
    decodeGroups [a, b, c, pad] = .ok [first x y, second y z] := by
  obtain ⟨h0, h1, -⟩ := bytesAt_joinSextets hx hy hz (by decide : 0 < 64)
  rw [decodeGroups, sextet_of_val ha, sextet_of_val hb, sextet_of_val hc, sextet_pad, ← h0, ← h1]
  rfl

/-- Two characters and padding. -/
theorem decodeGroups_two (ha : val a = some x) (hb : val b = some y) (hx : x < 64) (hy : y < 64) :
    decodeGroups [a, b, pad, pad] = .ok [first x y] := by
  obtain ⟨h0, -, -⟩ := bytesAt_joinSextets hx hy (by decide : 0 < 64) (by decide : 0 < 64)
  rw [decodeGroups, sextet_of_val ha, sextet_of_val hb, sextet_pad, ← h0]
  rfl

/-- **Base64 of some bytes is decoded to them.** -/
theorem decodeGroups_chars {data chars : Bytes} {pads : ℕ}
    (hchars : chars.map val = (sextets data).map some) (hpads : pads < 4)
    (hlen : (chars.length + pads) % 4 = 0) :
    decodeGroups (chars ++ List.replicate pads pad) = .ok data := by
  have hlt := sextets_lt data
  induction data using sextets.induct generalizing chars with
  | case1 a b c more ih =>
    simp only [sextets, List.mem_cons, forall_eq_or_imp] at hlt
    obtain ⟨h0, h1, h2, h3, hmore⟩ := hlt
    simp only [sextets, List.map_cons] at hchars
    obtain ⟨c0, chars, rfl, hc0, hchars⟩ := List.map_eq_cons_iff.1 hchars
    obtain ⟨c1, chars, rfl, hc1, hchars⟩ := List.map_eq_cons_iff.1 hchars
    obtain ⟨c2, chars, rfl, hc2, hchars⟩ := List.map_eq_cons_iff.1 hchars
    obtain ⟨c3, chars, rfl, hc3, hchars⟩ := List.map_eq_cons_iff.1 hchars
    simp only [List.length_cons] at hlen
    have hrest := ih hchars (by omega) hmore
    have hb := b.toNat_lt
    have hc := c.toNat_lt
    rw [List.cons_append, List.cons_append, List.cons_append, List.cons_append,
      decodeGroups_four hc0 hc1 hc2 hc3 h0 h1 h2 h3 hrest, first_sextets a _ (by omega),
      second_sextets b _ _ (by omega), third_sextets]
  | case2 a b =>
    simp only [sextets, List.mem_cons, forall_eq_or_imp] at hlt
    obtain ⟨h0, h1, h2, -⟩ := hlt
    simp only [sextets, List.map_cons, List.map_nil] at hchars
    obtain ⟨c0, chars, rfl, hc0, hchars⟩ := List.map_eq_cons_iff.1 hchars
    obtain ⟨c1, chars, rfl, hc1, hchars⟩ := List.map_eq_cons_iff.1 hchars
    obtain ⟨c2, chars, rfl, hc2, hchars⟩ := List.map_eq_cons_iff.1 hchars
    rw [List.map_eq_nil_iff.1 hchars] at hlen ⊢
    have hone : pads = 1 := by
      simp only [List.length_cons, List.length_nil] at hlen
      omega
    have hb := b.toNat_lt
    rw [hone]
    refine (decodeGroups_three hc0 hc1 hc2 h0 h1 h2).trans ?_
    rw [first_sextets a _ (by omega), ← Nat.add_zero (b.toNat % 16 * 4),
      second_sextets b _ 0 (by omega)]
  | case3 a =>
    simp only [sextets, List.mem_cons, forall_eq_or_imp] at hlt
    obtain ⟨h0, h1, -⟩ := hlt
    simp only [sextets, List.map_cons, List.map_nil] at hchars
    obtain ⟨c0, chars, rfl, hc0, hchars⟩ := List.map_eq_cons_iff.1 hchars
    obtain ⟨c1, chars, rfl, hc1, hchars⟩ := List.map_eq_cons_iff.1 hchars
    rw [List.map_eq_nil_iff.1 hchars] at hlen ⊢
    have htwo : pads = 2 := by
      simp only [List.length_cons, List.length_nil] at hlen
      omega
    rw [htwo]
    refine (decodeGroups_two hc0 hc1 h0 h1).trans ?_
    rw [← Nat.add_zero (a.toNat % 4 * 16), first_sextets a 0 (by omega)]
  | case4 =>
    rw [List.map_eq_nil_iff.1 (hchars : chars.map val = [])] at hlen ⊢
    have hnone : pads = 0 := by
      simp only [List.length_nil] at hlen
      omega
    rw [hnone]
    rfl

/-- What is decoded holds nothing but the alphabet and padding. -/
theorem mem_of_decodeGroups {s r : Bytes} (h : decodeGroups s = .ok r) :
    ∀ c ∈ s, c = pad ∨ (val c).isSome := by
  have hchar {c : UInt8} {q : Option ℕ} (hq : sextet c = .ok q) : c = pad ∨ (val c).isSome := by
    rw [sextet] at hq
    split at hq
    · next hpad => exact .inl hpad
    · obtain ⟨n, hn, -⟩ := bind_eq_ok.1 hq
      rw [orFail_eq_ok.1 hn]
      exact .inr rfl
  induction s using decodeGroups.induct generalizing r with
  | case1 => exact fun c hc => absurd hc List.not_mem_nil
  | case2 a b c d rest ih =>
    rw [decodeGroups] at h
    obtain ⟨q0, h0, h⟩ := bind_eq_ok.1 h
    obtain ⟨q1, h1, h⟩ := bind_eq_ok.1 h
    obtain ⟨q2, h2, h⟩ := bind_eq_ok.1 h
    obtain ⟨q3, h3, h⟩ := bind_eq_ok.1 h
    obtain ⟨_, -, h⟩ := bind_eq_ok.1 h
    obtain ⟨more, hmore, -⟩ := bind_eq_ok.1 h
    simp only [List.mem_cons, forall_eq_or_imp]
    exact ⟨hchar h0, hchar h1, hchar h2, hchar h3, ih hmore⟩
  | case3 s h₁ h₂ =>
    rw [decodeGroups] at h
    · cases h
    · exact h₁
    · exact h₂

theorem inside_sextet (c : UInt8) : Inside (sextet c) := by
  rw [sextet]
  split
  · exact inside_ok _
  · exact (inside_orFail _ _).bind fun _ _ => inside_ok _

theorem inside_decodeGroup (q0 q1 q2 q3 : Option ℕ) : Inside (decodeGroup q0 q1 q2 q3) :=
  (inside_orFail _ _).bind fun _ _ => (inside_orFail _ _).bind fun _ _ => inside_ok _

/-- Whole rounds stay inside the text. -/
theorem inside_decodeGroups {s : Bytes} (h : s.length % 4 = 0) : Inside (decodeGroups s) := by
  induction s using decodeGroups.induct with
  | case1 => exact inside_ok _
  | case2 a b c d rest ih =>
    simp only [List.length_cons] at h
    rw [decodeGroups]
    refine (inside_sextet a).bind fun _ _ => (inside_sextet b).bind fun _ _ =>
      (inside_sextet c).bind fun _ _ => (inside_sextet d).bind fun _ _ =>
      (inside_decodeGroup _ _ _ _).bind fun _ _ => (ih (by omega)).bind fun _ _ => inside_ok _
  | case3 s h₁ h₂ =>
    exfalso
    rcases s with _ | ⟨a, _ | ⟨b, _ | ⟨c, _ | ⟨d, rest⟩⟩⟩⟩
    · exact h₁ rfl
    · cases h
    · cases h
    · cases h
    · exact h₂ a b c d rest rfl

theorem length_padded (s : Bytes) : (padded s).length % 4 = 0 := by
  rw [padded, List.length_append, List.length_replicate]
  omega

theorem inside_b64DecodeAny (text : Bytes) : Inside (b64DecodeAny text) :=
  inside_decodeGroups (length_padded _)

/-- **A text of base64 is decoded**, in either alphabet, with padding or without. -/
theorem b64DecodeAny_of_text {text data : Bytes} (h : IsText isBlank text data) :
    b64DecodeAny text = .ok data := by
  obtain ⟨chars, pads, hfilter, hchars, hpads⟩ := h
  have hval : (chars.map toStandard).map val = (sextets data).map some := by
    rw [List.map_map, ← hchars]
    exact List.map_congr_left fun c _ => val_toStandard c
  have hmap : (List.replicate pads pad).map toStandard = List.replicate pads pad := by
    rw [List.map_replicate]
    rfl
  rw [b64DecodeAny, hfilter, List.map_append, hmap, padded, List.append_assoc,
    List.replicate_append_replicate, List.length_append, List.length_replicate, List.length_map]
  refine decodeGroups_chars hval ?_ ?_
  · rcases hpads with rfl | ⟨hpads, hlen⟩ <;> omega
  · rw [List.length_map]
    omega

theorem b64urlEncode_eq (data : Bytes) : ∃ pads,
    b64urlEncode data = (sextets data).map urlChar ++ List.replicate pads pad ∧ pads < 4 ∧
      ((sextets data).length + pads) % 4 = 0 := by
  induction data using b64urlEncode.induct with
  | case1 a b c rest ih =>
    obtain ⟨pads, heq, hlt, hlen⟩ := ih
    have ha := a.toNat_lt
    have hb := b.toNat_lt
    have hc := c.toNat_lt
    obtain ⟨w, hword⟩ : ∃ w, a.toNat <<< 16 ||| b.toNat <<< 8 ||| c.toNat = w := ⟨_, rfl⟩
    have hw : w = a.toNat * 2 ^ 16 + b.toNat * 2 ^ 8 + c.toNat := hword ▸ joinBytes_eq a b c
    have h0 : w / 2 ^ 18 % 64 = a.toNat / 4 := by omega
    have h1 : w / 2 ^ 12 % 64 = a.toNat % 4 * 16 + b.toNat / 16 := by omega
    have h2 : w / 2 ^ 6 % 64 = b.toNat % 16 * 4 + c.toNat / 64 := by omega
    have h3 : w / 2 ^ 0 % 64 = c.toNat % 64 := by omega
    refine ⟨pads, ?_, hlt, ?_⟩
    · have hself : b64urlEncode (a :: b :: c :: rest) =
          charAt w 18 :: charAt w 12 :: charAt w 6 :: charAt w 0 :: b64urlEncode rest :=
        hword ▸ rfl
      rw [hself, charAt_eq, charAt_eq, charAt_eq, charAt_eq, h0, h1, h2, h3, heq]
      rfl
    · simp only [sextets, List.length_cons]
      omega
  | case2 a b =>
    have ha := a.toNat_lt
    have hb := b.toNat_lt
    obtain ⟨w, hword⟩ : ∃ w, a.toNat <<< 16 ||| b.toNat <<< 8 = w := ⟨_, rfl⟩
    have hw : w = a.toNat * 2 ^ 16 + b.toNat * 2 ^ 8 := by
      simpa [hword] using joinBytes_eq a b 0
    have h0 : w / 2 ^ 18 % 64 = a.toNat / 4 := by omega
    have h1 : w / 2 ^ 12 % 64 = a.toNat % 4 * 16 + b.toNat / 16 := by omega
    have h2 : w / 2 ^ 6 % 64 = b.toNat % 16 * 4 := by omega
    refine ⟨1, ?_, by decide, by simp [sextets]⟩
    have hself : b64urlEncode [a, b] = [charAt w 18, charAt w 12, charAt w 6, pad] := hword ▸ rfl
    rw [hself, charAt_eq, charAt_eq, charAt_eq, h0, h1, h2]
    rfl
  | case3 a =>
    have ha := a.toNat_lt
    obtain ⟨w, hword⟩ : ∃ w, a.toNat <<< 16 = w := ⟨_, rfl⟩
    have hw : w = a.toNat * 2 ^ 16 := by
      simpa [hword] using joinBytes_eq a 0 0
    have h0 : w / 2 ^ 18 % 64 = a.toNat / 4 := by omega
    have h1 : w / 2 ^ 12 % 64 = a.toNat % 4 * 16 := by omega
    refine ⟨2, ?_, by decide, by simp [sextets]⟩
    have hself : b64urlEncode [a] = [charAt w 18, charAt w 12, pad, pad] := hword ▸ rfl
    rw [hself, charAt_eq, charAt_eq, h0, h1]
    rfl
  | case4 => exact ⟨0, rfl, by decide, rfl⟩

/-- The encoder writes base64, and no space. -/
theorem isText_b64urlEncode {blank : UInt8 → Bool} (hblank : ∀ c, blank c = true → isSpace c = true)
    (data : Bytes) : IsText blank (b64urlEncode data) data := by
  obtain ⟨pads, heq, hlt, hlen⟩ := b64urlEncode_eq data
  have hvalue (q : ℕ) (hq : q ∈ sextets data) :
      valueAny (urlChar q) = some q ∧ isSpace (urlChar q) = false :=
    val_urlChar q (sextets_lt data q hq)
  have hkept (c : UInt8) (hc : isSpace c = false) : (!blank c) = true := by
    cases h : blank c with
    | false => rfl
    | true => rw [hblank c h] at hc; cases hc
  refine ⟨(sextets data).map urlChar, pads, ?_, ?_, .inr ⟨hlt, by rwa [List.length_map]⟩⟩
  · rw [heq, List.filter_eq_self]
    intro c hc
    rcases List.mem_append.1 hc with hc | hc
    · obtain ⟨q, hq, rfl⟩ := List.mem_map.1 hc
      exact hkept _ (hvalue q hq).2
    · rw [List.eq_of_mem_replicate hc]
      exact hkept _ rfl
  · rw [List.map_map]
    exact List.map_congr_left fun q hq => (hvalue q hq).1

/-- The spaces that the decoder does not leave out. -/
def isTabOrFeed (c : UInt8) : Bool := c = 0x0b || c = 0x0c

theorem isSpace_eq (c : UInt8) : isSpace c = (isBlank c || isTabOrFeed c) := by
  refine forall_byte (p := fun c => isSpace c = (isBlank c || isTabOrFeed c)) ?_ c
  decide +kernel

/-- **What is encoded is decoded to itself.** -/
theorem b64DecodeAny_b64urlEncode (data : Bytes) : b64DecodeAny (b64urlEncode data) = .ok data := by
  have hblank (c : UInt8) (hc : isBlank c = true) : isSpace c = true := by
    rw [isSpace_eq, hc, Bool.true_or]
  exact b64DecodeAny_of_text (isText_b64urlEncode hblank data)

/-! ## Blobs -/

/-- The parts of a key, as the server sends them. -/
structure KeyBlob where
  nonce : Bytes
  tag : Bytes
  header : Bytes
  limbs : Limbs
  limbLen : ℕ
  nonce_length : nonce.length = kNonceLen
  tag_length : tag.length = kTagLen
  header_length : kMagic.length + header.length = kPtHdrLen
  limbLen_pos : 1 ≤ limbLen
  limb_length : ∀ l ∈ limbs.toList, l.length = limbLen
  /-- The length field can hold the length. -/
  fits : kPtHdrLen + kLimbCount * limbLen < 2 ^ 32

namespace KeyBlob

variable (k : KeyBlob)

def plaintext : Bytes := kMagic ++ k.header ++ k.limbs.toList.flatten

/-- The blob, when this is its ciphertext. -/
def framed (ct : Bytes) : Bytes := k.nonce ++ k.tag ++ leBytes kLenFieldLen ct.length ++ ct

theorem length_plaintext : k.plaintext.length = kPtHdrLen + kLimbCount * k.limbLen := by
  have hsum : k.limbs.toList.map List.length = List.replicate kLimbCount k.limbLen := by
    rw [List.eq_replicate_iff, List.length_map, Vector.length_toList]
    refine ⟨rfl, fun n hn => ?_⟩
    obtain ⟨l, hl, rfl⟩ := List.mem_map.1 hn
    exact k.limb_length l hl
  rw [plaintext, List.length_append, List.length_append, k.header_length, List.length_flatten,
    hsum, List.sum_replicate_nat]

end KeyBlob

/-- Piece `i` of a text of equal pieces. -/
theorem drop_take_flatten {ls : List Bytes} {n : ℕ} (h : ∀ l ∈ ls, l.length = n) {i : ℕ}
    (hi : i < ls.length) : (ls.flatten.drop (i * n)).take n = ls[i] := by
  induction ls generalizing i with
  | nil => cases hi
  | cons l ls ih =>
    have hl : l.length = n := h l List.mem_cons_self
    cases i with
    | zero => rw [Nat.zero_mul, List.drop_zero, List.flatten_cons, List.take_left' hl]; rfl
    | succ i =>
      have hdrop : (l ++ ls.flatten).drop ((i + 1) * n) = ls.flatten.drop (i * n) := by
        rw [Nat.succ_mul, Nat.add_comm, ← hl, List.drop_length_add_append]
      rw [List.flatten_cons, hdrop, ih (fun l' hl' => h l' (List.mem_cons_of_mem _ hl'))
        (Nat.lt_of_succ_lt_succ hi)]
      rfl

/-! ## Reading inside -/

theorem substr_of_le {s : Bytes} {pos n : ℕ} (h : pos ≤ s.length) :
    substr s pos n = .ok ((s.drop pos).take n) := if_neg (not_lt.2 h)

theorem inside_ctrXor (key : Vector UInt8 32) (nonce data : Bytes) :
    Inside (ctrXor key nonce data) := by
  by_cases h : nonce.length = kNonceLen
  · rw [ctrXor_eq h]
    exact inside_ok _
  · rw [ctrXor, if_pos h]
    exact inside_ok _

theorem inside_keyPlaintext (text : Bytes) : Inside (keyPlaintext text) := by
  refine (inside_b64DecodeAny text).bind fun blob _ => ?_
  refine (inside_failIf _).bind fun u hu => ?_
  have hlen := failIf_eq_ok.1 hu
  have hmin : kBlobHdrLen + kPtHdrLen + kLimbCount = 69 := rfl
  have hhdr : kBlobHdrLen = 32 := rfl
  have hoff : kCtLenOffset + kLenFieldLen = 32 := rfl
  refine (inside_readLe (by omega)).bind fun field _ => ?_
  rw [substr_of_le (Nat.zero_le _), ok_bind, substr_of_le (by omega), ok_bind]
  refine (inside_ctrXor _ _ _).bind fun pt _ => ?_
  refine (inside_failIf _).bind fun u hu => ?_
  have hpt := failIf_eq_ok.1 hu
  have hptMin : kPtHdrLen + kLimbCount = 37 := rfl
  refine (inside_readSlice (by omega)).bind fun magic _ => ?_
  exact (inside_failIf _).bind fun _ _ => (inside_failIf _).bind fun _ _ => inside_ok _

/-- A plaintext that is let through has its header and five equal pieces. -/
theorem length_of_keyPlaintext {text pt : Bytes} (h : keyPlaintext text = .ok pt) :
    kPtHdrLen + kLimbCount * ((pt.length - kPtHdrLen) / kLimbCount) = pt.length := by
  obtain ⟨_, -, h⟩ := bind_eq_ok.1 h
  obtain ⟨_, -, h⟩ := bind_eq_ok.1 h
  obtain ⟨_, -, h⟩ := bind_eq_ok.1 h
  obtain ⟨_, -, h⟩ := bind_eq_ok.1 h
  obtain ⟨_, -, h⟩ := bind_eq_ok.1 h
  obtain ⟨_, -, h⟩ := bind_eq_ok.1 h
  obtain ⟨_, hshort, h⟩ := bind_eq_ok.1 h
  obtain ⟨_, -, h⟩ := bind_eq_ok.1 h
  obtain ⟨_, -, h⟩ := bind_eq_ok.1 h
  obtain ⟨_, hpieces, h⟩ := bind_eq_ok.1 h
  cases h
  have hlen := failIf_eq_ok.1 hshort
  have hmod := not_or.1 (failIf_eq_ok.1 hpieces)
  rw [Nat.mul_div_cancel' (Nat.dvd_of_mod_eq_zero (not_not.1 hmod.2))]
  omega

/-- The pieces are all stored. -/
theorem storeLimbs_ok {pt : Bytes} {limb : ℕ} (h : kPtHdrLen + kLimbCount * limb ≤ pt.length)
    (is : List (Fin kLimbCount)) (limbs : Limbs) : ∃ stored,
    storeLimbs pt limb is limbs = (.ok (), stored) ∧ ∀ j : Fin kLimbCount, stored.get j =
      if j ∈ is then (pt.drop (kPtHdrLen + j.val * limb)).take limb else limbs.get j := by
  induction is generalizing limbs with
  | nil => exact ⟨limbs, rfl, fun j => (if_neg List.not_mem_nil).symm⟩
  | cons i is ih =>
    have hmul : i.val * limb ≤ kLimbCount * limb := Nat.mul_le_mul_right limb i.isLt.le
    have hpiece : substr pt (kPtHdrLen + i.val * limb) limb =
        .ok ((pt.drop (kPtHdrLen + i.val * limb)).take limb) := substr_of_le (by omega)
    obtain ⟨stored, hstore, hget⟩ := ih (limbs.set i.val _ i.isLt)
    refine ⟨stored, by rw [storeLimbs, hpiece]; exact hstore, fun j => ?_⟩
    rw [hget]
    by_cases hj : j ∈ is
    · rw [if_pos hj, if_pos (List.mem_cons_of_mem _ hj)]
    · rw [if_neg hj]
      by_cases hij : j = i
      · rw [hij, if_pos List.mem_cons_self]
        exact Vector.getElem_set_self i.isLt
      · have hne : i.val ≠ j.val := fun hval => hij (Fin.ext hval.symm)
        rw [if_neg fun hc => (List.mem_cons.1 hc).elim hij hj]
        exact Vector.getElem_set_ne i.isLt j.isLt hne

theorem decodeKeyBlob_error {text : Bytes} {e : Stop Bytes} (h : keyPlaintext text = .error e)
    (limbs : Limbs) : decodeKeyBlob text limbs = (.error e, limbs) := by
  rw [decodeKeyBlob, h]

/-- A plaintext that is let through is stored. -/
theorem decodeKeyBlob_ok {text pt : Bytes} (h : keyPlaintext text = .ok pt) (limbs : Limbs) :
    ∃ stored, decodeKeyBlob text limbs = (.ok (), stored) ∧ ∀ j : Fin kLimbCount, stored.get j =
      (pt.drop (kPtHdrLen + j.val * ((pt.length - kPtHdrLen) / kLimbCount))).take
        ((pt.length - kPtHdrLen) / kLimbCount) := by
  obtain ⟨stored, hstore, hget⟩ :=
    storeLimbs_ok (length_of_keyPlaintext h).le (List.finRange kLimbCount) limbs
  refine ⟨stored, by rw [decodeKeyBlob, h]; exact hstore, fun j => ?_⟩
  rw [hget, if_pos (List.mem_finRange j)]

/-- **Nothing is stored that is not reported**, and no read is outside. -/
theorem decodeKeyBlob_safe (text : Bytes) (limbs : Limbs) :
    (decodeKeyBlob text limbs).1 ≠ .error .outside ∧
      ((decodeKeyBlob text limbs).1 ≠ .ok () → (decodeKeyBlob text limbs).2 = limbs) := by
  cases hpt : keyPlaintext text with
  | error e =>
    rw [decodeKeyBlob_error hpt]
    refine ⟨fun h => ?_, fun _ => rfl⟩
    exact inside_keyPlaintext text (hpt.trans (congrArg _ (Except.error.inj h)))
  | ok pt =>
    obtain ⟨stored, hstore, -⟩ := decodeKeyBlob_ok hpt limbs
    rw [hstore]
    exact ⟨fun h => (by cases h), fun h => absurd rfl h⟩

/-! ## The round trip -/

variable {k : KeyBlob} {ct : Bytes}

/-- The fields of a blob are read back. -/
theorem keyPlaintext_framed {text : Bytes}
    (hct : ctrXor kAppcertKey k.nonce k.plaintext = .ok ct)
    (htext : b64DecodeAny text = .ok (k.framed ct)) : keyPlaintext text = .ok k.plaintext := by
  obtain ⟨e, he, hlen, hback⟩ : ∃ e, ctrXor kAppcertKey k.nonce k.plaintext = .ok e ∧
      e.length = k.plaintext.length ∧ ctrXor kAppcertKey k.nonce e = .ok k.plaintext :=
    ctrXor_ctrXor k.nonce_length
  rw [hct] at he
  cases he
  have hpt : k.plaintext.length = 32 + 5 * k.limbLen := k.length_plaintext
  have hfits : 32 + 5 * k.limbLen < 2 ^ 32 := k.fits
  have hpos := k.limbLen_pos
  have hnonce := k.nonce_length
  have htag := k.tag_length
  have hN : kNonceLen = 12 := rfl
  have hT : kTagLen = 16 := rfl
  have hL : kLenFieldLen = 4 := rfl
  have hO : kCtLenOffset = 28 := rfl
  have hB : kBlobHdrLen = 32 := rfl
  have hP : kPtHdrLen = 32 := rfl
  have hC : kLimbCount = 5 := rfl
  have hhead : (k.nonce ++ k.tag).length = kCtLenOffset := by
    rw [List.length_append, hnonce, htag]
    rfl
  have hfield : (leBytes kLenFieldLen ct.length).length = kLenFieldLen := length_leBytes _ _
  have hblob : (k.framed ct).length = kBlobHdrLen + ct.length := by
    rw [KeyBlob.framed, List.length_append, List.length_append, hhead, hfield]
    rfl
  have hread : (readLe kLenFieldLen (k.framed ct) kCtLenOffset : Except (Stop Bytes) ℕ) =
      .ok ct.length := by
    have hdrop : (k.framed ct).drop kCtLenOffset = leBytes kLenFieldLen ct.length ++ ct := by
      rw [KeyBlob.framed, List.append_assoc, List.drop_left' hhead]
    rw [readLe_of_le (by omega), hdrop, List.take_left' hfield,
      leNat_leBytes (show ct.length < 256 ^ kLenFieldLen by rw [hL]; omega)]
  have hsub : substr (k.framed ct) 0 kNonceLen = .ok k.nonce := by
    rw [substr_of_le (Nat.zero_le _), List.drop_zero, KeyBlob.framed, List.append_assoc,
      List.append_assoc, List.take_left' hnonce]
  have hrest : substr (k.framed ct) kBlobHdrLen ct.length = .ok ct := by
    have hall : (k.nonce ++ k.tag ++ leBytes kLenFieldLen ct.length).length = kBlobHdrLen := by
      rw [List.length_append, hhead, hfield]
      rfl
    rw [substr_of_le (by omega), KeyBlob.framed, List.drop_left' hall, List.take_length]
  have hmagic : (readSlice 4 k.plaintext 0 : Except (Stop Bytes) Bytes) = .ok kMagic := by
    rw [readSlice_of_le (by omega), List.drop_zero, KeyBlob.plaintext, List.append_assoc]
    rfl
  have hpieces : ¬ (k.plaintext.length - kPtHdrLen = 0 ∨
      (k.plaintext.length - kPtHdrLen) % kLimbCount ≠ 0) := by
    rw [hP, hC, hpt]
    omega
  rw [keyPlaintext, htext, ok_bind, failIf_of_not _ (by omega), ok_bind, hread, ok_bind,
    if_neg (by omega), hsub, ok_bind, hrest, ok_bind, hback, ok_bind,
    failIf_of_not _ (by omega), ok_bind, hmagic, ok_bind, failIf_of_not _ (not_not.2 rfl), ok_bind,
    failIf_of_not _ hpieces, ok_bind]

/-- The pieces of the plaintext are the parts. -/
theorem KeyBlob.get_limbs (k : KeyBlob) (j : Fin kLimbCount) :
    (k.plaintext.drop (kPtHdrLen + j.val * k.limbLen)).take k.limbLen = k.limbs.get j := by
  have hhead : (kMagic ++ k.header).length = kPtHdrLen := by
    rw [List.length_append, k.header_length]
  have hj : j.val < k.limbs.toList.length := by
    rw [Vector.length_toList]
    exact j.isLt
  rw [KeyBlob.plaintext, ← List.drop_drop, List.drop_left' hhead,
    drop_take_flatten k.limb_length hj]
  exact Vector.getElem_toList hj

/-- The parts are stored, when the text decodes to the blob. -/
theorem decodeKeyBlob_framed {text : Bytes}
    (hct : ctrXor kAppcertKey k.nonce k.plaintext = .ok ct)
    (htext : b64DecodeAny text = .ok (k.framed ct)) (limbs : Limbs) :
    decodeKeyBlob text limbs = (.ok (), k.limbs) := by
  obtain ⟨stored, hstore, hget⟩ := decodeKeyBlob_ok (keyPlaintext_framed hct htext) limbs
  have hlimb : (k.plaintext.length - kPtHdrLen) / kLimbCount = k.limbLen := by
    rw [k.length_plaintext, Nat.add_sub_cancel_left]
    exact Nat.mul_div_cancel_left _ (by decide)
  rw [hstore]
  refine Prod.ext rfl (Vector.ext fun i hi => ?_)
  have hi' := hget ⟨i, hi⟩
  rw [hlimb, k.get_limbs] at hi'
  exact hi'

/-! ## Spaces -/

theorem isTabOrFeed_kept (c : UInt8) (h : isTabOrFeed c = true) : isBlank c = false ∧
    toStandard c = c ∧ c ≠ pad ∧ val c = none := by
  rw [isTabOrFeed, Bool.or_eq_true, decide_eq_true_iff, decide_eq_true_iff] at h
  rcases h with rfl | rfl <;> decide

/-- A text with a space of the other kind is refused. -/
theorem b64DecodeAny_ne_ok {text r : Bytes} {c : UInt8} (hc : c ∈ text)
    (h : isTabOrFeed c = true) : b64DecodeAny text ≠ .ok r := by
  intro hok
  obtain ⟨hblank, hself, hpad, hval⟩ := isTabOrFeed_kept c h
  have hmem : c ∈ padded ((text.filter fun c => !isBlank c).map toStandard) := by
    refine List.mem_append_left _ (List.mem_map.2 ⟨c, List.mem_filter.2 ⟨hc, ?_⟩, hself⟩)
    rw [hblank]
    rfl
  rcases mem_of_decodeGroups hok c hmem with rfl | hsome
  · exact hpad rfl
  · rw [hval] at hsome
    cases hsome

theorem decodeKeyBlob_ne_ok {text : Bytes} {c : UInt8} (hc : c ∈ text) (h : isTabOrFeed c = true)
    (old limbs : Limbs) : decodeKeyBlob text old ≠ (.ok (), limbs) := by
  intro hdecode
  cases hplain : keyPlaintext text with
  | error e =>
    rw [decodeKeyBlob_error hplain] at hdecode
    cases hdecode
  | ok pt =>
    obtain ⟨blob, hblob, -⟩ := bind_eq_ok.1 hplain
    exact b64DecodeAny_ne_ok hc h hblob

theorem isText_isBlank {text data : Bytes} (h : IsText isSpace text data)
    (hnone : ∀ c ∈ text, isTabOrFeed c = false) : IsText isBlank text data := by
  obtain ⟨chars, pads, hfilter, hrest⟩ := h
  refine ⟨chars, pads, hfilter ▸ List.filter_congr fun c hc => ?_, hrest⟩
  rw [isSpace_eq, hnone c hc, Bool.or_false]

/-- **The key of an app certificate.** -/
theorem keyBlob_codec (text : Bytes) (old : Limbs) :
    (∀ (k : KeyBlob) (ct : Bytes),
      ctrXor kAppcertKey k.nonce k.plaintext = .ok ct → IsText isSpace text (k.framed ct) →
      (decodeKeyBlob text old = (.ok (), k.limbs) ↔ ∀ c ∈ text, isTabOrFeed c = false)) ∧
    (∀ (key : Vector UInt8 32) (nonce data : Bytes), nonce.length = kNonceLen →
      ∃ e, ctrXor key nonce data = .ok e ∧ ctrXor key nonce e = .ok data) ∧
    (∀ data, b64DecodeAny (b64urlEncode data) = .ok data) ∧
    (decodeKeyBlob text old).1 ≠ .error .outside ∧
      ((decodeKeyBlob text old).1 ≠ .ok () → (decodeKeyBlob text old).2 = old) := by
  refine ⟨fun k ct hct htext => ⟨fun hdecode c hc => ?_, fun hnone => ?_⟩, ?_,
    b64DecodeAny_b64urlEncode, decodeKeyBlob_safe text old⟩
  · by_contra hspace
    rw [Bool.not_eq_false] at hspace
    exact decodeKeyBlob_ne_ok hc hspace old k.limbs hdecode
  · exact decodeKeyBlob_framed hct (b64DecodeAny_of_text (isText_isBlank htext hnone)) old
  · intro key nonce data hnonce
    obtain ⟨e, he, -, hback⟩ := ctrXor_ctrXor hnonce
    exact ⟨e, he, hback⟩

theorem length_small_limbs :
    ∀ l ∈ (Vector.replicate kLimbCount [1] : Limbs).toList, l.length = 1 := by
  intro l hl
  rw [Vector.toList_replicate] at hl
  rw [List.eq_of_mem_replicate hl]
  rfl

theorem small_fits : kPtHdrLen + kLimbCount * 1 < 2 ^ 32 := by
  decide

/-- A key of five bytes. -/
def smallKey : KeyBlob where
  nonce := List.replicate 12 0
  tag := List.replicate 16 0
  header := List.replicate 28 0
  limbs := Vector.replicate kLimbCount [1]
  limbLen := 1
  nonce_length := rfl
  tag_length := rfl
  header_length := rfl
  limbLen_pos := le_refl 1
  limb_length := length_small_limbs
  fits := small_fits

theorem exists_smallKey_ct :
    ∃ ct, ctrXor kAppcertKey smallKey.nonce smallKey.plaintext = .ok ct := by
  obtain ⟨ct, hct, -⟩ : ∃ ct, ctrXor kAppcertKey smallKey.nonce smallKey.plaintext = .ok ct ∧
      ct.length = smallKey.plaintext.length ∧
      ctrXor kAppcertKey smallKey.nonce ct = .ok smallKey.plaintext :=
    ctrXor_ctrXor smallKey.nonce_length
  exact ⟨ct, hct⟩

/-- The text with spaces in front of it. -/
theorem isText_spaces {spaces : Bytes} (h : ∀ c ∈ spaces, isSpace c = true) (data : Bytes) :
    IsText isSpace (spaces ++ b64urlEncode data) data := by
  obtain ⟨chars, pads, hfilter, hrest⟩ := isText_b64urlEncode (fun _ hc => hc) data
  refine ⟨chars, pads, ?_, hrest⟩
  have hnone : spaces.filter (fun c => !isSpace c) = [] := by
    refine List.filter_eq_nil_iff.2 fun c hc => ?_
    rw [h c hc]
    exact Bool.false_ne_true
  rw [List.filter_append, hnone, List.nil_append, hfilter]

/-- A line break and a blank in front of the text. -/
theorem keyBlob_codec_small : ∃ ct,
    ctrXor kAppcertKey smallKey.nonce smallKey.plaintext = .ok ct ∧
      decodeKeyBlob ([0x0a, 0x20] ++ b64urlEncode (smallKey.framed ct))
        (Vector.replicate kLimbCount []) = (.ok (), smallKey.limbs) := by
  obtain ⟨ct, hct⟩ := exists_smallKey_ct
  have htext : IsText isSpace ([0x0a, 0x20] ++ b64urlEncode (smallKey.framed ct))
      (smallKey.framed ct) := isText_spaces (List.all_iff_forall_prop.1 (by decide)) _
  refine ⟨ct, hct, ((keyBlob_codec _ _).1 smallKey ct hct htext).2 fun c hc => ?_⟩
  rcases List.mem_append.1 hc with hc | hc
  · have hplain : ∀ c ∈ [(0x0a : UInt8), 0x20], isTabOrFeed c = false :=
      List.all_iff_forall_prop.1 (by decide)
    exact hplain c hc
  · by_contra hspace
    rw [Bool.not_eq_false] at hspace
    exact b64DecodeAny_ne_ok hc hspace (b64DecodeAny_b64urlEncode _)

/-- A vertical tab in front of the text. -/
theorem decodeKeyBlob_tab : ¬ ∀ (k : KeyBlob) (ct text : Bytes) (old : Limbs),
    ctrXor kAppcertKey k.nonce k.plaintext = .ok ct → IsText isSpace text (k.framed ct) →
    decodeKeyBlob text old = (.ok (), k.limbs) := by
  intro h
  obtain ⟨ct, hct⟩ := exists_smallKey_ct
  have htext : IsText isSpace ([0x0b] ++ b64urlEncode (smallKey.framed ct)) (smallKey.framed ct) :=
    isText_spaces (List.all_iff_forall_prop.1 (by decide)) _
  exact decodeKeyBlob_ne_ok List.mem_cons_self rfl _ _ (h smallKey ct _ smallKey.limbs hct htext)

end BambooNet.AppCert
