import BambooNet.Lib.Base64
import BambooNet.Lib.Chunks
import BambooNet.Signing.Sign

/-!
# Blockwise encryption

`rsa_pkcs1v15_encrypt_b64` encrypts a text in blocks of at most eleven bytes less than the key has,
and prints the blocks in base64.

**The key** (`Evp`). What OpenSSL answers is an input: the size of a block, and the result of each
call. `Pkcs1` is what it answers for an RSA key: the block of a chunk that fits has the size of the
key, and decrypts to the chunk.

**The loop** (`encryptLoop_eq`). It makes the chunks of the text in order, an empty one for an
empty text.

Main results: `blocks_decrypt` and `decode_base64Encode`.
-/

namespace BambooNet.Signing

open Base64

/-! ## Base64 -/

theorem b64Char_value (w : ℕ) : value (b64Char w) = some (w % 64) := by
  have h : ∀ k < 64, value (kB64Tbl.getD k 0x3d) = some k := by decide +kernel
  have hmask : w &&& 63 = w % 64 := Nat.and_two_pow_sub_one_eq_mod w 6
  rw [b64Char, hmask]
  exact h _ (Nat.mod_lt _ (by decide))

/-- The bits of two bytes. -/
theorem bits_two (a b : UInt8) :
    a.toNat <<< 16 ||| b.toNat <<< 8 = (a.toNat * 256 + b.toNat) * 256 := by
  have hb := b.toNat_lt
  have hlow : b.toNat <<< 8 < 2 ^ 16 := by
    rw [Nat.shiftLeft_eq]
    omega
  rw [← Nat.shiftLeft_add_eq_or_of_lt hlow, Nat.shiftLeft_eq, Nat.shiftLeft_eq]
  omega

/-- The bits of three bytes. -/
theorem bits_three (a b c : UInt8) : a.toNat <<< 16 ||| b.toNat <<< 8 ||| c.toNat =
    (a.toNat * 256 + b.toNat) * 256 + c.toNat := by
  have hc : c.toNat < 2 ^ 8 := c.toNat_lt
  have hshift : (a.toNat * 256 + b.toNat) * 256 = (a.toNat * 256 + b.toNat) <<< 8 :=
    (Nat.shiftLeft_eq _ 8).symm
  rw [bits_two, hshift, Nat.shiftLeft_add_eq_or_of_lt hc]

variable {w : ℕ}

theorem first_bits (a : UInt8) (h : w / 65536 = a.toNat) :
    first (w >>> 18 % 64) (w >>> 12 % 64) = a := by
  have ha := a.toNat_lt
  rw [first, ← UInt8.toNat_inj, UInt8.toNat_ofNat', Nat.shiftRight_eq_div_pow,
    Nat.shiftRight_eq_div_pow]
  omega

theorem second_bits (b : UInt8) (h : w / 256 % 256 = b.toNat) :
    second (w >>> 12 % 64) (w >>> 6 % 64) = b := by
  have hb := b.toNat_lt
  rw [second, ← UInt8.toNat_inj, UInt8.toNat_ofNat', Nat.shiftRight_eq_div_pow,
    Nat.shiftRight_eq_div_pow]
  omega

theorem third_bits (c : UInt8) (h : w % 256 = c.toNat) : third (w >>> 6 % 64) (w % 64) = c := by
  have hc := c.toNat_lt
  rw [third, ← UInt8.toNat_inj, UInt8.toNat_ofNat', Nat.shiftRight_eq_div_pow]
  omega

/-- **What was encoded is decoded.** -/
theorem decode_base64Encode (data : Bytes) : decode (base64Encode data) = some data := by
  fun_induction base64Encode data with
  | case1 => rfl
  | case2 a w =>
    have hw : w = a.toNat * 65536 := Nat.shiftLeft_eq _ 16
    have hzero : w >>> 12 % 64 % 16 = 0 := by
      rw [Nat.shiftRight_eq_div_pow]
      omega
    refine (decode_one (b64Char_value _) (b64Char_value _) hzero).trans ?_
    rw [first_bits a (by omega)]
  | case3 a b w =>
    have hb := b.toNat_lt
    have hw : w = (a.toNat * 256 + b.toNat) * 256 := bits_two a b
    have hzero : w >>> 6 % 64 % 4 = 0 := by
      rw [Nat.shiftRight_eq_div_pow]
      omega
    refine (decode_two (b64Char_value _) (b64Char_value _) (b64Char_value _) hzero).trans ?_
    rw [first_bits a (by omega), second_bits b (by omega)]
  | case4 a b c data w ih =>
    have hb := b.toNat_lt
    have hc := c.toNat_lt
    have hw : w = (a.toNat * 256 + b.toNat) * 256 + c.toNat := bits_three a b c
    rw [decode_group (b64Char_value _) (b64Char_value _) (b64Char_value _) (b64Char_value _) ih,
      first_bits a (by omega), second_bits b (by omega), third_bits c (by omega)]

theorem base64Encode_injective : Function.Injective base64Encode := by
  intro d e h
  have hd := decode_base64Encode d
  rw [h, decode_base64Encode] at hd
  exact (Option.some.inj hd).symm

/-! ## The loop -/

/-- What OpenSSL answers for a public key: the size of a block, whether a context is there, the
error of its initialisation, and the results of the `i`-th size query and encryption. -/
structure Evp where
  size : ℤ
  newCtx : Bool
  init : Option Bytes
  query : ℕ → Bytes → Except Bytes ℕ
  encrypt : ℕ → Bytes → Except Bytes Bytes

/-- The blocks from the `i`-th on, for what remains of the text. -/
def encryptLoop (pub : Evp) (maxChunk : ℕ) (hpos : 0 < maxChunk) (i : ℕ) (remaining out : Bytes) :
    Except Bytes Bytes :=
  let chunk := remaining.take maxChunk
  match pub.query i chunk with
  | .error e => .error (ascii "EVP_PKEY_encrypt size query failed: " ++ e)
  | .ok _ =>
    match pub.encrypt i chunk with
    | .error e => .error (ascii "EVP_PKEY_encrypt failed: " ++ e)
    | .ok block =>
      if _ : 0 < (remaining.drop maxChunk).length then
        encryptLoop pub maxChunk hpos (i + 1) (remaining.drop maxChunk) (out ++ block)
      else .ok (out ++ block)
termination_by remaining.length
decreasing_by
  rw [List.length_drop] at *
  omega

theorem maxChunk_pos {size : ℤ} (h : ¬ size ≤ 11) : 0 < (size - 11).toNat := by omega

/-- The encrypted text, or the error it is given up with. -/
def rsaEncryptB64 (pub : Option Evp) (plaintext : Bytes) : Except Bytes Bytes :=
  match pub with
  | none => .error (ascii "null public key")
  | some pub =>
    if h : pub.size ≤ 11 then .error (ascii "RSA key too small")
    else if !pub.newCtx then .error (ascii "EVP_PKEY_CTX_new failed")
    else
      match pub.init with
      | some e => .error (ascii "encrypt init/padding failed: " ++ e)
      | none =>
        (encryptLoop pub (pub.size - 11).toNat (maxChunk_pos h) 0 plaintext []).map base64Encode

/-- What OpenSSL answers for an RSA key of more than eleven bytes: a chunk that leaves eleven bytes
free is encrypted to a block of the key's size, which decrypts to the chunk. -/
structure Pkcs1 (pub : Evp) (decrypt : Bytes → Option Bytes) : Prop where
  size : 11 < pub.size
  newCtx : pub.newCtx = true
  init : pub.init = none
  query : ∀ i (chunk : Bytes), chunk.length + 11 ≤ pub.size → ∃ n, pub.query i chunk = .ok n
  encrypt : ∀ i (chunk : Bytes), chunk.length + 11 ≤ pub.size →
    ∃ block, pub.encrypt i chunk = .ok block ∧ block.length = pub.size ∧
      decrypt block = some chunk

/-- The number of blocks of a text of `n` bytes: the chunks it has, rounded up, and at least
one. -/
def blockCount (k n : ℕ) : ℕ := max 1 ((n + k - 1) / k)

theorem blockCount_last {k n : ℕ} (hpos : 0 < k) (h : n ≤ k) : blockCount k n = 1 := by
  have hle : (n + k - 1) / k ≤ 1 := by
    rw [← Nat.lt_succ_iff, Nat.div_lt_iff_lt_mul hpos]
    omega
  exact max_eq_left hle

theorem blockCount_more {k n : ℕ} (hpos : 0 < k) (h : k < n) :
    blockCount k n = blockCount k (n - k) + 1 := by
  have hstep : (n + k - 1) / k = (n - k + k - 1) / k + 1 := by
    rw [← Nat.add_div_right _ hpos]
    congr 1
    omega
  have hone : 1 ≤ (n - k + k - 1) / k := by
    rw [Nat.le_div_iff_mul_le hpos]
    omega
  rw [blockCount, blockCount, hstep, max_eq_right hone, max_eq_right (by omega)]

/-! ## The blocks by their number -/

/-- The public key as the field encryption sees it. -/
def Evp.deviceKey (pub : Evp) : DeviceKey where
  size := pub.size.toNat
  encrypt i chunk :=
    if pub.newCtx && pub.init.isNone then
      (pub.query i chunk).toOption.bind fun _ => (pub.encrypt i chunk).toOption
    else none

theorem chunkAt_succ (k : ℕ) (xs : Bytes) (j : ℕ) :
    chunkAt k xs (j + 1) = chunkAt k (xs.drop k) j := by
  rw [chunkAt, chunkAt, List.drop_drop]
  congr 2
  ring

/-- One more block, before the others. -/
theorem mapM_blocks (enc : ℕ → Bytes → Option Bytes) (k i b : ℕ) (xs : Bytes) :
    ((List.range (b + 1)).mapM fun j => enc (i + j) (chunkAt k xs j)) =
      (enc i (xs.take k)).bind fun block =>
        ((List.range b).mapM fun j => enc (i + 1 + j) (chunkAt k (xs.drop k) j)).map
          (block :: ·) := by
  have hzero : chunkAt k xs 0 = xs.take k := by simp [chunkAt]
  have htail (j : ℕ) : enc (i + j.succ) (chunkAt k xs j.succ) =
      enc (i + 1 + j) (chunkAt k (xs.drop k) j) := by
    rw [chunkAt_succ, Nat.add_right_comm]
    rfl
  rw [List.range_succ_eq_map, List.mapM_cons, List.mapM_map]
  simp only [Function.comp_def, htail, hzero, Nat.add_zero]
  cases enc i (xs.take k) with
  | none => rfl
  | some block =>
    cases (List.range b).mapM fun j => enc (i + 1 + j) (chunkAt k (xs.drop k) j) <;> rfl

theorem encryptLoop_toOption {pub : Evp} (hctx : pub.newCtx = true) (hinit : pub.init = none)
    {k : ℕ} (hpos : 0 < k) (i : ℕ) (remaining out : Bytes) :
    (encryptLoop pub k hpos i remaining out).toOption =
      ((List.range (blockCount k remaining.length)).mapM fun j =>
        pub.deviceKey.encrypt (i + j) (chunkAt k remaining j)).map (out ++ ·.flatten) := by
  induction hn : remaining.length using Nat.strong_induction_on generalizing i remaining out with
  | _ n ih =>
    have hfirst : pub.deviceKey.encrypt i (remaining.take k) =
        (pub.query i (remaining.take k)).toOption.bind fun _ =>
          (pub.encrypt i (remaining.take k)).toOption := by
      simp [Evp.deviceKey, hctx, hinit]
    obtain ⟨b, hb⟩ : ∃ b, blockCount k n = b + 1 :=
      ⟨_, (Nat.succ_pred_eq_of_pos (le_max_left 1 _)).symm⟩
    rw [hb, mapM_blocks, hfirst, encryptLoop]
    cases hquery : pub.query i (remaining.take k) with
    | error e => rfl
    | ok size =>
      cases hblock : pub.encrypt i (remaining.take k) with
      | error e => rfl
      | ok block =>
        simp only [List.length_drop, Except.toOption, Option.bind_some, Option.map_map]
        by_cases hmore : k < remaining.length
        · have htail := ih _ (by omega) (i + 1) (remaining.drop k) (out ++ block) List.length_drop
          rw [hn, ← Nat.succ_inj.1 (hb.symm.trans (blockCount_more hpos (hn ▸ hmore)))] at htail
          rw [dif_pos (by omega)]
          refine htail.trans ?_
          cases (List.range b).mapM fun j =>
            pub.deviceKey.encrypt (i + 1 + j) (chunkAt k (remaining.drop k) j) <;> simp
        · have hlast : b = 0 := by
            have := blockCount_last (k := k) hpos (n := n) (by omega)
            omega
          rw [dif_neg (by omega), hlast]
          simp

theorem rsaPkcs1v15EncryptB64_blocks {key : DeviceKey} (h : ¬ key.size ≤ 11) (plaintext : Bytes) :
    rsaPkcs1v15EncryptB64 key plaintext =
      (((List.range (blockCount (key.size - 11) plaintext.length)).mapM fun i =>
        key.encrypt i (chunkAt (key.size - 11) plaintext i)).map
          (base64Encode ·.flatten)).getD [] := by
  simp only [rsaPkcs1v15EncryptB64, if_neg h, blockCount, chunkAt]
  split
  · next hnone => rw [hnone]; rfl
  · next out hout => rw [hout]; rfl

/-- A key that encrypts nothing has no blocks. -/
theorem mapM_blocks_none {enc : ℕ → Bytes → Option Bytes} (h : ∀ i chunk, enc i chunk = none)
    (k n : ℕ) (xs : Bytes) :
    ((List.range (blockCount k n)).mapM fun i => enc i (chunkAt k xs i)) = none := by
  obtain ⟨b, hb⟩ : ∃ b, blockCount k n = b + 1 :=
    ⟨_, (Nat.succ_pred_eq_of_pos (le_max_left 1 _)).symm⟩
  simp only [hb, List.range_succ_eq_map, List.mapM_cons, h]
  rfl

/-- **The blocks of the field encryption** are those of the loop; an error gives the empty text. -/
theorem rsaPkcs1v15EncryptB64_eq (pub : Evp) (plaintext : Bytes) :
    rsaPkcs1v15EncryptB64 pub.deviceKey plaintext =
      (rsaEncryptB64 (some pub) plaintext).toOption.getD [] := by
  have hsize : pub.deviceKey.size ≤ 11 ↔ pub.size ≤ 11 := Int.toNat_le
  by_cases h : pub.size ≤ 11
  · rw [rsaPkcs1v15EncryptB64, if_pos (hsize.2 h), rsaEncryptB64, dif_pos h]
    rfl
  · have hchunk : pub.deviceKey.size - 11 = (pub.size - 11).toNat := by
      show pub.size.toNat - 11 = _
      omega
    rw [rsaPkcs1v15EncryptB64_blocks (mt hsize.1 h), hchunk, rsaEncryptB64, dif_neg h]
    cases hctx : pub.newCtx with
    | false =>
      rw [mapM_blocks_none fun i chunk => by simp [Evp.deviceKey, hctx]]
      rfl
    | true =>
      cases hinit : pub.init with
      | some e =>
        rw [mapM_blocks_none fun i chunk => by simp [Evp.deviceKey, hinit]]
        rfl
      | none =>
        have hloop := encryptLoop_toOption hctx hinit (maxChunk_pos h) 0 plaintext []
        simp only [Nat.zero_add, List.nil_append] at hloop
        have hsplit (blocks : Option (List Bytes)) : blocks.map (base64Encode ·.flatten) =
            (blocks.map List.flatten).map base64Encode := by
          cases blocks <;> rfl
        rw [hsplit, ← hloop]
        cases encryptLoop pub (pub.size - 11).toNat (maxChunk_pos h) 0 plaintext [] <;> rfl

/-! ## RSA keys -/

variable {pub : Evp} {decrypt : Bytes → Option Bytes}

/-- **The blocks of what remains**, appended to those that are there. -/
theorem encryptLoop_eq (law : Pkcs1 pub decrypt) {k : ℕ} (hpos : 0 < k) (hk : k + 11 ≤ pub.size)
    (i : ℕ) (remaining out : Bytes) :
    ∃ blocks chunks : List Bytes,
      encryptLoop pub k hpos i remaining out = .ok (out ++ blocks.flatten) ∧
      blocks.length = blockCount k remaining.length ∧ (∀ b ∈ blocks, b.length = pub.size) ∧
      blocks.map decrypt = chunks.map some ∧ chunks.flatten = remaining := by
  induction hn : remaining.length using Nat.strong_induction_on generalizing i remaining out with
  | _ n ih =>
    have hchunk : ((remaining.take k).length : ℤ) + 11 ≤ pub.size := by
      have := List.length_take_le k remaining
      omega
    obtain ⟨size, hquery⟩ := law.query i _ hchunk
    obtain ⟨block, hblock, hsize, hdecrypt⟩ := law.encrypt i _ hchunk
    rw [encryptLoop]
    simp only [hquery, hblock, List.length_drop]
    by_cases hmore : k < remaining.length
    · obtain ⟨blocks, chunks, hloop, hcount, hsizes, hdecrypts, hflat⟩ :=
        ih _ (by omega) (i + 1) (remaining.drop k) (out ++ block) List.length_drop
      refine ⟨block :: blocks, remaining.take k :: chunks, ?_, ?_, ?_, ?_, ?_⟩
      · rw [dif_pos (by omega), hloop, List.flatten_cons, List.append_assoc]
      · rw [List.length_cons, hcount, ← hn, blockCount_more hpos hmore]
      · exact List.forall_mem_cons.2 ⟨hsize, hsizes⟩
      · rw [List.map_cons, List.map_cons, hdecrypt, hdecrypts]
      · rw [List.flatten_cons, hflat, List.take_append_drop]
    · refine ⟨[block], [remaining.take k], ?_, ?_, ?_, ?_, ?_⟩
      · rw [dif_neg (by omega), List.flatten_cons, List.flatten_nil, List.append_nil]
      · exact (blockCount_last hpos (by omega)).symm
      · exact List.forall_mem_singleton.2 hsize
      · rw [List.map_cons, hdecrypt]
        rfl
      · rw [List.flatten_cons, List.flatten_nil, List.append_nil,
          List.take_of_length_le (not_lt.1 hmore)]

/-- **The printed text decodes to blocks that decrypt to the text**, and base64 loses nothing. -/
theorem blocks_decrypt (law : Pkcs1 pub decrypt) (plaintext : Bytes) :
    (∃ text, ∃ blocks chunks : List Bytes, rsaEncryptB64 (some pub) plaintext = .ok text ∧
      decode text = some blocks.flatten ∧
      blocks.length = blockCount (pub.size - 11).toNat plaintext.length ∧
      (∀ b ∈ blocks, b.length = pub.size) ∧ blocks.map decrypt = chunks.map some ∧
      chunks.flatten = plaintext) ∧
    (∀ data, decode (base64Encode data) = some data) ∧ Function.Injective base64Encode := by
  have hsize := law.size
  obtain ⟨blocks, chunks, hloop, hrest⟩ :=
    encryptLoop_eq law (k := (pub.size - 11).toNat) (by omega) (by omega) 0 plaintext []
  refine ⟨⟨_, blocks, chunks, ?_, decode_base64Encode _, hrest⟩, decode_base64Encode,
    base64Encode_injective⟩
  rw [rsaEncryptB64]
  simp only [law.newCtx, law.init, hloop, not_le.2 hsize]
  rfl

/-- A key of 13 bytes whose encryption only pads. -/
def paddingKey : Evp where
  size := 13
  newCtx := true
  init := none
  query := fun _ _ => .ok 13
  encrypt := fun _ chunk =>
    .ok (UInt8.ofNat chunk.length :: (chunk ++ List.replicate (12 - chunk.length) 0))

theorem paddingKey_pkcs1 :
    Pkcs1 paddingKey fun block => some ((block.drop 1).take (block.headD 0).toNat) where
  size := by decide
  newCtx := rfl
  init := rfl
  query := fun _ _ _ => ⟨13, rfl⟩
  encrypt := fun _ chunk h => by
    have hlen : chunk.length ≤ 2 := by
      have : (chunk.length : ℤ) + 11 ≤ 13 := h
      omega
    refine ⟨_, rfl, ?_, ?_⟩
    · show ((UInt8.ofNat chunk.length :: (chunk ++ List.replicate (12 - chunk.length) 0)).length :
        ℤ) = 13
      rw [List.length_cons, List.length_append, List.length_replicate]
      omega
    · have hhead : (UInt8.ofNat chunk.length).toNat = chunk.length := by
        rw [UInt8.toNat_ofNat']
        omega
      rw [List.headD_cons, hhead, List.drop_one, List.tail_cons, List.take_left]

/-- Five bytes in three blocks. -/
theorem blocks_decrypt_five : ∃ text, ∃ blocks : List Bytes,
    rsaEncryptB64 (some paddingKey) (ascii "hello") = .ok text ∧
      decode text = some blocks.flatten ∧ blocks.length = 3 := by
  obtain ⟨⟨text, blocks, -, htext, hdecode, hcount, -⟩, -⟩ :=
    blocks_decrypt paddingKey_pkcs1 (ascii "hello")
  exact ⟨text, blocks, htext, hdecode, hcount⟩

end BambooNet.Signing
