import BambooNet.Lib.BigEndian
import Mathlib.Data.List.Nodup
import Mathlib.Data.List.Range

/-!
# DTLS record protection

A record is protected by AES-256-CBC with a MAC over the ciphertext (suite 0xC038) or by
ChaCha20-Poly1305 (suite 0xCCAC). Sender and receiver each build nonce, additional data and lengths
for themselves, the sender from its counters, the receiver from the record header. The primitives
are a parameter; `Primitives.Correct` says that decryption inverts encryption.

**Theorem (`record_roundtrip`).** The peer decrypts each record to exactly the plaintext, and the
records of one epoch, and with them their nonces, are pairwise distinct as long as there are fewer
than `2 ^ 48`.
-/

namespace BambooNet.Tutk.Dtls

/-! ## Primitives and sessions -/

/-- The cryptographic library; `none` stands for a call that reports an error. -/
structure Primitives where
  /-- Key, IV and data of whole blocks. -/
  cbcEncrypt : Bytes → Bytes → Bytes → Option Bytes
  cbcDecrypt : Bytes → Bytes → Bytes → Option Bytes
  hmacSha384 : Bytes → Bytes → Vector UInt8 48
  /-- Key, nonce, additional data and plaintext give ciphertext and tag. -/
  aeadEncrypt : Bytes → Bytes → Bytes → Bytes → Option (Bytes × Vector UInt8 16)
  aeadDecrypt : Bytes → Bytes → Bytes → Bytes → Bytes → Option Bytes

/-- Decryption inverts encryption under the same key, nonce and additional data, and a ciphertext
is as long as its plaintext. -/
structure Primitives.Correct (P : Primitives) : Prop where
  cbc : ∀ key iv data, data.length % 16 = 0 →
    ∃ c, P.cbcEncrypt key iv data = some c ∧ c.length = data.length ∧
      P.cbcDecrypt key iv c = some data
  aead : ∀ key nonce ad data, ∃ c tag, P.aeadEncrypt key nonce ad data = some (c, tag) ∧
    c.length = data.length ∧ P.aeadDecrypt key nonce ad c tag.toList = some data

structure DtlsSession where
  clientWriteKey : Bytes
  serverWriteKey : Bytes
  clientWriteIv : Vector UInt8 16
  serverWriteIv : Vector UInt8 16
  clientWriteMacKey : Bytes
  serverWriteMacKey : Bytes
  cipherSuite : UInt16
  epoch : UInt32
  txSeq : ℕ

/-- The peer reads with the keys that `ds` writes with. -/
structure Mirrored (ds peer : DtlsSession) : Prop where
  suite : peer.cipherSuite = ds.cipherSuite
  key : peer.serverWriteKey = ds.clientWriteKey
  iv : peer.serverWriteIv = ds.clientWriteIv
  macKey : peer.serverWriteMacKey = ds.clientWriteMacKey

/-! ## Headers, nonces and additional data -/

/-- The first 12 bytes of the IV, with epoch and sequence number added to the last eight. -/
def buildRelayNonce (iv : Vector UInt8 16) (epoch seq : ℕ) : Bytes :=
  List.zipWith (· ^^^ ·) (iv.toList.take 12) ([0, 0, 0, 0] ++ beBytes 2 epoch ++ beBytes 6 seq)

def buildDtlsRecordHdr (contentType : UInt8) (epoch seq length : ℕ) : Bytes :=
  [contentType, 0xfe, 0xfd] ++ beBytes 2 epoch ++ beBytes 6 seq ++ beBytes 2 length

def buildAdditionalData (contentType : UInt8) (epoch seq length : ℕ) : Bytes :=
  beBytes 2 epoch ++ beBytes 6 seq ++ [contentType, 0xfe, 0xfd] ++ beBytes 2 length

/-- `read_be16(rec_hdr + 3)` -/
def recEpoch (rec : Bytes) : ℕ := beNat ((rec.drop 3).take 2)

/-- `read_be48(rec_hdr + 5)` -/
def recSeq (rec : Bytes) : ℕ := beNat ((rec.drop 5).take 6)

/-- `read_be16(rec_hdr + 11)` -/
def recLength (rec : Bytes) : ℕ := beNat ((rec.drop 11).take 2)

section
variable (contentType : UInt8) (epoch seq length : ℕ) (payload : Bytes)

@[simp] theorem length_hdr : (buildDtlsRecordHdr contentType epoch seq length).length = 13 := by
  simp [buildDtlsRecordHdr]

@[simp] theorem recEpoch_hdr :
    recEpoch (buildDtlsRecordHdr contentType epoch seq length ++ payload) = epoch % 65536 := by
  simp [recEpoch, buildDtlsRecordHdr]

@[simp] theorem recSeq_hdr :
    recSeq (buildDtlsRecordHdr contentType epoch seq length ++ payload) = seq % 2 ^ 48 := by
  simp [recSeq, buildDtlsRecordHdr]

@[simp] theorem recLength_hdr :
    recLength (buildDtlsRecordHdr contentType epoch seq length ++ payload) = length % 65536 := by
  have hepoch : (beBytes 2 epoch).drop 8 = [] := List.drop_eq_nil_of_le (by simp)
  simp [recLength, buildDtlsRecordHdr, List.drop_append, hepoch]

@[simp] theorem getD_hdr :
    (buildDtlsRecordHdr contentType epoch seq length ++ payload).getD 0 0 = contentType := rfl

@[simp] theorem drop_hdr :
    (buildDtlsRecordHdr contentType epoch seq length ++ payload).drop 13 = payload :=
  List.drop_left' (length_hdr _ _ _ _)

theorem beBytes_epoch : beBytes 2 (epoch % 65536) = beBytes 2 epoch := beBytes_mod 2 epoch

theorem beBytes_seq : beBytes 6 (seq % 2 ^ 48) = beBytes 6 seq := beBytes_mod 6 seq

/-- The epoch and sequence number read from the header give the sender's additional data. -/
@[simp] theorem buildAdditionalData_mod :
    buildAdditionalData contentType (epoch % 65536) (seq % 2 ^ 48) length =
      buildAdditionalData contentType epoch seq length := by
  rw [buildAdditionalData, buildAdditionalData, beBytes_epoch, beBytes_seq]

/-- The epoch and sequence number read from the header give the sender's nonce. -/
@[simp] theorem buildRelayNonce_mod (iv : Vector UInt8 16) :
    buildRelayNonce iv (epoch % 65536) (seq % 2 ^ 48) = buildRelayNonce iv epoch seq := by
  rw [buildRelayNonce, buildRelayNonce, beBytes_epoch, beBytes_seq]

end

/-! ## Encrypting and decrypting -/

/-- TLS limit on a record's plaintext. -/
def kMaxRecordPlaintext : ℕ := 16384

variable (P : Primitives)

def etmMac (macKey ad fragment : Bytes) : Vector UInt8 48 := P.hmacSha384 macKey (ad ++ fragment)

/-- IV, ciphertext and MAC behind the header. `rand` is what `RAND_bytes` gives. -/
def encryptRecordCbcEtm (rand : Option (Vector UInt8 16)) (key macKey : Bytes)
    (contentType : UInt8) (epoch seq : ℕ) (plain : Bytes) : Option Bytes :=
  let padLen := 16 - plain.length % 16
  match rand with
  | none => none
  | some iv =>
    let padded := plain ++ List.replicate padLen (UInt8.ofNat (padLen - 1))
    match P.cbcEncrypt key iv.toList padded with
    | none => none
    | some cipher =>
      if cipher.length ≠ padded.length then none
      else
        let fragment := iv.toList ++ cipher
        let ad := buildAdditionalData contentType epoch seq fragment.length
        let mac := etmMac P macKey ad fragment
        some (buildDtlsRecordHdr contentType epoch seq (fragment.length + 48) ++ fragment ++
          mac.toList)

def decryptRecordCbcEtm (key macKey rec : Bytes) (plainMax : ℕ) : Option Bytes :=
  let payload := rec.drop 13
  let wireLen := recLength rec
  if payload.length < wireLen ∨ wireLen < 16 + 16 + 48 then none
  else
    let fragLen := wireLen - 48
    let cipherLen := fragLen - 16
    if cipherLen % 16 ≠ 0 then none
    else
      let ad := buildAdditionalData (rec.getD 0 0) (recEpoch rec) (recSeq rec) fragLen
      let mac := etmMac P macKey ad (payload.take fragLen)
      if mac.toList ≠ (payload.drop fragLen).take 48 then none
      else
        match P.cbcDecrypt key (payload.take 16) ((payload.drop 16).take cipherLen) with
        | none => none
        | some decrypted =>
          if decrypted.length ≠ cipherLen ∨ cipherLen = 0 then none
          else
            let padVal := decrypted.getD (cipherLen - 1) 0
            let padCount := padVal.toNat + 1
            if padCount > cipherLen then none
            else if (List.range padCount).any fun i => decrypted.getD (cipherLen - 1 - i) 0 ≠ padVal
            then none
            else if cipherLen - padCount > plainMax then none
            else some (decrypted.take (cipherLen - padCount))

/-- Ciphertext and tag behind the header. -/
def aeadSeal (ds : DtlsSession) (contentType : UInt8) (plain : Bytes) : Option Bytes :=
  let epoch := ds.epoch.toNat % 65536
  let nonce := buildRelayNonce ds.clientWriteIv epoch ds.txSeq
  let ad := buildAdditionalData contentType epoch ds.txSeq plain.length
  match P.aeadEncrypt ds.clientWriteKey nonce ad plain with
  | none => none
  | some (cipher, tag) =>
    let sealed := cipher ++ tag.toList
    some (buildDtlsRecordHdr contentType epoch ds.txSeq sealed.length ++ sealed)

def aeadOpen (ds : DtlsSession) (rec : Bytes) (plainMax : ℕ) : Option Bytes :=
  let payload := rec.drop 13
  let sealedLen := recLength rec
  if payload.length < sealedLen ∨ sealedLen < 16 then none
  else
    let plainLen := sealedLen - 16
    if plainLen > plainMax then none
    else
      let nonce := buildRelayNonce ds.serverWriteIv (recEpoch rec) (recSeq rec)
      let ad := buildAdditionalData (rec.getD 0 0) (recEpoch rec) (recSeq rec) plainLen
      P.aeadDecrypt ds.serverWriteKey nonce ad (payload.take plainLen)
        ((payload.drop plainLen).take 16)

/-- The record, and the session with its counter moved on when there is one. -/
def dtlsEncryptRecord (ds : DtlsSession) (rand : Option (Vector UInt8 16)) (contentType : UInt8)
    (plain : Bytes) : Option Bytes × DtlsSession :=
  if plain.length > kMaxRecordPlaintext then (none, ds)
  else
    let rec? :=
      if ds.cipherSuite = 0xC038 then
        encryptRecordCbcEtm P rand ds.clientWriteKey ds.clientWriteMacKey contentType
          (ds.epoch.toNat % 65536) ds.txSeq plain
      else aeadSeal P ds contentType plain
    match rec? with
    | none => (none, ds)
    | some rec => (some rec, { ds with txSeq := (ds.txSeq + 1) % 2 ^ 64 })

def dtlsDecryptRecord (ds : DtlsSession) (rec : Bytes) (plainMax : ℕ) : Option Bytes :=
  if rec.length < 13 then none
  else if ds.cipherSuite = 0xC038 then
    decryptRecordCbcEtm P ds.serverWriteKey ds.serverWriteMacKey rec plainMax
  else aeadOpen P ds rec plainMax

/-! ## The round trip -/

variable {P}

/-- The padding is found again: its value stands in the last byte, once more than it says. -/
theorem getD_padded (plain : Bytes) (v : UInt8) {n i : ℕ} (hi : i < n) :
    (plain ++ List.replicate n v).getD (plain.length + n - 1 - i) 0 = v := by
  rw [List.getD_eq_getElem?_getD, List.getElem?_append_right (by omega),
    List.getElem?_replicate_of_lt (by omega)]
  rfl

/-- The check of the padding finds no other value. -/
theorem any_padded (plain : Bytes) (v : UInt8) (n : ℕ) :
    ((List.range n).any fun i =>
      (plain ++ List.replicate n v).getD (plain.length + n - 1 - i) 0 ≠ v) = false := by
  rw [List.any_eq_false]
  intro i hi
  rw [getD_padded plain v (List.mem_range.mp hi)]
  simp

theorem toNat_padding {n : ℕ} (h0 : 0 < n) (h16 : n ≤ 16) :
    (UInt8.ofNat (n - 1)).toNat + 1 = n := by
  rw [UInt8.toNat_ofNat', Nat.mod_eq_of_lt (by omega)]
  omega

theorem cbc_roundtrip (hP : P.Correct) {iv : Vector UInt8 16} {key macKey plain : Bytes}
    {contentType : UInt8} {epoch seq : ℕ} (hplain : plain.length ≤ kMaxRecordPlaintext) :
    ∃ rec, encryptRecordCbcEtm P (some iv) key macKey contentType epoch seq plain = some rec ∧
      ∀ plainMax, decryptRecordCbcEtm P key macKey rec plainMax =
        if plain.length ≤ plainMax then some plain else none := by
  unfold kMaxRecordPlaintext at hplain
  obtain ⟨n, hn⟩ : ∃ n, n = 16 - plain.length % 16 := ⟨_, rfl⟩
  have h0 : 0 < n := by omega
  have h16 : n ≤ 16 := by omega
  obtain ⟨padded, hpadded⟩ : ∃ p, p = plain ++ List.replicate n (UInt8.ofNat (n - 1)) := ⟨_, rfl⟩
  have hpad : padded.length = plain.length + n := by
    rw [hpadded, List.length_append, List.length_replicate]
  have hblocks : padded.length % 16 = 0 := by omega
  obtain ⟨cipher, henc, hlen, hdec⟩ := hP.cbc key iv.toList padded hblocks
  have hfrag : (iv.toList ++ cipher).length = 16 + padded.length := by
    rw [List.length_append, Vector.length_toList, hlen]
  obtain ⟨mac, hmac⟩ : ∃ m, m = etmMac P macKey
      (buildAdditionalData contentType epoch seq (16 + padded.length)) (iv.toList ++ cipher) :=
    ⟨_, rfl⟩
  refine ⟨buildDtlsRecordHdr contentType epoch seq (16 + padded.length + 48) ++
    (iv.toList ++ cipher ++ mac.toList), ?_, fun plainMax => ?_⟩
  · simp only [encryptRecordCbcEtm, ← hn, ← hpadded, henc, hlen, hfrag, ← hmac, ne_eq,
      not_true_eq_false, if_false, List.append_assoc]
  · have hwire : (16 + padded.length + 48) % 65536 = 16 + padded.length + 48 :=
      Nat.mod_eq_of_lt (by omega)
    have hshort : ¬ ((iv.toList ++ cipher ++ mac.toList).length < 16 + padded.length + 48 ∨
        16 + padded.length + 48 < 16 + 16 + 48) := by
      rw [List.length_append, hfrag, Vector.length_toList]
      omega
    have htag : mac.toList.take 48 = mac.toList := List.take_of_length_le (by simp)
    have hiv : (iv.toList ++ cipher ++ mac.toList).take 16 = iv.toList := by
      rw [List.append_assoc, List.take_left' (by simp)]
    have hbody : ((iv.toList ++ cipher ++ mac.toList).drop 16).take padded.length = cipher := by
      rw [List.append_assoc, List.drop_left' (by simp), List.take_left' hlen]
    have hval : padded.getD (padded.length - 1) 0 = UInt8.ofNat (n - 1) := by
      rw [hpad, hpadded]
      exact getD_padded plain _ h0
    have hall : ((List.range n).any fun i =>
        padded.getD (padded.length - 1 - i) 0 ≠ UInt8.ofNat (n - 1)) = false := by
      rw [hpad, hpadded]
      exact any_padded plain _ n
    have hplen : padded.length - n = plain.length := by omega
    have htake : padded.take plain.length = plain := by rw [hpadded, List.take_left]
    simp only [decryptRecordCbcEtm, drop_hdr, recLength_hdr, recEpoch_hdr, recSeq_hdr, getD_hdr,
      hwire, if_neg hshort, Nat.add_sub_cancel, Nat.add_sub_cancel_left, hblocks, ne_eq,
      not_true_eq_false, if_false, false_or, buildAdditionalData_mod, List.take_left' hfrag,
      List.drop_left' hfrag, htag, ← hmac, hiv, hbody, hdec, hval, toNat_padding h0 h16]
    rw [if_neg (by omega), if_neg (by omega), if_neg (by rw [hall]; decide), hplen, htake]
    split <;> split <;> first | rfl | omega

theorem aead_roundtrip (hP : P.Correct) {ds peer : DtlsSession} (hpeer : Mirrored ds peer)
    {contentType : UInt8} {plain : Bytes} (hplain : plain.length ≤ kMaxRecordPlaintext) :
    ∃ rec, aeadSeal P ds contentType plain = some rec ∧
      ∀ plainMax, aeadOpen P peer rec plainMax =
        if plain.length ≤ plainMax then some plain else none := by
  unfold kMaxRecordPlaintext at hplain
  obtain ⟨cipher, tag, henc, hlen, hdec⟩ := hP.aead ds.clientWriteKey
    (buildRelayNonce ds.clientWriteIv (ds.epoch.toNat % 65536) ds.txSeq)
    (buildAdditionalData contentType (ds.epoch.toNat % 65536) ds.txSeq plain.length) plain
  refine ⟨buildDtlsRecordHdr contentType (ds.epoch.toNat % 65536) ds.txSeq
    (cipher ++ tag.toList).length ++ (cipher ++ tag.toList), ?_, fun plainMax => ?_⟩
  · simp only [aeadSeal, henc]
  · have hsealed : (cipher ++ tag.toList).length = plain.length + 16 := by
      rw [List.length_append, hlen, Vector.length_toList]
    have hwire : (plain.length + 16) % 65536 = plain.length + 16 := Nat.mod_eq_of_lt (by omega)
    have htag : tag.toList.take 16 = tag.toList := List.take_of_length_le (by simp)
    simp only [aeadOpen, drop_hdr, recLength_hdr, recEpoch_hdr, recSeq_hdr, getD_hdr, hsealed,
      hwire, buildAdditionalData_mod, buildRelayNonce_mod, hpeer.iv, hpeer.key, Nat.add_sub_cancel]
    rw [if_neg (by omega), List.take_left' hlen, List.drop_left' hlen, htag, hdec]
    split <;> split <;> first | rfl | omega

/-! ## What is sent -/

/-- `rec` is some bytes behind a header with this epoch and sequence number. -/
def Numbered (epoch seq : ℕ) (rec : Bytes) : Prop :=
  ∃ contentType length payload, rec = buildDtlsRecordHdr contentType epoch seq length ++ payload

theorem numbered_encryptRecordCbcEtm {rand : Option (Vector UInt8 16)} {key macKey plain : Bytes}
    {contentType : UInt8} {epoch seq : ℕ} {rec : Bytes}
    (h : encryptRecordCbcEtm P rand key macKey contentType epoch seq plain = some rec) :
    Numbered epoch seq rec := by
  unfold encryptRecordCbcEtm at h
  dsimp only at h
  split at h
  case h_1 => cases h
  case h_2 iv =>
    split at h
    case h_1 => cases h
    case h_2 cipher _ =>
      split at h
      case isTrue => cases h
      case isFalse => exact ⟨_, _, _, by rw [← Option.some.inj h, List.append_assoc]⟩

theorem numbered_aeadSeal {ds : DtlsSession} {contentType : UInt8} {plain rec : Bytes}
    (h : aeadSeal P ds contentType plain = some rec) :
    Numbered (ds.epoch.toNat % 65536) ds.txSeq rec := by
  unfold aeadSeal at h
  dsimp only at h
  split at h
  case h_1 => cases h
  case h_2 cipher tag _ => exact ⟨_, _, _, (Option.some.inj h).symm⟩

/-- A call sends nothing and leaves the session alone, or sends a record with the session's epoch
and sequence number and moves the counter on. -/
theorem dtlsEncryptRecord_cases {ds ds' : DtlsSession} {rand : Option (Vector UInt8 16)}
    {contentType : UInt8} {plain : Bytes} {sent : Option Bytes}
    (h : dtlsEncryptRecord P ds rand contentType plain = (sent, ds')) :
    (sent = none ∧ ds' = ds) ∨
    ∃ rec, sent = some rec ∧ Numbered (ds.epoch.toNat % 65536) ds.txSeq rec ∧
      ds' = { ds with txSeq := (ds.txSeq + 1) % 2 ^ 64 } := by
  unfold dtlsEncryptRecord at h
  dsimp only at h
  split at h
  case isTrue =>
    obtain ⟨rfl, rfl⟩ := Prod.mk.inj h
    exact .inl ⟨rfl, rfl⟩
  case isFalse =>
    split at h
    case h_1 =>
      obtain ⟨rfl, rfl⟩ := Prod.mk.inj h
      exact .inl ⟨rfl, rfl⟩
    case h_2 rec hrec =>
      obtain ⟨rfl, rfl⟩ := Prod.mk.inj h
      refine .inr ⟨rec, rfl, ?_, rfl⟩
      split at hrec
      case isTrue => exact numbered_encryptRecordCbcEtm hrec
      case isFalse => exact numbered_aeadSeal hrec

theorem dtlsRecord_roundtrip (hP : P.Correct) {ds peer : DtlsSession} (hpeer : Mirrored ds peer)
    (iv : Vector UInt8 16) (contentType : UInt8) {plain : Bytes}
    (hplain : plain.length ≤ kMaxRecordPlaintext) :
    ∃ rec, (dtlsEncryptRecord P ds (some iv) contentType plain).1 = some rec ∧
      ∀ plainMax, dtlsDecryptRecord P peer rec plainMax =
        if plain.length ≤ plainMax then some plain else none := by
  have hlong {epoch seq : ℕ} {rec : Bytes} (h : Numbered epoch seq rec) : ¬ rec.length < 13 := by
    obtain ⟨_, _, _, rfl⟩ := h
    simp
  by_cases hsuite : ds.cipherSuite = 0xC038
  · obtain ⟨rec, henc, hdec⟩ := @cbc_roundtrip P hP iv ds.clientWriteKey
      ds.clientWriteMacKey plain contentType (ds.epoch.toNat % 65536) ds.txSeq hplain
    refine ⟨rec, ?_, fun plainMax => ?_⟩
    · simp only [dtlsEncryptRecord, if_neg (Nat.not_lt.mpr hplain), if_pos hsuite, henc]
    · rw [dtlsDecryptRecord, if_neg (hlong (numbered_encryptRecordCbcEtm henc)), hpeer.suite,
        if_pos hsuite, hpeer.key, hpeer.macKey, hdec]
  · obtain ⟨rec, henc, hdec⟩ := @aead_roundtrip P hP ds peer hpeer contentType plain hplain
    refine ⟨rec, ?_, fun plainMax => ?_⟩
    · simp only [dtlsEncryptRecord, if_neg (Nat.not_lt.mpr hplain), if_neg hsuite, henc]
    · rw [dtlsDecryptRecord, if_neg (hlong (numbered_aeadSeal henc)), hpeer.suite, if_neg hsuite,
        hdec]

/-! ## The records of a session -/

variable (P)

/-- Records one after the other, each with what `RAND_bytes` gives, its content type and its
plaintext. A record that cannot be encrypted is not sent. -/
def sendRecords (ds : DtlsSession) : List (Option (Vector UInt8 16) × UInt8 × Bytes) → List Bytes
  | [] => []
  | (rand, contentType, plain) :: es =>
    match dtlsEncryptRecord P ds rand contentType plain with
    | (none, ds) => sendRecords ds es
    | (some rec, ds) => rec :: sendRecords ds es

/-- The records of epoch 1: the Finished message of `dtls_psk_handshake`, then application data
by `iotc_send_app_data`. -/
def sessionRecords (ds : DtlsSession) (rand : Option (Vector UInt8 16)) (fin : Bytes)
    (data : List (Option (Vector UInt8 16) × Bytes)) : List Bytes :=
  match dtlsEncryptRecord P { ds with epoch := 1, txSeq := 0 } rand 0x16 fin with
  | (none, _) => []
  | (some rec, ds) =>
    rec :: sendRecords P { ds with txSeq := 1 } (data.map fun e => (e.1, 0x17, e.2))

/-- Epoch and sequence number on the wire. -/
def recNumber (rec : Bytes) : ℕ × ℕ := (recEpoch rec, recSeq rec)

/-- The nonce that `aeadSeal` uses for a record. -/
def recNonce (iv : Vector UInt8 16) (rec : Bytes) : Bytes :=
  buildRelayNonce iv (recEpoch rec) (recSeq rec)

variable {P}

theorem Numbered.recNumber {epoch seq : ℕ} {rec : Bytes} (h : Numbered epoch seq rec) :
    recNumber rec = (epoch % 65536, seq % 2 ^ 48) := by
  obtain ⟨_, _, _, rfl⟩ := h
  rw [Dtls.recNumber, recEpoch_hdr, recSeq_hdr]

/-- The records sent from a session are numbered from its counter on. -/
theorem sendRecords_numbers (ds : DtlsSession)
    (es : List (Option (Vector UInt8 16) × UInt8 × Bytes)) :
    (sendRecords P ds es).map recNumber =
      (List.range (sendRecords P ds es).length).map fun i =>
        (ds.epoch.toNat % 65536, (ds.txSeq + i) % 2 ^ 48) := by
  induction es generalizing ds with
  | nil => rfl
  | cons e es ih =>
    obtain ⟨rand, contentType, plain⟩ := e
    rw [sendRecords]
    obtain ⟨sent, ds', henc⟩ : ∃ sent ds',
      dtlsEncryptRecord P ds rand contentType plain = (sent, ds') := ⟨_, _, rfl⟩
    rw [henc]
    rcases dtlsEncryptRecord_cases henc with ⟨rfl, rfl⟩ | ⟨rec, rfl, hrec, rfl⟩
    · exact ih ds'
    · simp only [List.map_cons, List.length_cons, List.range_succ_eq_map, List.map_map,
        hrec.recNumber, ih, Nat.mod_mod, Nat.add_zero]
      congr 1
      refine List.map_congr_left fun i _ => Prod.ext rfl ?_
      show ((ds.txSeq + 1) % 2 ^ 64 + i) % 2 ^ 48 = (ds.txSeq + (i + 1)) % 2 ^ 48
      omega

/-- The records of a session are numbered from 0 on: the Finished message leaves the counter
where `dtls_psk_handshake` puts it. -/
theorem sessionRecords_eq (ds : DtlsSession) (rand : Option (Vector UInt8 16)) (fin : Bytes)
    (data : List (Option (Vector UInt8 16) × Bytes)) :
    sessionRecords P ds rand fin data = [] ∨
    sessionRecords P ds rand fin data = sendRecords P { ds with epoch := 1, txSeq := 0 }
      ((rand, 0x16, fin) :: data.map fun e => (e.1, 0x17, e.2)) := by
  rw [sessionRecords, sendRecords]
  obtain ⟨sent, ds', henc⟩ : ∃ sent ds',
    dtlsEncryptRecord P { ds with epoch := 1, txSeq := 0 } rand 0x16 fin = (sent, ds') :=
      ⟨_, _, rfl⟩
  rw [henc]
  rcases dtlsEncryptRecord_cases henc with ⟨rfl, rfl⟩ | ⟨rec, rfl, _, rfl⟩
  · exact .inl rfl
  · exact .inr rfl

theorem zipWith_xor_cancel : ∀ {a b : Bytes}, a.length = b.length →
    List.zipWith (· ^^^ ·) a (List.zipWith (· ^^^ ·) a b) = b
  | [], [], _ => rfl
  | x :: a, y :: b, h => by
    rw [List.zipWith_cons_cons, List.zipWith_cons_cons, xor_cancel_left,
      zipWith_xor_cancel (Nat.succ.inj h)]

/-- Under one IV a nonce determines epoch and sequence number. -/
theorem buildRelayNonce_inj {iv : Vector UInt8 16} {e e' q q' : ℕ}
    (h : buildRelayNonce iv e q = buildRelayNonce iv e' q') :
    e % 65536 = e' % 65536 ∧ q % 2 ^ 48 = q' % 2 ^ 48 := by
  have hlen (e q : ℕ) :
      (iv.toList.take 12).length = ([0, 0, 0, 0] ++ beBytes 2 e ++ beBytes 6 q).length := by simp
  have hcat : beBytes 2 e ++ beBytes 6 q = beBytes 2 e' ++ beBytes 6 q' := by
    have := congrArg (List.zipWith (· ^^^ ·) (iv.toList.take 12)) h
    rw [buildRelayNonce, buildRelayNonce, zipWith_xor_cancel (hlen e q),
      zipWith_xor_cancel (hlen e' q'), List.append_assoc, List.append_assoc] at this
    exact List.append_cancel_left this
  obtain ⟨he, hq⟩ := List.append_inj hcat (by simp)
  exact ⟨beBytes_inj.mp he, beBytes_inj.mp hq⟩

theorem nodup_nonces (iv : Vector UInt8 16) (ds : DtlsSession)
    (es : List (Option (Vector UInt8 16) × UInt8 × Bytes))
    (hfew : (sendRecords P ds es).length < 2 ^ 48) :
    ((sendRecords P ds es).map (recNonce iv)).Nodup := by
  have hmap : (sendRecords P ds es).map (recNonce iv) =
      ((sendRecords P ds es).map recNumber).map fun n => buildRelayNonce iv n.1 n.2 := by
    rw [List.map_map]
    rfl
  rw [hmap, sendRecords_numbers, List.map_map]
  refine List.Nodup.map_on (fun i hi j hj h => ?_) List.nodup_range
  have hseq : (ds.txSeq + i) % 2 ^ 48 % 2 ^ 48 = (ds.txSeq + j) % 2 ^ 48 % 2 ^ 48 :=
    (buildRelayNonce_inj h).2
  rw [List.mem_range] at hi hj
  omega

theorem nodup_numbers (ds : DtlsSession) (es : List (Option (Vector UInt8 16) × UInt8 × Bytes))
    (hfew : (sendRecords P ds es).length < 2 ^ 48) :
    ((sendRecords P ds es).map recNumber).Nodup := by
  have hnonces := nodup_nonces (Vector.replicate 16 0) ds es hfew
  refine List.Nodup.of_map (fun n => buildRelayNonce (Vector.replicate 16 0) n.1 n.2) ?_
  rwa [List.map_map]

/-- **A protected record is read back as it was written, and no nonce is used twice.** For both
suites the peer decrypts a record of at most 16384 bytes to its plaintext, provided that its buffer
holds it. Fewer than `2 ^ 48` records sent from any session, in particular all records of the epoch
that a handshake starts, have distinct numbers on the wire and distinct nonces. -/
theorem record_roundtrip (hP : P.Correct) :
    (∀ ds peer : DtlsSession, Mirrored ds peer → ∀ iv contentType plain,
      plain.length ≤ kMaxRecordPlaintext →
      ∃ rec, (dtlsEncryptRecord P ds (some iv) contentType plain).1 = some rec ∧
        ∀ plainMax, dtlsDecryptRecord P peer rec plainMax =
          if plain.length ≤ plainMax then some plain else none) ∧
    (∀ ds es, (sendRecords P ds es).length < 2 ^ 48 →
      ((sendRecords P ds es).map recNumber).Nodup ∧
      ((sendRecords P ds es).map (recNonce ds.clientWriteIv)).Nodup) ∧
    ∀ ds rand fin data, (sessionRecords P ds rand fin data).length < 2 ^ 48 →
      ((sessionRecords P ds rand fin data).map recNumber).Nodup ∧
      ((sessionRecords P ds rand fin data).map (recNonce ds.clientWriteIv)).Nodup := by
  refine ⟨fun ds peer hpeer iv contentType plain hplain =>
    dtlsRecord_roundtrip hP hpeer iv contentType hplain,
    fun ds es hfew => ⟨nodup_numbers ds es hfew, nodup_nonces _ ds es hfew⟩, ?_⟩
  intro ds rand fin data hfew
  rcases @sessionRecords_eq P ds rand fin data with hnil | hsent
  · rw [hnil]
    exact ⟨List.nodup_nil, List.nodup_nil⟩
  · rw [hsent] at hfew ⊢
    exact ⟨nodup_numbers _ _ hfew, nodup_nonces _ _ _ hfew⟩

/-- Primitives with a key stream in place of the ciphers. -/
def xorPrimitives : Primitives where
  cbcEncrypt key _ data := some (data.map (· ^^^ key.getD 0 0))
  cbcDecrypt key _ data := some (data.map (· ^^^ key.getD 0 0))
  hmacSha384 key data := Vector.replicate 48 (UInt8.ofNat (beNat (key ++ data)))
  aeadEncrypt key nonce ad data := some (data.map (· ^^^ key.getD 0 0),
    Vector.replicate 16 (UInt8.ofNat (beNat (nonce ++ ad ++ data))))
  aeadDecrypt key nonce ad data tag :=
    let plain := data.map (· ^^^ key.getD 0 0)
    if tag = List.replicate 16 (UInt8.ofNat (beNat (nonce ++ ad ++ plain))) then some plain
    else none

theorem xorPrimitives_correct : xorPrimitives.Correct where
  cbc key iv data _ := ⟨_, rfl, List.length_map _, by
    simp [xorPrimitives, Function.comp_def]⟩
  aead key nonce ad data := ⟨_, _, rfl, List.length_map _, by
    simp [xorPrimitives, Function.comp_def, Vector.toList_replicate]⟩

def demoSession (suite : UInt16) : DtlsSession where
  clientWriteKey := [1, 2]
  serverWriteKey := [1, 2]
  clientWriteIv := Vector.replicate 16 9
  serverWriteIv := Vector.replicate 16 9
  clientWriteMacKey := [5]
  serverWriteMacKey := [5]
  cipherSuite := suite
  epoch := 1
  txSeq := 0

theorem mirrored_demoSession (suite : UInt16) :
    Mirrored (demoSession suite) (demoSession suite) := ⟨rfl, rfl, rfl, rfl⟩

/-- Both suites, an empty plaintext and a full block, and a session of three records. -/
theorem record_roundtrip_demo :
    (∃ rec, (dtlsEncryptRecord xorPrimitives (demoSession 0xC038) (some (Vector.replicate 16 3))
        0x17 []).1 = some rec ∧
      ∀ plainMax, dtlsDecryptRecord xorPrimitives (demoSession 0xC038) rec plainMax =
        if 0 ≤ plainMax then some [] else none) ∧
    (∃ rec, (dtlsEncryptRecord xorPrimitives (demoSession 0xCCAC) (some (Vector.replicate 16 3))
        0x17 (List.replicate 16 8)).1 = some rec ∧
      ∀ plainMax, dtlsDecryptRecord xorPrimitives (demoSession 0xCCAC) rec plainMax =
        if 16 ≤ plainMax then some (List.replicate 16 8) else none) ∧
    ((sessionRecords xorPrimitives (demoSession 0xCCAC) none [1] [(none, [2]), (none, [3])]).map
      recNumber).Nodup := by
  refine ⟨?_, ?_, ?_⟩
  · exact (record_roundtrip xorPrimitives_correct).1 _ _ (mirrored_demoSession _) _ _ [] (by decide)
  · exact (record_roundtrip xorPrimitives_correct).1 _ _ (mirrored_demoSession _) _ _
      (List.replicate 16 8) (by decide)
  · refine ((record_roundtrip xorPrimitives_correct).2.2 _ _ _ _ ?_).1
    have hthree : (sessionRecords xorPrimitives (demoSession 0xCCAC) none [1]
      [(none, [2]), (none, [3])]).length = 3 := rfl
    rw [hthree]
    decide

end BambooNet.Tutk.Dtls
