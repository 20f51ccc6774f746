import BambooNet.Lib.Words
import Mathlib.Data.Fin.VecNotation
import Mathlib.Data.Fintype.Basic
import Mathlib.Tactic.FinCases

/-!
# The scrambling of IOTC packets

Every IOTC packet is scrambled with a fixed key: whole blocks of 16 bytes by rotations, the key
and a byte permutation, a tail of 8 bytes by a permutation and the key, any other tail by the key
alone. A control packet is scrambled over its whole length, a data packet over its first 64 bytes.
The receiver learns the kind from byte 3, so it descrambles one block first and the rest in a
second call.

**Theorem (`descrambleRx_scramble`).** Both directions of the scrambling are inverse at every
length, and `descrambleRx` restores packets of both kinds.
-/

namespace BambooNet.Tutk

open Word

/-! ## The block map -/

def kTransKey : Bytes := ascii "Charlie is the d"

def ror32 (v n : UInt32) : UInt32 :=
  let n := n &&& 31
  v >>> n ||| v <<< (32 - n)

def rol32 (v n : UInt32) : UInt32 :=
  let n := n &&& 31
  v <<< n ||| v >>> (32 - n)

/-- `memcpy` of 16 bytes into `uint32_t[4]` on a little-endian host. -/
def loadWords (p : Bytes) : Fin 4 → UInt32 := fun i =>
  joinLe (p.getD (4 * i) 0) (p.getD (4 * i + 1) 0) (p.getD (4 * i + 2) 0) (p.getD (4 * i + 3) 0)

/-- `memcpy` of `uint32_t[4]` into 16 bytes. -/
def storeWords (w : Fin 4 → UInt32) : Bytes :=
  [w 0, w 1, w 2, w 3].flatMap fun x => [byteAt x 0, byteAt x 1, byteAt x 2, byteAt x 3]

def rot : Fin 4 → UInt32 := ![1, 5, 9, 13]

def decodeBlock (data : Bytes) : Bytes :=
  let o := loadWords data
  let tmp0 := rol32 (o 0) 3
  let tmp1 := rol32 (o 1) 7
  let tmp2 := rol32 (o 2) 11
  let tmp3 := rol32 (o 3) 15
  let t : Bytes :=
    [byteAt tmp2 3, byteAt tmp2 1, byteAt tmp2 0, byteAt tmp3 3,
      byteAt tmp3 1, byteAt tmp2 2, byteAt tmp3 0, byteAt tmp3 2,
      byteAt tmp0 2, byteAt tmp0 1, byteAt tmp1 1, byteAt tmp0 0,
      byteAt tmp1 2, byteAt tmp1 0, byteAt tmp1 3, byteAt tmp0 3]
  let dw := loadWords t
  storeWords fun i => rol32 (dw i ^^^ loadWords kTransKey i) (rot i)

def encodeBlock (data : Bytes) : Bytes :=
  let raw := loadWords data
  let dw : Fin 4 → UInt32 := fun i => ror32 (raw i) (rot i) ^^^ loadWords kTransKey i
  let t := fun k => (storeWords dw).getD k 0
  let o0 := ror32 (joinLe (t 11) (t 9) (t 8) (t 15)) 3
  let o1 := ror32 (joinLe (t 13) (t 10) (t 12) (t 14)) 7
  let o2 := ror32 (joinLe (t 2) (t 1) (t 5) (t 0)) 11
  let o3 := ror32 (joinLe (t 6) (t 4) (t 7) (t 3)) 15
  storeWords ![o0, o1, o2, o3]

theorem and_mask {n : UInt32} (hn : n.toNat < 32) : n &&& 31 = n := by
  apply UInt32.toNat_inj.mp
  rw [UInt32.toNat_and]
  exact (Nat.and_two_pow_sub_one_eq_mod _ 5).trans (Nat.mod_eq_of_lt hn)

theorem rol32_ror32 (v : UInt32) {n : UInt32} (h : 0 < n.toNat ∧ n.toNat < 32) :
    rol32 (ror32 v n) n = v := by
  simp only [rol32, ror32, and_mask h.2]
  exact rol_ror v h.1 h.2

theorem ror32_rol32 (v : UInt32) {n : UInt32} (h : 0 < n.toNat ∧ n.toNat < 32) :
    ror32 (rol32 v n) n = v := by
  simp only [rol32, ror32, and_mask h.2]
  exact ror_rol v h.1 h.2

theorem rot_range (i : Fin 4) : 0 < (rot i).toNat ∧ (rot i).toNat < 32 := by
  fin_cases i <;> decide

@[simp] theorem loadWords_storeWords (w : Fin 4 → UInt32) : loadWords (storeWords w) = w := by
  funext i
  fin_cases i <;> simp [loadWords, storeWords]

theorem storeWords_loadWords {p : Bytes} (hp : p.length = 16) : storeWords (loadWords p) = p := by
  match p, hp with
  | [b0, b1, b2, b3, b4, b5, b6, b7, b8, b9, b10, b11, b12, b13, b14, b15], _ =>
    simp [loadWords, storeWords]

/-- The constant rotations of the block maps cancel. -/
theorem rol32_ror32_word (v : UInt32) :
    rol32 (ror32 v 3) 3 = v ∧ rol32 (ror32 v 7) 7 = v ∧ rol32 (ror32 v 11) 11 = v ∧
      rol32 (ror32 v 15) 15 = v := by
  refine ⟨?_, ?_, ?_, ?_⟩ <;> exact rol32_ror32 v (by decide)

theorem ror32_rol32_word (v : UInt32) :
    ror32 (rol32 v 3) 3 = v ∧ ror32 (rol32 v 7) 7 = v ∧ ror32 (rol32 v 11) 11 = v ∧
      ror32 (rol32 v 15) 15 = v := by
  refine ⟨?_, ?_, ?_, ?_⟩ <;> exact ror32_rol32 v (by decide)

theorem loadWords_bytes (q : Bytes) (i : Fin 4) :
    loadWords [q[0]?.getD 0, q[1]?.getD 0, q[2]?.getD 0, q[3]?.getD 0,
      q[4]?.getD 0, q[5]?.getD 0, q[6]?.getD 0, q[7]?.getD 0,
      q[8]?.getD 0, q[9]?.getD 0, q[10]?.getD 0, q[11]?.getD 0,
      q[12]?.getD 0, q[13]?.getD 0, q[14]?.getD 0, q[15]?.getD 0] i = loadWords q i := by
  fin_cases i <;> simp [loadWords]

theorem decodeBlock_encodeBlock {p : Bytes} (hp : p.length = 16) :
    decodeBlock (encodeBlock p) = p := by
  conv_rhs => rw [← storeWords_loadWords hp]
  simp only [decodeBlock, encodeBlock, loadWords_storeWords]
  congr 1
  funext i
  -- the bytes read back from the permuted words are those of the keyed words
  simp only [Matrix.cons_val, rol32_ror32_word, byteAt_joinLe_zero, byteAt_joinLe_one,
    byteAt_joinLe_two, byteAt_joinLe_three, List.getD_eq_getElem?_getD]
  rw [loadWords_bytes, loadWords_storeWords, xor_cancel_right, rol32_ror32 _ (rot_range i)]

theorem encodeBlock_decodeBlock {p : Bytes} (hp : p.length = 16) :
    encodeBlock (decodeBlock p) = p := by
  conv_rhs => rw [← storeWords_loadWords hp]
  simp only [decodeBlock, encodeBlock, loadWords_storeWords]
  congr 1
  simp only [ror32_rol32 _ (rot_range _), xor_cancel_right]
  funext i
  fin_cases i <;> simp [loadWords, storeWords, ror32_rol32_word]

/-! ## Whole packets -/

def kTailPerm8 : List ℕ := [7, 4, 3, 2, 1, 6, 5, 0]

/-- The loop over the first `n` whole blocks. -/
def codeBlocks (block : Bytes → Bytes) : ℕ → Bytes → Bytes
  | 0, _ => []
  | n + 1, data => block (data.take 16) ++ codeBlocks block n (data.drop 16)

/-- Both directions of the scrambling: whole blocks by `block`, a tail of 8 bytes by `tail8`, any
other tail by the key. -/
def codePartial (block tail8 : Bytes → Bytes) (data : Bytes) : Bytes :=
  let full := data.length / 16 * 16
  let rem := data.length - full
  codeBlocks block (data.length / 16) data ++
    if rem = 8 then tail8 (data.drop full)
    else (data.drop full).mapIdx fun k b => b ^^^ kTransKey.getD ((full + k) % 16) 0

def decodeTail8 (data : Bytes) : Bytes :=
  (List.range 8).foldl (fun tail k =>
    let j := kTailPerm8.getD k 0
    tail.set j (data.getD k 0 ^^^ kTransKey.getD j 0)) (List.replicate 8 0)

def encodeTail8 (data : Bytes) : Bytes :=
  (List.range 8).map fun k =>
    let j := kTailPerm8.getD k 0
    data.getD j 0 ^^^ kTransKey.getD j 0

def reverseTransCodePartial : Bytes → Bytes := codePartial decodeBlock decodeTail8

def transCodePartial : Bytes → Bytes := codePartial encodeBlock encodeTail8

section
variable {block tail8 : Bytes → Bytes}

theorem codePartial_of_lt {p : Bytes} (hp : p.length < 16) :
    codePartial block tail8 p =
      if p.length = 8 then tail8 p else p.mapIdx fun k b => b ^^^ kTransKey.getD (k % 16) 0 := by
  simp [codePartial, Nat.div_eq_of_lt hp, codeBlocks]

/-- The first block is coded by itself, and the key lines up with what is left. -/
theorem codePartial_append {b : Bytes} (hb : b.length = 16) (p : Bytes) :
    codePartial block tail8 (b ++ p) = block b ++ codePartial block tail8 p := by
  have hdiv : (b ++ p).length / 16 = p.length / 16 + 1 := by
    rw [List.length_append, hb, Nat.add_comm, Nat.add_div_right _ (by decide)]
  have hdrop : (b ++ p).drop ((p.length / 16 + 1) * 16) = p.drop (p.length / 16 * 16) := by
    rw [Nat.succ_mul, Nat.add_comm, ← List.drop_drop, List.drop_left' hb]
  have hrem : (b ++ p).length - (p.length / 16 + 1) * 16 = p.length - p.length / 16 * 16 := by
    rw [List.length_append, hb]
    omega
  have hkey (k : ℕ) :
      ((p.length / 16 + 1) * 16 + k) % 16 = (p.length / 16 * 16 + k) % 16 := by omega
  simp only [codePartial, hdiv, hdrop, hrem, hkey, codeBlocks, List.take_left' hb,
    List.drop_left' hb, List.append_assoc]

/-- Induction over a packet: a packet shorter than a block, or a block and a packet. -/
theorem packet_induction {motive : Bytes → Prop} (short : ∀ p, p.length < 16 → motive p)
    (block : ∀ b p, b.length = 16 → motive p → motive (b ++ p)) (p : Bytes) : motive p := by
  by_cases hp : p.length < 16
  · exact short p hp
  · rw [← List.take_append_drop 16 p]
    exact block _ _ (by rw [List.length_take]; omega) (packet_induction short block _)
termination_by p.length
decreasing_by rw [List.length_drop]; omega

theorem length_codePartial (hblock : ∀ b, (block b).length = 16)
    (htail : ∀ t, (tail8 t).length = 8) (p : Bytes) :
    (codePartial block tail8 p).length = p.length := by
  induction p using packet_induction with
  | short p hp =>
    rw [codePartial_of_lt hp]
    split
    case isTrue h8 => rw [htail, h8]
    case isFalse => rw [List.length_mapIdx]
  | block b p hb ih =>
    rw [codePartial_append hb, List.length_append, List.length_append, hblock, hb, ih]

/-- Two codings are inverse when their block maps and their tail maps are. -/
theorem codePartial_codePartial {block' tail8' : Bytes → Bytes}
    (hlen : ∀ b, (block b).length = 16) (htlen : ∀ t, (tail8 t).length = 8)
    (hblock : ∀ b : Bytes, b.length = 16 → block' (block b) = b)
    (htail : ∀ t : Bytes, t.length = 8 → tail8' (tail8 t) = t) (p : Bytes) :
    codePartial block' tail8' (codePartial block tail8 p) = p := by
  induction p using packet_induction with
  | short p hp =>
    have hp' := hp
    rw [← length_codePartial hlen htlen p] at hp'
    rw [codePartial_of_lt hp', length_codePartial hlen htlen, codePartial_of_lt hp]
    split
    case isTrue h8 => rw [htail p h8]
    case isFalse =>
      rw [List.mapIdx_mapIdx]
      exact List.ext_getElem (by simp) (by simp)
  | block b p hb ih => rw [codePartial_append hb, codePartial_append (hlen b), hblock b hb, ih]

end

theorem length_encodeTail8 (t : Bytes) : (encodeTail8 t).length = 8 := rfl

theorem length_decodeTail8 (t : Bytes) : (decodeTail8 t).length = 8 := rfl

theorem decodeTail8_encodeTail8 (t : Bytes) (ht : t.length = 8) :
    decodeTail8 (encodeTail8 t) = t := by
  match t, ht with
  | [t0, t1, t2, t3, t4, t5, t6, t7], _ =>
    simp [decodeTail8, encodeTail8, List.range_succ, kTailPerm8]

theorem encodeTail8_decodeTail8 (t : Bytes) (ht : t.length = 8) :
    encodeTail8 (decodeTail8 t) = t := by
  match t, ht with
  | [t0, t1, t2, t3, t4, t5, t6, t7], _ =>
    simp [decodeTail8, encodeTail8, List.range_succ, kTailPerm8]

theorem reverse_transCode (p : Bytes) : reverseTransCodePartial (transCodePartial p) = p :=
  codePartial_codePartial (fun _ => rfl) length_encodeTail8
    (fun _ => decodeBlock_encodeBlock) decodeTail8_encodeTail8 p

theorem transCode_reverse (p : Bytes) : transCodePartial (reverseTransCodePartial p) = p :=
  codePartial_codePartial (fun _ => rfl) length_decodeTail8
    (fun _ => encodeBlock_decodeBlock) encodeTail8_decodeTail8 p

/-! ## Sending and receiving -/

def kDataScrambleLen : ℕ := 64

def descrambleRx (data : Bytes) : Bytes :=
  if data.length < 16 then reverseTransCodePartial data
  else
    let data := reverseTransCodePartial (data.take 16) ++ data.drop 16
    let end_ := if data.getD 3 0 = 0x0b then min data.length kDataScrambleLen else data.length
    data.take 16 ++ reverseTransCodePartial ((data.drop 16).take (end_ - 16)) ++ data.drop end_

/-- `trans_code_partial(p, n)`: only the first `n` bytes are scrambled. -/
def transCodePrefix (p : Bytes) (n : ℕ) : Bytes := transCodePartial (p.take n) ++ p.drop n

/-- The packet `send_dtls_packet` builds: IOTC header, sub-header and DTLS record. -/
def dtlsPacket (isRelay : Bool) (epoch : UInt32) (sessionToken : Vector UInt8 8)
    (dtlsData : Bytes) (pktSeq : UInt16) (relayTag : UInt32) : Bytes :=
  let payloadLen := UInt16.ofNat (12 + dtlsData.length)
  [0x04, 0x02, 0x1c, 0x0b, payloadLen.toUInt8, (payloadLen >>> 8).toUInt8,
      pktSeq.toUInt8, (pktSeq >>> 8).toUInt8] ++
    (if isRelay then
      [0x04, 0x05, 0x24, 0x00, byteAt relayTag 0, byteAt relayTag 1, byteAt relayTag 2, 0x01,
        0x0c, 0x00, 0x00, 0x00]
    else
      [0x07, 0x04, 0x21, 0x00, sessionToken[0], sessionToken[1], 0x00, 0x01,
        0x0c, byteAt epoch 1, byteAt epoch 0, 0x00]) ++
    sessionToken.toList ++ dtlsData

/-- The datagram passed to `sendto`, with `isRelay` when the peer's port is 3478; `none` when the
record is too long. -/
def sendDtlsPacket (isRelay : Bool) (epoch : UInt32) (sessionToken : Vector UInt8 8)
    (dtlsData : Bytes) (pktSeq : UInt16) (relayTag : UInt32) : Option Bytes :=
  if dtlsData.length > 0xffff - 12 then none
  else
    let pkt := dtlsPacket isRelay epoch sessionToken dtlsData pktSeq relayTag
    some (transCodePrefix pkt (min pkt.length kDataScrambleLen))

/-- The two calls of the receiver undo a single call over the first `n` bytes. -/
theorem descrambleRx_prefix {p : Bytes} {n : ℕ} (h16 : 16 ≤ n) (hn : n ≤ p.length)
    (hend : (if p.getD 3 0 = 0x0b then min p.length kDataScrambleLen else p.length) = n) :
    descrambleRx (transCodePrefix p n) = p := by
  have hb : (p.take 16).length = 16 := by rw [List.length_take]; omega
  have hsplit : p.take n = p.take 16 ++ (p.take n).drop 16 := by
    conv_lhs => rw [← List.take_append_drop 16 (p.take n), List.take_take, Nat.min_eq_left h16]
  have hE : (encodeBlock (p.take 16)).length = 16 := rfl
  have hT : (transCodePartial ((p.take n).drop 16)).length = n - 16 := by
    rw [transCodePartial, length_codePartial (fun _ => rfl) length_encodeTail8, List.length_drop,
      List.length_take]
    omega
  have hone : reverseTransCodePartial (encodeBlock (p.take 16)) = p.take 16 := by
    have := reverse_transCode (p.take 16)
    rwa [transCodePartial, ← List.append_nil (p.take 16), codePartial_append hb,
      codePartial_of_lt (by simp), if_neg (by simp), List.mapIdx_nil, List.append_nil,
      List.append_nil] at this
  have hcoded : transCodePrefix p n =
      encodeBlock (p.take 16) ++ (transCodePartial ((p.take n).drop 16) ++ p.drop n) := by
    rw [transCodePrefix, hsplit, transCodePartial, codePartial_append hb, List.append_assoc,
      ← hsplit]
  have hthree (q : Bytes) : (p.take 16 ++ q).getD 3 0 = p.getD 3 0 := by
    rw [List.getD_eq_getElem?_getD, List.getElem?_append_left (by omega),
      List.getElem?_take_of_lt (by decide), List.getD_eq_getElem?_getD]
  have hlong : ¬ (transCodePrefix p n).length < 16 := by
    rw [hcoded, List.length_append, hE]
    omega
  have hlen : (p.take 16 ++ (transCodePartial ((p.take n).drop 16) ++ p.drop n)).length =
      p.length := by
    rw [List.length_append, List.length_append, hb, hT, List.length_drop]
    omega
  have hdrop : (p.take 16 ++ (transCodePartial ((p.take n).drop 16) ++ p.drop n)).drop n =
      p.drop n := by
    rw [← List.append_assoc, List.drop_left' (by rw [List.length_append, hb, hT]; omega)]
  rw [descrambleRx, if_neg hlong, hcoded, List.take_left' hE, List.drop_left' hE, hone]
  simp only [hthree, hlen, hend, hdrop, List.take_left' hb, List.drop_left' hb,
    List.take_left' hT, reverse_transCode]
  rw [← hsplit, List.take_append_drop]

/-- **The scrambling of IOTC packets is undone by the receiver.** Both directions are inverse at
every length; a control packet is restored from a scrambling of its whole length, a data packet,
and every packet that `sendDtlsPacket` sends, from a scrambling of its first 64 bytes. -/
theorem descrambleRx_scramble :
    (∀ p, reverseTransCodePartial (transCodePartial p) = p ∧
      transCodePartial (reverseTransCodePartial p) = p) ∧
    (∀ p : Bytes, 16 ≤ p.length → p.getD 3 0 ≠ 0x0b → descrambleRx (transCodePartial p) = p) ∧
    (∀ p : Bytes, 16 ≤ p.length → p.getD 3 0 = 0x0b →
      descrambleRx (transCodePrefix p (min p.length kDataScrambleLen)) = p) ∧
    ∀ isRelay epoch sessionToken dtlsData pktSeq relayTag sent,
      sendDtlsPacket isRelay epoch sessionToken dtlsData pktSeq relayTag = some sent →
        descrambleRx sent = dtlsPacket isRelay epoch sessionToken dtlsData pktSeq relayTag := by
  have hdata (p : Bytes) (hp : 16 ≤ p.length) (h3 : p.getD 3 0 = 0x0b) :
      descrambleRx (transCodePrefix p (min p.length kDataScrambleLen)) = p :=
    descrambleRx_prefix (le_min hp (by decide)) (Nat.min_le_left _ _) (if_pos h3)
  refine ⟨fun p => ⟨reverse_transCode p, transCode_reverse p⟩, ?_, hdata, ?_⟩
  · intro p hp h3
    have := descrambleRx_prefix hp le_rfl (if_neg h3)
    rwa [transCodePrefix, List.take_length, List.drop_length, List.append_nil] at this
  · intro isRelay epoch sessionToken dtlsData pktSeq relayTag sent hsent
    unfold sendDtlsPacket at hsent
    split at hsent
    case isTrue => cases hsent
    case isFalse =>
      obtain rfl := Option.some.inj hsent
      refine hdata _ ?_ ?_
      · cases isRelay <;> simp [dtlsPacket]
      · cases isRelay <;> simp [dtlsPacket]

/-- A control packet with an 8-byte tail, a data packet with bytes past the scrambled ones, and a
record as it is sent. -/
theorem descrambleRx_scramble_short :
    descrambleRx (transCodePartial (List.replicate 24 0x02)) = List.replicate 24 0x02 ∧
    descrambleRx (transCodePrefix (List.replicate 70 0x0b) 64) = List.replicate 70 0x0b ∧
    ∃ sent, sendDtlsPacket false 0 (Vector.replicate 8 7) [0x16] 1 0 = some sent ∧
      descrambleRx sent = dtlsPacket false 0 (Vector.replicate 8 7) [0x16] 1 0 := by
  refine ⟨descrambleRx_scramble.2.1 _ (by decide) (by decide), ?_, _, rfl, ?_⟩
  · exact descrambleRx_scramble.2.2.1 (List.replicate 70 0x0b) (by decide) (by decide)
  · exact descrambleRx_scramble.2.2.2 false 0 (Vector.replicate 8 7) [0x16] 1 0 _ rfl

end BambooNet.Tutk
