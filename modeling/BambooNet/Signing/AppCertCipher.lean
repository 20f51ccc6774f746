import BambooNet.Lib.Checked
import Mathlib.Logic.Equiv.Fin.Basic

/-!
# The cipher of app certificates

AES-256 with an S-box of its own, in counter mode with a fixed key. The counter takes the last four
bytes of a block and starts at 2.

**Theorem (`ctrXor_eq`).** The text is joined with a stream of key bytes that depends on nothing but
the key, the nonce and the length, so that the cipher undoes itself (`ctrXor_ctrXor`). No block is
read past the end of the text.
-/

namespace BambooNet.AppCert

open Checked

/-! ## The block cipher -/

/-- A state of four columns, one after the other. -/
abbrev Block := Vector UInt8 16

abbrev Word := Vector UInt8 4

set_option maxRecDepth 2000 in
def kSbox : Vector UInt8 256 := #v[
  0xC5, 0x57, 0x4D, 0x6C, 0x3A, 0x95, 0x05, 0xE0, 0xA3, 0xBA, 0x36, 0x1F, 0xEA, 0x51, 0x53, 0x3B,
  0x0E, 0x07, 0x4E, 0x64, 0x50, 0x04, 0x40, 0xE8, 0x62, 0x6E, 0x9F, 0x2D, 0x70, 0x8B, 0x28, 0x49,
  0xD5, 0xF9, 0x65, 0x8D, 0x74, 0x68, 0x7C, 0x6F, 0x0A, 0x6A, 0xB3, 0xAF, 0x38, 0xFE, 0x7E, 0x8A,
  0x47, 0x7F, 0xB0, 0x16, 0x00, 0xD4, 0x0F, 0x13, 0xC9, 0x80, 0x4A, 0xAC, 0x8C, 0x4F, 0xA7, 0x98,
  0x83, 0x94, 0x5D, 0x48, 0xB4, 0xE9, 0x30, 0x19, 0x03, 0x99, 0x25, 0xBF, 0x8E, 0x41, 0xA0, 0xE4,
  0xC3, 0xCF, 0x2C, 0xAB, 0xD2, 0x32, 0x1A, 0x0C, 0x11, 0xB5, 0x56, 0x63, 0x15, 0xA6, 0x69, 0x0B,
  0x88, 0xBB, 0x4C, 0x10, 0xCB, 0x75, 0xFA, 0x81, 0xF8, 0xCD, 0xA1, 0xD6, 0x97, 0xB7, 0x26, 0xC6,
  0x9E, 0xF1, 0x5F, 0xE5, 0xA9, 0x87, 0xC7, 0xDC, 0x8F, 0x7A, 0x86, 0x20, 0x9A, 0xD1, 0x08, 0xC2,
  0x84, 0x09, 0x33, 0x1B, 0xDD, 0x1E, 0xFD, 0x01, 0x71, 0xDA, 0x77, 0x0D, 0xD7, 0xDE, 0x93, 0xCA,
  0xA5, 0xD0, 0xE6, 0x60, 0x89, 0x37, 0xC8, 0x21, 0x59, 0x79, 0x96, 0xAD, 0x24, 0x34, 0xB9, 0x44,
  0xFC, 0xC1, 0xAE, 0xF3, 0x82, 0x46, 0x43, 0x31, 0xE3, 0x2E, 0x4B, 0xFB, 0x92, 0x55, 0xED, 0x45,
  0x76, 0x6D, 0xAA, 0x3F, 0xF5, 0x5A, 0x91, 0x78, 0x22, 0x06, 0xFF, 0xD9, 0x35, 0x7D, 0x7B, 0xDB,
  0x54, 0x12, 0x9C, 0xD8, 0xD3, 0xEE, 0x17, 0x42, 0x52, 0x3E, 0xA4, 0xE7, 0xDF, 0x9D, 0xF2, 0xF4,
  0xEF, 0x73, 0xF6, 0x5E, 0xB1, 0x5B, 0x18, 0xE2, 0x9B, 0x58, 0xA8, 0x2A, 0xE1, 0x3D, 0x90, 0xB6,
  0x1C, 0xBD, 0x61, 0xEB, 0x23, 0xA2, 0x67, 0x39, 0xF0, 0xBC, 0xB2, 0xF7, 0x85, 0x27, 0x72, 0xCC,
  0x29, 0xB8, 0x1D, 0xBE, 0x66, 0xC4, 0x2F, 0xCE, 0x14, 0x3C, 0x6B, 0xEC, 0x5C, 0x2B, 0xC0, 0x02]

def kRcon : Vector UInt8 14 :=
  #v[0x01, 0x02, 0x04, 0x08, 0x10, 0x20, 0x40, 0x80, 0x1B, 0x36, 0x6C, 0xD8, 0xAB, 0x4D]

def kAppcertKey : Vector UInt8 32 := #v[
  0x00, 0x01, 0x02, 0x03, 0x04, 0x05, 0x06, 0x07, 0x08, 0x09, 0x0A, 0x0B, 0x0C, 0x0D, 0x0E, 0x0F,
  0x10, 0x11, 0x12, 0x13, 0x14, 0x15, 0x16, 0x17, 0x18, 0x19, 0x1A, 0x1B, 0x1C, 0x1D, 0x1E, 0x1F]

def sub (c : UInt8) : UInt8 := kSbox.get ⟨c.toNat, c.toNat_lt⟩

def xtime (a : UInt8) : UInt8 := (a <<< 1) ^^^ (if a &&& 0x80 ≠ 0 then 0x1b else 0)

def gmulLoop : ℕ → UInt8 → UInt8 → UInt8 → UInt8
  | 0, r, _, _ => r
  | fuel + 1, r, a, b =>
    if b = 0 then r else gmulLoop fuel (if b &&& 1 ≠ 0 then r ^^^ a else r) (xtime a) (b >>> 1)

/-- A byte has no bit left after eight rounds. -/
def gmul (a b : UInt8) : UInt8 := gmulLoop 8 0 a b

theorem zero_lt_rows : 0 < 4 := by
  decide

theorem one_lt_rows : 1 < 4 := by
  decide

theorem two_lt_rows : 2 < 4 := by
  decide

theorem three_lt_rows : 3 < 4 := by
  decide

/-! The rows of a column. -/

def row0 : Fin 4 := ⟨0, zero_lt_rows⟩

def row1 : Fin 4 := ⟨1, one_lt_rows⟩

def row2 : Fin 4 := ⟨2, two_lt_rows⟩

def row3 : Fin 4 := ⟨3, three_lt_rows⟩

/-- The place of a byte by column and row. -/
def place (c r : Fin 4) : Fin 16 := finProdFinEquiv (c, r)

/-- The block with these bytes by column and row. -/
def blockOf (f : Fin 4 → Fin 4 → UInt8) : Block :=
  Vector.ofFn fun i : Fin 16 => let p := finProdFinEquiv.symm i; f p.1 p.2

theorem rcon_lt (k : Fin 52) : (k.val + 8) / 8 - 1 < 14 := by
  omega

/-- The word that round `k + 8` joins with the one eight before it. -/
def scheduleWord (w : Vector Word 60) (k : Fin 52) : Word :=
  let t := w.get (Fin.natAdd 7 k).castSucc
  if (k.val + 8) % 8 = 0 then
    #v[sub (t.get row1) ^^^ kRcon.get ⟨(k.val + 8) / 8 - 1, rcon_lt k⟩, sub (t.get row2),
      sub (t.get row3), sub (t.get row0)]
  else if (k.val + 8) % 8 = 4 then t.map sub
  else t

def scheduleStep (w : Vector Word 60) (k : Fin 52) : Vector Word 60 :=
  w.set (8 + k.val) (Vector.zipWith (· ^^^ ·) (w.get (Fin.castAdd 8 k)) (scheduleWord w k))
    (Fin.natAdd 8 k).isLt

theorem key_lt (i : Fin 8) (j : Fin 4) : 4 * i.val + j.val < 32 := by
  omega

/-- The words of the key come first. -/
def keyWords (key : Vector UInt8 32) : Vector Word 60 :=
  Vector.ofFn fun i : Fin 60 =>
    if h : i.val < 8 then Vector.ofFn fun j : Fin 4 => key.get ⟨4 * i.val + j.val, key_lt ⟨i, h⟩ j⟩
    else Vector.replicate 4 0

def keyExpand (key : Vector UInt8 32) : Vector Block 15 :=
  let w := Fin.foldl 52 scheduleStep (keyWords key)
  Vector.ofFn fun r : Fin 15 => blockOf fun c j => (w.get (finProdFinEquiv (r, c))).get j

def xorBlock (a b : Block) : Block := Vector.zipWith (· ^^^ ·) a b

def shiftRows (s : Block) : Block := blockOf fun c r => s.get (place (c + r) r)

def mixColumns (s : Block) : Block :=
  blockOf fun c r =>
    let a0 := s.get (place c row0)
    let a1 := s.get (place c row1)
    let a2 := s.get (place c row2)
    let a3 := s.get (place c row3)
    (#v[gmul a0 2 ^^^ gmul a1 3 ^^^ a2 ^^^ a3, a0 ^^^ gmul a1 2 ^^^ gmul a2 3 ^^^ a3,
      a0 ^^^ a1 ^^^ gmul a2 2 ^^^ gmul a3 3, gmul a0 3 ^^^ a1 ^^^ a2 ^^^ gmul a3 2] : Word).get r

/-- Round `k + 1`. The last one mixes no columns. -/
def round (ek : Vector Block 15) (s : Block) (k : Fin 14) : Block :=
  let s := shiftRows (s.map sub)
  xorBlock (if k.val + 1 < 14 then mixColumns s else s) (ek.get k.succ)

def aesEncryptBlock (input : Block) (ek : Vector Block 15) : Block :=
  Fin.foldl 14 (round ek) (xorBlock input (ek.get 0))

/-! ## Counter mode -/

def kNonceLen : ℕ := 12

def kFirstCtBlockCounter : UInt32 := 2

/-- The nonce, and the counter with its highest byte first. -/
def counterBlock (nonce : Bytes) (ctr : UInt32) : Block :=
  let bytes := nonce ++ [(ctr >>> 24).toUInt8, (ctr >>> 16).toUInt8, (ctr >>> 8).toUInt8,
    ctr.toUInt8]
  Vector.ofFn fun j : Fin 16 => bytes.getD j.val 0

/-- The key bytes of block `i`. -/
def keyBlock (ek : Vector Block 15) (nonce : Bytes) (i : ℕ) : Bytes :=
  (aesEncryptBlock (counterBlock nonce (kFirstCtBlockCounter + UInt32.ofNat i)) ek).toList

def xorBytes (a b : Bytes) : Bytes := List.zipWith (· ^^^ ·) a b

/-- The blocks from `i` on. -/
@[grind =]
def ctrBlocks (ek : Vector Block 15) (nonce data : Bytes) : ℕ → ℕ → Except (Stop Bytes) Bytes
  | 0, _ => .ok []
  | blocks + 1, i => do
    let base := i * 16
    let n := if data.length - base < 16 then data.length - base else 16
    let part ← readSlice n data base
    let ks ← readSlice n (keyBlock ek nonce i) 0
    let rest ← ctrBlocks ek nonce data blocks (i + 1)
    .ok (xorBytes part ks ++ rest)

def ctrXor (key : Vector UInt8 32) (nonce data : Bytes) : Except (Stop Bytes) Bytes :=
  if nonce.length ≠ kNonceLen then .ok []
  else do
    let nonce ← readSlice kNonceLen nonce 0
    ctrBlocks (keyExpand key) nonce data ((data.length + 15) / 16) 0

/-! ## The stream of key bytes -/

def keyStream (ek : Vector Block 15) (nonce : Bytes) : ℕ → ℕ → Bytes
  | 0, _ => []
  | blocks + 1, i => keyBlock ek nonce i ++ keyStream ek nonce blocks (i + 1)

variable {key : Vector UInt8 32} {ek : Vector Block 15} {nonce data : Bytes}

theorem length_keyBlock (i : ℕ) : (keyBlock ek nonce i).length = 16 :=
  Vector.length_toList

theorem length_keyStream (blocks i : ℕ) :
    (keyStream ek nonce blocks i).length = 16 * blocks := by
  induction blocks generalizing i with
  | zero => rfl
  | succ blocks ih =>
    rw [keyStream, List.length_append, length_keyBlock, ih]
    omega

/-- Key bytes beyond the text are not used. -/
theorem xorBytes_take {a b : Bytes} : xorBytes a (b.take a.length) = xorBytes a b := by
  induction a generalizing b with
  | nil => rfl
  | cons c a ih =>
    cases b with
    | nil => rfl
    | cons d b => exact congrArg ((c ^^^ d) :: ·) ih

theorem xorBytes_append {a b c d : Bytes} (h : a.length = b.length) :
    xorBytes (a ++ c) (b ++ d) = xorBytes a b ++ xorBytes c d :=
  List.zipWith_append h

/-- Joined twice with the same bytes, a text is itself. -/
theorem xorBytes_xorBytes {a b : Bytes} (h : a.length ≤ b.length) :
    xorBytes (xorBytes a b) b = a := by
  induction a generalizing b with
  | nil => rfl
  | cons c a ih =>
    cases b with
    | nil => cases h
    | cons d b =>
      have hc : c ^^^ d ^^^ d = c := by rw [UInt8.xor_assoc, UInt8.xor_self, UInt8.xor_zero]
      have ha : xorBytes (xorBytes a b) b = a := ih (Nat.le_of_succ_le_succ h)
      exact congrArg₂ List.cons hc ha

theorem length_xorBytes {a b : Bytes} (h : a.length ≤ b.length) :
    (xorBytes a b).length = a.length := by
  rw [xorBytes, List.length_zipWith, Nat.min_eq_left h]

/-- The blocks from `i` on, when the text ends in the last of them. -/
theorem ctrBlocks_eq {blocks i : ℕ} (h : (data.length + 15) / 16 = i + blocks) :
    ctrBlocks ek nonce data blocks i =
      .ok (xorBytes (data.drop (i * 16)) (keyStream ek nonce blocks i)) := by
  induction blocks generalizing i with
  | zero =>
    have hnil : data.drop (i * 16) = [] := List.drop_eq_nil_of_le (by omega)
    rw [hnil]
    rfl
  | succ blocks ih =>
    have hrest : ctrBlocks ek nonce data blocks (i + 1) = _ := ih (by omega)
    have hks : (keyBlock ek nonce i).length = 16 := length_keyBlock i
    have hd : (data.drop (i * 16)).length = data.length - i * 16 := List.length_drop
    have hbehind : data.drop ((i + 1) * 16) = (data.drop (i * 16)).drop 16 := by
      rw [List.drop_drop, Nat.succ_mul]
    have hread (n : ℕ) (h₁ : n ≤ 16) (h₂ : n ≤ data.length - i * 16) :
        (readSlice n data (i * 16) : Except (Stop Bytes) Bytes) =
          .ok ((data.drop (i * 16)).take n) ∧
        (readSlice n (keyBlock ek nonce i) 0 : Except (Stop Bytes) Bytes) =
          .ok ((keyBlock ek nonce i).take n) :=
      ⟨readSlice_of_le (by omega), by rw [readSlice_of_le (by omega), List.drop_zero]⟩
    rw [ctrBlocks, hrest, keyStream, hbehind]
    generalize data.drop (i * 16) = d at *
    generalize keyBlock ek nonce i = ks at *
    by_cases hlt : data.length - i * 16 < 16
    · -- the last block is cut off
      obtain ⟨hpart, hkey⟩ := hread _ hlt.le (le_refl _)
      have hnil : d.drop 16 = [] := List.drop_eq_nil_of_le (by omega)
      have htake : (ks ++ keyStream ek nonce blocks (i + 1)).take d.length = ks.take d.length :=
        List.take_append_of_le_length (by omega)
      rw [if_pos hlt, hpart, ok_bind, hkey, ok_bind, ok_bind, ← hd, List.take_length, hnil,
        ← xorBytes_take (b := ks ++ _), htake]
      exact congrArg Except.ok (List.append_nil _)
    · obtain ⟨hpart, hkey⟩ := hread 16 (le_refl _) (by omega)
      have htake : (d.take 16).length = ks.length := by
        rw [List.length_take, hks]
        omega
      rw [if_neg hlt, hpart, ok_bind, hkey, ok_bind, ok_bind, List.take_of_length_le hks.le,
        ← xorBytes_append htake, List.take_append_drop]

/-- **The text is joined with the stream.** -/
theorem ctrXor_eq (h : nonce.length = kNonceLen) : ctrXor key nonce data =
    .ok (xorBytes data (keyStream (keyExpand key) nonce ((data.length + 15) / 16) 0)) := by
  have hread : (readSlice kNonceLen nonce 0 : Except (Stop Bytes) Bytes) = .ok nonce := by
    rw [readSlice_of_le (by omega), List.drop_zero, ← h, List.take_length]
  rw [ctrXor, if_neg (not_not.2 h), hread, ok_bind, ctrBlocks_eq (by omega)]
  simp

/-- **The cipher undoes itself.** -/
theorem ctrXor_ctrXor (h : nonce.length = kNonceLen) :
    ∃ e, ctrXor key nonce data = .ok e ∧ e.length = data.length ∧
      ctrXor key nonce e = .ok data := by
  have hlen : data.length ≤
      (keyStream (keyExpand key) nonce ((data.length + 15) / 16) 0).length := by
    rw [length_keyStream]
    omega
  refine ⟨_, ctrXor_eq h, length_xorBytes hlen, ?_⟩
  rw [ctrXor_eq h, length_xorBytes hlen, xorBytes_xorBytes hlen]

end BambooNet.AppCert
