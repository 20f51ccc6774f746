import BambooNet.Lib.Bytes

/-!
# Big-endian fields

Numbers written with a fixed number of bytes, most significant first. What is read back is the
number modulo `256 ^ w`, and that is all the bytes depend on.
-/

namespace BambooNet

/-- The low `w` bytes of a number, most significant first. -/
def beBytes : ℕ → ℕ → Bytes
  | 0, _ => []
  | w + 1, n => UInt8.ofNat (n / 256 ^ w) :: beBytes w n

/-- The number whose base-256 digits are `bs`, most significant first. -/
def beNat : Bytes → ℕ
  | [] => 0
  | b :: bs => 256 ^ bs.length * b.toNat + beNat bs

@[simp] theorem length_beBytes (w n : ℕ) : (beBytes w n).length = w := by
  induction w with
  | zero => rfl
  | succ w ih => rw [beBytes, List.length_cons, ih]

@[simp] theorem beNat_beBytes (w n : ℕ) : beNat (beBytes w n) = n % 256 ^ w := by
  induction w with
  | zero => simp [beBytes, beNat, Nat.mod_one]
  | succ w ih =>
    have hsplit : n % (256 ^ w * 256) = n % 256 ^ w + 256 ^ w * (n / 256 ^ w % 256) := Nat.mod_mul
    rw [beBytes, beNat, length_beBytes, ih, UInt8.toNat_ofNat', pow_succ 256 w, hsplit,
      Nat.add_comm]

theorem beBytes_congr {w m n : ℕ} (h : m % 256 ^ w = n % 256 ^ w) : beBytes w m = beBytes w n := by
  induction w with
  | zero => rfl
  | succ w ih =>
    have hlow : m % 256 ^ w = n % 256 ^ w := by
      have hdvd : 256 ^ w ∣ 256 ^ (w + 1) := pow_dvd_pow 256 (Nat.le_succ w)
      rw [← Nat.mod_mod_of_dvd m hdvd, h, Nat.mod_mod_of_dvd n hdvd]
    have hhigh : m / 256 ^ w % 256 = n / 256 ^ w % 256 := by
      rw [pow_succ, Nat.mod_mul, Nat.mod_mul, hlow] at h
      exact Nat.eq_of_mul_eq_mul_left (Nat.pow_pos (by decide)) (Nat.add_left_cancel h)
    rw [beBytes, beBytes, ih hlow]
    congr 1
    exact UInt8.toNat_inj.mp (by rw [UInt8.toNat_ofNat', UInt8.toNat_ofNat']; exact hhigh)

@[simp] theorem beBytes_mod (w n : ℕ) : beBytes w (n % 256 ^ w) = beBytes w n :=
  beBytes_congr (Nat.mod_mod _ _)

/-- Two numbers have the same bytes exactly when they agree modulo `256 ^ w`. -/
theorem beBytes_inj {w m n : ℕ} : beBytes w m = beBytes w n ↔ m % 256 ^ w = n % 256 ^ w :=
  ⟨fun h => by rw [← beNat_beBytes, h, beNat_beBytes], beBytes_congr⟩

/-! ## Fields assembled by shifting -/

theorem joinBe_two (a b : UInt8) : a.toNat <<< 8 ||| b.toNat = beNat [a, b] := by
  rw [Nat.or_comm, or_shiftLeft_eq_add b.toNat_lt]
  simp only [beNat, List.length_cons, List.length_nil]
  omega

theorem toNat_joinBe (a b c d : UInt8) :
    (a.toUInt32 <<< 24 ||| b.toUInt32 <<< 16 ||| c.toUInt32 <<< 8 ||| d.toUInt32).toNat =
      beNat [a, b, c, d] := by
  have hrev (s t u v : UInt32) : s ||| t ||| u ||| v = v ||| u ||| t ||| s := by
    rw [UInt32.or_comm (s ||| t ||| u), UInt32.or_comm (s ||| t), UInt32.or_comm s,
      ← UInt32.or_assoc, ← UInt32.or_assoc]
  rw [hrev, toNat_joinLe]
  simp only [leNat, beNat, List.length_cons, List.length_nil]
  ring

end BambooNet
