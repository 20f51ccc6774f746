import BambooNet.Lib.Bytes

/-!
# Records of little-endian fields

A record is a list of numbers with their widths in bytes. `readBytes_field` reads one of them back
wherever the record stands.
-/

namespace BambooNet.Fields

/-- The low `w` bytes of a number, least significant first. -/
def leBytes : ℕ → ℕ → Bytes
  | 0, _ => []
  | w + 1, n => UInt8.ofNat n :: leBytes w (n / 256)

@[simp] theorem length_leBytes (w n : ℕ) : (leBytes w n).length = w := by
  induction w generalizing n with
  | zero => rfl
  | succ w ih => rw [leBytes, List.length_cons, ih]

theorem leNat_leBytes {w n : ℕ} (h : n < 256 ^ w) : leNat (leBytes w n) = n := by
  induction w generalizing n with
  | zero =>
    rw [pow_zero] at h
    rw [leBytes, leNat]
    omega
  | succ w ih =>
    have hdiv : n / 256 < 256 ^ w := by
      rw [pow_succ, Nat.mul_comm] at h
      exact Nat.div_lt_of_lt_mul h
    rw [leBytes, leNat, ih hdiv, UInt8.toNat_ofNat']
    omega

/-- The bytes of a list of fields, each given as its width and its number. -/
def record (fields : List (ℕ × ℕ)) : Bytes := fields.flatMap fun f => leBytes f.1 f.2

/-- How long they are. -/
def width (fields : List (ℕ × ℕ)) : ℕ := (fields.map Prod.fst).sum

@[simp] theorem length_record (fields : List (ℕ × ℕ)) : (record fields).length = width fields := by
  rw [record, List.length_flatMap, width]
  simp

theorem record_append (fields fields' : List (ℕ × ℕ)) :
    record (fields ++ fields') = record fields ++ record fields' := List.flatMap_append

theorem record_cons (f : ℕ × ℕ) (fields : List (ℕ × ℕ)) :
    record (f :: fields) = leBytes f.1 f.2 ++ record fields := List.flatMap_cons

/-- What stands between two parts of a buffer. -/
theorem readBytes_middle (a b c : Bytes) : readBytes (a ++ b ++ c) a.length b.length = some b := by
  have hle : a.length + b.length ≤ (a ++ b ++ c).length := by
    rw [List.length_append, List.length_append]
    omega
  rw [readBytes_of_le hle, List.append_assoc, List.drop_left, List.take_left]

/-- The `k`-th field of a record, behind `pre`. -/
theorem readBytes_field {fields : List (ℕ × ℕ)} {k w n : ℕ} (h : fields[k]? = some (w, n))
    (pre post : Bytes) :
    readBytes (pre ++ record fields ++ post) (pre.length + width (fields.take k)) w =
      some (leBytes w n) := by
  obtain ⟨hk, hget⟩ := List.getElem?_eq_some_iff.1 h
  have hsplit : fields = fields.take k ++ (w, n) :: fields.drop (k + 1) := by
    rw [← hget, ← List.drop_eq_getElem_cons hk, List.take_append_drop]
  have hmiddle := readBytes_middle (pre ++ record (fields.take k)) (leBytes w n)
    (record (fields.drop (k + 1)) ++ post)
  rw [List.length_append, length_record, length_leBytes] at hmiddle
  rw [← hmiddle]
  congr 1
  conv_lhs => rw [hsplit]
  rw [record_append, record_cons]
  simp only [List.append_assoc]

end BambooNet.Fields
