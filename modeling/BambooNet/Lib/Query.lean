import BambooNet.Lib.Bytes

/-!
# Percent-encoding and query strings

**Percent-encoding.** A byte that is not safe is written as a percent sign and two hexadecimal
digits. Decoding undoes it (`decode_encode`), and a text is its own encoding only when all of it is
safe (`encode_eq_self_iff`).

**Query strings.** The pieces between separators are `List.splitOn`. A search for a name that only
stops at the start of a piece finds the first piece that starts with the name (`scan_eq`).
-/

namespace BambooNet.Query

/-! ## Hexadecimal digits -/

/-- The digit of a number below 16, in upper case. -/
def hexDigit (n : UInt8) : UInt8 := if n < 10 then 0x30 + n else 0x37 + n

def hexValue? (c : UInt8) : Option UInt8 :=
  if 0x30 ≤ c ∧ c ≤ 0x39 then some (c - 0x30)
  else if 0x61 ≤ c ∧ c ≤ 0x66 then some (10 + c - 0x61)
  else if 0x41 ≤ c ∧ c ≤ 0x46 then some (10 + c - 0x41)
  else none

/-- The digits of a byte give it back. -/
theorem hexValue?_digits : ∀ c : UInt8, hexValue? (hexDigit (c >>> 4)) = some (c >>> 4) ∧
    hexValue? (hexDigit (c &&& 0xf)) = some (c &&& 0xf) ∧ (c >>> 4) <<< 4 ||| (c &&& 0xf) = c :=
  forall_byte (by decide +kernel)

/-! ## Percent-encoding -/

variable (safe : UInt8 → Bool) (literal : UInt8 → UInt8)

def encodeByte (c : UInt8) : Bytes :=
  if safe c then [c] else [0x25, hexDigit (c >>> 4), hexDigit (c &&& 0xf)]

def encode (s : Bytes) : Bytes := s.flatMap (encodeByte safe)

/-- A percent sign without two digits after it, and any other byte, stands for what `literal` says.
-/
@[grind =] def decode : Bytes → Bytes
  | 0x25 :: a :: b :: s =>
    match hexValue? a, hexValue? b with
    | some hi, some lo => (hi <<< 4 ||| lo) :: decode s
    | _, _ => literal 0x25 :: decode (a :: b :: s)
  | c :: s => literal c :: decode s
  | [] => []

variable {safe literal}

theorem decode_literal {c : UInt8} (h : c ≠ 0x25) (s : Bytes) :
    decode literal (c :: s) = literal c :: decode literal s := by
  rw [decode]
  rintro a b t rfl
  exact absurd rfl h

theorem decode_encodeByte (hsafe : safe 0x25 = false) (hliteral : ∀ c, safe c → literal c = c)
    (c : UInt8) (s : Bytes) :
    decode literal (encodeByte safe c ++ s) = c :: decode literal s := by
  by_cases hc : safe c = true
  · have hne : c ≠ 0x25 := by
      rintro rfl
      rw [hsafe] at hc
      contradiction
    rw [encodeByte, if_pos hc, List.singleton_append, decode_literal hne, hliteral c hc]
  · obtain ⟨hhi, hlo, hjoin⟩ := hexValue?_digits c
    rw [encodeByte, if_neg hc]
    simp only [List.cons_append, List.nil_append, decode, hhi, hlo, hjoin]

/-- **Decoding undoes encoding.** -/
theorem decode_encode (hsafe : safe 0x25 = false) (hliteral : ∀ c, safe c → literal c = c)
    (s : Bytes) : decode literal (encode safe s) = s := by
  induction s with
  | nil => rfl
  | cons c s ih =>
    rw [encode, List.flatMap_cons, decode_encodeByte hsafe hliteral]
    exact congrArg (c :: ·) ih

theorem length_le_encode (s : Bytes) : s.length ≤ (encode safe s).length := by
  induction s with
  | nil => exact le_rfl
  | cons c s ih =>
    have hc : 1 ≤ (encodeByte safe c).length := by
      rw [encodeByte]
      split <;> simp
    rw [encode, List.flatMap_cons, List.length_append, List.length_cons]
    change s.length + 1 ≤ (encodeByte safe c).length + (encode safe s).length
    omega

/-- The length shows whether anything was encoded. -/
theorem length_encode_eq_iff {s : Bytes} :
    (encode safe s).length = s.length ↔ ∀ c ∈ s, safe c = true := by
  induction s with
  | nil => simp [encode]
  | cons c s ih =>
    have hle : s.length ≤ (encode safe s).length := length_le_encode s
    have hlength : (encode safe (c :: s)).length =
        (encodeByte safe c).length + (encode safe s).length := by
      simp [encode]
    rw [hlength, List.forall_mem_cons, List.length_cons, encodeByte]
    by_cases hc : safe c = true
    · rw [if_pos hc, List.length_singleton, Nat.add_comm 1, Nat.add_right_cancel_iff]
      exact ih.trans (and_iff_right hc).symm
    · rw [if_neg hc]
      constructor
      · intro h
        simp only [List.length_cons, List.length_nil] at h
        omega
      · exact fun h => absurd h.1 hc

theorem encode_eq_self {s : Bytes} (h : ∀ c ∈ s, safe c = true) : encode safe s = s := by
  induction s with
  | nil => rfl
  | cons c s ih =>
    rw [List.forall_mem_cons] at h
    rw [encode, List.flatMap_cons, encodeByte, if_pos h.1]
    exact congrArg (c :: ·) (ih h.2)

theorem encode_eq_self_iff {s : Bytes} : encode safe s = s ↔ ∀ c ∈ s, safe c = true :=
  ⟨fun h => length_encode_eq_iff.1 (congrArg List.length h), encode_eq_self⟩

theorem encode_ne_nil {s : Bytes} (h : s ≠ []) : encode safe s ≠ [] := by
  obtain ⟨c, s, rfl⟩ := List.exists_cons_of_ne_nil h
  rw [encode, List.flatMap_cons, encodeByte]
  split <;> simp

/-- A byte that is neither safe nor a percent sign nor a digit does not occur in an encoding. -/
theorem not_mem_encode {c : UInt8} (hsafe : safe c = false) (hpercent : c ≠ 0x25)
    (hdigit : ∀ n < 16, hexDigit (UInt8.ofNat n) ≠ c) (s : Bytes) : c ∉ encode safe s := by
  intro hmem
  obtain ⟨d, -, hd⟩ := List.mem_flatMap.1 hmem
  rw [encodeByte] at hd
  split at hd
  · next hsafe' =>
    rw [List.mem_singleton.1 hd, hsafe'] at hsafe
    contradiction
  · have hnibble : ∀ d : UInt8, (d >>> 4).toNat < 16 ∧ (d &&& 0xf).toNat < 16 :=
      forall_byte (by decide +kernel)
    have hne (n : UInt8) (hn : n.toNat < 16) : c ≠ hexDigit n := by
      have := hdigit n.toNat hn
      rw [UInt8.ofNat_toNat] at this
      exact this.symm
    simp only [List.mem_cons, List.not_mem_nil, or_false] at hd
    rcases hd with rfl | h | h
    · exact hpercent rfl
    · exact hne _ (hnibble d).1 h
    · exact hne _ (hnibble d).2 h

/-! ## Query strings -/

section Scan

variable {α : Type*} [DecidableEq α] (sep : α) (name : List α)

/-- Search for a name at the start of the text (when `start`) or after a separator; the result is
what follows the name up to the next separator. -/
@[grind =] def scan (start : Bool) (s : List α) : Option (List α) :=
  if start ∧ name <+: s then some ((s.drop name.length).takeWhile (· ≠ sep))
  else
    match s with
    | [] => none
    | c :: s => scan (c = sep) s

variable {sep name}

theorem isPrefix_takeWhile_iff (h : sep ∉ name) (s : List α) :
    name <+: s.takeWhile (· ≠ sep) ↔ name <+: s := by
  constructor
  · exact fun hp => hp.trans (List.takeWhile_prefix _)
  · rintro ⟨t, rfl⟩
    rw [List.takeWhile_append_of_pos fun c hc => decide_eq_true (ne_of_mem_of_not_mem hc h)]
    exact List.prefix_append _ _

/-- The first piece ends before the first separator. -/
theorem splitOn_eq_cons (s : List α) :
    s.splitOn sep = s.takeWhile (· ≠ sep) :: (s.splitOn sep).tail := by
  induction s with
  | nil => rfl
  | cons c s ih =>
    rw [List.splitOn_cons_eq_if_modifyHead]
    by_cases hc : c = sep
    · simp [hc]
    · rw [if_neg (by simpa using hc), ih]
      simp [hc]

/-- **The search finds the first piece that starts with the name**; in the middle of a piece it goes
on with the next one. -/
theorem scan_eq (hsep : sep ∉ name) (hname : name ≠ []) (s : List α) :
    scan sep name true s = ((s.splitOn sep).find? (name <+: ·)).map (·.drop name.length) ∧
      scan sep name false s =
        ((s.splitOn sep).tail.find? (name <+: ·)).map (·.drop name.length) := by
  induction s with
  | nil =>
    have hnil : ¬ name <+: [] := fun h => hname (List.prefix_nil.1 h)
    constructor
    · rw [scan]
      simp [hnil]
    · rw [scan]
      simp
  | cons c s ih =>
    -- in the middle of a piece, and at the start of a piece that does not start with the name
    have hnext : scan sep name (c = sep) s =
        (((c :: s).splitOn sep).tail.find? (name <+: ·)).map (·.drop name.length) := by
      rw [List.splitOn_cons_eq_if_modifyHead]
      by_cases hc : c = sep
      · simpa [hc] using ih.1
      · rw [if_neg (by simpa using hc), splitOn_eq_cons s]
        simpa [hc] using ih.2
    constructor
    · rw [scan, splitOn_eq_cons (c :: s)]
      by_cases hp : name <+: c :: s
      · rw [if_pos ⟨rfl, hp⟩,
          List.find?_cons_of_pos (by simpa using (isPrefix_takeWhile_iff hsep _).2 hp)]
        obtain ⟨t, ht⟩ := hp
        rw [← ht, List.drop_left,
          List.takeWhile_append_of_pos fun c hc => decide_eq_true (ne_of_mem_of_not_mem hc hsep),
          Option.map_some, List.drop_left]
      · rw [if_neg fun h => hp h.2, List.find?_cons_of_neg
          (by simpa using fun h => hp ((isPrefix_takeWhile_iff hsep (c :: s)).1 h))]
        exact hnext
    · rw [scan, if_neg (by simp)]
      exact hnext

end Scan

end BambooNet.Query
