import BambooNet.Lib.Decimal

/-!
# JSON texts

The grammar of RFC 8259 as syntax trees: a tree keeps whitespace, the way each character of a
string is written and the form of each number, and `text` gives the bytes. The invariants of the
grammar are fields, so that every tree is the tree of a JSON text and every JSON text is the text
of a tree.
-/

namespace BambooNet.JsonSyntax

/-! ## Whitespace and strings -/

def whitespace : List UInt8 := [0x20, 0x09, 0x0a, 0x0d]

structure Ws where
  bytes : Bytes
  white : ∀ c ∈ bytes, c ∈ whitespace

/-- No whitespace. -/
def Ws.none : Ws := ⟨[], by simp⟩

/-- A hexadecimal digit. Letters are written in either case. -/
structure Hex where
  digit : Fin 16
  upper : Bool := false

def Hex.byte (h : Hex) : UInt8 :=
  UInt8.ofNat (if h.digit.val < 10 then 0x30 + h.digit
    else if h.upper then 0x37 + h.digit else 0x57 + h.digit)

/-- The four digits of a `\u` escape. -/
structure Hex4 where
  a : Hex
  b : Hex
  c : Hex
  d : Hex

namespace Hex4

def value (h : Hex4) : ℕ := ((h.a.digit * 16 + h.b.digit) * 16 + h.c.digit) * 16 + h.d.digit

/-- The escape. -/
def text (h : Hex4) : Bytes := [0x5c, 0x75, h.a.byte, h.b.byte, h.c.byte, h.d.byte]

def IsHigh (h : Hex4) : Prop := 0xd800 ≤ h.value ∧ h.value ≤ 0xdbff

def IsLow (h : Hex4) : Prop := 0xdc00 ≤ h.value ∧ h.value ≤ 0xdfff

end Hex4

/-- The two-character escapes: the letter after the backslash and the character it stands for. -/
def escapes : List (UInt8 × UInt8) :=
  [(0x22, 0x22), (0x5c, 0x5c), (0x2f, 0x2f), (0x62, 0x08), (0x66, 0x0c), (0x6e, 0x0a),
    (0x72, 0x0d), (0x74, 0x09)]

/-- A character of a string, or one byte of the encoding of a character that is not escaped. -/
inductive StrChar
  | raw (c : UInt8) (plain : 0x20 ≤ c ∧ c ≠ 0x22 ∧ c ≠ 0x5c)
  | short (e : UInt8 × UInt8) (known : e ∈ escapes)
  | unicode (u : Hex4) (scalar : ¬ u.IsHigh ∧ ¬ u.IsLow)
  | pair (hi lo : Hex4) (high : hi.IsHigh) (low : lo.IsLow)
  | lone (u : Hex4) (surrogate : u.IsHigh ∨ u.IsLow)

namespace StrChar

def text : StrChar → Bytes
  | raw c _ => [c]
  | short e _ => [0x5c, e.1]
  | unicode u _ => u.text
  | pair hi lo _ _ => hi.text ++ lo.text
  | lone u _ => u.text

/-- The code point of a surrogate pair. -/
def joined (hi lo : Hex4) : ℕ := 0x10000 + (hi.value - 0xd800) * 1024 + (lo.value - 0xdc00)

/-- A surrogate that is not in a pair is no character; it is encoded as its neighbours are. -/
def surrogateBytes (cp : ℕ) : Bytes :=
  [0xed, UInt8.ofNat (cp / 64 % 64 + 0x80), UInt8.ofNat (cp % 64 + 0x80)]

/-- The bytes a character stands for. -/
def decoded : StrChar → Bytes
  | raw c _ => [c]
  | short e _ => [e.2]
  | unicode u _ => String.utf8EncodeChar (Char.ofNat u.value)
  | pair hi lo _ _ => String.utf8EncodeChar (Char.ofNat (joined hi lo))
  | lone u _ => surrogateBytes u.value

/-- A high surrogate and a low one next to each other are a pair. -/
def Apart : StrChar → StrChar → Prop
  | lone u _, lone u' _ => ¬ (u.IsHigh ∧ u'.IsLow)
  | _, _ => True

/-- The text of several characters. -/
def texts (cs : List StrChar) : Bytes := cs.flatMap text

end StrChar

structure Str where
  chars : List StrChar
  apart : chars.IsChain StrChar.Apart

namespace Str

def text (s : Str) : Bytes := 0x22 :: (StrChar.texts s.chars ++ [0x22])

def decoded (s : Str) : Bytes := s.chars.flatMap StrChar.decoded

end Str

theorem StrChar.le_of_mem_text {ch : StrChar} {c : UInt8} (h : c ∈ ch.text) : 0x20 ≤ c := by
  have hhex (x : Hex) : 0x20 ≤ x.byte := by
    obtain ⟨digit, upper⟩ := x
    revert digit upper
    decide
  have hhex4 {u : Hex4} (hu : c ∈ u.text) : 0x20 ≤ c := by
    simp only [Hex4.text, List.mem_cons, List.not_mem_nil, or_false] at hu
    rcases hu with rfl | rfl | rfl | rfl | rfl | rfl
    · decide
    · decide
    · exact hhex _
    · exact hhex _
    · exact hhex _
    · exact hhex _
  cases ch with
  | raw d plain =>
    rw [List.mem_singleton.1 h]
    exact plain.1
  | short e known =>
    have hall : ∀ e ∈ escapes, (0x20 : UInt8) ≤ e.1 := List.all_iff_forall_prop.1 (by decide)
    simp only [StrChar.text, List.mem_cons, List.not_mem_nil, or_false] at h
    rcases h with rfl | rfl
    · decide
    · exact hall e known
  | unicode u _ => exact hhex4 h
  | pair hi lo _ _ => exact (List.mem_append.1 h).elim hhex4 hhex4
  | lone u _ => exact hhex4 h

/-- A string literal has no control characters. -/
theorem Str.le_of_mem_text {s : Str} {c : UInt8} (h : c ∈ s.text) : 0x20 ≤ c := by
  simp only [Str.text, List.mem_cons, List.mem_append, List.not_mem_nil, or_false] at h
  rcases h with rfl | h | rfl
  · decide
  · obtain ⟨ch, -, hc⟩ := List.mem_flatMap.1 h
    exact ch.le_of_mem_text hc
  · decide

/-! ## Numbers -/

/-- A run of digits. -/
structure Digits where
  bytes : Bytes
  digits : ∀ c ∈ bytes, isDigit c = true
  nonempty : bytes ≠ []

structure Exponent where
  upper : Bool
  /-- `true` for a minus sign, `false` for a plus sign. -/
  sign : Option Bool
  digits : Digits

/-- The sign of an exponent as it is written. -/
def Exponent.signText (e : Exponent) : Bytes :=
  match e.sign with
  | none => []
  | some s => [if s then 0x2d else 0x2b]

def Exponent.text (e : Exponent) : Bytes :=
  (if e.upper then 0x45 else 0x65) :: (e.signText ++ e.digits.bytes)

/-- The parts of a number. -/
structure Numeral where
  neg : Bool
  int : Digits
  frac : Option Digits
  exp : Option Exponent

structure Number extends Numeral where
  noLeadingZero : int.bytes.head? = some 0x30 → int.bytes = [0x30]

namespace Numeral

def fracBytes (n : Numeral) : Bytes := (n.frac.map Digits.bytes).getD []

def fracText (n : Numeral) : Bytes :=
  match n.frac with
  | none => []
  | some d => 0x2e :: d.bytes

def expText (n : Numeral) : Bytes :=
  match n.exp with
  | none => []
  | some e => e.text

def text (n : Numeral) : Bytes :=
  (if n.neg then [0x2d] else []) ++ (n.int.bytes ++ (n.fracText ++ n.expText))

def expNeg (n : Numeral) : Bool :=
  match n.exp with
  | none => false
  | some e => e.sign == some true

def expBytes (n : Numeral) : Bytes :=
  match n.exp with
  | none => []
  | some e => e.digits.bytes

/-- The exponent of ten that the integer and fraction digits together are scaled by. -/
def scale (n : Numeral) : ℤ :=
  (if n.expNeg then -(natOf n.expBytes : ℤ) else natOf n.expBytes) - n.fracBytes.length

/-- The integer and fraction digits together. -/
def mantissa (n : Numeral) : ℕ := natOf (n.int.bytes ++ n.fracBytes)

/-- A number without a fractional part, however it is written. -/
def IsInt (n : Numeral) : Prop := 10 ^ (-n.scale).toNat ∣ n.mantissa * 10 ^ n.scale.toNat

def natAbs (n : Numeral) : ℕ := n.mantissa * 10 ^ n.scale.toNat / 10 ^ (-n.scale).toNat

/-- The value of a number without a fractional part. -/
def intValue (n : Numeral) : ℤ := if n.neg then -n.natAbs else n.natAbs

end Numeral

namespace Number

/-- An integer as a number. -/
def ofInt (i : ℤ) : Number where
  neg := decide (i < 0)
  int := ⟨decimal i.natAbs, isDigit_of_mem_decimal, decimal_ne_nil _⟩
  frac := none
  exp := none
  noLeadingZero := decimal_head

theorem isInt_ofInt (i : ℤ) : (ofInt i).IsInt := by
  simp [Numeral.IsInt, Numeral.scale, ofInt, Numeral.expNeg, Numeral.expBytes, Numeral.fracBytes,
    natOf]

theorem intValue_ofInt (i : ℤ) : (ofInt i).intValue = i := by
  have h : (ofInt i).natAbs = i.natAbs := by
    simp [Numeral.natAbs, Numeral.mantissa, Numeral.scale, ofInt, Numeral.expNeg,
      Numeral.expBytes, Numeral.fracBytes, natOf_decimal, show natOf [] = 0 from rfl]
  rw [Numeral.intValue, h]
  simp only [ofInt, decide_eq_true_eq]
  split <;> omega

theorem text_ofInt (i : ℤ) : (ofInt i).text = decimalInt i := by
  simp [Numeral.text, ofInt, decimalInt, Numeral.fracText, Numeral.expText]

end Number

/-! ## Values -/

mutual

/-- The syntax tree of a value. -/
inductive Node
  | null
  | bool (b : Bool)
  | number (n : Number)
  | string (s : Str)
  | emptyArray (ws : Ws)
  | array (es : Elements)
  | emptyObject (ws : Ws)
  | object (ms : Members)

/-- The elements of an array, each with the whitespace around it. -/
inductive Elements
  | last (before : Ws) (v : Node) (after : Ws)
  | cons (before : Ws) (v : Node) (after : Ws) (rest : Elements)

/-- The members of an object, with the whitespace around keys and values. -/
inductive Members
  | last (before : Ws) (key : Str) (after before' : Ws) (v : Node) (after' : Ws)
  | cons (before : Ws) (key : Str) (after before' : Ws) (v : Node) (after' : Ws) (rest : Members)

end

def Node.isObject : Node → Bool
  | .emptyObject _ | .object _ => true
  | .null | .bool _ | .number _ | .string _ | .emptyArray _ | .array _ => false

mutual

@[grind =] def Node.text : Node → Bytes
  | .null => ascii "null"
  | .bool b => if b then ascii "true" else ascii "false"
  | .number n => n.text
  | .string s => s.text
  | .emptyArray ws => 0x5b :: (ws.bytes ++ [0x5d])
  | .array es => 0x5b :: (es.text ++ [0x5d])
  | .emptyObject ws => 0x7b :: (ws.bytes ++ [0x7d])
  | .object ms => 0x7b :: (ms.text ++ [0x7d])

@[grind =] def Elements.text : Elements → Bytes
  | .last before v after => before.bytes ++ (v.text ++ after.bytes)
  | .cons before v after rest => before.bytes ++ (v.text ++ (after.bytes ++ 0x2c :: rest.text))

@[grind =] def Members.text : Members → Bytes
  | .last before key after before' v after' =>
    before.bytes ++ (key.text ++ (after.bytes ++ 0x3a :: (before'.bytes ++
      (v.text ++ after'.bytes))))
  | .cons before key after before' v after' rest =>
    before.bytes ++ (key.text ++ (after.bytes ++ 0x3a :: (before'.bytes ++
      (v.text ++ (after'.bytes ++ 0x2c :: rest.text)))))

end

mutual

/-- How deep containers are nested. -/
@[grind =] def Node.depth : Node → ℕ
  | .array es => es.depth + 1
  | .object ms => ms.depth + 1
  | .emptyArray _ | .emptyObject _ => 1
  | _ => 0

@[grind =] def Elements.depth : Elements → ℕ
  | .last _ v _ => v.depth
  | .cons _ v _ rest => max v.depth rest.depth

@[grind =] def Members.depth : Members → ℕ
  | .last _ _ _ _ v _ => v.depth
  | .cons _ _ _ _ v _ rest => max v.depth rest.depth

end

mutual

/-- A property of every number in a tree. -/
@[grind =] def Node.Numbers (P : Number → Prop) : Node → Prop
  | .number n => P n
  | .array es => es.Numbers P
  | .object ms => ms.Numbers P
  | _ => True

@[grind =] def Elements.Numbers (P : Number → Prop) : Elements → Prop
  | .last _ v _ => v.Numbers P
  | .cons _ v _ rest => v.Numbers P ∧ rest.Numbers P

@[grind =] def Members.Numbers (P : Number → Prop) : Members → Prop
  | .last _ _ _ _ v _ => v.Numbers P
  | .cons _ _ _ _ v _ rest => v.Numbers P ∧ rest.Numbers P

end

/-- A value with whitespace around it. -/
structure Text where
  before : Ws
  node : Node
  after : Ws

def Text.bytes (t : Text) : Bytes := t.before.bytes ++ (t.node.text ++ t.after.bytes)

end BambooNet.JsonSyntax
