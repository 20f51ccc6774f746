import BambooNet.Json.Value

/-!
# The JSON parser

`Parser` scans a text from left to right; here a scan takes what is left of the text and returns
what is left afterwards. A read past the end of the text and a loop or recursion that does not end
within its bound are faults of their own.
-/

namespace BambooNet.Json

/-- The reasons `parse` gives, and two faults that are none of them: a read past the end of the
text, and a bound on a loop or on the recursion that was too small. -/
inductive ParseError
  | expectedString
  | badEscape
  | badUnicode
  | badHex
  | badLowSurrogate
  | badEscapeChar
  | unterminated
  | numberRange
  | eof
  | tooDeep
  | expectedColon
  | expectedObjectEnd
  | expectedArrayEnd
  | badLiteral
  | unexpected
  | trailing
  | outside
  | unfinished
  deriving DecidableEq

def ParseError.text : ParseError → String
  | expectedString => "expected string"
  | badEscape => "bad escape"
  | badUnicode => "bad \\u escape"
  | badHex => "bad hex in \\u"
  | badLowSurrogate => "bad low surrogate"
  | badEscapeChar => "bad escape char"
  | unterminated => "unterminated string"
  | numberRange => "number range"
  | eof => "unexpected EOF"
  | tooDeep => "max nesting depth exceeded"
  | expectedColon => "expected ':'"
  | expectedObjectEnd => "expected ',' or '\x7d'"
  | expectedArrayEnd => "expected ',' or ']'"
  | badLiteral => "bad literal"
  | unexpected => "unexpected character"
  | trailing => "trailing characters"
  | outside | unfinished => ""

/-- What was scanned, and the rest of the text. -/
abbrev Parsed (α : Type) := Except ParseError (α × Bytes)

def kMaxNestingDepth : ℕ := 128

/-! ## Characters -/

abbrev quote : UInt8 := 0x22
abbrev backslash : UInt8 := 0x5c
abbrev comma : UInt8 := 0x2c
abbrev colon : UInt8 := 0x3a
abbrev lbrace : UInt8 := 0x7b
abbrev rbrace : UInt8 := 0x7d
abbrev lbracket : UInt8 := 0x5b
abbrev rbracket : UInt8 := 0x5d
abbrev minus : UInt8 := 0x2d
abbrev plus : UInt8 := 0x2b
abbrev dot : UInt8 := 0x2e

def isWs (c : UInt8) : Bool := c == 0x20 || c == 0x09 || c == 0x0a || c == 0x0d

def skipWs (p : Bytes) : Bytes := p.dropWhile isWs

/-! ## Strings -/

def hexDigit? (c : UInt8) : Option ℕ :=
  if 0x30 ≤ c ∧ c ≤ 0x39 then some (c.toNat - 0x30)
  else if 0x61 ≤ c ∧ c ≤ 0x66 then some (c.toNat - 0x61 + 10)
  else if 0x41 ≤ c ∧ c ≤ 0x46 then some (c.toNat - 0x41 + 10)
  else none

def hex4? (a b c d : UInt8) : Option ℕ :=
  match hexDigit? a, hexDigit? b, hexDigit? c, hexDigit? d with
  | some a, some b, some c, some d => some (((a * 16 + b) * 16 + c) * 16 + d)
  | _, _, _, _ => none

/-- The UTF-8 encoding of a code point. -/
def utf8 (cp : ℕ) : Bytes :=
  if cp < 0x80 then [UInt8.ofNat cp]
  else if cp < 0x800 then [UInt8.ofNat (0xc0 ||| cp >>> 6), UInt8.ofNat (0x80 ||| cp &&& 0x3f)]
  else if cp < 0x10000 then
    [UInt8.ofNat (0xe0 ||| cp >>> 12), UInt8.ofNat (0x80 ||| cp >>> 6 &&& 0x3f),
      UInt8.ofNat (0x80 ||| cp &&& 0x3f)]
  else
    [UInt8.ofNat (0xf0 ||| cp >>> 18), UInt8.ofNat (0x80 ||| cp >>> 12 &&& 0x3f),
      UInt8.ofNat (0x80 ||| cp >>> 6 &&& 0x3f), UInt8.ofNat (0x80 ||| cp &&& 0x3f)]

/-- A high surrogate joined with the low surrogate that follows, when there is one. -/
def joinSurrogate (cp : ℕ) (p : Bytes) : Parsed ℕ :=
  if 0xd800 ≤ cp ∧ cp ≤ 0xdbff ∧ 6 ≤ p.length ∧ p[0]? = some backslash ∧ p[1]? = some 0x75 then
    match p with
    | _ :: _ :: h₁ :: h₂ :: h₃ :: h₄ :: p' =>
      match hex4? h₁ h₂ h₃ h₄ with
      | none => .error .badLowSurrogate
      | some lo =>
        if 0xdc00 ≤ lo ∧ lo ≤ 0xdfff then
          .ok (0x10000 + (cp - 0xd800) * 1024 + (lo - 0xdc00), p')
        else .ok (cp, p)
    | _ => .error .outside
  else .ok (cp, p)

/-- What follows `\u`. -/
def unicodeEscape (p : Bytes) : Parsed Bytes :=
  if p.length < 4 then .error .badUnicode
  else
    match p with
    | h₁ :: h₂ :: h₃ :: h₄ :: p =>
      match hex4? h₁ h₂ h₃ h₄ with
      | none => .error .badHex
      | some cp =>
        match joinSurrogate cp p with
        | .error e => .error e
        | .ok (cp, p) => .ok (utf8 cp, p)
    | _ => .error .outside

def escapeChar? (e : UInt8) : Option UInt8 :=
  if e = quote ∨ e = backslash ∨ e = 0x2f then some e
  else if e = 0x62 then some 0x08
  else if e = 0x66 then some 0x0c
  else if e = 0x6e then some 0x0a
  else if e = 0x72 then some 0x0d
  else if e = 0x74 then some 0x09
  else none

/-- What follows the opening quote. -/
def stringBody : ℕ → Bytes → Parsed Bytes
  | 0, _ => .error .unfinished
  | _ + 1, [] => .error .unterminated
  | fuel + 1, c :: p =>
    if c = quote then .ok ([], p)
    else if c = backslash then
      match p with
      | [] => .error .badEscape
      | e :: p =>
        if e = 0x75 then
          match unicodeEscape p with
          | .error err => .error err
          | .ok (s, p) => (stringBody fuel p).map fun r => (s ++ r.1, r.2)
        else
          match escapeChar? e with
          | none => .error .badEscapeChar
          | some s => (stringBody fuel p).map fun r => (s :: r.1, r.2)
    else (stringBody fuel p).map fun r => (c :: r.1, r.2)

def parseString (p : Bytes) : Parsed Bytes :=
  match p with
  | [] => .error .expectedString
  | c :: p => if c = quote then stringBody (p.length + 1) p else .error .expectedString

/-! ## Numbers -/

/-- The parts of a number: sign, integer digits, fraction digits, exponent. -/
structure NumberText where
  neg : Bool
  int : Bytes
  frac : Bytes
  expNeg : Bool
  exp : Bytes

/-- `std::stod`: it needs a digit before the exponent, and the value must be in range. -/
def NumberText.toDouble (t : NumberText) : Option Double :=
  if t.int = [] ∧ t.frac = [] then none
  else
    let e : ℤ := (if t.expNeg then -(natOf t.exp : ℤ) else natOf t.exp) - t.frac.length
    Double.ofRatio t.neg (natOf (t.int ++ t.frac) * 10 ^ e.toNat) (10 ^ (-e).toNat)

/-- The digits that come next. -/
def scanDigits (p : Bytes) : Bytes × Bytes := (p.takeWhile isDigit, p.dropWhile isDigit)

def scanFrac (p : Bytes) : Bytes × Bytes :=
  match p with
  | c :: p' => if c = dot then scanDigits p' else ([], p)
  | [] => ([], p)

/-- The sign of the exponent. -/
def scanSign (p : Bytes) : Bool × Bytes :=
  match p with
  | c :: p' => if c = minus then (true, p') else if c = plus then (false, p') else (false, p)
  | [] => (false, p)

def scanExp (p : Bytes) : Bool × Bytes × Bytes :=
  match p with
  | c :: p' =>
    if c = 0x65 ∨ c = 0x45 then
      let (neg, p') := scanSign p'
      (neg, scanDigits p')
    else (false, [], p)
  | [] => (false, [], p)

def scanNumber (p : Bytes) : Parsed NumberText :=
  match p with
  | [] => .error .outside
  | c :: p' =>
    let (int, p) := scanDigits (if c = minus then p' else c :: p')
    let (frac, p) := scanFrac p
    let (expNeg, exp, p) := scanExp p
    .ok (⟨c == minus, int, frac, expNeg, exp⟩, p)

/-- A number that begins with a digit or a minus sign. -/
def parseNumber (p : Bytes) : Parsed Double :=
  match scanNumber p with
  | .error e => .error e
  | .ok (t, p) =>
    match t.toDouble with
    | none => .error .numberRange
    | some x => .ok (x, p)

/-! ## Values -/

/-- `std::map::emplace`: a key that is there keeps its value. -/
def emplace (key : Bytes) (v : Value) (obj : Object) : Object :=
  if (Entries.get? key obj).isSome then obj else Entries.insert key v obj

theorem sorted_emplace {obj : Object} (h : Entries.Sorted obj) (key : Bytes) (v : Value) :
    Entries.Sorted (emplace key v obj) := by
  rw [emplace]
  split
  · exact h
  · exact h.insert key v

theorem get?_emplace (key k : Bytes) (v : Value) (obj : Object) :
    Entries.get? k (emplace key v obj) =
      (Entries.get? k obj).or (if k = key then some v else none) := by
  rw [emplace]
  split
  · next hsome =>
    by_cases hk : k = key
    · obtain ⟨w, hw⟩ := Option.isSome_iff_exists.1 hsome
      simp [hk, hw]
    · simp [hk]
  · next hnone =>
    rw [Entries.get?_insert]
    by_cases hk : k = key
    · simp [hk, Option.not_isSome_iff_eq_none.1 hnone]
    · simp [hk]

theorem mem_emplace {key : Bytes} {v : Value} {obj : Object} {e : Bytes × Value}
    (h : e ∈ emplace key v obj) : e = (key, v) ∨ e ∈ obj := by
  rw [emplace] at h
  split at h
  · exact .inr h
  · exact Entries.mem_insert h

def parseLiteral (lit : Bytes) (v : Value) (p : Bytes) : Parsed Value :=
  if lit <+: p then .ok (v, p.drop lit.length) else .error .badLiteral

/-- The members of an object, `value` parsing their values. -/
def members (value : Bytes → Parsed Value) : ℕ → Object → Bytes → Parsed Object
  | 0, _, _ => .error .unfinished
  | fuel + 1, obj, p =>
    match parseString (skipWs p) with
    | .error e => .error e
    | .ok (key, p) =>
      match skipWs p with
      | [] => .error .expectedColon
      | c :: p =>
        if c ≠ colon then .error .expectedColon
        else
          match value p with
          | .error e => .error e
          | .ok (v, p) =>
            let obj := emplace key v obj
            match skipWs p with
            | [] => .error .expectedObjectEnd
            | c :: p =>
              if c = comma then members value fuel obj p
              else if c = rbrace then .ok (obj, p)
              else .error .expectedObjectEnd

def parseObject (value : Bytes → Parsed Value) (p : Bytes) : Parsed Object :=
  match skipWs p with
  | [] => members value (p.length + 1) [] []
  | c :: p' => if c = rbrace then .ok ([], p') else members value (p.length + 1) [] (c :: p')

/-- The elements of an array. -/
def elements (value : Bytes → Parsed Value) : ℕ → List Value → Bytes → Parsed (List Value)
  | 0, _, _ => .error .unfinished
  | fuel + 1, vs, p =>
    match value p with
    | .error e => .error e
    | .ok (v, p) =>
      let vs := vs ++ [v]
      match skipWs p with
      | [] => .error .expectedArrayEnd
      | c :: p =>
        if c = comma then elements value fuel vs p
        else if c = rbracket then .ok (vs, p)
        else .error .expectedArrayEnd

def parseArray (value : Bytes → Parsed Value) (p : Bytes) : Parsed (List Value) :=
  match skipWs p with
  | [] => elements value (p.length + 1) [] []
  | c :: p' => if c = rbracket then .ok ([], p') else elements value (p.length + 1) [] (c :: p')

/-- A value at nesting depth `depth`, `value` parsing the values inside it. -/
def valueWith (depth : ℕ) (value : Bytes → Parsed Value) (p : Bytes) : Parsed Value :=
  match skipWs p with
  | [] => .error .eof
  | c :: p =>
    if c = quote then (parseString (c :: p)).map fun r => (.string r.1, r.2)
    else if c = lbrace ∨ c = lbracket then
      if depth ≥ kMaxNestingDepth then .error .tooDeep
      else if c = lbrace then (parseObject value p).map fun r => (.object r.1, r.2)
      else (parseArray value p).map fun r => (.array r.1, r.2)
    else if c = 0x74 then parseLiteral (ascii "true") (.bool true) (c :: p)
    else if c = 0x66 then parseLiteral (ascii "false") (.bool false) (c :: p)
    else if c = 0x6e then parseLiteral (ascii "null") .null (c :: p)
    else if c = minus ∨ isDigit c then (parseNumber (c :: p)).map fun r => (.number r.1, r.2)
    else .error .unexpected

/-- `parse_value` at nesting depth `depth`, `frames` being the calls of it that may be active. -/
def parseValue : ℕ → ℕ → Bytes → Parsed Value
  | 0, _, _ => .error .unfinished
  | frames + 1, depth, p => valueWith depth (parseValue frames (depth + 1)) p

/-- A call of `parse_value` for every level of nesting is enough. -/
def parse (text : Bytes) : Except ParseError Value :=
  match parseValue (kMaxNestingDepth + 1) 0 (skipWs text) with
  | .error e => .error e
  | .ok (v, p) => if skipWs p = [] then .ok v else .error .trailing

end BambooNet.Json
