import BambooNet.Json.Parse

/-!
# Printing JSON
-/

namespace BambooNet.Json

/-- A hexadecimal digit in lower case. -/
def hexLower (d : ℕ) : UInt8 := UInt8.ofNat (if d < 10 then 0x30 + d else 0x57 + d)

def escapeByte (c : UInt8) : Bytes :=
  if c = quote then [backslash, quote]
  else if c = backslash then [backslash, backslash]
  else if c = 0x08 then [backslash, 0x62]
  else if c = 0x0c then [backslash, 0x66]
  else if c = 0x0a then [backslash, 0x6e]
  else if c = 0x0d then [backslash, 0x72]
  else if c = 0x09 then [backslash, 0x74]
  else if c < 0x20 then
    [backslash, 0x75, 0x30, 0x30, hexLower (c.toNat / 16), hexLower (c.toNat % 16)]
  else [c]

/-- A string as a JSON literal. -/
def escape (s : Bytes) : Bytes := [quote] ++ s.flatMap escapeByte ++ [quote]

mutual

def Value.dump : Value → Bytes
  | .null => ascii "null"
  | .bool b => if b then ascii "true" else ascii "false"
  | .number x => x.dump
  | .string s => escape s
  | .array vs => [lbracket] ++ dumpElements vs ++ [rbracket]
  | .object es => [lbrace] ++ dumpEntries es ++ [rbrace]

def dumpElements : List Value → Bytes
  | [] => []
  | [v] => v.dump
  | v :: vs => v.dump ++ [comma] ++ dumpElements vs

def dumpEntries : Object → Bytes
  | [] => []
  | [(k, v)] => escape k ++ [colon] ++ v.dump
  | (k, v) :: es => escape k ++ [colon] ++ v.dump ++ [comma] ++ dumpEntries es

end

theorem dumpElements_cons (v v' : Value) (vs : List Value) :
    dumpElements (v :: v' :: vs) = v.dump ++ comma :: dumpElements (v' :: vs) := by
  simp [dumpElements]

theorem dumpEntries_cons (k : Bytes) (v : Value) (e : Bytes × Value) (es : Object) :
    dumpEntries ((k, v) :: e :: es) =
      escape k ++ colon :: (v.dump ++ comma :: dumpEntries (e :: es)) := by
  simp [dumpEntries]

theorem dump_object (es : Object) :
    (Value.object es).dump = lbrace :: (dumpEntries es ++ [rbrace]) := by
  simp [Value.dump]

/-- All entries but the first are printed with a comma before them. -/
theorem dumpEntries_flatMap (k : Bytes) (v : Value) (es : Object) :
    dumpEntries ((k, v) :: es) = escape k ++ colon :: (v.dump ++
      es.flatMap fun e => comma :: (escape e.1 ++ colon :: e.2.dump)) := by
  induction es generalizing k v with
  | nil => simp [dumpEntries]
  | cons e es ih => simp [dumpEntries_cons, ih e.1 e.2]

/-- Without control characters only quotes and backslashes are escaped. -/
theorem escape_printable {s : Bytes} (h : ∀ c ∈ s, 0x20 ≤ c) :
    escape s = quote :: (s.flatMap (fun c => if c = backslash ∨ c = quote then [backslash, c]
      else [c]) ++ [quote]) := by
  have hbyte : s.flatMap escapeByte = s.flatMap fun c =>
      if c = backslash ∨ c = quote then [backslash, c] else [c] := by
    refine List.flatMap_congr fun c hc => ?_
    have hle := h c hc
    by_cases hb : c = backslash
    · subst hb
      rfl
    by_cases hq : c = quote
    · subst hq
      rfl
    have hne (d : UInt8) (hd : d < 0x20) : c ≠ d := fun heq => absurd hle (heq ▸ UInt8.not_le.2 hd)
    rw [escapeByte, if_neg hq, if_neg hb, if_neg (hne _ (by decide)), if_neg (hne _ (by decide)),
      if_neg (hne _ (by decide)), if_neg (hne _ (by decide)), if_neg (hne _ (by decide)),
      if_neg (UInt8.not_lt.2 hle), if_neg (not_or.2 ⟨hb, hq⟩)]
  rw [escape, hbyte]
  rfl

end BambooNet.Json
