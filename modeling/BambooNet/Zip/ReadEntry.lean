import BambooNet.Lib.Checked

/-!
# One entry of a ZIP archive

`read_entry` looks for the end-of-central-directory record from the end of the file, walks the
central directory up to the name, and reads the data behind the local header. What it reads of its
own buffers is checked here; `readAt` fails where the file is too short, as the source's does.
What it uses of zlib is a parameter (`Zlib`).
-/

namespace BambooNet.Zip

open Checked

def kEocdSig : ℕ := 0x06054b50
def kCentralSig : ℕ := 0x02014b50
def kLocalSig : ℕ := 0x04034b50
def kEocdLen : ℕ := 22
def kCentralLen : ℕ := 46
def kLocalLen : ℕ := 30
def kMaxComment : ℕ := 0xffff
def kMaxCentralDir : ℕ := 16 <<< 20
def kMaxPacked : ℕ := 16 <<< 20

/-- The outcome of a step, with the reason of a failure. -/
abbrev Step (α : Type) := Except (Stop Bytes) α

def le16 (p : Bytes) (i : ℕ) : Step ℕ := readLe 2 p i

def le32 (p : Bytes) (i : ℕ) : Step ℕ := readLe 4 p i

/-- What is used of zlib: the checksum of a buffer, and what one call of `inflate` with room for so
many bytes writes when it comes to the end of the stream. -/
structure Zlib where
  crc32 : Bytes → UInt32
  inflate : Bytes → ℕ → Option Bytes

/-- `a - b` on `size_t`, which wraps around. -/
def sizeSub (a b : ℕ) : ℕ := (a + 2 ^ 64 - b) % 2 ^ 64

def readAt (f : Bytes) (off n : ℕ) : Option Bytes := if n = 0 then some [] else readBytes f off n

def inflateRaw (z : Zlib) (packed : Bytes) (n : ℕ) : Option Bytes :=
  match z.inflate packed n with
  | none => none
  | some written => if written.length = n then some written else none

/-! ## The end record -/

structure Eocd where
  /-- Where the record starts in the file. -/
  off : ℕ
  disk : ℕ
  cdDisk : ℕ
  onDisk : ℕ
  entries : ℕ
  cdSize : ℕ
  cdOff : ℕ
  deriving DecidableEq

/-- The last place below `n` with the signature and a comment that runs to the end. -/
def findEocd (tail : Bytes) : ℕ → Step (Option ℕ)
  | 0 => .ok none
  | i + 1 => do
    let sig ← le32 tail i
    if sig = kEocdSig then
      let comment ← le16 tail (i + 20)
      if i + kEocdLen + comment = tail.length then .ok (some i) else findEocd tail i
    else findEocd tail i

def readEocd (f : Bytes) : Step Eocd := do
  failIf (f.length < kEocdLen) (ascii "not a zip archive")
  let tailLen := min f.length (kEocdLen + kMaxComment)
  let tail ← orFail (readAt f (f.length - tailLen) tailLen) (ascii "read failed")
  let found ← findEocd tail (tailLen - kEocdLen + 1)
  let e ← orFail found (ascii "no end of central directory record")
  let disk ← le16 tail (e + 4)
  let cdDisk ← le16 tail (e + 6)
  let onDisk ← le16 tail (e + 8)
  let entries ← le16 tail (e + 10)
  let cdSize ← le32 tail (e + 12)
  let cdOff ← le32 tail (e + 16)
  .ok ⟨f.length - tailLen + e, disk, cdDisk, onDisk, entries, cdSize, cdOff⟩

/-- The central directory, of an archive that the reader takes. -/
def readDirectory (f : Bytes) (e : Eocd) : Step Bytes := do
  failIf (e.entries = 0xffff ∨ e.cdSize = 0xffffffff ∨ e.cdOff = 0xffffffff) (ascii "zip64 archive")
  failIf (e.disk ≠ 0 ∨ e.cdDisk ≠ 0 ∨ e.onDisk ≠ e.entries) (ascii "multi-disk archive")
  failIf (e.cdOff + e.cdSize > e.off ∨ e.cdSize > kMaxCentralDir)
    (ascii "central directory out of bounds")
  orFail (readAt f e.cdOff e.cdSize) (ascii "read failed")

/-! ## The central directory -/

structure Central where
  flags : ℕ
  method : ℕ
  crc : ℕ
  csize : ℕ
  usize : ℕ
  loff : ℕ
  /-- The length of the record. -/
  len : ℕ
  hit : Bool
  deriving DecidableEq

/-- The comparison of the stored name, `nlen` bytes, with `name`. -/
def isHit (cd : Bytes) (pos nlen : ℕ) (name : Bytes) : Step Bool :=
  if nlen = name.length then do
    let stored ← readSlice nlen cd (pos + kCentralLen)
    .ok (stored == name)
  else .ok false

def readCentral (cd : Bytes) (pos : ℕ) (name : Bytes) : Step Central := do
  failIf (sizeSub cd.length pos < kCentralLen) (ascii "bad central directory entry")
  let sig ← le32 cd pos
  failIf (sig ≠ kCentralSig) (ascii "bad central directory entry")
  let flags ← le16 cd (pos + 8)
  let method ← le16 cd (pos + 10)
  let crc ← le32 cd (pos + 16)
  let csize ← le32 cd (pos + 20)
  let usize ← le32 cd (pos + 24)
  let nlen ← le16 cd (pos + 28)
  let xlen ← le16 cd (pos + 30)
  let clen ← le16 cd (pos + 32)
  let loff ← le32 cd (pos + 42)
  let len := kCentralLen + nlen + xlen + clen
  failIf (sizeSub cd.length pos < len) (ascii "bad central directory entry")
  let hit ← isHit cd pos nlen name
  .ok ⟨flags, method, crc, csize, usize, loff, len, hit⟩

/-! ## The data -/

/-- Where the data is, behind the local header. -/
def dataOffset (f : Bytes) (loff : ℕ) : Step ℕ := do
  let lh ← orFail (readAt f loff kLocalLen) (ascii "bad local header")
  let sig ← le32 lh 0
  failIf (sig ≠ kLocalSig) (ascii "bad local header")
  let nlen ← le16 lh 26
  let xlen ← le16 lh 28
  .ok (loff + kLocalLen + nlen + xlen)

def unpack (z : Zlib) (packed : Bytes) (c : Central) : Step Bytes :=
  if c.method = 0 then .ok packed
  else orFail (inflateRaw z packed c.usize) (ascii "inflate failed")

def extract (z : Zlib) (f : Bytes) (cdOff maxSize : ℕ) (c : Central) :
    Step Bytes := do
  failIf (c.flags &&& 1 ≠ 0) (ascii "encrypted entry")
  failIf (c.csize = 0xffffffff ∨ c.usize = 0xffffffff ∨ c.loff = 0xffffffff) (ascii "zip64 entry")
  failIf (c.usize > maxSize) (ascii "entry too large")
  failIf (c.method ≠ 0 ∧ c.method ≠ 8) (ascii "unsupported compression method")
  failIf (if c.method = 0 then c.csize ≠ c.usize else c.csize > kMaxPacked)
    (ascii "bad entry sizes")
  let dataOff ← dataOffset f c.loff
  failIf (dataOff + c.csize > cdOff) (ascii "entry data out of bounds")
  let packed ← orFail (readAt f dataOff c.csize) (ascii "read failed")
  let data ← unpack z packed c
  failIf ((z.crc32 data).toNat ≠ c.crc) (ascii "crc mismatch")
  .ok data

/-- The loop over `n` records from `pos` on. -/
def walk (z : Zlib) (f cd : Bytes) (cdOff : ℕ) (name : Bytes)
    (maxSize : ℕ) : ℕ → ℕ → Step Bytes
  | 0, _ => .error (.fail (ascii "entry not found"))
  | n + 1, pos => do
    let c ← readCentral cd pos name
    if c.hit then extract z f cdOff maxSize c
    else walk z f cd cdOff name maxSize n (pos + c.len)

/-- The content of the entry `name`. -/
def readContent (z : Zlib) (f name : Bytes) (maxSize : ℕ) :
    Step Bytes := do
  let e ← readEocd f
  let cd ← readDirectory f e
  walk z f cd e.cdOff name maxSize e.entries 0

/-- What a call returns and leaves behind its two pointers, of which any may be null. -/
structure Result where
  ok : Bool
  out : Option Bytes
  err : Option Bytes
  deriving DecidableEq

/-- `none` when a read is outside its buffer. -/
def readEntry (z : Zlib) (file : Option Bytes) (name : Bytes)
    (maxSize : ℕ) (out err : Option Bytes) : Option Result :=
  match out with
  | none => some ⟨false, out, err.map fun _ => ascii "no output buffer"⟩
  | some _ =>
    match file with
    | none => some ⟨false, out, err.map fun _ => ascii "cannot open archive"⟩
    | some f =>
      match readContent z f name maxSize with
      | .ok data => some ⟨true, some data, err⟩
      | .error (.fail why) => some ⟨false, out, err.map fun _ => why⟩
      | .error .outside => none

end BambooNet.Zip
