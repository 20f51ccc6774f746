import BambooNet.Json.Dump
import Mathlib.Data.List.Infix

/-!
# The signing envelope

`maybe_sign` wraps a command in a header that carries the signature of the command's text. The
signature is `pkey`, a function of the text; the encryption of a field is a parameter as well,
since its padding is random.
-/

namespace BambooNet.Signing

open Json

/-! ## Base64 -/

def kB64Tbl : Bytes := ascii "ABCDEFGHIJKLMNOPQRSTUVWXYZabcdefghijklmnopqrstuvwxyz0123456789+/"

/-- The character of six bits. -/
def b64Char (w : ℕ) : UInt8 := kB64Tbl.getD (w &&& 63) 0x3d

def base64Encode : Bytes → Bytes
  | [] => []
  | [a] =>
    let w := a.toNat <<< 16
    [b64Char (w >>> 18), b64Char (w >>> 12), 0x3d, 0x3d]
  | [a, b] =>
    let w := a.toNat <<< 16 ||| b.toNat <<< 8
    [b64Char (w >>> 18), b64Char (w >>> 12), b64Char (w >>> 6), 0x3d]
  | a :: b :: c :: data =>
    let w := a.toNat <<< 16 ||| b.toNat <<< 8 ||| c.toNat
    b64Char (w >>> 18) :: b64Char (w >>> 12) :: b64Char (w >>> 6) :: b64Char w :: base64Encode data

/-! ## Field encryption -/

/-- The public key of a printer: the size of a block in bytes, and the encryption of the `i`-th
block of a text, `none` when it fails. -/
structure DeviceKey where
  size : ℕ
  encrypt : ℕ → Bytes → Option Bytes

/-- The blocks are encrypted one by one, at least one of them; empty when that fails. -/
def rsaPkcs1v15EncryptB64 (pub : DeviceKey) (plaintext : Bytes) : Bytes :=
  if pub.size ≤ 11 then []
  else
    let maxChunk := pub.size - 11
    let blocks := max 1 ((plaintext.length + maxChunk - 1) / maxChunk)
    let chunk (i : ℕ) := (plaintext.drop (i * maxChunk)).take maxChunk
    match (List.range blocks).mapM fun i => pub.encrypt i (chunk i) with
    | none => []
    | some out => base64Encode out.flatten

/-- The one field that a command carries encrypted. -/
def encryptedFieldFor (obj : Object) : Option Bytes :=
  match Entries.get? (ascii "command") obj with
  | some (.string c) =>
    if c = ascii "project_file" then some (ascii "url")
    else if c = ascii "gcode_line" then some (ascii "param")
    else if c = ascii "prepare" then some (ascii "ttcode")
    else none
  | _ => none

/-- Add the encrypted field; the cleartext stays only in developer mode. -/
def encryptPrintFields (device : Option DeviceKey) (developer : Bool) (obj : Object) : Object :=
  match encryptedFieldFor obj with
  | none => obj
  | some field =>
    let encKey := field ++ ascii "_enc"
    match Entries.get? field obj, device with
    | some (.string clear), some pub =>
      let enc := rsaPkcs1v15EncryptB64 pub clear
      if (Entries.get? encKey obj).isSome ∨ enc = [] then obj
      else
        let obj := Entries.insert encKey (.string enc) obj
        if developer then obj else Entries.erase field obj
    | _, _ => obj

/-! ## The envelope -/

/-- The slicer's key, as the signature it gives, and the identity of its certificate, which is
printed without control characters. -/
structure Signer where
  pkey : Option (Bytes → Bytes)
  certId : Bytes
  printable : ∀ c ∈ certId, 0x20 ≤ c

def kSignAlg : Bytes := ascii "RSA_SHA256"

def kSignVer : Bytes := ascii "v1.0"

/-- The first key of a payload that is to be signed: `print`, or `liveview` of a prepare command. -/
def signableRootKey (payload : Bytes) : Option Bytes :=
  match skipWs payload with
  | [] => none
  | c :: p =>
    if c ≠ lbrace then none
    else
      match skipWs p with
      | [] => none
      | c :: p =>
        if c ≠ quote then none
        else
          let key := p.takeWhile (· ≠ quote)
          if key.length = p.length then none
          else if key = ascii "print" then some key
          else if key = ascii "liveview" ∧ ascii "\"prepare\"" <:+: payload then some key
          else none

def buildCommandDump (root payload : Bytes) (device : Option DeviceKey) (developer : Bool) :
    Option Bytes :=
  match parse payload with
  | .error _ => none
  | .ok v =>
    match v.find root with
    | .object obj => some (Value.object (encryptPrintFields device developer obj)).dump
    | _ => none

/-- The members beside the root, each with a comma before it. -/
def siblings (root payload : Bytes) : Bytes :=
  match parse payload with
  | .ok (.object es) => es.flatMap fun e =>
      if e.1 = root then []
      else ascii "," ++ (Value.string e.1).dump ++ ascii ":" ++ e.2.dump
  | _ => []

def jsonStrEscape (s : Bytes) : Bytes :=
  s.flatMap fun c => if c = backslash ∨ c = quote then [backslash, c] else [c]

def buildEnvelope (signer : Signer) (toSign sigB64 root dump : Bytes) : Bytes :=
  ascii "\x7b\"header\":\x7b\"cert_id\":\"" ++ jsonStrEscape signer.certId ++
    ascii "\",\"payload_len\":" ++ decimal toSign.length ++
    ascii ",\"sign_alg\":\"" ++ kSignAlg ++
    ascii "\",\"sign_string\":\"" ++ jsonStrEscape sigB64 ++
    ascii "\",\"sign_ver\":\"" ++ kSignVer ++
    ascii "\"\x7d,\"" ++ root ++ ascii "\":" ++ dump ++ ascii "\x7d"

def maybeSign (signer : Signer) (device : Option DeviceKey) (developer : Bool) (payload : Bytes) :
    Bytes :=
  match signableRootKey payload, signer.pkey with
  | some root, some sign =>
    match buildCommandDump root payload device developer with
    | none => payload
    | some dump =>
      let body := dump ++ siblings root payload
      let toSign := ascii "\x7b\"" ++ root ++ ascii "\":" ++ body ++ ascii "\x7d"
      buildEnvelope signer toSign (base64Encode (sign toSign)) root body
  | _, _ => payload

end BambooNet.Signing
