import BambooNet.Ftps.Control
import BambooNet.Lib.CString

/-!
# A session with an FTP server

The operations of the client on one session, and the replies of a server to the command lines it
receives. The server answers a transfer command with a preliminary reply and, when the data
connection has ended, with a final one. What the network, the data connection and the caller do in
an operation are inputs of it (`Outside`).
-/

namespace BambooNet.Ftps

open CString (isSpace)

/-! ## The server -/

/-- How a command is answered: at once, or around a transfer. -/
inductive Response
  | final (r : Reply)
  | transfer (preliminary fin : Reply)

def Response.first : Response → Reply
  | .final r => r
  | .transfer preliminary _ => preliminary

/-- The final reply that is still to come after the first one. -/
def Response.pending : Response → Option Reply
  | .final _ => none
  | .transfer _ fin => some fin

def isTransfer (cmd : Bytes) : Bool :=
  ascii "STOR " <+: cmd || ascii "RETR " <+: cmd || cmd = ascii "LIST" || ascii "LIST " <+: cmd

/-- The answers of a server that keeps to the protocol. -/
structure Service where
  respond : Bytes → Response
  final_code : ∀ cmd r, respond cmd = .final r → 200 ≤ r.code
  preliminary_code : ∀ cmd preliminary fin, respond cmd = .transfer preliminary fin →
    preliminary.code = 150 ∨ preliminary.code = 125
  transfers : ∀ cmd preliminary fin, respond cmd = .transfer preliminary fin →
    isTransfer cmd = true

/-- The command lines in what a client sent, each ended by CR LF. -/
def commands : Bytes → List Bytes
  | [] => []
  | [c] => [[c]]
  | c :: d :: t =>
    if c = cr ∧ d = newline then [] :: commands t
    else
      match commands (d :: t) with
      | [] => [[c]]
      | l :: ls => (c :: l) :: ls

/-- The server works on its command lines up to the first that starts a transfer. -/
def serve (σ : Service) : List Bytes → Bytes × List Bytes × Option Reply
  | [] => ([], [], none)
  | cmd :: cmds =>
    match σ.respond cmd with
    | .final r =>
      let (out, rest) := serve σ cmds
      (r.bytes ++ out, rest)
    | .transfer preliminary fin => (preliminary.bytes, cmds, some fin)

/-! ## The session -/

/-- One call of `send_cmd`. -/
structure Exchange where
  cmd : Bytes
  /-- What of earlier replies was still unread. -/
  stale : Bytes
  /-- The server's reply to this very command. -/
  answer : Reply
  /-- What the call returned, if it returned a reply. -/
  got : Option (ℕ × Bytes)

structure State where
  ctrlBuf : Bytes := []
  /-- What the server sent and no read took. -/
  wire : Bytes := []
  /-- Command lines that wait for a transfer to end. -/
  todo : List Bytes := []
  /-- The final reply of the transfer under way. -/
  busy : Option Reply := none
  /-- The connection is gone. -/
  lost : Bool := false
  /-- The calls of `send_cmd` so far. The client keeps no such list. -/
  log : List Exchange := []

def State.unread (s : State) : Bytes := s.ctrlBuf ++ s.wire

def State.receive (σ : Service) (cmds : List Bytes) (s : State) : State :=
  if s.busy.isSome then { s with todo := s.todo ++ cmds }
  else
    let (out, todo, busy) := serve σ (s.todo ++ cmds)
    { s with wire := s.wire ++ out, todo, busy }

/-- The client closes the data socket, and the server ends the transfer, if there is one. -/
def State.closeData (σ : Service) (s : State) : State :=
  match s.busy with
  | none => s
  | some fin =>
    let (out, todo, busy) := serve σ s.todo
    { s with wire := s.wire ++ fin.bytes ++ out, todo, busy }

/-! ## The control channel -/

/-- What the network does with one command and its reply. -/
structure Ctrl where
  /-- The command is written. -/
  sends : Bool := true
  size : ℕ → ℕ := fun _ => 512
  /-- How many bytes arrive before a read gives up. Without a number all do. -/
  avail : Option ℕ := none

def State.readReply (io : Ctrl) (s : State) : Option (ℕ × Bytes) × State :=
  let n := if s.lost then 0 else io.avail.getD s.wire.length
  let (r, c) := Ftps.readReply io.size { buf := s.ctrlBuf, wire := s.wire.take n }
  (r, { s with ctrlBuf := c.buf, wire := c.wire ++ s.wire.drop n })

def crlf : Bytes := [cr, newline]

/-- `send_cmd`, which returns the code and the text of the reply. -/
def sendCmd (σ : Service) (io : Ctrl) (cmd : Bytes) (s : State) : Option (ℕ × Bytes) × State :=
  let stale := s.unread
  let (got, s) :=
    if s.lost ∨ io.sends = false then (none, s)
    else (s.receive σ (commands (cmd ++ crlf))).readReply io
  (got, { s with log := ⟨cmd, stale, (σ.respond cmd).first, got⟩ :: s.log })

/-- The code of a reply, and minus one where there is none. -/
def codeOf (r : Option (ℕ × Bytes)) : ℤ := (r.map fun e => (e.1 : ℤ)).getD (-1)

def bodyOf (r : Option (ℕ × Bytes)) : Bytes := (r.map (·.2)).getD []

/-! ## The data connection -/

/-- What happens outside of the client in one operation. -/
structure Outside where
  σ : Service
  /-- The first, second and third reply of the operation. -/
  ctrl : ℕ → Ctrl := fun _ => {}
  /-- The error of `connect_tcp`, if any. -/
  tcp : Option Bytes := none
  /-- The error of the TLS handshake, if any. -/
  tls : Option Bytes := none
  /-- What the reads of the data connection return. The empty string is the end of the data. -/
  reads : List Bytes := []
  /-- The error that ends the reads, and none at the end of the data. -/
  readError : Option Bytes := none
  /-- The local file, or the error of opening it. -/
  file : Except Bytes Bytes := .ok []
  /-- The error of the write of a piece, if any. -/
  writeError : ℕ → Option Bytes := fun _ => none
  tlsShutdownOk : Bool := true
  /-- The connection is lost in this operation. -/
  lost : Bool := false

def pasvField (s : Bytes) : Option (ℕ × Bytes) :=
  let s := s.dropWhile (· = space)
  let digits := (s.take 3).takeWhile isDigit
  if digits = [] ∨ 255 < natOf digits then none
  else some (natOf digits, (s.drop digits.length).dropWhile (· = space))

/-- Fields between commas. -/
def pasvFields : ℕ → Bytes → Option (List ℕ × Bytes)
  | 0, s => some ([], s)
  | n + 1, s =>
    match pasvField s with
    | none => none
    | some (v, s) =>
      if n = 0 then some ([v], s)
      else
        match s with
        | [] => none
        | c :: s => if c = 0x2c then (pasvFields n s).map fun e => (v :: e.1, e.2) else none

/-- The octets and the port of a reply to `PASV`. -/
def parsePasvReply (body : Bytes) : Option (List ℕ × ℕ) :=
  match body.dropWhile (· ≠ 0x28) with
  | [] => none
  | _ :: s =>
    if 0x29 ∉ s then none
    else
      match pasvFields 6 (s.takeWhile (· ≠ 0x29)) with
      | some (f, []) =>
        let port := f.getD 4 0 * 256 + f.getD 5 0
        if port = 0 then none else some (f.take 4, port)
      | _ => none

/-- The error, if there is one. -/
def openDataTcp (o : Outside) (s : State) : Option Bytes × State :=
  let (r, s) := sendCmd o.σ (o.ctrl 0) (ascii "PASV") s
  if codeOf r ≠ 227 then (some (ascii "PASV rejected: code=" ++ decimalInt (codeOf r)), s)
  else
    match parsePasvReply (bodyOf r) with
    | none => (some (ascii "PASV bad reply: " ++ bodyOf r), s)
    | some _ => (o.tcp.map (ascii "data tcp: " ++ ·), s)

/-- What the four transfers begin with: the data connection, the command `cmd` and the handshake.
An error has closed the data socket. -/
def beginTransfer (useTls : Bool) (o : Outside) (name cmd : Bytes) (s : State) :
    Option Bytes × State :=
  match openDataTcp o s with
  | (some err, s) => (some err, s)
  | (none, s) =>
    let (r, s) := sendCmd o.σ (o.ctrl 1) cmd s
    if codeOf r ≠ 150 ∧ codeOf r ≠ 125 then
      (some (name ++ ascii " rejected: code=" ++ decimalInt (codeOf r)), s.closeData o.σ)
    else if useTls then
      match o.tls with
      | some err => (some err, s.closeData o.σ)
      | none => (none, s)
    else (none, s)

/-- The final reply, after the data socket is closed. -/
def endTransfer (o : Outside) (s : State) : Option (ℕ × Bytes) × State :=
  (s.closeData o.σ).readReply (o.ctrl 2)

/-! ## The operations

Each returns its error, if there is one, and what else it hands to the caller.
-/

/-- `strtoull` in base ten. -/
def strtoull (s : Bytes) : Option ℕ :=
  let s := s.dropWhile isSpace
  let neg := s.head? = some 0x2d
  let s := if neg ∨ s.head? = some 0x2b then s.tail else s
  let digits := s.takeWhile isDigit
  if digits = [] then none
  else if 2 ^ 64 ≤ natOf digits then some (2 ^ 64 - 1)
  else if neg then some ((2 ^ 64 - natOf digits) % 2 ^ 64)
  else some (natOf digits)

def size (o : Outside) (remotePath : Bytes) (s : State) : (Option Bytes × ℕ) × State :=
  let (r, s) := sendCmd o.σ (o.ctrl 0) (ascii "SIZE " ++ remotePath) s
  if codeOf r ≠ 213 then ((some (ascii "SIZE code=" ++ decimalInt (codeOf r)), 0), s)
  else
    let text := (bodyOf r).takeWhile (· ≠ 0)
    let text := (text.dropWhile fun c => !isDigit c).dropWhile isDigit
    match strtoull (text.dropWhile fun c => c = space || c = 0x09) with
    | none => ((some (ascii "SIZE parse: " ++ bodyOf r), 0), s)
    | some v => ((none, v), s)

def dele (o : Outside) (remotePath : Bytes) (s : State) : Option Bytes × State :=
  let (r, s) := sendCmd o.σ (o.ctrl 0) (ascii "DELE " ++ remotePath) s
  if codeOf r ≠ 250 ∧ codeOf r ≠ 200 then (some (ascii "DELE code=" ++ decimalInt (codeOf r)), s)
  else (none, s)

def cwd (o : Outside) (path : Bytes) (s : State) : Option Bytes × State :=
  let (r, s) := sendCmd o.σ (o.ctrl 0) (ascii "CWD " ++ path) s
  if codeOf r = 250 ∨ codeOf r = 200 then (none, s)
  else (some (ascii "CWD " ++ path ++ ascii " code=" ++ decimalInt (codeOf r)), s)

def listCmd (path : Bytes) : Bytes :=
  if path = [] then ascii "LIST" else ascii "LIST " ++ path

/-- What a listing reads. An error of a read ends it like the end of the data. -/
def Outside.listing (o : Outside) : Bytes := (o.reads.takeWhile (· ≠ [])).flatten

def list (useTls : Bool) (o : Outside) (path : Bytes) (s : State) :
    (Option Bytes × Bytes) × State :=
  match beginTransfer useTls o (ascii "LIST") (listCmd path) s with
  | (some err, s) => ((some err, []), s)
  | (none, s) =>
    let (r, s) := endTransfer o s
    if codeOf r ≠ 226 ∧ codeOf r ≠ 250 then
      ((some (ascii "LIST finish code=" ++ decimalInt (codeOf r)), []), s)
    else ((none, o.listing), s)

/-- The lines that are parsed as entries. -/
def listEntries (useTls : Bool) (o : Outside) (path : Bytes) (s : State) :
    (Option Bytes × List Bytes) × State :=
  match beginTransfer useTls o (ascii "LIST") (listCmd path) s with
  | (some err, s) => ((some err, []), s)
  | (none, s) =>
    let (r, s) := endTransfer o s
    if codeOf r ≠ 226 ∧ codeOf r ≠ 250 then
      ((some (ascii "LIST finish code=" ++ decimalInt (codeOf r)), []), s)
    else ((none, ((splitLines newline o.listing).map stripCr).filter (· ≠ [])), s)

/-- The loop of `retr`: what the sink got, and why it was aborted. The sink sees all chunks so
far. -/
def retrLoop (readError : Option Bytes) (sink : List Bytes → Bool) :
    List Bytes → List Bytes → List Bytes × Option Bytes
  | seen, [] => (seen, readError.map (ascii "data read: " ++ ·))
  | seen, c :: cs =>
    if c = [] then (seen, none)
    else if sink (seen ++ [c]) then retrLoop readError sink (seen ++ [c]) cs
    else (seen ++ [c], some (ascii "download cancelled"))

def retr (useTls : Bool) (o : Outside) (remotePath : Bytes) (sink : List Bytes → Bool)
    (s : State) : (Option Bytes × List Bytes) × State :=
  match beginTransfer useTls o (ascii "RETR") (ascii "RETR " ++ remotePath) s with
  | (some err, s) => ((some err, []), s)
  | (none, s) =>
    let (seen, aborted) := retrLoop o.readError sink [] o.reads
    let (r, s) := endTransfer o s
    if aborted.isSome then ((aborted, seen), s)
    else if codeOf r ≠ 226 ∧ codeOf r ≠ 250 then
      ((some (ascii "RETR finish code=" ++ decimalInt (codeOf r) ++ ascii ": " ++ bodyOf r),
        seen), s)
    else ((none, seen), s)

/-- The sizes of the pieces that a file is sent in. -/
def pieceSizes (total : ℕ) : List ℕ :=
  List.replicate (total / 65536) 65536 ++ if total % 65536 = 0 then [] else [total % 65536]

/-- The loop of `stor`: why it was left early, and the number of bytes sent. Progress is reported
for whole percents. -/
def storLoop (writeError : ℕ → Option Bytes) (progress : Option (ℕ → ℕ → Bool)) (total : ℕ) :
    ℕ → ℕ → ℤ → List ℕ → Option Bytes × ℕ
  | _, sent, _, [] => (none, sent)
  | i, sent, lastProgress, n :: ns =>
    match writeError i with
    | some why => (some (ascii "data write: " ++ why), sent)
    | none =>
      match progress with
      | none => storLoop writeError progress total (i + 1) (sent + n) lastProgress ns
      | some report =>
        let pct : ℤ := if 0 < total then ((sent + n) * 100 % 2 ^ 64 / total : ℕ) else -1
        if pct = lastProgress then
          storLoop writeError progress total (i + 1) (sent + n) lastProgress ns
        else if report (sent + n) total then
          storLoop writeError progress total (i + 1) (sent + n) pct ns
        else (some (ascii "upload cancelled"), sent + n)

/-- The loop over a whole file. -/
def sendFile (o : Outside) (progress : Option (ℕ → ℕ → Bool)) (f : Bytes) : Option Bytes × ℕ :=
  storLoop o.writeError progress f.length 0 0 (-1) (pieceSizes f.length)

def stor (useTls : Bool) (o : Outside) (localPath remotePath : Bytes)
    (progress : Option (ℕ → ℕ → Bool)) (s : State) : Option Bytes × State :=
  match o.file with
  | .error why => (some (ascii "open " ++ localPath ++ ascii ": " ++ why), s)
  | .ok f =>
    match beginTransfer useTls o (ascii "STOR") (ascii "STOR " ++ remotePath) s with
    | (some err, s) => (some err, s)
    | (none, s) =>
      match sendFile o progress f with
      | (some why, _) => (some why, s.closeData o.σ)
      | (none, sent) =>
        let (r, s) := endTransfer o s
        if codeOf r ≠ 226 ∧ codeOf r ≠ 250 then
          (some (ascii "STOR finish code=" ++ decimalInt (codeOf r) ++ ascii ": " ++ bodyOf r ++
            ascii " (sent " ++ decimal sent ++ ascii "/" ++ decimal f.length ++ ascii " bytes" ++
            (if useTls then ascii ", tls_shutdown=" ++
              (if o.tlsShutdownOk then ascii "complete" else ascii "incomplete") else []) ++
            ascii ")"), s)
        else (none, s)

inductive Op
  | size (remotePath : Bytes)
  | dele (remotePath : Bytes)
  | cwd (path : Bytes)
  | list (path : Bytes)
  | listEntries (path : Bytes)
  | retr (remotePath : Bytes) (sink : List Bytes → Bool)
  | stor (localPath remotePath : Bytes) (progress : Option (ℕ → ℕ → Bool))

structure Event where
  op : Op
  out : Outside

def perform (useTls : Bool) (s : State) (e : Event) : State :=
  match e.op with
  | .size path => (size e.out path s).2
  | .dele path => (dele e.out path s).2
  | .cwd path => (cwd e.out path s).2
  | .list path => (list useTls e.out path s).2
  | .listEntries path => (listEntries useTls e.out path s).2
  | .retr path sink => (retr useTls e.out path sink s).2
  | .stor localPath remotePath progress => (stor useTls e.out localPath remotePath progress s).2

/-- One operation on the session. -/
def step (useTls : Bool) (s : State) (e : Event) : State :=
  { perform useTls s e with lost := s.lost || e.out.lost }

end BambooNet.Ftps
