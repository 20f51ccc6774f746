import BambooNet.Lib.BigEndian
import BambooNet.Lib.Checked

/-!
# The server's flight of the DTLS handshake

The server answers a ClientHello with one datagram of several records. The parser walks over the
records, the handshake message in each, and the extensions in the ServerHello. Every length comes
from the wire, and is checked against the length around it before anything behind it is read.

All reads are checked here. What is read of a record lies in it, so that a record at the end of a
datagram that is cut off is not used at all (`flight_safe`). A flight that is cut off behind the
server's key is accepted all the same, without its ServerHelloDone. The one read without a check is
that of the first byte, in the line that is logged for a datagram that is too short.
-/

namespace BambooNet.Tutk.ServerHello

open Checked

/-- What the flight tells: the session's part of it, the transcript, and the server's key. -/
structure Flight where
  cipherSuite : ℕ := 0
  useEms : Bool := false
  useEtm : Bool := false
  serverRandom : Bytes := []
  transcript : Bytes := []
  serverPub : Bytes := []
  haveKey : Bool := false
  deriving DecidableEq

/-- A run of the parser; it fails with what it has written so far. -/
abbrev Run := Except (Stop Flight)

def readByte (raw : Bytes) (i : ℕ) : Run UInt8 :=
  match raw[i]? with
  | none => .error .outside
  | some b => .ok b

/-- A big-endian number of `w` bytes. -/
def readBe (w : ℕ) (raw : Bytes) (i : ℕ) : Run ℕ := readSlice w raw i >>= fun b => .ok (beNat b)

/-- The bytes from `i` on, compared until one differs. -/
def bytesEq (raw : Bytes) (i : ℕ) : Bytes → Run Bool
  | [] => .ok true
  | b :: bs => readByte raw i >>= fun c => if c = b then bytesEq raw (i + 1) bs else .ok false

/-! ## The parser -/

/-- One extension: where the next one begins, and what this one says. -/
def nextExtension (raw : Bytes) (body eEnd e : ℕ) (st : Flight) : Run (Option (ℕ × Flight)) :=
  if e + 4 ≤ eEnd then do
    let etype ← readBe 2 raw (body + e)
    let size ← readBe 2 raw (body + e + 2)
    .ok (some (e + (4 + size),
      { st with
        useEtm := st.useEtm || etype == 0x0016
        useEms := st.useEms || etype == 0x0017 }))
  else .ok none

theorem nextExtension_advances {raw : Bytes} {body eEnd e e' : ℕ} {st st' : Flight}
    (h : nextExtension raw body eEnd e st = .ok (some (e', st'))) : e < e' ∧ e < eEnd := by
  rw [nextExtension] at h
  split at h
  · next hle =>
    obtain ⟨etype, -, h⟩ := bind_eq_ok.1 h
    obtain ⟨size, -, h⟩ := bind_eq_ok.1 h
    obtain ⟨rfl, -⟩ := Prod.mk.inj (Option.some.inj (Except.ok.inj h))
    omega
  · cases h

def extensions (raw : Bytes) (body eEnd e : ℕ) (st : Flight) : Run Flight :=
  match _hnext : nextExtension raw body eEnd e st with
  | .error stop => .error stop
  | .ok none => .ok st
  | .ok (some r) => extensions raw body eEnd r.1 r.2
termination_by eEnd - e
decreasing_by
  have hadvances := nextExtension_advances _hnext
  omega

/-- Version, random, session id, cipher suite, compression, extensions. -/
def serverHello (raw : Bytes) (body hlen : ℕ) (st : Flight) : Run Flight :=
  if hlen < 2 + 32 + 1 then .error (.fail st)
  else do
    let random ← readSlice 32 raw (body + 2)
    let sessionId ← readByte raw (body + 34)
    let st := { st with serverRandom := random }
    let off := 2 + 32 + 1 + sessionId.toNat
    if hlen < off + 3 then .error (.fail st)
    else do
      let suite ← readBe 2 raw (body + off)
      let st := { st with cipherSuite := suite }
      let off := off + 3
      if off + 2 ≤ hlen then do
        let size ← readBe 2 raw (body + off)
        extensions raw body (min hlen (off + 2 + size)) (off + 2) st
      else .ok st

/-- An X25519 key without a hint. -/
def serverKeyExchange (raw : Bytes) (body hlen : ℕ) (st : Flight) : Run Flight :=
  if 38 ≤ hlen then do
    let noHint ← bytesEq raw body [0, 0, 0x03]
    if noHint then do
      let curve ← readBe 2 raw (body + 3)
      if curve = 0x001d then do
        let size ← bytesEq raw (body + 5) [32]
        if size then do
          let key ← readSlice 32 raw (body + 6)
          .ok { st with serverPub := key, haveKey := true }
        else .ok st
      else .ok st
    else .ok st
  else .ok st

def kServerHelloDone : Bytes := [0x0e, 0, 0, 0, 0, 0x02, 0, 0, 0, 0, 0, 0]

/-- The record at `pos`, of `rlen` bytes behind its header, all of which are there. -/
def record (raw : Bytes) (pos rlen : ℕ) (st : Flight) : Run Flight := do
  let type ← readByte raw pos
  if type ≠ 0x16 ∨ rlen < 12 then .ok st
  else do
    let htype ← readByte raw (pos + 13)
    let hlen ← readBe 3 raw (pos + 14)
    if rlen < 12 + hlen then .ok st
    else if htype = 0x0e then .ok { st with transcript := st.transcript ++ kServerHelloDone }
    else do
      let message ← readSlice (12 + hlen) raw (pos + 13)
      let st := { st with transcript := st.transcript ++ message }
      if htype = 0x02 then serverHello raw (pos + 25) hlen st
      else if htype = 0x0c then serverKeyExchange raw (pos + 25) hlen st
      else .ok st

/-- One turn of the loop over the records: where the next record begins, and what this one says. -/
def nextRecord (raw : Bytes) (pos : ℕ) (st : Flight) : Run (Option (ℕ × Flight)) :=
  if pos + 13 + 12 ≤ raw.length then do
    let rlen ← readBe 2 raw (pos + 11)
    if raw.length < pos + 13 + rlen then .ok none
    else do
      let st ← record raw pos rlen st
      .ok (some (pos + (13 + rlen), st))
  else .ok none

theorem nextRecord_cases {raw : Bytes} {pos : ℕ} {st : Flight} {r : ℕ × Flight}
    (h : nextRecord raw pos st = .ok (some r)) : ∃ rlen, pos + 13 + 12 ≤ raw.length ∧
      readBe 2 raw (pos + 11) = .ok rlen ∧ pos + 13 + rlen ≤ raw.length ∧
      record raw pos rlen st = .ok r.2 ∧ r.1 = pos + (13 + rlen) := by
  rw [nextRecord] at h
  split at h
  · next hroom =>
    obtain ⟨rlen, hrlen, h⟩ := bind_eq_ok.1 h
    split at h
    · cases h
    · next hfits =>
      obtain ⟨st', hrecord, h⟩ := bind_eq_ok.1 h
      obtain rfl := Option.some.inj (Except.ok.inj h)
      exact ⟨rlen, hroom, hrlen, Nat.not_lt.1 hfits, hrecord, rfl⟩
  · cases h

theorem nextRecord_advances {raw : Bytes} {pos : ℕ} {st : Flight} {r : ℕ × Flight}
    (h : nextRecord raw pos st = .ok (some r)) : pos < r.1 ∧ r.1 ≤ raw.length := by
  obtain ⟨rlen, -, -, hfits, -, hnext⟩ := nextRecord_cases h
  omega

def records (raw : Bytes) (pos : ℕ) (st : Flight) : Run Flight :=
  match _hnext : nextRecord raw pos st with
  | .error stop => .error stop
  | .ok none => .ok st
  | .ok (some r) => records raw r.1 r.2
termination_by raw.length - pos
decreasing_by
  have hadvances := nextRecord_advances _hnext
  omega

/-- The bytes that a line of the log shows, when errors are logged. -/
def logBytes (errors : Bool) (raw : Bytes) (is : List ℕ) : Run Unit :=
  if errors then is.foldr (fun i k => readByte raw i >>= fun _ => k) (.ok ()) else .ok ()

def isAlert (raw : Bytes) : Run Bool :=
  if 15 ≤ raw.length then bytesEq raw 0 [0x15] else .ok false

def isServerHello (raw : Bytes) : Run Bool :=
  if raw.length < 13 + 12 + 2 + 32 + 1 then .ok false
  else do
    let handshake ← bytesEq raw 0 [0x16]
    if handshake then bytesEq raw 13 [0x02] else .ok false

/-- What is forgotten before the flight is read. -/
def Flight.reset (st : Flight) : Flight :=
  { st with cipherSuite := 0, useEms := false, useEtm := false, haveKey := false }

def parseServerHelloFlight (errors : Bool) (raw : Bytes) (st : Flight) : Run Flight := do
  let alert ← isAlert raw
  if alert then do
    logBytes errors raw [13, 14]
    .error (.fail st)
  else do
    let hello ← isServerHello raw
    if !hello then do
      logBytes errors raw [0]
      .error (.fail st)
    else do
      let st ← records raw 0 st.reset
      if st.cipherSuite ≠ 0xc038 ∧ st.cipherSuite ≠ 0xccac then .error (.fail st)
      else if !st.haveKey then .error (.fail st)
      else .ok st

/-! ## Reads inside the datagram -/

section Inside

variable {raw : Bytes} {st : Flight}

theorem inside_readByte {i : ℕ} (h : i < raw.length) : Inside (readByte raw i) := by
  rw [readByte, List.getElem?_eq_getElem h]
  exact inside_ok _

theorem inside_readBe {w i : ℕ} (h : i + w ≤ raw.length) : Inside (readBe w raw i) :=
  (inside_readSlice h).bind fun _ _ => inside_ok _

theorem inside_bytesEq {bs : Bytes} {i : ℕ} (h : i + bs.length ≤ raw.length) :
    Inside (bytesEq raw i bs) := by
  induction bs generalizing i with
  | nil => exact inside_ok _
  | cons b bs ih =>
    rw [List.length_cons] at h
    refine (inside_readByte (by omega)).bind fun c _ => ?_
    split
    · exact ih (by omega)
    · exact inside_ok _

theorem inside_nextExtension {body eEnd : ℕ} (h : body + eEnd ≤ raw.length) (e : ℕ)
    (st : Flight) : Inside (nextExtension raw body eEnd e st) := by
  rw [nextExtension]
  split
  · refine (inside_readBe (by omega)).bind fun etype _ => ?_
    exact (inside_readBe (by omega)).bind fun size _ => inside_ok _
  · exact inside_ok _

/-- The extensions end where they say, but not behind the message. -/
theorem inside_extensions {body eEnd : ℕ} (h : body + eEnd ≤ raw.length) (e : ℕ) (st : Flight) :
    Inside (extensions raw body eEnd e st) := by
  induction e, st using extensions.induct raw body eEnd with
  | case1 e st stop hnext =>
    have hinside := inside_nextExtension h e st
    rw [extensions, hnext]
    rw [hnext] at hinside
    exact fun houtside => hinside (congrArg Except.error (Except.error.inj houtside))
  | case2 e st hnext =>
    rw [extensions, hnext]
    exact inside_ok _
  | case3 e st r hnext ih =>
    rw [extensions, hnext]
    exact ih

theorem inside_serverHello {body hlen : ℕ} (h : body + hlen ≤ raw.length) (st : Flight) :
    Inside (serverHello raw body hlen st) := by
  rw [serverHello]
  split
  · exact inside_fail _
  · refine (inside_readSlice (by omega)).bind fun random _ => ?_
    refine (inside_readByte (by omega)).bind fun sessionId _ => ?_
    dsimp only
    split
    · exact inside_fail _
    · refine (inside_readBe (by omega)).bind fun suite _ => ?_
      split
      · refine (inside_readBe (by omega)).bind fun size _ => ?_
        exact inside_extensions (by omega) _ _
      · exact inside_ok _

theorem inside_serverKeyExchange {body hlen : ℕ} (h : body + hlen ≤ raw.length) (st : Flight) :
    Inside (serverKeyExchange raw body hlen st) := by
  rw [serverKeyExchange]
  split
  · refine (inside_bytesEq (by simp only [List.length_cons, List.length_nil]; omega)).bind
      fun noHint _ => ?_
    split
    · refine (inside_readBe (by omega)).bind fun curve _ => ?_
      split
      · refine (inside_bytesEq (by simp only [List.length_cons, List.length_nil]; omega)).bind
          fun size _ => ?_
        split
        · exact (inside_readSlice (by omega)).bind fun key _ => inside_ok _
        · exact inside_ok _
      · exact inside_ok _
    · exact inside_ok _
  · exact inside_ok _

/-- A record is read inside of itself. -/
theorem inside_record {pos rlen : ℕ} (h : pos + 13 + rlen ≤ raw.length) (st : Flight) :
    Inside (record raw pos rlen st) := by
  refine (inside_readByte (by omega)).bind fun type _ => ?_
  split
  · exact inside_ok _
  · next hrecord =>
    have hlong : 12 ≤ rlen := Nat.not_lt.1 (not_or.1 hrecord).2
    refine (inside_readByte (by omega)).bind fun htype _ => ?_
    refine (inside_readBe (by omega)).bind fun hlen _ => ?_
    split
    · exact inside_ok _
    · split
      · exact inside_ok _
      · refine (inside_readSlice (by omega)).bind fun message _ => ?_
        split
        · exact inside_serverHello (by omega) _
        · split
          · exact inside_serverKeyExchange (by omega) _
          · exact inside_ok _

theorem inside_nextRecord (pos : ℕ) (st : Flight) : Inside (nextRecord raw pos st) := by
  rw [nextRecord]
  split
  · refine (inside_readBe (by omega)).bind fun rlen _ => ?_
    split
    · exact inside_ok _
    · exact (inside_record (by omega) st).bind fun st' _ => inside_ok _
  · exact inside_ok _

theorem inside_records (pos : ℕ) (st : Flight) : Inside (records raw pos st) := by
  induction pos, st using records.induct raw with
  | case1 pos st stop hnext =>
    have hinside := @inside_nextRecord raw pos st
    rw [records, hnext]
    rw [hnext] at hinside
    exact fun houtside => hinside (congrArg Except.error (Except.error.inj houtside))
  | case2 pos st hnext =>
    rw [records, hnext]
    exact inside_ok _
  | case3 pos st r hnext ih =>
    rw [records, hnext]
    exact ih

theorem inside_logBytes (errors : Bool) {is : List ℕ} (h : ∀ i ∈ is, i < raw.length) :
    Inside (logBytes errors raw is) := by
  rw [logBytes]
  split
  · induction is with
    | nil => exact inside_ok _
    | cons i is ih =>
      obtain ⟨hi, his⟩ := List.forall_mem_cons.1 h
      exact (inside_readByte hi).bind fun _ _ => ih his
  · exact inside_ok _

theorem inside_isAlert : Inside (isAlert raw) := by
  rw [isAlert]
  split
  · exact inside_bytesEq (by simp only [List.length_cons, List.length_nil]; omega)
  · exact inside_ok _

theorem inside_isServerHello : Inside (isServerHello raw) := by
  rw [isServerHello]
  split
  · exact inside_ok _
  · refine (inside_bytesEq (by simp only [List.length_cons, List.length_nil]; omega)).bind
      fun handshake _ => ?_
    split
    · exact inside_bytesEq (by simp only [List.length_cons, List.length_nil]; omega)
    · exact inside_ok _

theorem length_of_isAlert (h : isAlert raw = .ok true) : 15 ≤ raw.length := by
  by_contra hshort
  rw [isAlert, if_neg hshort] at h
  cases h

end Inside

/-! ## What a record is read from -/

section Extends

variable {raw raw' : Bytes} (h : raw <+: raw')

include h

theorem extends_readByte (i : ℕ) : Extends (readByte raw i) (readByte raw' i) := by
  obtain ⟨t, rfl⟩ := h
  by_cases hi : i < raw.length
  · rw [readByte, readByte, List.getElem?_append_left hi]
    exact Extends.refl _
  · rw [readByte, List.getElem?_eq_none (Nat.not_lt.1 hi)]
    exact .inl rfl

theorem extends_readBe (w i : ℕ) : Extends (readBe w raw i) (readBe w raw' i) :=
  (extends_readSlice h w i).bind fun _ => Extends.refl _

theorem extends_bytesEq (bs : Bytes) (i : ℕ) :
    Extends (bytesEq raw i bs) (bytesEq raw' i bs) := by
  induction bs generalizing i with
  | nil => exact Extends.refl _
  | cons b bs ih =>
    refine (extends_readByte h i).bind fun c => ?_
    split
    · exact ih (i + 1)
    · exact Extends.refl _

theorem extends_nextExtension (body eEnd e : ℕ) (st : Flight) :
    Extends (nextExtension raw body eEnd e st) (nextExtension raw' body eEnd e st) := by
  rw [nextExtension, nextExtension]
  split
  · refine (extends_readBe h 2 _).bind fun etype => ?_
    exact (extends_readBe h 2 _).bind fun size => Extends.refl _
  · exact Extends.refl _

theorem extends_extensions (body eEnd e : ℕ) (st : Flight) :
    Extends (extensions raw body eEnd e st) (extensions raw' body eEnd e st) := by
  induction e, st using extensions.induct raw body eEnd with
  | case1 e st stop hnext =>
    have hextends := extends_nextExtension h body eEnd e st
    rw [extensions, hnext]
    rw [hnext] at hextends
    rcases hextends with houtside | heq
    · exact .inl (congrArg Except.error (Except.error.inj houtside))
    · rw [extensions, ← heq]
      exact Extends.refl _
  | case2 e st hnext =>
    have heq := (extends_nextExtension h body eEnd e st).eq (by rw [hnext]; exact inside_ok _)
    rw [extensions, hnext, extensions, ← heq, hnext]
    exact Extends.refl _
  | case3 e st r hnext ih =>
    have heq := (extends_nextExtension h body eEnd e st).eq (by rw [hnext]; exact inside_ok _)
    rw [extensions, hnext, extensions, ← heq, hnext]
    exact ih

theorem extends_serverHello (body hlen : ℕ) (st : Flight) :
    Extends (serverHello raw body hlen st) (serverHello raw' body hlen st) := by
  rw [serverHello, serverHello]
  split
  · exact Extends.refl _
  · refine (extends_readSlice h 32 _).bind fun random => ?_
    refine (extends_readByte h _).bind fun sessionId => ?_
    dsimp only
    split
    · exact Extends.refl _
    · refine (extends_readBe h 2 _).bind fun suite => ?_
      split
      · exact (extends_readBe h 2 _).bind fun size => extends_extensions h _ _ _ _
      · exact Extends.refl _

theorem extends_serverKeyExchange (body hlen : ℕ) (st : Flight) :
    Extends (serverKeyExchange raw body hlen st) (serverKeyExchange raw' body hlen st) := by
  rw [serverKeyExchange, serverKeyExchange]
  split
  · refine (extends_bytesEq h _ _).bind fun noHint => ?_
    split
    · refine (extends_readBe h 2 _).bind fun curve => ?_
      split
      · refine (extends_bytesEq h _ _).bind fun size => ?_
        split
        · exact (extends_readSlice h 32 _).bind fun key => Extends.refl _
        · exact Extends.refl _
      · exact Extends.refl _
    · exact Extends.refl _
  · exact Extends.refl _

/-- What a record says does not depend on what is behind the datagram. -/
theorem extends_record (pos rlen : ℕ) (st : Flight) :
    Extends (record raw pos rlen st) (record raw' pos rlen st) := by
  refine (extends_readByte h pos).bind fun type => ?_
  split
  · exact Extends.refl _
  · refine (extends_readByte h _).bind fun htype => ?_
    refine (extends_readBe h 3 _).bind fun hlen => ?_
    split
    · exact Extends.refl _
    · split
      · exact Extends.refl _
      · refine (extends_readSlice h _ _).bind fun message => ?_
        split
        · exact extends_serverHello h _ _ _
        · split
          · exact extends_serverKeyExchange h _ _ _
          · exact Extends.refl _

end Extends

/-- No whole record with room for a handshake message begins at `pos` and ends within `n` bytes. -/
def NoneLeft (raw : Bytes) (n pos : ℕ) : Prop :=
  n < pos + 13 + 12 ∨ ∃ rlen, readBe 2 raw (pos + 11) = .ok rlen ∧ n < pos + (13 + rlen)

/-- The session after the records from `pos` on that end within `n` bytes, all of them in turn. -/
inductive Handled (raw : Bytes) (n : ℕ) : ℕ → Flight → Flight → Prop
  | done {pos : ℕ} {st : Flight} (hnone : NoneLeft raw n pos) : Handled raw n pos st st
  | next {pos rlen : ℕ} {st st' st'' : Flight} (hroom : pos + 13 + 12 ≤ n)
      (hrlen : readBe 2 raw (pos + 11) = .ok rlen) (hfits : pos + (13 + rlen) ≤ n)
      (hrecord : record raw pos rlen st = .ok st')
      (rest : Handled raw n (pos + (13 + rlen)) st' st'') : Handled raw n pos st st''

/-- Where the loop stops, no record is left. -/
theorem noneLeft_of_nextRecord {raw : Bytes} {n pos : ℕ} {st : Flight} (hn : n ≤ raw.length)
    (h : nextRecord (raw.take n) pos st = .ok none) : NoneLeft raw n pos := by
  have hlength : (raw.take n).length = n := List.length_take_of_le hn
  rw [nextRecord, hlength] at h
  split at h
  · obtain ⟨rlen, hrlen, h⟩ := bind_eq_ok.1 h
    have hsame := (extends_readBe (List.take_prefix n raw) 2 (pos + 11)).eq
      (by rw [hrlen]; exact inside_ok _)
    split at h
    · next hcut => exact .inr ⟨rlen, hsame.symm.trans hrlen, by omega⟩
    · obtain ⟨st', -, h⟩ := bind_eq_ok.1 h
      cases h
  · next hshort => exact .inl (Nat.not_le.1 hshort)

/-- A datagram that is cut off is read up to its last whole record. -/
theorem handled_of_records {raw : Bytes} {n pos : ℕ} {st st' : Flight} (hn : n ≤ raw.length)
    (h : records (raw.take n) pos st = .ok st') : Handled raw n pos st st' := by
  have hprefix := List.take_prefix n raw
  have hlength : (raw.take n).length = n := List.length_take_of_le hn
  induction pos, st using records.induct (raw.take n) with
  | case1 pos st stop hnext =>
    rw [records, hnext] at h
    cases h
  | case2 pos st hnext =>
    rw [records, hnext] at h
    rw [← Except.ok.inj h]
    exact .done (noneLeft_of_nextRecord hn hnext)
  | case3 pos st r hnext ih =>
    rw [records, hnext] at h
    obtain ⟨rlen, hroom, hrlen, hfits, hrecord, hr⟩ := nextRecord_cases hnext
    have hrlen' := (extends_readBe hprefix 2 (pos + 11)).eq (by rw [hrlen]; exact inside_ok _)
    have hrecord' := (extends_record hprefix pos rlen st).eq (inside_record hfits st)
    rw [hrlen] at hrlen'
    rw [hrecord] at hrecord'
    refine .next (by omega) hrlen'.symm (by omega) hrecord'.symm ?_
    rw [← hr]
    exact ih h

theorem records_of_parse {errors : Bool} {raw : Bytes} {st st' : Flight}
    (h : parseServerHelloFlight errors raw st = .ok st') : records raw 0 st.reset = .ok st' := by
  obtain ⟨alert, -, h⟩ := bind_eq_ok.1 h
  split at h
  · obtain ⟨u, -, h⟩ := bind_eq_ok.1 h
    cases h
  · obtain ⟨hello, -, h⟩ := bind_eq_ok.1 h
    split at h
    · obtain ⟨u, -, h⟩ := bind_eq_ok.1 h
      cases h
    · obtain ⟨st'', hrecords, h⟩ := bind_eq_ok.1 h
      split at h
      · cases h
      · split at h
        · cases h
        · rw [← Except.ok.inj h]
          exact hrecords

theorem inside_parse (errors : Bool) {raw : Bytes} (hne : raw ≠ []) (st : Flight) :
    Inside (parseServerHelloFlight errors raw st) := by
  have hlength := List.length_pos_of_ne_nil hne
  refine inside_isAlert.bind fun alert halert => ?_
  split
  · next htrue =>
    have hlong : 15 ≤ raw.length := by
      rw [htrue] at halert
      exact length_of_isAlert halert
    refine (inside_logBytes errors fun i hi => ?_).bind fun _ _ => inside_fail _
    simp only [List.mem_cons, List.not_mem_nil, or_false] at hi
    omega
  · refine inside_isServerHello.bind fun hello _ => ?_
    split
    · refine (inside_logBytes errors fun i hi => ?_).bind fun _ _ => inside_fail _
      rw [List.mem_singleton.1 hi]
      exact hlength
    · refine (inside_records 0 _).bind fun st' _ => ?_
      split
      · exact inside_fail _
      · split
        · exact inside_fail _
        · exact inside_ok _

/-- **The parser is safe** on every datagram with a byte in it: it reads inside, both of its loops
get on with each turn, and one that is cut off it rejects or reads up to its last whole record. -/
theorem flight_safe (errors : Bool) (raw : Bytes) (hne : raw ≠ []) (st : Flight) :
    Inside (parseServerHelloFlight errors raw st) ∧
      (∀ pos st r, nextRecord raw pos st = .ok (some r) → pos < r.1 ∧ r.1 ≤ raw.length) ∧
      (∀ body eEnd e st e' st', nextExtension raw body eEnd e st = .ok (some (e', st')) →
        e < e') ∧
      ∀ n ≤ raw.length, ∀ st', parseServerHelloFlight errors (raw.take n) st = .ok st' →
        Handled raw n 0 st.reset st' :=
  ⟨inside_parse errors hne st, fun _ _ _ h => nextRecord_advances h,
    fun _ _ _ _ _ _ h => (nextExtension_advances h).1,
    fun _ hn _ h => handled_of_records hn (records_of_parse h)⟩

/-! ## A flight, whole and cut off -/

/-- A record of one handshake message. -/
def handshakeRecord (htype number : UInt8) (body : Bytes) : Bytes :=
  [0x16, 0xfe, 0xfd, 0, 0, 0, 0, 0, 0, 0, number, 0, UInt8.ofNat (12 + body.length)] ++
    [htype, 0, 0, UInt8.ofNat body.length, 0, number, 0, 0, 0, 0, 0, UInt8.ofNat body.length] ++
    body

/-- ServerHello, ServerKeyExchange and ServerHelloDone. -/
def serverFlight : Bytes :=
  handshakeRecord 0x02 0 ([0xfe, 0xfd] ++ List.replicate 32 7 ++ [0, 0xcc, 0xac, 0]) ++
    handshakeRecord 0x0c 1 ([0, 0, 0x03, 0, 0x1d, 32] ++ List.replicate 32 9) ++
    handshakeRecord 0x0e 2 []

theorem records_of_next {raw : Bytes} {pos : ℕ} {st : Flight} {r : ℕ × Flight}
    (h : nextRecord raw pos st = .ok (some r)) : records raw pos st = records raw r.1 r.2 := by
  rw [records, h]

theorem records_of_none {raw : Bytes} {pos : ℕ} {st : Flight}
    (h : nextRecord raw pos st = .ok none) : records raw pos st = .ok st := by
  rw [records, h]

theorem parse_of_records {raw : Bytes} {st st' : Flight} (halert : isAlert raw = .ok false)
    (hhello : isServerHello raw = .ok true) (hrecords : records raw 0 st.reset = .ok st')
    (hsuite : st'.cipherSuite = 0xccac) (hkey : st'.haveKey = true) (errors : Bool) :
    parseServerHelloFlight errors raw st = .ok st' := by
  refine bind_eq_ok.2 ⟨false, halert, ?_⟩
  refine bind_eq_ok.2 ⟨true, hhello, ?_⟩
  refine bind_eq_ok.2 ⟨st', hrecords, ?_⟩
  rw [if_neg fun h => h.2 hsuite, hkey]
  rfl

/-- After the first record. -/
def helloRead : Flight where
  cipherSuite := 0xccac
  serverRandom := List.replicate 32 7
  transcript := (serverFlight.drop 13).take 50

/-- After the second record. -/
def keyRead : Flight :=
  { helloRead with
    transcript := helloRead.transcript ++ (serverFlight.drop 76).take 50
    serverPub := List.replicate 32 9
    haveKey := true }

/-- After ServerHelloDone. -/
def doneRead : Flight := { keyRead with transcript := keyRead.transcript ++ kServerHelloDone }

set_option maxRecDepth 20000 in
/-- The whole flight. -/
theorem parse_serverFlight : parseServerHelloFlight true serverFlight {} = .ok doneRead := by
  refine parse_of_records rfl rfl ?_ rfl rfl true
  have hhello : nextRecord serverFlight 0 {} = .ok (some (63, helloRead)) := rfl
  have hkey : nextRecord serverFlight 63 helloRead = .ok (some (126, keyRead)) := rfl
  have hdone : nextRecord serverFlight 126 keyRead = .ok (some (151, doneRead)) := rfl
  calc records serverFlight 0 {} = records serverFlight 63 helloRead := records_of_next hhello
    _ = records serverFlight 126 keyRead := records_of_next hkey
    _ = records serverFlight 151 doneRead := records_of_next hdone
    _ = .ok doneRead := records_of_none rfl

set_option maxRecDepth 20000 in
/-- Without the last byte of ServerHelloDone. -/
theorem parse_serverFlight_take :
    parseServerHelloFlight true (serverFlight.take 150) {} = .ok keyRead := by
  refine parse_of_records rfl rfl ?_ rfl rfl true
  have hhello : nextRecord (serverFlight.take 150) 0 {} = .ok (some (63, helloRead)) := rfl
  have hkey : nextRecord (serverFlight.take 150) 63 helloRead = .ok (some (126, keyRead)) := rfl
  calc records (serverFlight.take 150) 0 {}
      = records (serverFlight.take 150) 63 helloRead := records_of_next hhello
    _ = records (serverFlight.take 150) 126 keyRead := records_of_next hkey
    _ = .ok keyRead := records_of_none rfl

/-- The flight as it is and cut off. -/
theorem flight_safe_serverFlight :
    Inside (parseServerHelloFlight true serverFlight {}) ∧
      Handled serverFlight serverFlight.length 0 {} doneRead ∧
      Handled serverFlight 150 0 {} keyRead := by
  have hlength : 150 ≤ serverFlight.length := by decide +kernel
  have hwhole : serverFlight.take serverFlight.length = serverFlight := List.take_length
  obtain ⟨hinside, -, -, hhandled⟩ := flight_safe true serverFlight (List.cons_ne_nil _ _) {}
  refine ⟨hinside, hhandled _ (le_refl _) doneRead ?_, hhandled 150 hlength keyRead ?_⟩
  · rw [hwhole]
    exact parse_serverFlight
  · exact parse_serverFlight_take

/-- Of an empty datagram the line that rejects it shows the first byte. A flight without its last
byte is accepted, with a transcript that has no ServerHelloDone. -/
theorem empty_outside_cut_accepted :
    (¬ ∀ errors raw st, Inside (parseServerHelloFlight errors raw st)) ∧
      parseServerHelloFlight true serverFlight {} =
        .ok { keyRead with transcript := keyRead.transcript ++ kServerHelloDone } ∧
      serverFlight.length = 151 ∧
      parseServerHelloFlight true (serverFlight.take 150) {} = .ok keyRead :=
  ⟨fun h => h true [] {} rfl, parse_serverFlight, by decide +kernel, parse_serverFlight_take⟩

end BambooNet.Tutk.ServerHello
