import BambooNet.Cloud.Login
import BambooNet.Json.RoundTrip
import BambooNet.Lib.Calendar

/-!
# The session file

The session is kept in a JSON file with a member for every field. `persist` writes the file and
`load` reads it back into a session that starts from the defaults.

**Times.** The expiry is written in ISO 8601 to the second, and `parseIso8601` reads back what
`toIso8601` writes (`parseIso8601_toIso8601`).

**Members** (`exists_members_fields`). The text is that of a JSON object, with the strings escaped
and a line for each member, so the parser gives the values back under their keys.

Main result: `session_round_trip`, also for files that do not parse.
-/

namespace BambooNet.Cloud

open Json JsonSyntax Calendar

/-! ## Times -/

/-- A number printed with zeros up to a width. -/
def padded (width : ℕ) (n : ℤ) : Bytes :=
  let sign : Bytes := if n < 0 then [minus] else []
  let digits := decimal n.natAbs
  sign ++ (List.replicate (width - sign.length - digits.length) 0x30 ++ digits)

/-- The clock counts nanoseconds. -/
def kSecond : ℤ := 1000000000

def toIso8601 (tp : ℤ) : Bytes :=
  let tm := gmtime (tp.tdiv kSecond)
  padded 4 (tm.year + 1900) ++ minus :: (padded 2 (tm.mon + 1) ++ minus :: (padded 2 tm.mday ++
    0x54 :: (padded 2 tm.hour ++ colon :: (padded 2 tm.min ++ colon :: (padded 2 tm.sec ++
      [0x5a])))))

def isSpace (c : UInt8) : Bool := c == 0x20 || (0x09 ≤ c && c ≤ 0x0d)

/-- `%d` of `sscanf`, for a number that fits. -/
def scanInt (s : Bytes) : Option (ℤ × Bytes) :=
  let s := s.dropWhile isSpace
  let neg := s.head? = some minus
  let s := if neg ∨ s.head? = some plus then s.tail else s
  let digits := s.takeWhile isDigit
  if digits = [] then none
  else some (if neg then -(natOf digits : ℤ) else natOf digits, s.drop digits.length)

/-- A literal character of `sscanf`. -/
def scanChar (c : UInt8) (s : Bytes) : Option Bytes :=
  if s.head? = some c then some s.tail else none

/-- The six numbers of `%d-%d-%dT%d:%d:%dZ`, if all of them are there. -/
def scanIso8601 (s : Bytes) : Option Tm := do
  let y ← scanInt s
  let mo ← (scanChar minus y.2).bind scanInt
  let d ← (scanChar minus mo.2).bind scanInt
  let h ← (scanChar 0x54 d.2).bind scanInt
  let mi ← (scanChar colon h.2).bind scanInt
  let se ← (scanChar colon mi.2).bind scanInt
  pure { year := y.1 - 1900, mon := mo.1 - 1, mday := d.1, hour := h.1, min := mi.1, sec := se.1 }

def parseIso8601 (s : Bytes) : ℤ :=
  if s = [] then 0
  else
    match scanIso8601 (s.takeWhile (· ≠ 0)) with
    | none => 0
    | some tm => kSecond * timegm tm

theorem natOf_zeros (k : ℕ) (digits : Bytes) :
    natOf (List.replicate k 0x30 ++ digits) = natOf digits := by
  induction k with
  | zero => rfl
  | succ k ih =>
    rw [List.replicate_succ, List.cons_append]
    exact ih

theorem isDigit_zeros {k n : ℕ} : ∀ c ∈ List.replicate k 0x30 ++ decimal n, isDigit c = true := by
  intro c hc
  rcases List.mem_append.1 hc with hc | hc
  · rw [List.eq_of_mem_replicate hc]
    decide
  · exact isDigit_of_mem_decimal c hc

/-- What `%d` skips or reads as a sign is no digit. -/
theorem digit_plain {c : UInt8} (h : isDigit c = true) :
    isSpace c = false ∧ c ≠ minus ∧ c ≠ plus := by
  revert h
  refine forall_byte
    (p := fun c => isDigit c = true → isSpace c = false ∧ c ≠ minus ∧ c ≠ plus) ?_ c
  decide +kernel

/-- A run of digits is read up to a character that is none. -/
theorem scanInt_digits {ds : Bytes} (hne : ds ≠ []) (hds : ∀ c ∈ ds, isDigit c = true) {c : UInt8}
    (hc : isDigit c = false) (rest : Bytes) :
    scanInt (ds ++ c :: rest) = some ((natOf ds : ℤ), c :: rest) ∧
      scanInt (minus :: (ds ++ c :: rest)) = some (-(natOf ds : ℤ), c :: rest) := by
  have htake : (ds ++ c :: rest).takeWhile isDigit = ds := by
    rw [List.takeWhile_append_of_pos hds, List.takeWhile_cons, hc]
    exact List.append_nil ds
  obtain ⟨d, t, rfl⟩ := List.exists_cons_of_ne_nil hne
  obtain ⟨hspace, hminus, hplus⟩ := digit_plain (hds d List.mem_cons_self)
  have hskip : (d :: t ++ c :: rest).dropWhile isSpace = d :: t ++ c :: rest := by
    rw [List.cons_append, List.dropWhile_cons, hspace]
    rfl
  have hskip' : (minus :: (d :: t ++ c :: rest)).dropWhile isSpace =
      minus :: (d :: t ++ c :: rest) := by
    rw [List.dropWhile_cons]
    rfl
  have hhead : (d :: t ++ c :: rest).head? = some d := rfl
  constructor
  · simp only [scanInt, hskip, hhead, Option.some.injEq, hminus, hplus, or_self, if_false, htake,
      hne, List.drop_left]
  · simp only [scanInt, hskip', List.head?_cons, true_or, if_true, List.tail_cons, htake, hne,
      if_false, List.drop_left]

/-- A printed number is read back, up to a character that is no digit. -/
theorem scanInt_padded (width : ℕ) (n : ℤ) {c : UInt8} (hc : isDigit c = false) (rest : Bytes) :
    scanInt (padded width n ++ c :: rest) = some (n, c :: rest) := by
  have hne (k : ℕ) : List.replicate k (0x30 : UInt8) ++ decimal n.natAbs ≠ [] :=
    List.append_ne_nil_of_right_ne_nil _ (decimal_ne_nil _)
  have hvalue (k : ℕ) : natOf (List.replicate k 0x30 ++ decimal n.natAbs) = n.natAbs := by
    rw [natOf_zeros, natOf_decimal]
  rw [padded]
  by_cases hneg : n < 0
  · simp only [if_pos hneg, List.cons_append, List.nil_append]
    rw [(scanInt_digits (hne _) isDigit_zeros hc rest).2, hvalue]
    congr 2
    omega
  · simp only [if_neg hneg, List.nil_append]
    rw [(scanInt_digits (hne _) isDigit_zeros hc rest).1, hvalue]
    congr 2
    omega

theorem ne_zero_of_mem_padded {width : ℕ} {n : ℤ} : ∀ c ∈ padded width n, c ≠ 0 := by
  intro c hc
  rw [padded] at hc
  rcases List.mem_append.1 hc with hc | hc
  · split at hc
    · rw [List.mem_singleton.1 hc]
      decide
    · cases hc
  · rintro rfl
    exact absurd (isDigit_zeros 0 hc) (by decide)

/-- **A time at second precision is read back.** -/
theorem parseIso8601_toIso8601 (t : ℤ) : parseIso8601 (toIso8601 (kSecond * t)) = kSecond * t := by
  have hsec : (kSecond * t).tdiv kSecond = t := Int.mul_tdiv_cancel_left t (by decide)
  have hnul : (toIso8601 (kSecond * t)).takeWhile (· ≠ 0) = toIso8601 (kSecond * t) := by
    refine List.takeWhile_eq_self_iff.2 fun c hc => decide_eq_true ?_
    simp only [toIso8601, List.mem_append, List.mem_cons, List.not_mem_nil, or_false] at hc
    rcases hc with hc | rfl | hc | rfl | hc | rfl | hc | rfl | hc | rfl | hc | rfl
    all_goals first | exact ne_zero_of_mem_padded c hc | decide
  have hscan : scanIso8601 (toIso8601 (kSecond * t)) = some (gmtime t) := by
    have hminus : isDigit minus = false := by decide
    have hT : isDigit 0x54 = false := by decide
    have hcolon : isDigit colon = false := by decide
    have hZ : isDigit 0x5a = false := by decide
    have hchar (c : UInt8) (s : Bytes) : scanChar c (c :: s) = some s := if_pos rfl
    simp only [scanIso8601, toIso8601, hsec, scanInt_padded _ _ hminus, scanInt_padded _ _ hT,
      scanInt_padded _ _ hcolon, scanInt_padded _ _ hZ, hchar, Option.bind_eq_bind,
      Option.bind_some, add_sub_cancel_right]
    rfl
  have hne : toIso8601 (kSecond * t) ≠ [] := by simp [toIso8601]
  rw [parseIso8601, if_neg hne, hnul]
  simp only [hscan, timegm_gmtime]

/-! ## The file -/

/-- The line of a string member, with the comma. -/
def addLine (k v : Bytes) : Bytes :=
  ascii "  \"" ++ (k ++ (ascii "\": " ++ (escape v ++ ascii ",\n")))

def stringFields (s : Session) : List (Bytes × Bytes) :=
  [(ascii "region", s.region), (ascii "account", s.account),
    (ascii "access_token", s.accessToken), (ascii "refresh_token", s.refreshToken),
    (ascii "expires_at", toIso8601 s.expiresAt), (ascii "user_id", s.userId),
    (ascii "user_name", s.userName), (ascii "nick_name", s.nickName), (ascii "avatar", s.avatar)]

/-- The last line. -/
def betaLine (isOpen : Bool) : Bytes :=
  ascii "  \"firmware_beta_open\": " ++ ((if isOpen then ascii "true" else ascii "false") ++
    ascii "\n")

def body (s : Session) : Bytes :=
  lbrace :: 0x0a :: ((stringFields s).flatMap (fun e => addLine e.1 e.2) ++
    (betaLine s.firmwareBetaOpen ++ [rbrace, 0x0a]))

/-- Which steps of writing the file succeed. -/
structure FileIo where
  precreated : Bool
  opened : Bool
  written : Bool
  renamed : Bool

/-- The content of the file, if it is there, after the session is written. -/
def persist (io : FileIo) (path : Bytes) (s : Session) (file : Option Bytes) : Option Bytes :=
  if path = [] then file
  else if io.precreated && io.opened && io.written && io.renamed then some (body s)
  else file

/-- `set` replaces the session and writes it. -/
def set (io : FileIo) (path : Bytes) (new : Session) (_ : Session) (file : Option Bytes) :
    Session × Option Bytes :=
  (new, persist io path new file)

/-- The session of a file that was parsed. -/
def sessionOf (root : Value) : Session :=
  let region := (root.find (ascii "region")).asString
  { region := if region = [] then ascii "GLOBAL" else region
    account := (root.find (ascii "account")).asString
    accessToken := (root.find (ascii "access_token")).asString
    refreshToken := (root.find (ascii "refresh_token")).asString
    expiresAt := parseIso8601 (root.find (ascii "expires_at")).asString
    userId := (root.find (ascii "user_id")).asString
    userName := (root.find (ascii "user_name")).asString
    nickName := (root.find (ascii "nick_name")).asString
    avatar := (root.find (ascii "avatar")).asString
    firmwareBetaOpen := (root.find (ascii "firmware_beta_open")).asBool }

/-- The session after loading a file that may not be there. It starts from the defaults, not from
the session that is there. -/
def load (path : Bytes) (file : Option Bytes) (_ : Session) : Session :=
  let s : Session := {}
  if path = [] then s
  else
    match file with
    | none => s
    | some text =>
      if text = [] then s
      else
        match parse text with
        | .error _ => s
        | .ok root => sessionOf root

/-! ## The round trip -/

/-- The lines of the members are the text of the members. -/
theorem exists_members_fields {l : List (Bytes × Bytes)}
    (hkey : ∀ e ∈ l, escape e.1 = quote :: (e.1 ++ [quote])) (isOpen : Bool) :
    ∃ ms : Members,
      ms.text = 0x0a :: (l.flatMap (fun e => addLine e.1 e.2) ++ betaLine isOpen) ∧
      ms.entries intOf = l.foldr (fun e m => Entries.insert e.1 (.string e.2) m)
        [(ascii "firmware_beta_open", .bool isOpen)] ∧
      ms.depth = 0 ∧ ms.Numbers SmallInt := by
  have hlead : ∀ c ∈ ([0x0a, 0x20, 0x20] : Bytes), c ∈ whitespace :=
    List.all_iff_forall_prop.1 (by decide)
  have hblank : ∀ c ∈ ([0x20] : Bytes), c ∈ whitespace :=
    List.all_iff_forall_prop.1 (by decide)
  have hline : ∀ c ∈ ([0x0a] : Bytes), c ∈ whitespace :=
    List.all_iff_forall_prop.1 (by decide)
  induction l with
  | nil =>
    obtain ⟨key, hkeyText, hdecoded⟩ := exists_str (ascii "firmware_beta_open")
    refine ⟨.last ⟨_, hlead⟩ key .none ⟨_, hblank⟩ (.bool isOpen) ⟨_, hline⟩, ?_, ?_, rfl, trivial⟩
    · rw [Members.text, hkeyText]
      cases isOpen <;> rfl
    · rw [Members.entries, hdecoded]
      rfl
  | cons e l ih =>
    obtain ⟨ms, htext, hentries, hdepth, hnum⟩ := ih fun f hf => hkey f (List.mem_cons_of_mem _ hf)
    obtain ⟨key, hkeyText, hdecoded⟩ := exists_str e.1
    obtain ⟨val, hvalText, hvalDecoded⟩ := exists_str e.2
    refine ⟨.cons ⟨_, hlead⟩ key .none ⟨_, hblank⟩ (.string val) .none ms, ?_, ?_, ?_, trivial,
      hnum⟩
    · rw [Members.text, htext, hkeyText, hkey e List.mem_cons_self, Node.text, hvalText]
      simp [addLine, Ws.none, ascii]
    · rw [Members.entries, hdecoded, hentries, Node.value, hvalDecoded]
      rfl
    · rw [Members.depth, hdepth]
      rfl

/-- The members of a session file. -/
def memberEntries (s : Session) : Object :=
  (stringFields s).foldr (fun e m => Entries.insert e.1 (.string e.2) m)
    [(ascii "firmware_beta_open", .bool s.firmwareBetaOpen)]

theorem parse_body (s : Session) : parse (body s) = .ok (.object (memberEntries s)) := by
  have hkey : ∀ e ∈ stringFields s, escape e.1 = quote :: (e.1 ++ [quote]) := by
    simp only [stringFields, List.forall_mem_cons]
    exact ⟨rfl, rfl, rfl, rfl, rfl, rfl, rfl, rfl, rfl, List.forall_mem_nil _⟩
  obtain ⟨ms, htext, hentries, hdepth, hnum⟩ := exists_members_fields hkey s.firmwareBetaOpen
  have hline : ∀ c ∈ ([0x0a] : Bytes), c ∈ whitespace :=
    List.all_iff_forall_prop.1 (by decide)
  have hbytes : (⟨.none, .object ms, ⟨[0x0a], hline⟩⟩ : Text).bytes = body s := by
    simp [Text.bytes, Ws.none, Node.text, htext, body]
  have hnode : (Node.object ms).depth ≤ kMaxNestingDepth := by
    rw [Node.depth, hdepth]
    decide
  have hparse := parse_total.1 ⟨.none, .object ms, ⟨[0x0a], hline⟩⟩ hnode hnum
  rw [hbytes] at hparse
  rw [hparse, Node.value, hentries]
  rfl

/-- The members under their keys. -/
theorem find_memberEntries (s : Session) {key : Bytes} (hne : key ≠ [])
    (hkey : ∀ c ∈ key, c ≠ 0x2e ∧ c ≠ 0x5b) :
    (Value.object (memberEntries s)).find key =
      (((stringFields s).find? (·.1 = key)).map fun e => Value.string e.2).getD
        (if key = ascii "firmware_beta_open" then .bool s.firmwareBetaOpen else .null) := by
  have hget (l : List (Bytes × Bytes)) (v : Value) :
      (Entries.get? key (l.foldr (fun e m => Entries.insert e.1 (.string e.2) m)
        [(ascii "firmware_beta_open", v)])).getD .null =
      ((l.find? (·.1 = key)).map fun e => Value.string e.2).getD
        (if key = ascii "firmware_beta_open" then v else .null) := by
    induction l with
    | nil =>
      by_cases h : key = ascii "firmware_beta_open" <;> simp [Entries.get?, h]
    | cons e l ih =>
      rw [List.foldr_cons, Entries.get?_insert, List.find?_cons]
      by_cases h : key = e.1
      · simp [h]
      · simp [h, Ne.symm h, ih]
  rw [Value.find_key hne hkey]
  exact hget (stringFields s) (.bool s.firmwareBetaOpen)

/-- What a session looks like after it was written and loaded. -/
def reloaded (s : Session) : Session :=
  { s with region := if s.region = [] then ascii "GLOBAL" else s.region }

theorem sessionOf_memberEntries (s : Session) {t : ℤ} (ht : s.expiresAt = kSecond * t) :
    sessionOf (.object (memberEntries s)) = reloaded s := by
  have hfind (key v : Bytes) (hkey : key ≠ [] ∧ key.all (fun c => c ≠ 0x2e ∧ c ≠ 0x5b) = true)
      (hv : ((stringFields s).find? (·.1 = key)).map (·.2) = some v) :
      ((Value.object (memberEntries s)).find key).asString = v := by
    obtain ⟨e, he, rfl⟩ := Option.map_eq_some_iff.1 hv
    rw [find_memberEntries s hkey.1 (List.all_iff_forall_prop.1 hkey.2), he]
    rfl
  have hbeta : ((Value.object (memberEntries s)).find (ascii "firmware_beta_open")).asBool =
      s.firmwareBetaOpen := by
    rw [find_memberEntries s (by decide) (List.all_iff_forall_prop.1 (by decide))]
    rfl
  simp only [sessionOf, reloaded, hbeta, hfind (ascii "region") s.region (by decide) rfl,
    hfind (ascii "account") s.account (by decide) rfl,
    hfind (ascii "access_token") s.accessToken (by decide) rfl,
    hfind (ascii "refresh_token") s.refreshToken (by decide) rfl,
    hfind (ascii "expires_at") (toIso8601 s.expiresAt) (by decide) rfl,
    hfind (ascii "user_id") s.userId (by decide) rfl,
    hfind (ascii "user_name") s.userName (by decide) rfl,
    hfind (ascii "nick_name") s.nickName (by decide) rfl,
    hfind (ascii "avatar") s.avatar (by decide) rfl, ht, parseIso8601_toIso8601]

/-- Every step of writing the file succeeds. -/
def FileIo.ok : FileIo := ⟨true, true, true, true⟩

theorem load_set {path : Bytes} (hpath : path ≠ []) {s : Session} {t : ℤ}
    (ht : s.expiresAt = kSecond * t) (old old' : Session) (file : Option Bytes) :
    load path (set .ok path s old file).2 old' = reloaded s := by
  have hfile : (set .ok path s old file).2 = some (body s) := by
    rw [set, persist, if_neg hpath]
    rfl
  have hne : body s ≠ [] := List.cons_ne_nil _ _
  rw [hfile, load, if_neg hpath]
  simp only [if_neg hne, parse_body]
  exact sessionOf_memberEntries s ht

theorem load_of_error {path : Bytes} (hpath : path ≠ []) {text : Bytes} {e : ParseError}
    (h : parse text = .error e) (old : Session) : load path (some text) old = {} := by
  rw [load, if_neg hpath]
  simp only [h]
  split <;> rfl

/-- **A session that is written is loaded back.** A file that does not parse gives the default
session, whatever the store held. -/
theorem session_round_trip {path : Bytes} (hpath : path ≠ []) :
    (∀ (s old old' : Session) (file : Option Bytes) (t : ℤ), s.expiresAt = kSecond * t →
      load path (set .ok path s old file).2 old' = reloaded s) ∧
    ∀ text e old, parse text = .error e → load path (some text) old = {} :=
  ⟨fun _ old old' file _ ht => load_set hpath ht old old' file,
    fun _ _ old h => load_of_error hpath h old⟩

/-- A session with a quote, a backslash, control characters and other bytes in its names, without a
region, that expires in 2026. -/
def quotedSession : Session :=
  { region := [], accessToken := ascii "tok", userName := ascii "a\"b\\" ++ [0x01, 0x0a, 0x7f],
    nickName := [0xc3, 0xa9, 0xff, 0x00], expiresAt := 1776765600 * 1000000000 }

theorem session_round_trip_quoted :
    load (ascii "auth.json") (set .ok (ascii "auth.json") quotedSession {} none).2 {} =
        { quotedSession with region := ascii "GLOBAL" } ∧
      load (ascii "auth.json") (some (ascii "\x7b\"token\":")) quotedSession = {} := by
  obtain ⟨hround, herror⟩ := @session_round_trip (ascii "auth.json") (by decide)
  obtain ⟨e, he⟩ : ∃ e, parse (ascii "\x7b\"token\":") = .error e := ⟨_, rfl⟩
  exact ⟨hround quotedSession {} {} none 1776765600 (by decide), herror _ e _ he⟩

/-- The session in memory is lost when the file does not parse. -/
theorem session_lost_on_error :
    ¬ ∀ (path text : Bytes) (e : ParseError) (old : Session), path ≠ [] → parse text = .error e →
      load path (some text) old = old := by
  intro h
  have hkept := h (ascii "auth.json") (ascii "x") _ { accessToken := ascii "tok" } (by decide) rfl
  rw [load_of_error (by decide) rfl] at hkept
  exact absurd hkept (by decide)

end BambooNet.Cloud
