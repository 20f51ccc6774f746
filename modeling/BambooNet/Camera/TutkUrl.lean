import BambooNet.Lib.Decimal
import BambooNet.Lib.Query
import Mathlib.Data.List.Infix

/-!
# The URL of a TUTK session

`build_tutk_url` writes the session's secrets into a URL, percent-encoded. Two modules read it:
`parse_url` of the source stub, which decodes the values, and `parse_tutk_url` of the camera, which
does not.

**Theorem (`agree_iff`).** Both readers recover what the URL was built from exactly when no byte of
the three secrets is encoded. The stub always does (`parseUrl_build`).
-/

namespace BambooNet.Camera

open Query

/-! ## Building the URL -/

/-- The bytes that `url_encode` leaves alone. -/
def unreserved (c : UInt8) : Bool :=
  (0x41 ≤ c && c ≤ 0x5a) || (0x61 ≤ c && c ≤ 0x7a) || (0x30 ≤ c && c ≤ 0x39) ||
    c == 0x2d || c == 0x5f || c == 0x2e || c == 0x7e

def urlEncode (s : Bytes) : Bytes := encode unreserved s

/-- The parameters of the URL, as they stand between the ampersands. -/
def tutkQuery (uid authkey passwd region : Bytes) : List Bytes :=
  [ascii "uid=" ++ urlEncode uid, ascii "authkey=" ++ urlEncode authkey,
    ascii "passwd=" ++ urlEncode passwd, ascii "region=" ++ urlEncode region]

def buildTutkUrl (uid authkey passwd region : Bytes) : Bytes :=
  ascii "bambu:///tutk?uid=" ++ urlEncode uid ++ ascii "&authkey=" ++ urlEncode authkey ++
    ascii "&passwd=" ++ urlEncode passwd ++ ascii "&region=" ++ urlEncode region

/-! ## The reader of the camera -/

abbrev ampersand : UInt8 := 0x26
abbrev equals : UInt8 := 0x3d
abbrev question : UInt8 := 0x3f

/-- The value of a parameter, matched only at a parameter boundary. -/
def queryParam (query key : Bytes) : Bytes :=
  (scan ampersand (key ++ [equals]) true query).getD []

/-- The query of a URL. -/
def urlQuery (url : Bytes) : Option Bytes :=
  match url.dropWhile (· ≠ question) with
  | [] => none
  | _ :: query => some query

structure TutkSessionParams where
  uid : Bytes
  passwd : Bytes
  authkey : Bytes
  region : Bytes
  relayId : Bytes
  deriving DecidableEq

def toUpper (c : UInt8) : UInt8 := if 0x61 ≤ c ∧ c ≤ 0x7a then c - 0x20 else c

/-- The relay region: `cn`, `eu` or `us`. -/
def normalRegion (region : Bytes) : Bytes :=
  if region ≠ ascii "cn" ∧ region ≠ ascii "eu" then ascii "us" else region

def parseTutkUrl (url : Bytes) : Option TutkSessionParams :=
  if ascii "bambu://" <+: url then
    match urlQuery url with
    | none => none
    | some query =>
      let uid := queryParam query (ascii "uid")
      let passwd := queryParam query (ascii "passwd")
      let channel := queryParam query (ascii "channel")
      if uid = [] ∨ passwd = [] then none
      else
        let uid := uid.map toUpper
        some
          { uid, passwd
            authkey := queryParam query (ascii "authkey")
            region := normalRegion (queryParam query (ascii "region"))
            relayId := if channel = [] then uid else channel }
  else none

/-! ## The reader of the source stub -/

inductive Scheme
  | local
  | rtsps
  | rtsp
  | tutk
  deriving DecidableEq

structure TunnelUrl where
  scheme : Scheme := .local
  rawUrl : Bytes := []
  host : Bytes := []
  port : ℤ := 6000
  user : Bytes := ascii "bblp"
  passwd : Bytes := []
  authkey : Bytes := []
  region : Bytes := []
  tutkUid : Bytes := []
  channel : Bytes := []
  device : Bytes := []
  cliId : Bytes := []
  cliVer : Bytes := []
  netVer : Bytes := []
  path : Bytes := ascii "/streaming/live/1"
  lv : Bytes := []

def urlDecode (s : Bytes) : Bytes := decode (fun c => if c = 0x2b then 0x20 else c) s

/-- A parameter split at its first equals sign, the value decoded. -/
def keyValue (kv : Bytes) : Bytes × Bytes :=
  (kv.takeWhile (· ≠ equals), urlDecode ((kv.dropWhile (· ≠ equals)).drop 1))

/-- `std::stoi`: none where it throws. -/
def stoi (s : Bytes) : Option ℤ :=
  let s := s.dropWhile fun c => c = 0x20 ∨ 0x09 ≤ c ∧ c ≤ 0x0d
  let digits := (if s.head? = some 0x2d ∨ s.head? = some 0x2b then s.tail else s).takeWhile isDigit
  let n : ℤ := if s.head? = some 0x2d then -natOf digits else natOf digits
  if digits = [] ∨ n < -2 ^ 31 ∨ 2 ^ 31 ≤ n then none else some n

/-- A parameter of a TUTK URL. -/
def setTutk (out : TunnelUrl) (kv : Bytes) : TunnelUrl :=
  let (key, val) := keyValue kv
  if key = ascii "uid" then { out with tutkUid := val }
  else if key = ascii "passwd" then { out with passwd := val }
  else if key = ascii "authkey" then { out with authkey := val }
  else if key = ascii "region" then { out with region := val }
  else if key = ascii "device" then { out with device := val }
  else if key = ascii "channel" then { out with channel := val }
  else if key = ascii "cli_id" then { out with cliId := val }
  else if key = ascii "cli_ver" then { out with cliVer := val }
  else if key = ascii "net_ver" then { out with netVer := val }
  else out

/-- A parameter of any other URL. -/
def setLocal (out : TunnelUrl) (kv : Bytes) : TunnelUrl :=
  let (key, val) := keyValue kv
  if key = ascii "port" then { out with port := (stoi val).getD out.port }
  else if key = ascii "user" then { out with user := val }
  else if key = ascii "passwd" then { out with passwd := val }
  else if key = ascii "device" then { out with device := val }
  else if key = ascii "cli_id" then { out with cliId := val }
  else if key = ascii "cli_ver" then { out with cliVer := val }
  else if key = ascii "net_ver" then { out with netVer := val }
  else if key = ascii "lv" then { out with lv := val }
  else out

/-- The text before and after the first `c`; none when there is no `c`. -/
def splitAt? (c : UInt8) (s : Bytes) : Option (Bytes × Bytes) :=
  match s.dropWhile (· ≠ c) with
  | [] => none
  | _ :: t => some (s.takeWhile (· ≠ c), t)

/-- `<user>:<passwd>@` before the host of an RTSP URL. -/
def setUserinfo (out : TunnelUrl) (userinfo : Bytes) : TunnelUrl :=
  match splitAt? 0x3a userinfo with
  | none => { out with user := urlDecode userinfo }
  | some (user, passwd) => { out with user := urlDecode user, passwd := urlDecode passwd }

/-- The host part of an RTSP URL without its userinfo and path, which are set in the result. -/
def rtspHost (out : TunnelUrl) (hostPart : Bytes) : TunnelUrl × Bytes :=
  let (out, hostPart) := match splitAt? 0x40 hostPart with
    | none => (out, hostPart)
    | some (userinfo, hostPart) => (setUserinfo out userinfo, hostPart)
  match splitAt? 0x2f hostPart with
  | none => (out, hostPart)
  | some (host, path) => ({ out with path := 0x2f :: path }, host)

/-- The host part of a local URL without the slashes and dots at its end. -/
def localHost (hostPart : Bytes) : Bytes :=
  (hostPart.reverse.dropWhile fun c => c = 0x2f ∨ c = 0x2e).reverse

/-- What follows the scheme of a URL that is not a TUTK one. -/
def parseRest (out : TunnelUrl) (rest : Bytes) : Option TunnelUrl :=
  let (hostPart, query) := (splitAt? question rest).getD (rest, [])
  let (out, hostPart) :=
    if out.scheme = .rtsps ∨ out.scheme = .rtsp then rtspHost out hostPart
    else (out, localHost hostPart)
  let out? := match splitAt? 0x3a hostPart with
    | none => some { out with host := hostPart }
    | some (host, port) => (stoi port).map fun port => { out with host, port }
  match out? with
  | none => none
  | some out =>
    let out := (query.splitOn ampersand).foldl setLocal out
    if out.host ≠ [] ∧ 0 < out.port then some out else none

/-- The URL of a camera or of a control channel. An empty piece of a query sets nothing. -/
def parseUrl (url : Bytes) : Option TunnelUrl :=
  let body :=
    if ascii "bambu:" <+: url then (url.drop (ascii "bambu:").length).dropWhile (· = 0x2f) else url
  if ascii "tutk?" <+: body ∨ ascii "tutk?" <:+: body then
    let query := (urlQuery url).getD []
    let out := (query.splitOn ampersand).foldl setTutk { scheme := .tutk, rawUrl := url }
    let out := if out.host = [] then { out with host := ascii "tutk-relay" } else out
    if out.tutkUid ≠ [] then some out else none
  else if ascii "local/" <+: body then
    parseRest { scheme := .local, port := 6000 } (body.drop (ascii "local/").length)
  else if ascii "rtsps___" <+: body then
    parseRest { scheme := .rtsps, port := 322 } (body.drop (ascii "rtsps___").length)
  else if ascii "rtsp___" <+: body then
    parseRest { scheme := .rtsp, port := 554 } (body.drop (ascii "rtsp___").length)
  else parseRest { scheme := .local, port := 6000 } body

/-! ## The URL that was built -/

variable (uid authkey passwd region : Bytes)

theorem buildTutkUrl_eq :
    buildTutkUrl uid authkey passwd region =
      ascii "bambu:///tutk?" ++ [ampersand].intercalate (tutkQuery uid authkey passwd region) := by
  simp [buildTutkUrl, tutkQuery, ascii, List.intercalate, List.intersperse]

theorem urlQuery_build :
    urlQuery (buildTutkUrl uid authkey passwd region) =
      some ([ampersand].intercalate (tutkQuery uid authkey passwd region)) := by
  rw [buildTutkUrl_eq]
  rfl

/-- No separator occurs in an encoded value. -/
theorem separator_not_mem_urlEncode (s : Bytes) :
    ampersand ∉ urlEncode s ∧ equals ∉ urlEncode s :=
  ⟨not_mem_encode (by decide) (by decide) (by decide) s,
    not_mem_encode (by decide) (by decide) (by decide) s⟩

theorem splitOn_build :
    ([ampersand].intercalate (tutkQuery uid authkey passwd region)).splitOn ampersand =
      tutkQuery uid authkey passwd region := by
  refine List.splitOn_intercalate _ (fun kv hkv => ?_) (by simp [tutkQuery])
  have hkey (key : Bytes) (hkey : ampersand ∉ key) (s : Bytes) : ampersand ∉ key ++ urlEncode s :=
    fun h => (List.mem_append.1 h).elim hkey (separator_not_mem_urlEncode s).1
  simp only [tutkQuery, List.mem_cons, List.not_mem_nil, or_false] at hkv
  rcases hkv with rfl | rfl | rfl | rfl <;> exact hkey _ (by decide) _

/-! ## Both readers -/

theorem urlDecode_urlEncode (s : Bytes) : urlDecode (urlEncode s) = s := by
  refine decode_encode (by decide) (fun c hc => if_neg ?_) s
  rintro rfl
  exact absurd hc (by decide)

/-- A parameter that was built, split and decoded. -/
theorem keyValue_build (key s : Bytes) (hkey : equals ∉ key) :
    keyValue (key ++ equals :: urlEncode s) = (key, s) := by
  have hpos : ∀ c ∈ key, decide (c ≠ equals) = true := fun c hc =>
    decide_eq_true (ne_of_mem_of_not_mem hc hkey)
  rw [keyValue, List.takeWhile_append_of_pos hpos, List.dropWhile_append_of_pos hpos]
  simp [urlDecode_urlEncode]

/-- A parameter whose name is followed by an equals sign. -/
theorem setTutk_build (out : TunnelUrl) (s : Bytes) :
    setTutk out (ascii "uid=" ++ urlEncode s) = { out with tutkUid := s } ∧
      setTutk out (ascii "authkey=" ++ urlEncode s) = { out with authkey := s } ∧
      setTutk out (ascii "passwd=" ++ urlEncode s) = { out with passwd := s } ∧
      setTutk out (ascii "region=" ++ urlEncode s) = { out with region := s } := by
  have huid : keyValue (ascii "uid=" ++ urlEncode s) = (ascii "uid", s) :=
    keyValue_build (ascii "uid") s (by decide)
  have hauthkey : keyValue (ascii "authkey=" ++ urlEncode s) = (ascii "authkey", s) :=
    keyValue_build (ascii "authkey") s (by decide)
  have hpasswd : keyValue (ascii "passwd=" ++ urlEncode s) = (ascii "passwd", s) :=
    keyValue_build (ascii "passwd") s (by decide)
  have hregion : keyValue (ascii "region=" ++ urlEncode s) = (ascii "region", s) :=
    keyValue_build (ascii "region") s (by decide)
  rw [setTutk, setTutk, setTutk, setTutk, huid, hauthkey, hpasswd, hregion]
  exact ⟨rfl, rfl, rfl, rfl⟩

/-- **The stub recovers what the URL was built from.** -/
theorem parseUrl_build (huid : uid ≠ []) :
    parseUrl (buildTutkUrl uid authkey passwd region) = some
      { scheme := .tutk, rawUrl := buildTutkUrl uid authkey passwd region,
        host := ascii "tutk-relay", tutkUid := uid, authkey, passwd, region } := by
  have hbody : ((buildTutkUrl uid authkey passwd region).drop (ascii "bambu:").length).dropWhile
      (· = 0x2f) =
      ascii "tutk?" ++ [ampersand].intercalate (tutkQuery uid authkey passwd region) := by
    rw [buildTutkUrl_eq]
    rfl
  have hbambu : ascii "bambu:" <+: buildTutkUrl uid authkey passwd region := by
    rw [buildTutkUrl_eq]
    exact List.IsPrefix.trans (by decide) (List.prefix_append _ _)
  rw [parseUrl, if_pos hbambu]
  simp only [hbody, urlQuery_build, Option.getD_some, splitOn_build]
  rw [if_pos (.inl (List.prefix_append _ _))]
  simp only [tutkQuery, List.foldl_cons, List.foldl_nil, setTutk_build, if_true]
  exact if_pos huid

theorem queryParam_build (key : Bytes) (hkey : ampersand ∉ key ++ [equals]) :
    queryParam ([ampersand].intercalate (tutkQuery uid authkey passwd region)) key =
      (((tutkQuery uid authkey passwd region).find? (key ++ [equals] <+: ·)).map
        (·.drop (key ++ [equals]).length)).getD [] := by
  rw [queryParam, (scan_eq hkey (by simp) _).1, splitOn_build]

/-- What the camera finds in the query: the values as they were encoded, and no channel. -/
theorem queryParam_values :
    let query := [ampersand].intercalate (tutkQuery uid authkey passwd region)
    queryParam query (ascii "uid") = urlEncode uid ∧
      queryParam query (ascii "authkey") = urlEncode authkey ∧
      queryParam query (ascii "passwd") = urlEncode passwd ∧
      queryParam query (ascii "region") = urlEncode region ∧
      queryParam query (ascii "channel") = [] := by
  dsimp only
  refine ⟨?_, ?_, ?_, ?_, ?_⟩
  all_goals
    rw [queryParam_build _ _ _ _ _ (by decide)]
    simp [tutkQuery, ascii, List.cons_prefix_cons]

/-- The camera gets the parameters as they were encoded. -/
theorem parseTutkUrl_build (huid : uid ≠ []) (hpasswd : passwd ≠ []) :
    parseTutkUrl (buildTutkUrl uid authkey passwd region) = some
      { uid := (urlEncode uid).map toUpper, passwd := urlEncode passwd,
        authkey := urlEncode authkey, region := normalRegion (urlEncode region),
        relayId := (urlEncode uid).map toUpper } := by
  have hbambu : ascii "bambu://" <+: buildTutkUrl uid authkey passwd region := by
    rw [buildTutkUrl_eq]
    exact List.IsPrefix.trans (by decide) (List.prefix_append _ _)
  have hne : ¬ (urlEncode uid = [] ∨ urlEncode passwd = []) :=
    not_or.2 ⟨encode_ne_nil huid, encode_ne_nil hpasswd⟩
  obtain ⟨hu, ha, hp, hr, hc⟩ := queryParam_values uid authkey passwd region
  simp only [parseTutkUrl, urlQuery_build, hu, ha, hp, hr, hc]
  rw [if_pos hbambu, if_neg hne, if_pos trivial]

/-! ## When they agree -/

/-- The region is normalised alike whether it is encoded or not. -/
theorem normalRegion_urlEncode : normalRegion (urlEncode region) = normalRegion region := by
  have hplain (r : Bytes) (hr : urlEncode r = r) : urlEncode region = r ↔ region = r := by
    constructor
    · intro h
      rw [← urlDecode_urlEncode region, h, ← hr, urlDecode_urlEncode, hr]
    · rintro rfl
      exact hr
  have hcn := hplain (ascii "cn") (by decide)
  have heu := hplain (ascii "eu") (by decide)
  by_cases h : region ≠ ascii "cn" ∧ region ≠ ascii "eu"
  · rw [normalRegion, normalRegion, if_pos h, if_pos ⟨mt hcn.1 h.1, mt heu.1 h.2⟩]
  · rw [not_and_or, not_not, not_not] at h
    rcases h with rfl | rfl <;> decide

/-- Both readers recover what the URL was built from; the camera in its own spelling of the uid and
the region. -/
def Agree (uid authkey passwd region : Bytes) : Prop :=
  (∃ u, parseUrl (buildTutkUrl uid authkey passwd region) = some u ∧ u.scheme = .tutk ∧
    u.tutkUid = uid ∧ u.authkey = authkey ∧ u.passwd = passwd ∧ u.region = region) ∧
  ∃ p, parseTutkUrl (buildTutkUrl uid authkey passwd region) = some p ∧
    p.uid = uid.map toUpper ∧ p.authkey = authkey ∧ p.passwd = passwd ∧
    p.region = normalRegion region

/-- Upper case does not hide an encoded byte: the text is longer. -/
theorem map_urlEncode_eq_iff {f : UInt8 → UInt8} {s : Bytes} :
    (urlEncode s).map f = s.map f ↔ ∀ c ∈ s, unreserved c = true := by
  constructor
  · intro h
    have hlength := congrArg List.length h
    rw [List.length_map, List.length_map] at hlength
    exact length_encode_eq_iff.1 hlength
  · intro h
    rw [urlEncode, encode_eq_self h]

/-- **The readers agree exactly when no byte of the secrets is encoded.** -/
theorem agree_iff (huid : uid ≠ []) (hpasswd : passwd ≠ []) :
    Agree uid authkey passwd region ↔ ∀ c ∈ uid ++ authkey ++ passwd, unreserved c = true := by
  have hsplit : (∀ c ∈ uid ++ authkey ++ passwd, unreserved c = true) ↔
      (∀ c ∈ uid, unreserved c = true) ∧ (∀ c ∈ authkey, unreserved c = true) ∧
        ∀ c ∈ passwd, unreserved c = true := by
    rw [List.forall_mem_append, List.forall_mem_append, and_assoc]
  rw [hsplit]
  constructor
  · rintro ⟨-, p, hp, hu, ha, hw, -⟩
    rw [parseTutkUrl_build uid authkey passwd region huid hpasswd] at hp
    obtain rfl := Option.some.inj hp
    exact ⟨map_urlEncode_eq_iff.1 hu, encode_eq_self_iff.1 ha, encode_eq_self_iff.1 hw⟩
  · rintro ⟨hu, ha, hw⟩
    refine ⟨⟨_, parseUrl_build uid authkey passwd region huid, rfl, rfl, rfl, rfl, rfl⟩, _,
      parseTutkUrl_build uid authkey passwd region huid hpasswd, ?_⟩
    exact ⟨map_urlEncode_eq_iff.2 hu, encode_eq_self ha, encode_eq_self hw,
      normalRegion_urlEncode region⟩

theorem agree_iff_plain :
    Agree (ascii "VGC47JEVNKCHC9RZ111A") (ascii "c0c597fc") (ascii "secret") (ascii "us") :=
  (agree_iff _ _ _ _ (by decide) (by decide)).2 (List.all_iff_forall_prop.1 (by decide))

/-- The camera logs in with the encoded form of a password that has a reserved character. -/
theorem password_not_recovered :
    ¬ Agree (ascii "VGC47JEVNKCHC9RZ111A") (ascii "c0c597fc") (ascii "p@ss") (ascii "us") := by
  rintro ⟨-, p, hp, -, -, hw, -⟩
  rw [parseTutkUrl_build _ _ _ _ (by decide) (by decide)] at hp
  obtain rfl := Option.some.inj hp
  exact absurd hw (by decide)

end BambooNet.Camera
