import BambooNet.Json.Parse

/-!
# Logging in

`apply_login_info` builds the new session on top of the stored one. A field that the payload or
the profile reply leaves empty keeps its old value, and the flag for beta firmware is only written
after a profile request, which a payload with an inline profile skips. So two agents with different
accounts that get the same login store the same session exactly when the login goes through the
profile request and gives every field (`noninterfering_iff`).
-/

namespace BambooNet.Cloud

open Json

/-! ## The session store -/

structure Session where
  region : Bytes := ascii "GLOBAL"
  account : Bytes := []
  accessToken : Bytes := []
  refreshToken : Bytes := []
  /-- In nanoseconds, without the bounds of the clock's type. -/
  expiresAt : ℤ := 0
  userId : Bytes := []
  userName : Bytes := []
  nickName : Bytes := []
  avatar : Bytes := []
  firmwareBetaOpen : Bool := false
  deriving DecidableEq

namespace Session

/-- `if (!value.empty()) field = value`. -/
def orKeep (value old : Bytes) : Bytes := if value = [] then old else value

def updateProfile (userId userName nickName avatar : Bytes) (s : Session) : Session :=
  { s with
    userId := orKeep userId s.userId
    userName := orKeep userName s.userName
    nickName := orKeep nickName s.nickName
    avatar := orKeep avatar s.avatar }

def updateFirmwareBeta (isOpen : Bool) (s : Session) : Session :=
  { s with firmwareBetaOpen := isOpen }

end Session

/-! ## The profile request -/

structure HttpResponse where
  error : Bytes := []
  statusCode : ℤ := 0
  body : Bytes := []

/-- The texts that are only logged are left out. -/
structure ProfileResult where
  ok : Bool := false
  userId : Bytes := []
  userName : Bytes := []
  nickName : Bytes := []
  avatar : Bytes := []
  account : Bytes := []
  firmwareBetaOpen : Bool := false

/-- `get_profile` on the response to its request. -/
def getProfile (resp : HttpResponse) : ProfileResult :=
  if resp.error ≠ [] then {}
  else if resp.statusCode ≠ 200 then {}
  else
    match parse resp.body with
    | .error _ => {}
    | .ok root =>
      let uidStr := (root.find (ascii "uidStr")).asString
      let uid := (root.find (ascii "uid")).asInt 0
      let nickname := (root.find (ascii "nickname")).asString
      { ok := true
        userId := if uidStr = [] then (if uid ≠ 0 then decimalInt uid else []) else uidStr
        userName := (root.find (ascii "name")).asString
        nickName := if nickname = [] then (root.find (ascii "nickName")).asString else nickname
        avatar := (root.find (ascii "avatar")).asString
        account := (root.find (ascii "account")).asString
        firmwareBetaOpen := (root.find (ascii "setting.isFirmwareBetaOpen")).asBool }

/-! ## The payload -/

/-- `std::stoll`: spaces, a sign, digits. -/
def stoll? (s : Bytes) : Option ℤ :=
  let s := s.dropWhile fun c => c == 0x20 || (0x09 ≤ c && c ≤ 0x0d)
  let (neg, s) := match s with
    | c :: s' => if c = 0x2d then (true, s') else if c = 0x2b then (false, s') else (false, s)
    | [] => (false, s)
  let digits := s.takeWhile isDigit
  let n : ℤ := if neg then -natOf digits else natOf digits
  if digits = [] ∨ n < -2 ^ 63 ∨ 2 ^ 63 ≤ n then none else some n

def readIntOrStr (v : Value) : ℤ :=
  if v.isNumber then v.asInt 0
  else if v.asString = [] then 0
  else (stoll? v.asString).getD 0

/-- What `apply_login_info` reads of the payload. -/
structure LoginInfo where
  accessToken : Bytes
  refreshToken : Bytes
  expiresIn : ℤ
  account : Bytes
  userId : Bytes
  userName : Bytes
  nickName : Bytes
  avatar : Bytes
  haveProfileInline : Bool

/-- The envelope that Studio builds; without its token, the raw API response. -/
def readLoginInfo (root : Value) : LoginInfo :=
  let account := (root.find (ascii "data.user.account")).asString
  let userId := (root.find (ascii "data.user.uid")).asString
  let userName := (root.find (ascii "data.user.name")).asString
  let avatar := (root.find (ascii "data.user.avatar")).asString
  let l : LoginInfo :=
    { accessToken := (root.find (ascii "data.token")).asString
      refreshToken := (root.find (ascii "data.refresh_token")).asString
      expiresIn := readIntOrStr (root.find (ascii "data.expires_in"))
      account, userId, userName
      nickName := (root.find (ascii "data.user.nickname")).asString
      avatar
      haveProfileInline := userId ≠ [] || userName ≠ [] || avatar ≠ [] || account ≠ [] }
  if l.accessToken = [] then
    { l with
      accessToken := (root.find (ascii "accessToken")).asString
      refreshToken := (root.find (ascii "refreshToken")).asString
      expiresIn := readIntOrStr (root.find (ascii "expiresIn"))
      account := (root.find (ascii "account")).asString }
  else l

/-! ## Applying it -/

/-- What a login meets outside of the stored session. -/
structure Env where
  now : ℤ
  countryCode : Bytes
  /-- The response to the profile request for a region and a token. -/
  profile : Bytes → Bytes → HttpResponse

def Env.cloudRegion (env : Env) : Bytes :=
  if env.countryCode = ascii "CN" then ascii "CN" else ascii "GLOBAL"

/-- The profile reply that a login gets if it asks for one. -/
def Env.profileResult (env : Env) (l : LoginInfo) : ProfileResult :=
  getProfile (env.profile env.cloudRegion l.accessToken)

/-- The session that a login with a token stores. -/
def storeLogin (env : Env) (l : LoginInfo) (s : Session) : Session :=
  let expiresIn := if l.expiresIn > 0 then l.expiresIn else 3 * 30 * 24 * 3600
  let s : Session :=
    { s with
      region := env.cloudRegion
      accessToken := l.accessToken
      refreshToken := Session.orKeep l.refreshToken s.refreshToken
      account := Session.orKeep l.account s.account
      expiresAt := env.now + 1000000000 * expiresIn }
  if l.haveProfileInline then s.updateProfile l.userId l.userName l.nickName l.avatar
  else
    let prof := env.profileResult l
    if prof.ok then
      (s.updateProfile prof.userId prof.userName prof.nickName prof.avatar).updateFirmwareBeta
        prof.firmwareBetaOpen
    else s

def success : ℤ := 0
def errInvalidHandle : ℤ := -1
def errInvalidResult : ℤ := -19

/-- The return value and the store, which there is once the config directory is known. -/
def applyLoginInfo (env : Env) (payload : Bytes) (store : Option Session) : ℤ × Option Session :=
  match store with
  | none => (errInvalidHandle, none)
  | some s =>
    match parse payload with
    | .error _ => (errInvalidResult, some s)
    | .ok root =>
      let l := readLoginInfo root
      if l.accessToken = [] then (errInvalidResult, some s)
      else (success, some (storeLogin env l s))

/-! ## What survives a login -/

namespace Session

/-- A session with one value in all of its texts. Two of them that differ in the value and in the
flag differ in every field. -/
def marked (mark : UInt8) (beta : Bool) : Session where
  region := [mark]
  account := [mark]
  accessToken := [mark]
  refreshToken := [mark]
  expiresAt := mark.toNat
  userId := [mark]
  userName := [mark]
  nickName := [mark]
  avatar := [mark]
  firmwareBetaOpen := beta

/-- A value that may be empty is what lets the old one through. -/
theorem orKeep_eq_iff {value : Bytes} :
    orKeep value [0x70] = orKeep value [0x71] ↔ value ≠ [] := by
  by_cases h : value = [] <;> simp [orKeep, h]

end Session

open Session

/-- The two tokens, the account and all that the profile request gives. -/
structure Gives (env : Env) (l : LoginInfo) : Prop where
  refreshToken : l.refreshToken ≠ []
  account : l.account ≠ []
  asked : l.haveProfileInline = false
  answered : (env.profileResult l).ok = true
  userId : (env.profileResult l).userId ≠ []
  userName : (env.profileResult l).userName ≠ []
  nickName : (env.profileResult l).nickName ≠ []
  avatar : (env.profileResult l).avatar ≠ []

theorem Gives.storeLogin_eq {env : Env} {l : LoginInfo} (h : Gives env l) (s s' : Session) :
    storeLogin env l s = storeLogin env l s' := by
  simp [storeLogin, updateProfile, updateFirmwareBeta, orKeep, h.asked, h.answered, h.refreshToken,
    h.account, h.userId, h.userName, h.nickName, h.avatar]

theorem Gives.of_storeLogin_eq {env : Env} {l : LoginInfo}
    (h : storeLogin env l (marked 0x70 false) = storeLogin env l (marked 0x71 true)) :
    Gives env l := by
  have hasked : l.haveProfileInline = false := by
    have hbeta := congrArg Session.firmwareBetaOpen h
    cases hinline : l.haveProfileInline
    · rfl
    · simp [storeLogin, updateProfile, hinline, marked] at hbeta
  have hanswered : (env.profileResult l).ok = true := by
    have hbeta := congrArg Session.firmwareBetaOpen h
    cases hok : (env.profileResult l).ok
    · simp [storeLogin, hasked, hok, marked] at hbeta
    · rfl
  simp only [storeLogin, hasked, hanswered, updateProfile, updateFirmwareBeta, Bool.false_eq_true,
    if_true, if_false, Session.mk.injEq] at h
  obtain ⟨-, haccount, -, hrefresh, -, hid, hname, hnick, havatar, -⟩ := h
  exact ⟨orKeep_eq_iff.1 hrefresh, orKeep_eq_iff.1 haccount, hasked, hanswered,
    orKeep_eq_iff.1 hid, orKeep_eq_iff.1 hname, orKeep_eq_iff.1 hnick,
    orKeep_eq_iff.1 havatar⟩

/-- Two agents with different accounts that a payload logs in store the same session. -/
def Noninterfering (env : Env) (payload : Bytes) : Prop :=
  ∀ s s' : Session, s.userId ≠ s'.userId → (applyLoginInfo env payload (some s)).1 = success →
    (applyLoginInfo env payload (some s')).1 = success ∧
      (applyLoginInfo env payload (some s)).2 = (applyLoginInfo env payload (some s')).2

/-- **Noninterference.** A payload that logs in stores the same session over every old one if and
only if it carries both tokens and the account, has no inline profile, and the profile request is
answered with every field. -/
theorem noninterfering_iff (env : Env) (payload : Bytes) :
    Noninterfering env payload ↔
      ∀ root, parse payload = .ok root → (readLoginInfo root).accessToken ≠ [] →
        Gives env (readLoginInfo root) := by
  constructor
  · intro h root hroot htoken
    have heq := (h (marked 0x70 false) (marked 0x71 true) (by decide)
      (by simp [applyLoginInfo, hroot, htoken])).2
    simp only [applyLoginInfo, hroot, htoken, if_false, Option.some.injEq] at heq
    exact Gives.of_storeLogin_eq heq
  · intro h s s' _ hok
    cases hroot : parse payload with
    | error e => simp [applyLoginInfo, hroot, success, errInvalidResult] at hok
    | ok root =>
      by_cases htoken : (readLoginInfo root).accessToken = []
      · simp [applyLoginInfo, hroot, htoken, success, errInvalidResult] at hok
      · have heq := (h root hroot htoken).storeLogin_eq s s'
        simp [applyLoginInfo, hroot, htoken, heq]

/-- The payload that Studio builds has a profile, without a nickname. -/
def studioPayload : Bytes :=
  ascii "\x7b\"data\":\x7b\"token\":\"t\",\"refresh_token\":\"r\",\"expires_in\":\"9\"," ++
    ascii "\"user\":\x7b\"uid\":\"1\",\"name\":\"n\",\"account\":\"a\",\"avatar\":\"v\"\x7d\x7d\x7d"

theorem not_noninterfering_studio :
    ¬ Noninterfering { now := 0, countryCode := ascii "US", profile := fun _ _ => {} }
      studioPayload := by
  intro h
  have heq := (h (marked 0x70 false) (marked 0x71 true) (by decide) (by decide +kernel)).2
  revert heq
  decide +kernel

end BambooNet.Cloud
