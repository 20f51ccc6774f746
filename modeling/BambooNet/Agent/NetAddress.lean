import BambooNet.Agent.ReportFields
import BambooNet.Json.Unambiguous
import BambooNet.Lib.JsonPass
import BambooNet.Lib.Strtoul

/-!
# The address in a report

A printer behind a router reports an address that cannot be reached. With `override_lan_ip` the
agent writes the address that it is connected to over the numbers named `ip` in the `net` object. It
looks for `"net":` in the text and goes from there to the end of the text, over the sign and the
digits of every number that follows `"ip":`.

**Pass.** So it makes a pass over the tree of the report (`tryOverrideNetIp_bytes`), and what it
returns is a JSON text.

**Which numbers.** The scan does not know where the object ends, and a fraction or an exponent stays
behind the new digits. The report is the right one exactly when that makes no difference at any
member with a number (`tryOverrideNetIp_iff`).
-/

namespace BambooNet.Agent

open Json JsonSyntax

/-! ## The program -/

/-- `%u` of `sscanf`, as an `unsigned` of 32 bits. -/
def scanUnsigned (s : Bytes) : Option (ℕ × Bytes) :=
  let r := strtoul 10 s
  if r.2.length < s.length then some (r.1 % 2 ^ 32, r.2) else none

def scanDot (s : Bytes) : Option Bytes := if s.head? = some dot then some s.tail else none

/-- The number whose bytes are the four of `%u.%u.%u.%u`, if all of them are there. -/
def ipInt (s : Bytes) : Option ℕ := do
  let a ← scanUnsigned s
  let b ← (scanDot a.2).bind scanUnsigned
  let c ← (scanDot b.2).bind scanUnsigned
  let d ← (scanDot c.2).bind scanUnsigned
  pure (a.1 ||| b.1 <<< 8 ||| c.1 <<< 16 ||| d.1 <<< 24)

def kIpKey : Bytes := fieldNeedle (ascii "ip")

def kNetKey : Bytes := fieldNeedle (ascii "net")

/-- The sign and the digits of an integer. -/
def integerText (p : Bytes) : Bytes :=
  let sign : Bytes := if p.head? = some minus then [minus] else []
  sign ++ (p.drop sign.length).takeWhile isDigit

/-- One turn of the loop: the text up to where the search goes on, the text from there, and whether
there was a number to write over. -/
def overrideTurn (ipStr p : Bytes) : Option (Bytes × Bytes × Bool) :=
  (findFirst kIpKey p).map fun r =>
    let value := dropSpaces r.2
    let number := integerText value
    (r.1 ++ kIpKey ++ r.2.takeWhile (· = 0x20) ++ (if number = [] then [] else ipStr),
      value.drop number.length, decide (number ≠ []))

theorem overrideTurn_shorter {ipStr p : Bytes} {r : Bytes × Bytes × Bool}
    (h : overrideTurn ipStr p = some r) : r.2.1.length < p.length := by
  obtain ⟨⟨a, b⟩, hfind, rfl⟩ := Option.map_eq_some_iff.1 h
  have hlength := congrArg List.length (eq_of_findFirst hfind)
  have hkey : kIpKey.length = 5 := rfl
  have hspaces : (dropSpaces b).length ≤ b.length := (List.dropWhile_suffix _).length_le
  rw [List.length_append, List.length_append, hkey] at hlength
  show ((dropSpaces b).drop _).length < p.length
  rw [List.length_drop]
  omega

/-- The loop from `search_from` on: what becomes of the text from there, and whether anything was
written. -/
def overrideFrom (ipStr p : Bytes) : Bytes × Bool :=
  match _h : overrideTurn ipStr p with
  | none => (p, false)
  | some r =>
    let later := overrideFrom ipStr r.2.1
    (r.1 ++ later.1, r.2.2 || later.2)
termination_by p.length
decreasing_by exact overrideTurn_shorter _h

/-- The payload, and whether it was touched. -/
def tryOverrideNetIp (payload connectIp : Bytes) : Bytes × Bool :=
  if connectIp = [] then (payload, false)
  else
    match ipInt (connectIp.takeWhile (· ≠ 0)) with
    | none => (payload, false)
    | some ip =>
      match findFirst kNetKey payload with
      | none => (payload, false)
      | some r =>
        let later := overrideFrom (decimal ip) (kNetKey ++ r.2)
        (r.1 ++ later.1, later.2)

/-! ## Addresses -/

/-- An IPv4 address. -/
structure DottedQuad where
  a : UInt8
  b : UInt8
  c : UInt8
  d : UInt8

namespace DottedQuad

def text (ip : DottedQuad) : Bytes :=
  decimal ip.a.toNat ++ (dot :: (decimal ip.b.toNat ++ (dot :: (decimal ip.c.toNat ++
    (dot :: decimal ip.d.toNat)))))

/-- The little-endian number. -/
def value (ip : DottedQuad) : ℕ := leNat [ip.a, ip.b, ip.c, ip.d]

end DottedQuad

theorem scanUnsigned_decimal (x : UInt8) {q : Bytes} (hq : ∀ c ∈ q.head?, isDigit c = false) :
    scanUnsigned (decimal x.toNat ++ q) = some (x.toNat, q) := by
  have hx := x.toNat_lt
  have hlength := List.length_pos_iff.2 (decimal_ne_nil x.toNat)
  have hread := strtoul_decimal (decimal_ne_nil x.toNat) isDigit_of_mem_decimal hq
  have hshorter : q.length < (decimal x.toNat ++ q).length := by
    rw [List.length_append]
    omega
  simp only [scanUnsigned, hread, natOf_decimal]
  rw [if_pos hshorter, Nat.min_eq_left (by omega), Nat.mod_eq_of_lt (by omega)]

theorem ipInt_text (ip : DottedQuad) : ipInt ip.text = some ip.value := by
  have hdot (q : Bytes) : ∀ c ∈ (dot :: q).head?, isDigit c = false := fun c hc =>
    Option.some.inj hc ▸ rfl
  have hscan (q : Bytes) : scanDot (dot :: q) = some q := rfl
  have hlast := scanUnsigned_decimal ip.d (q := []) (fun c hc => absurd hc (by simp))
  rw [List.append_nil] at hlast
  have ha := ip.a.toNat_lt
  have hb := ip.b.toNat_lt
  have hc := ip.c.toNat_lt
  have hvalue : ip.a.toNat ||| ip.b.toNat <<< 8 ||| ip.c.toNat <<< 16 ||| ip.d.toNat <<< 24 =
      ip.value := by
    rw [or_shiftLeft_eq_add (by omega : ip.a.toNat < 2 ^ 8),
      or_shiftLeft_eq_add (by omega : ip.a.toNat + 2 ^ 8 * ip.b.toNat < 2 ^ 16),
      or_shiftLeft_eq_add
        (by omega : ip.a.toNat + 2 ^ 8 * ip.b.toNat + 2 ^ 16 * ip.c.toNat < 2 ^ 24)]
    simp only [DottedQuad.value, leNat]
    omega
  simp only [ipInt, DottedQuad.text, scanUnsigned_decimal _ (hdot _), hscan, hlast,
    Option.bind_eq_bind, Option.bind_some, hvalue]
  rfl

/-- An address has no NUL and is not empty. -/
theorem DottedQuad.text_plain (ip : DottedQuad) :
    ip.text ≠ [] ∧ ip.text.takeWhile (· ≠ 0) = ip.text := by
  have hdecimal (n : ℕ) : 0 ∉ decimal n := fun h => absurd (isDigit_of_mem_decimal 0 h) (by decide)
  have hdot : (0 : UInt8) ≠ dot := by decide
  refine ⟨List.append_ne_nil_of_left_ne_nil (decimal_ne_nil _) _, ?_⟩
  refine List.takeWhile_eq_self_iff.2 fun c hc => decide_eq_true ?_
  rintro rfl
  simp [DottedQuad.text, hdecimal, hdot] at hc

/-! ## The scan -/

theorem letters_ip : (∀ c ∈ ascii "ip", 0x61 ≤ c ∧ c ≤ 0x7a) ∧ ascii "ip" ≠ [] :=
  ⟨List.all_iff_forall_prop.1 (by decide), List.cons_ne_nil _ _⟩

theorem letters_net : (∀ c ∈ ascii "net", 0x61 ≤ c ∧ c ≤ 0x7a) ∧ ascii "net" ≠ [] :=
  ⟨List.all_iff_forall_prop.1 (by decide), List.cons_ne_nil _ _⟩

theorem plain_ip : ∀ c ∈ ascii "ip", IsPlain c := List.all_iff_forall_prop.1 (by decide)

theorem plain_net : ∀ c ∈ ascii "net", IsPlain c := List.all_iff_forall_prop.1 (by decide)

def ipName : Name := ⟨ascii "ip", letters_ip.1, letters_ip.2⟩

def netName : Name := ⟨ascii "net", letters_net.1, letters_net.2⟩

/-- What becomes of a text, before the key of the object and from there on. -/
def netRun (ip : ℕ) (reached : Bool) (p : Bytes) : Bytes :=
  if reached then (overrideFrom (decimal ip) p).1
  else ((findFirst kNetKey p).map fun r =>
    r.1 ++ (overrideFrom (decimal ip) (kNetKey ++ r.2)).1).getD p

section Run

variable {ip : ℕ} {p q : Bytes}

theorem netRun_none (h : overrideTurn (decimal ip) p = none) : netRun ip true p = p := by
  rw [netRun, if_pos rfl, overrideFrom]
  split
  · rfl
  · next hr => cases h.symm.trans hr

theorem netRun_some {r : Bytes × Bytes × Bool} (h : overrideTurn (decimal ip) p = some r) :
    netRun ip true p = r.1 ++ netRun ip true r.2.1 := by
  rw [netRun, if_pos rfl, overrideFrom]
  split
  · next hr => cases h.symm.trans hr
  · next hr =>
    cases h.symm.trans hr
    rfl

/-- The search for the numbers. -/
def ipScan (ip : ℕ) : LabelScan ipName.label Bytes where
  scan := netRun ip true
  push := List.cons
  step c p h := by
    have hneg : ¬ kIpKey <+: c :: p := h
    have hturn : overrideTurn (decimal ip) (c :: p) =
        (overrideTurn (decimal ip) p).map fun r => (c :: r.1, r.2) := by
      rw [overrideTurn, findFirst, if_neg hneg, overrideTurn, Option.map_map, Option.map_map]
      rfl
    cases hp : overrideTurn (decimal ip) p with
    | none =>
      rw [hp] at hturn
      rw [netRun_none hturn, netRun_none hp]
    | some r =>
      rw [hp] at hturn
      rw [netRun_some hturn, netRun_some hp]
      rfl

/-- The search for the key of the object. -/
def netScan (ip : ℕ) : LabelScan netName.label Bytes where
  scan := netRun ip false
  push := List.cons
  step c p h := by
    have hneg : ¬ kNetKey <+: c :: p := h
    simp only [netRun, Bool.false_eq_true, if_false, findFirst, if_neg hneg]
    cases findFirst kNetKey p with
    | none => rfl
    | some r => rfl

theorem ipRun_found (ip : ℕ) (q : Bytes) :
    let number := integerText (dropSpaces q)
    netRun ip true (kIpKey ++ q) = kIpKey ++ (q.takeWhile (· = 0x20) ++
      ((if number = [] then [] else decimal ip) ++
        netRun ip true ((dropSpaces q).drop number.length))) := by
  have hne : kIpKey ≠ [] := List.cons_ne_nil _ _
  have hfind := findFirst_here hne q
  have hturn : overrideTurn (decimal ip) (kIpKey ++ q) = _ :=
    congrArg (Option.map _) hfind
  rw [netRun_some hturn]
  simp only [List.nil_append, List.append_assoc]

/-- Where no number follows the text is copied. -/
theorem ipRun_skip (h : integerText (dropSpaces q) = []) :
    netRun ip true (kIpKey ++ q) = kIpKey ++ netRun ip true q := by
  have hspaces : 0x22 ∉ q.takeWhile (· = 0x20) := fun hmem => by
    have hspace := List.mem_takeWhile_imp hmem
    exact absurd hspace (by decide)
  have hcopy := copy_noQuote (S := ipScan ip) rfl hspaces (dropSpaces q)
  rw [dropSpaces, List.takeWhile_append_dropWhile] at hcopy
  rw [ipRun_found, h, if_pos rfl, List.nil_append, List.length_nil, List.drop_zero]
  exact congrArg (kIpKey ++ ·) hcopy.symm

theorem netRun_net (q : Bytes) : netRun ip false (kNetKey ++ q) = kNetKey ++ netRun ip true q := by
  have hne : kNetKey ≠ [] := List.cons_ne_nil _ _
  have hfind := findFirst_here hne q
  have hkey : ¬ ((Str.verbatim (ascii "net") plain_net).EndsWith ipName ∧ Ws.none.bytes = []) := by
    rw [Str.EndsWith, Str.text_verbatim]
    exact fun h => absurd h.1 (by decide)
  have hcopy := copy_otherKey (S := ipScan ip) rfl hkey q
  rw [Str.text_verbatim] at hcopy
  rw [netRun, if_neg (by decide), hfind]
  exact hcopy

theorem integerText_minus (p : Bytes) :
    integerText (minus :: p) = minus :: p.takeWhile isDigit := rfl

theorem integerText_noMinus (h : p.head? ≠ some minus) : integerText p = p.takeWhile isDigit := by
  simp only [integerText, h, if_false, List.length_nil, List.drop_zero, List.nil_append]

theorem integerText_nil (h : ∀ c ∈ p.head?, c ≠ minus ∧ isDigit c = false) :
    integerText p = [] := by
  rw [integerText_noMinus fun hminus => (h minus hminus).1 rfl]
  cases p with
  | nil => rfl
  | cons c p => exact List.takeWhile_cons_of_neg (by simp [(h c rfl).2])

/-- What comes behind the integer part of a number. -/
theorem scale_head (n : Numeral) (hq : Follows q) :
    ∀ c ∈ (n.fracText ++ (n.expText ++ q)).head?, isDigit c = false := by
  have hexp : ∀ c ∈ (n.expText ++ q).head?, isDigit c = false := by
    rw [Numeral.expText]
    cases n.exp with
    | none => exact fun c hc => isDigit_of_isWord (head_not_word hq c hc)
    | some e =>
      intro c hc
      obtain rfl := Option.some.inj hc
      cases e.upper <;> rfl
  rw [Numeral.fracText]
  cases n.frac with
  | none => exact hexp
  | some d =>
    intro c hc
    obtain rfl := Option.some.inj hc
    rfl

theorem integerText_number (n : Numeral) (hq : Follows q) :
    integerText (n.text ++ q) = (if n.neg then [minus] else []) ++ n.int.bytes ∧
      (n.text ++ q).drop (integerText (n.text ++ q)).length =
        n.fracText ++ (n.expText ++ q) := by
  have htake : (n.int.bytes ++ (n.fracText ++ (n.expText ++ q))).takeWhile isDigit =
      n.int.bytes := by
    rw [List.takeWhile_append_of_pos n.int.digits]
    have hhead := scale_head n hq
    generalize n.fracText ++ (n.expText ++ q) = r at hhead
    cases r with
    | nil => exact List.append_nil _
    | cons c r => rw [List.takeWhile_cons_of_neg (by simp [hhead c rfl]), List.append_nil]
  have htext : n.text ++ q = (if n.neg then [minus] else []) ++
      (n.int.bytes ++ (n.fracText ++ (n.expText ++ q))) := by
    simp only [Numeral.text, List.append_assoc]
  have hinteger : integerText (n.text ++ q) =
      (if n.neg then [minus] else []) ++ n.int.bytes := by
    rw [htext]
    cases n.neg with
    | true => exact (integerText_minus _).trans (congrArg (minus :: ·) htake)
    | false =>
      refine (integerText_noMinus fun hminus => ?_).trans htake
      obtain ⟨c, t, ht⟩ := List.exists_cons_of_ne_nil n.int.nonempty
      have hdigit := n.int.digits c (ht ▸ List.mem_cons_self)
      rw [ht] at hminus
      obtain rfl := Option.some.inj hminus
      exact absurd hdigit (by decide)
  refine ⟨hinteger, ?_⟩
  rw [hinteger, htext, ← List.append_assoc, List.drop_left]

/-- Where what follows is no number, or there is more than spaces before it. -/
theorem integerText_other {lead : Ws} {v : Node}
    (h : ¬ ((∀ c ∈ lead.bytes, c = 0x20) ∧ v.number?.isSome)) (q : Bytes) :
    integerText (dropSpaces (lead.bytes ++ (v.text ++ q))) = [] := by
  refine integerText_nil fun c hc => ?_
  rw [dropSpaces, List.dropWhile_append] at hc
  cases hdrop : lead.bytes.dropWhile (· = 0x20) with
  | cons d t =>
    rw [hdrop] at hc
    obtain rfl := Option.some.inj hc
    have hmem : d ∈ lead.bytes.dropWhile (· = 0x20) := hdrop ▸ List.mem_cons_self
    have hwhite := lead.white d ((List.dropWhile_sublist _).subset hmem)
    have hplain : ∀ c ∈ whitespace, c ≠ minus ∧ isDigit c = false :=
      List.all_iff_forall_prop.1 (by decide)
    exact hplain d hwhite
  | nil =>
    rw [hdrop] at hc
    have hspaces : ∀ c ∈ lead.bytes, c = 0x20 := fun c hmem =>
      of_decide_eq_true (List.dropWhile_eq_nil_iff.1 hdrop c hmem)
    obtain ⟨d, t, htext, hd, -⟩ := text_begins v
    have hv : v.number? = none := Option.not_isSome_iff_eq_none.1 fun hn => h ⟨hspaces, hn⟩
    rw [htext, List.cons_append, List.isEmpty_nil, if_pos rfl,
      List.dropWhile_cons_of_neg (by simpa using hd)] at hc
    obtain rfl := Option.some.inj hc
    cases v with
    | number n => cases hv
    | bool b =>
      cases b <;> obtain ⟨rfl, -⟩ := List.cons.inj htext <;> exact ⟨by decide, rfl⟩
    | null | string | emptyArray | array | emptyObject | object =>
      obtain ⟨rfl, -⟩ := List.cons.inj htext
      exact ⟨by decide, rfl⟩

end Run

/-! ## The pass -/

/-- Whether the key of the object has come. -/
def reaching : Pass Bool where
  enter key after _ _ reached := reached || decide (key.EndsWith netName ∧ after.bytes = [])
  leave _ t := t

/-- A member that the scan finds: its key ends with the name in quotes, the colon is directly behind
and nothing but spaces is before the value. -/
def IpKey (key : Str) (after lead : Ws) : Prop :=
  (key.EndsWith ipName ∧ after.bytes = []) ∧ ∀ c ∈ lead.bytes, c = 0x20

instance (key : Str) (after lead : Ws) : Decidable (IpKey key after lead) :=
  inferInstanceAs (Decidable ((_ ∧ _) ∧ _))

/-- The address for the sign and the integer part of a number. -/
def overwritten (ip : ℕ) (n : Number) : Number where
  neg := false
  int := ⟨decimal ip, isDigit_of_mem_decimal, decimal_ne_nil ip⟩
  frac := n.frac
  exp := n.exp
  noLeadingZero := decimal_head

def overwriting (ip : ℕ) (key : Str) (after lead : Ws) (reached : Bool) (n : Number) : Number :=
  if reached = true ∧ IpKey key after lead then overwritten ip n else n

theorem overwritten_text (ip : ℕ) (n : Number) :
    (overwritten ip n).text = decimal ip ++ (n.fracText ++ n.expText) := rfl

section Member

variable {ip : ℕ} {key : Str} {after lead : Ws} {q : Bytes}

/-- A number that is found. -/
theorem netRun_number (h : IpKey key after lead) (n : Number) (hq : Follows q) :
    netRun ip true (key.text ++ (after.bytes ++ colon :: (lead.bytes ++ (n.text ++ q)))) =
      key.text ++ (after.bytes ++ colon :: (lead.bytes ++
        ((overwritten ip n).text ++ netRun ip true q))) := by
  obtain ⟨⟨⟨a, ha⟩, hafter⟩, hlead⟩ := h
  obtain ⟨hdrop, htake⟩ := dropSpaces_lead hlead (.number n) q
  obtain ⟨hinteger, hrest⟩ := integerText_number n.toNumeral hq
  have hkey := copy_key (S := ipScan ip) rfl ha.symm (lead.bytes ++ (n.text ++ q))
  have hfound := ipRun_found ip (lead.bytes ++ (n.text ++ q))
  have hne : ¬ integerText (n.text ++ q) = [] := by
    rw [hinteger]
    exact List.append_ne_nil_of_right_ne_nil _ n.int.nonempty
  have hnumber : 0x22 ∉ n.fracText ++ n.expText := fun hmem => n.quote_notMem (by
    rw [Numeral.text]
    exact List.mem_append_right _ (List.mem_append_right _ hmem))
  have hcopy := copy_noQuote (S := ipScan ip) rfl hnumber q
  rw [Node.text] at hdrop htake
  rw [hafter, List.nil_append]
  refine hkey.trans ?_
  refine (congrArg (a ++ ·) hfound).trans ?_
  rw [hdrop, htake, if_neg hne, hrest, ← List.append_assoc n.fracText]
  refine (congrArg (fun r => a ++ (kIpKey ++ (lead.bytes ++ (decimal ip ++ r)))) hcopy).trans ?_
  rw [← ha, overwritten_text]
  simp only [List.append_assoc]
  rfl

/-- Elsewhere the member is copied. -/
theorem netRun_other {v : Node} {reached : Bool}
    (h : ¬ (reached = true ∧ IpKey key after lead ∧ v.number?.isSome)) (q : Bytes) :
    netRun ip reached (key.text ++ (after.bytes ++ colon :: (lead.bytes ++ (v.text ++ q)))) =
      key.text ++ (after.bytes ++ colon :: (lead.bytes ++
        netRun ip (reaching.enter key after lead v reached) (v.text ++ q))) := by
  have hcopyLead := copy_noQuote (S := ipScan ip) rfl lead.quote_notMem (v.text ++ q)
  cases reached with
  | true =>
    by_cases hkey : key.EndsWith ipName ∧ after.bytes = []
    · obtain ⟨⟨a, ha⟩, hafter⟩ := id hkey
      have hfound := copy_key (S := ipScan ip) rfl ha.symm (lead.bytes ++ (v.text ++ q))
      have hskip : netRun ip true (kIpKey ++ (lead.bytes ++ (v.text ++ q))) = _ :=
        ipRun_skip (integerText_other (fun hn => h ⟨rfl, ⟨hkey, hn.1⟩, hn.2⟩) q)
      rw [hafter, List.nil_append]
      refine hfound.trans ((congrArg (a ++ ·) hskip).trans ?_)
      refine (congrArg (fun r => a ++ (kIpKey ++ r)) hcopyLead).trans ?_
      rw [← ha]
      simp only [List.append_assoc]
      rfl
    · refine (copy_otherKey (S := ipScan ip) rfl hkey _).trans ?_
      exact congrArg (fun r => key.text ++ (after.bytes ++ colon :: r)) hcopyLead
  | false =>
    by_cases hkey : key.EndsWith netName ∧ after.bytes = []
    · have henter : reaching.enter key after lead v false = true := decide_eq_true hkey
      obtain ⟨⟨a, ha⟩, hafter⟩ := hkey
      have hfound := copy_key (S := netScan ip) rfl ha.symm (lead.bytes ++ (v.text ++ q))
      rw [henter, hafter, List.nil_append]
      refine hfound.trans ((congrArg (a ++ ·) (netRun_net _)).trans ?_)
      refine (congrArg (fun r => a ++ (kNetKey ++ r)) hcopyLead).trans ?_
      rw [← ha]
      simp only [List.append_assoc]
      rfl
    · have henter : reaching.enter key after lead v false = false := decide_eq_false hkey
      rw [henter]
      refine (copy_otherKey (S := netScan ip) rfl hkey _).trans ?_
      have hlead := copy_noQuote (S := netScan ip) rfl lead.quote_notMem (v.text ++ q)
      exact congrArg (fun r => key.text ++ (after.bytes ++ colon :: r)) hlead

end Member

/-- The key of the object is no key of a number. -/
theorem reached_of_ipKey {key : Str} {after lead : Ws} {v : Node} {reached : Bool}
    (h : IpKey key after lead) (hinner : reaching.enter key after lead v reached = true) :
    reached = true := by
  refine (Bool.or_eq_true_iff.1 hinner).resolve_right fun hnet => ?_
  have hsuffix : ipName.quoted <:+ netName.quoted :=
    List.suffix_of_suffix_length_le h.1.1 (of_decide_eq_true hnet).1 (by decide)
  exact absurd hsuffix (by decide)

theorem netRun_plain (ip : ℕ) {t : Bytes} (ht : 0x22 ∉ t) (reached : Bool) (q : Bytes) :
    netRun ip reached (t ++ q) = t ++ netRun ip reached q := by
  cases reached with
  | true => exact copy_noQuote (S := ipScan ip) rfl ht q
  | false => exact copy_noQuote (S := netScan ip) rfl ht q

/-- The program over the text makes the pass. -/
def netPass (ip : ℕ) : PassScan reaching (overwriting ip) where
  run := netRun ip
  leave _ _ := rfl
  char s c q hc :=
    netRun_plain ip (List.not_mem_cons_of_ne_of_not_mem hc.symm List.not_mem_nil) s q
  value s t q hq := by
    cases s with
    | true => exact copy_value (S := ipScan ip) rfl t hq
    | false => exact copy_value (S := netScan ip) rfl t hq
  number s key after lead n q hq := by
    dsimp only
    rw [overwriting]
    by_cases h : s = true ∧ IpKey key after lead
    · obtain ⟨rfl, hkey⟩ := h
      rw [if_pos ⟨rfl, hkey⟩]
      exact netRun_number hkey n hq
    · have hinner : ¬ (reaching.enter key after lead (.number n) s = true ∧ IpKey key after lead) :=
        fun hc => h ⟨reached_of_ipKey hc.2 hc.1, hc.2⟩
      have hcopy : netRun ip (reaching.enter key after lead (.number n) s) (n.text ++ q) = _ :=
        netRun_plain ip n.quote_notMem _ q
      rw [if_neg hinner, ← hcopy]
      exact netRun_other (v := .number n) (fun hc => h ⟨hc.1, hc.2.1⟩) q
  other s key after lead v q hv hq :=
    netRun_other (fun h => by simp [hv] at h) q

/-- The report as the agent changes it. -/
def overridden (ip : ℕ) (t : Text) : Text where
  before := t.before
  node := t.node.rewrite reaching (overwriting ip) id false
  after := t.after

/-- **What the payload becomes** is the text of the changed report. -/
theorem tryOverrideNetIp_bytes (ip : DottedQuad) (t : Text) :
    (tryOverrideNetIp t.bytes ip.text).1 = (overridden ip.value t).bytes := by
  obtain ⟨hne, hnul⟩ := ip.text_plain
  have hrun : (tryOverrideNetIp t.bytes ip.text).1 = netRun ip.value false t.bytes := by
    rw [tryOverrideNetIp, if_neg hne, hnul, ipInt_text, netRun, if_neg (by decide)]
    cases findFirst kNetKey t.bytes with
    | none => rfl
    | some r => rfl
  have hend (s : Bool) : netRun ip.value s t.after.bytes = t.after.bytes := by
    have hnil : netRun ip.value s [] = [] := by
      cases s with
      | true => exact netRun_none rfl
      | false => rfl
    have hplain := netRun_plain ip.value t.after.quote_notMem s []
    rwa [List.append_nil, hnil, List.append_nil] at hplain
  have hnode : netRun ip.value false (t.node.text ++ t.after.bytes) = _ :=
    (netPass ip.value).run_node t.node false t.follows_after
  rw [hrun, Text.bytes, netRun_plain _ t.before.quote_notMem, hnode]
  exact congrArg (fun r => t.before.bytes ++ (_ ++ r)) (hend _)

/-! ## What the report should be -/

/-- The `net` object of a report. -/
def isNet (key : Str) (_ _ : Ws) (v : Node) : Bool := key.decoded == ascii "net" && v.isObject

def toAddress (ip : ℕ) (key : Str) (_ _ : Ws) (n : Number) : Number :=
  if key.decoded = ascii "ip" then .ofInt ip else n

/-- The report with the address for every number named `ip` in its `net` object, if it has one. -/
def netTree (ip : ℕ) (v : Node) : Node :=
  ((v.first isNet).map fun f => f.plug (f.value.everywhere (toAddress ip))).getD v

/-- The payload is a JSON text of that report. -/
def Overridden (ip : DottedQuad) (t : Text) (payload : Bytes) : Prop :=
  ∃ u : Text, u.bytes = payload ∧ u.node.doc = (netTree ip.value t.node).doc

/-- Where a member stands: behind the key that the search comes to, and in the `net` object. -/
def netSpot : Pass (Bool × Place) := reaching.prod (within isNet)

/-- The number in the member is written over. -/
def IsWritten (key : Str) (after lead : Ws) (s : Bool × Place) : Prop :=
  s.1 = true ∧ IpKey key after lead

/-- The number in the member is one of the `net` object's addresses. -/
def IsMeant (key : Str) (s : Bool × Place) : Prop := s.2 = .inside ∧ key.decoded = ascii "ip"

instance (key : Str) (after lead : Ws) (s : Bool × Place) :
    Decidable (IsWritten key after lead s) :=
  inferInstanceAs (Decidable (_ ∧ _))

instance (key : Str) (s : Bool × Place) : Decidable (IsMeant key s) :=
  inferInstanceAs (Decidable (_ ∧ _))

/-- The scan leaves the number that is meant. -/
structure AsMeant (ip : ℕ) (key : Str) (after lead : Ws) (s : Bool × Place) (n : Number) :
    Prop where
  /-- No fraction and no exponent stay behind the address. -/
  whole : IsWritten key after lead s → IsMeant key s →
    natOf n.fracBytes = 0 ∧ (ip = 0 ∨ natOf n.expBytes = 0)
  /-- A number of something else has the integer part that is written over it. -/
  same : IsWritten key after lead s → ¬ IsMeant key s →
    (n.neg = false ∧ natOf n.int.bytes = ip) ∨ (n.mantissa = 0 ∧ ip = 0)
  /-- A number that the scan does not find is the address. -/
  already : ¬ IsWritten key after lead s → IsMeant key s → n.toRat = ip

theorem mul_zpow_eq_iff (m q : ℚ) (a b : ℕ) :
    m * 10 ^ ((a : ℤ) - b) = q ↔ m * 10 ^ a = q * 10 ^ b := by
  have hpow : (10 : ℚ) ^ b ≠ 0 := by positivity
  rw [zpow_sub₀ (by norm_num), zpow_natCast, zpow_natCast, mul_div_assoc', div_eq_iff hpow]

theorem toRat_overwritten (ip : ℕ) (n : Number) :
    (overwritten ip n).toRat =
      ((ip * 10 ^ n.fracBytes.length + natOf n.fracBytes : ℕ) : ℚ) * 10 ^ n.scale := by
  have hmantissa : (overwritten ip n).mantissa =
      ip * 10 ^ n.fracBytes.length + natOf n.fracBytes :=
    (natOf_append _ _).trans (by rw [overwritten, natOf_decimal]; rfl)
  have hscale : (overwritten ip n).scale = n.scale := rfl
  have hneg : ¬ (overwritten ip n).neg = true := Bool.false_ne_true
  rw [Numeral.toRat, hmantissa, hscale, if_neg hneg, one_mul]

theorem toRat_ofInt (ip : ℕ) : (Number.ofInt ip).toRat = ip := by
  rw [Numeral.toRat_of_isInt (Number.isInt_ofInt ip), Number.intValue_ofInt, Int.cast_natCast]

theorem natOf_fracBytes_lt (n : Numeral) : natOf n.fracBytes < 10 ^ n.fracBytes.length := by
  refine natOf_lt fun c hc => ?_
  rw [Numeral.fracBytes] at hc
  cases hfrac : n.frac with
  | none =>
    rw [hfrac] at hc
    cases hc
  | some d =>
    rw [hfrac] at hc
    exact d.digits c hc

/-- The address with what stays of a number is the address when that is nothing. -/
theorem overwritten_eq_address_iff (ip : ℕ) (n : Number) :
    (overwritten ip n).toRat = (Number.ofInt ip).toRat ↔
      natOf n.fracBytes = 0 ∧ (ip = 0 ∨ natOf n.expBytes = 0) := by
  have hfrac := natOf_fracBytes_lt n.toNumeral
  rw [toRat_overwritten, toRat_ofInt]
  generalize natOf n.fracBytes = f at hfrac ⊢
  generalize hk : n.fracBytes.length = k at hfrac ⊢
  generalize he : natOf n.expBytes = e
  have hone : 1 ≤ 10 ^ k := Nat.one_le_pow _ _ (by decide)
  have hip : ip ≠ 0 → 10 ^ k ≤ ip * 10 ^ k := fun h =>
    Nat.le_mul_of_pos_left _ (Nat.pos_of_ne_zero h)
  have hten (he : e ≠ 0) (m : ℕ) : 10 * m ≤ m * 10 ^ e := by
    rw [Nat.mul_comm]
    exact Nat.mul_le_mul_left m (Nat.le_self_pow he 10)
  have hzero (h : ip = 0) : ip * 10 ^ k = 0 := by rw [h, Nat.zero_mul]
  cases hneg : n.expNeg with
  | true =>
    have hscale : n.scale = ((0 : ℕ) : ℤ) - (e + k : ℕ) := by
      rw [Numeral.scale, hneg, if_pos rfl, he, hk]
      push_cast
      ring
    have hnat : ((ip * 10 ^ k + f : ℕ) : ℚ) * 10 ^ n.scale = ip ↔
        ip * 10 ^ k + f = ip * 10 ^ k * 10 ^ e := by
      rw [hscale, mul_zpow_eq_iff, pow_zero, mul_one, Nat.add_comm e, pow_add, ← mul_assoc]
      exact_mod_cast Iff.rfl
    rw [hnat]
    constructor
    · intro h
      by_cases hexp : e = 0
      · rw [hexp, pow_zero, mul_one] at h
        exact ⟨by omega, .inr hexp⟩
      · have hlarge := hten hexp (ip * 10 ^ k)
        by_cases hip0 : ip = 0
        · have := hzero hip0
          rw [this, Nat.zero_mul] at h
          exact ⟨by omega, .inl hip0⟩
        · have := hip hip0
          omega
    · rintro ⟨rfl, rfl | hexp⟩
      · simp
      · rw [hexp, pow_zero, mul_one, Nat.add_zero]
  | false =>
    have hscale : n.scale = (e : ℤ) - (k : ℕ) := by
      rw [Numeral.scale, hneg, if_neg Bool.false_ne_true, he, hk]
    have hnat : ((ip * 10 ^ k + f : ℕ) : ℚ) * 10 ^ n.scale = ip ↔
        (ip * 10 ^ k + f) * 10 ^ e = ip * 10 ^ k := by
      rw [hscale, mul_zpow_eq_iff]
      exact_mod_cast Iff.rfl
    rw [hnat]
    constructor
    · intro h
      by_cases hexp : e = 0
      · rw [hexp, pow_zero, mul_one] at h
        exact ⟨by omega, .inr hexp⟩
      · have hlarge := hten hexp (ip * 10 ^ k + f)
        by_cases hip0 : ip = 0
        · exact ⟨by omega, .inl hip0⟩
        · have := hip hip0
          omega
    · rintro ⟨rfl, rfl | hexp⟩
      · simp
      · rw [hexp, pow_zero, mul_one, Nat.add_zero]

/-- A number is the same with the address in it when it had that integer part. -/
theorem overwritten_eq_self_iff (ip : ℕ) (n : Number) :
    (overwritten ip n).toRat = n.toRat ↔
      (n.neg = false ∧ natOf n.int.bytes = ip) ∨ (n.mantissa = 0 ∧ ip = 0) := by
  have hpow : (10 : ℚ) ^ n.scale ≠ 0 := by positivity
  have hmantissa : n.mantissa = natOf n.int.bytes * 10 ^ n.fracBytes.length + natOf n.fracBytes :=
    natOf_append _ _
  have hpos : 0 < 10 ^ n.fracBytes.length := Nat.pow_pos (by decide)
  rw [toRat_overwritten, Numeral.toRat, ← mul_assoc, mul_left_inj' hpow]
  cases hneg : n.neg with
  | true =>
    rw [if_pos rfl, neg_one_mul, eq_neg_iff_add_eq_zero]
    have hnat : (((ip * 10 ^ n.fracBytes.length + natOf n.fracBytes : ℕ) : ℚ) + n.mantissa = 0) ↔
        ip * 10 ^ n.fracBytes.length + natOf n.fracBytes + n.mantissa = 0 := by
      exact_mod_cast Iff.rfl
    rw [hnat]
    constructor
    · intro h
      have hip : ip * 10 ^ n.fracBytes.length = 0 := by omega
      exact .inr ⟨by omega, (Nat.mul_eq_zero.1 hip).resolve_right hpos.ne'⟩
    · rintro (⟨h, -⟩ | ⟨hzero, rfl⟩)
      · cases h
      · rw [Nat.zero_mul]
        omega
  | false =>
    rw [if_neg Bool.false_ne_true, one_mul, Nat.cast_inj, hmantissa, Nat.add_right_cancel_iff,
      Nat.mul_left_inj hpos.ne']
    constructor
    · exact fun h => .inl ⟨rfl, h.symm⟩
    · rintro (⟨-, h⟩ | ⟨hzero, rfl⟩)
      · exact h.symm
      · have hint : natOf n.int.bytes * 10 ^ n.fracBytes.length = 0 := by omega
        exact ((Nat.mul_eq_zero.1 hint).resolve_right hpos.ne').symm

/-- What a number becomes is what it should be. -/
theorem asMeant_iff (ip : ℕ) (key : Str) (after lead : Ws) (s : Bool × Place) (n : Number) :
    AsMeant ip key after lead s n ↔
      (overwriting ip key after lead s.1 n).toRat =
        (insideOnly (toAddress ip) key after lead s.2 n).toRat := by
  have hspec : insideOnly (toAddress ip) key after lead s.2 n =
      if IsMeant key s then .ofInt ip else n := by
    rw [insideOnly]
    by_cases hplace : s.2 = .inside
    · by_cases hkey : key.decoded = ascii "ip"
      · rw [if_pos hplace, toAddress, if_pos hkey, if_pos ⟨hplace, hkey⟩]
      · rw [if_pos hplace, toAddress, if_neg hkey, if_neg fun h => hkey h.2]
    · rw [if_neg hplace, if_neg fun h => hplace h.1]
      rfl
  have hcode : overwriting ip key after lead s.1 n =
      if IsWritten key after lead s then overwritten ip n else n := rfl
  rw [hspec, hcode]
  by_cases hwritten : IsWritten key after lead s <;> by_cases hmeant : IsMeant key s
  · rw [if_pos hwritten, if_pos hmeant, overwritten_eq_address_iff]
    exact ⟨fun h => h.whole hwritten hmeant, fun h => ⟨fun _ _ => h,
      fun _ hother => absurd hmeant hother, fun hother => absurd hwritten hother⟩⟩
  · rw [if_pos hwritten, if_neg hmeant, overwritten_eq_self_iff]
    exact ⟨fun h => h.same hwritten hmeant, fun h => ⟨fun _ hother => absurd hother hmeant,
      fun _ _ => h, fun hother => absurd hwritten hother⟩⟩
  · rw [if_neg hwritten, if_pos hmeant, toRat_ofInt]
    exact ⟨fun h => h.already hwritten hmeant, fun h => ⟨fun hother => absurd hother hwritten,
      fun hother => absurd hother hwritten, fun _ _ => h⟩⟩
  · rw [if_neg hwritten, if_neg hmeant]
    exact iff_of_true ⟨fun hother => absurd hother hwritten,
      fun hother => absurd hother hwritten, fun _ hother => absurd hother hmeant⟩ rfl

/-- The pass in the `net` object makes the report that is meant. -/
theorem netTree_eq (ip : ℕ) (v : Node) :
    netTree ip v = v.rewrite (within isNet) (insideOnly (toAddress ip)) id .before := by
  have hnum : ∀ key after lead w, isNet key after lead w = true → w.number? = none := by
    intro key after lead w h
    cases w with
    | number n => exact absurd (Bool.and_eq_true_iff.1 h).2 Bool.false_ne_true
    | null | bool | string | emptyArray | array | emptyObject | object => rfl
  rw [netTree]
  cases hv : v.first isNet with
  | none => exact (Node.rewrite_none hv).1.symm
  | some f => exact (Node.rewrite_some hnum hv).1.symm

theorem doc_overridden_iff (ip : ℕ) (t : Text) :
    (overridden ip t).node.doc = (netTree ip t.node).doc ↔
      t.node.AllNumbers netSpot (AsMeant ip) (fun _ => True) (false, .before) := by
  have hfst : netSpot.Hom reaching Prod.fst := Pass.prod_fst _ _
  have hsnd : netSpot.Hom (within isNet) Prod.snd := Pass.prod_snd _ _
  have hcode : t.node.rewrite reaching (overwriting ip) id false =
      t.node.rewrite netSpot (fun key after lead s => overwriting ip key after lead s.1) id
        (false, .before) := (Node.rewrite_hom hfst id t.node (false, .before)).symm
  have hspec : netTree ip t.node =
      t.node.rewrite netSpot (fun key after lead s =>
        insideOnly (toAddress ip) key after lead s.2) id (false, .before) :=
    (netTree_eq _ _).trans (Node.rewrite_hom hsnd id t.node (false, .before)).symm
  have hid (n : Number) : True ↔ (id n).toRat = (id n).toRat := iff_of_true trivial rfl
  rw [overridden, hcode, hspec]
  exact Node.doc_rewrite_iff hid (asMeant_iff ip) t.node (false, .before)

/-- **The report is the right one** exactly when every number in it becomes what is meant. -/
theorem tryOverrideNetIp_iff (ip : DottedQuad) (t : Text) :
    Overridden ip t (tryOverrideNetIp t.bytes ip.text).1 ↔
      t.node.AllNumbers netSpot (AsMeant ip.value) (fun _ => True) (false, .before) := by
  rw [tryOverrideNetIp_bytes, ← doc_overridden_iff]
  constructor
  · rintro ⟨u, hbytes, hdoc⟩
    rw [← hdoc]
    exact (doc_eq_of_bytes hbytes).symm
  · exact fun h => ⟨overridden ip.value t, rfl, h⟩

/-- `{"net":{"ip":1},"ip":2}`. -/
def addressFrame : Text :=
  let net : Str := .verbatim (ascii "net") plain_net
  let ip : Str := .verbatim (ascii "ip") plain_ip
  ⟨.none, .object (.cons .none net .none .none
    (.object (.last .none ip .none .none (.number (.ofInt 1)) .none)) .none
    (.last .none ip .none .none (.number (.ofInt 2)) .none)), .none⟩

/-- A number behind the object is written over, too. -/
theorem later_number_overwritten :
    ¬ Overridden ⟨192, 168, 1, 2⟩ addressFrame
      (tryOverrideNetIp addressFrame.bytes (DottedQuad.text ⟨192, 168, 1, 2⟩)).1 := by
  rw [tryOverrideNetIp_bytes]
  rintro ⟨u, hbytes, hdoc⟩
  have hall := (doc_overridden_iff _ _).1 ((doc_eq_of_bytes hbytes).symm.trans hdoc)
  have hkey : IpKey (.verbatim (ascii "ip") plain_ip) .none .none :=
    ⟨⟨⟨[], rfl⟩, rfl⟩, fun _ hc => absurd hc List.not_mem_nil⟩
  have hbehind {key : Str} {s : Bool} : ¬ IsMeant key (s, .behind) := fun h => Place.noConfusion h.1
  have hlast := hall.2.same ⟨rfl, hkey⟩ hbehind
  revert hlast
  decide

end BambooNet.Agent
