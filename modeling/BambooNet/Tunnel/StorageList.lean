import BambooNet.Json.RoundTrip
import BambooNet.Tunnel.Messages

/-!
# The storage list

`parse_ability_reply_to_ft_json` takes the storages out of an ability reply and prints them as a
list of their own. The strings come from the JSON parser, which can produce any bytes; the printing
escapes quotes only.

A backslash is then read as the beginning of an escape. Reading the string back takes at least two
characters for one (`Garbled`), or takes the closing quote for a character and goes on into the
list; the string that is read is another one in either case (`stringBody_escapeQuotes`).
-/

namespace BambooNet.Tunnel

open Json JsonSyntax

/-! ## The reply -/

/-- The storages of a reply: the writable ones before the full list and older forms of it. -/
def pickStorages (reply : Value) : List Value :=
  let pickArray (key : Bytes) (storages : List Value) : List Value :=
    match reply.find key with
    | .array vs => vs
    | _ => storages
  let orElse (storages : List Value) (key : Bytes) : List Value :=
    if storages.isEmpty then pickArray key storages else storages
  let storages := pickArray (ascii "upload_storage") []
  let storages := orElse storages (ascii "storage")
  let storages := orElse storages (ascii "storage_list")
  let storages := orElse storages (ascii "storages")
  if storages.isEmpty then
    match reply.find (ascii "ability") with
    | .object ab =>
      let v := (Value.object ab).find (ascii "upload_storage")
      let v := match v with
        | .array _ => v
        | _ => (Value.object ab).find (ascii "storage")
      match v with
      | .array vs => vs
      | _ => storages
    | _ => storages
  else storages

def escapeQuotes (s : Bytes) : Bytes :=
  s.flatMap fun c => if c = quote then [backslash, quote] else [c]

/-- A storage as it is printed. -/
def storageText (s : Bytes) : Bytes := quote :: (escapeQuotes s ++ [quote])

def storagesText : List Bytes → Bytes
  | [] => []
  | [s] => storageText s
  | s :: ss => storageText s ++ comma :: storagesText ss

def parseAbilityReplyToFtJson (wireJson : Bytes) : Bytes :=
  match parse wireJson with
  | .error _ => []
  | .ok root =>
    if toInt32 ((root.find (ascii "result")).asInt (-1)) ≠ 0 then []
    else
      match root.find (ascii "reply") with
      | .object reply =>
        let storages := pickStorages (.object reply)
        if storages.isEmpty then []
        else lbracket :: (storagesText (storages.map Value.asString) ++ [rbracket])
      | _ => []

/-- An ability reply with result 0 whose chosen storages are the strings `ss`. -/
def Offers (wireJson : Bytes) (ss : List Bytes) : Prop :=
  ∃ root reply, parse wireJson = .ok root ∧
    toInt32 ((root.find (ascii "result")).asInt (-1)) = 0 ∧
    root.find (ascii "reply") = .object reply ∧
    pickStorages (.object reply) = ss.map .string ∧ ss ≠ []

theorem Offers.ne_nil {wireJson : Bytes} {ss : List Bytes} (h : Offers wireJson ss) : ss ≠ [] := by
  obtain ⟨-, -, -, -, -, -, hne⟩ := h
  exact hne

/-- The list that is printed. -/
def listText (ss : List Bytes) : Bytes := lbracket :: (storagesText ss ++ [rbracket])

theorem parseAbilityReply_of_offers {wireJson : Bytes} {ss : List Bytes} (h : Offers wireJson ss) :
    parseAbilityReplyToFtJson wireJson = listText ss := by
  obtain ⟨root, reply, hparse, hresult, hreply, hpick, hne⟩ := h
  have hempty : (ss.map Value.string).isEmpty = false := by simpa using hne
  have hmap : (ss.map Value.string).map Value.asString = ss := by
    rw [List.map_map]
    exact List.map_id ss
  simp only [parseAbilityReplyToFtJson, hparse, hresult, hreply, hpick, hempty, hmap, ne_eq,
    not_true_eq_false, if_false, Bool.false_eq_true, listText]

/-! ## Strings without a backslash -/

theorem escapeQuotes_cons (c : UInt8) (s : Bytes) :
    escapeQuotes (c :: s) = (if c = quote then [backslash, quote] else [c]) ++ escapeQuotes s := rfl

theorem escapeQuotes_quote (s : Bytes) :
    escapeQuotes (quote :: s) = backslash :: quote :: escapeQuotes s := rfl

theorem escapeQuotes_other {c : UInt8} (h : c ≠ quote) (s : Bytes) :
    escapeQuotes (c :: s) = c :: escapeQuotes s := by
  rw [escapeQuotes_cons, if_neg h, List.singleton_append]

theorem stringBody_raw {c : UInt8} (hquote : c ≠ quote) (hback : c ≠ backslash) (fuel : ℕ)
    (p : Bytes) :
    stringBody (fuel + 1) (c :: p) = (stringBody fuel p).map fun r => (c :: r.1, r.2) := by
  simp only [stringBody, if_neg hquote, if_neg hback]

theorem stringBody_short {e x : UInt8} (h : escapeChar? e = some x) (fuel : ℕ) (p : Bytes) :
    stringBody (fuel + 1) (backslash :: e :: p) =
      (stringBody fuel p).map fun r => (x :: r.1, r.2) := by
  have he : e ≠ 0x75 := by
    rintro rfl
    cases h
  simp only [stringBody, if_neg he, h]
  rfl

/-- A string without a backslash is read back. -/
theorem stringBody_plain {s : Bytes} (hs : backslash ∉ s) {fuel : ℕ} {p : Bytes}
    (hfuel : (escapeQuotes s).length < fuel) :
    stringBody fuel (escapeQuotes s ++ quote :: p) = .ok (s, p) := by
  induction s generalizing fuel with
  | nil =>
    obtain ⟨fuel, rfl⟩ := Nat.exists_eq_add_one_of_ne_zero (Nat.ne_zero_of_lt hfuel)
    rfl
  | cons c s ih =>
    rw [List.mem_cons, not_or] at hs
    obtain ⟨hc, hs⟩ := hs
    obtain ⟨fuel, rfl⟩ := Nat.exists_eq_add_one_of_ne_zero (Nat.ne_zero_of_lt hfuel)
    by_cases hq : c = quote
    · subst hq
      rw [escapeQuotes_quote, List.length_cons, List.length_cons] at hfuel
      rw [escapeQuotes_quote, List.cons_append, List.cons_append, stringBody_short rfl,
        ih hs (by omega)]
      rfl
    · rw [escapeQuotes_other hq, List.length_cons] at hfuel
      rw [escapeQuotes_other hq, List.cons_append, stringBody_raw hq (Ne.symm hc),
        ih hs (by omega)]
      rfl

/-! ## Strings with a backslash -/

/-- `d` is read for `s`: shorter, or ending with the comma that follows a swallowed quote. -/
def Garbled (s d : Bytes) : Prop :=
  d.length < s.length ∨ (s.getLast? = some backslash ∧ d.getLast? = some comma)

namespace Garbled

variable {s d : Bytes}

theorem ne (h : Garbled s d) : d ≠ s := by
  rintro rfl
  rcases h with h | ⟨hs, hd⟩
  · exact lt_irrefl _ h
  · rw [hs] at hd
    exact absurd (Option.some.inj hd) (by decide)

/-- Characters that are read for at least as many do not make it right. -/
theorem append (h : Garbled s d) {u x : Bytes} (hlen : x.length ≤ u.length) :
    Garbled (u ++ s) (x ++ d) := by
  rcases h with h | ⟨hs, hd⟩
  · left
    rw [List.length_append, List.length_append]
    omega
  · right
    rw [List.getLast?_append, List.getLast?_append, hs, hd]
    exact ⟨rfl, rfl⟩

theorem cons (h : Garbled s d) (c x : UInt8) : Garbled (c :: s) (x :: d) :=
  @append s d h [c] [x] (le_refl _)

end Garbled

/-- What may be read for `s` before `t`: the string and all of its text, or something else. -/
def ReadFor (s t d r : Bytes) : Prop := (backslash ∉ s ∧ d = s ∧ r = t) ∨ Garbled s d

/-- An escape is read as fewer bytes than it has characters. -/
theorem ReadFor.escape {s t d r : Bytes} (h : ReadFor s t d r) {u x : Bytes}
    (hlen : x.length < u.length) : Garbled (u ++ s) (x ++ d) := by
  rcases h with ⟨-, rfl, -⟩ | h
  · left
    rw [List.length_append, List.length_append]
    omega
  · exact h.append hlen.le

/-- A character that is neither a quote nor a backslash comes from the string itself. -/
theorem escapeQuotes_eq_cons {s t p : Bytes} {c : UInt8}
    (h : escapeQuotes s ++ quote :: t = c :: p) (hquote : c ≠ quote) (hback : c ≠ backslash) :
    ∃ s', s = c :: s' ∧ p = escapeQuotes s' ++ quote :: t := by
  cases s with
  | nil => exact absurd (List.cons.inj h).1.symm hquote
  | cons e s =>
    by_cases he : e = quote
    · subst he
      exact absurd (List.cons.inj h).1.symm hback
    · rw [escapeQuotes_other he, List.cons_append] at h
      obtain ⟨rfl, rfl⟩ := List.cons.inj h
      exact ⟨s, rfl, rfl⟩

theorem ne_of_hexDigit? {c : UInt8} {d : ℕ} (h : hexDigit? c = some d) :
    c ≠ quote ∧ c ≠ backslash := by
  constructor
  · rintro rfl
    cases h
  · rintro rfl
    cases h

/-- Four hexadecimal digits come from the string itself. -/
theorem escapeQuotes_eq_hex4 {s t p : Bytes} {a b c d : UInt8} {n : ℕ}
    (h : escapeQuotes s ++ quote :: t = a :: b :: c :: d :: p) (hhex : hex4? a b c d = some n) :
    ∃ s', s = [a, b, c, d] ++ s' ∧ p = escapeQuotes s' ++ quote :: t := by
  unfold hex4? at hhex
  split at hhex
  · next ha hb hc hd =>
    obtain ⟨s₁, rfl, h₁⟩ := escapeQuotes_eq_cons h (ne_of_hexDigit? ha).1 (ne_of_hexDigit? ha).2
    obtain ⟨s₂, rfl, h₂⟩ :=
      escapeQuotes_eq_cons h₁.symm (ne_of_hexDigit? hb).1 (ne_of_hexDigit? hb).2
    obtain ⟨s₃, rfl, h₃⟩ :=
      escapeQuotes_eq_cons h₂.symm (ne_of_hexDigit? hc).1 (ne_of_hexDigit? hc).2
    obtain ⟨s₄, rfl, h₄⟩ :=
      escapeQuotes_eq_cons h₃.symm (ne_of_hexDigit? hd).1 (ne_of_hexDigit? hd).2
    exact ⟨s₄, rfl, h₄⟩
  · cases hhex

theorem length_utf8_le (cp : ℕ) : (utf8 cp).length ≤ 4 := by
  unfold utf8
  split
  · simp
  · split
    · simp
    · split <;> simp

/-- The low half of a surrogate pair comes from the string itself. -/
theorem joinSurrogate_escapeQuotes {s t p : Bytes} {cp n : ℕ}
    (h : joinSurrogate cp (escapeQuotes s ++ quote :: t) = .ok (n, p)) :
    ∃ u s', s = u ++ s' ∧ p = escapeQuotes s' ++ quote :: t := by
  unfold joinSurrogate at h
  split at h
  · next hcond =>
    obtain ⟨-, -, -, hfirst, hsecond⟩ := hcond
    split at h
    · next x y h₁ h₂ h₃ h₄ q heq =>
      split at h
      · cases h
      · next lo hhex =>
        split at h
        · obtain ⟨-, rfl⟩ := Prod.mk.inj (Except.ok.inj h)
          rw [heq] at hfirst hsecond
          obtain rfl : x = backslash := Option.some.inj hfirst
          obtain rfl : y = 0x75 := Option.some.inj hsecond
          -- a backslash before a `u` does not belong to an escaped quote
          cases s with
          | nil => exact absurd (List.cons.inj heq).1 (by decide)
          | cons c s =>
            by_cases hc : c = quote
            · subst hc
              exact absurd (List.cons.inj (List.cons.inj heq).2).1 (by decide)
            · rw [escapeQuotes_other hc, List.cons_append] at heq
              obtain ⟨rfl, htail⟩ := List.cons.inj heq
              obtain ⟨s₁, rfl, hrest₁⟩ := escapeQuotes_eq_cons htail (by decide) (by decide)
              obtain ⟨s₂, rfl, hrest₂⟩ := escapeQuotes_eq_hex4 hrest₁.symm hhex
              exact ⟨[backslash, 0x75, h₁, h₂, h₃, h₄], s₂, rfl, hrest₂⟩
        · obtain ⟨-, rfl⟩ := Prod.mk.inj (Except.ok.inj h)
          exact ⟨[], s, rfl, rfl⟩
    · cases h
  · obtain ⟨-, rfl⟩ := Prod.mk.inj (Except.ok.inj h)
    exact ⟨[], s, rfl, rfl⟩

/-- A `\u` escape comes from the string itself, and is read as at most four bytes. -/
theorem unicodeEscape_escapeQuotes {s t p x : Bytes}
    (h : unicodeEscape (escapeQuotes s ++ quote :: t) = .ok (x, p)) :
    ∃ u s', s = u ++ s' ∧ p = escapeQuotes s' ++ quote :: t ∧ x.length ≤ u.length := by
  unfold unicodeEscape at h
  split at h
  · cases h
  · split at h
    · next h₁ h₂ h₃ h₄ q heq =>
      split at h
      · cases h
      · next cp hhex =>
        obtain ⟨s', rfl, rfl⟩ := escapeQuotes_eq_hex4 heq hhex
        split at h
        · cases h
        · next n q hjoin =>
          obtain ⟨rfl, rfl⟩ := Prod.mk.inj (Except.ok.inj h)
          obtain ⟨u, s, rfl, hq⟩ := joinSurrogate_escapeQuotes hjoin
          refine ⟨[h₁, h₂, h₃, h₄] ++ u, s, by simp, hq, ?_⟩
          have := length_utf8_le n
          simp only [List.length_append, List.length_cons, List.length_nil]
          omega
    · cases h

/-- What is read before the rest. -/
theorem of_map_append {x d r : Bytes} {rest : Parsed Bytes}
    (h : rest.map (fun r => (x ++ r.1, r.2)) = .ok (d, r)) :
    ∃ d', d = x ++ d' ∧ rest = .ok (d', r) := by
  cases rest with
  | error e => cases h
  | ok rest =>
    obtain ⟨rfl, rfl⟩ := Prod.mk.inj (Except.ok.inj h)
    exact ⟨rest.1, rfl, rfl⟩

section Body

variable {t : Bytes} {fuel : ℕ} (ht : ∀ fuel d r, stringBody fuel t = .ok (d, r) → d = [comma])
  (ih : ∀ {s d r}, stringBody fuel (escapeQuotes s ++ quote :: t) = .ok (d, r) → ReadFor s t d r)

include ht ih

/-- A backslash garbles the string: it swallows the closing quote, uncovers a quote of the string,
or begins an escape. -/
theorem stringBody_backslash {s d r : Bytes}
    (h : stringBody (fuel + 1) (backslash :: (escapeQuotes s ++ quote :: t)) = .ok (d, r)) :
    Garbled (backslash :: s) d := by
  cases s with
  | nil =>
    rw [show escapeQuotes [] ++ quote :: t = quote :: t from rfl, stringBody_short rfl] at h
    obtain ⟨d', rfl, hrest⟩ := @of_map_append [quote] _ _ _ h
    rw [ht _ _ _ hrest]
    exact .inr ⟨rfl, rfl⟩
  | cons e s =>
    by_cases hquote : e = quote
    · subst hquote
      rw [escapeQuotes_quote, List.cons_append, stringBody_short rfl] at h
      obtain ⟨d', rfl, hrest⟩ := @of_map_append [backslash] _ _ _ h
      cases fuel with
      | zero => cases hrest
      | succ fuel =>
        obtain ⟨rfl, -⟩ := Prod.mk.inj (Except.ok.inj hrest)
        exact .inl (by simp)
    rw [escapeQuotes_other hquote, List.cons_append] at h
    by_cases hu : e = 0x75
    · subst hu
      rw [stringBody, if_neg (by decide), if_pos rfl] at h
      simp only [if_true] at h
      split at h
      · cases h
      · next x p hescape =>
        obtain ⟨u, s', rfl, rfl, hlen⟩ := unicodeEscape_escapeQuotes hescape
        obtain ⟨d', rfl, hrest⟩ := of_map_append h
        exact @ReadFor.escape _ _ _ _ (ih hrest) (backslash :: 0x75 :: u) x
          (by simp only [List.length_cons]; omega)
    · cases hshort : escapeChar? e with
      | none =>
        simp only [stringBody, if_neg (show backslash ≠ quote by decide), if_neg hu, hshort] at h
        cases h
      | some x =>
        rw [stringBody_short hshort] at h
        obtain ⟨d', rfl, hrest⟩ := @of_map_append [x] _ _ _ h
        exact @ReadFor.escape _ _ _ _ (ih hrest) [backslash, e] [x] (by simp)

end Body

/-- **What is read for a string is the string itself or garbled.** The text `t` after the closing
quote gives nothing but a comma when it is read as part of the string. -/
theorem stringBody_escapeQuotes {t : Bytes}
    (ht : ∀ fuel d r, stringBody fuel t = .ok (d, r) → d = [comma]) {fuel : ℕ} {s d r : Bytes}
    (h : stringBody fuel (escapeQuotes s ++ quote :: t) = .ok (d, r)) : ReadFor s t d r := by
  induction fuel generalizing s d r with
  | zero => cases h
  | succ fuel ih =>
    cases s with
    | nil =>
      obtain ⟨rfl, rfl⟩ := Prod.mk.inj (Except.ok.inj h)
      exact .inl ⟨List.not_mem_nil, rfl, rfl⟩
    | cons c s =>
      by_cases hquote : c = quote
      · subst hquote
        rw [escapeQuotes_quote, List.cons_append, List.cons_append, stringBody_short rfl] at h
        obtain ⟨d', rfl, hrest⟩ := @of_map_append [quote] _ _ _ h
        rcases ih hrest with ⟨hs, rfl, rfl⟩ | hg
        · refine .inl ⟨?_, rfl, rfl⟩
          rw [List.mem_cons, not_or]
          exact ⟨by decide, hs⟩
        · exact .inr (hg.cons _ _)
      rw [escapeQuotes_other hquote, List.cons_append] at h
      by_cases hback : c = backslash
      · subst hback
        exact .inr (stringBody_backslash ht (fun h => ih h) h)
      · rw [stringBody_raw hquote hback] at h
        obtain ⟨d', rfl, hrest⟩ := @of_map_append [c] _ _ _ h
        rcases ih hrest with ⟨hs, rfl, rfl⟩ | hg
        · refine .inl ⟨?_, rfl, rfl⟩
          rw [List.mem_cons, not_or]
          exact ⟨Ne.symm hback, hs⟩
        · exact .inr (hg.cons _ _)

/-! ## The list -/

/-- What follows a storage in the list. -/
def nextText : List Bytes → Bytes
  | [] => [rbracket]
  | s :: ss => comma :: (storagesText (s :: ss) ++ [rbracket])

theorem storagesText_cons (s : Bytes) (ss : List Bytes) :
    storagesText (s :: ss) ++ [rbracket] = storageText s ++ nextText ss := by
  cases ss with
  | nil => rfl
  | cons s' ss => simp [storagesText, nextText]

/-- Read as part of a string, what follows ends with the quote of the next storage. -/
theorem stringBody_nextText (ss : List Bytes) (fuel : ℕ) (d r : Bytes)
    (h : stringBody fuel (nextText ss) = .ok (d, r)) : d = [comma] := by
  cases fuel with
  | zero => cases h
  | succ fuel =>
    cases ss with
    | nil =>
      cases fuel with
      | zero => cases h
      | succ fuel => cases h
    | cons s ss =>
      rw [nextText, storagesText_cons] at h
      cases fuel with
      | zero => cases h
      | succ fuel =>
        obtain ⟨rfl, -⟩ := Prod.mk.inj (Except.ok.inj h)
        rfl

theorem parseValue_storage (frames depth : ℕ) (s p : Bytes) :
    parseValue (frames + 1) depth (storageText s ++ p) =
      (stringBody ((escapeQuotes s ++ quote :: p).length + 1) (escapeQuotes s ++ quote :: p)).map
        fun r => (.string r.1, r.2) := by
  have htext : storageText s ++ p = quote :: (escapeQuotes s ++ quote :: p) := by
    simp [storageText]
  rw [htext, parseValue, valueWith, skipWs_cons (by decide)]
  simp only [if_true, parseString]

theorem elements_prefix {value : Bytes → Parsed Value} {fuel : ℕ} {vs ws : List Value} {p r : Bytes}
    (h : elements value fuel vs p = .ok (ws, r)) : vs <+: ws := by
  induction fuel generalizing vs p with
  | zero => cases h
  | succ fuel ih =>
    rw [elements] at h
    split at h
    · cases h
    · next v p' hv =>
      dsimp only at h
      split at h
      · cases h
      · split at h
        · exact (List.prefix_append vs [v]).trans (ih h)
        · split at h
          · obtain ⟨rfl, -⟩ := Prod.mk.inj (Except.ok.inj h)
            exact List.prefix_append vs [v]
          · cases h

/-- The first element stays where it is. -/
theorem elements_first {value : Bytes → Parsed Value} {fuel : ℕ} {vs ws : List Value} {v : Value}
    {p p' r : Bytes} (h : elements value (fuel + 1) vs p = .ok (ws, r))
    (hv : value p = .ok (v, p')) : vs ++ [v] <+: ws := by
  rw [elements, hv] at h
  dsimp only at h
  split at h
  · cases h
  · split at h
    · exact elements_prefix h
    · split at h
      · obtain ⟨rfl, -⟩ := Prod.mk.inj (Except.ok.inj h)
        exact List.prefix_refl _
      · cases h

/-- A list that is read back has no backslash in its strings. -/
theorem not_mem_of_elements {ss : List Bytes} {frames depth fuel : ℕ} {vs : List Value} {r : Bytes}
    (h : elements (parseValue (frames + 1) depth) fuel vs (storagesText ss ++ [rbracket]) =
      .ok (vs ++ ss.map .string, r)) : ∀ s ∈ ss, backslash ∉ s := by
  induction ss generalizing fuel vs with
  | nil => exact fun s hs => absurd hs List.not_mem_nil
  | cons s ss ih =>
    rw [storagesText_cons] at h
    cases fuel with
    | zero => cases h
    | succ fuel =>
      have hvalue := parseValue_storage frames depth s (nextText ss)
      cases hbody : stringBody ((escapeQuotes s ++ quote :: nextText ss).length + 1)
          (escapeQuotes s ++ quote :: nextText ss) with
      | error e =>
        rw [hbody] at hvalue
        rw [elements, hvalue] at h
        cases h
      | ok rest =>
        obtain ⟨d, p⟩ := rest
        rw [hbody] at hvalue
        have hfirst : d = s := by
          have hprefix := elements_first h hvalue
          rw [List.map_cons, List.prefix_append_right_inj] at hprefix
          exact Value.string.inj (List.cons_prefix_cons.1 hprefix).1
        rcases stringBody_escapeQuotes (stringBody_nextText ss) hbody with ⟨hs, -, rfl⟩ | hg
        · refine List.forall_mem_cons.2 ⟨hs, ?_⟩
          cases ss with
          | nil => exact fun s hs => absurd hs List.not_mem_nil
          | cons s' ss =>
            rw [elements, hvalue] at h
            simp only [nextText] at h
            refine @ih fuel (vs ++ [.string s]) ?_
            rw [← hfirst, List.append_assoc]
            rw [← hfirst] at h
            exact h
        · exact absurd hfirst hg.ne

/-- A list without a backslash in its strings is read back. -/
theorem elements_storages {ss : List Bytes} (hne : ss ≠ []) (hss : ∀ s ∈ ss, backslash ∉ s)
    {frames depth fuel : ℕ} (hfuel : ss.length ≤ fuel) (vs : List Value) :
    elements (parseValue (frames + 1) depth) fuel vs (storagesText ss ++ [rbracket]) =
      .ok (vs ++ ss.map .string, []) := by
  induction ss generalizing fuel vs with
  | nil => exact absurd rfl hne
  | cons s ss ih =>
    obtain ⟨fuel, rfl⟩ := Nat.exists_eq_add_one_of_ne_zero
      (Nat.ne_zero_of_lt (Nat.lt_of_lt_of_le (Nat.zero_lt_succ ss.length) hfuel))
    have hvalue : parseValue (frames + 1) depth (storageText s ++ nextText ss) =
        .ok (.string s, nextText ss) := by
      rw [parseValue_storage, stringBody_plain (hss s List.mem_cons_self)]
      · rfl
      · rw [List.length_append]
        omega
    rw [storagesText_cons, elements, hvalue]
    cases ss with
    | nil => rfl
    | cons s' ss =>
      have hrest := ih (by simp) (fun u hu => hss u (List.mem_cons_of_mem _ hu))
        (Nat.le_of_succ_le_succ hfuel) (vs ++ [.string s])
      simp only [nextText, skipWs_closing (.inl rfl), if_true, hrest, List.append_assoc,
        List.singleton_append, List.map_cons]

theorem length_le_storagesText (ss : List Bytes) : ss.length ≤ (storagesText ss).length := by
  induction ss with
  | nil => exact le_refl _
  | cons s ss ih =>
    have hlen := congrArg List.length (storagesText_cons s ss)
    cases ss with
    | nil => simp [storagesText, storageText]
    | cons s' ss =>
      simp only [nextText, List.length_append, List.length_cons, List.length_nil, storageText]
        at hlen ih ⊢
      omega

theorem parse_listText {ss : List Bytes} (hne : ss ≠ []) : parse (listText ss) =
    match elements (parseValue kMaxNestingDepth 1) ((storagesText ss ++ [rbracket]).length + 1) []
      (storagesText ss ++ [rbracket]) with
    | .error e => .error e
    | .ok (vs, p) => if skipWs p = [] then .ok (.array vs) else .error .trailing := by
  obtain ⟨s, ss, rfl⟩ := List.exists_cons_of_ne_nil hne
  have harray : parseArray (parseValue kMaxNestingDepth 1) (storagesText (s :: ss) ++ [rbracket]) =
      elements (parseValue kMaxNestingDepth 1)
        ((storagesText (s :: ss) ++ [rbracket]).length + 1) []
        (storagesText (s :: ss) ++ [rbracket]) := by
    rw [storagesText_cons, storageText, List.cons_append, parseArray, skipWs_cons (by decide)]
    exact if_neg (by decide)
  unfold parse
  rw [listText, skipWs_cons (by decide), parseValue, valueWith, skipWs_cons (by decide)]
  simp only [if_neg (show lbracket ≠ quote by decide), or_true, if_true,
    if_neg (show ¬ 0 ≥ kMaxNestingDepth by decide), if_neg (show lbracket ≠ lbrace by decide),
    Nat.zero_add, harray]
  cases elements (parseValue kMaxNestingDepth 1) _ [] (storagesText (s :: ss) ++ [rbracket]) with
  | error e => rfl
  | ok r => rfl

/-- **The parser reads the list back when no string has a backslash, and only then.** -/
theorem parse_listText_iff {ss : List Bytes} (hne : ss ≠ []) :
    parse (listText ss) = .ok (.array (ss.map .string)) ↔ ∀ s ∈ ss, backslash ∉ s := by
  rw [parse_listText hne]
  constructor
  · intro h
    split at h
    · cases h
    · next vs p helements =>
      split at h
      · obtain rfl := Value.array.inj (Except.ok.inj h)
        exact @not_mem_of_elements ss _ 1 _ [] p helements
      · cases h
  · intro hss
    have hfuel := length_le_storagesText ss
    rw [show kMaxNestingDepth = 127 + 1 from rfl, elements_storages hne hss
      (by rw [List.length_append]; omega)]
    rfl

/-! ## The list as a JSON text -/

/-- The text is a JSON text of an array of the strings. -/
def IsListOf (text : Bytes) (ss : List Bytes) : Prop :=
  ∃ t : Text, t.bytes = text ∧ t.node.value intOf = .array (ss.map .string)

/-- No backslash and no control character. -/
def Plain (s : Bytes) : Prop := ∀ c ∈ s, c ≠ backslash ∧ 0x20 ≤ c

theorem storageText_eq {s : Bytes} (hs : Plain s) : storageText s = escape s := by
  rw [escape_printable fun c hc => (hs c hc).2, storageText, escapeQuotes]
  refine congrArg (fun x => quote :: (x ++ [quote])) (List.flatMap_congr fun c hc => ?_)
  by_cases hquote : c = quote
  · rw [if_pos hquote, if_pos (.inr hquote), hquote]
  · rw [if_neg hquote, if_neg fun h => h.elim (hs c hc).1 hquote]

/-- Plain strings are printed as `dump` prints them. -/
theorem listText_eq {ss : List Bytes} (hss : ∀ s ∈ ss, Plain s) :
    listText ss = (Value.array (ss.map .string)).dump := by
  have helements : storagesText ss = dumpElements (ss.map .string) := by
    induction ss with
    | nil => rfl
    | cons s ss ih =>
      have hs := storageText_eq (hss s List.mem_cons_self)
      cases ss with
      | nil => rw [storagesText, hs, List.map_singleton, dumpElements, Value.dump]
      | cons s' ss =>
        rw [storagesText, hs, ih fun u hu => hss u (List.mem_cons_of_mem _ hu)]
        simp only [List.map_cons, dumpElements_cons, Value.dump]
        simp
  rw [listText, helements, Value.dump, List.append_assoc, List.singleton_append]

theorem isListOf_of_plain {ss : List Bytes} (hss : ∀ s ∈ ss, Plain s) :
    IsListOf (listText ss) ss := by
  have hwf : (Value.array (ss.map .string)).WF :=
    .array trivial (List.forall_mem_map.2 fun s _ => .string trivial)
  have hint : (Value.array (ss.map .string)).IntNumbers :=
    .array trivial (List.forall_mem_map.2 fun s _ => .string trivial)
  obtain ⟨node, hnode⟩ := exists_node hwf hint
  refine ⟨⟨.none, node, .none⟩, ?_, hnode.value⟩
  rw [listText_eq hss, ← hnode.text]
  simp [Text.bytes, Ws.none]

/-- Whitespace before what is not whitespace is none. -/
theorem ws_eq_nil {ws : Ws} {p q : Bytes} {c : UInt8} (h : ws.bytes ++ p = c :: q)
    (hc : isWs c = false) : ws.bytes = [] ∧ p = c :: q := by
  cases hb : ws.bytes with
  | nil =>
    rw [hb] at h
    exact ⟨rfl, h⟩
  | cons d b =>
    rw [hb] at h
    obtain ⟨rfl, -⟩ := List.cons.inj h
    have hwhite := isWs_iff.2 (ws.white d (hb ▸ List.mem_cons_self))
    rw [hwhite] at hc
    cases hc

theorem stringBody_storage {s : Bytes} (hs : backslash ∉ s) (p : Bytes) :
    parseString (storageText s ++ p) = .ok (s, p) := by
  have htext : storageText s ++ p = quote :: (escapeQuotes s ++ quote :: p) := by
    simp [storageText]
  rw [htext, parseString, if_pos rfl, stringBody_plain hs]
  rw [List.length_append]
  omega

/-- A literal of a storage without a backslash is how it is printed. -/
theorem str_eq_storageText {str : Str} {s p q : Bytes} (hs : backslash ∉ s)
    (h : str.text ++ p = storageText s ++ q) : str.text = storageText s ∧ p = q := by
  have hstr := parseString_text str p
  rw [h, stringBody_storage hs] at hstr
  obtain ⟨-, rfl⟩ := Prod.mk.inj (Except.ok.inj hstr)
  exact ⟨List.append_cancel_right h, rfl⟩

theorem plain_of_literal {str : Str} {s : Bytes} (hs : backslash ∉ s)
    (h : str.text = storageText s) : Plain s := by
  intro c hc
  refine ⟨ne_of_mem_of_not_mem hc hs, ?_⟩
  have hmem : c ∈ escapeQuotes s := by
    refine List.mem_flatMap.2 ⟨c, hc, ?_⟩
    by_cases hquote : c = quote
    · rw [if_pos hquote, hquote]
      decide
    · rw [if_neg hquote]
      exact List.mem_singleton_self c
  refine str.le_of_mem_text ?_
  rw [h, storageText]
  exact List.mem_cons_of_mem _ (List.mem_append_left _ hmem)

theorem isWs_nextText (ss : List Bytes) : ∃ c p, nextText ss = c :: p ∧ isWs c = false := by
  cases ss with
  | nil => exact ⟨_, _, rfl, by decide⟩
  | cons s ss => exact ⟨_, _, rfl, by decide⟩

theorem literal_of_value {v : Node} {s : Bytes} (hv : v.value intOf = .string s) :
    ∃ str, v = .string str := by
  cases v with
  | string str => exact ⟨str, rfl⟩
  | null | bool | number | emptyArray | array | emptyObject | object => cases hv

/-- The first element of a list is the literal that is printed. -/
theorem plain_of_first {before : Ws} {v : Node} {s q : Bytes} {ss : List Bytes}
    (hs : backslash ∉ s) (hv : v.value intOf = .string s)
    (h : before.bytes ++ (v.text ++ q) = storagesText (s :: ss) ++ [rbracket]) :
    Plain s ∧ q = nextText ss := by
  rw [storagesText_cons, storageText, List.cons_append] at h
  obtain ⟨-, h⟩ := ws_eq_nil h (by decide)
  obtain ⟨str, rfl⟩ := literal_of_value hv
  rw [← List.cons_append, ← storageText] at h
  obtain ⟨htext, rfl⟩ := str_eq_storageText hs h
  exact ⟨plain_of_literal hs htext, rfl⟩

/-- The elements of a list are the literals that are printed. -/
theorem plain_of_elements (es : Elements) {ss : List Bytes} (hss : ∀ s ∈ ss, backslash ∉ s)
    (hvalues : es.values intOf = ss.map .string) {p : Bytes}
    (h : es.text ++ rbracket :: p = storagesText ss ++ [rbracket]) : ∀ s ∈ ss, Plain s := by
  cases ss with
  | nil => exact fun s hs => absurd hs List.not_mem_nil
  | cons s ss =>
    have hs := hss s List.mem_cons_self
    match es with
    | .last before v after =>
      simp only [Elements.values, List.map_cons, List.cons.injEq] at hvalues
      rw [Elements.text, List.append_assoc, List.append_assoc] at h
      have hnil : ss = [] := List.map_eq_nil_iff.1 hvalues.2.symm
      rw [hnil]
      exact List.forall_mem_singleton.2 (plain_of_first hs hvalues.1 h).1
    | .cons before v after rest =>
      simp only [Elements.values, List.map_cons, List.cons.injEq] at hvalues
      simp only [Elements.text, List.append_assoc, List.cons_append] at h
      obtain ⟨hplain, hnext⟩ := plain_of_first hs hvalues.1 h
      refine List.forall_mem_cons.2 ⟨hplain, ?_⟩
      obtain ⟨c, q, hc, hws⟩ := isWs_nextText ss
      obtain ⟨-, hrest⟩ := ws_eq_nil (hnext.trans hc) hws
      cases ss with
      | nil => exact fun s hs => absurd hs List.not_mem_nil
      | cons s' ss =>
        rw [← hrest, nextText] at hc
        exact plain_of_elements rest (fun u hu => hss u (List.mem_cons_of_mem _ hu)) hvalues.2
          (List.cons.inj hc).2.symm

/-- Elements that are strings have no numbers and no containers. -/
theorem flat_of_values (es : Elements) {ss : List Bytes}
    (h : es.values intOf = ss.map .string) : es.depth = 0 ∧ es.Numbers (Gives intOf) := by
  cases ss with
  | nil => cases es <;> cases h
  | cons s ss =>
    match es with
    | .last before v after =>
      obtain ⟨str, rfl⟩ := literal_of_value (List.cons.inj h).1
      exact ⟨rfl, trivial⟩
    | .cons before v after rest =>
      obtain ⟨str, rfl⟩ := literal_of_value (List.cons.inj h).1
      obtain ⟨hdepth, hnum⟩ := flat_of_values rest (List.cons.inj h).2
      exact ⟨by rw [Elements.depth, hdepth]; rfl, trivial, hnum⟩

/-- A JSON text of an array of strings begins as one. -/
theorem node_of_isListOf {t : Text} {ss : List Bytes} (hne : ss ≠ [])
    (h : t.node.value intOf = .array (ss.map .string)) :
    ∃ es : Elements, t.node = .array es ∧ es.values intOf = ss.map .string := by
  cases hnode : t.node with
  | array es =>
    rw [hnode] at h
    exact ⟨es, rfl, Value.array.inj h⟩
  | emptyArray ws =>
    rw [hnode] at h
    exact absurd (List.map_eq_nil_iff.1 (Value.array.inj h).symm) hne
  | null | bool | number | string | emptyObject | object =>
    rw [hnode] at h
    cases h

theorem plain_of_isListOf {ss : List Bytes} (hne : ss ≠ []) (h : IsListOf (listText ss) ss) :
    ∀ s ∈ ss, Plain s := by
  obtain ⟨t, ht, hvalue⟩ := h
  obtain ⟨es, hnode, hvalues⟩ := node_of_isListOf hne hvalue
  obtain ⟨hdepth, hnum⟩ := flat_of_values es hvalues
  have hparse := parse_bytes intOf t (by rw [hnode, Node.depth, hdepth]; decide)
    (by rw [hnode]; exact hnum)
  rw [ht, hvalue] at hparse
  have hss := (parse_listText_iff hne).1 hparse
  rw [Text.bytes, hnode, Node.text, listText, List.cons_append, List.append_assoc] at ht
  obtain ⟨-, htail⟩ := ws_eq_nil ht (by decide)
  exact plain_of_elements es hss hvalues (List.cons.inj htail).2

/-! ## The reply that is handed on -/

/-- **The storage list is a JSON text of the storages exactly when they are plain strings.** The
parser of this repository lets control characters pass: it reads the list back exactly when no
storage has a backslash. -/
theorem storages_reencoded_iff {wireJson : Bytes} {ss : List Bytes} (h : Offers wireJson ss) :
    (IsListOf (parseAbilityReplyToFtJson wireJson) ss ↔
      ∀ s ∈ ss, ∀ c ∈ s, c ≠ backslash ∧ 0x20 ≤ c) ∧
    (parse (parseAbilityReplyToFtJson wireJson) = .ok (.array (ss.map .string)) ↔
      ∀ s ∈ ss, ∀ c ∈ s, c ≠ backslash) := by
  rw [parseAbilityReply_of_offers h]
  refine ⟨⟨plain_of_isListOf h.ne_nil, isListOf_of_plain⟩, (parse_listText_iff h.ne_nil).trans ?_⟩
  exact forall₂_congr fun s _ => ⟨fun hs c hc => ne_of_mem_of_not_mem hc hs,
    fun hs hmem => hs _ hmem rfl⟩

/-- The reply of a printer with one storage, whose name is the text of a string literal. -/
def oneStorage (name : String) : Bytes :=
  ascii "\x7b\"result\":0,\"reply\":\x7b\"storage\":[\"" ++ ascii name ++ ascii "\"]\x7d\x7d"

theorem offers_oneStorage {name : String} {s : Bytes} {reply : Object}
    (hparse : parse (oneStorage name) = .ok (.object
      [(ascii "reply", .object reply), (ascii "result", .number (.int 0))]))
    (hreply : reply = [(ascii "storage", .array [.string s])]) : Offers (oneStorage name) [s] := by
  subst hreply
  exact ⟨_, _, hparse, rfl, rfl, rfl, by simp⟩

/-- A name with a quote. -/
theorem storages_reencoded_quote :
    IsListOf (parseAbilityReplyToFtJson (oneStorage "a\\\"b")) [ascii "a\"b"] := by
  have h : Offers (oneStorage "a\\\"b") [ascii "a\"b"] := offers_oneStorage rfl rfl
  refine (storages_reencoded_iff h).1.2 ?_
  simp only [List.mem_singleton, forall_eq]
  exact List.all_iff_forall_prop.1 (by decide)

/-- A name with a backslash: the printed list has no end. -/
theorem backslash_not_reencoded : ∃ wireJson ss, Offers wireJson ss ∧
    ¬ IsListOf (parseAbilityReplyToFtJson wireJson) ss ∧
    parse (parseAbilityReplyToFtJson wireJson) ≠ .ok (.array (ss.map .string)) := by
  have h : Offers (oneStorage "usb\\\\") [ascii "usb\\"] := offers_oneStorage rfl rfl
  have hmem : backslash ∈ ascii "usb\\" := by decide
  refine ⟨_, _, h, fun hlist => ?_, fun hparse => ?_⟩
  · rw [parseAbilityReply_of_offers h] at hlist
    exact (plain_of_isListOf h.ne_nil hlist _ List.mem_cons_self _ hmem).1 rfl
  · rw [parseAbilityReply_of_offers h] at hparse
    exact (parse_listText_iff h.ne_nil).1 hparse _ List.mem_cons_self hmem

end BambooNet.Tunnel
