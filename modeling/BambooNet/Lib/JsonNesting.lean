import BambooNet.Lib.JsonFound

/-!
# The bracket that closes

A scan that counts one kind of brackets and skips string literals ends at the bracket that closes
the first one. `NestScan` collects the steps of such a scan. In the text of a tree it meets as many
brackets that open as brackets that close (`NestScan.balanced_node`).
-/

namespace BambooNet.JsonSyntax

/-- A scan for the end of a nested text. Its state is how many brackets are open, whether it is in a
string, and whether it is after a backslash there. -/
structure NestScan where
  opening : UInt8
  closing : UInt8
  pair : (opening = 0x5b ∧ closing = 0x5d) ∨ (opening = 0x7b ∧ closing = 0x7d)
  scan : ℕ → Bool → Bool → Bytes → Option ℕ
  escaped : ∀ d c p, scan d true true (c :: p) = (scan d true false p).map (· + 1)
  backslash : ∀ d p, scan d true false (0x5c :: p) = (scan d true true p).map (· + 1)
  leave : ∀ d p, scan d true false (0x22 :: p) = (scan d false false p).map (· + 1)
  stay : ∀ d c p, c ≠ 0x22 → c ≠ 0x5c →
    scan d true false (c :: p) = (scan d true false p).map (· + 1)
  enter : ∀ d p, scan d false false (0x22 :: p) = (scan d true false p).map (· + 1)
  opens : ∀ d p, scan d false false (opening :: p) = (scan (d + 1) false false p).map (· + 1)
  closes : ∀ d p, scan (d + 2) false false (closing :: p) =
    (scan (d + 1) false false p).map (· + 1)
  ends : ∀ p, scan 1 false false (closing :: p) = some 1
  pass : ∀ d c p, c ≠ 0x22 → c ≠ opening → c ≠ closing →
    scan d false false (c :: p) = (scan d false false p).map (· + 1)

theorem map_add_map (o : Option ℕ) (m n : ℕ) :
    (o.map (· + m)).map (· + n) = o.map (· + (m + n)) := by
  rw [Option.map_map]
  congr 1
  funext k
  exact Nat.add_assoc k m n

theorem hex_ne (h : Hex) : h.byte ≠ 0x22 ∧ h.byte ≠ 0x5c := by
  obtain ⟨digit, upper⟩ := h
  revert digit upper
  decide

/-- A character that is no quote and no bracket. -/
def Neutral (c : UInt8) : Prop :=
  c ≠ 0x22 ∧ c ≠ 0x5b ∧ c ≠ 0x5d ∧ c ≠ 0x7b ∧ c ≠ 0x7d

instance : DecidablePred Neutral := fun _ => inferInstanceAs (Decidable (_ ∧ _))

theorem neutral_ws (ws : Ws) : ∀ c ∈ ws.bytes, Neutral c := by
  have hwhite : ∀ c ∈ whitespace, Neutral c := List.all_iff_forall_prop.1 (by decide)
  exact fun c hc => hwhite c (ws.white c hc)

theorem neutral_numeral (n : Numeral) : ∀ c ∈ n.text, Neutral c := by
  have hdigit (c : UInt8) (h : isDigit c = true) : Neutral c := by
    refine ⟨?_, ?_, ?_, ?_, ?_⟩ <;> rintro rfl <;> exact absurd h (by decide)
  have hother : ∀ c ∈ [0x2d, 0x2b, 0x2e, 0x65, 0x45], Neutral c :=
    List.all_iff_forall_prop.1 (by decide)
  exact fun c hc => (n.char_of_mem hc).elim (hdigit c) (hother c)

namespace NestScan

variable (S : NestScan)

theorem neutral {c : UInt8} (h : Neutral c) : c ≠ 0x22 ∧ c ≠ S.opening ∧ c ≠ S.closing := by
  obtain ⟨hquote, ho, hc, ho', hc'⟩ := h
  rcases S.pair with ⟨hopening, hclosing⟩ | ⟨hopening, hclosing⟩
  · exact ⟨hquote, hopening ▸ ho, hclosing ▸ hc⟩
  · exact ⟨hquote, hopening ▸ ho', hclosing ▸ hc'⟩

/-- Between brackets, the scan passes over the text with the brackets it opens closed again. -/
def Balanced (t : Bytes) : Prop :=
  ∀ d, 0 < d → ∀ q, S.scan d false false (t ++ q) =
    (S.scan d false false q).map (· + t.length)

/-- In a string, the scan passes over the text and stays inside. -/
def InString (t : Bytes) : Prop :=
  ∀ d q, S.scan d true false (t ++ q) = (S.scan d true false q).map (· + t.length)

variable {S}

theorem balanced_nil : S.Balanced [] := fun _ _ _ => by simp

theorem Balanced.append {s t : Bytes} (hs : S.Balanced s) (ht : S.Balanced t) :
    S.Balanced (s ++ t) := by
  intro d hd q
  rw [List.append_assoc, hs d hd, ht d hd, map_add_map, List.length_append,
    Nat.add_comm t.length s.length]

/-- A text without quotes and brackets of any kind. -/
theorem balanced_neutral {t : Bytes} (h : ∀ c ∈ t, Neutral c) : S.Balanced t := by
  induction t with
  | nil => exact balanced_nil
  | cons c t ih =>
    obtain ⟨hc, ht⟩ := List.forall_mem_cons.1 h
    obtain ⟨hquote, hopening, hclosing⟩ := S.neutral hc
    intro d hd q
    rw [List.cons_append, S.pass d c _ hquote hopening hclosing, ih ht d hd, map_add_map]
    rfl

/-- Brackets around a balanced text. -/
theorem Balanced.brackets {t : Bytes} (h : S.Balanced t) :
    S.Balanced (S.opening :: (t ++ [S.closing])) := by
  intro d hd q
  obtain ⟨d, rfl⟩ := Nat.exists_eq_succ_of_ne_zero hd.ne'
  have hlength : (S.opening :: (t ++ [S.closing])).length = 1 + (t.length + 1) := by
    simp [Nat.add_comm]
  rw [List.cons_append, List.append_assoc, S.opens, h _ (Nat.succ_pos _), List.singleton_append,
    S.closes, map_add_map, map_add_map, hlength]

/-- The outermost brackets. -/
theorem scan_brackets {t : Bytes} (h : S.Balanced t) (q : Bytes) :
    S.scan 0 false false (S.opening :: (t ++ S.closing :: q)) = some (t.length + 2) := by
  rw [S.opens, h _ Nat.one_pos, S.ends, Option.map_some, Option.map_some, Nat.add_comm 1]

theorem inString_raw {c : UInt8} (hquote : c ≠ 0x22) (hbackslash : c ≠ 0x5c) :
    S.InString [c] := fun d q => S.stay d c q hquote hbackslash

theorem inString_escape (c : UInt8) : S.InString [0x5c, c] := by
  intro d q
  rw [List.cons_append, List.singleton_append, S.backslash, S.escaped, map_add_map]
  rfl

theorem InString.append {s t : Bytes} (hs : S.InString s) (ht : S.InString t) :
    S.InString (s ++ t) := by
  intro d q
  rw [List.append_assoc, hs, ht, map_add_map, List.length_append,
    Nat.add_comm t.length s.length]

theorem inString_hex4 (u : Hex4) : S.InString u.text := by
  have hhex (h : Hex) : S.InString [h.byte] := inString_raw (hex_ne h).1 (hex_ne h).2
  exact (inString_escape 0x75).append
    ((hhex u.a).append ((hhex u.b).append ((hhex u.c).append (hhex u.d))))

theorem inString_char (ch : StrChar) : S.InString ch.text := by
  cases ch with
  | raw c plain => exact inString_raw plain.2.1 plain.2.2
  | short e known => exact inString_escape e.1
  | unicode u scalar => exact inString_hex4 u
  | pair hi lo high low => exact (inString_hex4 hi).append (inString_hex4 lo)
  | lone u surrogate => exact inString_hex4 u

theorem inString_texts (cs : List StrChar) : S.InString (StrChar.texts cs) := by
  induction cs with
  | nil => exact fun _ _ => by simp [StrChar.texts]
  | cons ch cs ih => exact (inString_char ch).append ih

theorem balanced_str (s : Str) : S.Balanced s.text := by
  intro d hd q
  have hlength : s.text.length = 1 + ((StrChar.texts s.chars).length + 1) := by
    simp [Str.text, Nat.add_comm]
  rw [hlength, Str.text, List.cons_append, List.append_assoc, S.enter, inString_texts,
    List.singleton_append, S.leave, map_add_map, map_add_map]

theorem balanced_char {c : UInt8} (hquote : c ≠ 0x22) (hopening : c ≠ S.opening)
    (hclosing : c ≠ S.closing) : S.Balanced [c] :=
  fun d _ q => S.pass d c q hquote hopening hclosing

/-- Brackets of both kinds around a balanced text. -/
theorem Balanced.around {t : Bytes} (h : S.Balanced t) {o c : UInt8}
    (hoc : (o = 0x5b ∧ c = 0x5d) ∨ (o = 0x7b ∧ c = 0x7d)) : S.Balanced (o :: (t ++ [c])) := by
  by_cases ho : o = S.opening
  · have hc : c = S.closing := by
      rcases S.pair with ⟨h₁, h₂⟩ | ⟨h₁, h₂⟩ <;> rcases hoc with ⟨h₃, h₄⟩ | ⟨h₃, h₄⟩ <;>
        simp_all
    rw [ho, hc]
    exact h.brackets
  · have hother : o ≠ 0x22 ∧ o ≠ S.closing ∧ c ≠ 0x22 ∧ c ≠ S.opening ∧ c ≠ S.closing := by
      rcases S.pair with ⟨h₁, h₂⟩ | ⟨h₁, h₂⟩ <;> rcases hoc with ⟨h₃, h₄⟩ | ⟨h₃, h₄⟩ <;>
        simp_all
    obtain ⟨hquote, hclosing, hquote', hopening', hclosing'⟩ := hother
    have hopen : S.Balanced [o] := balanced_char hquote ho hclosing
    have hclose : S.Balanced [c] := balanced_char hquote' hopening' hclosing'
    exact hopen.append (h.append hclose)

theorem balanced_ws (ws : Ws) : S.Balanced ws.bytes := balanced_neutral (neutral_ws ws)

/-- A neutral character between two texts. -/
theorem Balanced.join {s t : Bytes} (hs : S.Balanced s) {c : UInt8} (hc : Neutral c)
    (ht : S.Balanced t) : S.Balanced (s ++ c :: t) := by
  obtain ⟨hquote, hopening, hclosing⟩ := S.neutral hc
  have hchar : S.Balanced [c] := balanced_char hquote hopening hclosing
  exact hs.append (hchar.append ht)

mutual

/-- **The brackets of a tree are balanced** outside of its strings. -/
theorem balanced_node (v : Node) : S.Balanced v.text := by
  cases v with
  | null => exact balanced_neutral (List.all_iff_forall_prop.1 (by decide))
  | bool b => cases b <;> exact balanced_neutral (List.all_iff_forall_prop.1 (by decide))
  | number n => exact balanced_neutral (neutral_numeral n.toNumeral)
  | string s => exact balanced_str s
  | emptyArray ws => exact (balanced_ws ws).around (.inl ⟨rfl, rfl⟩)
  | array es => exact (balanced_elements es).around (.inl ⟨rfl, rfl⟩)
  | emptyObject ws => exact (balanced_ws ws).around (.inr ⟨rfl, rfl⟩)
  | object ms => exact (balanced_members ms).around (.inr ⟨rfl, rfl⟩)

theorem balanced_elements (es : Elements) : S.Balanced es.text := by
  cases es with
  | last before v after =>
    exact (balanced_ws before).append ((balanced_node v).append (balanced_ws after))
  | cons before v after rest =>
    exact (balanced_ws before).append ((balanced_node v).append
      ((balanced_ws after).join (by decide) (balanced_elements rest)))

theorem balanced_members (ms : Members) : S.Balanced ms.text := by
  cases ms with
  | last before key after lead v after' =>
    exact (balanced_ws before).append ((balanced_str key).append
      ((balanced_ws after).join (by decide) ((balanced_ws lead).append
        ((balanced_node v).append (balanced_ws after')))))
  | cons before key after lead v after' rest =>
    exact (balanced_ws before).append ((balanced_str key).append
      ((balanced_ws after).join (by decide) ((balanced_ws lead).append
        ((balanced_node v).append ((balanced_ws after').join (by decide)
          (balanced_members rest))))))

end

end NestScan

end BambooNet.JsonSyntax
