import BambooNet.Json.Parse

/-!
# Parsing stays inside the text

Whatever the text, the parser ends with one of its own errors or with a value: it never reads past
the end, its loops end, and `kMaxNestingDepth` levels of recursion are enough. The values it
returns are well formed and nested no deeper than that (`parse_cases`).

**What a scan may do** (`Scans`). It fails with an error of the parser, or it leaves fewer than `n`
characters and returns something with the property `Q`. Every scan has one lemma of this form, and
a loop is given more fuel than there are characters left.
-/

namespace BambooNet.Json

variable {α β : Type} {Q : α → Prop} {n : ℕ} {r : Parsed α}

/-- The outcome of a scan that leaves fewer than `n` characters. -/
def Scans (Q : α → Prop) (n : ℕ) : Parsed α → Prop
  | .error e => e ≠ .outside ∧ e ≠ .unfinished
  | .ok (a, q) => Q a ∧ q.length < n

theorem Scans.mono {m : ℕ} (h : Scans Q n r) (hle : n ≤ m) : Scans Q m r := by
  match r, h with
  | .error _, h => exact h
  | .ok _, h => exact ⟨h.1, h.2.trans_le hle⟩

theorem Scans.map {Q' : β → Prop} {f : α → β} (h : Scans Q n r) (hf : ∀ a, Q a → Q' (f a)) :
    Scans Q' n (r.map fun r => (f r.1, r.2)) := by
  match r, h with
  | .error _, h => exact h
  | .ok _, h => exact ⟨hf _ h.1, h.2⟩

/-- A scan that fails hands its error on. -/
theorem Scans.error {Q' : β → Prop} {m : ℕ} {e : ParseError} (h : Scans Q n r)
    (he : r = .error e) : Scans Q' m (.error e : Parsed β) := by
  subst he
  exact h

theorem Scans.ok {a : α} {q : Bytes} (h : Scans Q n r) (ha : r = .ok (a, q)) :
    Q a ∧ q.length < n := by
  subst ha
  exact h

theorem length_skipWs_le (p : Bytes) : (skipWs p).length ≤ p.length :=
  (List.dropWhile_suffix _).length_le

/-- What is left after whitespace and one more character. -/
theorem length_of_skipWs {p q : Bytes} {c : UInt8} (h : skipWs p = c :: q) :
    q.length < p.length := by
  have := length_skipWs_le p
  rw [h, List.length_cons] at this
  omega

/-! ## Strings -/

/-- Any string. -/
def Any (_ : α) : Prop := True

theorem joinSurrogate_scans (cp : ℕ) (p : Bytes) :
    Scans Any (p.length + 1) (joinSurrogate cp p) := by
  unfold joinSurrogate
  split
  · next hc =>
    match p, hc with
    | _ :: _ :: _ :: _ :: _ :: _ :: _, _ =>
      simp only
      split
      · exact ⟨by decide, by decide⟩
      · split
        · exact ⟨trivial, by simp only [List.length_cons]; omega⟩
        · exact ⟨trivial, Nat.lt_succ_self _⟩
    | [], hc | [_], hc | [_, _], hc | [_, _, _], hc | [_, _, _, _], hc | [_, _, _, _, _], hc =>
      exact absurd hc.2.2.1 (by simp)
  · exact ⟨trivial, Nat.lt_succ_self _⟩

theorem unicodeEscape_scans (p : Bytes) : Scans Any p.length (unicodeEscape p) := by
  unfold unicodeEscape
  split
  · exact ⟨by decide, by decide⟩
  · next hlen =>
    match p, hlen with
    | h₁ :: h₂ :: h₃ :: h₄ :: p, _ =>
      simp only
      split
      · exact ⟨by decide, by decide⟩
      · next cp _ =>
        have hjoin := joinSurrogate_scans cp p
        split
        · next heq => exact hjoin.error heq
        · next heq =>
          exact ⟨trivial, (hjoin.ok heq).2.trans_le (by simp)⟩
    | [], hlen | [_], hlen | [_, _], hlen | [_, _, _], hlen => exact absurd (by simp) hlen

theorem stringBody_scans {fuel : ℕ} {p : Bytes} (h : p.length < fuel) :
    Scans Any p.length (stringBody fuel p) := by
  induction fuel generalizing p with
  | zero => omega
  | succ fuel ih =>
    have hrest {q : Bytes} (hq : q.length < p.length) (f : Bytes → Bytes) :
        Scans Any p.length ((stringBody fuel q).map fun r => (f r.1, r.2)) :=
      ((ih (by omega)).mono hq.le).map fun _ _ => trivial
    unfold stringBody
    cases p with
    | nil => exact ⟨by decide, by decide⟩
    | cons c p =>
      simp only
      split
      · exact ⟨trivial, Nat.lt_succ_self _⟩
      split
      · match p with
        | [] => exact ⟨by decide, by decide⟩
        | e :: p =>
          simp only
          split
          · have hescape := unicodeEscape_scans p
            split
            · next heq => exact hescape.error heq
            · next s q heq =>
              exact hrest ((hescape.ok heq).2.trans (by simp)) (s ++ ·)
          · split
            · exact ⟨by decide, by decide⟩
            · next s _ => exact hrest (by simp) (s :: ·)
      · exact hrest (by simp) (c :: ·)

theorem parseString_scans (p : Bytes) : Scans Any p.length (parseString p) := by
  unfold parseString
  match p with
  | [] => exact ⟨by decide, by decide⟩
  | c :: p =>
    simp only
    split
    · exact (stringBody_scans (Nat.lt_succ_self _)).mono (by simp)
    · exact ⟨by decide, by decide⟩

/-! ## Numbers -/

theorem length_scanDigits_le (p : Bytes) : (scanDigits p).2.length ≤ p.length :=
  (List.dropWhile_suffix _).length_le

theorem length_scanFrac_le (p : Bytes) : (scanFrac p).2.length ≤ p.length := by
  unfold scanFrac
  split
  · split
    · exact (length_scanDigits_le _).trans (by simp)
    · exact le_rfl
  · exact le_rfl

theorem length_scanSign_le (p : Bytes) : (scanSign p).2.length ≤ p.length := by
  unfold scanSign
  split
  · split
    · simp
    · split <;> simp
  · exact le_rfl

theorem length_scanExp_le (p : Bytes) : (scanExp p).2.2.length ≤ p.length := by
  unfold scanExp
  split
  · split
    · exact (length_scanDigits_le _).trans ((length_scanSign_le _).trans (by simp))
    · exact le_rfl
  · exact le_rfl

theorem scanNumber_scans {c : UInt8} (hc : c = minus ∨ isDigit c = true) (p : Bytes) :
    Scans Any (p.length + 1) (scanNumber (c :: p)) := by
  refine ⟨trivial, Nat.lt_succ_of_le ?_⟩
  refine (length_scanExp_le _).trans ((length_scanFrac_le _).trans ?_)
  split
  · exact length_scanDigits_le p
  · next hminus =>
    rw [List.dropWhile_cons_of_pos (hc.resolve_left hminus)]
    exact length_scanDigits_le p

theorem parseNumber_scans {c : UInt8} (hc : c = minus ∨ isDigit c = true) (p : Bytes) :
    Scans Any (p.length + 1) (parseNumber (c :: p)) := by
  have hscan := scanNumber_scans hc p
  unfold parseNumber
  split
  · next heq => exact hscan.error heq
  · next heq =>
    split
    · exact ⟨by decide, by decide⟩
    · exact ⟨trivial, (hscan.ok heq).2⟩

/-! ## Containers -/

/-- An object whose keys are in order and whose values have a property. -/
def Entry (Q : Value → Prop) (obj : Object) : Prop := Entries.Sorted obj ∧ ∀ e ∈ obj, Q e.2

variable {Q : Value → Prop} {value : Bytes → Parsed Value}

theorem elements_scans (hvalue : ∀ p, Scans Q p.length (value p)) {fuel : ℕ} {p : Bytes}
    (hfuel : p.length < fuel) {vs : List Value} (hvs : ∀ v ∈ vs, Q v) :
    Scans (fun vs => ∀ v ∈ vs, Q v) p.length (elements value fuel vs p) := by
  induction fuel generalizing p vs with
  | zero => omega
  | succ fuel ih =>
    have hv := hvalue p
    unfold elements
    split
    · next heq => exact hv.error heq
    · next v q heq =>
      obtain ⟨hv, hq⟩ := hv.ok heq
      have hvs : ∀ w ∈ vs ++ [v], Q w := by
        simpa [or_imp, forall_and, hv] using hvs
      split
      · exact ⟨by decide, by decide⟩
      · next c q' hskip =>
        have hq' := length_of_skipWs hskip
        split
        · exact (ih (by omega) hvs).mono (by omega)
        split
        · exact ⟨hvs, by omega⟩
        · exact ⟨by decide, by decide⟩

theorem members_scans (hvalue : ∀ p, Scans Q p.length (value p)) {fuel : ℕ} {p : Bytes}
    (hfuel : p.length < fuel) {obj : Object} (hobj : Entry Q obj) :
    Scans (Entry Q) p.length (members value fuel obj p) := by
  induction fuel generalizing p obj with
  | zero => omega
  | succ fuel ih =>
    have hkey := parseString_scans (skipWs p)
    have hskip := length_skipWs_le p
    unfold members
    split
    · next heq => exact hkey.error heq
    · next key q₁ heq =>
      have hq₁ := (hkey.ok heq).2
      split
      · exact ⟨by decide, by decide⟩
      · next c q₂ hcolon =>
        have hq₂ := length_of_skipWs hcolon
        have hv := hvalue q₂
        split
        · exact ⟨by decide, by decide⟩
        split
        · next heq => exact hv.error heq
        · next v q₃ heq =>
          obtain ⟨hv, hq₃⟩ := hv.ok heq
          have hobj : Entry Q (emplace key v obj) := by
            refine ⟨sorted_emplace hobj.1 key v, fun e he => ?_⟩
            rcases mem_emplace he with rfl | he
            · exact hv
            · exact hobj.2 e he
          split
          · exact ⟨by decide, by decide⟩
          · next c q₄ hskip' =>
            have hq₄ := length_of_skipWs hskip'
            split
            · exact (ih (by omega) hobj).mono (by omega)
            split
            · exact ⟨hobj, by omega⟩
            · exact ⟨by decide, by decide⟩

theorem parseObject_scans (hvalue : ∀ p, Scans Q p.length (value p)) (p : Bytes) :
    Scans (Entry Q) (p.length + 1) (parseObject value p) := by
  have hempty : Entry Q [] := ⟨.nil, by simp⟩
  have hskip := length_skipWs_le p
  unfold parseObject
  split
  · exact (members_scans hvalue (by simp) hempty).mono (by simp)
  · next c p' heq =>
    rw [heq, List.length_cons] at hskip
    split
    · exact ⟨hempty, by omega⟩
    · exact (members_scans hvalue (by simpa using hskip) hempty).mono (by simp; omega)

theorem parseArray_scans (hvalue : ∀ p, Scans Q p.length (value p)) (p : Bytes) :
    Scans (fun vs => ∀ v ∈ vs, Q v) (p.length + 1) (parseArray value p) := by
  have hempty : ∀ v ∈ ([] : List Value), Q v := by simp
  have hskip := length_skipWs_le p
  unfold parseArray
  split
  · exact (elements_scans hvalue (by simp) hempty).mono (by simp)
  · next c p' heq =>
    rw [heq, List.length_cons] at hskip
    split
    · exact ⟨hempty, by omega⟩
    · exact (elements_scans hvalue (by simpa using hskip) hempty).mono (by simp; omega)

/-! ## Values -/

/-- A value that may stand at a nesting depth. -/
def Good (depth : ℕ) (v : Value) : Prop := v.WF ∧ depth + v.depth ≤ kMaxNestingDepth

theorem good_array {depth : ℕ} {vs : List Value} (hdepth : depth < kMaxNestingDepth)
    (h : ∀ v ∈ vs, Good (depth + 1) v) : Good depth (.array vs) := by
  have hle : Value.depthElements vs ≤ kMaxNestingDepth - (depth + 1) :=
    Value.depthElements_le_iff.2 fun v hv => by have := (h v hv).2; omega
  exact ⟨.array trivial fun v hv => (h v hv).1, by rw [Value.depth]; omega⟩

theorem good_object {depth : ℕ} {es : Object} (hdepth : depth < kMaxNestingDepth)
    (h : Entry (Good (depth + 1)) es) : Good depth (.object es) := by
  have hle : Value.depthEntries es ≤ kMaxNestingDepth - (depth + 1) :=
    Value.depthEntries_le_iff.2 fun e he => by have := (h.2 e he).2; omega
  exact ⟨.object h.1 fun e he => (h.2 e he).1, by rw [Value.depth]; omega⟩

theorem parseLiteral_scans {lit p : Bytes} {v : Value} (hlit : lit ≠ []) (hv : Q v) :
    Scans Q p.length (parseLiteral lit v p) := by
  unfold parseLiteral
  split
  · next hpre =>
    have hle := hpre.length_le
    have hpos := List.length_pos_of_ne_nil hlit
    exact ⟨hv, by rw [List.length_drop]; omega⟩
  · exact ⟨by decide, by decide⟩

theorem valueWith_scans {depth : ℕ} (hdepth : depth ≤ kMaxNestingDepth)
    (hvalue : depth < kMaxNestingDepth → ∀ p, Scans (Good (depth + 1)) p.length (value p))
    (p : Bytes) : Scans (Good depth) p.length (valueWith depth value p) := by
  unfold valueWith
  split
  · exact ⟨by decide, by decide⟩
  · next c p' heq =>
    have hlen := length_of_skipWs heq
    split
    · exact ((parseString_scans (c :: p')).mono hlen).map fun s _ => ⟨.string trivial, hdepth⟩
    split
    · split
      · exact ⟨by decide, by decide⟩
      · next hlt =>
        have hlt := not_le.1 hlt
        split
        · exact ((parseObject_scans (hvalue hlt) p').mono hlen).map fun _ => good_object hlt
        · exact ((parseArray_scans (hvalue hlt) p').mono hlen).map fun _ => good_array hlt
    split
    · exact (parseLiteral_scans (by decide) ⟨.bool trivial, hdepth⟩).mono hlen
    split
    · exact (parseLiteral_scans (by decide) ⟨.bool trivial, hdepth⟩).mono hlen
    split
    · exact (parseLiteral_scans (by decide) ⟨.null trivial, hdepth⟩).mono hlen
    split
    · next hc =>
      exact ((parseNumber_scans hc p').mono hlen).map fun x _ => ⟨.number trivial, hdepth⟩
    · exact ⟨by decide, by decide⟩

/-- A call of `parse_value` for every level that is left is enough. -/
theorem parseValue_scans {frames depth : ℕ} (hdepth : depth ≤ kMaxNestingDepth)
    (hframes : kMaxNestingDepth < depth + frames) (p : Bytes) :
    Scans (Good depth) p.length (parseValue frames depth p) := by
  induction frames generalizing depth p with
  | zero => omega
  | succ frames ih =>
    exact valueWith_scans hdepth (fun hlt p => ih (by omega) (by omega) p) p

/-- **Parsing ends inside the text**, with an error of the parser or with a value that is well
formed and not nested deeper than the bound. -/
theorem parse_cases (text : Bytes) :
    (∃ e, parse text = .error e ∧ e ≠ .outside ∧ e ≠ .unfinished) ∨
      ∃ v, parse text = .ok v ∧ v.WF ∧ v.depth ≤ kMaxNestingDepth := by
  have hscan : Scans (Good 0) (skipWs text).length
      (parseValue (kMaxNestingDepth + 1) 0 (skipWs text)) :=
    parseValue_scans (Nat.zero_le _) (by simp) _
  unfold parse
  split
  · next heq =>
    rw [heq] at hscan
    exact .inl ⟨_, rfl, hscan⟩
  · next heq =>
    obtain ⟨⟨hwf, hle⟩, -⟩ := hscan.ok heq
    split
    · exact .inr ⟨_, rfl, hwf, by omega⟩
    · exact .inl ⟨_, rfl, by decide, by decide⟩

end BambooNet.Json
