import BambooNet.Ftps.Control

/-!
# Replies of the standard

A reply is one line, or lines of which the first has a hyphen behind its code and the last is the
first later one with the same code and a space. What stands between is free.

**Theorem (`readReply_iff`).** The client takes such a reply off the channel whole, and returns its
code, exactly when no line in between starts with three digits and a space. It takes the first line
that does for the last, and leaves the rest of the reply to the next command.
-/

namespace BambooNet.Ftps

def hyphen : UInt8 := 0x2d

/-- The lines before the last: the text of the first one, and those in between. -/
structure Opening where
  first : Bytes
  middle : List Bytes

/-- A reply of one line, or of several. -/
structure StandardReply where
  digits : Bytes
  opening : Option Opening
  text : Bytes
  digits_three : digits.length = 3
  digits_digit : ∀ c ∈ digits, isDigit c = true
  first_line : ∀ o ∈ opening, newline ∉ o.first
  middle_line : ∀ o ∈ opening, ∀ l ∈ o.middle, newline ∉ l
  /-- The last line is the first one with the code and a space. -/
  middle_open : ∀ o ∈ opening, ∀ l ∈ o.middle, ¬ digits ++ [space] <+: l
  text_line : newline ∉ text

namespace StandardReply

variable (r : StandardReply)

def middle : List Bytes := r.opening.elim [] Opening.middle

/-- All lines but the last. -/
def before : List Bytes :=
  r.opening.elim [] fun o => (r.digits ++ hyphen :: o.first) :: o.middle

def last : Bytes := r.digits ++ space :: r.text

def lines : List Bytes := r.before ++ [r.last]

def code : ℕ := natOf r.digits

def bytes : Bytes := unlines newline (r.lines.map (· ++ [cr]))

/-- Within the caps of the client. -/
structure Fits : Prop where
  line : ∀ l ∈ r.lines, l.length < kMaxControlLine
  body : (r.lines.foldl joinLine []).length ≤ kMaxControlReply

end StandardReply

variable {r : StandardReply} {size : ℕ → ℕ} {c : Chan} {rest : Bytes}

/-- A line that is taken for the last one. -/
theorem isFinalLine_iff {l : Bytes} :
    isFinalLine l = true ↔ ∃ digits text, l = digits ++ space :: text ∧ digits.length = 3 ∧
      ∀ c ∈ digits, isDigit c = true := by
  constructor
  · intro h
    rcases l with _ | ⟨a, _ | ⟨b, _ | ⟨c, _ | ⟨d, text⟩⟩⟩⟩
    · cases h
    · cases h
    · cases h
    · cases h
    · rw [isFinalLine, Bool.and_eq_true, Bool.and_eq_true, Bool.and_eq_true] at h
      obtain ⟨⟨⟨ha, hb⟩, hc⟩, hd⟩ := h
      refine ⟨[a, b, c], text, ?_, rfl, ?_⟩
      · rw [of_decide_eq_true hd]
        rfl
      · intro x hx
        simp only [List.mem_cons, List.not_mem_nil, or_false] at hx
        rcases hx with rfl | rfl | rfl
        · exact ha
        · exact hb
        · exact hc
  · rintro ⟨digits, text, rfl, hlen, hdigit⟩
    rcases digits with _ | ⟨a, _ | ⟨b, _ | ⟨c, _ | ⟨d, digits⟩⟩⟩⟩
    · cases hlen
    · cases hlen
    · cases hlen
    · simp [isFinalLine, hdigit a, hdigit b, hdigit c]
    · cases hlen

/-- The line that opens a reply is not taken for the last. -/
theorem isFinalLine_first {digits : Bytes} (hlen : digits.length = 3) (first : Bytes) :
    isFinalLine (digits ++ hyphen :: first) = false := by
  rcases digits with _ | ⟨a, _ | ⟨b, _ | ⟨c, _ | ⟨d, digits⟩⟩⟩⟩
  · cases hlen
  · cases hlen
  · cases hlen
  · have hne : decide (hyphen = space) = false := by decide
    rw [List.cons_append, List.cons_append, List.cons_append, List.nil_append, isFinalLine, hne,
      Bool.and_false]
  · cases hlen

theorem mem_before {l : Bytes} (h : l ∈ r.before) :
    newline ∉ l ∧ (isFinalLine l = true → l ∈ r.middle) := by
  rw [StandardReply.before] at h
  rw [StandardReply.middle]
  cases ho : r.opening with
  | none =>
    rw [ho] at h
    cases h
  | some o =>
    rw [ho] at h
    rcases List.mem_cons.1 h with rfl | hl
    · constructor
      · simp only [List.mem_append, List.mem_cons, not_or]
        refine ⟨fun hd => ?_, by decide, r.first_line o ho⟩
        exact absurd (r.digits_digit _ hd) (by decide)
      · intro hfinal
        rw [isFinalLine_first r.digits_three] at hfinal
        cases hfinal
    · exact ⟨r.middle_line o ho l hl, fun _ => hl⟩

theorem middle_subset_before {l : Bytes} (h : l ∈ r.middle) : l ∈ r.before := by
  rw [StandardReply.middle] at h
  rw [StandardReply.before]
  cases ho : r.opening with
  | none =>
    rw [ho] at h
    cases h
  | some o =>
    rw [ho] at h
    exact List.mem_cons_of_mem _ h

/-- The client ends its reply at the first line that it takes for the last. -/
theorem readReply_first {pre post : List Bytes} {digits text : Bytes}
    (hlines : r.lines = pre ++ (digits ++ space :: text) :: post) (hr : r.Fits)
    (hpre : ∀ l ∈ pre, newline ∉ l ∧ isFinalLine l = false) (hlen : digits.length = 3)
    (hdigit : ∀ c ∈ digits, isDigit c = true) (htext : newline ∉ text)
    (hunread : c.unread = r.bytes ++ rest) :
    ∃ body c', readReply size c = (some (natOf digits, body), c') ∧
      c'.unread = unlines newline (post.map (· ++ [cr])) ++ rest := by
  let taken : Reply :=
    { more := pre, digits := digits, text := text
      more_open := fun l hl => (hpre l hl).2
      more_line := fun l hl => (hpre l hl).1
      digits_three := hlen, digits_digit := hdigit, text_line := htext }
  have hsplit : r.lines = taken.lines ++ post := by
    rw [hlines, Reply.lines, List.append_assoc]
    rfl
  have htaken : taken.Fits := by
    constructor
    · intro l hl
      exact hr.line l (hsplit ▸ List.mem_append_left _ hl)
    · have hbody := hr.body
      rw [hsplit, List.foldl_append] at hbody
      exact (length_le_foldl_joinLine post _).trans hbody
  have hhead : c.unread = taken.bytes ++ (unlines newline (post.map (· ++ [cr])) ++ rest) := by
    rw [hunread, StandardReply.bytes, hsplit, List.map_append, unlines_append, List.append_assoc]
    rfl
  obtain ⟨c', hread, hrest⟩ := readReply_reply htaken hhead
  exact ⟨taken.body, c', hread, hrest⟩

/-- **A reply of the standard is taken off whole** exactly when no line in between looks like the
last one. -/
theorem readReply_iff (hr : r.Fits) (hunread : c.unread = r.bytes ++ rest) :
    (∃ body c', readReply size c = (some (r.code, body), c') ∧ c'.unread = rest) ↔
      ∀ l ∈ r.middle, isFinalLine l = false := by
  constructor
  · rintro ⟨body, c', hread, hrest⟩ l hl
    by_contra hfinal
    -- the first such line ends the reply for the client
    obtain ⟨m, hm⟩ := Option.isSome_iff_exists.1 <| List.find?_isSome.2
      ⟨l, middle_subset_before hl, Bool.not_eq_false _ ▸ hfinal⟩
    obtain ⟨hmfinal, pre, post, hbefore, hpre⟩ := List.find?_eq_some_iff_append.1 hm
    obtain ⟨digits, text, rfl, hlen, hdigit⟩ := isFinalLine_iff.1 hmfinal
    have hline (x : Bytes) (hx : x ∈ r.before) : newline ∉ x := (mem_before hx).1
    rw [hbefore] at hline
    have htext : newline ∉ text := by
      intro h
      refine hline (digits ++ space :: text) (by simp) ?_
      exact List.mem_append_right _ (List.mem_cons_of_mem _ h)
    have hlines : r.lines = pre ++ (digits ++ space :: text) :: (post ++ [r.last]) := by
      rw [StandardReply.lines, hbefore, List.append_assoc]
      rfl
    have hopen (x : Bytes) (hx : x ∈ pre) : newline ∉ x ∧ isFinalLine x = false :=
      ⟨hline x (by simp [hx]), by simpa using hpre x hx⟩
    obtain ⟨body', c'', hread', hrest'⟩ : ∃ body c',
        readReply size c = (some (natOf digits, body), c') ∧
          c'.unread = unlines newline ((post ++ [r.last]).map (· ++ [cr])) ++ rest :=
      readReply_first hlines hr hopen hlen hdigit htext hunread
    rw [hread, Prod.mk.injEq] at hread'
    rw [← hread'.2, hrest] at hrest'
    -- what is left has the last line in front
    have hlonger := congrArg List.length hrest'
    rw [List.map_append, unlines_append, List.length_append, List.length_append] at hlonger
    simp [unlines] at hlonger
  · intro hmiddle
    have hlines : r.lines = r.before ++ (r.digits ++ space :: r.text) :: [] := rfl
    have hpre (l : Bytes) (hl : l ∈ r.before) : newline ∉ l ∧ isFinalLine l = false := by
      refine ⟨(mem_before hl).1, ?_⟩
      by_contra hfinal
      have hopen := hmiddle l ((mem_before hl).2 (Bool.not_eq_false _ ▸ hfinal))
      exact hfinal hopen
    exact readReply_first hlines hr hpre r.digits_three r.digits_digit r.text_line hunread

theorem digit_211 : ∀ c ∈ ascii "211", isDigit c = true :=
  List.all_iff_forall_prop.1 (by decide)

theorem newline_not_mem_features : newline ∉ ascii "Features" ∧ newline ∉ ascii "End" :=
  ⟨by decide, by decide⟩

theorem eq_of_mem_middle {o : Opening} {first l x : Bytes}
    (ho : o ∈ some (⟨first, [l]⟩ : Opening)) (hx : x ∈ o.middle) : x = l := by
  rw [← Option.some_inj.1 ho] at hx
  exact List.mem_singleton.1 hx

/-- A list of features. -/
def features (l : Bytes) (hline : newline ∉ l) (hopen : ¬ ascii "211 " <+: l) : StandardReply where
  digits := ascii "211"
  opening := some ⟨ascii "Features", [l]⟩
  text := ascii "End"
  digits_three := rfl
  digits_digit := digit_211
  first_line := fun _ ho => Option.some_inj.1 ho ▸ newline_not_mem_features.1
  middle_line := fun _ ho _ hx => eq_of_mem_middle ho hx ▸ hline
  middle_open := fun _ ho _ hx => eq_of_mem_middle ho hx ▸ hopen
  text_line := newline_not_mem_features.2

theorem features_fits {l : Bytes} (hline : newline ∉ l) (hopen : ¬ ascii "211 " <+: l)
    (hlen : l.length ≤ 32) : (features l hline hopen).Fits := by
  have hlines : (features l hline hopen).lines = [ascii "211-Features", l, ascii "211 End"] := rfl
  have hfirst : (ascii "211-Features").length = 12 := rfl
  have hlast : (ascii "211 End").length = 7 := rfl
  constructor
  · intro x hx
    simp only [hlines, List.mem_cons, List.not_mem_nil, or_false] at hx
    rw [kMaxControlLine]
    rcases hx with rfl | rfl | rfl <;> omega
  · have hne : ascii "211-Features" ≠ [] := by decide
    simp only [hlines, List.foldl_cons, List.foldl_nil, joinLine, if_pos, if_neg hne,
      List.append_eq_nil_iff, reduceCtorEq, and_false, if_false, List.length_append,
      List.length_cons, kMaxControlReply]
    omega

theorem readReply_iff_size : ∃ body c', readReply (fun _ => 5) ⟨[], ascii
      "211-Features\r\n SIZE\r\n211 End\r\n226 OK\r\n", 0⟩ = (some (211, body), c') ∧
    c'.unread = ascii "226 OK\r\n" :=
  (readReply_iff (r := features (ascii " SIZE") (by decide) (by decide))
    (features_fits _ _ (by decide)) rfl).2 (by decide)

/-- A line in between that starts with another code is taken for the last. -/
theorem readReply_other_code :
    ¬ ∀ (r : StandardReply) (size : ℕ → ℕ) (c : Chan) (rest : Bytes), r.Fits →
      c.unread = r.bytes ++ rest →
      ∃ body c', readReply size c = (some (r.code, body), c') ∧ c'.unread = rest := by
  intro h
  obtain ⟨body, c', hread, -⟩ := h (features (ascii "220 B") (by decide) (by decide)) (fun _ => 512)
    ⟨[], ascii "211-Features\r\n220 B\r\n211 End\r\n", 0⟩ [] (features_fits _ _ (by decide)) rfl
  have hcode : (some 220 : Option ℕ) = some 211 := congrArg (fun e => e.1.map Prod.fst) hread
  cases hcode

end BambooNet.Ftps
