import BambooNet.Lib.JsonFound
import BambooNet.Lib.JsonNesting

/-!
# What cannot be in a JSON text

A reading of the text by characters that knows when it is in a string. It stops where no JSON text
goes on: with a comma after an opening brace, with a letter after a closing quote, with an opening
brace after a backslash. No text of a tree makes it stop (`Reading.run_bytes`), so a comma in the
place of the first member of an object makes a text that is none (`Text.not_comma_first`).
-/

namespace BambooNet.JsonSyntax

/-- Where in a text a reading is. -/
inductive Reading
  | out
  /-- After an opening brace. -/
  | opened
  | string
  /-- After a backslash in a string. -/
  | escape
  /-- After a closing quote. -/
  | closed

namespace Reading

/-- A character that is not in a string. -/
def outside (c : UInt8) : Reading :=
  if c = 0x22 then .string else if c = 0x7b then .opened else .out

def isWhite (c : UInt8) : Bool := c == 0x20 || c == 0x09 || c == 0x0a || c == 0x0d

/-- `none` where no JSON text goes on. -/
def next : Reading → UInt8 → Option Reading
  | .out, c => some (outside c)
  | .opened, c =>
    if c = 0x2c then none else if isWhite c then some .opened else some (outside c)
  | .string, c => if c = 0x22 then some .closed else if c = 0x5c then some .escape else some .string
  | .escape, c => if c = 0x7b then none else some .string
  | .closed, c => if 0x61 ≤ c ∧ c ≤ 0x7a then none else some (outside c)

/-- The reading of a text. -/
def run (s : Reading) : Bytes → Option Reading
  | [] => some s
  | c :: p => (s.next c).bind fun s => run s p

variable {s s' : Reading} {p q : Bytes}

theorem run_append (s : Reading) (p q : Bytes) :
    s.run (p ++ q) = (s.run p).bind fun s => s.run q := by
  induction p generalizing s with
  | nil => rfl
  | cons c p ih =>
    rw [List.cons_append, run, run, Option.bind_assoc]
    exact congrArg _ (funext ih)

theorem run_trans (hp : s.run p = some s') (q : Bytes) : s.run (p ++ q) = s'.run q := by
  rw [run_append, hp, Option.bind_some]

/-- A character of a number, of a literal name or of whitespace, a comma, a colon or a bracket that
closes. -/
abbrev IsCalm (c : UInt8) : Prop := c ≠ 0x22 ∧ c ≠ 0x7b

theorem run_calm (h : ∀ c ∈ p, IsCalm c) : Reading.out.run p = some .out := by
  induction p with
  | nil => rfl
  | cons c p ih =>
    obtain ⟨⟨hquote, hbrace⟩, hp⟩ := List.forall_mem_cons.1 h
    rw [run, next, outside, if_neg hquote, if_neg hbrace, Option.bind_some, ih hp]

/-- Behind a value. -/
def Behind (s : Reading) : Prop := s = .out ∨ s = .closed

/-- What follows a value leads out. -/
theorem Behind.next (h : s.Behind) {c : UInt8} (hcalm : IsCalm c)
    (hletter : ¬ (0x61 ≤ c ∧ c ≤ 0x7a)) : s.next c = some .out := by
  have hout : outside c = .out := by rw [outside, if_neg hcalm.1, if_neg hcalm.2]
  rcases h with rfl | rfl
  · rw [Reading.next, hout]
  · rw [Reading.next, if_neg hletter, hout]

theorem Behind.run_cons (h : s.Behind) {c : UInt8} (hcalm : IsCalm c)
    (hletter : ¬ (0x61 ≤ c ∧ c ≤ 0x7a)) (p : Bytes) : s.run (c :: p) = Reading.out.run p := by
  rw [run, h.next hcalm hletter, Option.bind_some]

theorem calm_ws (ws : Ws) : ∀ c ∈ ws.bytes, IsCalm c ∧ ¬ (0x61 ≤ c ∧ c ≤ 0x7a) := by
  have hwhite : ∀ c ∈ whitespace, (c ≠ 0x22 ∧ c ≠ 0x7b) ∧ ¬ (0x61 ≤ c ∧ c ≤ 0x7a) :=
    List.all_iff_forall_prop.1 (by decide)
  exact fun c hc => hwhite c (ws.white c hc)

theorem run_ws (ws : Ws) (p : Bytes) : Reading.out.run (ws.bytes ++ p) = Reading.out.run p :=
  run_trans (run_calm fun c hc => (calm_ws ws c hc).1) p

theorem Behind.ws (h : s.Behind) (ws : Ws) : ∃ s', s.run ws.bytes = some s' ∧ s'.Behind := by
  have hcalm := calm_ws ws
  cases hws : ws.bytes with
  | nil => exact ⟨s, rfl, h⟩
  | cons c t =>
    rw [hws] at hcalm
    obtain ⟨hc, ht⟩ := List.forall_mem_cons.1 hcalm
    exact ⟨.out, (h.run_cons hc.1 hc.2 t).trans (run_calm fun c hc => (ht c hc).1), .inl rfl⟩

/-- Whitespace behind a value, then a character that closes or goes on. -/
theorem Behind.run_close (h : s.Behind) (ws : Ws) {c : UInt8} (hcalm : IsCalm c)
    (hletter : ¬ (0x61 ≤ c ∧ c ≤ 0x7a)) (p : Bytes) :
    s.run (ws.bytes ++ c :: p) = Reading.out.run p := by
  obtain ⟨s', hrun, hs'⟩ := h.ws ws
  rw [run_trans hrun, hs'.run_cons hcalm hletter]

/-- Before a key. -/
def Before (s : Reading) : Prop := s = .out ∨ s = .opened

theorem isWhite_ws (ws : Ws) : ∀ c ∈ ws.bytes, c ≠ 0x2c ∧ isWhite c = true := by
  have hwhite : ∀ c ∈ whitespace, c ≠ 0x2c ∧ isWhite c = true :=
    List.all_iff_forall_prop.1 (by decide)
  exact fun c hc => hwhite c (ws.white c hc)

theorem run_opened (ws : Ws) (p : Bytes) :
    Reading.opened.run (ws.bytes ++ p) = Reading.opened.run p := by
  have hwhite := isWhite_ws ws
  generalize ws.bytes = t at hwhite
  induction t with
  | nil => rfl
  | cons c t ih =>
    obtain ⟨⟨hcomma, hc⟩, ht⟩ := List.forall_mem_cons.1 hwhite
    rw [List.cons_append, run, next, if_neg hcomma, if_pos hc, Option.bind_some, ih ht]

theorem Before.run_ws (h : s.Before) (ws : Ws) (p : Bytes) : s.run (ws.bytes ++ p) = s.run p := by
  rcases h with rfl | rfl
  · exact Reading.run_ws ws p
  · exact run_opened ws p

/-! ## Strings -/

theorem run_char (ch : StrChar) (p : Bytes) :
    Reading.string.run (ch.text ++ p) = Reading.string.run p := by
  have hraw {c : UInt8} (hquote : c ≠ 0x22) (hbackslash : c ≠ 0x5c) (p : Bytes) :
      Reading.string.run (c :: p) = Reading.string.run p := by
    rw [run, next, if_neg hquote, if_neg hbackslash, Option.bind_some]
  have hescape {c : UInt8} (hc : c ≠ 0x7b) (p : Bytes) :
      Reading.string.run (0x5c :: c :: p) = Reading.string.run p := by
    rw [run, next, if_neg (by decide), if_pos rfl, Option.bind_some, run, next, if_neg hc,
      Option.bind_some]
  have hhex (u : Hex4) (p : Bytes) : Reading.string.run (u.text ++ p) = Reading.string.run p := by
    have hdigit (h : Hex) (p : Bytes) : Reading.string.run (h.byte :: p) = Reading.string.run p :=
      hraw (hex_ne h).1 (hex_ne h).2 p
    refine (hescape (by decide) _).trans ?_
    refine (hdigit u.a _).trans ((hdigit u.b _).trans ((hdigit u.c _).trans ?_))
    exact hdigit u.d _
  cases ch with
  | raw c plain => exact hraw plain.2.1 plain.2.2 p
  | short e known =>
    have hall : ∀ e ∈ escapes, e.1 ≠ 0x7b := List.all_iff_forall_prop.1 (by decide)
    exact hescape (hall e known) p
  | unicode u scalar => exact hhex u p
  | pair hi lo high low =>
    rw [StrChar.text, List.append_assoc, hhex, hhex]
  | lone u surrogate => exact hhex u p

theorem run_texts (cs : List StrChar) (p : Bytes) :
    Reading.string.run (StrChar.texts cs ++ p) = Reading.string.run p := by
  induction cs with
  | nil => rfl
  | cons ch cs ih =>
    have hcons : StrChar.texts (ch :: cs) = ch.text ++ StrChar.texts cs := rfl
    rw [hcons, List.append_assoc, run_char, ih]

/-- A literal, wherever one can begin. -/
theorem run_str (h : s.Before) (t : Str) (p : Bytes) :
    s.run (t.text ++ p) = Reading.closed.run p := by
  have hquote : s.next 0x22 = some .string := by
    rcases h with rfl | rfl
    · rfl
    · rfl
  rw [Str.text, List.cons_append, List.append_assoc, run, hquote, Option.bind_some, run_texts]
  rfl

/-! ## Trees -/

mutual

/-- A value is read to its end. -/
theorem run_node (v : Node) : ∃ s, Reading.out.run v.text = some s ∧ s.Behind := by
  cases v with
  | null => exact ⟨.out, rfl, .inl rfl⟩
  | bool b => cases b <;> exact ⟨.out, rfl, .inl rfl⟩
  | number n =>
    refine ⟨.out, run_calm fun c hc => ?_, .inl rfl⟩
    obtain ⟨hquote, -, -, hbrace, -⟩ := neutral_numeral n.toNumeral c hc
    exact ⟨hquote, hbrace⟩
  | string t =>
    have hstr := run_str (.inl rfl) t []
    rw [List.append_nil] at hstr
    exact ⟨.closed, hstr, .inr rfl⟩
  | emptyArray ws => exact ⟨.out, run_ws ws [0x5d], .inl rfl⟩
  | emptyObject ws => exact ⟨.out, run_opened ws [0x7d], .inl rfl⟩
  | array es =>
    obtain ⟨s, hrun, hs⟩ := run_elements es
    exact ⟨.out, (run_trans hrun [0x5d]).trans (hs.run_cons (by decide) (by decide) []), .inl rfl⟩
  | object ms =>
    obtain ⟨s, hrun, hs⟩ := run_members ms (.inr rfl)
    exact ⟨.out, (run_trans hrun [0x7d]).trans (hs.run_cons (by decide) (by decide) []), .inl rfl⟩

theorem run_elements (es : Elements) : ∃ s, Reading.out.run es.text = some s ∧ s.Behind := by
  cases es with
  | last before v after =>
    obtain ⟨s, hrun, hs⟩ := run_node v
    obtain ⟨s', hrun', hs'⟩ := hs.ws after
    exact ⟨s', (run_ws before _).trans ((run_trans hrun _).trans hrun'), hs'⟩
  | cons before v after rest =>
    obtain ⟨s, hrun, hs⟩ := run_node v
    obtain ⟨s', hrun', hs'⟩ := run_elements rest
    refine ⟨s', (run_ws before _).trans ((run_trans hrun _).trans ?_), hs'⟩
    exact (hs.run_close after (by decide) (by decide) rest.text).trans hrun'

theorem run_members (ms : Members) {s : Reading} (hs : s.Before) :
    ∃ s', s.run ms.text = some s' ∧ s'.Behind := by
  have hclosed : Reading.closed.Behind := .inr rfl
  cases ms with
  | last before key after lead v after' =>
    obtain ⟨s₁, hrun, hs₁⟩ := run_node v
    obtain ⟨s₂, hrun', hs₂⟩ := hs₁.ws after'
    refine ⟨s₂, ?_, hs₂⟩
    rw [Members.text, hs.run_ws, run_str hs, hclosed.run_close after (by decide) (by decide),
      run_ws, run_trans hrun, hrun']
  | cons before key after lead v after' rest =>
    obtain ⟨s₁, hrun, hs₁⟩ := run_node v
    obtain ⟨s₂, hrun', hs₂⟩ := run_members rest (.inl rfl)
    refine ⟨s₂, ?_, hs₂⟩
    rw [Members.text, hs.run_ws, run_str hs, hclosed.run_close after (by decide) (by decide),
      run_ws, run_trans hrun, hs₁.run_close after' (by decide) (by decide), hrun']

end

/-- **A JSON text is read to its end.** -/
theorem run_bytes (t : Text) : ∃ s, Reading.out.run t.bytes = some s := by
  obtain ⟨s, hrun, hs⟩ := run_node t.node
  obtain ⟨s', hrun', -⟩ := hs.ws t.after
  exact ⟨s', (run_ws t.before _).trans ((run_trans hrun _).trans hrun')⟩

end Reading

open Reading in
/-- In the place of a value, an object that begins with a comma makes no JSON text. -/
theorem Text.not_comma_first (t : Text) (f : t.node.Found) (ws : Ws) (q : Bytes) (u : Text) :
    u.bytes ≠ t.before.bytes ++ f.before ++ 0x7b :: (ws.bytes ++ 0x2c :: q) := by
  intro hu
  have hplain : ∀ c ∈ [(0x78 : UInt8)], IsPlain c := List.all_iff_forall_prop.1 (by decide)
  have hread (w : Node) : ∃ s, Reading.out.run (t.before.bytes ++ f.before ++
      (w.text ++ (f.rest ++ t.after.bytes))) = some s := t.bytes_set f w ▸ run_bytes (t.set f w)
  obtain ⟨s, hs⟩ := run_bytes u
  rw [hu, run_append] at hs
  simp only [run_append _ (t.before.bytes ++ f.before)] at hread
  cases hpre : Reading.out.run (t.before.bytes ++ f.before) with
  | none =>
    rw [hpre] at hs
    cases hs
  | some s₀ =>
    simp only [hpre, Option.bind_some] at hread hs
    have hopens : s₀.next 0x7b = some .opened := by
      cases s₀ with
      | out | opened | closed => rfl
      | string =>
        -- the value could be a string, and would not begin here
        obtain ⟨s', hs'⟩ := hread (.string (.verbatim [0x78] hplain))
        rw [Node.text, Str.text_verbatim] at hs'
        cases hs'
      | escape =>
        -- the value could be an object
        obtain ⟨s', hs'⟩ := hread (.emptyObject .none)
        cases hs'
    rw [run, hopens, Option.bind_some, run_opened] at hs
    cases hs

end BambooNet.JsonSyntax
