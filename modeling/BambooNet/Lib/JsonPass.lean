import BambooNet.Lib.JsonFound

/-!
# Passes over a tree

A pass goes over the members of a tree in the order of the text, with a state. Where the value of a
member is a number it may put another one there (`Node.rewrite`). The documents that two passes give
are the same exactly when the numbers are the same at every member (`Node.doc_rewrite_iff`).

A program that does not parse the text and copies it, but for some of the numbers, makes a pass over
the tree when it treats each part of the text so (`PassScan.run_node`).
-/

namespace BambooNet.JsonSyntax

/-- How the state of a pass goes on. -/
structure Pass (σ : Type) where
  /-- The state at the value of a member. -/
  enter : Str → Ws → Ws → Node → σ → σ
  /-- The state behind a member, from the one before it and the one behind its value. -/
  leave : σ → σ → σ

/-- What becomes of the number in a member. -/
abbrev Change (σ : Type) := Str → Ws → Ws → σ → Number → Number

variable {σ τ : Type}

section Exit

variable (P : Pass σ)

mutual

/-- The state behind a value. -/
@[grind =] def Node.exit : Node → σ → σ
  | .array es, s => es.exit s
  | .object ms, s => ms.exit s
  | .null, s | .bool _, s | .number _, s | .string _, s | .emptyArray _, s | .emptyObject _, s => s

@[grind =] def Elements.exit : Elements → σ → σ
  | .last _ v _, s => v.exit s
  | .cons _ v _ rest, s => rest.exit (v.exit s)

@[grind =] def Members.exit : Members → σ → σ
  | .last _ key after lead v _, s => P.leave s (v.exit (P.enter key after lead v s))
  | .cons _ key after lead v _ rest, s =>
    rest.exit (P.leave s (v.exit (P.enter key after lead v s)))

end

end Exit

section Rewrite

variable (P : Pass σ) (change : Change σ)

mutual

/-- A pass over a value. The first argument is what becomes of the value itself, when it is a
number. -/
@[grind =] def Node.rewrite : (Number → Number) → Node → σ → Node
  | f, .number n, _ => .number (f n)
  | _, .array es, s => .array (es.rewrite s)
  | _, .object ms, s => .object (ms.rewrite s)
  | _, .null, _ => .null
  | _, .bool b, _ => .bool b
  | _, .string t, _ => .string t
  | _, .emptyArray ws, _ => .emptyArray ws
  | _, .emptyObject ws, _ => .emptyObject ws

@[grind =] def Elements.rewrite : Elements → σ → Elements
  | .last before v after, s => .last before (v.rewrite id s) after
  | .cons before v after rest, s =>
    .cons before (v.rewrite id s) after (rest.rewrite (v.exit P s))

@[grind =] def Members.rewrite : Members → σ → Members
  | .last before key after lead v after', s =>
    let inner := P.enter key after lead v s
    .last before key after lead (v.rewrite (change key after lead inner) inner) after'
  | .cons before key after lead v after' rest, s =>
    let inner := P.enter key after lead v s
    .cons before key after lead (v.rewrite (change key after lead inner) inner) after'
      (rest.rewrite (P.leave s (v.exit P inner)))

end

end Rewrite

section AllNumbers

variable (P : Pass σ) (Q : Str → Ws → Ws → σ → Number → Prop)

mutual

/-- Every member whose value is a number has the property, with the state there. The first argument
is the property of the value itself. -/
@[grind =] def Node.AllNumbers : (Number → Prop) → Node → σ → Prop
  | q, .number n, _ => q n
  | _, .array es, s => es.AllNumbers s
  | _, .object ms, s => ms.AllNumbers s
  | _, .null, _ | _, .bool _, _ | _, .string _, _ | _, .emptyArray _, _ | _, .emptyObject _, _ =>
    True

@[grind =] def Elements.AllNumbers : Elements → σ → Prop
  | .last _ v _, s => v.AllNumbers (fun _ => True) s
  | .cons _ v _ rest, s => v.AllNumbers (fun _ => True) s ∧ rest.AllNumbers (v.exit P s)

@[grind =] def Members.AllNumbers : Members → σ → Prop
  | .last _ key after lead v _, s =>
    let inner := P.enter key after lead v s
    v.AllNumbers (Q key after lead inner) inner
  | .cons _ key after lead v _ rest, s =>
    let inner := P.enter key after lead v s
    v.AllNumbers (Q key after lead inner) inner ∧ rest.AllNumbers (P.leave s (v.exit P inner))

end

end AllNumbers

variable {P : Pass σ} {change change' : Change σ} {Q : Str → Ws → Ws → σ → Number → Prop}

/-! ## Two passes -/

mutual

/-- **When two passes agree**: they put the same number into every member. -/
theorem Node.doc_rewrite_iff {f g : Number → Number} {q : Number → Prop}
    (hq : ∀ n, q n ↔ (f n).toRat = (g n).toRat)
    (hQ : ∀ key after lead s n, Q key after lead s n ↔
      (change key after lead s n).toRat = (change' key after lead s n).toRat) (v : Node) (s : σ) :
    (v.rewrite P change f s).doc = (v.rewrite P change' g s).doc ↔ v.AllNumbers P Q q s := by
  cases v with
  | number n => exact Doc.number.injEq _ _ ▸ (hq n).symm
  | array es => exact Doc.array.injEq _ _ ▸ Elements.docs_rewrite_iff hQ es s
  | object ms => exact Doc.object.injEq _ _ ▸ Members.docs_rewrite_iff hQ ms s
  | null | bool | string | emptyArray | emptyObject => exact iff_of_true rfl trivial

theorem Elements.docs_rewrite_iff
    (hQ : ∀ key after lead s n, Q key after lead s n ↔
      (change key after lead s n).toRat = (change' key after lead s n).toRat) (es : Elements)
    (s : σ) :
    (es.rewrite P change s).docs = (es.rewrite P change' s).docs ↔ es.AllNumbers P Q s := by
  have hid (n : Number) : True ↔ (id n).toRat = (id n).toRat := iff_of_true trivial rfl
  cases es with
  | last before v after =>
    have hv := Node.doc_rewrite_iff hid hQ v s
    exact List.singleton_inj.trans hv
  | cons before v after rest =>
    have hv := Node.doc_rewrite_iff hid hQ v s
    have hrest := Elements.docs_rewrite_iff hQ rest (v.exit P s)
    exact List.cons_eq_cons.trans (and_congr hv hrest)

theorem Members.docs_rewrite_iff
    (hQ : ∀ key after lead s n, Q key after lead s n ↔
      (change key after lead s n).toRat = (change' key after lead s n).toRat) (ms : Members)
    (s : σ) :
    (ms.rewrite P change s).docs = (ms.rewrite P change' s).docs ↔ ms.AllNumbers P Q s := by
  cases ms with
  | last before key after lead v after' =>
    have hkey := hQ key after lead (P.enter key after lead v s)
    have hv := Node.doc_rewrite_iff hkey hQ v (P.enter key after lead v s)
    exact List.singleton_inj.trans (Prod.mk_right_inj.trans hv)
  | cons before key after lead v after' rest =>
    have hkey := hQ key after lead (P.enter key after lead v s)
    have hv := Node.doc_rewrite_iff hkey hQ v (P.enter key after lead v s)
    have hrest := Members.docs_rewrite_iff hQ rest
      (P.leave s (v.exit P (P.enter key after lead v s)))
    exact List.cons_eq_cons.trans (and_congr (Prod.mk_right_inj.trans hv) hrest)

end

/-! ## Passes with less in their state -/

/-- What one pass keeps of the state of another. -/
structure Pass.Hom (P : Pass σ) (R : Pass τ) (h : σ → τ) : Prop where
  enter : ∀ key after lead v s, h (P.enter key after lead v s) = R.enter key after lead v (h s)
  leave : ∀ s t, h (P.leave s t) = R.leave (h s) (h t)

section Hom

variable {R : Pass τ} {h : σ → τ}

mutual

theorem Node.exit_hom (H : P.Hom R h) (v : Node) (s : σ) : h (v.exit P s) = v.exit R (h s) := by
  cases v with
  | array es => exact Elements.exit_hom H es s
  | object ms => exact Members.exit_hom H ms s
  | null | bool | number | string | emptyArray | emptyObject => rfl

theorem Elements.exit_hom (H : P.Hom R h) (es : Elements) (s : σ) :
    h (es.exit P s) = es.exit R (h s) := by
  cases es with
  | last before v after => exact Node.exit_hom H v s
  | cons before v after rest =>
    rw [Elements.exit, Elements.exit_hom H rest, Node.exit_hom H v, Elements.exit]

theorem Members.exit_hom (H : P.Hom R h) (ms : Members) (s : σ) :
    h (ms.exit P s) = ms.exit R (h s) := by
  cases ms with
  | last before key after lead v after' =>
    rw [Members.exit, H.leave, Node.exit_hom H v, H.enter, Members.exit]
  | cons before key after lead v after' rest =>
    rw [Members.exit, Members.exit_hom H rest, H.leave, Node.exit_hom H v, H.enter, Members.exit]

end

variable {change : Change τ}

mutual

/-- A pass that looks at a part of the state only. -/
theorem Node.rewrite_hom (H : P.Hom R h) (f : Number → Number) (v : Node) (s : σ) :
    v.rewrite P (fun key after lead s => change key after lead (h s)) f s =
      v.rewrite R change f (h s) := by
  cases v with
  | array es => exact congrArg Node.array (Elements.rewrite_hom H es s)
  | object ms => exact congrArg Node.object (Members.rewrite_hom H ms s)
  | null | bool | number | string | emptyArray | emptyObject => rfl

theorem Elements.rewrite_hom (H : P.Hom R h) (es : Elements) (s : σ) :
    es.rewrite P (fun key after lead s => change key after lead (h s)) s =
      es.rewrite R change (h s) := by
  cases es with
  | last before v after => rw [Elements.rewrite, Node.rewrite_hom H id v, Elements.rewrite]
  | cons before v after rest =>
    rw [Elements.rewrite, Node.rewrite_hom H id v, Elements.rewrite_hom H rest, v.exit_hom H,
      Elements.rewrite]

theorem Members.rewrite_hom (H : P.Hom R h) (ms : Members) (s : σ) :
    ms.rewrite P (fun key after lead s => change key after lead (h s)) s =
      ms.rewrite R change (h s) := by
  cases ms with
  | last before key after lead v after' =>
    rw [Members.rewrite, Node.rewrite_hom H _ v, H.enter, Members.rewrite]
  | cons before key after lead v after' rest =>
    rw [Members.rewrite, Node.rewrite_hom H _ v, Members.rewrite_hom H rest, H.leave, v.exit_hom H,
      H.enter, Members.rewrite]

end

end Hom

/-- Two passes at once. -/
def Pass.prod (P : Pass σ) (R : Pass τ) : Pass (σ × τ) where
  enter key after lead v s := (P.enter key after lead v s.1, R.enter key after lead v s.2)
  leave s t := (P.leave s.1 t.1, R.leave s.2 t.2)

theorem Pass.prod_fst (P : Pass σ) (R : Pass τ) : (P.prod R).Hom P Prod.fst :=
  ⟨fun _ _ _ _ _ => rfl, fun _ _ => rfl⟩

theorem Pass.prod_snd (P : Pass σ) (R : Pass τ) : (P.prod R).Hom R Prod.snd :=
  ⟨fun _ _ _ _ _ => rfl, fun _ _ => rfl⟩

mutual

/-- A pass that changes no number. -/
theorem Node.rewrite_id (hc : ∀ key after lead s, change key after lead s = id) (v : Node) (s : σ) :
    v.rewrite P change id s = v := by
  cases v with
  | array es => exact congrArg Node.array (Elements.rewrite_id hc es s)
  | object ms => exact congrArg Node.object (Members.rewrite_id hc ms s)
  | null | bool | number | string | emptyArray | emptyObject => rfl

theorem Elements.rewrite_id (hc : ∀ key after lead s, change key after lead s = id)
    (es : Elements) (s : σ) : es.rewrite P change s = es := by
  cases es with
  | last before v after => rw [Elements.rewrite, Node.rewrite_id hc v]
  | cons before v after rest =>
    rw [Elements.rewrite, Node.rewrite_id hc v, Elements.rewrite_id hc rest]

theorem Members.rewrite_id (hc : ∀ key after lead s, change key after lead s = id)
    (ms : Members) (s : σ) : ms.rewrite P change s = ms := by
  cases ms with
  | last before key after lead v after' =>
    rw [Members.rewrite, hc, Node.rewrite_id hc v]
  | cons before key after lead v after' rest =>
    rw [Members.rewrite, hc, Node.rewrite_id hc v, Members.rewrite_id hc rest]

end

/-! ## Inside of the first member with a property -/

/-- A number. -/
def Node.number? : Node → Option Number
  | .number n => some n
  | .null | .bool _ | .string _ | .emptyArray _ | .array _ | .emptyObject _ | .object _ => none

/-- What becomes of a value that is no number does not depend on what becomes of a number. -/
theorem Node.rewrite_of_number? {v : Node} (h : v.number? = none) (f : Number → Number) (s : σ) :
    v.rewrite P change f s = v.rewrite P change id s := by
  cases v with
  | number n => cases h
  | null | bool | string | emptyArray | array | emptyObject | object => rfl

/-- Before the first member with a property, inside of its value, behind it. -/
inductive Place
  | before
  | inside
  | behind
  deriving DecidableEq

/-- The pass that knows where it stands. -/
def within (p : Str → Ws → Ws → Node → Bool) : Pass Place where
  enter key after lead v s := if s = .before ∧ p key after lead v = true then .inside else s
  leave s t := if s = .before ∧ t = .inside then .behind else t

/-- The pass without a state. -/
def still : Pass Unit where
  enter _ _ _ _ s := s
  leave _ t := t

/-- The numbers in all members of a tree changed. -/
def Node.everywhere (c : Str → Ws → Ws → Number → Number) (v : Node) : Node :=
  v.rewrite still (fun key after lead _ => c key after lead) id ()

/-- Only the numbers inside are changed. -/
def insideOnly (c : Str → Ws → Ws → Number → Number) : Change Place := fun key after lead s =>
  if s = .inside then c key after lead else id

variable {p : Str → Ws → Ws → Node → Bool} {c : Str → Ws → Ws → Number → Number}

/-- The pass stays where it is, but before the member. -/
theorem still_hom {place : Place} (h : place ≠ .before) :
    still.Hom (within p) fun _ => place where
  enter _ _ _ _ _ := (if_neg fun hc => h hc.1).symm
  leave _ _ := (if_neg fun hc => h hc.1).symm

theorem Node.rewrite_inside (v : Node) :
    v.rewrite (within p) (insideOnly c) id .inside = v.everywhere c :=
  (Node.rewrite_hom (still_hom (by decide)) id v ()).symm

theorem Node.exit_inside (v : Node) : v.exit (within p) .inside = .inside :=
  (Node.exit_hom (still_hom (by decide)) v ()).symm

theorem Elements.rewrite_behind (es : Elements) :
    es.rewrite (within p) (insideOnly c) .behind = es :=
  (Elements.rewrite_hom (still_hom (by decide)) es ()).symm.trans
    (Elements.rewrite_id (fun _ _ _ _ => rfl) es ())

theorem Elements.exit_behind (es : Elements) : es.exit (within p) .behind = .behind :=
  (Elements.exit_hom (still_hom (by decide)) es ()).symm

theorem Members.rewrite_behind (ms : Members) :
    ms.rewrite (within p) (insideOnly c) .behind = ms :=
  (Members.rewrite_hom (still_hom (by decide)) ms ()).symm.trans
    (Members.rewrite_id (fun _ _ _ _ => rfl) ms ())

theorem Members.exit_behind (ms : Members) : ms.exit (within p) .behind = .behind :=
  (Members.exit_hom (still_hom (by decide)) ms ()).symm

theorem firstAt_none {key : Str} {after lead : Ws} {v : Node}
    (h : (if p key after lead v then some (Found.self lead v) else v.first p) = none) :
    p key after lead v = false ∧ v.first p = none := by
  split at h
  · cases h
  · next hp => exact ⟨Bool.eq_false_iff.2 hp, h⟩

mutual

/-- Where there is no such member the pass changes nothing. -/
theorem Node.rewrite_none {v : Node} (h : v.first p = none) :
    v.rewrite (within p) (insideOnly c) id .before = v ∧ v.exit (within p) .before = .before := by
  cases v with
  | array es =>
    rw [Node.first] at h
    obtain ⟨hrewrite, hexit⟩ := Elements.rewrite_none (Option.map_eq_none_iff.1 h)
    exact ⟨congrArg Node.array hrewrite, hexit⟩
  | object ms =>
    rw [Node.first] at h
    obtain ⟨hrewrite, hexit⟩ := Members.rewrite_none (Option.map_eq_none_iff.1 h)
    exact ⟨congrArg Node.object hrewrite, hexit⟩
  | null | bool | number | string | emptyArray | emptyObject => exact ⟨rfl, rfl⟩

theorem Elements.rewrite_none {es : Elements} (h : es.first p = none) :
    es.rewrite (within p) (insideOnly c) .before = es ∧ es.exit (within p) .before = .before := by
  cases es with
  | last before v after =>
    rw [Elements.first] at h
    obtain ⟨hrewrite, hexit⟩ := Node.rewrite_none (Option.map_eq_none_iff.1 h)
    exact ⟨by rw [Elements.rewrite, hrewrite], hexit⟩
  | cons before v after rest =>
    rw [Elements.first] at h
    cases hv : v.first p with
    | some f =>
      rw [hv] at h
      cases h
    | none =>
      rw [hv] at h
      obtain ⟨hrewrite, hexit⟩ := Node.rewrite_none hv
      obtain ⟨hrest, hend⟩ := Elements.rewrite_none (Option.map_eq_none_iff.1 h)
      exact ⟨by rw [Elements.rewrite, hrewrite, hexit, hrest], by rw [Elements.exit, hexit, hend]⟩

theorem Members.rewrite_none {ms : Members} (h : ms.first p = none) :
    ms.rewrite (within p) (insideOnly c) .before = ms ∧ ms.exit (within p) .before = .before := by
  have hleave : (within p).leave .before .before = .before := rfl
  cases ms with
  | last before key after lead v after' =>
    rw [Members.first] at h
    obtain ⟨hp, hv⟩ := firstAt_none (Option.map_eq_none_iff.1 h)
    have henter : (within p).enter key after lead v .before = .before := if_neg (by simp [hp])
    obtain ⟨hrewrite, hexit⟩ := Node.rewrite_none hv
    refine ⟨?_, by rw [Members.exit, henter, hexit, hleave]⟩
    simp only [Members.rewrite, henter]
    exact congrArg (Members.last before key after lead · after') hrewrite
  | cons before key after lead v after' rest =>
    rw [Members.first] at h
    cases hfirst : if p key after lead v then some (Found.self lead v) else v.first p with
    | some f =>
      rw [hfirst] at h
      cases h
    | none =>
      rw [hfirst] at h
      obtain ⟨hp, hv⟩ := firstAt_none hfirst
      have henter : (within p).enter key after lead v .before = .before := if_neg (by simp [hp])
      obtain ⟨hrewrite, hexit⟩ := Node.rewrite_none hv
      obtain ⟨hrest, hend⟩ := Members.rewrite_none (Option.map_eq_none_iff.1 h)
      refine ⟨?_, by rw [Members.exit, henter, hexit, hleave, hend]⟩
      simp only [Members.rewrite, henter, hexit, hleave, hrest]
      exact congrArg (Members.cons before key after lead · after' rest) hrewrite

end

theorem firstAt_some (hnum : ∀ key after lead v, p key after lead v = true → v.number? = none)
    {key : Str} {after lead : Ws} {v : Node} {f : v.Found}
    (h : (if p key after lead v then some (Found.self lead v) else v.first p) = some f)
    (inside : v.first p = some f →
      v.rewrite (within p) (insideOnly c) id .before = f.plug (f.value.everywhere c) ∧
        v.exit (within p) .before = .behind) :
    let inner := (within p).enter key after lead v .before
    v.rewrite (within p) (insideOnly c) (insideOnly c key after lead inner) inner =
        f.plug (f.value.everywhere c) ∧
      (within p).leave .before (v.exit (within p) inner) = .behind := by
  split at h
  · next hp =>
    obtain rfl := Option.some.inj h
    have henter : (within p).enter key after lead v .before = .inside := if_pos ⟨rfl, hp⟩
    simp only [henter, Node.rewrite_of_number? (hnum key after lead v hp), Node.rewrite_inside,
      Node.exit_inside]
    exact ⟨rfl, rfl⟩
  · next hp =>
    obtain ⟨hrewrite, hexit⟩ := inside h
    have henter : (within p).enter key after lead v .before = .before := if_neg fun hc => hp hc.2
    simp only [henter, hexit]
    exact ⟨hrewrite, rfl⟩

mutual

/-- **A pass inside of the first member** changes the numbers in its value. -/
theorem Node.rewrite_some
    (hnum : ∀ key after lead v, p key after lead v = true → v.number? = none) {v : Node}
    {f : v.Found} (h : v.first p = some f) :
    v.rewrite (within p) (insideOnly c) id .before = f.plug (f.value.everywhere c) ∧
      v.exit (within p) .before = .behind := by
  cases v with
  | array es =>
    rw [Node.first] at h
    obtain ⟨g, hg, rfl⟩ := Option.map_eq_some_iff.1 h
    obtain ⟨hrewrite, hexit⟩ := Elements.rewrite_some hnum hg
    exact ⟨congrArg Node.array hrewrite, hexit⟩
  | object ms =>
    rw [Node.first] at h
    obtain ⟨g, hg, rfl⟩ := Option.map_eq_some_iff.1 h
    obtain ⟨hrewrite, hexit⟩ := Members.rewrite_some hnum hg
    exact ⟨congrArg Node.object hrewrite, hexit⟩
  | null | bool | number | string | emptyArray | emptyObject =>
    rw [Node.first] at h
    exact absurd h (by simp)

theorem Elements.rewrite_some
    (hnum : ∀ key after lead v, p key after lead v = true → v.number? = none) {es : Elements}
    {f : es.Found} (h : es.first p = some f) :
    es.rewrite (within p) (insideOnly c) .before = f.plug (f.value.everywhere c) ∧
      es.exit (within p) .before = .behind := by
  cases es with
  | last before v after =>
    rw [Elements.first] at h
    obtain ⟨g, hg, rfl⟩ := Option.map_eq_some_iff.1 h
    obtain ⟨hrewrite, hexit⟩ := Node.rewrite_some hnum hg
    exact ⟨congrArg (Elements.last before · after) hrewrite, hexit⟩
  | cons before v after rest =>
    rw [Elements.first] at h
    cases hv : v.first p with
    | some g =>
      rw [hv] at h
      obtain rfl := Option.some.inj h
      obtain ⟨hrewrite, hexit⟩ := Node.rewrite_some hnum hv
      refine ⟨?_, by rw [Elements.exit, hexit, Elements.exit_behind]⟩
      rw [Elements.rewrite, hexit, Elements.rewrite_behind]
      exact congrArg (Elements.cons before · after rest) hrewrite
    | none =>
      rw [hv] at h
      obtain ⟨g, hg, rfl⟩ := Option.map_eq_some_iff.1 h
      obtain ⟨hrewrite, hexit⟩ := Node.rewrite_none (c := c) hv
      obtain ⟨hrest, hend⟩ := Elements.rewrite_some hnum hg
      refine ⟨?_, by rw [Elements.exit, hexit, hend]⟩
      rw [Elements.rewrite, hrewrite, hexit]
      exact congrArg (Elements.cons before v after) hrest

theorem Members.rewrite_some
    (hnum : ∀ key after lead v, p key after lead v = true → v.number? = none) {ms : Members}
    {f : ms.Found} (h : ms.first p = some f) :
    ms.rewrite (within p) (insideOnly c) .before = f.plug (f.value.everywhere c) ∧
      ms.exit (within p) .before = .behind := by
  cases ms with
  | last before key after lead v after' =>
    rw [Members.first] at h
    obtain ⟨g, hg, rfl⟩ := Option.map_eq_some_iff.1 h
    obtain ⟨hrewrite, hexit⟩ := firstAt_some (c := c) hnum hg fun hv => Node.rewrite_some hnum hv
    exact ⟨congrArg (Members.last before key after lead · after') hrewrite, hexit⟩
  | cons before key after lead v after' rest =>
    rw [Members.first] at h
    cases hfirst : if p key after lead v then some (Found.self lead v) else v.first p with
    | some g =>
      rw [hfirst] at h
      obtain rfl := Option.some.inj h
      obtain ⟨hrewrite, hexit⟩ := firstAt_some (c := c) hnum hfirst fun hv =>
        Node.rewrite_some hnum hv
      refine ⟨?_, by rw [Members.exit, hexit, Members.exit_behind]⟩
      simp only [Members.rewrite, hexit, Members.rewrite_behind]
      exact congrArg (Members.cons before key after lead · after' rest) hrewrite
    | none =>
      rw [hfirst] at h
      obtain ⟨g, hg, rfl⟩ := Option.map_eq_some_iff.1 h
      obtain ⟨hp, hv⟩ := firstAt_none hfirst
      have henter : (within p).enter key after lead v .before = .before := if_neg (by simp [hp])
      have hleave : (within p).leave .before .before = .before := rfl
      obtain ⟨hrewrite, hexit⟩ := Node.rewrite_none (c := c) hv
      obtain ⟨hrest, hend⟩ := Members.rewrite_some hnum hg
      refine ⟨?_, by rw [Members.exit, henter, hexit, hleave, hend]⟩
      have hhere : v.rewrite (within p) (insideOnly c) (insideOnly c key after lead .before)
          .before = v := hrewrite
      simp only [Members.rewrite, henter, hexit, hleave, hhere]
      exact congrArg (Members.cons before key after lead v after') hrest

end

/-! ## Copying a text -/

section Copy

variable {n : Name} {S : LabelScan n.label Bytes} {q : Bytes}

/-- What precedes a name in quotes with a colon behind it is copied. -/
theorem copy_noQuote (hS : S.push = List.cons) {t : Bytes} (ht : 0x22 ∉ t) (q : Bytes) :
    S.scan (t ++ q) = t ++ S.scan q := by
  rw [S.scan_noQuote ht, hS, List.foldr_cons_eq_append']

theorem copy_char (hS : S.push = List.cons) {c : UInt8} (hc : c ≠ 0x22) (q : Bytes) :
    S.scan (c :: q) = c :: S.scan q :=
  copy_noQuote hS (List.not_mem_cons_of_ne_of_not_mem hc.symm List.not_mem_nil) q

theorem not_letter_label {d : UInt8} (hd : ¬ (0x61 ≤ d ∧ d ≤ 0x7a)) : d ∉ n.label.bytes :=
  fun h => hd (n.letters d h)

theorem copy_value (hS : S.push = List.cons) (s : Str) (hq : Follows q) :
    S.scan (s.text ++ q) = s.text ++ S.scan q := by
  rw [S.scan_str (fun d hd => not_letter_label (hq.head d hd)) fun _ => hq.head_ne_colon, hS,
    List.foldr_cons_eq_append']

/-- A key that does not end with the name, or has its colon somewhere behind. -/
theorem copy_otherKey (hS : S.push = List.cons) {key : Str} {after : Ws}
    (h : ¬ (key.EndsWith n ∧ after.bytes = [])) (q : Bytes) :
    S.scan (key.text ++ (after.bytes ++ 0x3a :: q)) =
      key.text ++ (after.bytes ++ 0x3a :: S.scan q) := by
  have hstr : S.scan (key.text ++ (after.bytes ++ 0x3a :: q)) =
      key.text ++ S.scan (after.bytes ++ 0x3a :: q) := by
    rw [S.scan_str (fun d hd => not_letter_label (head_colon after q d hd)) fun hends => ?_, hS,
      List.foldr_cons_eq_append']
    exact Ws.head_ne_colon fun hafter => absurd ⟨hends, hafter⟩ h
  rw [hstr, copy_noQuote hS after.quote_notMem, copy_char hS (by decide)]

/-- A key that ends with the name, with its colon directly behind. -/
theorem copy_key (hS : S.push = List.cons) {key : Str} {a : Bytes}
    (h : key.text = a ++ n.label.quoted) (q : Bytes) :
    S.scan (key.text ++ 0x3a :: q) = a ++ S.scan (n.label.quoted ++ 0x3a :: q) := by
  rw [S.scan_key h (not_letter_label (by decide)), hS, List.foldr_cons_eq_append']

end Copy

/-! ## A pass over the text -/

/-- A program over the text that can be told what it does with each part of it: it copies what is
not in quotes and the strings that are values, and at a key the number in the member may change. -/
structure PassScan (P : Pass σ) (change : Change σ) where
  run : σ → Bytes → Bytes
  leave : ∀ s t, P.leave s t = t
  char : ∀ s c q, c ≠ 0x22 → run s (c :: q) = c :: run s q
  value : ∀ s (t : Str) q, Follows q → run s (t.text ++ q) = t.text ++ run s q
  number : ∀ s key after lead (n : Number) q, Follows q →
    run s (key.text ++ (after.bytes ++ 0x3a :: (lead.bytes ++ (n.text ++ q)))) =
      let inner := P.enter key after lead (.number n) s
      key.text ++ (after.bytes ++ 0x3a :: (lead.bytes ++
        ((change key after lead inner n).text ++ run inner q)))
  other : ∀ s key after lead v q, v.number? = none → Follows q →
    run s (key.text ++ (after.bytes ++ 0x3a :: (lead.bytes ++ (v.text ++ q)))) =
      key.text ++ (after.bytes ++ 0x3a :: (lead.bytes ++
        run (P.enter key after lead v s) (v.text ++ q)))

namespace PassScan

variable {change : Change σ} (S : PassScan P change)

theorem run_plain {t : Bytes} (ht : 0x22 ∉ t) (s : σ) (q : Bytes) :
    S.run s (t ++ q) = t ++ S.run s q := by
  induction t with
  | nil => rfl
  | cons c t ih =>
    obtain ⟨hc, ht⟩ := not_or.1 (mt List.mem_cons.2 ht)
    rw [List.cons_append, S.char s c _ (Ne.symm hc), ih ht, List.cons_append]

theorem run_ws (ws : Ws) (s : σ) (q : Bytes) : S.run s (ws.bytes ++ q) = ws.bytes ++ S.run s q :=
  S.run_plain ws.quote_notMem s q

/-- A member, given what the program does with its value. -/
theorem run_member (s : σ) (key : Str) (after lead : Ws) (v : Node) {q : Bytes} (hq : Follows q)
    (inside : ∀ s, S.run s (v.text ++ q) =
      (v.rewrite P change id s).text ++ S.run (v.exit P s) q) :
    let inner := P.enter key after lead v s
    S.run s (key.text ++ (after.bytes ++ 0x3a :: (lead.bytes ++ (v.text ++ q)))) =
      key.text ++ (after.bytes ++ 0x3a :: (lead.bytes ++
        ((v.rewrite P change (change key after lead inner) inner).text ++
          S.run (P.leave s (v.exit P inner)) q))) := by
  intro inner
  rw [S.leave]
  cases hv : v.number? with
  | some n =>
    cases v with
    | number m => exact S.number s key after lead m q hq
    | null | bool | string | emptyArray | array | emptyObject | object => cases hv
  | none =>
    rw [Node.rewrite_of_number? hv, ← inside]
    exact S.other s key after lead v q hv hq

mutual

/-- **The program makes a pass** over the tree. -/
theorem run_node (v : Node) (s : σ) {q : Bytes} (hq : Follows q) :
    S.run s (v.text ++ q) = (v.rewrite P change id s).text ++ S.run (v.exit P s) q := by
  cases v with
  | null => exact S.run_plain (by decide) s q
  | bool b => cases b <;> exact S.run_plain (by decide) s q
  | number n => exact S.run_plain n.quote_notMem s q
  | string t => exact S.value s t q hq
  | emptyArray ws =>
    rw [Node.text, List.cons_append, List.append_assoc, S.char _ _ _ (by decide), S.run_ws,
      List.singleton_append, S.char _ _ _ (by decide)]
    simp [Node.rewrite, Node.text, Node.exit]
  | emptyObject ws =>
    rw [Node.text, List.cons_append, List.append_assoc, S.char _ _ _ (by decide), S.run_ws,
      List.singleton_append, S.char _ _ _ (by decide)]
    simp [Node.rewrite, Node.text, Node.exit]
  | array es =>
    rw [Node.text, List.cons_append, List.append_assoc, S.char _ _ _ (by decide),
      List.singleton_append, run_elements es s q, S.char _ _ _ (by decide)]
    simp [Node.rewrite, Node.text, Node.exit]
  | object ms =>
    rw [Node.text, List.cons_append, List.append_assoc, S.char _ _ _ (by decide),
      List.singleton_append, run_members ms s q, S.char _ _ _ (by decide)]
    simp [Node.rewrite, Node.text, Node.exit]

theorem run_elements (es : Elements) (s : σ) (q : Bytes) :
    S.run s (es.text ++ 0x5d :: q) =
      (es.rewrite P change s).text ++ S.run (es.exit P s) (0x5d :: q) := by
  cases es with
  | last before v after =>
    have hfollows := follows_close after (c := 0x5d) (.inr (.inl rfl)) q
    simp only [Elements.text, List.append_assoc]
    rw [S.run_ws, run_node v s hfollows, S.run_ws]
    simp [Elements.rewrite, Elements.text, Elements.exit]
  | cons before v after rest =>
    have hfollows := follows_close after (c := 0x2c) (.inl rfl) (rest.text ++ 0x5d :: q)
    simp only [Elements.text, List.append_assoc, List.cons_append]
    rw [S.run_ws, run_node v s hfollows, S.run_ws, S.char _ _ _ (by decide), run_elements rest]
    simp [Elements.rewrite, Elements.text, Elements.exit]

theorem run_members (ms : Members) (s : σ) (q : Bytes) :
    S.run s (ms.text ++ 0x7d :: q) =
      (ms.rewrite P change s).text ++ S.run (ms.exit P s) (0x7d :: q) := by
  cases ms with
  | last before key after lead v after' =>
    have hfollows := follows_close after' (c := 0x7d) (.inr (.inr rfl)) q
    simp only [Members.text, List.append_assoc, List.cons_append]
    rw [S.run_ws, S.run_member s key after lead v hfollows fun s => run_node v s hfollows, S.run_ws]
    simp [Members.rewrite, Members.text, Members.exit]
  | cons before key after lead v after' rest =>
    have hfollows := follows_close after' (c := 0x2c) (.inl rfl) (rest.text ++ 0x7d :: q)
    simp only [Members.text, List.append_assoc, List.cons_append]
    rw [S.run_ws, S.run_member s key after lead v hfollows fun s => run_node v s hfollows,
      S.run_ws, S.char _ _ _ (by decide), run_members rest]
    simp [Members.rewrite, Members.text, Members.exit]

end

end PassScan

end BambooNet.JsonSyntax
