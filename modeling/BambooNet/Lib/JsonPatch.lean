import BambooNet.Lib.JsonFound

/-!
# Changing the value under a name

`Text.patch k change` changes the value of the first member named `k`, where `change` says to what.
After a patch the new value is found under its name (`Node.find_plug`), and the strings that are
found under other names are the same (`Node.find_plug_other`). So a patch whose changes need no
second one settles a name, whatever other patches follow (`Text.settled_patchAll`).
-/

namespace BambooNet.JsonSyntax

variable {P : Str → Ws → Ws → Node → Bool} {D : Str → Ws → Ws → Node → Prop} {k k' : Bytes}

/-! ## The value under a name -/

/-- The members with a name. -/
def named (k : Bytes) (key : Str) (_ _ : Ws) (_ : Node) : Bool := key.decoded == k

section Find

variable (k : Bytes)

mutual

/-- The value of the first member with a name. -/
@[grind =] def Node.find : Node → Option Node
  | .array es => es.find
  | .object ms => ms.find
  | .null | .bool _ | .number _ | .string _ | .emptyArray _ | .emptyObject _ => none

@[grind =] def Elements.find : Elements → Option Node
  | .last _ v _ => v.find
  | .cons _ v _ rest => v.find.or rest.find

@[grind =] def Members.find : Members → Option Node
  | .last _ key _ _ v _ => if key.decoded == k then some v else v.find
  | .cons _ key _ _ v _ rest => (if key.decoded == k then some v else v.find).or rest.find

end

end Find

theorem firstAt_find {key : Str} {after lead : Ws} {v : Node} {o : Option v.Found}
    (h : (if named k key after lead v then some (Found.self lead v) else v.first (named k)) = o)
    (inside : (v.first (named k)).map Found.value = v.find k) :
    (if key.decoded == k then some v else v.find k) = o.map Found.value := by
  subst h
  rw [named]
  split
  · rfl
  · exact inside.symm

mutual

theorem Node.map_first (k : Bytes) (v : Node) :
    (v.first (named k)).map Found.value = v.find k := by
  cases v with
  | array es =>
    rw [Node.first, Option.map_map]
    exact Elements.map_first k es
  | object ms =>
    rw [Node.first, Option.map_map]
    exact Members.map_first k ms
  | null | bool | number | string | emptyArray | emptyObject => rfl

theorem Elements.map_first (k : Bytes) (es : Elements) :
    (es.first (named k)).map Found.value = es.find k := by
  cases es with
  | last before v after =>
    rw [Elements.first, Option.map_map]
    exact Node.map_first k v
  | cons before v after rest =>
    have hv := Node.map_first k v
    have hrest := Elements.map_first k rest
    rw [Elements.first, Elements.find, ← hv]
    cases v.first (named k) with
    | some f => rfl
    | none =>
      rw [Option.map_none, Option.none_or, ← hrest, Option.map_map]
      rfl

theorem Members.map_first (k : Bytes) (ms : Members) :
    (ms.first (named k)).map Found.value = ms.find k := by
  cases ms with
  | last before key after lead v after' =>
    rw [Members.first, Members.find, firstAt_find rfl (Node.map_first k v), Option.map_map]
    rfl
  | cons before key after lead v after' rest =>
    have hrest := Members.map_first k rest
    rw [Members.first, Members.find]
    cases hv : if named k key after lead v then some (Found.self lead v)
      else v.first (named k) with
    | some f =>
      rw [firstAt_find hv (Node.map_first k v)]
      rfl
    | none =>
      rw [firstAt_find hv (Node.map_first k v), Option.map_none, Option.none_or, ← hrest,
        Option.map_map]
      rfl

end

/-! ## Another value in its place -/

theorem firstAt_plug {key : Str} {after lead : Ws} {v : Node} {f : v.Found}
    (h : (if named k key after lead v then some (Found.self lead v) else v.first (named k)) =
      some f) {w : Node} (inside : v.first (named k) = some f → (f.plug w).find k = some w) :
    (if key.decoded == k then some (f.plug w) else (f.plug w).find k) = some w := by
  rw [named] at h
  split at h
  · next hkey =>
    obtain rfl := Option.some.inj h
    exact if_pos hkey
  · next hkey => rw [if_neg hkey, inside h]

mutual

/-- **The new value is found.** -/
theorem Node.find_plug {v : Node} {f : v.Found} (h : v.first (named k) = some f) (w : Node) :
    (f.plug w).find k = some w := by
  cases v with
  | array es =>
    rw [Node.first] at h
    obtain ⟨g, hg, rfl⟩ := Option.map_eq_some_iff.1 h
    exact Elements.find_plug hg w
  | object ms =>
    rw [Node.first] at h
    obtain ⟨g, hg, rfl⟩ := Option.map_eq_some_iff.1 h
    exact Members.find_plug hg w
  | null | bool | number | string | emptyArray | emptyObject =>
    rw [Node.first] at h
    exact absurd h (by simp)

theorem Elements.find_plug {es : Elements} {f : es.Found} (h : es.first (named k) = some f)
    (w : Node) : (f.plug w).find k = some w := by
  cases es with
  | last before v after =>
    rw [Elements.first] at h
    obtain ⟨g, hg, rfl⟩ := Option.map_eq_some_iff.1 h
    exact Node.find_plug hg w
  | cons before v after rest =>
    rw [Elements.first] at h
    cases hv : v.first (named k) with
    | some g =>
      rw [hv] at h
      obtain rfl := Option.some.inj h
      show ((g.plug w).find k).or (rest.find k) = some w
      rw [Node.find_plug hv w, Option.some_or]
    | none =>
      rw [hv] at h
      obtain ⟨g, hg, rfl⟩ := Option.map_eq_some_iff.1 h
      have hlater := Elements.find_plug hg w
      show (v.find k).or ((g.plug w).find k) = some w
      rw [← Node.map_first, hv, Option.map_none, Option.none_or, hlater]

theorem Members.find_plug {ms : Members} {f : ms.Found} (h : ms.first (named k) = some f)
    (w : Node) : (f.plug w).find k = some w := by
  cases ms with
  | last before key after lead v after' =>
    rw [Members.first] at h
    obtain ⟨g, hg, rfl⟩ := Option.map_eq_some_iff.1 h
    exact firstAt_plug hg fun hv => Node.find_plug hv w
  | cons before key after lead v after' rest =>
    rw [Members.first] at h
    cases hv : if named k key after lead v then some (Found.self lead v)
      else v.first (named k) with
    | some g =>
      rw [hv] at h
      obtain rfl := Option.some.inj h
      show (if key.decoded == k then some (g.plug w) else (g.plug w).find k).or (rest.find k) = _
      rw [firstAt_plug hv fun hv => Node.find_plug hv w, Option.some_or]
    | none =>
      rw [hv] at h
      obtain ⟨g, hg, rfl⟩ := Option.map_eq_some_iff.1 h
      have hlater := Members.find_plug hg w
      show (if key.decoded == k then some v else v.find k).or ((g.plug w).find k) = _
      rw [firstAt_find hv (Node.map_first k v), Option.map_none, Option.none_or, hlater]

end

/-- A string. -/
def Node.str? : Node → Option Str
  | .string s => some s
  | .null | .bool _ | .number _ | .emptyArray _ | .array _ | .emptyObject _ | .object _ => none

theorem Node.eq_string {v : Node} {s : Str} (h : v.str? = some s) : v = .string s := by
  cases v with
  | string s' => rw [Option.some.inj h]
  | null | bool | number | emptyArray | array | emptyObject | object => cases h

/-- A value in which a member was found is no string, and none with another value in it. -/
theorem Node.str?_plug {v : Node} {f : v.Found} (h : v.first P = some f) (w : Node) :
    (f.plug w).str? = v.str? := by
  cases v with
  | array es =>
    rw [Node.first] at h
    obtain ⟨g, -, rfl⟩ := Option.map_eq_some_iff.1 h
    rfl
  | object ms =>
    rw [Node.first] at h
    obtain ⟨g, -, rfl⟩ := Option.map_eq_some_iff.1 h
    rfl
  | null | bool | number | string | emptyArray | emptyObject =>
    rw [Node.first] at h
    exact absurd h (by simp)

theorem firstAt_plug_other (hk : k ≠ k') {key : Str} {after lead : Ws} {v : Node} {f : v.Found}
    (h : (if named k key after lead v then some (Found.self lead v) else v.first (named k)) =
      some f) {w : Node} (hv : f.value.find k' = none) (hw : w.find k' = none)
    (inside : v.first (named k) = some f →
      ((f.plug w).find k').map Node.str? = (v.find k').map Node.str?) :
    (if key.decoded == k' then some (f.plug w) else (f.plug w).find k').map Node.str? =
      (if key.decoded == k' then some v else v.find k').map Node.str? := by
  rw [named] at h
  split at h
  · next hkey =>
    obtain rfl := Option.some.inj h
    have hother : ¬ (key.decoded == k') = true := by
      rw [eq_of_beq hkey]
      simpa using hk
    show (if key.decoded == k' then some w else w.find k').map Node.str? = _
    rw [if_neg hother, if_neg hother, hw]
    exact congrArg _ hv.symm
  · next hkey =>
    split
    · exact congrArg some (Node.str?_plug h w)
    · exact inside h

mutual

/-- **The strings under other names are the same.** -/
theorem Node.find_plug_other (hk : k ≠ k') {v : Node} {f : v.Found}
    (h : v.first (named k) = some f) {w : Node} (hv : f.value.find k' = none)
    (hw : w.find k' = none) :
    ((f.plug w).find k').map Node.str? = (v.find k').map Node.str? := by
  cases v with
  | array es =>
    rw [Node.first] at h
    obtain ⟨g, hg, rfl⟩ := Option.map_eq_some_iff.1 h
    exact Elements.find_plug_other hk hg hv hw
  | object ms =>
    rw [Node.first] at h
    obtain ⟨g, hg, rfl⟩ := Option.map_eq_some_iff.1 h
    exact Members.find_plug_other hk hg hv hw
  | null | bool | number | string | emptyArray | emptyObject =>
    rw [Node.first] at h
    exact absurd h (by simp)

theorem Elements.find_plug_other (hk : k ≠ k') {es : Elements} {f : es.Found}
    (h : es.first (named k) = some f) {w : Node} (hv : f.value.find k' = none)
    (hw : w.find k' = none) :
    ((f.plug w).find k').map Node.str? = (es.find k').map Node.str? := by
  cases es with
  | last before v after =>
    rw [Elements.first] at h
    obtain ⟨g, hg, rfl⟩ := Option.map_eq_some_iff.1 h
    exact Node.find_plug_other hk hg hv hw
  | cons before v after rest =>
    rw [Elements.first] at h
    cases hfirst : v.first (named k) with
    | some g =>
      rw [hfirst] at h
      obtain rfl := Option.some.inj h
      show (((g.plug w).find k').or (rest.find k')).map Node.str? = _
      rw [Option.map_or, Node.find_plug_other hk hfirst hv hw, Elements.find, Option.map_or]
    | none =>
      rw [hfirst] at h
      obtain ⟨g, hg, rfl⟩ := Option.map_eq_some_iff.1 h
      have hlater := Elements.find_plug_other hk hg hv hw
      show ((v.find k').or ((g.plug w).find k')).map Node.str? = _
      rw [Option.map_or, hlater, Elements.find, Option.map_or]

theorem Members.find_plug_other (hk : k ≠ k') {ms : Members} {f : ms.Found}
    (h : ms.first (named k) = some f) {w : Node} (hv : f.value.find k' = none)
    (hw : w.find k' = none) :
    ((f.plug w).find k').map Node.str? = (ms.find k').map Node.str? := by
  cases ms with
  | last before key after lead v after' =>
    rw [Members.first] at h
    obtain ⟨g, hg, rfl⟩ := Option.map_eq_some_iff.1 h
    exact firstAt_plug_other hk hg hv hw fun hfirst => Node.find_plug_other hk hfirst hv hw
  | cons before key after lead v after' rest =>
    rw [Members.first] at h
    cases hfirst : if named k key after lead v then some (Found.self lead v)
      else v.first (named k) with
    | some g =>
      rw [hfirst] at h
      obtain rfl := Option.some.inj h
      have hhere := firstAt_plug_other hk hfirst hv hw fun hinside =>
        Node.find_plug_other hk hinside hv hw
      show ((if key.decoded == k' then some (g.plug w) else (g.plug w).find k').or
        (rest.find k')).map Node.str? = _
      rw [Option.map_or, hhere, Members.find, Option.map_or]
    | none =>
      rw [hfirst] at h
      obtain ⟨g, hg, rfl⟩ := Option.map_eq_some_iff.1 h
      have hlater := Members.find_plug_other hk hg hv hw
      show ((if key.decoded == k' then some v else v.find k').or
        ((g.plug w).find k')).map Node.str? = _
      rw [Option.map_or, hlater, Members.find, Option.map_or]

end

theorem firstAt_allMembers (hD : ∀ key after lead v w, D key after lead v → D key after lead w)
    {key : Str} {after lead : Ws} {v w : Node} {f : v.Found} (hkey : D key after lead v)
    (h : (if P key after lead v then some (Found.self lead v) else v.first P) = some f)
    (hw : w.AllMembers D) (inside : v.first P = some f → (f.plug w).AllMembers D) :
    D key after lead (f.plug w) ∧ (f.plug w).AllMembers D := by
  refine ⟨hD key after lead v _ hkey, ?_⟩
  split at h
  · obtain rfl := Option.some.inj h
    exact hw
  · exact inside h

mutual

/-- What every member has, whatever its value is, every member has with another value. -/
theorem Node.allMembers_plug
    (hD : ∀ key after lead v w, D key after lead v → D key after lead w) {v w : Node}
    {f : v.Found} (h : v.first P = some f) (hv : v.AllMembers D) (hw : w.AllMembers D) :
    (f.plug w).AllMembers D := by
  cases v with
  | array es =>
    rw [Node.first] at h
    obtain ⟨g, hg, rfl⟩ := Option.map_eq_some_iff.1 h
    exact Elements.allMembers_plug hD hg hv hw
  | object ms =>
    rw [Node.first] at h
    obtain ⟨g, hg, rfl⟩ := Option.map_eq_some_iff.1 h
    exact Members.allMembers_plug hD hg hv hw
  | null | bool | number | string | emptyArray | emptyObject =>
    rw [Node.first] at h
    exact absurd h (by simp)

theorem Elements.allMembers_plug
    (hD : ∀ key after lead v w, D key after lead v → D key after lead w) {es : Elements}
    {w : Node} {f : es.Found} (h : es.first P = some f) (hes : es.AllMembers D)
    (hw : w.AllMembers D) : (f.plug w).AllMembers D := by
  cases es with
  | last before v after =>
    rw [Elements.first] at h
    obtain ⟨g, hg, rfl⟩ := Option.map_eq_some_iff.1 h
    exact Node.allMembers_plug hD hg hes hw
  | cons before v after rest =>
    rw [Elements.first] at h
    cases hv : v.first P with
    | some g =>
      rw [hv] at h
      obtain rfl := Option.some.inj h
      exact ⟨Node.allMembers_plug hD hv hes.1 hw, hes.2⟩
    | none =>
      rw [hv] at h
      obtain ⟨g, hg, rfl⟩ := Option.map_eq_some_iff.1 h
      have hlater := Elements.allMembers_plug hD hg hes.2 hw
      exact ⟨hes.1, hlater⟩

theorem Members.allMembers_plug
    (hD : ∀ key after lead v w, D key after lead v → D key after lead w) {ms : Members}
    {w : Node} {f : ms.Found} (h : ms.first P = some f) (hms : ms.AllMembers D)
    (hw : w.AllMembers D) : (f.plug w).AllMembers D := by
  cases ms with
  | last before key after lead v after' =>
    rw [Members.first] at h
    obtain ⟨g, hg, rfl⟩ := Option.map_eq_some_iff.1 h
    exact firstAt_allMembers hD hms.1 hg hw fun hv => Node.allMembers_plug hD hv hms.2 hw
  | cons before key after lead v after' rest =>
    rw [Members.first] at h
    cases hv : if P key after lead v then some (Found.self lead v) else v.first P with
    | some g =>
      rw [hv] at h
      obtain rfl := Option.some.inj h
      have hhere := firstAt_allMembers hD hms.1.1 hv hw fun hv =>
        Node.allMembers_plug hD hv hms.1.2 hw
      exact ⟨hhere, hms.2⟩
    | none =>
      rw [hv] at h
      obtain ⟨g, hg, rfl⟩ := Option.map_eq_some_iff.1 h
      have hlater := Members.allMembers_plug hD hg hms.2 hw
      exact ⟨hms.1, hlater⟩

end

mutual

theorem Node.allMembers_mono {E : Str → Ws → Ws → Node → Prop}
    (h : ∀ key after lead v, D key after lead v → E key after lead v) {v : Node}
    (hv : v.AllMembers D) : v.AllMembers E := by
  cases v with
  | array es => exact Elements.allMembers_mono h hv
  | object ms => exact Members.allMembers_mono h hv
  | null | bool | number | string | emptyArray | emptyObject => trivial

theorem Elements.allMembers_mono {E : Str → Ws → Ws → Node → Prop}
    (h : ∀ key after lead v, D key after lead v → E key after lead v) {es : Elements}
    (hes : es.AllMembers D) : es.AllMembers E := by
  cases es with
  | last before v after => exact Node.allMembers_mono h hes
  | cons before v after rest =>
    exact ⟨Node.allMembers_mono h hes.1, Elements.allMembers_mono h hes.2⟩

theorem Members.allMembers_mono {E : Str → Ws → Ws → Node → Prop}
    (h : ∀ key after lead v, D key after lead v → E key after lead v) {ms : Members}
    (hms : ms.AllMembers D) : ms.AllMembers E := by
  cases ms with
  | last before key after lead v after' =>
    exact ⟨h key after lead v hms.1, Node.allMembers_mono h hms.2⟩
  | cons before key after lead v after' rest =>
    exact ⟨⟨h key after lead v hms.1.1, Node.allMembers_mono h hms.1.2⟩,
      Members.allMembers_mono h hms.2⟩

end

/-! ## What follows the value -/

theorem Follows.close {q : Bytes} {c : UInt8} (hc : c = 0x2c ∨ c = 0x5d ∨ c = 0x7d) :
    Follows (c :: q) :=
  ⟨.none, c :: q, rfl, fun _ hd => Option.some.inj hd ▸ hc⟩

theorem firstAt_follows {p : Bool} {lead : Ws} {v : Node} {f : v.Found}
    (h : (if p then some (Found.self lead v) else v.first P) = some f) {q : Bytes}
    (hq : Follows q) (inside : v.first P = some f → Follows (f.rest ++ q)) :
    Follows (f.rest ++ q) := by
  split at h
  · obtain rfl := Option.some.inj h
    exact hq
  · exact inside h

mutual

/-- What follows the value that is found is what may follow a value. -/
theorem Node.follows_first {v : Node} {f : v.Found} (h : v.first P = some f) (q : Bytes) :
    Follows (f.rest ++ q) := by
  cases v with
  | array es =>
    rw [Node.first] at h
    obtain ⟨g, hg, rfl⟩ := Option.map_eq_some_iff.1 h
    have hinside := Elements.follows_first hg (.inr (.inl rfl)) q
    show Follows ((g.rest ++ [0x5d]) ++ q)
    rwa [List.append_assoc]
  | object ms =>
    rw [Node.first] at h
    obtain ⟨g, hg, rfl⟩ := Option.map_eq_some_iff.1 h
    have hinside := Members.follows_first hg (.inr (.inr rfl)) q
    show Follows ((g.rest ++ [0x7d]) ++ q)
    rwa [List.append_assoc]
  | null | bool | number | string | emptyArray | emptyObject =>
    rw [Node.first] at h
    exact absurd h (by simp)

theorem Elements.follows_first {es : Elements} {f : es.Found} (h : es.first P = some f) {c : UInt8}
    (hc : c = 0x2c ∨ c = 0x5d ∨ c = 0x7d) (q : Bytes) : Follows (f.rest ++ c :: q) := by
  cases es with
  | last before v after =>
    rw [Elements.first] at h
    obtain ⟨g, hg, rfl⟩ := Option.map_eq_some_iff.1 h
    have hinside := Node.follows_first hg (after.bytes ++ c :: q)
    show Follows ((g.rest ++ after.bytes) ++ c :: q)
    rwa [List.append_assoc]
  | cons before v after rest =>
    rw [Elements.first] at h
    cases hv : v.first P with
    | some g =>
      rw [hv] at h
      obtain rfl := Option.some.inj h
      have hinside := Node.follows_first hv (after.bytes ++ 0x2c :: (rest.text ++ c :: q))
      show Follows ((g.rest ++ (after.bytes ++ 0x2c :: rest.text)) ++ c :: q)
      rwa [List.append_assoc, List.append_assoc]
    | none =>
      rw [hv] at h
      obtain ⟨g, hg, rfl⟩ := Option.map_eq_some_iff.1 h
      have hlater := Elements.follows_first hg hc q
      show Follows ((g.rest ++ []) ++ c :: q)
      rwa [List.append_nil]

theorem Members.follows_first {ms : Members} {f : ms.Found} (h : ms.first P = some f) {c : UInt8}
    (hc : c = 0x2c ∨ c = 0x5d ∨ c = 0x7d) (q : Bytes) : Follows (f.rest ++ c :: q) := by
  cases ms with
  | last before key after lead v after' =>
    rw [Members.first] at h
    obtain ⟨g, hg, rfl⟩ := Option.map_eq_some_iff.1 h
    have hinside := firstAt_follows hg (follows_close after' hc q) fun hv =>
      Node.follows_first hv _
    show Follows ((g.rest ++ after'.bytes) ++ c :: q)
    rwa [List.append_assoc]
  | cons before key after lead v after' rest =>
    rw [Members.first] at h
    cases hv : if P key after lead v then some (Found.self lead v) else v.first P with
    | some g =>
      rw [hv] at h
      obtain rfl := Option.some.inj h
      have hclose := follows_close after' (.inl rfl) (rest.text ++ c :: q)
      have hinside := firstAt_follows hv hclose fun hv => Node.follows_first hv _
      show Follows ((g.rest ++ (after'.bytes ++ 0x2c :: rest.text)) ++ c :: q)
      rwa [List.append_assoc, List.append_assoc]
    | none =>
      rw [hv] at h
      obtain ⟨g, hg, rfl⟩ := Option.map_eq_some_iff.1 h
      have hlater := Members.follows_first hg hc q
      show Follows ((g.rest ++ []) ++ c :: q)
      rwa [List.append_nil]

end

/-! ## One member more -/

/-- Some member of its own has a key with the property, given the whitespace before the colon. -/
def Members.anyKey (p : Str → Ws → Bool) : Members → Bool
  | .last _ key after _ _ _ => p key after
  | .cons _ key after _ _ _ rest => p key after || rest.anyKey p

/-- As for the members, for an object. -/
def Node.anyKey (p : Str → Ws → Bool) : Node → Bool
  | .object ms => ms.anyKey p
  | .null | .bool _ | .number _ | .string _ | .emptyArray _ | .array _ | .emptyObject _ => false

theorem Members.anyKey_mono {p q : Str → Ws → Bool}
    (h : ∀ key after, p key after = true → q key after = true) {ms : Members}
    (hms : ms.anyKey p = true) : ms.anyKey q = true := by
  cases ms with
  | last before key after lead v after' => exact h key after hms
  | cons before key after lead v after' rest =>
    exact Bool.or_eq_true_iff.2 ((Bool.or_eq_true_iff.1 hms).imp (h key after) (anyKey_mono h))

theorem Node.anyKey_mono {p q : Str → Ws → Bool}
    (h : ∀ key after, p key after = true → q key after = true) {v : Node}
    (hv : v.anyKey p = true) : v.anyKey q = true := by
  cases v with
  | object ms => exact Members.anyKey_mono h hv
  | null | bool | number | string | emptyArray | array | emptyObject =>
    exact absurd hv Bool.false_ne_true

/-- A member at the end, without whitespace. -/
@[grind =] def Members.snoc (key' : Str) (w : Node) : Members → Members
  | .last before key after lead v after' =>
    .cons before key after lead v after' (.last .none key' .none .none w .none)
  | .cons before key after lead v after' rest =>
    .cons before key after lead v after' (rest.snoc key' w)

theorem Members.text_snoc (key : Str) (w : Node) (ms : Members) :
    (ms.snoc key w).text = ms.text ++ 0x2c :: (key.text ++ 0x3a :: w.text) := by
  cases ms with
  | last => simp [Members.snoc, Members.text, Ws.none]
  | cons before key' after lead v after' rest =>
    have hrest := text_snoc key w rest
    simp [Members.snoc, Members.text, hrest]

theorem Members.length_snoc (key : Str) (w : Node) (ms : Members) :
    (ms.snoc key w).docs.length = ms.docs.length + 1 := by
  cases ms with
  | last => rfl
  | cons before key' after lead v after' rest =>
    exact congrArg (· + 1) (length_snoc key w rest)

/-! ## Patches -/

/-- The value of the first member named `k` is changed, where `change` says to what. -/
def Text.patch (k : Bytes) (change : Node → Option Node) (t : Text) : Text :=
  match t.node.first (named k) with
  | none => t
  | some f =>
    match change f.value with
    | none => t
    | some w => t.set f w

/-- There is nothing to change under a name. -/
def Text.Settled (k : Bytes) (change : Node → Option Node) (t : Text) : Prop :=
  (t.node.find k).bind change = none

variable {change : Node → Option Node}

/-- What a patch does. -/
theorem Text.patch_cases (k : Bytes) (change : Node → Option Node) (t : Text) :
    (t.patch k change = t ∧ t.Settled k change) ∨
      ∃ f w, t.node.first (named k) = some f ∧ change f.value = some w ∧
        t.patch k change = t.set f w := by
  rw [Text.Settled, ← Node.map_first]
  cases hf : t.node.first (named k) with
  | none => exact .inl ⟨by rw [Text.patch, hf], rfl⟩
  | some f =>
    rw [Option.map_some, Option.bind_some]
    cases hchange : change f.value with
    | none => exact .inl ⟨by simp only [Text.patch, hf, hchange], rfl⟩
    | some w => exact .inr ⟨f, w, rfl, hchange, by simp only [Text.patch, hf, hchange]⟩

theorem Text.patch_of_settled {t : Text} (h : t.Settled k change) : t.patch k change = t := by
  rcases t.patch_cases k change with ⟨heq, -⟩ | ⟨f, w, hf, hw, -⟩
  · exact heq
  · rw [Text.Settled, ← Node.map_first, hf, Option.map_some, Option.bind_some, hw] at h
    cases h

/-- A patch settles its name, when what it writes needs no change. -/
theorem Text.settled_patch (h : ∀ v w, change v = some w → change w = none) (t : Text) :
    (t.patch k change).Settled k change := by
  rcases t.patch_cases k change with ⟨heq, hsettled⟩ | ⟨f, w, hf, hw, heq⟩
  · rwa [heq]
  · rw [heq, Text.Settled, Text.set, Node.find_plug hf, Option.bind_some, h _ _ hw]

theorem Text.allMembers_patch (hD : ∀ key after lead v w, D key after lead v → D key after lead w)
    (hchange : ∀ v w, change v = some w → w.AllMembers D) {t : Text}
    (ht : t.node.AllMembers D) : (t.patch k change).node.AllMembers D := by
  rcases t.patch_cases k change with ⟨heq, -⟩ | ⟨f, w, hf, hw, heq⟩
  · rwa [heq]
  · rw [heq]
    exact Node.allMembers_plug hD hf ht (hchange _ _ hw)

/-! ## Patches of strings -/

/-- A change of strings only. -/
def onStrings (g : Str → Option Str) (v : Node) : Option Node := (v.str?.bind g).map .string

variable {g g' : Str → Option Str}

theorem onStrings_eq_some {v w : Node} (h : onStrings g v = some w) :
    ∃ s r, v = .string s ∧ w = .string r ∧ g s = some r := by
  obtain ⟨r, hr, rfl⟩ := Option.map_eq_some_iff.1 h
  obtain ⟨s, hs, hg⟩ := Option.bind_eq_some_iff.1 hr
  exact ⟨s, r, Node.eq_string hs, rfl, hg⟩

/-- Whether a name is settled depends on the string that is found under it. -/
theorem Text.settled_onStrings (t : Text) :
    t.Settled k (onStrings g) ↔ ((t.node.find k).map Node.str?).bind (·.bind g) = none := by
  rw [Text.Settled, Option.bind_map]
  cases t.node.find k with
  | none => exact iff_of_true rfl rfl
  | some v => exact Option.map_eq_none_iff

/-- A patch keeps the other names settled. -/
theorem Text.settled_patch_other (hk : k ≠ k') {t : Text} (h : t.Settled k' (onStrings g')) :
    (t.patch k (onStrings g)).Settled k' (onStrings g') := by
  rcases t.patch_cases k (onStrings g) with ⟨heq, -⟩ | ⟨f, w, hf, hw, heq⟩
  · rwa [heq]
  · obtain ⟨s, r, hs, rfl, -⟩ := onStrings_eq_some hw
    have hvalue : f.value.find k' = none := by rw [hs, Node.find]
    rw [Text.settled_onStrings] at h ⊢
    rwa [heq, Text.set, Node.find_plug_other hk hf hvalue (by rw [Node.find])]

/-- Several patches of strings. -/
def Text.patchAll : List (Bytes × (Str → Option Str)) → Text → Text
  | [], t => t
  | e :: l, t => Text.patchAll l (t.patch e.1 (onStrings e.2))

theorem Text.patchAll_keeps_settled {l : List (Bytes × (Str → Option Str))}
    (hk : ∀ e ∈ l, e.1 ≠ k) {t : Text} (h : t.Settled k (onStrings g)) :
    (t.patchAll l).Settled k (onStrings g) := by
  induction l generalizing t with
  | nil => exact h
  | cons e l ih =>
    have hk' := List.forall_mem_cons.1 hk
    exact ih hk'.2 (Text.settled_patch_other hk'.1 h)

/-- **Patches of different names settle all of them.** -/
theorem Text.settled_patchAll {l : List (Bytes × (Str → Option Str))}
    (hdistinct : l.Pairwise fun e e' => e'.1 ≠ e.1)
    (hsettles : ∀ e ∈ l, ∀ s r, e.2 s = some r → e.2 r = none) (t : Text) :
    ∀ e ∈ l, (t.patchAll l).Settled e.1 (onStrings e.2) := by
  induction l generalizing t with
  | nil => exact fun e he => absurd he List.not_mem_nil
  | cons e l ih =>
    obtain ⟨hfirst, hrest⟩ := List.pairwise_cons.1 hdistinct
    obtain ⟨he, hl⟩ := List.forall_mem_cons.1 hsettles
    have hsettled : (t.patch e.1 (onStrings e.2)).Settled e.1 (onStrings e.2) := by
      refine Text.settled_patch (fun v w hchange => ?_) t
      obtain ⟨s, r, -, rfl, hg⟩ := onStrings_eq_some hchange
      show ((some r).bind e.2).map Node.string = none
      rw [Option.bind_some, he s r hg, Option.map_none]
    refine List.forall_mem_cons.2 ⟨?_, ih hrest hl _⟩
    exact Text.patchAll_keeps_settled hfirst hsettled

theorem Text.patchAll_of_settled {l : List (Bytes × (Str → Option Str))} {t : Text}
    (h : ∀ e ∈ l, t.Settled e.1 (onStrings e.2)) : t.patchAll l = t := by
  induction l with
  | nil => rfl
  | cons e l ih =>
    obtain ⟨he, hl⟩ := List.forall_mem_cons.1 h
    rw [Text.patchAll, Text.patch_of_settled he, ih hl]

end BambooNet.JsonSyntax
