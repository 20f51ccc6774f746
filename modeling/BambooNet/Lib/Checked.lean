import BambooNet.Lib.Bytes

/-!
# Programs with checked reads

A program that gives up with an error, or stops because it reads outside a buffer. `Inside` says
that it does not do the latter, and `Inside.bind` goes through a program step by step: a step may
use what the checks before it have let through. `bind_eq_ok` takes a run that succeeds apart.
-/

namespace BambooNet.Checked

universe u v

variable {ε : Type u} {α β : Type v}

/-- Why a program stops. -/
inductive Stop (ε : Type*)
  | outside
  | fail (e : ε)
  deriving DecidableEq

/-- Read `w` bytes at `i` as a little-endian number. -/
def readLe (w : ℕ) (buf : Bytes) (i : ℕ) : Except (Stop ε) ℕ :=
  match readBytes buf i w with
  | none => .error .outside
  | some bytes => .ok (leNat bytes)

/-- Read `n` bytes at `i`. -/
def readSlice (n : ℕ) (buf : Bytes) (i : ℕ) : Except (Stop ε) Bytes :=
  match readBytes buf i n with
  | none => .error .outside
  | some bytes => .ok bytes

def failIf (c : Prop) [Decidable c] (e : ε) : Except (Stop ε) Unit :=
  if c then .error (.fail e) else .ok ()

def orFail (x : Option α) (e : ε) : Except (Stop ε) α :=
  match x with
  | none => .error (.fail e)
  | some a => .ok a

/-! ## Runs that succeed -/

theorem bind_eq_ok {x : Except (Stop ε) α} {f : α → Except (Stop ε) β} {b : β} :
    x >>= f = .ok b ↔ ∃ a, x = .ok a ∧ f a = .ok b := by
  cases x with
  | error e =>
    constructor
    · intro h
      cases h
    · rintro ⟨a, h, -⟩
      cases h
  | ok a =>
    constructor
    · intro h
      exact ⟨a, rfl, h⟩
    · rintro ⟨a', h, hf⟩
      cases h
      exact hf

theorem ok_bind (a : α) (f : α → Except (Stop ε) β) : (Except.ok a >>= f) = f a := rfl

theorem fail_bind (e : Stop ε) (f : α → Except (Stop ε) β) :
    (Except.error e >>= f) = .error e := rfl

theorem failIf_eq_ok {c : Prop} [Decidable c] {e : ε} {u : Unit} :
    failIf c e = .ok u ↔ ¬ c := by
  rw [failIf]
  split
  · next hc =>
    constructor
    · intro h
      cases h
    · exact fun h => absurd hc h
  · next hc => exact ⟨fun _ => hc, fun _ => rfl⟩

theorem failIf_of_not {c : Prop} [Decidable c] (e : ε) (h : ¬ c) : failIf c e = .ok () :=
  if_neg h

theorem failIf_of {c : Prop} [Decidable c] (e : ε) (h : c) : failIf c e = .error (.fail e) :=
  if_pos h

theorem orFail_eq_ok {x : Option α} {e : ε} {a : α} : orFail x e = .ok a ↔ x = some a := by
  cases x with
  | none =>
    constructor
    · intro h
      cases h
    · intro h
      cases h
  | some b =>
    constructor
    · intro h
      cases h
      rfl
    · intro h
      cases h
      rfl

theorem orFail_some (a : α) (e : ε) : orFail (some a) e = .ok a := rfl

theorem readLe_eq {w i : ℕ} {buf bytes : Bytes} (h : readBytes buf i w = some bytes) :
    (readLe w buf i : Except (Stop ε) ℕ) = .ok (leNat bytes) := by
  rw [readLe, h]

theorem readLe_of_le {w i : ℕ} {buf : Bytes} (h : i + w ≤ buf.length) :
    (readLe w buf i : Except (Stop ε) ℕ) = .ok (leNat ((buf.drop i).take w)) :=
  readLe_eq (readBytes_of_le h)

theorem readSlice_of_le {n i : ℕ} {buf : Bytes} (h : i + n ≤ buf.length) :
    (readSlice n buf i : Except (Stop ε) Bytes) = .ok ((buf.drop i).take n) := by
  rw [readSlice, readBytes_of_le h]

/-! ## Reads inside -/

/-- No read outside a buffer. -/
def Inside (x : Except (Stop ε) α) : Prop := x ≠ .error .outside

theorem inside_ok (a : α) : Inside (.ok a : Except (Stop ε) α) := by
  intro h
  cases h

theorem inside_fail (e : ε) : Inside (.error (.fail e) : Except (Stop ε) α) := by
  intro h
  cases h

theorem Inside.bind {x : Except (Stop ε) α} {f : α → Except (Stop ε) β} (hx : Inside x)
    (hf : ∀ a, x = .ok a → Inside (f a)) : Inside (x >>= f) := by
  cases x with
  | ok a => exact hf a rfl
  | error e =>
    intro h
    exact hx (congrArg Except.error (Except.error.inj h))

theorem inside_failIf {c : Prop} [Decidable c] (e : ε) : Inside (failIf c e) := by
  rw [failIf]
  split
  · exact inside_fail e
  · exact inside_ok ()

theorem inside_orFail (x : Option α) (e : ε) : Inside (orFail x e) := by
  cases x with
  | none => exact inside_fail e
  | some a => exact inside_ok a

theorem inside_readLe {w i : ℕ} {buf : Bytes} (h : i + w ≤ buf.length) :
    Inside (readLe w buf i : Except (Stop ε) ℕ) := by
  rw [readLe_of_le h]
  exact inside_ok _

theorem inside_readSlice {n i : ℕ} {buf : Bytes} (h : i + n ≤ buf.length) :
    Inside (readSlice n buf i : Except (Stop ε) Bytes) := by
  rw [readSlice_of_le h]
  exact inside_ok _

/-! ## More behind the buffer -/

/-- `y` does what `x` does, unless `x` reads outside. -/
def Extends (x y : Except (Stop ε) α) : Prop := x = .error .outside ∨ x = y

theorem Extends.refl (x : Except (Stop ε) α) : Extends x x := .inr rfl

theorem Extends.eq {x y : Except (Stop ε) α} (h : Extends x y) (hx : Inside x) : x = y :=
  h.resolve_left hx

theorem Extends.bind {x y : Except (Stop ε) α} {f g : α → Except (Stop ε) β} (hx : Extends x y)
    (hf : ∀ a, Extends (f a) (g a)) : Extends (x >>= f) (y >>= g) := by
  rcases hx with rfl | rfl
  · exact .inl rfl
  · cases x with
    | error e => exact .inr rfl
    | ok a => exact hf a

theorem extends_readSlice {buf buf' : Bytes} (h : buf <+: buf') (n i : ℕ) :
    Extends (readSlice n buf i : Except (Stop ε) Bytes) (readSlice n buf' i) := by
  obtain ⟨t, rfl⟩ := h
  by_cases hle : i + n ≤ buf.length
  · have hle' : i + n ≤ (buf ++ t).length := by
      rw [List.length_append]
      omega
    rw [readSlice_of_le hle, readSlice_of_le hle', List.drop_append_of_le_length (by omega),
      List.take_append_of_le_length (by rw [List.length_drop]; omega)]
    exact Extends.refl _
  · rw [readSlice, readBytes_of_lt (Nat.not_le.1 hle)]
    exact .inl rfl

end BambooNet.Checked
