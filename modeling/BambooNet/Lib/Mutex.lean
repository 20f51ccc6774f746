import Mathlib.Logic.Basic

/-!
# A mutex and its holder

A mutex guards a section when the thread that has it is the one that is inside (`Guards`). This is
kept by a thread that enters with the mutex free and leaves with the mutex released, as long as the
others stay where they are (`Guards.move`).
-/

namespace BambooNet.Mutex

variable {θ : Type*} {mu mu' : Option θ} {inside inside' : θ → Prop} {t : θ}

/-- Who is inside has the mutex. -/
def Guards (mu : Option θ) (inside : θ → Prop) : Prop := ∀ t, inside t ↔ mu = some t

/-- What a thread does with the mutex when it goes from a place inside or outside (`p`) to another
(`p'`). -/
inductive Move (t : θ) (mu : Option θ) (p p' : Prop) : Option θ → Prop
  | keep (h : p' ↔ p) : Move t mu p p' mu
  | enter (hfree : mu = none) (h : p') : Move t mu p p' (some t)
  | leave (hin : p) (h : ¬ p') : Move t mu p p' none

theorem Move.congr {p p' q q' : Prop} (h : Move t mu p p' mu') (hp : p ↔ q) (hp' : p' ↔ q') :
    Move t mu q q' mu' := by
  rwa [propext hp, propext hp'] at h

/-- **A step of one thread keeps the mutex where its holder is.** -/
theorem Guards.move (h : Guards mu inside) (hmove : Move t mu (inside t) (inside' t) mu')
    (hother : ∀ u, u ≠ t → (inside' u ↔ inside u)) : Guards mu' inside' := by
  intro u
  by_cases hu : u = t
  · subst hu
    cases hmove with
    | keep hsame => exact hsame.trans (h u)
    | enter _ hin => exact ⟨fun _ => rfl, fun _ => hin⟩
    | leave _ hout => exact ⟨fun hin => absurd hin hout, nofun⟩
  · rw [hother u hu, h u]
    cases hmove with
    | keep _ => exact Iff.rfl
    | enter hfree _ =>
      rw [hfree]
      exact ⟨nofun, fun hmu => absurd (Option.some.inj hmu).symm hu⟩
    | leave hin _ =>
      rw [(h t).1 hin]
      exact ⟨fun hmu => absurd (Option.some.inj hmu).symm hu, nofun⟩

/-- Nobody else is inside. -/
theorem Guards.unique (h : Guards mu inside) {u : θ} (ht : inside t) (hu : inside u) : t = u :=
  Option.some.inj (((h t).1 ht).symm.trans ((h u).1 hu))

end BambooNet.Mutex
