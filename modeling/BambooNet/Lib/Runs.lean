import Mathlib.Data.List.Basic

/-!
# Runs of a state machine

A machine takes one event after the other. `run_invariant` carries an invariant over a run in
which every event meets a condition in the state it comes in.
-/

namespace BambooNet

variable {σ ε : Type*} (step : σ → ε → σ)

/-- The state after a list of events. -/
def run (s : σ) (es : List ε) : σ := es.foldl step s

/-- Every event of a run meets a condition in the state it comes in. -/
def Along (ok : σ → ε → Prop) : σ → List ε → Prop
  | _, [] => True
  | s, e :: es => ok s e ∧ Along ok (step s e) es

variable {step} {Inv : σ → Prop} {ok : σ → ε → Prop}

@[simp] theorem run_nil (s : σ) : run step s [] = s := rfl

@[simp] theorem run_cons (s : σ) (e : ε) (es : List ε) :
    run step s (e :: es) = run step (step s e) es := rfl

theorem run_append (s : σ) (es es' : List ε) :
    run step s (es ++ es') = run step (run step s es) es' := List.foldl_append

/-- A condition on the events alone. -/
theorem Along.of_forall {p : ε → Prop} {es : List ε} (h : ∀ e ∈ es, p e) (s : σ) :
    Along step (fun _ e => p e) s es := by
  induction es generalizing s with
  | nil => trivial
  | cons e es ih =>
    exact ⟨h e List.mem_cons_self, ih (fun e he => h e (List.mem_cons_of_mem _ he)) _⟩

theorem Along.and {ok ok' : σ → ε → Prop} {s : σ} {es : List ε} (h : Along step ok s es)
    (h' : Along step ok' s es) : Along step (fun s e => ok s e ∧ ok' s e) s es := by
  induction es generalizing s with
  | nil => trivial
  | cons e es ih => exact ⟨⟨h.1, h'.1⟩, ih h.2 h'.2⟩

theorem along_append {s : σ} {es es' : List ε} :
    Along step ok s (es ++ es') ↔ Along step ok s es ∧ Along step ok (run step s es) es' := by
  induction es generalizing s with
  | nil => simp [Along]
  | cons e es ih => rw [List.cons_append, Along, Along, ih, run_cons, and_assoc]

/-- A condition along a run, on each event after those before it. -/
theorem along_iff {s : σ} {es : List ε} :
    Along step ok s es ↔ ∀ done e rest, es = done ++ e :: rest → ok (run step s done) e := by
  induction es generalizing s with
  | nil => exact iff_of_true trivial fun done e rest h => by simp at h
  | cons e es ih =>
    rw [Along, ih]
    constructor
    · rintro ⟨he, hes⟩ done e' rest h
      cases done with
      | nil =>
        obtain ⟨rfl, -⟩ := List.cons.inj h
        exact he
      | cons d done =>
        obtain ⟨rfl, htail⟩ := List.cons.inj h
        exact hes done e' rest htail
    · intro h
      exact ⟨h [] e es rfl, fun done e' rest heq => h (e :: done) e' rest (congrArg _ heq)⟩

/-- **An invariant that every step keeps holds after a run.** -/
theorem run_invariant (hstep : ∀ s e, Inv s → ok s e → Inv (step s e)) {s : σ} {es : List ε}
    (hs : Inv s) (hes : Along step ok s es) : Inv (run step s es) := by
  induction es generalizing s with
  | nil => exact hs
  | cons e es ih => exact ih (hstep s e hs hes.1) hes.2

end BambooNet
