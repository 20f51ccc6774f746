import BambooNet.Lib.Program
import BambooNet.Lib.Runs
import Mathlib.Logic.Function.Basic

/-!
# Programs that take turns

Several threads run programs over one shared state. An operation is done in one go, and others may
have their turn between two operations. What a thread cannot know beforehand, such as what a file
holds, comes with its turn.

**Invariants** of the shared state are about the operations alone (`Threads.run_shared`): it does
not matter which thread performs one, nor when.
-/

namespace BambooNet

/-- A shared state and what each thread still has to do. -/
structure Threads (θ σ : Type) (Op : Type) (Ans : Op → Type) (α : Type) where
  shared : σ
  prog : θ → Program Op Ans α

/-- What happens next. -/
inductive Turn (θ ω γ ε : Type)
  /-- A thread that has nothing to do starts a call. -/
  | start (t : θ) (call : γ)
  /-- A thread performs its next operation. -/
  | next (t : θ) (w : ω)
  /-- The shared state is touched from outside. -/
  | outside (e : ε)

namespace Program

variable {Op σ : Type} {Ans : Op → Type} {α : Type}

def finished : Program Op Ans α → Bool
  | .pure _ => true
  | .perform _ _ => false

/-- The operation that comes next. -/
def head? : Program Op Ans α → Option Op
  | .pure _ => none
  | .perform op _ => some op

/-- Perform the next operation. -/
def advance (handle : (op : Op) → σ → Ans op × σ) : Program Op Ans α → σ → Program Op Ans α × σ
  | .pure a, s => (.pure a, s)
  | .perform op next, s => (next (handle op s).1, (handle op s).2)

theorem advance_invariant {handle : (op : Op) → σ → Ans op × σ} {I : σ → Prop} {P : Op → Prop}
    (h : ∀ op s, P op → I s → I (handle op s).2) {p : Program Op Ans α}
    (hp : ∀ op, p.head? = some op → P op) {s : σ} (hs : I s) : I (p.advance handle s).2 := by
  cases p with
  | pure a => exact hs
  | perform op next => exact h op s (hp op rfl) hs

end Program

namespace Threads

variable {θ σ ω γ ε : Type} [DecidableEq θ] {Op : Type} {Ans : Op → Type} {α : Type}

section
variable (handle : ω → (op : Op) → σ → Ans op × σ) (body : γ → Program Op Ans α)
  (outside : ε → σ → σ)

def step (s : Threads θ σ Op Ans α) : Turn θ ω γ ε → Threads θ σ Op Ans α
  | .start t call =>
    if (s.prog t).finished then { s with prog := Function.update s.prog t (body call) } else s
  | .next t w =>
    let r := (s.prog t).advance (handle w) s.shared
    { shared := r.2, prog := Function.update s.prog t r.1 }
  | .outside e => { s with shared := outside e s.shared }

end

/-- An operation that is performed in a turn meets a condition. -/
def Performs (P : Op → Prop) (s : Threads θ σ Op Ans α) : Turn θ ω γ ε → Prop
  | .next t _ => ∀ op, (s.prog t).head? = some op → P op
  | _ => True

variable {handle : ω → (op : Op) → σ → Ans op × σ} {body : γ → Program Op Ans α}
  {outside : ε → σ → σ} {I : σ → Prop} {P : Op → Prop}

/-- **An invariant that every operation keeps holds after every run.** -/
theorem run_shared (hop : ∀ w op s, P op → I s → I (handle w op s).2)
    (hout : ∀ e s, I s → I (outside e s)) {s : Threads θ σ Op Ans α} {es : List (Turn θ ω γ ε)}
    (hs : I s.shared) (hes : Along (step handle body outside) (Performs P) s es) :
    I (run (step handle body outside) s es).shared := by
  have hstep (s : Threads θ σ Op Ans α) (e : Turn θ ω γ ε) (hs : I s.shared)
      (he : Performs P s e) : I (step handle body outside s e).shared := by
    cases e with
    | start t call =>
      rw [step]
      split
      · exact hs
      · exact hs
    | next t w => exact Program.advance_invariant (hop w) he hs
    | outside e => exact hout e _ hs
  exact run_invariant hstep hs hes

/-- A run on whose operations there is no condition. -/
theorem along_performs (s : Threads θ σ Op Ans α) (es : List (Turn θ ω γ ε)) :
    Along (step handle body outside) (Performs fun _ => True) s es := by
  induction es generalizing s with
  | nil => trivial
  | cons e es ih =>
    refine ⟨?_, ih _⟩
    cases e with
    | start t call => trivial
    | next t w => exact fun op _ => trivial
    | outside e => trivial

variable (handle body outside) in
/-- What a thread does in its turn. -/
theorem step_next (s : Threads θ σ Op Ans α) {t : θ} (w : ω) {op : Op}
    {next : Ans op → Program Op Ans α} (h : s.prog t = .perform op next) :
    (step handle body outside s (.next t w : Turn θ ω γ ε)).prog t =
      next (handle w op s.shared).1 := by
  simp only [step, h, Program.advance, Function.update_self]

end Threads

end BambooNet
