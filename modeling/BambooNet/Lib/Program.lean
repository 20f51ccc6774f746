import Mathlib.Control.Monad.Basic

/-!
# Programs over operations

A program performs operations one after the other and goes on with their answers. What an operation
does, and what it answers, is up to the machine that runs the program. Other parts of the machine
may move between two operations.

**Two readings** are given. `interp` runs a program in a monad. `Ensures` says what holds of every
way through a program on which the answers are as they are relied on. Machines that answer each
operation alike run every program alike (`interp_agrees`).
-/

namespace BambooNet

/-- A program over operations `Op`, which are answered in `Ans`. -/
inductive Program (Op : Type) (Ans : Op → Type) (α : Type)
  | pure (a : α)
  | perform (op : Op) (next : Ans op → Program Op Ans α)

namespace Program

variable {Op : Type} {Ans : Op → Type} {α β γ : Type}

/-! ## Sequencing -/

@[grind =] def bind : Program Op Ans α → (α → Program Op Ans β) → Program Op Ans β
  | .pure a, f => f a
  | .perform op next, f => .perform op fun x => (next x).bind f

instance instMonadProgram : Monad (Program Op Ans) where
  pure := .pure
  bind := .bind

/-- A single operation. -/
def lift (op : Op) : Program Op Ans (Ans op) := .perform op .pure

@[simp] theorem pure_bind (a : α) (f : α → Program Op Ans β) : (pure a >>= f) = f a := rfl

@[simp] theorem perform_bind (op : Op) (next : Ans op → Program Op Ans α)
    (f : α → Program Op Ans β) : (perform op next >>= f) = perform op fun x => next x >>= f := rfl

/-! ## Running a program -/

section
variable {m : Type → Type} [Monad m] [LawfulMonad m]

/-- The program in a monad that answers its operations. -/
@[grind =] def interp (handle : (op : Op) → m (Ans op)) : Program Op Ans α → m α
  | .pure a => Pure.pure a
  | .perform op next => handle op >>= fun x => (next x).interp handle

theorem interp_bind (handle : (op : Op) → m (Ans op)) (p : Program Op Ans α)
    (f : α → Program Op Ans β) :
    (p >>= f).interp handle = p.interp handle >>= fun a => (f a).interp handle := by
  induction p with
  | pure a => exact (LawfulMonad.pure_bind a fun a => (f a).interp handle).symm
  | perform op next ih =>
    rw [perform_bind, interp, interp, bind_assoc]
    congr 1
    funext x
    exact ih x

end

/-! ## Two machines -/

section
variable {σ τ ε : Type} {handle : (op : Op) → StateM σ (Ans op)}
  {handle' : (op : Op) → StateT τ (Except ε) (Ans op)}

theorem interp_invariant {I : σ → Prop} (h : ∀ op s, I s → I (handle op s).2)
    (p : Program Op Ans α) {s : σ} (hs : I s) : I (p.interp handle s).2 := by
  induction p generalizing s with
  | pure a => exact hs
  | perform op next ih => exact ih _ (h op s hs)

/-- A machine's answer and state against those of one that may fail: the answers are the same and
the states correspond, or the failure shows in the state. -/
def Agrees (R : σ → τ → Prop) (F : ε → σ → Prop) (x : α × σ) : Except ε (α × τ) → Prop
  | .ok y => x.1 = y.1 ∧ R x.2 y.2
  | .error e => F e x.2

/-- **Two machines agree on programs** when they agree on operations, and what a failure has left
in the state stays there. -/
theorem interp_agrees {R : σ → τ → Prop} {F : ε → σ → Prop}
    (hstep : ∀ op s t, R s t → Agrees R F (handle op s) (handle' op t))
    (hfail : ∀ e op s, F e s → F e (handle op s).2) (p : Program Op Ans α) {s : σ} {t : τ}
    (h : R s t) : Agrees R F (p.interp handle s) (p.interp handle' t) := by
  induction p generalizing s t with
  | pure a => exact ⟨rfl, h⟩
  | perform op next ih =>
    have hop := hstep op s t h
    show Agrees R F ((next (handle op s).1).interp handle (handle op s).2)
      ((handle' op t).bind fun y => (next y.1).interp handle' y.2)
    cases hanswer : handle' op t with
    | ok y =>
      rw [hanswer] at hop
      obtain ⟨heq, hr⟩ := hop
      rw [heq]
      exact ih y.1 hr
    | error e =>
      rw [hanswer] at hop
      exact interp_invariant (hfail e) _ hop

end

/-! ## What holds along a program -/

/-- On every way through the program on which the answers are as `rely` says, all operations are
permitted and the result meets the postcondition. -/
def Ensures (permit : Op → Prop) (rely : (op : Op) → Ans op → Prop) (Q : α → Prop) :
    Program Op Ans α → Prop
  | .pure a => Q a
  | .perform op next => permit op ∧ ∀ x, rely op x → (next x).Ensures permit rely Q

variable {permit : Op → Prop} {rely : (op : Op) → Ans op → Prop} {Q : α → Prop} {R : β → Prop}

theorem Ensures.bind {p : Program Op Ans α} {f : α → Program Op Ans β}
    (hp : p.Ensures permit rely Q) (hf : ∀ a, Q a → (f a).Ensures permit rely R) :
    (p >>= f).Ensures permit rely R := by
  induction p with
  | pure a => exact hf a hp
  | perform op next ih => exact ⟨hp.1, fun x hx => ih x (hp.2 x hx)⟩

theorem Ensures.lift {op : Op} {Q : Ans op → Prop} (hop : permit op) (hQ : ∀ x, rely op x → Q x) :
    (Program.lift op : Program Op Ans (Ans op)).Ensures permit rely Q := ⟨hop, hQ⟩

theorem Ensures.mono {permit' : Op → Prop} {rely' : (op : Op) → Ans op → Prop} {Q' : α → Prop}
    {p : Program Op Ans α} (h : p.Ensures permit rely Q) (hpermit : ∀ op, permit op → permit' op)
    (hrely : ∀ op x, permit op → rely' op x → rely op x) (hQ : ∀ a, Q a → Q' a) :
    p.Ensures permit' rely' Q' := by
  induction p with
  | pure a => exact hQ a h
  | perform op next ih =>
    exact ⟨hpermit op h.1, fun x hx => ih x (h.2 x (hrely op x h.1 hx))⟩

theorem Ensures.and {permit' : Op → Prop} {p : Program Op Ans α} (h : p.Ensures permit rely Q)
    (h' : p.Ensures permit' (fun _ _ => True) fun _ => True) :
    p.Ensures (fun op => permit op ∧ permit' op) rely Q := by
  induction p with
  | pure a => exact h
  | perform op next ih => exact ⟨⟨h.1, h'.1⟩, fun x hx => ih x (h.2 x hx) (h'.2 x trivial)⟩

theorem Ensures.any (p : Program Op Ans α) :
    p.Ensures (fun _ => True) rely fun _ => True := by
  induction p with
  | pure a => exact trivial
  | perform op next ih => exact ⟨trivial, fun x _ => ih x⟩

/-- The result of a run, on a machine that answers as it is relied on. -/
theorem Ensures.interp {σ : Type} {handle : (op : Op) → StateM σ (Ans op)}
    {p : Program Op Ans α} (h : p.Ensures permit rely Q)
    (hrely : ∀ op s, rely op (handle op s).1) (s : σ) : Q (p.interp handle s).1 := by
  induction p generalizing s with
  | pure a => exact h
  | perform op next ih => exact ih _ (h.2 _ (hrely op s)) _

theorem Ensures.forM {γ : Type} {f : γ → Program Op Ans PUnit} {l : List γ}
    (h : ∀ c ∈ l, (f c).Ensures permit rely fun _ => True) :
    (l.forM f).Ensures permit rely fun _ => True := by
  induction l with
  | nil => exact trivial
  | cons c l ih =>
    show (f c >>= fun _ => l.forM f).Ensures permit rely _
    exact (h c List.mem_cons_self).bind fun _ _ => ih fun d hd => h d (List.mem_cons_of_mem _ hd)

end Program

end BambooNet
