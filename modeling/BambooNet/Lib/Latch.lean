import BambooNet.Lib.Runs
import Mathlib.Data.List.Induction

/-!
# Latches

A latch of a machine is closed by some events and released by others. It is closed after a run
exactly when an event of the run has closed it and no later one has released it (`latched_iff`).
What happens only to an open latch, and closes it, happens at most once between two releases
(`count_le_of_latch`).
-/

namespace BambooNet

variable {σ ε : Type*} {step : σ → ε → σ} {closed : σ → Prop} {closes releases : σ → ε → Prop}

/-- An event of the run closes the latch, and none after it releases it. -/
def ClosedSince (step : σ → ε → σ) (closes releases : σ → ε → Prop) (s : σ) (es : List ε) : Prop :=
  ∃ done e rest, es = done ++ e :: rest ∧ closes (run step s done) e ∧
    Along step (fun s e => ¬ releases s e) (run step s (done ++ [e])) rest

theorem not_closedSince_nil (s : σ) : ¬ ClosedSince step closes releases s [] := by
  rintro ⟨done, e, rest, h, -⟩
  simp at h

theorem closedSince_concat {s : σ} {es : List ε} {e : ε} :
    ClosedSince step closes releases s (es ++ [e]) ↔ closes (run step s es) e ∨
      (ClosedSince step closes releases s es ∧ ¬ releases (run step s es) e) := by
  constructor
  · rintro ⟨done, e', rest, h, hcloses, hkept⟩
    rcases List.eq_nil_or_concat rest with rfl | ⟨rest, e'', rfl⟩
    · obtain ⟨rfl, heq⟩ := List.append_inj' h rfl
      obtain rfl := (List.cons.inj heq).1
      exact .inl hcloses
    · have hsplit : es ++ [e] = (done ++ e' :: rest) ++ [e''] := by simp [h]
      obtain ⟨rfl, heq⟩ := List.append_inj' hsplit rfl
      obtain rfl := (List.cons.inj heq).1
      rw [List.concat_eq_append, along_append, ← run_append] at hkept
      have hrun : run step s (done ++ [e'] ++ rest) = run step s (done ++ e' :: rest) := by simp
      rw [hrun] at hkept
      exact .inr ⟨⟨done, e', rest, rfl, hcloses, hkept.1⟩, hkept.2.1⟩
  · rintro (hcloses | ⟨⟨done, e', rest, rfl, hcloses, hkept⟩, hlast⟩)
    · exact ⟨es, e, [], rfl, hcloses, trivial⟩
    · refine ⟨done, e', rest ++ [e], by simp, hcloses, along_append.2 ⟨hkept, ?_, trivial⟩⟩
      have hrun : run step s (done ++ [e'] ++ rest) = run step s (done ++ e' :: rest) := by simp
      rwa [← run_append, hrun]

/-- **A latch is closed when it has been closed and not released since.** -/
theorem latched_iff (hstep : ∀ s e, closed (step s e) ↔ closes s e ∨ (closed s ∧ ¬ releases s e))
    {s : σ} (hs : ¬ closed s) (es : List ε) :
    closed (run step s es) ↔ ClosedSince step closes releases s es := by
  induction es using List.reverseRecOn with
  | nil => exact iff_of_false hs (not_closedSince_nil s)
  | append_singleton es e ih =>
    rw [closedSince_concat, ← ih, run_append, run_cons, run_nil, hstep]

/-- **At most once between two releases**: a count that grows by one at most, and only when the
latch closes. -/
theorem count_le_of_latch {count : σ → ℕ}
    (hkeep : ∀ s e, closed s → ¬ releases s e → closed (step s e))
    (hcount : ∀ s e, count (step s e) = count s ∨
      (count (step s e) = count s + 1 ∧ ¬ closed s ∧ closed (step s e)))
    {s : σ} {es : List ε} (h : Along step (fun s e => ¬ releases s e) s es) :
    count (run step s es) ≤ count s + 1 := by
  have hinv := @run_invariant _ _ step
    (fun t => count t = count s ∨ (count t = count s + 1 ∧ closed t)) _
    (fun t e ht hr => by
      rcases ht with ht | ⟨ht, hclosed⟩
      · rcases hcount t e with heq | ⟨heq, -, hclosed⟩
        · exact .inl (heq.trans ht)
        · exact .inr ⟨by rw [heq, ht], hclosed⟩
      · rcases hcount t e with heq | ⟨-, hopen, -⟩
        · exact .inr ⟨heq.trans ht, hkeep t e hclosed hr⟩
        · exact absurd hclosed hopen) s es (.inl rfl) h
  rcases hinv with heq | ⟨heq, -⟩
  · omega
  · omega

end BambooNet
