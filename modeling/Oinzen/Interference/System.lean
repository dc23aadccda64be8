import Oinzen.Interference.Abstraction

/-!
# Systems that take labelled steps

`Run` is any run whose steps all meet a condition on the state before the step and its label. What
an abstraction of a system keeps in every step it keeps in every run.
-/

namespace Interference

structure System (σ ℓ : Type) where
  start : σ → Prop
  step : σ → ℓ → σ → Prop

namespace System

variable {σ ℓ τ κ : Type}

inductive Run (S : System σ ℓ) (cond : σ → ℓ → Prop) : σ → Prop
  | start {s} : S.start s → Run S cond s
  | step {s l t} : Run S cond s → cond s l → S.step s l t → Run S cond t

def unrestricted : σ → ℓ → Prop := fun _ _ => True

def goOn (S : System σ ℓ) (s : σ) : System σ ℓ := ⟨(· = s), S.step⟩

/-- The same system, started where its runs start or wherever one of them reaches a state with `mark`. -/
def since (S : System σ ℓ) (mark : σ → Prop) : System σ ℓ :=
  ⟨fun s => S.start s ∨ S.Run unrestricted s ∧ mark s, S.step⟩

variable {S : System σ ℓ} {A : System τ κ} {cond weaker : σ → ℓ → Prop} {cond' : τ → κ → Prop}

theorem Run.mono (h : ∀ s l, cond s l → weaker s l) {s : σ} (r : S.Run cond s) : S.Run weaker s := by
  induction r with
  | start hs => exact .start hs
  | step _ hc hstep ih => exact .step ih (h _ _ hc) hstep

theorem Run.since (mark : σ → Prop) {s : σ} (r : S.Run cond s) : (S.since mark).Run cond s := by
  induction r with
  | start hs => exact .start (.inl hs)
  | step _ hc hstep ih => exact .step ih hc hstep

theorem Run.reachable {mark : σ → Prop} {s : σ} (r : (S.since mark).Run cond s) : S.Run unrestricted s := by
  induction r with
  | start hs => exact hs.elim .start And.left
  | step _ _ hstep ih => exact .step ih trivial hstep

theorem Run.invariant {I : σ → Prop} (start : ∀ s, S.start s → I s)
    (step : ∀ s l t, S.Run cond s → I s → cond s l → S.step s l t → I t) {s : σ} (r : S.Run cond s) : I s := by
  induction r with
  | start hs => exact start _ hs
  | step r hc hstep ih => exact step _ _ _ r ih hc hstep

theorem Run.refines {w : Abstraction σ τ} (label : σ → ℓ → κ)
    (start : ∀ s, S.start s → w.valid s ∧ A.start (w.view s))
    (step : ∀ s l t, w.valid s → A.Run cond' (w.view s) → cond s l → S.step s l t →
      w.valid t ∧ cond' (w.view s) (label s l) ∧ A.step (w.view s) (label s l) (w.view t))
    {s : σ} (r : S.Run cond s) : w.valid s ∧ A.Run cond' (w.view s) := by
  induction r with
  | start hs => exact ⟨(start _ hs).1, .start (start _ hs).2⟩
  | step _ hc hstep ih =>
      obtain ⟨hvalid, hcond, hview⟩ := step _ _ _ ih.1 ih.2 hc hstep
      exact ⟨hvalid, .step ih.2 hcond hview⟩

end System

end Interference
