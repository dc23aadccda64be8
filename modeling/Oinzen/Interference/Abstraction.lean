import Oinzen.Interference.Program

/-!
# Programs and what can be seen of them

An abstraction forgets most of the state. A program refines a statement about what can be seen when
it holds of its executions from every state that looks alike.
-/

namespace Interference

structure Abstraction (σ τ : Type) where
  valid : σ → Prop
  view : σ → τ

namespace Prog

variable {σ τ ι : Type} {A : ι → Type} {α β : Type}

def Refines (w : Abstraction σ τ) (ok : ∀ i, A i → Prop) (p : Prog σ A α) (m : τ) (Q : α → τ → Prop) :
    Prop :=
  ∀ s, w.valid s → w.view s = m → Ensures ok p s fun a t => w.valid t ∧ Q a (w.view t)

variable {w : Abstraction σ τ} {ok : ∀ i, A i → Prop} {p : Prog σ A α} {m n : τ} {Q R : α → τ → Prop}

theorem Refines.exec (h : Refines w ok p m Q) {s t : σ} {a : α} (hs : w.valid s) (hm : w.view s = m)
    (e : Exec ok p s a t) : w.valid t ∧ Q a (w.view t) :=
  ensures_iff.mp (h s hs hm) a t e

theorem Refines.mono (h : Refines w ok p m Q) (weaker : ∀ a m', Q a m' → R a m') :
    Refines w ok p m R :=
  fun s hs hm => (h s hs hm).mono fun a _ ht => ⟨ht.1, weaker a _ ht.2⟩

theorem Refines.seq {f : α → Prog σ A β} {Q : β → τ → Prop} {M : α → τ → Prop} (h : Refines w ok p m M)
    (next : ∀ a m', M a m' → Refines w ok (f a) m' Q) : Refines w ok (p >>= f) m Q := by
  intro s hs hm
  rw [ensures_bind]
  exact (h s hs hm).mono fun a t ht => next a _ ht.2 t ht.1 rfl

theorem Refines.next {p : Prog σ A Unit} {q : Unit → Prog σ A β} {Q : β → τ → Prop}
    (h : Refines w ok p m fun _ t => t = n) (next : Refines w ok (q ()) n Q) :
    Refines w ok (p >>= q) m Q :=
  h.seq fun _ _ e => e ▸ next

theorem refines_ret {a : α} (h : Q a m) : Refines w ok (ret a : Prog σ A α) m Q := by
  rintro s hs rfl
  exact ⟨hs, h⟩

theorem refines_get {f : σ → β} {k : β → Prog σ A α}
    (next : ∀ s, w.valid s → w.view s = m → Refines w ok (k (f s)) m Q) :
    Refines w ok (get f >>= k) m Q :=
  fun s hs hm => next s hs hm s hs hm

theorem refines_see {f : σ → β} (g : τ → β) {k : β → Prog σ A α} (seen : ∀ s, f s = g (w.view s))
    (next : Refines w ok (k (g m)) m Q) : Refines w ok (get f >>= k) m Q := by
  refine refines_get fun s _ hm => ?_
  rw [seen, hm]
  exact next

theorem refines_read {f : σ → β} (g : τ → β) {Q : β → τ → Prop} (seen : ∀ s, f s = g (w.view s))
    (h : Q (g m) m) : Refines w ok (get f) m Q := by
  rintro s hs rfl
  rw [ensures_get, seen]
  exact ⟨hs, h⟩

theorem refines_modify {u : σ → σ} {Q : Unit → τ → Prop}
    (h : ∀ s, w.valid s → w.view s = m →
      w.valid (u s) ∧ Q () (w.view (u s))) :
    Refines w ok (modify u) m Q :=
  h

theorem refines_call {i : ι} {k : A i → Prog σ A α} (next : ∀ b, ok i b → Refines w ok (k b) m Q) :
    Refines w ok (call i >>= k) m Q :=
  fun s hs hm b hb => next b hb s hs hm

theorem refines_when {c : Bool} {p : Prog σ A Unit} {Q : Unit → τ → Prop} (yes : c = true → Refines w ok p m Q)
    (no : c = false → Q () m) : Refines w ok (when c p) m Q := by
  cases c with
  | true => exact yes rfl
  | false => exact refines_ret (no rfl)

theorem refines_ite {c : Prop} [Decidable c] {p q : Prog σ A α} (yes : c → Refines w ok p m Q)
    (no : ¬ c → Refines w ok q m Q) : Refines w ok (if c then p else q) m Q := by
  by_cases h : c
  · rw [if_pos h]; exact yes h
  · rw [if_neg h]; exact no h

end Prog

end Interference
