import Oinzen.Interference.Program

/-!
# Rely and guarantee

`Safe w p Q s`: whatever the environment does between the actions of `p` within `w.rely`, every
action of `p` keeps `w.guar`, and `p` ends as `Q` says. Runs are cut off at an action that does not
meet `w.meets`, which is how a condition on the steps of a run enters a proof.
-/

namespace Interference

open Relation

structure Setting (σ : Type) where
  rely : σ → σ → Prop
  guar : σ → σ → Prop
  meets : σ → σ → Prop

def Stable {σ : Type} (rely : σ → σ → Prop) (P : σ → Prop) : Prop :=
  ∀ ⦃s t⦄, rely s t → P s → P t

namespace Stable

variable {σ κ : Type} {rely : σ → σ → Prop} {P Q : σ → Prop}

theorem run (h : Stable rely P) {s t : σ} (r : ReflTransGen rely s t) (hs : P s) : P t := by
  induction r with
  | refl => exact hs
  | tail _ e ih => exact h e ih

theorem and (hp : Stable rely P) (hq : Stable rely Q) : Stable rely fun s => P s ∧ Q s :=
  fun _ _ r h => ⟨hp r h.1, hq r h.2⟩

theorem exists_ {R : κ → σ → Prop} (h : ∀ k, Stable rely (R k)) : Stable rely fun s => ∃ k, R k s :=
  fun _ _ r ⟨k, hk⟩ => ⟨k, h k r hk⟩

theorem const (p : Prop) : Stable rely fun _ => p := fun _ _ _ h => h

end Stable

namespace Prog

variable {σ ι : Type} {A : ι → Type} {α β : Type}

def Safe (w : Setting σ) : Prog σ A α → (α → σ → Prop) → σ → Prop
  | ret a, Q, s => ∀ t, ReflTransGen w.rely s t → Q a t
  | act u k, Q, s => ∀ t, ReflTransGen w.rely s t → w.meets t (u t) →
      w.guar t (u t) ∧ Safe w (k t) Q (u t)
  | ask i k, Q, s => ∀ t, ReflTransGen w.rely s t → ∀ b : A i, Safe w (k b) Q t

variable {w : Setting σ} {p : Prog σ A α} {P : σ → Prop} {Q R : α → σ → Prop} {s t : σ}

theorem Safe.rely (h : Safe w p Q s) (r : ReflTransGen w.rely s t) : Safe w p Q t := by
  cases p with
  | ret a => exact fun v e => h v (r.trans e)
  | act u k => exact fun v e => h v (r.trans e)
  | ask i k => exact fun v e => h v (r.trans e)

theorem Safe.mono (h : Safe w p Q s) (weaker : ∀ a t, Q a t → R a t) : Safe w p R s := by
  induction p generalizing s with
  | ret a => exact fun t r => weaker a t (h t r)
  | act u k ih => exact fun t r m => ⟨(h t r m).1, ih t (h t r m).2⟩
  | ask i k ih => exact fun t r b => ih b (h t r b)

theorem Safe.bind {f : α → Prog σ A β} {Q : β → σ → Prop}
    (h : Safe w p (fun a t => Safe w (f a) Q t) s) : Safe w (p >>= f) Q s := by
  induction p generalizing s with
  | ret a => exact h s .refl
  | act u k ih => exact fun t r m => ⟨(h t r m).1, ih t (h t r m).2⟩
  | ask i k ih => exact fun t r b => ih b (h t r b)

theorem Safe.seq {f : α → Prog σ A β} {Q : β → σ → Prop} (M : α → σ → Prop) (h : Safe w p M s)
    (next : ∀ a t, M a t → Safe w (f a) Q t) : Safe w (p >>= f) Q s :=
  .bind (h.mono next)

theorem Safe.answer (oracle : Nat → ∀ i, A i) (n : Nat) (h : Safe w p Q s) : Safe w (p.answer oracle n) Q s := by
  induction p generalizing n s with
  | ret a => exact h
  | act u k ih => exact fun t r m => ⟨(h t r m).1, ih t n (h t r m).2⟩
  | ask i k ih => exact ih (oracle n i) (n + 1) (h s .refl (oracle n i))

theorem Safe.answer_seq {oracle : Nat → ∀ i, A i} {n : Nat} {f : α → Prog σ A β} {Q : β → σ → Prop}
    (M : α → σ → Prop) (h : Safe w (p.answer oracle n) M s)
    (next : ∀ a t m, M a t → Safe w ((f a).answer oracle m) Q t) : Safe w ((p >>= f).answer oracle n) Q s := by
  induction p generalizing n s with
  | ret a => exact next a s n (h s .refl)
  | act u k ih => exact fun t r m => ⟨(h t r m).1, ih t (h t r m).2⟩
  | ask i k ih => exact ih (oracle n i) h

theorem safe_ret {a : α} (stable : Stable w.rely (Q a)) (hs : Q a s) : Safe w (ret a : Prog σ A α) Q s :=
  fun _ r => stable.run r hs

theorem safe_act {u : σ → σ} {k : σ → Prog σ A α} (stable : Stable w.rely P) (hs : P s)
    (next : ∀ t, P t → w.meets t (u t) → w.guar t (u t) ∧ Safe w (k t) Q (u t)) :
    Safe w (act u k) Q s :=
  fun t r m => next t (stable.run r hs) m

theorem safe_ask {i : ι} {k : A i → Prog σ A α} (stable : Stable w.rely P) (hs : P s)
    (next : ∀ t b, P t → Safe w (k b) Q t) : Safe w (ask i k) Q s :=
  fun t r b => next t b (stable.run r hs)

theorem safe_get {f : σ → β} {k : β → Prog σ A α} (stable : Stable w.rely P) (hs : P s)
    (quiet : ∀ t, P t → w.guar t t) (next : ∀ t, P t → Safe w (k (f t)) Q t) :
    Safe w (get f >>= k) Q s :=
  safe_act stable hs fun t ht _ => ⟨quiet t ht, next t ht⟩

theorem safe_modify {u : σ → σ} {k : Unit → Prog σ A α} (stable : Stable w.rely P) (hs : P s)
    (kept : ∀ t, P t → w.guar t (u t)) (next : ∀ t, P t → w.meets t (u t) → Safe w (k ()) Q (u t)) :
    Safe w (modify u >>= k) Q s :=
  safe_act stable hs fun t ht m => ⟨kept t ht, next t ht m⟩

theorem safe_call {i : ι} {k : A i → Prog σ A α} (stable : Stable w.rely P) (hs : P s)
    (next : ∀ t b, P t → Safe w (k b) Q t) : Safe w (call i >>= k) Q s :=
  safe_ask stable hs next

theorem safe_when {c : Bool} {p : Prog σ A Unit} {Q : Unit → σ → Prop}
    (yes : c = true → Safe w p Q s) (no : c = false → Safe w (ret () : Prog σ A Unit) Q s) :
    Safe w (when c p) Q s := by
  cases c with
  | true => exact yes rfl
  | false => exact no rfl

end Prog

end Interference
