import Mathlib.Logic.Relation

/-!
# Programs of atomic actions

A program works on a shared state by atomic actions and asks the code outside it for answers.
Between two actions anything may happen to the state, so the type fixes only what one action
does; `Exec` and `run` are the executions with nothing in between.
-/

namespace Interference

inductive Prog (σ : Type) {ι : Type} (A : ι → Type) (α : Type) : Type
  | ret (a : α)
  | act (update : σ → σ) (next : σ → Prog σ A α)
  | ask (i : ι) (next : A i → Prog σ A α)

namespace Prog

variable {σ τ ι : Type} {A : ι → Type} {α β γ : Type}

def bind : Prog σ A α → (α → Prog σ A β) → Prog σ A β
  | ret a, f => f a
  | act u k, f => act u fun s => bind (k s) f
  | ask i k, f => ask i fun b => bind (k b) f

instance : Monad (Prog σ A) where
  pure := ret
  bind := bind

def get (f : σ → α) : Prog σ A α := act id fun s => ret (f s)

def modify (f : σ → σ) : Prog σ A Unit := act f fun _ => ret ()

def call (i : ι) : Prog σ A (A i) := ask i ret

def when (c : Bool) (p : Prog σ A Unit) : Prog σ A Unit := bif c then p else ret ()

@[simp] theorem when_true (p : Prog σ A Unit) : when true p = p := rfl
@[simp] theorem when_false (p : Prog σ A Unit) : when false p = ret () := rfl
@[simp] theorem pure_eq (a : α) : (pure a : Prog σ A α) = ret a := rfl
@[simp] theorem ret_bind (a : α) (f : α → Prog σ A β) : (ret a >>= f) = f a := rfl
@[simp] theorem act_bind (u : σ → σ) (k : σ → Prog σ A α) (f : α → Prog σ A β) :
    (act u k >>= f) = act u fun s => k s >>= f := rfl
@[simp] theorem ask_bind (i : ι) (k : A i → Prog σ A α) (f : α → Prog σ A β) :
    (ask i k >>= f) = ask i fun b => k b >>= f := rfl

theorem bind_assoc (p : Prog σ A α) (f : α → Prog σ A β) (g : β → Prog σ A γ) :
    (p >>= f) >>= g = p >>= fun a => f a >>= g := by
  induction p with
  | ret a => rfl
  | act u k ih => simp only [act_bind, ih]
  | ask i k ih => simp only [ask_bind, ih]

theorem bind_ret (p : Prog σ A α) : (p >>= ret) = p := by
  induction p with
  | ret a => rfl
  | act u k ih => simp only [act_bind, ih]
  | ask i k ih => simp only [ask_bind, ih]

instance : LawfulMonad (Prog σ A) :=
  LawfulMonad.mk' (Prog σ A) bind_ret (fun _ _ => rfl) bind_assoc

def lift (part : τ → σ) (put : σ → τ → τ) : Prog σ A α → Prog τ A α
  | ret a => ret a
  | act u k => act (fun t => put (u (part t)) t) fun t => lift part put (k (part t))
  | ask i k => ask i fun b => lift part put (k b)

/-- The program with its calls answered from a list of answers given in advance. -/
def answer (oracle : Nat → ∀ i, A i) : Nat → Prog σ A α → Prog σ A α
  | _, ret a => ret a
  | n, act u k => act u fun s => answer oracle n (k s)
  | n, ask i k => answer oracle (n + 1) (k (oracle n i))

theorem answer_call (oracle : Nat → ∀ i, A i) (n : Nat) (i : ι) (k : A i → Prog σ A α) :
    (call i >>= k).answer oracle n = (k (oracle n i)).answer oracle (n + 1) := rfl

/-- The execution without interference, calls answered from `oracle`. -/
def run (oracle : Nat → ∀ i, A i) : Nat → Prog σ A α → σ → α × σ
  | _, ret a, s => (a, s)
  | n, act u k, s => run oracle n (k s) (u s)
  | n, ask i k, s => run oracle (n + 1) (k (oracle n i)) s

/-- All executions without interference whose answers satisfy `ok`. -/
inductive Exec (ok : ∀ i, A i → Prop) : Prog σ A α → σ → α → σ → Prop
  | ret {a s} : Exec ok (ret a) s a s
  | act {u k s a t} : Exec ok (k s) (u s) a t → Exec ok (act u k) s a t
  | ask {i k s b a t} : ok i b → Exec ok (k b) s a t → Exec ok (ask i k) s a t

def Ensures (ok : ∀ i, A i → Prop) : Prog σ A α → σ → (α → σ → Prop) → Prop
  | ret a, s, Q => Q a s
  | act u k, s, Q => Ensures ok (k s) (u s) Q
  | ask i k, s, Q => ∀ b, ok i b → Ensures ok (k b) s Q

variable {ok : ∀ i, A i → Prop}

theorem exec_run (oracle : Nat → ∀ i, A i) (legal : ∀ n i, ok i (oracle n i)) (n : Nat)
    (p : Prog σ A α) (s : σ) : Exec ok p s (run oracle n p s).1 (run oracle n p s).2 := by
  induction p generalizing n s with
  | ret a => exact .ret
  | act u k ih => exact .act (ih s n (u s))
  | ask i k ih => exact .ask (legal n i) (ih _ (n + 1) s)

theorem ensures_iff {p : Prog σ A α} {s : σ} {Q : α → σ → Prop} :
    Ensures ok p s Q ↔ ∀ a t, Exec ok p s a t → Q a t := by
  induction p generalizing s with
  | ret a =>
      refine ⟨fun h a t e => ?_, fun h => h a s .ret⟩
      cases e
      exact h
  | act u k ih =>
      refine (ih s).trans ⟨fun h a t e => ?_, fun h a t e => h a t (.act e)⟩
      cases e with
      | act e => exact h a t e
  | ask i k ih =>
      constructor
      · intro h a t e
        cases e with
        | ask legal e => exact (ih _).mp (h _ legal) a t e
      · intro h b legal
        exact (ih b).mpr fun a t e => h a t (.ask legal e)

@[simp] theorem ensures_ret (a : α) (s : σ) (Q : α → σ → Prop) :
    Ensures ok (ret a) s Q ↔ Q a s := Iff.rfl

@[simp] theorem ensures_get (f : σ → α) (s : σ) (Q : α → σ → Prop) :
    Ensures ok (get f) s Q ↔ Q (f s) s := Iff.rfl

@[simp] theorem ensures_modify (f : σ → σ) (s : σ) (Q : Unit → σ → Prop) :
    Ensures ok (modify f) s Q ↔ Q () (f s) := Iff.rfl

@[simp] theorem ensures_call (i : ι) (s : σ) (Q : A i → σ → Prop) :
    Ensures ok (call i) s Q ↔ ∀ b, ok i b → Q b s := Iff.rfl

@[simp] theorem ensures_bind (p : Prog σ A α) (f : α → Prog σ A β) (s : σ) (Q : β → σ → Prop) :
    Ensures ok (p >>= f) s Q ↔ Ensures ok p s fun a t => Ensures ok (f a) t Q := by
  induction p generalizing s with
  | ret a => rfl
  | act u k ih => exact ih s (u s)
  | ask i k ih => exact forall_congr' fun b => imp_congr_right fun _ => ih b s

@[simp] theorem ensures_when (c : Bool) (p : Prog σ A Unit) (s : σ) (Q : Unit → σ → Prop) :
    Ensures ok (when c p) s Q ↔ if c then Ensures ok p s Q else Q () s := by
  cases c <;> rfl

theorem Ensures.mono {p : Prog σ A α} {s : σ} {Q R : α → σ → Prop} (h : Ensures ok p s Q)
    (weaker : ∀ a t, Q a t → R a t) : Ensures ok p s R := by
  rw [ensures_iff] at h ⊢
  exact fun a t e => weaker a t (h a t e)

theorem ensures_lift (part : τ → σ) (put : σ → τ → τ) (frame : ∀ a b t, put a (put b t) = put a t)
    (same : ∀ t, put (part t) t = t) (p : Prog σ A α) (t : τ) (Q : α → τ → Prop)
    (h : ∀ a s, Q a (put s t)) : Ensures ok (p.lift part put) t Q := by
  induction p generalizing t with
  | ret a => simpa only [lift, ensures_ret, same] using h a (part t)
  | act u k ih =>
      refine ih (part t) _ fun a s => ?_
      rw [frame]
      exact h a s
  | ask i k ih => exact fun b _ => ih b t h

def EndsAfter (ok : ∀ i, A i → Prop) (marks : σ → σ → Prop) (Q : σ → α → σ → Prop) : Prog σ A α → Prop
  | ret _ => True
  | act u k => ∀ s, (marks s (u s) → Ensures ok (k s) (u s) (Q s)) ∧ EndsAfter ok marks Q (k s)
  | ask _ k => ∀ b, EndsAfter ok marks Q (k b)

theorem EndsAfter.mono {marks : σ → σ → Prop} {Q R : σ → α → σ → Prop} {p : Prog σ A α}
    (h : p.EndsAfter ok marks Q) (weaker : ∀ s a t, Q s a t → R s a t) : p.EndsAfter ok marks R := by
  induction p with
  | ret a => trivial
  | act u k ih => exact fun s => ⟨fun hm => ((h s).1 hm).mono (weaker s), ih s (h s).2⟩
  | ask i k ih => exact fun b => ih b (h b)

theorem EndsAfter.bind {marks : σ → σ → Prop} {Q : σ → β → σ → Prop} {p : Prog σ A α} {f : α → Prog σ A β}
    (h : p.EndsAfter ok marks fun m a t => Ensures ok (f a) t (Q m))
    (h' : ∀ a, (f a).EndsAfter ok marks Q) : (p >>= f).EndsAfter ok marks Q := by
  induction p with
  | ret a => exact h' a
  | act u k ih =>
      intro s
      obtain ⟨hmark, hrest⟩ := h s
      exact ⟨fun hm => (ensures_bind (k s) f (u s) _).mpr (hmark hm), ih s hrest⟩
  | ask i k ih => exact fun b => ih b (h b)

end Prog

end Interference
