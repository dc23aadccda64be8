import Mathlib.Order.Basic
import Oinzen.Interference.Frame

/-!
# Programs that are watched

A watched program works on a larger state: on a part of it as another program does, and in the rest it
notes how far it has come.
-/

namespace Interference

namespace Prog

variable {σ τ ι : Type} {A : ι → Type} {α β : Type}

def Each (P : (σ → σ) → Prop) : Prog σ A α → Prop
  | ret _ => True
  | act u k => P u ∧ ∀ s, Each P (k s)
  | ask _ k => ∀ b, Each P (k b)

namespace Each

variable {P : (σ → σ) → Prop} {p q : Prog σ A α} {f : α → Prog σ A β}

theorem ret {a : α} : (Prog.ret a : Prog σ A α).Each P := trivial

theorem get {g : σ → α} (h : P id) : (Prog.get g : Prog σ A α).Each P := ⟨h, fun _ => trivial⟩

theorem modify {u : σ → σ} (h : P u) : (Prog.modify u : Prog σ A Unit).Each P := ⟨h, fun _ => trivial⟩

theorem call {i : ι} : (Prog.call i : Prog σ A (A i)).Each P := fun _ => trivial

theorem bind (h : p.Each P) (next : ∀ a, (f a).Each P) : (p >>= f).Each P := by
  induction p with
  | ret a => exact next a
  | act u k ih => exact ⟨h.1, fun s => ih s (h.2 s)⟩
  | ask i k ih => exact fun b => ih b (h b)

theorem ite {c : Prop} [Decidable c] (hp : p.Each P) (hq : q.Each P) : (if c then p else q).Each P := by
  split
  · exact hp
  · exact hq

theorem when {c : Bool} {p : Prog σ A Unit} (h : p.Each P) : (Prog.when c p).Each P := by
  cases c
  · exact trivial
  · exact h

theorem lift {R : (τ → τ) → Prop} {part : τ → σ} {put : σ → τ → τ} (h : p.Each P)
    (updates : ∀ u, P u → R fun t => put (u (part t)) t) : (p.lift part put).Each R := by
  induction p with
  | ret => trivial
  | act u k ih => exact ⟨updates u h.1, fun t => ih _ (h.2 (part t))⟩
  | ask i k ih => exact fun b => ih b (h b)

theorem all {P : (σ → σ) → Prop} (h : ∀ u, P u) (p : Prog σ A α) : p.Each P := by
  induction p with
  | ret => trivial
  | act u k ih => exact ⟨h u, ih⟩
  | ask i k ih => exact ih

end Each

def Still (I : σ → Prop) : Prog σ A α → Prop
  | ret _ => True
  | act u k => ∀ s, I s → u s = s ∧ Still I (k s)
  | ask _ k => ∀ b, Still I (k b)

variable {I : σ → Prop} {p q : Prog σ A α}

theorem Still.ret {a : α} : (Prog.ret a : Prog σ A α).Still I := trivial

theorem Still.get {g : σ → α} {f : α → Prog σ A β} (h : ∀ s, I s → (f (g s)).Still I) :
    (Prog.get g >>= f).Still I :=
  fun s hs => ⟨rfl, h s hs⟩

theorem Still.ite {c : Prop} [Decidable c] (hp : p.Still I) (hq : q.Still I) : (if c then p else q).Still I := by
  split
  · exact hp
  · exact hq

theorem Still.bind {f : α → Prog σ A β} (h : p.Still I) (next : ∀ a, (f a).Still I) : (p >>= f).Still I := by
  induction p with
  | ret a => exact next a
  | act u k ih => exact fun s hs => ⟨(h s hs).1, ih s (h s hs).2⟩
  | ask i k ih => exact fun b => ih b (h b)

theorem Still.lift {J : τ → Prop} {part : τ → σ} {put : σ → τ → τ} (h : p.Still I) (inner : ∀ t, J t → I (part t))
    (same : ∀ t, J t → put (part t) t = t) : (p.lift part put).Still J := by
  induction p with
  | ret => trivial
  | act u k ih =>
      intro t ht
      obtain ⟨rest, next⟩ := h (part t) (inner t ht)
      exact ⟨(congrArg (fun x => put x t) rest).trans (same t ht), ih _ next⟩
  | ask i k ih => exact fun b => ih b (h b)

theorem Still.run (h : p.Still I) (oracle : Nat → ∀ i, A i) (n : Nat) {s : σ} (hs : I s) :
    (p.run oracle n s).2 = s := by
  induction p generalizing n with
  | ret a => rfl
  | act u k ih =>
      obtain ⟨rest, next⟩ := h s hs
      rw [Prog.run, rest]
      exact ih s next n
  | ask i k ih => exact ih _ (h _) (n + 1)

inductive Projects (part : τ → σ) : Prog τ A α → Prog σ A α → Prop
  | ret (a : α) : Projects part (ret a) (ret a)
  | act {u k v l} : (∀ t, part (u t) = v (part t)) → (∀ t, Projects part (k t) (l (part t))) →
      Projects part (act u k) (act v l)
  | ask {i k l} : (∀ b, Projects part (k b) (l b)) → Projects part (ask i k) (ask i l)

namespace Projects

variable {part : τ → σ} {p : Prog τ A α} {q : Prog σ A α} {f : α → Prog τ A β} {g : α → Prog σ A β}

theorem bind (h : Projects part p q) (next : ∀ a, Projects part (f a) (g a)) :
    Projects part (p >>= f) (q >>= g) := by
  induction h with
  | ret a => exact next a
  | act update _ ih => exact .act update ih
  | ask _ ih => exact .ask ih

theorem ite {c : Prop} [Decidable c] {p' : Prog τ A α} {q' : Prog σ A α} (h : Projects part p q)
    (h' : Projects part p' q') : Projects part (if c then p else p') (if c then q else q') := by
  split
  · exact h
  · exact h'

theorem when {c : Bool} {p : Prog τ A Unit} {q : Prog σ A Unit} (h : Projects part p q) :
    Projects part (Prog.when c p) (Prog.when c q) := by
  cases c
  · exact .ret ()
  · exact h

theorem lift {put : σ → τ → τ} (h : ∀ x t, part (put x t) = x) (q : Prog σ A α) :
    Projects part (q.lift part put) q := by
  induction q with
  | ret a => exact .ret a
  | act u k ih => exact .act (fun t => h _ t) fun t => ih (part t)
  | ask i k ih => exact .ask ih

theorem run (h : Projects part p q) (oracle : Nat → ∀ i, A i) (n : Nat) (t : τ) :
    part (p.run oracle n t).2 = (q.run oracle n (part t)).2 := by
  induction h generalizing n t with
  | ret => rfl
  | @act u k v l update _ ih =>
      have := ih t n (u t)
      rwa [update t] at this
  | ask _ ih => exact ih _ (n + 1) t

end Projects

end Prog

/-! ## Stages -/

def Course {S σ ι : Type} [Preorder S] {A : ι → Type} (takes : S → Action σ A → Prop) : S → Prog σ A Unit → Prop
  | _, .ret _ => True
  | stage, .act u k => ∃ stage', stage ≤ stage' ∧ takes stage' ⟨u, k⟩ ∧ ∀ s, Course takes stage' (k s)
  | stage, .ask _ k => ∀ b, Course takes stage (k b)

namespace Course

variable {S σ ι : Type} [Preorder S] {A : ι → Type} {α : Type} {takes : S → Action σ A → Prop} {stage stage' : S}

theorem mono {p : Prog σ A Unit} (order : stage ≤ stage') (h : Course takes stage' p) : Course takes stage p := by
  induction p with
  | ret => trivial
  | act u k ih =>
      obtain ⟨next, later, taken, rest⟩ := h
      exact ⟨next, order.trans later, taken, rest⟩
  | ask i k ih => exact fun b => ih b (h b)

theorem bind {p : Prog σ A α} {f : α → Prog σ A Unit} (order : stage ≤ stage')
    (h : p.Each fun u => ∀ k, takes stage' ⟨u, k⟩) (next : ∀ a, Course takes stage' (f a)) :
    Course takes stage (p >>= f) := by
  induction p generalizing stage with
  | ret a => exact (next a).mono order
  | act u k ih => exact ⟨stage', order, h.1 _, fun s => ih s le_rfl (h.2 s)⟩
  | ask i k ih => exact fun b => ih b order (h b)

theorem when {c : Bool} {p : Prog σ A Unit} (h : Course takes stage p) : Course takes stage (Prog.when c p) := by
  cases c
  · exact trivial
  · exact h

theorem ite {c : Prop} [Decidable c] {p q : Prog σ A Unit} (hp : Course takes stage p) (hq : Course takes stage q) :
    Course takes stage (if c then p else q) := by
  split
  · exact hp
  · exact hq

end Course

/-! ## Threads -/

namespace Threads

variable {σ τ ι : Type} {A : ι → Type} {part : τ → σ} {t : Threads τ A} {q : Threads σ A} {d : Side}

structure Follows (part : τ → σ) (c : Config τ A) (c' : Config σ A) : Prop where
  shared : part c.shared = c'.shared
  holder : c.holder = c'.holder
  thread : ∀ d, Prog.Projects part (c.thread d).code (c'.thread d).code ∧ (c.thread d).asked = (c'.thread d).asked

variable {c : Config τ A} {c' c'' : Config σ A}

theorem projects_update {th : Side → Thread τ A} {th' : Side → Thread σ A} {x : Thread τ A} {y : Thread σ A}
    (h : ∀ d, Prog.Projects part (th d).code (th' d).code ∧ (th d).asked = (th' d).asked)
    (new : Prog.Projects part x.code y.code ∧ x.asked = y.asked) (e : Side) :
    Prog.Projects part (Function.update th d x e).code (Function.update th' d y e).code ∧
      (Function.update th d x e).asked = (Function.update th' d y e).asked := by
  by_cases he : e = d
  · subst he
    rwa [Function.update_self, Function.update_self]
  · rw [Function.update_of_ne he, Function.update_of_ne he]
    exact h e

theorem Follows.step (follows : Follows part c c') (lock : t.lock = q.lock) (answers : t.answers = q.answers)
    (h : q.advance d c' = some c'') : ∃ c1, t.advance d c = some c1 ∧ Follows part c1 c'' := by
  obtain ⟨code, asked⟩ := follows.thread d
  unfold advance at h ⊢
  generalize hcode : (c'.thread d).code = p' at code h
  generalize hown : (c.thread d).code = p at code
  cases code with
  | ret => cases h
  | act update next =>
      obtain rfl := Option.some.inj h
      refine ⟨_, rfl, ?_, follows.holder, projects_update follows.thread ⟨?_, asked⟩⟩
      · rw [← follows.shared]
        exact update _
      · rw [← follows.shared]
        exact next _
  | ask next =>
      obtain ⟨holder, take, rfl⟩ := Option.map_eq_some_iff.mp h
      rw [← follows.holder, ← lock] at take
      refine ⟨_, Option.map_eq_some_iff.mpr ⟨holder, take, rfl⟩, follows.shared, rfl,
        projects_update follows.thread ⟨?_, congrArg (· + 1) asked⟩⟩
      rw [answers, asked]
      exact next _

theorem run_follows (lock : t.lock = q.lock) (answers : t.answers = q.answers)
    (code : ∀ d, Prog.Projects part (t.code d) (q.code d)) {s : τ}
    (r : (q.system (part s)).Run System.unrestricted c') :
    ∃ c, (t.system s).Run System.unrestricted c ∧ Follows part c c' := by
  induction r with
  | start h => exact ⟨t.initial s, .start rfl, h ▸ ⟨rfl, rfl, fun d => ⟨code d, rfl⟩⟩⟩
  | step _ _ h ih =>
      obtain ⟨c, run, follows⟩ := ih
      obtain ⟨c1, advance, follows'⟩ := follows.step lock answers h
      exact ⟨c1, run.step trivial advance, follows'⟩

end Threads

end Interference
