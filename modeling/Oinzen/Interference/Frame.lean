import Oinzen.Interference.Rely
import Oinzen.Interference.Threads

/-!
# Data that belongs to one thread

What a thread does to its own data conflicts with nothing that a program does that leaves them alone.
-/

namespace Interference

structure Frame (σ υ ρ : Type) where
  view : σ → υ
  put : ρ → σ → σ

namespace Frame

variable {σ υ ρ ι α β : Type} {A : ι → Type} {F : Frame σ υ ρ}

structure Within (F : Frame σ υ ρ) (a : Action σ A) : Prop where
  update : ∃ f : υ → ρ, ∀ s, a.update s = F.put (f (F.view s)) s
  next : ∃ g : υ → Prog σ A Unit, ∀ s, a.next s = g (F.view s)

structure Keeps (F : Frame σ υ ρ) (u : σ → σ) : Prop where
  view : ∀ s, F.view (u s) = F.view s
  put : ∀ r s, u (F.put r s) = F.put r (u s)

def Ignores (F : Frame σ υ ρ) (f : σ → α) : Prop := ∀ r s, f (F.put r s) = f s

def Avoids (F : Frame σ υ ρ) : Prog σ A α → Prop
  | .ret _ => True
  | .act u k => F.Keeps u ∧ F.Ignores k ∧ ∀ s, Avoids F (k s)
  | .ask _ k => ∀ b, Avoids F (k b)

def watch (view : σ → υ) : Frame σ υ Unit where
  view := view
  put _ s := s

theorem Within.independent {a b : Action σ A} (ha : F.Within a) (hb : F.Keeps b.update) (hnext : F.Ignores b.next) :
    a.Independent b := by
  obtain ⟨⟨f, hf⟩, g, hg⟩ := ha
  refine ⟨fun s => ?_, fun s => ?_, fun s => ?_⟩
  · rw [hf, hf, hb.view, hb.put]
  · rw [hg, hg, hb.view]
  · rw [hf, hnext]

namespace Avoids

variable {p q : Prog σ A α} {f : α → Prog σ A β}

theorem ret {a : α} : F.Avoids (.ret a : Prog σ A α) := trivial

theorem get {g : σ → α} (h : F.Ignores g) : F.Avoids (Prog.get g : Prog σ A α) :=
  ⟨⟨fun _ => rfl, fun _ _ => rfl⟩, fun r s => congrArg Prog.ret (h r s), fun _ => trivial⟩

theorem modify {u : σ → σ} (h : F.Keeps u) : F.Avoids (Prog.modify u : Prog σ A Unit) :=
  ⟨h, fun _ _ => rfl, fun _ => trivial⟩

theorem call {i : ι} : F.Avoids (Prog.call i : Prog σ A (A i)) := fun _ => trivial

theorem watch_get {view : σ → υ} (g : σ → α) : (watch view).Avoids (Prog.get g : Prog σ A α) :=
  get fun _ _ => rfl

theorem watch_modify {view : σ → υ} {u : σ → σ} (h : ∀ s, view (u s) = view s) :
    (watch view).Avoids (Prog.modify u : Prog σ A Unit) :=
  modify ⟨h, fun _ _ => rfl⟩

theorem bind (h : F.Avoids p) (h' : ∀ a, F.Avoids (f a)) : F.Avoids (p >>= f) := by
  induction p with
  | ret a => exact h' a
  | act u k ih =>
      obtain ⟨hu, hk, h⟩ := h
      exact ⟨hu, fun r s => congrArg (· >>= f) (hk r s), fun s => ih s (h s)⟩
  | ask i k ih => exact fun b => ih b (h b)

theorem ite {c : Prop} [Decidable c] (hp : F.Avoids p) (hq : F.Avoids q) : F.Avoids (if c then p else q) := by
  split
  · exact hp
  · exact hq

theorem when {c : Bool} {p : Prog σ A Unit} (h : F.Avoids p) : F.Avoids (Prog.when c p) := by
  cases c
  · exact trivial
  · exact h

theorem lift {τ : Type} {part : σ → τ} {set : τ → σ → σ} (hpart : F.Ignores part)
    (hset : ∀ x, F.Keeps (set x)) (p : Prog τ A α) : F.Avoids (p.lift part set) := by
  induction p with
  | ret => trivial
  | act u k ih =>
      refine ⟨⟨fun s => (hset _).view s, fun r s => ?_⟩, fun r s => ?_, fun s => ih _⟩
      · exact (congrArg (fun x => set (u x) (F.put r s)) (hpart r s)).trans ((hset _).put r s)
      · exact congrArg (fun x => Prog.lift part set (k x)) (hpart r s)
  | ask i k ih => exact fun b => ih b

theorem endsAfter {view : σ → υ} {ok : ∀ i, A i → Prop} {marks : σ → σ → Prop} {Q : σ → α → σ → Prop}
    (h : (watch view).Avoids p) (unmarked : ∀ s t, view t = view s → ¬ marks s t) :
    p.EndsAfter ok marks Q := by
  induction p with
  | ret a => trivial
  | act u k ih =>
      obtain ⟨hu, -, h⟩ := h
      exact fun s => ⟨fun hm => absurd hm (unmarked s (u s) (hu.view s)), ih s (h s)⟩
  | ask i k ih => exact fun b => ih b (h b)

theorem safe {w : Setting σ} {x : υ} {s : σ} (h : F.Avoids p) (stable : Stable w.rely fun s => F.view s = x)
    (guar : ∀ s t, w.guar s t) (hs : F.view s = x) : p.Safe w (fun _ t => F.view t = x) s := by
  induction p generalizing s with
  | ret a => exact Prog.safe_ret stable hs
  | act u k ih =>
      obtain ⟨hu, -, h⟩ := h
      exact Prog.safe_act stable hs fun t ht _ => ⟨guar _ _, ih t (h t) ((hu.view t).trans ht)⟩
  | ask i k ih => exact Prog.safe_ask stable hs fun t b ht => ih b (h b) ht

end Avoids

structure Outside (F : Frame σ υ ρ) (th : Thread σ A) : Prop where
  code : F.Avoids th.code
  taken : ∀ b ∈ th.taken, F.Keeps b.update ∧ F.Ignores b.next

variable {t : Threads σ A} {c c' : Threads.Config σ A} {owner d : Side}

theorem Outside.step (h : F.Outside (c.thread owner)) (hstep : t.advance d c = some c') :
    F.Outside (c'.thread owner) := by
  by_cases hd : owner = d
  · subst hd
    obtain ⟨hcode, htaken⟩ := h
    rcases Threads.step_cases hstep with ⟨a, ha, -, hthread⟩ | ⟨i, k, hi, -, hthread⟩ <;>
      rw [hthread, Function.update_self]
    · rw [ha] at hcode
      obtain ⟨hu, hk, hcode⟩ := hcode
      exact ⟨hcode _, List.forall_mem_cons.mpr ⟨⟨hu, hk⟩, htaken⟩⟩
    · rw [hi] at hcode
      exact ⟨hcode _, htaken⟩
  · rcases Threads.step_cases hstep with ⟨a, -, -, hthread⟩ | ⟨i, k, -, -, hthread⟩ <;>
      rwa [hthread, Function.update_of_ne hd]

theorem Outside.next {th : Thread σ A} {a : Action σ A} (h : F.Outside th) (hcode : th.code = .act a.update a.next) :
    F.Keeps a.update ∧ F.Ignores a.next := by
  have havoids := h.code
  rw [hcode] at havoids
  exact ⟨havoids.1, havoids.2.1⟩

end Frame

end Interference
