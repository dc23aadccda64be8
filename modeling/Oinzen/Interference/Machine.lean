import Oinzen.Interference.Rely

/-!
# A task, its interrupt handler and the hardware

The task moves between control points of type `κ`; from a point it runs a program that ends at the
next one. The handler runs to its end before the task runs again. The hardware may act at any
moment, also inside both.
-/

namespace Interference

open Relation

structure Machine (σ : Type) {ι : Type} (A : ι → Type) (κ ε : Type) where
  fire : ε → σ → Option σ
  pending : σ → Bool
  handler : Prog σ A Unit
  enter : κ → σ → Option σ
  body : κ → Prog σ A κ

namespace Machine

variable {σ ι : Type} {A : ι → Type} {κ ε : Type}

inductive Control (σ : Type) {ι : Type} (A : ι → Type) (κ : Type) where
  | before (k : κ)
  | within (p : Prog σ A κ)

structure Config (σ : Type) {ι : Type} (A : ι → Type) (κ : Type) where
  shared : σ
  irq : Option (Prog σ A Unit)
  control : Control σ A κ

open Control

def env (m : Machine σ A κ ε) (s t : σ) : Prop := ∃ e, m.fire e s = some t

inductive Step (m : Machine σ A κ ε) (meets : σ → σ → Prop) : Config σ A κ → Config σ A κ → Prop
  | env {s t i c} : m.env s t → Step m meets ⟨s, i, c⟩ ⟨t, i, c⟩
  | interrupt {s c} : m.pending s = true → Step m meets ⟨s, none, c⟩ ⟨s, some m.handler, c⟩
  | irqAct {s u k c} : Step m meets ⟨s, some (.act u k), c⟩ ⟨u s, some (k s), c⟩
  | irqAsk {s i k c} (b : A i) : Step m meets ⟨s, some (.ask i k), c⟩ ⟨s, some (k b), c⟩
  | irqRet {s c} : Step m meets ⟨s, some (.ret ()), c⟩ ⟨s, none, c⟩
  | enter {s t k} : m.enter k s = some t →
      Step m meets ⟨s, none, before k⟩ ⟨t, none, within (m.body k)⟩
  | act {s u k} : meets s (u s) → Step m meets ⟨s, none, within (.act u k)⟩ ⟨u s, none, within (k s)⟩
  | ask {s i k} (b : A i) : Step m meets ⟨s, none, within (.ask i k)⟩ ⟨s, none, within (k b)⟩
  | ret {s k} : Step m meets ⟨s, none, within (.ret k)⟩ ⟨s, none, before k⟩

/-- The configurations that a run from `k` at `s` can be in, all steps meeting `meets`. -/
def Reaches (m : Machine σ A κ ε) (meets : σ → σ → Prop) (s : σ) (k : κ) (c : Config σ A κ) : Prop :=
  ReflTransGen (m.Step meets) ⟨s, none, before k⟩ c

def always : σ → σ → Prop := fun _ _ => True

theorem Step.mono {m : Machine σ A κ ε} {meets meets' : σ → σ → Prop}
    (h : ∀ s t, meets s t → meets' s t) {c d : Config σ A κ} (e : m.Step meets c d) : m.Step meets' c d := by
  cases e with
  | env e => exact .env e
  | interrupt hp => exact .interrupt hp
  | irqAct => exact .irqAct
  | irqAsk b => exact .irqAsk b
  | irqRet => exact .irqRet
  | enter he => exact .enter he
  | act hm => exact .act (h _ _ hm)
  | ask b => exact .ask b
  | ret => exact .ret

theorem Reaches.mono {m : Machine σ A κ ε} {meets meets' : σ → σ → Prop}
    (h : ∀ s t, meets s t → meets' s t) {s : σ} {k : κ} {c : Config σ A κ} (r : m.Reaches meets s k c) :
    m.Reaches meets' s k c :=
  ReflTransGen.mono (fun _ _ e => Step.mono h e) _ _ r

/-! ## Schedules -/

inductive Move {ι : Type} (A : ι → Type) (ε : Type) where
  | env (e : ε)
  | irq (answers : ∀ i, A i)
  | task (answers : ∀ i, A i)

def advance (m : Machine σ A κ ε) (check : σ → σ → Bool) :
    Move A ε → Config σ A κ → Option (Config σ A κ)
  | .env e, ⟨s, i, c⟩ => (m.fire e s).map fun t => ⟨t, i, c⟩
  | .irq _, ⟨s, none, c⟩ => if m.pending s then some ⟨s, some m.handler, c⟩ else none
  | .irq _, ⟨s, some (.act u k), c⟩ => some ⟨u s, some (k s), c⟩
  | .irq a, ⟨s, some (.ask i k), c⟩ => some ⟨s, some (k (a i)), c⟩
  | .irq _, ⟨s, some (.ret ()), c⟩ => some ⟨s, none, c⟩
  | .task _, ⟨_, some _, _⟩ => none
  | .task _, ⟨s, none, before k⟩ => (m.enter k s).map fun t => ⟨t, none, within (m.body k)⟩
  | .task _, ⟨s, none, within (.act u k)⟩ =>
      if check s (u s) then some ⟨u s, none, within (k s)⟩ else none
  | .task a, ⟨s, none, within (.ask i k)⟩ => some ⟨s, none, within (k (a i))⟩
  | .task _, ⟨s, none, within (.ret k)⟩ => some ⟨s, none, before k⟩

def schedule (m : Machine σ A κ ε) (check : σ → σ → Bool) :
    List (Move A ε) → Config σ A κ → Option (Config σ A κ)
  | [], c => some c
  | v :: vs, c => (m.advance check v c).bind (m.schedule check vs)

variable {m : Machine σ A κ ε} {check : σ → σ → Bool} {meets : σ → σ → Prop}

theorem step_of_advance (sound : ∀ s t, check s t = true → meets s t) {v : Move A ε}
    {c d : Config σ A κ} (h : m.advance check v c = some d) : m.Step meets c d := by
  rcases c with ⟨s, i, c⟩
  cases v with
  | env e =>
      obtain ⟨t, ht, rfl⟩ := Option.map_eq_some_iff.mp h
      exact .env ⟨e, ht⟩
  | irq a =>
      rcases i with _ | (⟨⟨⟩⟩ | ⟨u, k⟩ | ⟨i, k⟩)
      · simp only [advance, Option.ite_none_right_eq_some, Option.some.injEq] at h
        obtain ⟨hp, rfl⟩ := h
        exact .interrupt hp
      · obtain rfl := Option.some.inj h
        exact .irqRet
      · obtain rfl := Option.some.inj h
        exact .irqAct
      · obtain rfl := Option.some.inj h
        exact .irqAsk (a i)
  | task a =>
      rcases i with _ | p
      · rcases c with k | (k | ⟨u, k⟩ | ⟨i, k⟩)
        · obtain ⟨t, ht, rfl⟩ := Option.map_eq_some_iff.mp h
          exact .enter ht
        · obtain rfl := Option.some.inj h
          exact .ret
        · simp only [advance, Option.ite_none_right_eq_some, Option.some.injEq] at h
          obtain ⟨hc, rfl⟩ := h
          exact .act (sound _ _ hc)
        · obtain rfl := Option.some.inj h
          exact .ask (a i)
      · simp [advance] at h

theorem run_of_schedule (sound : ∀ s t, check s t = true → meets s t) {vs : List (Move A ε)}
    {c d : Config σ A κ} (h : m.schedule check vs c = some d) : ReflTransGen (m.Step meets) c d := by
  induction vs generalizing c with
  | nil =>
      obtain rfl := Option.some.inj h
      exact .refl
  | cons v vs ih =>
      obtain ⟨e, he, hd⟩ := Option.bind_eq_some_iff.mp h
      exact .head (step_of_advance sound he) (ih hd)

theorem reaches_of_schedule (check : σ → σ → Bool) (sound : ∀ s t, check s t = true → meets s t)
    {s : σ} {k : κ} (vs : List (Move A ε)) {test : Config σ A κ → Bool}
    (h : (m.schedule check vs ⟨s, none, before k⟩).any test = true) :
    ∃ c, m.Reaches meets s k c ∧ test c = true := by
  obtain ⟨c, hc, ht⟩ := (Option.any_eq_true _ _).mp h
  exact ⟨c, run_of_schedule sound hc, ht⟩

/-! ## Invariants -/

section Invariant

variable {irqGuar guar : σ → σ → Prop} {B : κ → σ → Prop} {I : σ → Prop}

def handlerSetting (m : Machine σ A κ ε) (irqGuar : σ → σ → Prop) : Setting σ where
  rely := m.env
  guar := irqGuar
  meets := always

def taskSetting (m : Machine σ A κ ε) (meets irqGuar guar : σ → σ → Prop) : Setting σ where
  rely s t := m.env s t ∨ irqGuar s t
  guar := guar
  meets := meets

/-- What a proof about the machine has to supply: what the handler and the task guarantee of each
of their actions, and what holds at each control point. -/
structure Proof (m : Machine σ A κ ε) (meets irqGuar guar : σ → σ → Prop) (B : κ → σ → Prop) :
    Prop where
  stable : ∀ k, Stable (fun s t => m.env s t ∨ irqGuar s t) (B k)
  handler : ∀ s, m.pending s = true →
    (m.handler).Safe (m.handlerSetting irqGuar) (fun _ _ => True) s
  body : ∀ k s t, B k s → m.enter k s = some t →
    (m.body k).Safe (m.taskSetting meets irqGuar guar) B t

def Control.Good (m : Machine σ A κ ε) (meets irqGuar guar : σ → σ → Prop) (B : κ → σ → Prop)
    (s : σ) : Control σ A κ → Prop
  | before k => B k s
  | within p => p.Safe (m.taskSetting meets irqGuar guar) B s

structure Good (m : Machine σ A κ ε) (meets irqGuar guar : σ → σ → Prop) (B : κ → σ → Prop)
    (c : Config σ A κ) : Prop where
  irq : ∀ p, c.irq = some p → p.Safe (m.handlerSetting irqGuar) (fun _ _ => True) c.shared
  control : c.control.Good m meets irqGuar guar B c.shared

theorem Control.Good.rely (h : Proof m meets irqGuar guar B) {s t : σ} {c : Control σ A κ}
    (hc : c.Good m meets irqGuar guar B s) (r : m.env s t ∨ irqGuar s t) :
    c.Good m meets irqGuar guar B t := by
  cases c with
  | before k => exact h.stable k r hc
  | within p => exact Prog.Safe.rely hc (.single r)

theorem Good.step (h : Proof m meets irqGuar guar B) {c d : Config σ A κ}
    (hc : Good m meets irqGuar guar B c) (e : m.Step meets c d) : Good m meets irqGuar guar B d := by
  obtain ⟨hirq, hctl⟩ := hc
  cases e with
  | env e => exact ⟨fun p hp => (hirq p hp).rely (.single e), hctl.rely h (.inl e)⟩
  | interrupt hp => exact ⟨fun _ hq => by cases hq; exact h.handler _ hp, hctl⟩
  | irqAct =>
      obtain ⟨kept, next⟩ := hirq _ rfl _ .refl trivial
      exact ⟨fun _ hq => by cases hq; exact next, hctl.rely h (.inr kept)⟩
  | irqAsk b => exact ⟨fun _ hq => by cases hq; exact hirq _ rfl _ .refl b, hctl⟩
  | irqRet => exact ⟨nofun, hctl⟩
  | enter he => exact ⟨nofun, h.body _ _ _ hctl he⟩
  | act hm => exact ⟨nofun, (hctl _ .refl hm).2⟩
  | ask b => exact ⟨nofun, hctl _ .refl b⟩
  | ret => exact ⟨nofun, hctl _ .refl⟩

theorem Proof.good (h : Proof m meets irqGuar guar B) {s : σ} {k : κ} (hs : B k s)
    {c : Config σ A κ} (r : m.Reaches meets s k c) : Good m meets irqGuar guar B c := by
  induction r with
  | refl => exact ⟨nofun, hs⟩
  | tail _ e ih => exact ih.step h e

theorem Proof.before (h : Proof m meets irqGuar guar B) {s t : σ} {k l : κ} (hs : B k s)
    {i : Option (Prog σ A Unit)} (r : m.Reaches meets s k ⟨t, i, before l⟩) : B l t :=
  (h.good hs r).control

theorem Proof.always (h : Proof m meets irqGuar guar B) {s : σ} {k : κ} (hs : B k s) (hI : I s)
    (env : Stable m.env I) (irq : Stable irqGuar I) (task : Stable guar I)
    (enter : ∀ l u t, B l u → I u → m.enter l u = some t → I t)
    {c : Config σ A κ} (r : m.Reaches meets s k c) : I c.shared := by
  induction r with
  | refl => exact hI
  | tail r e ih =>
      obtain ⟨hirq, hctl⟩ := h.good hs r
      cases e with
      | env e => exact env e ih
      | interrupt _ => exact ih
      | irqAct => exact irq (hirq _ rfl _ .refl trivial).1 ih
      | irqAsk b => exact ih
      | irqRet => exact ih
      | enter he => exact enter _ _ _ hctl ih he
      | act hm => exact task (hctl _ .refl hm).1 ih
      | ask b => exact ih
      | ret => exact ih

end Invariant

/-! ## The task left alone -/

section Alone

variable {ok : ∀ i, A i → Prop} {marks : σ → σ → Prop} {Q : σ → κ → σ → Prop}

theorem steps_of_exec {p : Prog σ A κ} {s t : σ} {k : κ} (e : p.Exec ok s k t) :
    ReflTransGen (m.Step always) ⟨s, none, within p⟩ ⟨t, none, before k⟩ := by
  induction e with
  | ret => exact .single .ret
  | act e ih => exact .head (.act trivial) ih
  | ask legal e ih => exact .head (.ask _) ih

theorem Reaches.endsAfter (body : ∀ k, (m.body k).EndsAfter ok marks Q) {s : σ} {k : κ} {c : Config σ A κ}
    (r : m.Reaches meets s k c) : ∀ p, c.control = within p → p.EndsAfter ok marks Q := by
  induction r with
  | refl => exact nofun
  | tail _ e ih =>
      intro p hp
      cases e with
      | env _ => exact ih p hp
      | interrupt _ => exact ih p hp
      | irqAct => exact ih p hp
      | irqAsk _ => exact ih p hp
      | irqRet => exact ih p hp
      | enter _ =>
          cases hp
          exact body _
      | act _ =>
          cases hp
          exact (ih _ rfl _).2
      | ask b =>
          cases hp
          exact ih _ rfl b
      | ret => cases hp

theorem Reaches.marked {irqGuar guar : σ → σ → Prop} {B : κ → σ → Prop} (h : Proof m meets irqGuar guar B)
    (oracle : Nat → ∀ i, A i) (legal : ∀ n i, ok i (oracle n i)) (body : ∀ k, (m.body k).EndsAfter ok marks Q)
    (same : ∀ s, ¬ marks s s) (env : ∀ s t, m.env s t → ¬ marks s t) (irq : ∀ s t, irqGuar s t → ¬ marks s t)
    (enter : ∀ k s t, m.enter k s = some t → ¬ marks s t) {s : σ} {k : κ} (hs : B k s) {c d : Config σ A κ}
    (r : m.Reaches meets s k c) (e : m.Step always c d) (hm : marks c.shared d.shared) :
    ∃ l t, ReflTransGen (m.Step always) d ⟨t, none, before l⟩ ∧ Q c.shared l t := by
  cases e with
  | env e => exact absurd hm (env _ _ e)
  | interrupt _ => exact absurd hm (same _)
  | irqAct => exact absurd hm (irq _ _ ((h.good hs r).irq _ rfl _ .refl trivial).1)
  | irqAsk _ => exact absurd hm (same _)
  | irqRet => exact absurd hm (same _)
  | enter he => exact absurd hm (enter _ _ _ he)
  | @act s u next _ =>
      have hends := (r.endsAfter body _ rfl s).1 hm
      have hexec := Prog.exec_run oracle legal 0 (next s) (u s)
      exact ⟨_, _, steps_of_exec hexec, Prog.ensures_iff.mp hends _ _ hexec⟩
  | ask _ => exact absurd hm (same _)
  | ret => exact absurd hm (same _)

end Alone

end Machine

end Interference
