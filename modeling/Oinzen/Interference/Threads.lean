import Mathlib.Logic.Function.Basic
import Oinzen.Interference.System

/-!
# Two threads and a lock

Each thread runs a program of its own on the shared state, one action at a time, and gets its own
answers. A run in which no step of one thread conflicts with what the other has done before is as good
as one in which that thread runs to its end before the other begins.
-/

namespace Interference

open Prog

inductive Side
  | left | right
  deriving DecidableEq

def Side.other : Side → Side
  | left => right
  | right => left

inductive LockOp
  | take | give | none

def LockOp.apply (d : Side) : LockOp → Option Side → Option (Option Side)
  | take, some _ => Option.none
  | take, Option.none => some (some d)
  | give, _ => some Option.none
  | none, holder => some holder

structure Action (σ : Type) {ι : Type} (A : ι → Type) where
  update : σ → σ
  next : σ → Prog σ A Unit

structure Thread (σ : Type) {ι : Type} (A : ι → Type) where
  code : Prog σ A Unit
  asked : Nat
  taken : List (Action σ A)

structure Threads (σ : Type) {ι : Type} (A : ι → Type) where
  lock : ι → LockOp
  code : Side → Prog σ A Unit
  answers : Side → Nat → ∀ i, A i

variable {σ ι : Type} {A : ι → Type}

structure Action.Independent (a b : Action σ A) : Prop where
  commute : ∀ s, a.update (b.update s) = b.update (a.update s)
  left : ∀ s, a.next (b.update s) = a.next s
  right : ∀ s, b.next (a.update s) = b.next s

theorem Action.Independent.symm {a b : Action σ A} (h : a.Independent b) : b.Independent a :=
  ⟨fun s => (h.commute s).symm, h.right, h.left⟩

namespace Threads

structure Config (σ : Type) {ι : Type} (A : ι → Type) where
  shared : σ
  holder : Option Side
  thread : Side → Thread σ A

def ended (th : Thread σ A) : Bool :=
  match th.code with
  | .ret _ => true
  | _ => false

def Config.finished (c : Config σ A) : Bool := ended (c.thread .left) && ended (c.thread .right)

theorem Config.finished_code {c : Config σ A} (h : c.finished = true) (d : Side) : (c.thread d).code = .ret () := by
  have hended : ended (c.thread d) = true := by
    obtain ⟨hleft, hright⟩ := Bool.and_eq_true_iff.mp h
    cases d
    · exact hleft
    · exact hright
  unfold ended at hended
  split at hended
  · assumption
  · cases hended

def initial (t : Threads σ A) (s : σ) : Config σ A := ⟨s, none, fun d => ⟨t.code d, 0, []⟩⟩

def advance (t : Threads σ A) (d : Side) (c : Config σ A) : Option (Config σ A) :=
  match (c.thread d).code with
  | .ret _ => none
  | .act u k =>
      some ⟨u c.shared, c.holder,
        Function.update c.thread d ⟨k c.shared, (c.thread d).asked, ⟨u, k⟩ :: (c.thread d).taken⟩⟩
  | .ask i k => ((t.lock i).apply d c.holder).map fun holder =>
      ⟨c.shared, holder, Function.update c.thread d
        ⟨k (t.answers d (c.thread d).asked i), (c.thread d).asked + 1, (c.thread d).taken⟩⟩

def system (t : Threads σ A) (s : σ) : System (Config σ A) Side where
  start := (· = t.initial s)
  step c d c' := t.advance d c = some c'

def result (t : Threads σ A) (d : Side) (s : σ) : σ := (run (t.answers d) 0 (t.code d) s).2

def play (t : Threads σ A) : List Side → Config σ A → Option (Config σ A)
  | [], c => some c
  | d :: ds, c => (t.advance d c).bind (t.play ds)

variable {t : Threads σ A} {s : σ} {c c' : Config σ A} {cond : Config σ A → Side → Prop}

def Leads (t : Threads σ A) (P : Side → Config σ A → Prop) (c : Config σ A) (d : Side) : Prop :=
  ∀ c', t.advance d c = some c' → P d c'

def playing (t : Threads σ A) (P : Side → Config σ A → Prop) [∀ d c, Decidable (P d c)] :
    List Side → Config σ A → Option (Config σ A)
  | [], c => some c
  | d :: ds, c => (t.advance d c).bind fun c' => if P d c' then t.playing P ds c' else none

theorem run_of_playing {P : Side → Config σ A → Prop} [∀ d c, Decidable (P d c)] {ds : List Side}
    (r : (t.system s).Run (t.Leads P) c) (h : t.playing P ds c = some c') : (t.system s).Run (t.Leads P) c' := by
  induction ds generalizing c with
  | nil => exact Option.some.inj h ▸ r
  | cons d ds ih =>
      obtain ⟨c1, hadvance, h⟩ := Option.bind_eq_some_iff.mp h
      split at h
      · rename_i hP
        refine ih (r.step (fun c2 h2 => ?_) hadvance) h
        obtain rfl := Option.some.inj (hadvance.symm.trans h2)
        exact hP
      · cases h

theorem run_of_play {ds : List Side} (hcond : ∀ d ∈ ds, ∀ c, cond c d) (r : (t.system s).Run cond c)
    (h : t.play ds c = some c') : (t.system s).Run cond c' := by
  induction ds generalizing c with
  | nil => exact Option.some.inj h ▸ r
  | cons d ds ih =>
      obtain ⟨hd, hds⟩ := List.forall_mem_cons.mp hcond
      obtain ⟨c1, hadvance, h⟩ := Option.bind_eq_some_iff.mp h
      exact ih hds (r.step (hd c) hadvance) h

/-! ## One thread alone -/

inductive Alone (answers : Nat → ∀ i, A i) (p : Prog σ A Unit) (s : σ) : Thread σ A → σ → Prop
  | start : Alone answers p s ⟨p, 0, []⟩ s
  | act {th m} {a : Action σ A} : Alone answers p s th m → th.code = .act a.update a.next →
      Alone answers p s ⟨a.next m, th.asked, a :: th.taken⟩ (a.update m)
  | ask {th m i k} : Alone answers p s th m → th.code = .ask i k →
      Alone answers p s ⟨k (answers th.asked i), th.asked + 1, th.taken⟩ m

variable {answers : Nat → ∀ i, A i} {p : Prog σ A Unit} {m : σ} {th : Thread σ A}

theorem Alone.run (h : Alone answers p s th m) : run answers th.asked th.code m = run answers 0 p s := by
  induction h with
  | start => rfl
  | act _ hcode ih | ask _ hcode ih => exact (hcode ▸ ih :)

theorem Alone.result {d : Side} (h : Alone (t.answers d) (t.code d) s th m) (hend : th.code = .ret ()) :
    m = t.result d s := by
  have hrun := h.run
  rw [hend] at hrun
  exact congrArg Prod.snd hrun

/-! ## Conflicts -/

theorem Alone.after {a : Action σ A} (h : Alone answers p s th m) (hind : ∀ b ∈ th.taken, a.Independent b) :
    Alone answers p (a.update s) th (a.update m) ∧ a.next m = a.next s := by
  induction h with
  | start => exact ⟨.start, rfl⟩
  | @act th m b _ hcode ih =>
      obtain ⟨halone, hnext⟩ := ih fun b hb => hind b (List.mem_cons_of_mem _ hb)
      have hb : a.Independent b := hind b List.mem_cons_self
      have hact := halone.act hcode
      rw [hb.right m, ← hb.commute m] at hact
      exact ⟨hact, (hb.left m).trans hnext⟩
  | ask _ hcode ih =>
      obtain ⟨halone, hnext⟩ := ih hind
      exact ⟨halone.ask hcode, hnext⟩

def InOrder (first : Side) (c : Config σ A) (d : Side) : Prop :=
  d = first → ∀ a : Action σ A, (c.thread first).code = .act a.update a.next →
    ∀ b ∈ (c.thread first.other).taken, a.Independent b

/-- The other thread could have run from where the first one has come to. -/
def Sorted (t : Threads σ A) (first : Side) (s : σ) (c : Config σ A) : Prop :=
  ∃ m, Alone (t.answers first) (t.code first) s (c.thread first) m ∧
    Alone (t.answers first.other) (t.code first.other) m (c.thread first.other) c.shared

variable {first d : Side}

theorem other_ne (d : Side) : d.other ≠ d := by cases d <;> nofun

theorem eq_or_other (first d : Side) : d = first ∨ d = first.other := by
  cases d <;> cases first <;> simp [Side.other]

theorem step_cases (h : t.advance d c = some c') :
    (∃ a : Action σ A, (c.thread d).code = .act a.update a.next ∧ c'.shared = a.update c.shared ∧ c'.thread =
      Function.update c.thread d ⟨a.next c.shared, (c.thread d).asked, a :: (c.thread d).taken⟩) ∨
    ∃ i k, (c.thread d).code = .ask i k ∧ c'.shared = c.shared ∧ c'.thread =
      Function.update c.thread d
        ⟨k (t.answers d (c.thread d).asked i), (c.thread d).asked + 1, (c.thread d).taken⟩ := by
  unfold advance at h
  cases hcode : (c.thread d).code with
  | ret => simp [hcode] at h
  | act u k =>
      simp only [hcode, Option.some.injEq] at h
      subst h
      exact .inl ⟨⟨u, k⟩, rfl, rfl, rfl⟩
  | ask i k =>
      simp only [hcode, Option.map_eq_some_iff] at h
      obtain ⟨holder, -, rfl⟩ := h
      exact .inr ⟨i, k, rfl, rfl, rfl⟩

theorem thread_other (h : t.advance d c = some c') : c'.thread d.other = c.thread d.other := by
  rcases step_cases h with ⟨_, -, -, hthread⟩ | ⟨_, _, -, -, hthread⟩ <;>
    rw [hthread, Function.update_of_ne (other_ne d)]

theorem Alone.advance (alone : Alone (t.answers d) (t.code d) s (c.thread d) c.shared) (h : t.advance d c = some c') :
    Alone (t.answers d) (t.code d) s (c'.thread d) c'.shared := by
  rcases step_cases h with ⟨a, hcode, hshared, hthread⟩ | ⟨i, k, hcode, hshared, hthread⟩ <;>
    rw [hshared, hthread, Function.update_self]
  · exact alone.act hcode
  · exact alone.ask hcode

theorem Sorted.step (h : t.Sorted first s c) (horder : InOrder first c d) (hstep : t.advance d c = some c') :
    t.Sorted first s c' := by
  obtain ⟨m, hfirst, hother⟩ := h
  have hne := other_ne first
  rcases step_cases hstep with ⟨a, hcode, hshared, hthread⟩ | ⟨i, k, hcode, hshared, hthread⟩ <;>
    rw [Sorted, hshared, hthread]
  · rcases eq_or_other first d with rfl | rfl
    · obtain ⟨hafter, hnext⟩ := hother.after (horder rfl a hcode)
      refine ⟨a.update m, ?_, ?_⟩
      · rw [Function.update_self, hnext]
        exact hfirst.act hcode
      · rwa [Function.update_of_ne hne]
    · refine ⟨m, ?_, ?_⟩
      · rwa [Function.update_of_ne hne.symm]
      · rw [Function.update_self]
        exact hother.act hcode
  · rcases eq_or_other first d with rfl | rfl
    · refine ⟨m, ?_, ?_⟩
      · rw [Function.update_self]
        exact hfirst.ask hcode
      · rwa [Function.update_of_ne hne]
    · refine ⟨m, ?_, ?_⟩
      · rwa [Function.update_of_ne hne.symm]
      · rw [Function.update_self]
        exact hother.ask hcode

theorem Sorted.finished (h : t.Sorted first s c) (hend : c.finished = true) :
    c.shared = t.result first.other (t.result first s) := by
  obtain ⟨m, hfirst, hother⟩ := h
  rw [hother.result (c.finished_code hend _), hfirst.result (c.finished_code hend _)]

end Threads

end Interference
