import Oinzen.Interference.System
import Mathlib.Algebra.GroupWithZero.Nat
import Mathlib.Data.List.Pairwise
import Mathlib.Data.UInt
import Mathlib.Logic.Function.Basic

/-!
# Plans

Things to do, each with the moment when it is due. One is done at a time, the one that is due first, and
none before it is due. Those with an interval are due again an interval later. A clock that wraps shows the
moments modulo `2 ^ 32`.
-/

namespace Agenda

open Interference

/-! ## A clock that wraps -/

section Clock

def stamp (t : Nat) : UInt32 := .ofNat t

def before (a b : UInt32) : Bool := a - b > 0x7fffffff

variable {a b : Nat}

theorem toNat_stamp (t : Nat) : (stamp t).toNat = t % 2 ^ 32 := UInt32.toNat_ofNat'

theorem stamp_add (a b : Nat) : stamp a + stamp b = stamp (a + b) := (UInt32.ofNat_add a b).symm

theorem stamp_sub (h : b ≤ a) : stamp a - stamp b = stamp (a - b) := by
  apply UInt32.toNat_inj.mp
  rw [UInt32.toNat_sub, toNat_stamp, toNat_stamp, toNat_stamp]
  omega

theorem before_stamp (near : a < b + 2 ^ 31) (near' : b ≤ a + 2 ^ 31) :
    before (stamp a) (stamp b) = decide (a < b) := by
  have diff : (stamp a - stamp b).toNat = (2 ^ 32 - b % 2 ^ 32 + a % 2 ^ 32) % 2 ^ 32 := by
    rw [UInt32.toNat_sub, toNat_stamp, toNat_stamp]
  have limit : (0x7fffffff : UInt32).toNat = 2 ^ 31 - 1 := rfl
  rw [before, decide_eq_decide, gt_iff_lt, UInt32.lt_iff_toNat_lt, diff, limit]
  omega

end Clock

/-! ## Lists in the order of their moments -/

section Queue

variable {H : Type} {x y : Nat × H} {ys : List (Nat × H)}

def enter (x : Nat × H) : List (Nat × H) → List (Nat × H)
  | [] => [x]
  | y :: ys => if x.1 < y.1 then x :: y :: ys else y :: enter x ys

def Sorted (ys : List (Nat × H)) : Prop := ys.Pairwise fun a b => a.1 ≤ b.1

theorem enter_perm (x : Nat × H) (ys : List (Nat × H)) : (enter x ys).Perm (x :: ys) := by
  induction ys with
  | nil => exact .refl _
  | cons y ys ih =>
      rw [enter]
      by_cases first : x.1 < y.1
      · rw [if_pos first]
      · rw [if_neg first]
        exact (ih.cons y).trans (.swap x y ys)

theorem mem_enter : y ∈ enter x ys ↔ y = x ∨ y ∈ ys := by rw [(enter_perm x ys).mem_iff, List.mem_cons]

theorem Sorted.enter (sorted : Sorted ys) : Sorted (enter x ys) := by
  induction ys with
  | nil => exact List.pairwise_singleton _ _
  | cons y ys ih =>
      obtain ⟨first, rest⟩ := List.pairwise_cons.mp sorted
      rw [Agenda.enter]
      by_cases less : x.1 < y.1
      · rw [if_pos less]
        refine List.pairwise_cons.mpr ⟨fun z hz => ?_, sorted⟩
        rcases List.mem_cons.mp hz with rfl | hz
        · omega
        · have := first z hz
          omega
      · rw [if_neg less]
        refine List.pairwise_cons.mpr ⟨fun z hz => ?_, ih rest⟩
        rcases mem_enter.mp hz with rfl | hz
        · omega
        · exact first z hz

end Queue

/-! ## Plans -/

structure Plan (H : Type) where
  clock : Nat
  due : H → Option Nat
  running : Option (H × Nat)
  begun : H → Nat
  calls : H → Nat

inductive Event (H : Type)
  | pass (d : Nat)
  | enter (h : H) (d : Nat)
  | call (h : H)
  | ended (h : H)
  | rest (now : Nat)

namespace Plan

variable {H : Type}

def renewed (T d clock : Nat) : Nat := if d + T < clock then clock + T else d + T

inductive Step [DecidableEq H] (interval : H → Option Nat) : Plan H → Event H → Plan H → Prop
  | pass {p d} : Step interval p (.pass d) { p with clock := p.clock + d }
  | enter {p h d} : p.due h = none → (∀ d', p.running ≠ some (h, d')) → interval h = none →
      Step interval p (.enter h d) { p with due := Function.update p.due h (some d) }
  | call {p h d} : p.running = none → p.due h = some d → d ≤ p.clock → (∀ h' d', p.due h' = some d' → d ≤ d') →
      Step interval p (.call h)
        { p with
          due := Function.update p.due h none
          running := some (h, d)
          calls := Function.update p.calls h (p.calls h + 1) }
  | again {p h d T} : p.running = some (h, d) → interval h = some T →
      Step interval p (.ended h)
        { p with due := Function.update p.due h (some (renewed T d p.clock)), running := none }
  | ended {p h d next} : p.running = some (h, d) → interval h = none →
      Step interval p (.ended h) { p with due := Function.update p.due h next, running := none }
  | rest {p now} : now ≤ p.clock → (∀ h d, p.due h = some d → now < d) → Step interval p (.rest now) p

def Moves [DecidableEq H] (interval : H → Option Nat) (p : Plan H) : Option (Event H) → Plan H → Prop
  | none, p' => p' = p
  | some e, p' => Step interval p e p'

structure Start (interval : H → Option Nat) (p : Plan H) : Prop where
  idle : p.running = none
  fresh : ∀ h, p.calls h = 0
  begun : ∀ h, p.begun h ≤ p.clock
  planned : ∀ h T, interval h = some T → p.due h = some (p.begun h + T)

def system [DecidableEq H] (interval : H → Option Nat) : System (Plan H) (Event H) := ⟨Start interval, Step interval⟩

variable {interval : H → Option Nat} {p p' : Plan H} {h : H} {T : Nat} {e : Event H}

/-- A thing with an interval is planned or being done, and it was not done more often than its interval
allows. -/
structure OnTime (p : Plan H) (h : H) (T : Nat) : Prop where
  kept : (∃ d, p.due h = some d ∧ p.begun h + (p.calls h + 1) * T ≤ d ∧ ∀ d', p.running ≠ some (h, d')) ∨
    ∃ d, p.running = some (h, d) ∧ p.begun h + p.calls h * T ≤ d ∧ p.due h = none
  calls : p.begun h + p.calls h * T ≤ p.clock

theorem le_renewed (T d clock : Nat) : d + T ≤ renewed T d clock := by
  rw [renewed]
  split <;> omega

theorem Start.onTime (start : Start interval p) (per : interval h = some T) : p.OnTime h T := by
  have calls : p.begun h + p.calls h * T ≤ p.clock := by
    rw [start.fresh, Nat.zero_mul]
    exact start.begun h
  refine ⟨Or.inl ⟨_, start.planned h T per, ?_, ?_⟩, calls⟩
  · rw [start.fresh, Nat.zero_add, Nat.one_mul]
  · rw [start.idle]
    exact fun _ => by simp

theorem OnTime.planned_iff (time : p.OnTime h T) : (∃ d, p.due h = some d) ↔ ¬ ∃ d, p.running = some (h, d) := by
  rcases time.kept with ⟨d, due, -, idle⟩ | ⟨d, run, -, none_due⟩
  · exact ⟨fun _ ⟨d', run⟩ => idle d' run, fun _ => ⟨d, due⟩⟩
  · constructor
    · rintro ⟨d', due⟩
      rw [none_due] at due
      cases due
    · exact fun idle => absurd ⟨d, run⟩ idle

def Prompt (h : H) (T : Nat) (p : Plan H) (e : Event H) : Prop := e = .ended h → ∀ d, p.running = some (h, d) →
    p.clock ≤ d + T

structure OnSchedule (p : Plan H) (h : H) (T : Nat) : Prop where
  planned : ∀ d, p.due h = some d → d = p.begun h + (p.calls h + 1) * T
  running : ∀ d, p.running = some (h, d) → d = p.begun h + p.calls h * T

theorem Start.onSchedule (start : Start interval p) (per : interval h = some T) : p.OnSchedule h T := by
  constructor
  · intro d hd
    rw [start.planned h T per] at hd
    cases hd
    rw [start.fresh, Nat.zero_add, Nat.one_mul]
  · intro d hd
    rw [start.idle] at hd
    cases hd

variable [DecidableEq H]

theorem Step.onTime (step : Step interval p e p') (per : interval h = some T) (time : p.OnTime h T) :
    p'.OnTime h T := by
  obtain ⟨kept, calls⟩ := time
  cases step with
  | pass => exact ⟨kept, Nat.le_add_right_of_le calls⟩
  | rest => exact ⟨kept, calls⟩
  | @enter h' d absent idle once =>
      have other : h ≠ h' := by
        rintro rfl
        rw [per] at once
        cases once
      refine ⟨?_, calls⟩
      simpa only [Function.update_of_ne other] using kept
  | @call h' d idle planned due first =>
      by_cases same : h = h'
      · subst same
        rcases kept with ⟨d', planned', late, -⟩ | ⟨d', run, -⟩
        · rw [planned] at planned'
          cases planned'
          refine ⟨Or.inr ⟨d, rfl, ?_, Function.update_self ..⟩, ?_⟩
          · simpa only [Function.update_self] using late
          · simp only [Function.update_self]
            omega
        · rw [idle] at run
          cases run
      · rcases kept with ⟨d', planned', late, -⟩ | ⟨d', run, -⟩
        · refine ⟨Or.inl ⟨d', ?_, ?_, ?_⟩, ?_⟩
          · simpa only [Function.update_of_ne same] using planned'
          · simpa only [Function.update_of_ne same] using late
          · rintro d'' ⟨⟩
            exact same rfl
          · simpa only [Function.update_of_ne same] using calls
        · rw [idle] at run
          cases run
  | @again h' d T' run per' =>
      by_cases same : h = h'
      · subst same
        rw [per] at per'
        cases per'
        have later := le_renewed T d p.clock
        rcases kept with ⟨d', -, -, free⟩ | ⟨d', run', late, -⟩
        · exact absurd run (free d)
        · rw [run] at run'
          cases run'
          refine ⟨Or.inl ⟨renewed T d p.clock, Function.update_self .., ?_, fun _ => by simp⟩, calls⟩
          simp only [Nat.add_mul, Nat.one_mul]
          omega
      · rcases kept with ⟨d', planned', late, -⟩ | ⟨d', run', -⟩
        · exact ⟨Or.inl ⟨d', by simpa only [Function.update_of_ne same] using planned', late, fun _ => by simp⟩, calls⟩
        · rw [run] at run'
          cases run'
          exact absurd rfl same
  | @ended h' d next run once =>
      have other : h ≠ h' := by
        rintro rfl
        rw [per] at once
        cases once
      rcases kept with ⟨d', planned', late, -⟩ | ⟨d', run', -⟩
      · exact ⟨Or.inl ⟨d', by simpa only [Function.update_of_ne other] using planned', late, fun _ => by simp⟩, calls⟩
      · rw [run] at run'
        cases run'
        exact absurd rfl other

theorem run_onTime {cond : Plan H → Event H → Prop} (r : (system interval).Run cond p) (per : interval h = some T) :
    p.OnTime h T :=
  r.invariant (I := fun p => p.OnTime h T) (fun _ (start : Start interval _) => start.onTime per)
    fun _ _ _ _ time _ (step : Step interval _ _ _) => step.onTime per time

theorem Step.onSchedule (step : Step interval p e p') (per : interval h = some T) (prompt : Prompt h T p e)
    (time : p.OnSchedule h T) : p'.OnSchedule h T := by
  obtain ⟨planned, running⟩ := time
  cases step with
  | pass => exact ⟨planned, running⟩
  | rest => exact ⟨planned, running⟩
  | @enter h' d absent idle once =>
      have other : h ≠ h' := by
        rintro rfl
        rw [per] at once
        cases once
      refine ⟨fun d' hd => planned d' ?_, running⟩
      simpa only [Function.update_of_ne other] using hd
  | @call h' d idle isDue due first' =>
      by_cases same : h = h'
      · subst same
        refine ⟨fun d' hd => ?_, fun d' hd => ?_⟩
        · simp only [Function.update_self] at hd
          cases hd
        · cases hd
          simpa only [Function.update_self] using planned d isDue
      · refine ⟨fun d' hd => ?_, fun d' hd => ?_⟩
        · simp only [Function.update_of_ne same] at hd ⊢
          exact planned d' hd
        · cases hd
          exact absurd rfl same
  | @again h' d T' run per' =>
      refine ⟨fun d' hd => ?_, fun d' hd => by cases hd⟩
      by_cases same : h = h'
      · subst same
        rw [per] at per'
        cases per'
        have intime : ¬ d + T < p.clock := Nat.not_lt.mpr (prompt rfl d run)
        have here := running d run
        simp only [Function.update_self, renewed, if_neg intime] at hd
        cases hd
        simp only [Nat.add_mul, Nat.one_mul]
        omega
      · simp only [Function.update_of_ne same] at hd
        exact planned d' hd
  | @ended h' d next run once =>
      have other : h ≠ h' := by
        rintro rfl
        rw [per] at once
        cases once
      refine ⟨fun d' hd => ?_, fun d' hd => by cases hd⟩
      simp only [Function.update_of_ne other] at hd
      exact planned d' hd

theorem run_onSchedule (r : (system interval).Run (Prompt h T) p) (per : interval h = some T) : p.OnSchedule h T :=
  r.invariant (I := fun p => p.OnSchedule h T) (fun _ (start : Start interval _) => start.onSchedule per)
    fun _ _ _ _ time prompt (step : Step interval _ _ _) => step.onSchedule per prompt time

end Plan

end Agenda
