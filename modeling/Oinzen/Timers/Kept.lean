import Oinzen.Timers.Runs

/-!
# What the timers keep

In every run in which the thread looks after its timers: no moment is lost or mixed up although the clock
wraps, a timer is in the list once unless its handler runs, and the thread sleeps until the first is due.
-/

namespace Oinzen.TcpipThread

open Agenda Interference

variable {s s' : TcpipThread} {p : Plan TimeoutHandler} {ds : List (Nat × TimeoutHandler)} {h : TimeoutHandler}

theorem run_attended (r : system.Run Attended s) :
    Planned s ∧ (Plan.system TimeoutHandler.interval).Run System.unrestricted s.plan := by
  have same : system.Run (fun s l => Attended s l ∧ System.unrestricted s l) s :=
    r.mono fun _ _ attended => ⟨attended, trivial⟩
  exact run_planned (fun _ _ _ _ => trivial) same

theorem Follows.runs (f : Follows s p ds) : (∃ d, p.running = some (h, d)) ↔ ∃ now, s.place = .inHandler now h := by
  have place := f.place
  cases here : s.place with
  | inHandler now g =>
      rw [here] at place
      obtain ⟨-, -, -, d, run, -⟩ := place
      rw [run]
      simp [eq_comm]
  | checking now =>
      rw [here] at place
      simp [place.1]
  | again | waiting | handling =>
      rw [here] at place
      have idle : p.running = none := place
      simp [idle]

theorem Follows.handlers (f : Follows s p ds) : s.timeouts.nextTimeout.map SysTimeo.h = ds.map Prod.snd := by
  rw [f.lists.list, List.map_map]
  rfl

theorem Follows.listed (f : Follows s p ds) {T : Nat} (time : p.OnTime h T) :
    h ∈ s.timeouts.nextTimeout.map SysTimeo.h ↔ ¬ ∃ now, s.place = .inHandler now h := by
  rw [f.handlers, mem_handlers, ← f.runs, ← time.planned_iff]
  exact exists_congr fun d => (f.due h d).symm

def booted : TcpipThread where
  clock := 4294966996
  timeouts := sysTimeoutsInit (fun _ => 4294966996) ⟨[], 0, false, memNumSysTimeout, false⟩
  pcbs := false
  place := .again
  checked := 4294966996
  started _ := 4294966996
  calls _ := 0

def called : TcpipThread where
  clock := 4294967496
  timeouts :=
    ⟨[⟨450, .tcpipTcpTimer⟩, ⟨700, .lwipCyclicTimer .ipReassTmr⟩, ⟨700, .lwipCyclicTimer .etharpTmr⟩,
      ⟨59700, .lwipCyclicTimer .dhcpCoarseTmr⟩], 200, true, 1, false⟩
  pcbs := true
  place := .inHandler 4294967496 (.lwipCyclicTimer .dhcpFineTmr)
  checked := 4294966996
  started _ := 4294966996
  calls := Function.update (Function.update (fun _ => 0) .tcpipTcpTimer 1) (.lwipCyclicTimer .dhcpFineTmr) 1

def served : TcpipThread :=
  { called with
    timeouts :=
      ⟨[⟨450, .tcpipTcpTimer⟩, ⟨700, .lwipCyclicTimer .ipReassTmr⟩, ⟨700, .lwipCyclicTimer .etharpTmr⟩,
        ⟨700, .lwipCyclicTimer .dhcpFineTmr⟩, ⟨59700, .lwipCyclicTimer .dhcpCoarseTmr⟩], 200, true, 0, false⟩
    place := .checking 4294967496 }

def rested : TcpipThread := { served with place := .again, checked := 4294967496 }

theorem booted_start : Start booted where
  order := by decide
  started _ := ⟨le_rfl, le_rfl⟩
  attended := by decide
  timers := rfl
  place := rfl
  pcbs := rfl
  calls _ := rfl

theorem called_run (c : CyclicTimer) : system.Run (fun s l => Attended s l ∧ InTime c s l) called := by
  have calm : ∀ {s : TcpipThread} {l : ThreadStep}, l ≠ .handlerEnd (.lwipCyclicTimer c) → InTime c s l :=
    fun other same => absurd same other
  have attended : Attended { booted with
      pcbs := true
      timeouts := tcpTimerNeeded (stamp booted.clock) true booted.timeouts } (.pass 500) := by
    change 4294966996 + 500 ≤ 4294966996 + 2 ^ 30
    decide
  have start : system.Run (fun s l => Attended s l ∧ InTime c s l) booted := .start booted_start
  have connected := start.step (l := ThreadStep.connect) ⟨trivial, calm (by simp)⟩ Step.connect
  have passed := connected.step (l := ThreadStep.pass 500) ⟨attended, calm (by simp)⟩ Step.pass
  have checking := passed.step (l := ThreadStep.sleep 0) ⟨trivial, calm (by simp)⟩ (by exact Step.check rfl rfl rfl)
  have ticking := checking.step (l := ThreadStep.call .tcpipTcpTimer) ⟨trivial, calm (by simp)⟩
    (by exact Step.call rfl rfl)
  have ticked := ticking.step (l := ThreadStep.handlerEnd .tcpipTcpTimer) ⟨trivial, calm (by simp)⟩
    (by exact Step.handlerEnd rfl)
  have called := ticked.step (l := ThreadStep.call (.lwipCyclicTimer .dhcpFineTmr)) ⟨trivial, calm (by simp)⟩
    (by exact Step.call rfl rfl)
  exact called

theorem called_ends : Step called (.handlerEnd (.lwipCyclicTimer .dhcpFineTmr)) served := Step.handlerEnd rfl

theorem served_run (c : CyclicTimer) : system.Run (fun s l => Attended s l ∧ InTime c s l) served := by
  refine (called_run c).step (l := ThreadStep.handlerEnd (.lwipCyclicTimer .dhcpFineTmr))
    ⟨trivial, fun same => ?_⟩ called_ends
  cases same
  rfl

theorem served_attended : system.Run Attended served := (served_run .dhcpFineTmr).mono fun _ _ attended => attended.1

theorem rested_attended : system.Run Attended rested :=
  served_attended.step (l := ThreadStep.finished 4294967496) trivial (by exact Step.finished rfl rfl)

/-- The pool has an entry for each timer; each timer is in the list once, or its handler runs; no handler is
called more often than its interval says. -/
theorem run_kept (r : system.Run Attended s) :
    s.timeouts.failed = false ∧ (s.timeouts.nextTimeout.map SysTimeo.h).Nodup ∧
      (∀ c, .lwipCyclicTimer c ∈ s.timeouts.nextTimeout.map SysTimeo.h ↔
        ¬ ∃ now, s.place = .inHandler now (.lwipCyclicTimer c)) ∧
      (s.pcbs = true → .tcpipTcpTimer ∈ s.timeouts.nextTimeout.map SysTimeo.h ∨
        ∃ now, s.place = .inHandler now .tcpipTcpTimer) ∧
      ∀ c, s.started c + s.calls (.lwipCyclicTimer c) * c.intervalMs.toNat ≤ s.clock := by
  obtain ⟨⟨ds, f⟩, plan⟩ := run_attended r
  have time : ∀ c : CyclicTimer, s.plan.OnTime (.lwipCyclicTimer c) c.intervalMs.toNat := fun c =>
    Plan.run_onTime plan rfl
  refine ⟨f.lists.failed, ?_, fun c => f.listed (time c), fun pcbs => ?_, fun c => (time c).calls⟩
  · rw [f.handlers]
    exact f.lists.distinct
  · rw [f.handlers, ← f.runs]
    exact f.active.mp (f.pcbs pcbs)

theorem run_kept_called : called.timeouts.failed = false ∧ (called.timeouts.nextTimeout.map SysTimeo.h).Nodup ∧
    .lwipCyclicTimer .dhcpFineTmr ∉ called.timeouts.nextTimeout.map SysTimeo.h ∧
    .lwipCyclicTimer .etharpTmr ∈ called.timeouts.nextTimeout.map SysTimeo.h ∧
    (.tcpipTcpTimer ∈ called.timeouts.nextTimeout.map SysTimeo.h ∨
      ∃ now, called.place = .inHandler now .tcpipTcpTimer) ∧
    4294966996 + 1 * 500 ≤ 4294967496 := by
  have run : system.Run Attended called := (called_run .dhcpFineTmr).mono fun _ _ attended => attended.1
  obtain ⟨failed, distinct, listed, tcp, calls⟩ := run_kept run
  have running : ∃ now, called.place = .inHandler now (.lwipCyclicTimer .dhcpFineTmr) := ⟨_, rfl⟩
  have idle : ¬ ∃ now, called.place = .inHandler now (.lwipCyclicTimer .etharpTmr) := by
    rintro ⟨now, ⟨⟩⟩
  exact ⟨failed, distinct, fun h => (listed .dhcpFineTmr).mp h running, (listed .etharpTmr).mpr idle, tcp rfl,
    calls .dhcpFineTmr⟩

/-- A timer whose handler always ends in time is due at the moments of its start plus multiples of its interval,
however late its handler is called. -/
theorem run_regular {c : CyclicTimer} (r : system.Run (fun s l => Attended s l ∧ InTime c s l) s) :
    ((¬ ∃ now, s.place = .inHandler now (.lwipCyclicTimer c)) → s.plan.due (.lwipCyclicTimer c) =
        some (s.started c + (s.calls (.lwipCyclicTimer c) + 1) * c.intervalMs.toNat)) ∧
      ((∃ now, s.place = .inHandler now (.lwipCyclicTimer c)) → s.plan.running =
        some (.lwipCyclicTimer c, s.started c + s.calls (.lwipCyclicTimer c) * c.intervalMs.toNat)) ∧
      ∀ e ∈ s.timeouts.nextTimeout, e.h = .lwipCyclicTimer c →
        e.time = stamp (s.started c + (s.calls (.lwipCyclicTimer c) + 1) * c.intervalMs.toNat) := by
  have follows : Planned s ∧
      (Plan.system TimeoutHandler.interval).Run (Plan.Prompt (.lwipCyclicTimer c) c.intervalMs.toNat) s.plan :=
    run_planned (fun f inTime step seen => f.prompt inTime step seen) r
  obtain ⟨⟨ds, f⟩, plan⟩ := follows
  have time : s.plan.OnTime (.lwipCyclicTimer c) c.intervalMs.toNat := Plan.run_onTime plan rfl
  have schedule := Plan.run_onSchedule plan rfl
  refine ⟨fun idle => ?_, fun runs => ?_, fun e he cyclic => ?_⟩
  · rw [← f.runs] at idle
    obtain ⟨d, due⟩ := time.planned_iff.mpr idle
    rw [due]
    exact congrArg some (schedule.planned d due)
  · obtain ⟨d, run⟩ := f.runs.mpr runs
    rw [run, schedule.running d run]
    rfl
  · rw [f.lists.list] at he
    obtain ⟨⟨d, h⟩, hx, rfl⟩ := List.mem_map.mp he
    have same : h = .lwipCyclicTimer c := cyclic
    subst same
    rw [entry, schedule.planned d ((f.due _ d).mpr hx)]
    rfl

theorem run_regular_served : served.plan.due (.lwipCyclicTimer .dhcpFineTmr) = some (4294966996 + (1 + 1) * 500) ∧
    (700 : UInt32) = stamp (4294966996 + (1 + 1) * 500) := by
  have idle : ¬ ∃ now, served.place = .inHandler now (.lwipCyclicTimer .dhcpFineTmr) := by
    rintro ⟨now, ⟨⟩⟩
  obtain ⟨due, -, stamps⟩ := run_regular (served_run .dhcpFineTmr)
  exact ⟨due idle, stamps ⟨700, .lwipCyclicTimer .dhcpFineTmr⟩ (by simp [served]) rfl⟩

/-- The thread sleeps until the first moment of the list, and not for longer than the longest interval. -/
theorem run_sleep (r : system.Run Attended s) (again : s.place = .again) :
    ∃ ds : List (Nat × TimeoutHandler), s.timeouts.nextTimeout = ds.map entry ∧
      (∀ x ∈ ds, s.checked ≤ x.1 ∧ x.1 ≤ s.clock + longest) ∧
      (∃ x ∈ ds, (sysTimeoutsSleeptime (stamp s.clock) s.timeouts).1.toNat = x.1 - s.clock) ∧
      ∀ x ∈ ds, (sysTimeoutsSleeptime (stamp s.clock) s.timeouts).1.toNat ≤ x.1 - s.clock := by
  obtain ⟨⟨ds, f⟩, plan⟩ := run_attended r
  have time : s.plan.OnTime (.lwipCyclicTimer .ipReassTmr) 1000 := Plan.run_onTime plan rfl
  have listed := (f.listed time).mpr (by simp [again])
  rw [f.handlers] at listed
  cases ds with
  | nil => cases listed
  | cons y ds =>
      obtain ⟨n, asked, wait⟩ := f.lists.sleeptime ⟨f.attended.1, Nat.le_add_right ..⟩ f.near
      rw [asked]
      refine ⟨y :: ds, f.lists.list, f.lists.window, ⟨y, List.mem_cons_self, wait⟩, fun x hx => ?_⟩
      have first := f.lists.first hx
      have least : n.toNat ≤ x.1 - s.clock := by omega
      exact least

theorem run_sleep_rested : (sysTimeoutsSleeptime (stamp 4294967496) rested.timeouts).1 = 250 ∧
    ∃ ds : List (Nat × TimeoutHandler), rested.timeouts.nextTimeout = ds.map entry ∧
      (∀ x ∈ ds, 4294967496 ≤ x.1 ∧ x.1 ≤ 4294967496 + longest) ∧ (∃ x ∈ ds, 250 = x.1 - 4294967496) ∧
      ∀ x ∈ ds, 250 ≤ x.1 - 4294967496 :=
  ⟨rfl, run_sleep rested_attended rfl⟩

end Oinzen.TcpipThread
