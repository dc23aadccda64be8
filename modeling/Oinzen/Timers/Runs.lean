import Oinzen.Timers.Timeouts

/-!
# The timers in runs of the thread

The list of timeouts is a plan: with stamps in place of moments, in their order. The pool never runs out.
-/

namespace Oinzen

open Agenda Interference

variable {t t' : Timeouts} {ds : List (Nat × TimeoutHandler)} {lo hi d now : Nat} {h : TimeoutHandler}

def TimeoutHandler.all : List TimeoutHandler :=
  [.tcpipTcpTimer, .lwipCyclicTimer .ipReassTmr, .lwipCyclicTimer .etharpTmr, .lwipCyclicTimer .dhcpCoarseTmr,
    .lwipCyclicTimer .dhcpFineTmr]

theorem mem_all (h : TimeoutHandler) : h ∈ TimeoutHandler.all := by
  rcases h with _ | c
  · decide
  · cases c <;> decide

def longest : Nat := 60000

/-! ## The list -/

def entry (x : Nat × TimeoutHandler) : SysTimeo := ⟨stamp x.1, x.2⟩

structure Lists (t : Timeouts) (lo hi : Nat) (ds : List (Nat × TimeoutHandler)) : Prop where
  list : t.nextTimeout = ds.map entry
  sorted : Sorted ds
  window : ∀ x ∈ ds, lo ≤ x.1 ∧ x.1 ≤ hi
  distinct : (ds.map Prod.snd).Nodup
  pool : t.free + ds.length = memNumSysTimeout
  failed : t.failed = false

theorem timeLessThan_stamp {a b : Nat} (near : a < b + 2 ^ 31) (near' : b ≤ a + 2 ^ 31) :
    timeLessThan (stamp a) (stamp b) = decide (a < b) := before_stamp near near'

theorem insertTimeout_entries (x : Nat × TimeoutHandler) (window : ∀ y ∈ ds, lo ≤ y.1 ∧ y.1 ≤ hi)
    (hx : lo ≤ x.1 ∧ x.1 ≤ hi) (near : hi < lo + 2 ^ 31) :
      insertTimeout (entry x) (ds.map entry) = (enter x ds).map entry := by
  induction ds with
  | nil => rfl
  | cons y ds ih =>
      obtain ⟨hy, rest⟩ := List.forall_mem_cons.mp window
      have order : timeLessThan (entry x).time (entry y).time = decide (x.1 < y.1) :=
        timeLessThan_stamp (by omega) (by omega)
      rw [List.map_cons, insertTimeout, order, enter]
      by_cases less : x.1 < y.1
      · rw [if_pos (by simpa using less), if_pos less]
        rfl
      · rw [if_neg (by simpa using less), if_neg less, ih rest]
        rfl

theorem Lists.room (l : Lists t lo hi ds) (absent : h ∉ ds.map Prod.snd) : t.free ≠ 0 := by
  have distinct : (h :: ds.map Prod.snd).Nodup := List.nodup_cons.mpr ⟨absent, l.distinct⟩
  have few := (distinct.subperm fun g _ => mem_all g).length_le
  have pool := l.pool
  have five : TimeoutHandler.all.length = memNumSysTimeout := rfl
  rw [List.length_cons, List.length_map, five] at few
  omega

theorem Lists.enter (l : Lists t lo hi ds) (absent : h ∉ ds.map Prod.snd) (hd : lo ≤ d ∧ d ≤ hi)
    (near : hi < lo + 2 ^ 31) : Lists (sysTimeoutAbs (stamp d) h t) lo hi (enter (d, h) ds) := by
  have room := l.room absent
  have perm := enter_perm (d, h) ds
  rw [sysTimeoutAbs, if_neg room]
  refine ⟨?_, l.sorted.enter, fun x hx => ?_, ?_, ?_, l.failed⟩
  · have inserted := insertTimeout_entries (d, h) l.window hd near
    simp only [l.list, ← inserted, entry]
  · rcases mem_enter.mp hx with rfl | hx
    · exact hd
    · exact l.window x hx
  · rw [(perm.map Prod.snd).nodup_iff, List.map_cons]
    exact List.nodup_cons.mpr ⟨absent, l.distinct⟩
  · have pool := l.pool
    simp only [perm.length_eq, List.length_cons]
    omega

theorem Lists.mono {lo' hi' : Nat} (l : Lists t lo hi ds) (hlo : ∀ x ∈ ds, lo' ≤ x.1) (hhi : hi ≤ hi') :
    Lists t lo' hi' ds :=
  { l with window := fun x hx => ⟨hlo x hx, (l.window x hx).2.trans hhi⟩ }

theorem Lists.first {x y : Nat × TimeoutHandler} (l : Lists t lo hi (y :: ds)) (hx : x ∈ y :: ds) : y.1 ≤ x.1 := by
  rcases List.mem_cons.mp hx with rfl | hx
  · exact le_rfl
  · exact (List.pairwise_cons.mp l.sorted).1 x hx

theorem Lists.rest (l : Lists t lo hi ds) (hnow : lo ≤ now ∧ now ≤ hi) (near : hi < lo + 2 ^ 31)
    (taken : takeTimeout (stamp now) t = none) : ∀ x ∈ ds, now < x.1 := by
  cases ds with
  | nil => exact fun x hx => by cases hx
  | cons y ds =>
      have hy := l.window y List.mem_cons_self
      have order : timeLessThan (stamp now) (entry y).time = decide (now < y.1) :=
        timeLessThan_stamp (by omega) (by omega)
      rw [takeTimeout, l.list, List.map_cons] at taken
      by_cases later : now < y.1
      · intro x hx
        exact Nat.lt_of_lt_of_le later (l.first hx)
      · simp [order, later] at taken

theorem Lists.take (l : Lists t lo hi ds) (hnow : lo ≤ now ∧ now ≤ hi) (near : hi < lo + 2 ^ 31)
    (taken : takeTimeout (stamp now) t = some (h, t')) :
    ∃ d ds', ds = (d, h) :: ds' ∧ d ≤ now ∧ Lists t' lo hi ds' ∧ t'.currentTimeoutDueTime = stamp d ∧
      t'.tcpipTcpTimerActive = t.tcpipTcpTimerActive := by
  cases ds with
  | nil =>
      rw [takeTimeout, l.list] at taken
      cases taken
  | cons y ds =>
      have hy := l.window y List.mem_cons_self
      have order : timeLessThan (stamp now) (entry y).time = decide (now < y.1) :=
        timeLessThan_stamp (by omega) (by omega)
      have pool := l.pool
      rw [List.length_cons] at pool
      rw [takeTimeout, l.list, List.map_cons] at taken
      by_cases later : now < y.1
      · simp [order, later] at taken
      · simp only [order, later, decide_false, Bool.false_eq_true, if_false, Option.some.injEq, Prod.mk.injEq] at taken
        obtain ⟨rfl, rfl⟩ := taken
        refine ⟨y.1, ds, rfl, Nat.le_of_not_lt later, ⟨rfl, (List.pairwise_cons.mp l.sorted).2, fun x hx => ?_, ?_, ?_,
          l.failed⟩, rfl, rfl⟩
        · exact l.window x (List.mem_cons_of_mem _ hx)
        · exact (List.nodup_cons.mp l.distinct).2
        · simp only
          omega

theorem sysTimeout_stamp {msecs : UInt32} (small : msecs ≤ lwipUint32Max / 4) :
    sysTimeout (stamp now) msecs h t = sysTimeoutAbs (stamp (now + msecs.toNat)) h t := by
  have time : stamp now + msecs = stamp (now + msecs.toNat) := by
    rw [← stamp_add, stamp, stamp, UInt32.ofNat_toNat]
  rw [sysTimeout, time, decide_eq_true small, Bool.not_true, Bool.or_false]

theorem Lists.enter_rest (l : Lists t lo hi ds) (absent : h ∉ ds.map Prod.snd) (time : UInt32) :
    (sysTimeoutAbs time h t).currentTimeoutDueTime = t.currentTimeoutDueTime ∧
      (sysTimeoutAbs time h t).tcpipTcpTimerActive = t.tcpipTcpTimerActive := by
  rw [sysTimeoutAbs, if_neg (l.room absent)]
  exact ⟨rfl, rfl⟩

theorem Lists.sleeptime {y : Nat × TimeoutHandler} (l : Lists t lo hi (y :: ds)) (hnow : lo ≤ now ∧ now ≤ hi)
    (near : hi < lo + 2 ^ 31) : ∃ n, sysTimeoutsSleeptime (stamp now) t = (n, t) ∧ n.toNat = y.1 - now := by
  have hy := l.window y List.mem_cons_self
  have order : timeLessThan (entry y).time (stamp now) = decide (y.1 < now) :=
    timeLessThan_stamp (by omega) (by omega)
  rw [sysTimeoutsSleeptime, l.list, List.map_cons]
  simp only [order]
  by_cases early : y.1 < now
  · rw [if_pos (by simpa using early)]
    exact ⟨0, rfl, by rw [UInt32.toNat_zero]; omega⟩
  · have wait : (entry y).time - stamp now = stamp (y.1 - now) := stamp_sub (by omega)
    have e : lwipMaxTimeout.toNat = 2 ^ 31 - 1 := rfl
    have exact_wait : (stamp (y.1 - now)).toNat = y.1 - now := by
      rw [toNat_stamp]
      omega
    have short : stamp (y.1 - now) ≤ lwipMaxTimeout := by
      rw [UInt32.le_iff_toNat_le]
      omega
    rw [if_neg (by simpa using early)]
    simp only [wait, decide_eq_true short, Bool.not_true, Bool.or_false]
    exact ⟨_, by rw [← List.map_cons, ← l.list], exact_wait⟩

theorem Lists.sleeps (l : Lists t lo hi ds) (hnow : lo ≤ now ∧ now ≤ hi) (near : hi < lo + 2 ^ 31) :
    (sysTimeoutsSleeptime (stamp now) t).2 = t ∧
      ((sysTimeoutsSleeptime (stamp now) t).1 ≠ 0 → ∀ x ∈ ds, now < x.1) := by
  cases ds with
  | nil =>
      rw [sysTimeoutsSleeptime, l.list]
      exact ⟨rfl, fun _ x hx => by cases hx⟩
  | cons y ds =>
      obtain ⟨n, asked, wait⟩ := l.sleeptime hnow near
      rw [asked]
      refine ⟨rfl, fun some_wait x hx => ?_⟩
      have first := l.first hx
      have positive : n.toNat ≠ 0 := fun h => some_wait (UInt32.toNat_inj.mp h)
      omega

/-! ## The plan -/

def TimeoutHandler.interval : TimeoutHandler → Option Nat
  | .tcpipTcpTimer => none
  | .lwipCyclicTimer cyclic => some cyclic.intervalMs.toNat

theorem mem_handlers : h ∈ ds.map Prod.snd ↔ ∃ d, (d, h) ∈ ds := by
  rw [List.mem_map]
  constructor
  · rintro ⟨⟨d, h⟩, hx, rfl⟩
    exact ⟨d, hx⟩
  · rintro ⟨d, hx⟩
    exact ⟨(d, h), hx, rfl⟩

theorem due_enter {due : TimeoutHandler → Option Nat} (holds : ∀ h d, due h = some d ↔ (d, h) ∈ ds)
    (absent : h ∉ ds.map Prod.snd) (g : TimeoutHandler) (d' : Nat) :
    Function.update due h (some d) g = some d' ↔ (d', g) ∈ enter (d, h) ds := by
  rw [mem_enter]
  by_cases same : g = h
  · subst same
    rw [Function.update_self, Option.some.injEq, Prod.mk.injEq]
    constructor
    · rintro rfl
      exact Or.inl ⟨rfl, rfl⟩
    · rintro (⟨rfl, -⟩ | old)
      · rfl
      · exact absurd (mem_handlers.mpr ⟨d', old⟩) absent
  · rw [Function.update_of_ne same, holds, Prod.mk.injEq]
    exact ⟨Or.inr, fun h => h.resolve_left fun e => same e.2⟩

theorem due_take {due : TimeoutHandler → Option Nat} (holds : ∀ g d', due g = some d' ↔ (d', g) ∈ (d, h) :: ds)
    (absent : h ∉ ds.map Prod.snd) (g : TimeoutHandler) (d' : Nat) :
    Function.update due h none g = some d' ↔ (d', g) ∈ ds := by
  by_cases same : g = h
  · subst same
    rw [Function.update_self]
    exact ⟨fun none_some => (by cases none_some), fun old => absurd (mem_handlers.mpr ⟨d', old⟩) absent⟩
  · rw [Function.update_of_ne same, holds, List.mem_cons, Prod.mk.injEq]
    exact ⟨fun h => h.resolve_left fun e => same e.2, Or.inr⟩

namespace TcpipThread

def Place (s : TcpipThread) (p : Plan TimeoutHandler) (ds : List (Nat × TimeoutHandler)) : ThreadPlace → Prop
  | .checking now => p.running = none ∧ s.checked ≤ now ∧ now ≤ s.clock
  | .inHandler now h => s.checked ≤ now ∧ now ≤ s.clock ∧ h ∉ ds.map Prod.snd ∧
      ∃ d, p.running = some (h, d) ∧ s.timeouts.currentTimeoutDueTime = stamp d ∧ s.checked ≤ d ∧ d ≤ now
  | _ => p.running = none

def begun (s : TcpipThread) : TimeoutHandler → Nat
  | .tcpipTcpTimer => 0
  | .lwipCyclicTimer cyclic => s.started cyclic

structure Follows (s : TcpipThread) (p : Plan TimeoutHandler) (ds : List (Nat × TimeoutHandler)) : Prop where
  lists : Lists s.timeouts s.checked (s.clock + longest) ds
  attended : s.checked ≤ s.clock ∧ s.clock ≤ s.checked + 2 ^ 30
  clock : p.clock = s.clock
  begun : p.begun = s.begun
  calls : p.calls = s.calls
  due : ∀ h d, p.due h = some d ↔ (d, h) ∈ ds
  place : s.Place p ds s.place
  active : s.timeouts.tcpipTcpTimerActive = true ↔
    .tcpipTcpTimer ∈ ds.map Prod.snd ∨ ∃ d, p.running = some (.tcpipTcpTimer, d)
  pcbs : s.pcbs = true → s.timeouts.tcpipTcpTimerActive = true

theorem Place.enter {s s' : TcpipThread} {p p' : Plan TimeoutHandler} {place : ThreadPlace} (f : s.Place p ds place)
    (running : p'.running = p.running) (checked : s'.checked = s.checked) (clock : s'.clock = s.clock)
    (current : s'.timeouts.currentTimeoutDueTime = s.timeouts.currentTimeoutDueTime)
    (other : ∀ d g, p.running = some (g, d) → g ≠ h) : s'.Place p' (enter (d, h) ds) place := by
  cases place with
  | checking now => exact ⟨running.trans f.1, checked.symm ▸ f.2.1, clock.symm ▸ f.2.2⟩
  | inHandler now g =>
      obtain ⟨low, high, absent, d', run, due, early, late⟩ := f
      refine ⟨checked.symm ▸ low, clock.symm ▸ high, fun hg => ?_, d', running.trans run, current.trans due,
        checked.symm ▸ early, late⟩
      obtain ⟨d'', member⟩ := mem_handlers.mp hg
      rcases mem_enter.mp member with same | old
      · exact other d' g run (Prod.mk.inj same).2
      · exact absent (mem_handlers.mpr ⟨d'', old⟩)
  | again | waiting | handling => exact running.trans f

/-- The handler of a timer ends before the timer is due again. -/
def InTime (cyclic : CyclicTimer) (s : TcpipThread) (l : ThreadStep) : Prop :=
  l = .handlerEnd (.lwipCyclicTimer cyclic) →
    timeLessThan (s.timeouts.currentTimeoutDueTime + cyclic.intervalMs) (stamp s.clock) = false

def seen (s : TcpipThread) : ThreadStep → Option (Event TimeoutHandler)
  | .pass d => some (.pass d)
  | .connect => if s.timeouts.tcpipTcpTimerActive then none else some (.enter .tcpipTcpTimer (s.clock + 250))
  | .sleep msecs => if msecs = 0 then none else some (.rest s.clock)
  | .call h => some (.call h)
  | .finished now => some (.rest now)
  | .handlerEnd h => some (.ended h)
  | .disconnect | .fetch | .timeout | .handled => none

variable {s s' : TcpipThread} {p : Plan TimeoutHandler} {l : ThreadStep}

theorem Follows.near (f : Follows s p ds) : s.clock + longest < s.checked + 2 ^ 31 := by
  have := f.attended
  have e : longest = 60000 := rfl
  omega

/-- The plan goes along with the thread. -/
def Moves (s : TcpipThread) (l : ThreadStep) (s' : TcpipThread) (p : Plan TimeoutHandler) : Prop :=
  ∃ p' ds', Plan.Moves TimeoutHandler.interval p (s.seen l) p' ∧ Follows s' p' ds'

theorem Follows.pass (f : Follows s p ds) (attended : Attended s (.pass d)) :
    Moves s (.pass d) { s with clock := s.clock + d } p := by
  have limit : s.clock + d ≤ s.checked + 2 ^ 30 := attended
  refine ⟨{ p with clock := p.clock + d }, ds, .pass, ?_, ⟨?_, limit⟩, ?_, f.begun, f.calls, f.due, ?_,
    f.active, f.pcbs⟩
  · exact f.lists.mono (fun x hx => (f.lists.window x hx).1) (by simp only; omega)
  · exact f.attended.1.trans (Nat.le_add_right ..)
  · simp only [f.clock]
  · have place := f.place
    cases hp : s.place with
    | checking now =>
        rw [hp] at place
        exact ⟨place.1, place.2.1, place.2.2.trans (Nat.le_add_right ..)⟩
    | inHandler now h =>
        rw [hp] at place
        exact ⟨place.1, place.2.1.trans (Nat.le_add_right ..), place.2.2⟩
    | again | waiting | handling =>
        rw [hp] at place
        exact place

theorem Follows.connect (f : Follows s p ds) :
    Moves s .connect { s with pcbs := true, timeouts := tcpTimerNeeded (stamp s.clock) true s.timeouts } p := by
  cases active : s.timeouts.tcpipTcpTimerActive with
  | true =>
      have same : tcpTimerNeeded (stamp s.clock) true s.timeouts = s.timeouts := by
        rw [tcpTimerNeeded, active]
        rfl
      have unseen : s.seen .connect = none := by rw [seen, if_pos active]
      rw [same, Moves, unseen]
      exact ⟨p, ds, rfl, ⟨f.lists, f.attended, f.clock, f.begun, f.calls, f.due, f.place, f.active, fun _ => active⟩⟩
  | false =>
      have e : longest = 60000 := rfl
      have absent : .tcpipTcpTimer ∉ ds.map Prod.snd := fun h => by
        rw [f.active.mpr (Or.inl h)] at active
        cases active
      have idle : ∀ d, p.running ≠ some (.tcpipTcpTimer, d) := fun d h => by
        rw [f.active.mpr (Or.inr ⟨d, h⟩)] at active
        cases active
      have lists : Lists { s.timeouts with tcpipTcpTimerActive := true } s.checked (s.clock + longest) ds :=
        { f.lists with }
      have entered := lists.enter absent (d := s.clock + 250) ⟨by have := f.attended; omega, by omega⟩ f.near
      obtain ⟨current, stays⟩ := lists.enter_rest absent (stamp (s.clock + 250))
      have started : tcpTimerNeeded (stamp s.clock) true s.timeouts =
          sysTimeoutAbs (stamp (s.clock + 250)) .tcpipTcpTimer { s.timeouts with tcpipTcpTimerActive := true } := by
        rw [tcpTimerNeeded, active]
        exact sysTimeout_stamp (by decide)
      have unplanned : p.due .tcpipTcpTimer = none := by
        refine Option.eq_none_iff_forall_ne_some.mpr fun d h => absent (mem_handlers.mpr ⟨d, (f.due _ d).mp h⟩)
      have entering : s.seen .connect = some (.enter .tcpipTcpTimer (s.clock + 250)) := by
        rw [seen, if_neg (by simp [active])]
      rw [started, Moves, entering]
      refine ⟨{ p with due := Function.update p.due .tcpipTcpTimer (some (s.clock + 250)) }, _,
        .enter unplanned idle rfl,
        entered, f.attended, f.clock, f.begun, f.calls, due_enter f.due absent, ?_, ?_, fun _ => stays⟩
      · refine Place.enter f.place rfl rfl rfl current fun d g run same => ?_
        subst same
        exact idle d run
      · exact ⟨fun _ => Or.inl (mem_handlers.mpr ⟨_, mem_enter.mpr (Or.inl rfl)⟩), fun _ => stays⟩

theorem Follows.goTo (f : Follows s p ds) (idle : p.running = none) {place : ThreadPlace}
    (there : s.Place p ds place) : Follows { s with place := place } p ds := by
  refine ⟨f.lists, f.attended, f.clock, f.begun, f.calls, f.due, ?_, f.active, f.pcbs⟩
  cases place with
  | checking | inHandler => exact there
  | again | waiting | handling => exact idle

theorem Follows.sleep (f : Follows s p ds) (place : s.place = .again) {r : UInt32 × Timeouts}
    (asked : sysTimeoutsSleeptime (stamp s.clock) s.timeouts = r) :
    (r.1 ≠ 0 → Moves s (.sleep r.1) { s with timeouts := r.2, place := .waiting } p) ∧
      (r.1 = 0 → Moves s (.sleep r.1) { s with timeouts := r.2, place := .checking s.clock } p) := by
  have idle : p.running = none := by
    have := f.place
    rwa [place] at this
  obtain ⟨same, rest⟩ := f.lists.sleeps ⟨f.attended.1, Nat.le_add_right ..⟩ f.near
  rw [asked] at same rest
  rw [same]
  constructor
  · intro wait
    rw [Moves, seen, if_neg wait]
    refine ⟨p, ds, .rest f.clock.ge fun h d hd => ?_, f.goTo idle idle⟩
    exact rest wait (d, h) ((f.due h d).mp hd)
  · intro now
    rw [Moves, seen, if_pos now]
    exact ⟨p, ds, rfl, f.goTo idle ⟨idle, f.attended.1, le_rfl⟩⟩

theorem Follows.call (f : Follows s p ds) {timeouts : Timeouts} (place : s.place = .checking now)
    (taken : takeTimeout (stamp now) s.timeouts = some (h, timeouts)) :
    Moves s (.call h)
      { s with
        timeouts := timeouts
        place := .inHandler now h
        calls := Function.update s.calls h (s.calls h + 1) } p := by
  have here := f.place
  rw [place] at here
  obtain ⟨idle, low, high⟩ := here
  obtain ⟨d, ds', rfl, due, lists, current, active⟩ :=
    f.lists.take ⟨low, high.trans (Nat.le_add_right ..)⟩ f.near taken
  have absent : h ∉ ds'.map Prod.snd := (List.nodup_cons.mp f.lists.distinct).1
  have planned : p.due h = some d := (f.due h d).mpr List.mem_cons_self
  have first : ∀ g d', p.due g = some d' → d ≤ d' := fun g d' hg => by
    rcases List.mem_cons.mp ((f.due g d').mp hg) with same | old
    · exact (Prod.mk.inj same).1.ge
    · exact (List.pairwise_cons.mp f.lists.sorted).1 _ old
  refine ⟨{ p with
      due := Function.update p.due h none
      running := some (h, d)
      calls := Function.update p.calls h (p.calls h + 1) }, ds',
    .call idle planned (due.trans (high.trans f.clock.ge)) first, lists, f.attended, f.clock, f.begun, ?_, ?_,
      ?_, ?_, ?_⟩
  · simp only [f.calls]
  · exact due_take f.due absent
  · exact ⟨low, high, absent, d, rfl, current, (f.lists.window _ List.mem_cons_self).1, due⟩
  · rw [active, f.active, idle]
    simp only [List.map_cons, List.mem_cons, Option.some.injEq, Prod.mk.injEq]
    constructor
    · rintro ((same | old) | ⟨d', none_some⟩)
      · exact Or.inr ⟨d, same.symm, rfl⟩
      · exact Or.inl old
      · cases none_some
    · rintro (old | ⟨d', same, -⟩)
      · exact Or.inl (Or.inr old)
      · exact Or.inl (Or.inl same.symm)
  · exact fun pcbs => active.trans (f.pcbs pcbs)

theorem Follows.finished (f : Follows s p ds) (place : s.place = .checking now)
    (taken : takeTimeout (stamp now) s.timeouts = none) :
    Moves s (.finished now) { s with place := .again, checked := now } p := by
  have here := f.place
  rw [place] at here
  obtain ⟨idle, low, high⟩ := here
  have rest := f.lists.rest ⟨low, high.trans (Nat.le_add_right ..)⟩ f.near taken
  refine ⟨p, ds, .rest (high.trans f.clock.ge) fun h d hd => rest (d, h) ((f.due h d).mp hd), ?_, ⟨high, ?_⟩, f.clock,
    f.begun, f.calls, f.due, idle, f.active, f.pcbs⟩
  · exact f.lists.mono (fun x hx => (rest x hx).le) le_rfl
  · have := f.attended.2
    simp only
    omega

theorem Follows.renew (f : Follows s p ds) (place : s.place = .inHandler now h) {next : Nat}
    (hnext : s.checked ≤ next ∧ next ≤ s.clock + longest) :
    Follows { s with timeouts := sysTimeoutAbs (stamp next) h s.timeouts, place := .checking now }
      { p with due := Function.update p.due h (some next), running := none } (enter (next, h) ds) := by
  have here := f.place
  rw [place] at here
  obtain ⟨low, high, absent, d, run, -⟩ := here
  obtain ⟨current, active⟩ := f.lists.enter_rest absent (stamp next)
  refine ⟨f.lists.enter absent hnext f.near, f.attended, f.clock, f.begun, f.calls, due_enter f.due absent,
    ⟨rfl, low, high⟩, ?_, fun pcbs => active.trans (f.pcbs pcbs)⟩
  rw [active, f.active, run]
  simp only [mem_handlers, mem_enter, Prod.mk.injEq, Option.some.injEq]
  constructor
  · rintro (⟨d', old⟩ | ⟨d', same, -⟩)
    · exact Or.inl ⟨d', Or.inr old⟩
    · exact Or.inl ⟨next, Or.inl ⟨rfl, same.symm⟩⟩
  · rintro (⟨d', ⟨-, same⟩ | old⟩ | ⟨d', none_some⟩)
    · exact Or.inr ⟨d, same.symm, rfl⟩
    · exact Or.inl ⟨d', old⟩
    · cases none_some

theorem intervalMs_le (c : CyclicTimer) : c.intervalMs.toNat ≤ longest := by cases c <;> decide

theorem Follows.cyclic (f : Follows s p ds) {c : CyclicTimer} (place : s.place = .inHandler now (.lwipCyclicTimer c)) :
    Moves s (.handlerEnd (.lwipCyclicTimer c))
      { s with timeouts := lwipCyclicTimer (stamp s.clock) c s.timeouts, place := .checking now } p := by
  have here := f.place
  rw [place] at here
  obtain ⟨low, high, absent, d, run, due, early, late⟩ := here
  have short := intervalMs_le c
  have e : longest = 60000 := rfl
  have attended := f.attended
  have plus : ∀ a, stamp a + c.intervalMs = stamp (a + c.intervalMs.toNat) := fun a => by
    rw [← stamp_add, stamp, stamp, UInt32.ofNat_toNat]
  have order : timeLessThan (stamp (d + c.intervalMs.toNat)) (stamp s.clock) = decide (d + c.intervalMs.toNat < s.clock) :=
    timeLessThan_stamp (by omega) (by omega)
  have next : lwipCyclicTimer (stamp s.clock) c s.timeouts =
      sysTimeoutAbs (stamp (Plan.renewed c.intervalMs.toNat d s.clock)) (.lwipCyclicTimer c) s.timeouts := by
    rw [lwipCyclicTimer, due, plus, plus, Plan.renewed]
    simp only [order, decide_eq_true_eq]
    split <;> rfl
  have step : Plan.Step TimeoutHandler.interval p (.ended (.lwipCyclicTimer c))
      { p with
        due := Function.update p.due (.lwipCyclicTimer c) (some (Plan.renewed c.intervalMs.toNat d s.clock))
        running := none } := by
    rw [← f.clock]
    exact .again run rfl
  rw [next]
  refine ⟨_, _, step, f.renew place ⟨?_, ?_⟩⟩
  · have := Plan.le_renewed c.intervalMs.toNat d s.clock
    omega
  · rw [Plan.renewed]
    split <;> omega

theorem Follows.tcp (f : Follows s p ds) (place : s.place = .inHandler now .tcpipTcpTimer) :
    Moves s (.handlerEnd .tcpipTcpTimer)
      { s with timeouts := tcpipTcpTimer (stamp s.clock) s.pcbs s.timeouts, place := .checking now } p := by
  have here := f.place
  rw [place] at here
  obtain ⟨low, high, absent, d, run, -⟩ := here
  have e : longest = 60000 := rfl
  have attended := f.attended
  by_cases pcbs : s.pcbs = true
  · have next : tcpipTcpTimer (stamp s.clock) s.pcbs s.timeouts =
        sysTimeoutAbs (stamp (s.clock + 250)) .tcpipTcpTimer s.timeouts := by
      rw [tcpipTcpTimer, if_pos pcbs]
      exact sysTimeout_stamp (by decide)
    rw [next]
    have step : Plan.Step TimeoutHandler.interval p (.ended .tcpipTcpTimer)
        { p with due := Function.update p.due .tcpipTcpTimer (some (s.clock + 250)), running := none } := .ended run rfl
    exact ⟨_, _, step, f.renew place ⟨by omega, by omega⟩⟩
  · have unplanned : p.due .tcpipTcpTimer = none :=
      Option.eq_none_iff_forall_ne_some.mpr fun d h => absent (mem_handlers.mpr ⟨d, (f.due _ d).mp h⟩)
    have same : Function.update p.due .tcpipTcpTimer none = p.due := by rw [← unplanned, Function.update_eq_self]
    have ended : tcpipTcpTimer (stamp s.clock) s.pcbs s.timeouts = { s.timeouts with tcpipTcpTimerActive :=
      false } := by
      rw [tcpipTcpTimer, if_neg pcbs]
    have step : Plan.Step TimeoutHandler.interval p (.ended .tcpipTcpTimer) { p with running := none } := by
      have := @Plan.Step.ended _ _ TimeoutHandler.interval _ _ _ none run rfl
      rwa [same] at this
    rw [ended]
    refine ⟨_, ds, step, { f.lists with }, f.attended, f.clock, f.begun, f.calls, f.due, ⟨rfl, low, high⟩, ?_,
      fun h => absurd h pcbs⟩
    constructor
    · rintro ⟨⟩
    · rintro (old | ⟨d', none_some⟩)
      · exact absurd old absent
      · cases none_some

theorem Follows.step (f : Follows s p ds) (attended : Attended s l) (step : Step s l s') : Moves s l s' p := by
  cases step with
  | pass => exact f.pass attended
  | connect => exact f.connect
  | disconnect =>
      exact ⟨p, ds, rfl, f.lists, f.attended, f.clock, f.begun, f.calls, f.due, f.place, f.active,
        fun h => (by cases h)⟩
  | sleep place asked wait => exact (f.sleep place asked).1 wait
  | check place asked now => exact (f.sleep place asked).2 now
  | fetch place =>
      have idle := f.place
      rw [place] at idle
      exact ⟨p, ds, rfl, f.goTo idle idle⟩
  | timeout place =>
      have idle := f.place
      rw [place] at idle
      exact ⟨p, ds, rfl, f.goTo idle ⟨idle, f.attended.1, le_rfl⟩⟩
  | handled place =>
      have idle := f.place
      rw [place] at idle
      exact ⟨p, ds, rfl, f.goTo idle idle⟩
  | call place taken => exact f.call place taken
  | finished place taken => exact f.finished place taken
  | @handlerEnd now h place =>
      cases h with
      | tcpipTcpTimer => exact f.tcp place
      | lwipCyclicTimer c => exact f.cyclic place

/-! ## Runs -/

theorem lists_cyclic (l : Lists t lo hi ds) (c : CyclicTimer) (absent : .lwipCyclicTimer c ∉ ds.map Prod.snd)
    (hnow : lo ≤ now ∧ now + longest ≤ hi) (near : hi < lo + 2 ^ 31) :
    Lists (sysTimeout (stamp now) c.intervalMs (.lwipCyclicTimer c) t) lo hi
        (enter (now + c.intervalMs.toNat, .lwipCyclicTimer c) ds) ∧
      (sysTimeout (stamp now) c.intervalMs (.lwipCyclicTimer c) t).tcpipTcpTimerActive = t.tcpipTcpTimerActive := by
  have short := intervalMs_le c
  rw [sysTimeout_stamp (by cases c <;> decide)]
  exact ⟨l.enter absent (by omega) near, (l.enter_rest absent _).2⟩

def firstPlan (s : TcpipThread) : Plan TimeoutHandler where
  clock := s.clock
  due
    | .tcpipTcpTimer => none
    | .lwipCyclicTimer c => some (s.started c + c.intervalMs.toNat)
  running := none
  begun := s.begun
  calls _ := 0

theorem Start.plan (start : Start s) : Plan.Start TimeoutHandler.interval s.firstPlan := by
  refine ⟨rfl, fun _ => rfl, fun h => ?_, fun h T per => ?_⟩
  · cases h with
    | tcpipTcpTimer => exact Nat.zero_le _
    | lwipCyclicTimer c => exact (start.started c).2
  · cases h with
    | tcpipTcpTimer => cases per
    | lwipCyclicTimer c =>
        cases per
        rfl

theorem Start.follows (start : Start s) : ∃ ds, Follows s s.firstPlan ds := by
  have e : longest = 60000 := rfl
  have attended := start.attended
  have checked := (start.started .ipReassTmr).1.trans (start.started .ipReassTmr).2
  have near : s.clock + longest < s.checked + 2 ^ 31 := by omega
  have inside : ∀ c, s.checked ≤ s.started c ∧ s.started c + longest ≤ s.clock + longest := fun c =>
    ⟨(start.started c).1, Nat.add_le_add_right (start.started c).2 _⟩
  have none_yet : Lists ⟨[], 0, false, memNumSysTimeout, false⟩ s.checked (s.clock + longest) [] :=
    ⟨rfl, List.Pairwise.nil, fun x hx => (by cases hx), List.nodup_nil, rfl, rfl⟩
  obtain ⟨l₁, a₁⟩ := lists_cyclic none_yet .ipReassTmr (by simp) (inside .ipReassTmr) near
  obtain ⟨l₂, a₂⟩ := lists_cyclic l₁ .etharpTmr (by simp [mem_handlers, mem_enter]) (inside .etharpTmr) near
  obtain ⟨l₃, a₃⟩ := lists_cyclic l₂ .dhcpCoarseTmr (by simp [mem_handlers, mem_enter]) (inside .dhcpCoarseTmr) near
  obtain ⟨l₄, a₄⟩ := lists_cyclic l₃ .dhcpFineTmr (by simp [mem_handlers, mem_enter]) (inside .dhcpFineTmr) near
  have all := start.timers
  simp only [sysTimeoutsInit, lwipCyclicTimers, List.foldl_cons, List.foldl_nil] at all
  have off : s.timeouts.tcpipTcpTimerActive = false := by
    rw [all, a₄, a₃, a₂, a₁]
  rw [← all] at l₄
  refine ⟨_, l₄, ⟨checked, attended⟩, rfl, rfl, (funext start.calls).symm, ?_, ?_, ?_, fun h => ?_⟩
  · rintro (_ | c) d
    · simp [firstPlan, mem_enter]
    · cases c <;> simp [firstPlan, mem_enter, eq_comm]
  · rw [start.place]
    rfl
  · simp [off, firstPlan, mem_handlers, mem_enter]
  · rw [start.pcbs] at h
    cases h

def moment (s : TcpipThread) (time : UInt32) : Nat := s.checked + (time - stamp s.checked).toNat

def plan (s : TcpipThread) : Plan TimeoutHandler where
  clock := s.clock
  due h := (s.timeouts.nextTimeout.find? fun e => e.h = h).map fun e => s.moment e.time
  running := match s.place with
    | .inHandler _ h => some (h, s.moment s.timeouts.currentTimeoutDueTime)
    | _ => none
  begun := s.begun
  calls := s.calls

theorem moment_stamp (low : s.checked ≤ d) (near : d < s.checked + 2 ^ 32) : s.moment (stamp d) = d := by
  rw [moment, stamp_sub low, toNat_stamp, Nat.mod_eq_of_lt (by omega)]
  omega

theorem find_entry {g : TimeoutHandler} : (ds.map entry).find? (fun e => e.h = g) = (ds.find? fun x => x.2 = g).map entry := by
  rw [List.find?_map]
  rfl

theorem find_distinct (distinct : (ds.map Prod.snd).Nodup) (member : (d, h) ∈ ds) :
    ds.find? (fun x => x.2 = h) = some (d, h) := by
  induction ds with
  | nil => cases member
  | cons y ds ih =>
      obtain ⟨first, rest⟩ := List.nodup_cons.mp distinct
      rcases List.mem_cons.mp member with rfl | member
      · rw [List.find?_cons_of_pos (by simp)]
      · have other : y.2 ≠ h := fun same => first (same ▸ mem_handlers.mpr ⟨d, member⟩)
        rw [List.find?_cons_of_neg (by simpa using other), ih rest member]

theorem Follows.plan_eq (f : Follows s p ds) : s.plan = p := by
  have near := f.near
  have window : ∀ x ∈ ds, s.moment (stamp x.1) = x.1 := fun x hx => by
    obtain ⟨low, high⟩ := f.lists.window x hx
    exact moment_stamp low (by omega)
  have due : s.plan.due = p.due := by
    funext h
    apply Option.ext
    intro d
    have listed : s.plan.due h = ((ds.find? fun x => x.2 = h).map entry).map fun e => s.moment e.time := by
      rw [← find_entry, ← f.lists.list]
      rfl
    rw [f.due, listed]
    constructor
    · intro found
      obtain ⟨e, he, rfl⟩ := Option.map_eq_some_iff.mp found
      obtain ⟨x, hx, rfl⟩ := Option.map_eq_some_iff.mp he
      have member := List.mem_of_find?_eq_some hx
      have same : x.2 = h := by simpa using List.find?_some hx
      rw [entry, window x member, ← same]
      exact member
    · intro member
      rw [find_distinct f.lists.distinct member, Option.map_some, Option.map_some, entry, window (d, h) member]
  have running : s.plan.running = p.running := by
    have place := f.place
    cases here : s.place with
    | inHandler now g =>
        rw [here] at place
        obtain ⟨-, high, -, d, run, current, low, late⟩ := place
        rw [plan, here, run]
        simp only [current, moment_stamp low (by omega)]
    | checking now =>
        rw [here] at place
        rw [plan, here, place.1]
    | again | waiting | handling =>
        rw [here] at place
        have idle : p.running = none := place
        rw [plan, here, idle]
  have rebuilt : s.plan = ⟨p.clock, p.due, p.running, p.begun, p.calls⟩ := by
    rw [← due, ← running, f.clock, f.begun, f.calls]
    rfl
  exact rebuilt

def Planned (s : TcpipThread) : Prop := ∃ ds, Follows s s.plan ds

theorem Start.planned (start : Start s) : Planned s ∧ Plan.Start TimeoutHandler.interval s.plan := by
  obtain ⟨ds, f⟩ := start.follows
  rw [Planned, f.plan_eq]
  exact ⟨⟨ds, f⟩, start.plan⟩

theorem Planned.step (planned : Planned s) (attended : Attended s l) (step : Step s l s') :
    Planned s' ∧ Plan.Moves TimeoutHandler.interval s.plan (s.seen l) s'.plan := by
  obtain ⟨ds, f⟩ := planned
  obtain ⟨p', ds', moves, f'⟩ := f.step attended step
  rw [Planned, f'.plan_eq]
  exact ⟨⟨ds', f'⟩, moves⟩

theorem Follows.prompt (f : Follows s p ds) {c : CyclicTimer} (inTime : InTime c s l) (step : Step s l s')
    {e : Event TimeoutHandler} (seen : s.seen l = some e) :
      Plan.Prompt (.lwipCyclicTimer c) c.intervalMs.toNat p e := by
  rintro rfl d run
  cases step with
  | @handlerEnd now h place =>
      cases seen
      have here := f.place
      rw [place] at here
      obtain ⟨low, high, absent, d', run', due, early, late⟩ := here
      rw [run] at run'
      cases run'
      have short := intervalMs_le c
      have near := f.near
      have plus : stamp d + c.intervalMs = stamp (d + c.intervalMs.toNat) := by
        rw [← stamp_add, stamp, stamp, UInt32.ofNat_toNat]
      have later := inTime rfl
      rw [due, plus, timeLessThan_stamp (by omega) (by omega)] at later
      rw [f.clock]
      simpa using later
  | connect =>
      rw [TcpipThread.seen] at seen
      split at seen <;> cases seen
  | sleep | check =>
      rw [TcpipThread.seen] at seen
      split at seen <;> cases seen
  | pass | disconnect | fetch | timeout | handled | call | finished => cases seen

theorem run_planned {cond : Plan TimeoutHandler → Event TimeoutHandler → Prop} {limit : TcpipThread → ThreadStep → Prop}
    (prompt : ∀ {s l s' ds e}, Follows s s.plan ds → limit s l → Step s l s' → s.seen l = some e → cond s.plan e)
    (r : system.Run (fun s l => Attended s l ∧ limit s l) s) :
    Planned s ∧ (Plan.system TimeoutHandler.interval).Run cond s.plan := by
  induction r with
  | start start =>
      obtain ⟨planned, first⟩ := Start.planned start
      exact ⟨planned, .start first⟩
  | @step s l s' _ limits step ih =>
      obtain ⟨planned, run⟩ := ih
      obtain ⟨planned', moves⟩ := planned.step limits.1 step
      refine ⟨planned', ?_⟩
      obtain ⟨ds, f⟩ := planned
      cases seen : s.seen l with
      | none =>
          rw [seen] at moves
          exact moves ▸ run
      | some e =>
          rw [seen] at moves
          exact run.step (prompt f limits.2 step seen) moves

end TcpipThread

end Oinzen
