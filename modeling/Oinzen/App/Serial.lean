import Oinzen.App.Coherence
import Oinzen.App.Lease
import Oinzen.App.Stages

/-!
# The monitor and the TCP/IP thread

Where the TCP/IP thread keeps out of the windows of a pass, and the pass out of its locked section, the two
are as good as one after the other. Work that finds the client off may fall into a window.
-/

namespace Oinzen

open Interference Prog Threads

structure Core.Outcome where
  dhcpState : Option DhcpState
  ipAddr : IpAddr
  netmask : IpAddr
  gw : IpAddr
  dhcpLinkStatus : DhcpLinkStatus
  handed : List TxSeg

def Core.outcome (s : Core) : Core.Outcome where
  dhcpState := s.netif.dhcp.map Dhcp.state
  ipAddr := s.netif.ipAddr
  netmask := s.netif.netmask
  gw := s.netif.gw
  dhcpLinkStatus := s.dhcpLinkStatus
  handed := s.eth.handed

/-- The outcome is that of the two threads one after the other. -/
def Serial (t : Threads Core Call.Answer) (s t' : Core) : Prop :=
  t'.outcome = (t.result .right (t.result .left s)).outcome ∨
    t'.outcome = (t.result .left (t.result .right s)).outcome

/-! ## Windows and the locked section -/

def Stage.inStack : Stage → Bool
  | .before | .after => false
  | .looking | .stopping | .starting => true

abbrev Configuration := Threads.Config Watched Call.Answer

def begun (c : Configuration) : Bool := decide (0 < (c.thread .right).asked)

def inWindow (c : Configuration) : Bool := c.shared.stage.inStack && !ended (c.thread .left)

def TcpipWork.isEvent : TcpipWork → Bool
  | .event _ => true
  | .output _ => false

def Watched.resting (w : TcpipWork) (x : Watched) : Bool :=
  w.isEvent && !x.active && x.core.idle && decide (x.stage ≠ .starting)

/-- The pass takes no step on the stack while the TCP/IP thread is in its section, and that thread takes no
step of its section while the pass is in a window, unless the client is at rest. -/
def Apart (w : TcpipWork) (d : Side) (c : Configuration) : Prop :=
  (match d with
    | .left => begun c && !ended (c.thread .right) && c.shared.stage.inStack
    | .right => begun c && inWindow c) = true → c.shared.resting w = true

instance (w : TcpipWork) (d : Side) (c : Configuration) : Decidable (Apart w d c) :=
  inferInstanceAs (Decidable (_ → _))

/-- The pass has not begun, and the TCP/IP thread has found nothing yet. -/
def Core.watched (s : Core) : Watched := ⟨s, .before, false⟩

variable {w : TcpipWork} {answers : Side → Nat → ∀ i, Call.Answer i} {s : Core} {c c' : Configuration} {d : Side}

structure Underway (c : Configuration) : Prop where
  course : Course Stage.Takes c.shared.stage (c.thread .left).code
  outside : stageFrame.Outside (c.thread .right)
  notes : (c.thread .right).code.Each fun u => ∀ x, (u x).active = (x.active || !x.core.idle)
  waits : ∀ u k, (c.thread .right).code = .act u k → begun c = true

structure Undisturbed (t : Threads Watched Call.Answer) (s : Core) (c : Configuration) : Prop where
  alone : Alone (t.answers .left) (t.code .left) s.watched (c.thread .left) c.shared
  active : c.shared.active = false
  netif : c.shared.stage ≤ .looking → c.shared.core.netif = s.netif
  own : c.shared.stage = .before → ∀ b ∈ (c.thread .left).taken, stageFrame.Within b

inductive Ordered (t : Threads Watched Call.Answer) (w : TcpipWork) (s : Core) (c : Configuration) : Prop
  | waiting (pass : Undisturbed t s c) (right : ∀ m, Alone (t.answers .right) (t.code .right) m (c.thread .right) m)
      (still : w.isEvent = true → (c.thread .right).code.Still Watched.rest)
  | resting (begins : begun c = true) (event : w.isEvent = true) (pass : Undisturbed t s c)
      (still : (c.thread .right).code.Still Watched.rest)
      (idle : ended (c.thread .right) = false → c.shared.core.idle = true)
      (found : s.idle = true ∨
        c.shared.core.idle = true ∧ (.stopping ≤ c.shared.stage ∨ ended (c.thread .left) = true))
  | tcpip (begins : begun c = true) (sorted : t.Sorted .right s.watched c)
      (pass : ended (c.thread .right) = true ∨
        (w.isEvent = true → c.shared.active = true) ∧ ∀ b ∈ (c.thread .left).taken, stageFrame.Within b)
  | link (sorted : t.Sorted .left s.watched c) (pass : c.shared.stage = .after ∨ ended (c.thread .left) = true)

/-! ## Steps of the link thread -/

inductive LinkStep (c c' : Configuration) : Prop
  | call (shared : c'.shared = c.shared) (taken : (c'.thread .left).taken = (c.thread .left).taken)
  | act (a : Action Watched Call.Answer) (code : (c.thread .left).code = .act a.update a.next)
      (shared : c'.shared = a.update c.shared) (taken : (c'.thread .left).taken = a :: (c.thread .left).taken)
      (takes : c'.shared.stage.Takes a)

theorem netif_of_within {a : Action Watched Call.Answer} (h : stageFrame.Within a) (x : Watched) :
    (a.update x).core.netif = x.core.netif := by
  obtain ⟨⟨f, update⟩, -⟩ := h
  rw [update]
  rfl

theorem stage_of_keeps {u : Watched → Watched} (h : stageFrame.Keeps u) (x : Watched) : (u x).stage = x.stage := by
  have same := congrArg Watched.stage (h.put ((stageFrame.view x).vars, x.stage) x)
  exact same

theorem Underway.link (h : Underway c) (step : (watchedThreads w answers).advance .left c = some c') :
    Underway c' ∧ c.shared.stage ≤ c'.shared.stage ∧ LinkStep c c' := by
  have right := thread_other step
  have keep {stage : Stage} (same : c'.shared.stage = stage)
      (course : Course Stage.Takes stage (c'.thread .left).code) : Underway c' :=
    ⟨same ▸ course, right ▸ h.outside, right ▸ h.notes, by
      unfold begun
      exact right ▸ h.waits⟩
  have course := h.course
  rcases step_cases step with ⟨a, code, shared, thread⟩ | ⟨i, k, code, shared, thread⟩
  · rw [code] at course
    obtain ⟨stage', order, takes, next⟩ := course
    have same : c'.shared.stage = stage' := by rw [shared]; exact takes.stage _
    refine ⟨keep same ?_, same ▸ order, .act a code shared ?_ (same ▸ takes)⟩
    · rw [thread, Function.update_self]
      exact next _
    · rw [thread, Function.update_self]
  · rw [code] at course
    refine ⟨keep (congrArg Watched.stage shared) ?_, (congrArg Watched.stage shared).ge, .call shared ?_⟩
    · rw [thread, Function.update_self]
      exact course _
    · rw [thread, Function.update_self]

theorem Stage.outside_cases {stage : Stage} (h : stage.inStack = false) : stage = .before ∨ stage = .after := by
  cases stage <;> simp [inStack] at h ⊢

theorem within_of_takes {stage : Stage} {a : Action Watched Call.Answer} (takes : stage.Takes a)
    (h : stage.inStack = false) : stageFrame.Within a := by
  have work := takes.work
  rcases stage.outside_cases h with rfl | rfl
  · exact work
  · exact work

theorem within_of_course {a : Action Watched Call.Answer} (course : Course Stage.Takes .after (.act a.update a.next)) :
    stageFrame.Within a := by
  obtain ⟨stage, order, takes, -⟩ := course
  have last : stage = .after := by
    revert order
    cases stage <;> decide
  exact within_of_takes takes (by rw [last]; rfl)

theorem LinkStep.idle (h : LinkStep c c') (hstage : c'.shared.stage.inStack = false ∨ .stopping ≤ c'.shared.stage)
    (idle : c.shared.core.idle = true) : c'.shared.core.idle = true := by
  cases h with
  | call shared => rwa [shared]
  | act a code shared taken takes =>
      have outside (hout : c'.shared.stage.inStack = false) : c'.shared.core.idle = true := by
        rw [shared, Core.idle_congr (netif_of_within (within_of_takes takes hout) _)]
        exact idle
      rcases hstage with hout | later
      · exact outside hout
      · have work := takes.work
        cases hst : c'.shared.stage with
        | stopping =>
            rw [hst] at work
            rw [shared]
            exact work _ idle
        | after => exact outside (by rw [hst]; rfl)
        | before | looking | starting =>
            rw [hst] at later
            exact absurd later (by decide)

theorem Undisturbed.step {t : Threads Watched Call.Answer} (h : Undisturbed t s c)
    (order : c.shared.stage ≤ c'.shared.stage)
    (link : LinkStep c c') (step : t.advance .left c = some c') : Undisturbed t s c' := by
  refine ⟨h.alone.advance step, ?_, fun early => ?_, fun first => ?_⟩
  · cases link with
    | call shared => rw [shared]; exact h.active
    | act a code shared taken takes => rw [shared, takes.active]; exact h.active
  · have netif := h.netif (order.trans early)
    cases link with
    | call shared => rwa [shared]
    | act a code shared taken takes =>
        have work := takes.work
        rw [shared, ← netif]
        cases hst : c'.shared.stage with
        | before =>
            rw [hst] at work
            exact netif_of_within work _
        | looking =>
            rw [hst] at work
            exact work _
        | stopping | starting | after =>
            rw [hst] at early
            exact absurd early (by decide)
  · have before : c.shared.stage = .before := by
      rw [first] at order
      revert order
      cases c.shared.stage <;> decide
    cases link with
    | call shared taken => rw [taken]; exact h.own before
    | act a code shared taken takes =>
        rw [taken]
        refine List.forall_mem_cons.mpr ⟨?_, h.own before⟩
        exact within_of_takes takes (by rw [first]; rfl)

theorem not_ended {t : Threads Watched Call.Answer} (step : t.advance d c = some c') : ended (c.thread d) = false := by
  unfold advance at step
  unfold ended
  split at step
  · cases step
  · rename_i code
    rw [code]
  · rename_i code
    rw [code]

theorem Ordered.link_step {t : Threads Watched Call.Answer} (ordered : Ordered t w s c) (underway : Underway c)
    (order : c.shared.stage ≤ c'.shared.stage) (link : LinkStep c c') (apart : Apart w .left c')
    (step : t.advance .left c = some c') : Ordered t w s c' := by
  have right : c'.thread .right = c.thread .right := thread_other step
  have begins : begun c' = begun c := by
    unfold begun
    rw [right]
  have active : c'.shared.active = c.shared.active := by
    cases link with
    | call shared => rw [shared]
    | act a code shared taken takes => rw [shared, takes.active]
  have inSection (hbegun : begun c = true) (hend : ended (c.thread .right) = false)
      (hstack : c'.shared.stage.inStack = true) : c'.shared.resting w = true := by
    refine apart ?_
    simp only [begins, hbegun, right, hend, hstack]
    rfl
  cases ordered with
  | waiting pass alone still => exact .waiting (pass.step order link step) (right ▸ alone) (right ▸ still)
  | resting hbegun event pass still idle found =>
      refine .resting (begins.trans hbegun) event (pass.step order link step) (right ▸ still) (fun hend => ?_) ?_
      · rw [right] at hend
        cases hstack : c'.shared.stage.inStack with
        | false => exact link.idle (.inl hstack) (idle hend)
        | true =>
            have rest := inSection hbegun hend hstack
            simp only [Watched.resting, Bool.and_eq_true] at rest
            exact rest.1.2
      · rcases found with start | ⟨hidle, hstop | hend⟩
        · exact .inl start
        · exact .inr ⟨link.idle (.inr (hstop.trans order)) hidle, .inl (hstop.trans order)⟩
        · exact absurd (not_ended step) (by rw [hend]; nofun)
  | tcpip hbegun sorted pass =>
      refine .tcpip (begins.trans hbegun) (sorted.step (d := .left) nofun step) ?_
      rw [right, active]
      rcases pass with hend | ⟨hactive, own⟩
      · exact .inl hend
      · cases hend : ended (c.thread .right) with
        | true => exact .inl rfl
        | false =>
            refine .inr ⟨hactive, ?_⟩
            have outside : c'.shared.stage.inStack = false := by
              by_contra hstack
              have rest := inSection hbegun hend (Bool.eq_false_or_eq_true _ |>.resolve_right hstack)
              simp only [Watched.resting, Bool.and_eq_true, Bool.not_eq_true'] at rest
              have hactive' := hactive rest.1.1.1
              rw [← active, rest.1.1.2] at hactive'
              cases hactive'
            cases link with
            | call shared taken => rw [taken]; exact own
            | act a code shared taken takes =>
                rw [taken]
                exact List.forall_mem_cons.mpr ⟨within_of_takes takes outside, own⟩
  | link sorted pass =>
      have after : c.shared.stage = .after := pass.resolve_right (by rw [not_ended step]; nofun)
      have after' : c'.shared.stage = .after := by
        rw [after] at order
        revert order
        cases c'.shared.stage <;> decide
      refine .link (sorted.step (fun _ a code b hb => ?_) step) (.inl after')
      have course := underway.course
      rw [after, code] at course
      obtain ⟨keeps, ignores⟩ := underway.outside.taken b hb
      exact (within_of_course course).independent keeps ignores

/-! ## Steps of the TCP/IP thread -/

theorem Underway.tcpip (h : Underway c) (step : (watchedThreads w answers).advance .right c = some c') :
    Underway c' ∧ c'.shared.stage = c.shared.stage := by
  have left : c'.thread .left = c.thread .left := thread_other step
  have outside : stageFrame.Outside (c'.thread .right) := h.outside.step step
  have notes := h.notes
  rcases step_cases step with ⟨a, code, shared, thread⟩ | ⟨i, k, code, shared, thread⟩
  · have same : c'.shared.stage = c.shared.stage := by
      rw [shared]
      exact stage_of_keeps (h.outside.next code).1 _
    rw [code] at notes
    refine ⟨⟨by rw [same, left]; exact h.course, outside, ?_, fun _ _ _ => ?_⟩, same⟩
    · rw [thread, Function.update_self]
      exact notes.2 _
    · have begins := h.waits _ _ code
      unfold begun at begins ⊢
      rwa [thread, Function.update_self]
  · have same : c'.shared.stage = c.shared.stage := congrArg Watched.stage shared
    rw [code] at notes
    refine ⟨⟨by rw [same, left]; exact h.course, outside, ?_, fun _ _ _ => ?_⟩, same⟩
    · rw [thread, Function.update_self]
      exact notes _
    · unfold begun
      rw [thread, Function.update_self]
      exact decide_eq_true (Nat.succ_pos _)

theorem Undisturbed.other {t : Threads Watched Call.Answer} (h : Undisturbed t s c) (shared : c'.shared = c.shared)
    (left : c'.thread .left = c.thread .left) : Undisturbed t s c' := by
  obtain ⟨alone, active, netif, own⟩ := h
  constructor
  case alone => rwa [shared, left]
  case active => rwa [shared]
  case netif => rwa [shared]
  case own => rwa [shared, left]

theorem still_next {a : Action Watched Call.Answer} {x : Watched}
    (still : (Prog.act a.update a.next : Code Watched Unit).Still Watched.rest) (active : x.active = false)
    (idle : x.core.idle = true) : a.update x = x ∧ (a.next x).Still Watched.rest :=
  still x ⟨active, idle⟩

theorem Ordered.tcpip_step {t : Threads Watched Call.Answer} (ordered : Ordered t w s c) (underway : Underway c)
    (stage : c'.shared.stage = c.shared.stage) (begins : begun c = true → begun c' = true) (apart : Apart w .right c')
    (step : t.advance .right c = some c') : Ordered t w s c' := by
  have left : c'.thread .left = c.thread .left := thread_other step
  have meets (hbegun : begun c = true) (hwindow : inWindow c' = true) : c'.shared.resting w = true := by
    refine apart ?_
    simp only [begins hbegun, hwindow]
    rfl
  have window : inWindow c' = inWindow c := by
    unfold inWindow
    rw [stage, left]
  have notes := underway.notes
  cases ordered with
  | waiting pass alone still =>
      rcases step_cases step with ⟨a, code, shared, thread⟩ | ⟨i, k, code, shared, thread⟩
      · have hbegun := underway.waits _ _ code
        cases rest : w.isEvent && c.shared.core.idle with
        | true =>
            obtain ⟨event, idle⟩ := Bool.and_eq_true_iff.mp rest
            obtain ⟨same, next⟩ := still_next (code ▸ still event) pass.active idle
            rw [same] at shared
            refine .resting (begins hbegun) event (pass.other shared left) ?_ (fun _ => ?_) ?_
            · rw [thread, Function.update_self]
              exact next
            · rwa [shared]
            · rw [stage, left, shared]
              cases hst : c.shared.stage with
              | before | looking =>
                  refine .inl ?_
                  rw [← Core.idle_congr (pass.netif (by rw [hst] <;> decide))]
                  exact idle
              | stopping => exact .inr ⟨idle, .inl le_rfl⟩
              | after => exact .inr ⟨idle, .inl (by decide)⟩
              | starting =>
                  refine .inr ⟨idle, .inr ?_⟩
                  cases hend : ended (c.thread .left) with
                  | true => rfl
                  | false =>
                      have hwindow : inWindow c' = true := by
                        rw [window]
                        unfold inWindow
                        rw [hst, hend]
                        rfl
                      have := meets hbegun hwindow
                      simp [Watched.resting, stage, hst] at this
        | false =>
            rw [code] at notes
            have active : w.isEvent = true → c'.shared.active = true := by
              intro event
              rw [event, Bool.true_and] at rest
              rw [shared, notes.1, rest]
              exact Bool.or_true _
            have outside : inWindow c = false := by
              rw [← window]
              by_contra hwindow
              have rest := meets hbegun (Bool.eq_false_or_eq_true _ |>.resolve_right hwindow)
              simp only [Watched.resting, Bool.and_eq_true, Bool.not_eq_true'] at rest
              rw [active rest.1.1.1] at rest
              exact absurd rest.1.1.2 nofun
            by_cases hlink : c.shared.stage = .before
            · have sorted : t.Sorted .right s.watched c := ⟨s.watched, alone _, pass.alone⟩
              refine .tcpip (begins hbegun) (sorted.step (fun _ b hb l hl => ?_) step) (.inr ⟨active, ?_⟩)
              · obtain ⟨keeps, ignores⟩ := underway.outside.next hb
                exact ((pass.own hlink l hl).independent keeps ignores).symm
              · rw [left]
                exact pass.own hlink
            · have sorted : t.Sorted .left s.watched c := ⟨c.shared, pass.alone, alone _⟩
              refine .link (sorted.step (d := .right) nofun step) ?_
              rw [stage, left]
              unfold inWindow at outside
              cases hend : ended (c.thread .left) with
              | true => exact .inr rfl
              | false =>
                  rw [hend, Bool.not_false, Bool.and_true] at outside
                  exact .inl (Stage.outside_cases outside |>.resolve_left hlink)
      · refine .waiting (pass.other shared left) (fun m => ?_) fun event => ?_
        · rw [thread, Function.update_self]
          exact (alone m).ask code
        · rw [thread, Function.update_self]
          have := still event
          rw [code] at this
          exact this _
  | resting hbegun event pass still idle found =>
      have idle := idle (not_ended step)
      have rest : c'.shared = c.shared ∧ (c'.thread .right).code.Still Watched.rest := by
        rcases step_cases step with ⟨a, code, shared, thread⟩ | ⟨i, k, code, shared, thread⟩
        · obtain ⟨same, next⟩ := still_next (code ▸ still) pass.active idle
          rw [shared, thread, Function.update_self]
          exact ⟨same, next⟩
        · rw [code] at still
          rw [shared, thread, Function.update_self]
          exact ⟨rfl, still _⟩
      refine .resting (begins hbegun) event (pass.other rest.1 left) rest.2 (fun _ => ?_) ?_
      · rwa [rest.1]
      · rwa [left, rest.1]
  | tcpip hbegun sorted pass =>
      obtain ⟨active, own⟩ := pass.resolve_left (by rw [not_ended step]; nofun)
      refine .tcpip (begins hbegun) (sorted.step (fun _ b hb l hl => ?_) step) (.inr ⟨fun event => ?_, ?_⟩)
      · obtain ⟨keeps, ignores⟩ := underway.outside.next hb
        exact ((own l hl).independent keeps ignores).symm
      · rcases step_cases step with ⟨a, code, shared, -⟩ | ⟨i, k, -, shared, -⟩
        · rw [code] at notes
          rw [shared, notes.1, active event]
          rfl
        · rw [shared]
          exact active event
      · rwa [left]
  | link sorted pass =>
      refine .link (sorted.step (d := .right) nofun step) ?_
      rwa [stage, left]

/-! ## Results -/

theorem notes_tcpipUnderLock (w : TcpipWork) :
    (tcpipUnderLock w).Each fun u => ∀ x, (u x).active = (x.active || !x.core.idle) := by
  have work : w.code.Each fun _ => True := .all (fun _ => trivial) _
  exact .bind .call fun _ => .bind (work.lift fun _ _ _ => rfl) fun _ => .call

theorem run_ordered
    (r : ((watchedThreads w answers).system s.watched).Run ((watchedThreads w answers).Leads (Apart w)) c) :
    Underway c ∧ Ordered (watchedThreads w answers) w s c := by
  refine r.invariant (I := fun c => Underway c ∧ Ordered (watchedThreads w answers) w s c) ?_ ?_
  · rintro c rfl
    have notes := notes_tcpipUnderLock w
    refine ⟨⟨course_link, ⟨avoids_tcpipUnderLock w, nofun⟩, notes, nofun⟩,
      .waiting ⟨.start, rfl, fun _ => rfl, fun _ => nofun⟩ (fun _ => .start) fun event => ?_⟩
    cases w with
    | event e => exact still_underLock e
    | output p => cases event
  · intro c d c' _ h leads step
    obtain ⟨underway, ordered⟩ := h
    have apart := leads c' step
    cases d with
    | left =>
        obtain ⟨underway', order, link⟩ := underway.link step
        exact ⟨underway', ordered.link_step underway order link apart step⟩
    | right =>
        obtain ⟨underway', stage⟩ := underway.tcpip step
        refine ⟨underway', ordered.tcpip_step underway stage (fun hbegun => ?_) apart step⟩
        unfold begun at hbegun ⊢
        rcases step_cases step with ⟨_, -, -, thread⟩ | ⟨_, _, -, -, thread⟩
        · rwa [thread, Function.update_self]
        · rw [thread, Function.update_self]
          exact decide_eq_true (Nat.succ_pos _)

theorem result_watched (d : Side) (x : Watched) :
    ((watchedThreads w answers).result d x).core = (linkAndTcpip w answers).result d x.core :=
  (projects_threads w answers d).run (answers d) 0 x

theorem link_tcpip_serial (w : TcpipWork) (answers : Side → Nat → ∀ i, Call.Answer i) (s : Core) (c : Configuration)
    (r : ((watchedThreads w answers).system s.watched).Run ((watchedThreads w answers).Leads (Apart w)) c)
    (done : c.finished = true) : Serial (linkAndTcpip w answers) s c.shared.core := by
  have linkFirst (sorted : (watchedThreads w answers).Sorted .left s.watched c) :
      c.shared.core = (linkAndTcpip w answers).result .right ((linkAndTcpip w answers).result .left s) := by
    rw [sorted.finished done, result_watched, result_watched]
    rfl
  cases (run_ordered r).2 with
  | waiting pass alone => exact .inl (congrArg Core.outcome (linkFirst ⟨c.shared, pass.alone, alone _⟩))
  | link sorted => exact .inl (congrArg Core.outcome (linkFirst sorted))
  | tcpip _ sorted =>
      refine .inr (congrArg Core.outcome ?_)
      rw [sorted.finished done]
      exact (result_watched _ _).trans (congrArg _ (result_watched _ _))
  | resting _ event pass _ _ found =>
      have link : c.shared = (watchedThreads w answers).result .left s.watched :=
        pass.alone.result (c.finished_code done .left)
      have nothing (x : Watched) (rest : x.rest) : (watchedThreads w answers).result .right x = x := by
        cases w with
        | event e => exact (still_underLock e).run (answers .right) 0 rest
        | output p => cases event
      rcases found with start | ⟨idle, -⟩
      · refine .inr (congrArg Core.outcome ?_)
        have right := @result_watched w answers .right s.watched
        rw [nothing s.watched ⟨rfl, start⟩] at right
        rw [link, result_watched]
        exact congrArg _ right
      · refine .inl (congrArg Core.outcome ?_)
        have right := @result_watched w answers .right c.shared
        rw [nothing c.shared ⟨pass.active, idle⟩] at right
        rw [right, link, result_watched]
        rfl

def renewalAnswers : Side → Nat → ∀ i, Call.Answer i := fun d _ => match d with
  | .left => Call.linked false true
  | .right => Call.granted true

def ack : TcpipWork := .event (.recv (reply 5))

def renewing : Core := leased.after .coarseTmr

def ackWhenOff : List Side := List.replicate 33 .left ++ List.replicate 6 .right ++ List.replicate 21 .left

theorem link_tcpip_serial_ack : ∃ c : Configuration,
    c.shared.core.dhcpLinkStatus = .linkDown ∧ c.finished = true ∧
      Serial (linkAndTcpip ack renewalAnswers) renewing c.shared.core := by
  let t := watchedThreads ack renewalAnswers
  have hplay : ((t.playing (Apart ack) ackWhenOff (t.initial renewing.watched)).any fun c =>
      decide (c.shared.core.dhcpLinkStatus = .linkDown) && c.finished) = true := by decide +kernel
  obtain ⟨c, hc, htest⟩ := (Option.any_eq_true _ _).mp hplay
  obtain ⟨hstatus, hfinished⟩ := Bool.and_eq_true_iff.mp htest
  have hrun : (t.system renewing.watched).Run (t.Leads (Apart ack)) c := run_of_playing (.start rfl) hc
  exact ⟨c, of_decide_eq_true hstatus, hfinished, link_tcpip_serial _ _ _ c hrun hfinished⟩

/-- Every run of the two threads is one of the watched threads. -/
theorem run_watched {p : Threads.Config Core Call.Answer}
    (r : ((linkAndTcpip w answers).system s).Run System.unrestricted p) :
    ∃ c : Configuration, ((watchedThreads w answers).system s.watched).Run System.unrestricted c ∧
      Follows Watched.core c p :=
  run_follows (t := watchedThreads w answers) (q := linkAndTcpip w answers) (s := s.watched) rfl rfl
    (projects_threads w answers) r

/-- The ACK comes when the pass has removed the address and not yet stopped the client, and there is an
address when both are done. -/
def ackWhileStopping : List Side := List.replicate 30 .left ++ List.replicate 29 .right ++ List.replicate 24 .left

theorem link_tcpip_overlap : ¬ ∀ w answers s c, ((linkAndTcpip w answers).system s).Run System.unrestricted c →
    c.finished = true → Serial (linkAndTcpip w answers) s c.shared := by
  intro h
  let t := linkAndTcpip ack renewalAnswers
  have hplay : ((t.play ackWhileStopping (t.initial renewing)).any fun c =>
      c.finished && decide (c.shared.netif.ipAddr ≠ 0)) = true := by decide +kernel
  obtain ⟨c, hc, htest⟩ := (Option.any_eq_true _ _).mp hplay
  obtain ⟨hfinished, haddr⟩ := Bool.and_eq_true_iff.mp htest
  have hrun : (t.system renewing).Run System.unrestricted c :=
    run_of_play (fun _ _ _ => trivial) (.start rfl) hc
  refine of_decide_eq_true haddr ?_
  rcases h _ _ _ _ hrun hfinished with hserial | hserial
  · exact (congrArg Core.Outcome.ipAddr hserial).trans (by decide +kernel)
  · exact (congrArg Core.Outcome.ipAddr hserial).trans (by decide +kernel)

end Oinzen
