import Oinzen.Interference.System
import Oinzen.App.Events
import Oinzen.App.Passes
import Oinzen.Driver.Start

/-!
# The monitor and the interface agree

Runs of the link monitor interleaved with timer ticks and packets, each taken as one step.
-/

namespace Oinzen

open Interference Prog System

inductive CoreLabel
  | pass (bit : Option UInt32)
  | event (e : LwipEvent)

/-- A PCB is found whenever one is needed. -/
def pcbFound : ∀ i : Call, Call.Answer i → Prop
  | .udpNew, found => found = true
  | _, _ => True

inductive Core.Step (restart : ∀ i : Call, Call.Answer i → Prop) (s : Core) : CoreLabel → Core → Prop
  | pass {bit t} : Exec anyAnswer ethernetifSetLink s bit t → Core.Step restart s (.pass bit) t
  | event {e t} : Exec restart e.code s () t → Core.Step restart s (.event e) t

/-- The program after `MX_LWIP_Init`; `restart` says which answers the client gets between passes. -/
def linkMonitor (restart : ∀ i : Call, Call.Answer i → Prop) : System Core CoreLabel where
  start s := ∃ eth, Exec anyAnswer mxLwipInit (Core.boot eth) () s
  step := Core.Step restart

namespace Monitor

inductive Label
  | pass (bit : UInt32)
  | event (i : Input)

inductive Step (restart : ∀ i : Call, Call.Answer i → Prop) (m : Monitor) : Label → Monitor → Prop
  | pass {bit m'} : Pass anyAnswer m bit m' → Step restart m (.pass bit) m'
  | event {i m'} : Event restart i m m' → Step restart m (.event i) m'

def system (restart : ∀ i : Call, Call.Answer i → Prop) : System Monitor Label where
  start := Booted anyAnswer
  step := Step restart

end Monitor

def DhcpLinkStatus.linkUp : DhcpLinkStatus → Bool
  | .linkUpWaitingDhcp | .linkUpIpAcquired | .linkUpDhcpError => true
  | _ => false

def DhcpLinkStatus.stopped : DhcpLinkStatus → Bool
  | .linkDown | .linkDownInit | .linkUpDhcpError => true
  | _ => false

namespace Monitor

def Sound (m : Monitor) : Prop := m.dhcp = .cleared ∨ m.dhcp.state ≠ .off ∧ m.dhcp.pcb = true

structure Coherent (m : Monitor) : Prop where
  initialized : m.status ≠ .notInitialized
  linkUp : m.linkUp = m.status.linkUp
  up : m.up = decide (m.status ≠ .linkDownInit)
  sound : m.Sound
  stopped : m.status.stopped = true → m.dhcp = .cleared
  waiting : m.status = .linkUpWaitingDhcp → m.client.isSome = true
  fault : m.fault = false
  starts : ∀ x ∈ m.starts, x = ⟨true, true, true⟩

section

variable {ok : ∀ i : Call, Call.Answer i → Prop} {m m' : Monitor} {i : Input}

/-! ## What stays as it is -/

structure Same (m m' : Monitor) : Prop where
  status : m'.status = m.status
  up : m'.up = m.up
  linkUp : m'.linkUp = m.linkUp
  starts : m'.starts = m.starts
  fault : m'.fault = m.fault

theorem stop_same : m.Same m.stop := by
  unfold stop
  split <;> exact ⟨rfl, rfl, rfl, rfl, rfl⟩

theorem Same.trans {m'' : Monitor} (h : m.Same m') (h' : m'.Same m'') : m.Same m'' :=
  ⟨h'.status.trans h.status, h'.up.trans h.up, h'.linkUp.trans h.linkUp, h'.starts.trans h.starts,
    h'.fault.trans h.fault⟩

theorem Begun.same {err : ErrT} (h : m.Begun ok err m') : m.Same m' := by
  cases h <;> exact ⟨rfl, rfl, rfl, rfl, rfl⟩

theorem Event.same (h : m.Event ok i m') : m.Same m' := by
  cases h with
  | restart _ _ _ h => exact stop_same.trans h.same
  | _ => exact ⟨rfl, rfl, rfl, rfl, rfl⟩

/-! ## The client -/

theorem Sound.stop (h : m.Sound) : m.stop.dhcp = .cleared := by
  unfold Monitor.stop
  split
  · rcases h with h | h
    · exact h
    · exact absurd ‹_› h.1
  · rfl

theorem stop_isSome (h : m.client.isSome = true) : m.stop.client.isSome = true := by
  unfold stop
  split
  · exact h
  · rfl

theorem Begun.isSome {err : ErrT} (h : m.Begun ok err m') (hm : m.client.isSome = true) :
    m'.client.isSome = true := by
  cases h with
  | down | noMemory => exact hm
  | _ => rfl

theorem Begun.outcome {err : ErrT} (h : m.Begun ok err m') (hm : m.dhcp = .cleared) :
    err ≠ .ok ∧ m'.dhcp = .cleared ∨
      err = .ok ∧ m'.client.isSome = true ∧ m'.dhcp.state ≠ .off ∧ m'.dhcp.pcb = true := by
  cases h with
  | down | noMemory => exact .inl ⟨nofun, hm⟩
  | noPcb => exact .inl ⟨nofun, rfl⟩
  | waiting | asking => exact .inr ⟨rfl, rfl, nofun, rfl⟩

theorem Begun.sound {err : ErrT} (h : m.Begun ok err m') (hm : m.dhcp = .cleared) : m'.Sound :=
  (h.outcome hm).imp And.right fun h => h.2.2

theorem Event.of_off (h : m.Event ok i m') (hoff : m.dhcp.state = .off) : m' = m := by
  cases h with
  | rest => rfl
  | attempt hon | bind hon | nak hon | restart hon => exact absurd hoff hon

theorem Event.isSome (h : m.Event ok i m') (hm : m.client.isSome = true) : m'.client.isSome = true := by
  cases h with
  | rest => exact hm
  | attempt | nak => simpa using hm
  | bind => simpa using hm
  | restart _ _ _ h => exact h.isSome (stop_isSome hm)

theorem Event.sound (h : m.Event ok i m') (hm : m.Sound) : m'.Sound := by
  rcases hm.symm with ⟨hon, hpcb⟩ | hoff
  · have hsome := isSome_of_on hon
    cases h with
    | rest => exact hm
    | attempt _ hstate => exact .inr (by simpa [dhcp_attempt, hsome] using ⟨hstate, hpcb⟩)
    | bind => exact .inr (by simpa [dhcp_bound, hsome] using hpcb)
    | nak => exact .inr (by simpa [dhcp_attempt, dhcp_onClient, hsome] using hpcb)
    | restart _ _ _ h => exact h.sound (Sound.stop hm)
  · rw [h.of_off (by rw [hoff]; rfl)]
    exact hm

/-! ## Steps -/

theorem Coherent.event (h : m.Coherent) (e : m.Event ok i m') : m'.Coherent := by
  have hsame := e.same
  constructor
  case initialized => rw [hsame.status]; exact h.initialized
  case linkUp => rw [hsame.linkUp, hsame.status]; exact h.linkUp
  case up => rw [hsame.up, hsame.status]; exact h.up
  case sound => exact e.sound h.sound
  case stopped =>
    intro hst
    have hoff := h.stopped (hsame.status ▸ hst)
    rw [e.of_off (by rw [hoff]; rfl), hoff]
  case waiting => exact fun hst => e.isSome (h.waiting (hsame.status ▸ hst))
  case fault => rw [hsame.fault]; exact h.fault
  case starts => rw [hsame.starts]; exact h.starts

theorem coherent_started {err : ErrT} (hclient : m.dhcp = .cleared) (hfault : m.fault = false)
    (hstarts : ∀ x ∈ m.starts, x = ⟨true, true, true⟩) (h : (m.starting true true).Begun ok err m') :
    (m'.started err).Coherent ∧ m'.linkUp = true := by
  have hsame := h.same
  have houtcome := h.outcome hclient
  refine ⟨?_, hsame.linkUp⟩
  constructor
  case initialized => unfold started; split <;> nofun
  case linkUp => unfold started; split <;> exact hsame.linkUp
  case up => unfold started; split <;> exact hsame.up
  case sound => exact h.sound hclient
  case stopped =>
    rcases houtcome with ⟨_, hoff⟩ | ⟨rfl, _⟩
    · exact fun _ => hoff
    · nofun
  case waiting =>
    rcases houtcome with ⟨herr, _⟩ | ⟨_, hsome, _⟩
    · simp [started, herr]
    · exact fun _ => hsome
  case fault => exact hsame.fault.trans hfault
  case starts =>
    intro x hx
    rw [started, hsame.starts, starting, hclient] at hx
    rcases List.mem_append.mp hx with hx | hx
    · exact hstarts x hx
    · exact List.mem_singleton.mp hx

theorem Booted.coherent (h : Booted ok m) : m.Coherent := by
  cases h with
  | up h => exact (coherent_started rfl rfl (fun _ hx => absurd hx List.not_mem_nil) h).1
  | down => exact ⟨nofun, rfl, rfl, .inl rfl, fun _ => rfl, nofun, rfl, fun _ hx => absurd hx List.not_mem_nil⟩

theorem Coherent.move (h : m.Coherent) {m1 : Monitor} {status : DhcpLinkStatus} (hsame : m.Same m1)
    (hold : m.status.linkUp = true) (hnew : status.linkUp = true) (hsound : m1.Sound)
    (hstopped : status.stopped = true → m1.dhcp = .cleared) (hwaiting : status ≠ .linkUpWaitingDhcp) :
    { m1 with status := status }.Coherent := by
  have hup (st : DhcpLinkStatus) (hst : st.linkUp = true) : st ≠ .linkDownInit := by rintro rfl; cases hst
  constructor
  case initialized => rintro rfl; cases hnew
  case linkUp => exact hsame.linkUp.trans (h.linkUp.trans (hold.trans hnew.symm))
  case up =>
    rw [hsame.up, h.up, decide_eq_true (hup _ hold)]
    exact (decide_eq_true (hup _ hnew)).symm
  case sound => exact hsound
  case stopped => exact hstopped
  case waiting => exact fun hst => absurd hst hwaiting
  case fault => exact hsame.fault.trans h.fault
  case starts => exact fun x hx => h.starts x (hsame.starts ▸ hx)

theorem Coherent.lost (h : m.Coherent) (hlink : m.linkUp = true) :
    { m.stop with linkUp := false, status := .linkDown }.Coherent := by
  have hsame := stop_same (m := m)
  have hst : m.status ≠ .linkDownInit := by
    intro hst
    rw [h.linkUp, hst] at hlink
    cases hlink
  constructor
  case initialized => nofun
  case linkUp => rfl
  case up => exact hsame.up.trans (h.up.trans (decide_eq_true hst))
  case sound => exact .inl h.sound.stop
  case stopped => exact fun _ => h.sound.stop
  case waiting => nofun
  case fault => exact hsame.fault.trans h.fault
  case starts => exact fun x hx => h.starts x (hsame.starts ▸ hx)

theorem Same.refl : m.Same m := ⟨rfl, rfl, rfl, rfl, rfl⟩

theorem Coherent.pass {bit : UInt32} (h : m.Coherent) (p : m.Pass ok bit m') :
    m'.Coherent ∧ (m'.linkUp = true ↔ bit ≠ 0) := by
  have hkept (hst : m.status.linkUp = true) (hkept : ¬ m.Lost bit) : m.linkUp = true ∧ bit ≠ 0 :=
    have hlink := h.linkUp.trans hst
    ⟨hlink, fun hbit => hkept ⟨hlink, hbit⟩⟩
  have hstop := stop_same (m := m)
  cases p with
  | lost hst hlost => exact ⟨h.lost hlost.1, iff_of_false nofun (not_not.mpr hlost.2)⟩
  | acquired hst hno hs =>
      have hold : m.status.linkUp = true := by rw [hst]; rfl
      obtain ⟨hlink, hbit⟩ := hkept hold hno
      exact ⟨h.move .refl hold rfl h.sound nofun nofun, iff_of_true hlink hbit⟩
  | giveUp hst hno =>
      have hold : m.status.linkUp = true := by rw [hst]; rfl
      obtain ⟨hlink, hbit⟩ := hkept hold hno
      exact ⟨h.move hstop hold rfl (.inl h.sound.stop) (fun _ => h.sound.stop) nofun,
        iff_of_true (hstop.linkUp.trans hlink) hbit⟩
  | wait hst hno | keep hst hno =>
      obtain ⟨hlink, hbit⟩ := hkept (by rw [hst]; rfl) hno
      exact ⟨h, iff_of_true hlink hbit⟩
  | nullPointer hst hno hnone => exact absurd (h.waiting hst) (by simp [hnone])
  | @fallback announced hst hno =>
      have hold : m.status.linkUp = true := by rw [hst]; rfl
      obtain ⟨hlink, hbit⟩ := hkept hold hno
      have hsame : m.Same { m.stop.setAddr staticIpaddr staticNetmask staticGw with announced := announced } :=
        hstop.trans ⟨rfl, rfl, rfl, rfl, rfl⟩
      exact ⟨h.move hsame hold rfl (.inl h.sound.stop) nofun nofun, iff_of_true (hstop.linkUp.trans hlink) hbit⟩
  | stayDown hst hbit =>
      have hlink : m.linkUp = false := by rw [h.linkUp]; rcases hst with hst | hst <;> rw [hst] <;> rfl
      exact ⟨h, iff_of_false (by simp [hlink]) (not_not.mpr hbit)⟩
  | @up announced err m1 hst hbit hann hbegun =>
      have hoff : m.dhcp = .cleared := h.stopped (by rcases hst with hst | hst <;> rw [hst] <;> rfl)
      obtain ⟨hcoherent, hlink⟩ :=
        coherent_started (m := { m with announced := announced }) hoff h.fault h.starts hbegun
      exact ⟨hcoherent, iff_of_true hlink hbit⟩

theorem Coherent.step {restart : ∀ i : Call, Call.Answer i → Prop} {l : Label} (h : m.Coherent)
    (hstep : Step restart m l m') : m'.Coherent := by
  cases hstep with
  | pass p => exact (h.pass p).1
  | event e => exact h.event e

end

theorem coherent_of_run {restart : ∀ i : Call, Call.Answer i → Prop} {cond : Monitor → Label → Prop} {m : Monitor}
    (r : (system restart).Run cond m) : m.Coherent :=
  Run.invariant (I := Coherent) (fun _ (h : Booted anyAnswer _) => h.coherent) (fun _ _ _ _ h _ hstep => h.step hstep) r

end Monitor

/-! ## Runs of the program -/

def CoreLabel.view (s : Core) : CoreLabel → Monitor.Label
  | .pass bit => .pass (bit.getD 0)
  | .event e => .event (e.input s)

variable {restart : ∀ i : Call, Call.Answer i → Prop}

theorem Core.pass_view {s t : Core} {bit : Option UInt32} (hs : s.Valid) (h : s.monitor.Coherent)
    (e : Exec anyAnswer ethernetifSetLink s bit t) :
    t.Valid ∧ ∃ v, bit = some v ∧ s.monitor.Pass anyAnswer v t.monitor := by
  have hdown (hst : s.monitor.status = .linkDown ∨ s.monitor.status = .linkDownInit) :
      s.monitor.linkUp = false ∧ s.monitor.dhcp.state = .off := by
    have hoff := h.stopped (by rcases hst with hst | hst <;> rw [hst] <;> rfl)
    exact ⟨h.linkUp.trans (by rcases hst with hst | hst <;> rw [hst] <;> rfl), by rw [hoff]; rfl⟩
  have hup (hst : s.monitor.status = .linkDown) : s.monitor.up = true := by rw [h.up, hst]; rfl
  exact (ethernetifSetLink_shows h.initialized hdown hup).exec hs rfl e

theorem Core.Step.view {s t : Core} {l : CoreLabel} (hs : s.Valid) (h : s.monitor.Coherent)
    (hstep : Core.Step restart s l t) :
    t.Valid ∧ l ≠ .pass none ∧ s.monitor.Step restart (l.view s) t.monitor := by
  cases hstep with
  | pass e =>
      obtain ⟨ht, v, rfl, hpass⟩ := Core.pass_view hs h e
      exact ⟨ht, nofun, .pass hpass⟩
  | event e =>
      obtain ⟨ht, hevent⟩ := ensures_iff.mp (LwipEvent.code_event _ hs) _ _ e
      exact ⟨ht, nofun, .event hevent⟩

theorem Core.run_view {cond : Core → CoreLabel → Prop} {C : Monitor → Monitor.Label → Prop}
    (hcond : ∀ s l, s.Valid → l ≠ .pass none → cond s l → C s.monitor (l.view s)) {s : Core}
    (r : (linkMonitor restart).Run cond s) : s.Valid ∧ (Monitor.system restart).Run C s.monitor := by
  refine Run.refines (w := Core.seen) CoreLabel.view ?_ ?_ r
  · rintro s ⟨eth, e⟩
    exact ensures_iff.mp (ensures_mxLwipInit eth) _ _ e
  · intro s l t hs hrun hc hstep
    obtain ⟨ht, hread, hview⟩ := Core.Step.view hs (Monitor.coherent_of_run hrun) hstep
    exact ⟨ht, hcond s l hs hread hc, hview⟩

theorem Core.run_coherent {cond : Core → CoreLabel → Prop} {s : Core} (r : (linkMonitor restart).Run cond s) :
    s.Valid ∧ s.monitor.Coherent := by
  obtain ⟨hs, hview⟩ := Core.run_view (C := unrestricted) (fun _ _ _ _ _ => trivial) r
  exact ⟨hs, Monitor.coherent_of_run hview⟩

/-! ## Runs on given answers -/

/-- Answers with which the PHY reports the link as `up`; `memory` says whether there is any for the client. -/
def Call.linked (up memory : Bool) : ∀ i, Call.Answer i
  | .macmiidr _ => some (if up then 4 else 0)
  | .memMalloc => memory
  | i => Call.granted true i

def booted (answers : ∀ i, Call.Answer i) : Core :=
  (Prog.run (fun _ => answers) 0 mxLwipInit (Core.boot cleared)).2

def Core.afterPass (answers : ∀ i, Call.Answer i) (s : Core) : Core :=
  (Prog.run (fun _ => answers) 0 ethernetifSetLink s).2

def Core.after (e : LwipEvent) (s : Core) : Core := (Prog.run (fun _ => Call.granted true) 0 e.code s).2

theorem run_booted {cond : Core → CoreLabel → Prop} (answers : ∀ i, Call.Answer i) :
    (linkMonitor restart).Run cond (booted answers) :=
  .start ⟨cleared, exec_run (fun _ => answers) (fun _ _ => trivial) 0 mxLwipInit _⟩

theorem Core.run_afterPass {cond : Core → CoreLabel → Prop} (answers : ∀ i, Call.Answer i) {s : Core}
    (r : (linkMonitor restart).Run cond s) (h : ∀ bit, cond s (.pass bit)) :
    (linkMonitor restart).Run cond (s.afterPass answers) :=
  r.step (h _) (.pass (exec_run (fun _ => answers) (fun _ _ => trivial) 0 ethernetifSetLink s))

theorem Core.run_after {cond : Core → CoreLabel → Prop} (e : LwipEvent) {s : Core}
    (r : (linkMonitor anyAnswer).Run cond s) (h : cond s (.event e)) : (linkMonitor anyAnswer).Run cond (s.after e) :=
  r.step h (.event (exec_run _ (fun _ _ => trivial) 0 e.code s))

/-! ## Results -/

structure Core.LinkCoherent (s : Core) : Prop where
  initialized : s.dhcpLinkStatus ≠ .notInitialized
  linkUp : s.netif.linkUp = true ↔ s.dhcpLinkStatus = .linkUpWaitingDhcp ∨
    s.dhcpLinkStatus = .linkUpIpAcquired ∨ s.dhcpLinkStatus = .linkUpDhcpError
  up : s.netif.up = false ↔ s.dhcpLinkStatus = .linkDownInit
  starts : ∀ x ∈ s.starts, x.up = true ∧ x.linkUp = true ∧ x.stopped = true

/-- Status and flags agree in every state, and after every pass the link flag is what the bit was. -/
theorem link_monitor_coherent (s : Core) (r : (linkMonitor anyAnswer).Run unrestricted s) :
    s.LinkCoherent ∧ ∀ bit t, Exec anyAnswer ethernetifSetLink s bit t →
      ∃ v, bit = some v ∧ (t.netif.linkUp = true ↔ v ≠ 0) := by
  obtain ⟨hs, h⟩ := Core.run_coherent r
  have hlink : s.netif.linkUp = s.dhcpLinkStatus.linkUp := h.linkUp
  have hup : s.netif.up = decide (s.dhcpLinkStatus ≠ .linkDownInit) := h.up
  refine ⟨⟨h.initialized, ?_, ?_, fun x hx => ?_⟩, fun bit t e => ?_⟩
  · rw [hlink]
    cases s.dhcpLinkStatus <;> simp [DhcpLinkStatus.linkUp]
  · simp [hup]
  · rw [h.starts x hx]
    exact ⟨rfl, rfl, rfl⟩
  · obtain ⟨-, v, hbit, hpass⟩ := Core.pass_view hs h e
    exact ⟨v, hbit, (h.pass hpass).2⟩

def relinked : Core :=
  (((booted (Call.linked true true)).after .fineTmr).afterPass (Call.linked false true)).afterPass (Call.linked true true)

theorem link_monitor_coherent_relinked : relinked.starts.length = 2 ∧
    (relinked.LinkCoherent ∧ ∀ bit t, Exec anyAnswer ethernetifSetLink relinked bit t →
      ∃ v, bit = some v ∧ (t.netif.linkUp = true ↔ v ≠ 0)) := by
  refine ⟨by decide +kernel, link_monitor_coherent relinked (Core.run_afterPass _ (Core.run_afterPass _ ?_ ?_) ?_)⟩
  · exact Core.run_after _ (run_booted _) trivial
  · exact fun _ => trivial
  · exact fun _ => trivial

end Oinzen
