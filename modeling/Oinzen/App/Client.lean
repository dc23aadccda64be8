import Oinzen.App.Coherence

/-!
# The monitor and the client agree

Runs in which the client finds a PCB whenever it restarts by itself.
-/

namespace Oinzen

open Interference Prog System

namespace Monitor

variable {ok : ∀ i : Call, Call.Answer i → Prop} {m m' : Monitor} {i : Input}
  {restart : ∀ i : Call, Call.Answer i → Prop}

def Static (m : Monitor) : Prop := m.addr = staticIpaddr ∧ m.mask = staticNetmask ∧ m.gw = staticGw

structure Settled (m : Monitor) : Prop where
  waiting : m.status = .linkUpWaitingDhcp → m.dhcp.state ≠ .off
  acquired : m.status = .linkUpIpAcquired → m.dhcp.state = .off → m.Static

theorem Begun.on {err : ErrT} (h : m.Begun pcbFound err m') (hup : m.up = true) (hsome : m.client.isSome = true) :
    m'.dhcp.state ≠ .off := by
  cases h with
  | down hdown => simp [hup] at hdown
  | noMemory hnone => simp [hnone] at hsome
  | noPcb hpcb => cases hpcb
  | waiting | asking => nofun

theorem Event.stays_on (h : m.Event pcbFound i m') (hup : m.up = true) (hon : m.dhcp.state ≠ .off) :
    m'.dhcp.state ≠ .off := by
  have hsome := isSome_of_on hon
  cases h with
  | rest => exact hon
  | attempt _ hstate => simpa [dhcp_attempt, hsome] using hstate
  | bind => simp [dhcp_bound, hsome]
  | nak => simp [dhcp_attempt, dhcp_onClient, hsome]
  | restart _ _ _ h => exact h.on (stop_same.up.trans hup) (stop_isSome hsome)

theorem Settled.event (h : m.Settled) (hc : m.Coherent) (e : m.Event pcbFound i m') : m'.Settled := by
  have hstatus := e.same.status
  by_cases hoff : m.dhcp.state = .off
  · rwa [e.of_off hoff]
  · have hup : m.up = true := by
      rw [hc.up, decide_eq_true_eq]
      intro hst
      exact hoff (by rw [hc.stopped (by rw [hst]; rfl)]; rfl)
    have hon := e.stays_on hup hoff
    exact ⟨fun _ => hon, fun _ h => absurd h hon⟩

theorem settled_started {err : ErrT} (hclient : m.dhcp = .cleared) (h : m.Begun ok err m') :
    (m'.started err).Settled := by
  rcases h.outcome hclient with ⟨herr, _⟩ | ⟨rfl, _, hon, _⟩
  · exact ⟨by simp [started, herr], by simp [started, herr]⟩
  · exact ⟨fun _ => hon, by simp [started]⟩

theorem Settled.pass {bit : UInt32} (h : m.Settled) (hc : m.Coherent) (p : m.Pass ok bit m') : m'.Settled := by
  cases p with
  | lost => exact ⟨nofun, nofun⟩
  | acquired _ _ hs =>
      refine ⟨nofun, fun _ hoff => ?_⟩
      change m.dhcp.state = .off at hoff
      rw [hoff] at hs
      cases hs
  | giveUp => exact ⟨nofun, nofun⟩
  | wait | keep | stayDown => exact h
  | nullPointer hst _ hnone => exact absurd (hc.waiting hst) (by simp [hnone])
  | fallback => exact ⟨nofun, fun _ _ => ⟨rfl, rfl, rfl⟩⟩
  | @up announced err m1 hst hbit hann hbegun =>
      have hoff : m.dhcp = .cleared := hc.stopped (by rcases hst with hst | hst <;> rw [hst] <;> rfl)
      exact settled_started (m := { m with announced := announced }.starting true true) hoff hbegun

theorem settled_of_run {cond : Monitor → Label → Prop} (r : (system pcbFound).Run cond m) : m.Settled := by
  refine Run.invariant (I := Settled) ?_ (fun m l m' r h _ hstep => ?_) r
  · rintro m (⟨h⟩ | _)
    · exact settled_started rfl h
    · exact ⟨nofun, nofun⟩
  · cases hstep with
    | pass p => exact h.pass (coherent_of_run r) p
    | event e => exact h.event (coherent_of_run r) e

structure Fallback (m : Monitor) : Prop where
  coherent : m.Coherent
  status : m.status = .linkUpIpAcquired
  off : m.dhcp.state = .off
  static : m.Static

theorem Pass.fallback_of_error {bit : UInt32} (p : m.Pass ok bit m') (hc : m.Coherent)
    (hst : m.status = .linkUpDhcpError) (hbit : bit ≠ 0) : m'.Fallback := by
  have hcoherent := (hc.pass p).1
  cases p with
  | lost _ hlost => exact absurd hlost.2 hbit
  | fallback =>
      refine ⟨hcoherent, rfl, ?_, rfl, rfl, rfl⟩
      exact congrArg Client.state hc.sound.stop
  | acquired hst' | giveUp hst' | wait hst' | nullPointer hst' | keep hst' => simp [hst] at hst'
  | stayDown hst' | up hst' => simp [hst] at hst'

theorem Fallback.step {l : Label} (h : m.Fallback) (hbit : ∀ bit, l = .pass bit → bit ≠ 0)
    (hstep : Step restart m l m') : m'.Fallback := by
  cases hstep with
  | event e => rwa [e.of_off h.off]
  | pass p =>
      have hst := h.status
      cases p with
      | keep => exact h
      | lost _ hlost => exact absurd hlost.2 (hbit _ rfl)
      | acquired hst' | giveUp hst' | wait hst' | nullPointer hst' | fallback hst' => simp [hst] at hst'
      | stayDown hst' | up hst' => simp [hst] at hst'

end Monitor

def Core.DhcpOff (s : Core) : Prop := ∀ d, s.netif.dhcp = some d → d.state = .off

def Core.Static (s : Core) : Prop :=
  s.netif.ipAddr = staticIpaddr ∧ s.netif.netmask = staticNetmask ∧ s.netif.gw = staticGw

theorem Core.dhcpOff_iff (s : Core) : s.DhcpOff ↔ s.monitor.dhcp.state = .off := by
  have hstate : s.monitor.dhcp.state = s.dhcp.state := s.dhcp_state.symm
  rw [hstate]
  cases h : s.netif.dhcp with
  | none => simp [Core.DhcpOff, Core.dhcp, h, Dhcp.cleared]
  | some d => simp [Core.DhcpOff, Core.dhcp, h]

structure Core.ClientCoherent (s : Core) : Prop where
  stopped : s.dhcpLinkStatus = .linkDown ∨ s.dhcpLinkStatus = .linkDownInit ∨ s.dhcpLinkStatus = .linkUpDhcpError →
    ∀ d, s.netif.dhcp = some d → d.state = .off ∧ d.pcbAllocated = false
  waiting : s.dhcpLinkStatus = .linkUpWaitingDhcp →
    ∃ d, s.netif.dhcp = some d ∧ d.state ≠ .off ∧ d.pcbAllocated = true
  acquired : s.dhcpLinkStatus = .linkUpIpAcquired →
    (∃ d, s.netif.dhcp = some d ∧ d.state ≠ .off) ∨ s.DhcpOff ∧ s.Static
  fault : s.fault = false

structure Core.OnStatic (s : Core) : Prop where
  status : s.dhcpLinkStatus = .linkUpIpAcquired
  off : s.DhcpOff
  static : s.Static

def linkKept (_ : Core) (l : CoreLabel) : Prop := ∀ bit, l = .pass (some bit) → bit ≠ 0

theorem Core.seen_dhcp {s : Core} {d : Dhcp} (hd : s.netif.dhcp = some d) : s.monitor.dhcp = d.client := by
  simp [Core.monitor, Monitor.dhcp, hd]

theorem Core.supplied_client {s : Core} (hs : s.monitor.dhcp.state.supplied = true) :
    ∃ d, s.netif.dhcp = some d ∧ d.state.supplied = true := by
  have hon : s.monitor.dhcp.state ≠ .off := fun hoff => by rw [hoff] at hs; cases hs
  obtain ⟨d, hd⟩ := Option.isSome_iff_exists.mp (s.dhcp_isSome.trans (Monitor.isSome_of_on hon))
  rw [Core.seen_dhcp hd] at hs
  exact ⟨d, hd, hs⟩

theorem Core.clientCoherent {s : Core} (hc : s.monitor.Coherent) (h : s.monitor.Settled) : s.ClientCoherent := by
  constructor
  case stopped =>
    intro hst d hd
    have hstopped : s.monitor.status.stopped = true := by
      change s.dhcpLinkStatus.stopped = true
      rcases hst with hst | hst | hst <;> rw [hst] <;> rfl
    have hclient : d.client = .cleared := (Core.seen_dhcp hd).symm.trans (hc.stopped hstopped)
    exact ⟨congrArg Client.state hclient, congrArg Client.pcb hclient⟩
  case waiting =>
    intro hst
    have hsome : s.netif.dhcp.isSome = true := s.dhcp_isSome.trans (hc.waiting hst)
    obtain ⟨d, hd⟩ := Option.isSome_iff_exists.mp hsome
    have hon := h.waiting hst
    rcases hc.sound with hoff | ⟨_, hpcb⟩
    · exact absurd (by rw [hoff]; rfl) hon
    · rw [Core.seen_dhcp hd] at hon hpcb
      exact ⟨d, hd, hon, hpcb⟩
  case acquired =>
    intro hst
    by_cases hoff : s.DhcpOff
    · exact .inr ⟨hoff, h.acquired hst (s.dhcpOff_iff.mp hoff)⟩
    · simp only [Core.DhcpOff, not_forall] at hoff
      obtain ⟨d, hd, hon⟩ := hoff
      exact .inl ⟨d, hd, hon⟩
  case fault => exact hc.fault

theorem Core.onStatic_iff (s : Core) (hc : s.monitor.Coherent) : s.OnStatic ↔ s.monitor.Fallback := by
  refine ⟨fun h => ⟨hc, h.status, s.dhcpOff_iff.mp h.off, h.static⟩, fun h => ⟨h.status, ?_, h.static⟩⟩
  exact s.dhcpOff_iff.mpr h.off

theorem Core.OnStatic.goOn {restart : ∀ i : Call, Call.Answer i → Prop} {s u : Core} (hs : s.Valid)
    (hc : s.monitor.Coherent) (h : s.OnStatic) (r : ((linkMonitor restart).goOn s).Run linkKept u) : u.OnStatic := by
  have hrun : u.Valid ∧ u.monitor.Fallback := by
    refine Run.invariant (I := fun u => u.Valid ∧ u.monitor.Fallback) ?_ (fun u l v _ hu hkept hstep => ?_) r
    · rintro _ rfl
      exact ⟨hs, (Core.onStatic_iff _ hc).mp h⟩
    · obtain ⟨hv, -, hview⟩ := Core.Step.view hu.1 hu.2.coherent hstep
      refine ⟨hv, hu.2.step (fun bit hbit => ?_) hview⟩
      cases hstep with
      | pass e =>
          obtain ⟨-, v, rfl, -⟩ := Core.pass_view hu.1 hu.2.coherent e
          cases hbit
          exact hkept v rfl
      | event e => cases hbit
  exact (Core.onStatic_iff _ hrun.2.coherent).mpr hrun.2

/-- Status, client and address agree, and the fallback lasts until a link loss. -/
theorem client_coherent (s : Core) (r : (linkMonitor pcbFound).Run unrestricted s) :
    s.ClientCoherent ∧
      (∀ v t, s.dhcpLinkStatus = .linkUpDhcpError → Exec anyAnswer ethernetifSetLink s (some v) t → v ≠ 0 →
        t.OnStatic) ∧
      (s.OnStatic → ∀ u, ((linkMonitor pcbFound).goOn s).Run linkKept u → u.OnStatic) := by
  obtain ⟨hs, hc⟩ := Core.run_coherent r
  obtain ⟨-, hview⟩ := Core.run_view (C := unrestricted) (fun _ _ _ _ _ => trivial) r
  refine ⟨Core.clientCoherent hc (Monitor.settled_of_run hview), fun v t hst e hv => ?_, fun h u => h.goOn hs hc⟩
  obtain ⟨-, w, hw, hpass⟩ := Core.pass_view hs hc e
  cases hw
  exact (Core.onStatic_iff t (hc.pass hpass).1).mpr (hpass.fallback_of_error hc hst hv)

def fallenBack : Core := ((booted (Call.linked true false)).afterPass (Call.linked true true)).after .coarseTmr

theorem run_fallenBack : (linkMonitor pcbFound).Run unrestricted fallenBack := by
  have hfound (i : Call) : pcbFound i (Call.granted true i) := by cases i <;> trivial
  have hrun : (linkMonitor pcbFound).Run unrestricted
      ((booted (Call.linked true false)).afterPass (Call.linked true true)) :=
    Core.run_afterPass _ (run_booted _) fun _ => trivial
  have hexec : Exec pcbFound LwipEvent.coarseTmr.code _ _ fallenBack :=
    exec_run (fun _ => Call.granted true) (fun _ => hfound) 0 _ _
  exact hrun.step trivial (.event hexec)

theorem onStatic_fallenBack : fallenBack.OnStatic where
  status := by decide +kernel
  off := fallenBack.dhcpOff_iff.mpr (by decide +kernel)
  static := ⟨by decide +kernel, by decide +kernel, by decide +kernel⟩

theorem client_coherent_fallback : fallenBack.OnStatic ∧
    (fallenBack.ClientCoherent ∧
      (∀ v t, fallenBack.dhcpLinkStatus = .linkUpDhcpError →
        Exec anyAnswer ethernetifSetLink fallenBack (some v) t → v ≠ 0 → t.OnStatic) ∧
      (fallenBack.OnStatic → ∀ u, ((linkMonitor pcbFound).goOn fallenBack).Run linkKept u → u.OnStatic)) :=
  ⟨onStatic_fallenBack, client_coherent fallenBack run_fallenBack⟩

end Oinzen
