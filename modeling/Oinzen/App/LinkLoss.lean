import Oinzen.App.Lease

/-!
# Addresses after a link loss

`dhcp_stop` removes the address of a client that is on. The static address stays when the link goes
down, since the client is off by then.
-/

namespace Oinzen

open Interference Prog System

namespace Monitor

variable {ok : ∀ i : Call, Call.Answer i → Prop} {m m' : Monitor} {i : Input} {bit : UInt32}

def Clears (m : Monitor) (l : Label) : Prop :=
  l = .pass 0 → m.linkUp = true → m.dhcp.state = .off → m.addr = 0

structure NoStale (m : Monitor) : Prop where
  stopped : m.status.stopped = true → m.addr = 0
  waiting : m.status = .linkUpWaitingDhcp → m.addr ≠ 0 → m.dhcp.state.supplied = true

theorem NoStale.event (h : m.NoStale) (hc : m.Coherent) (e : m.Event ok i m') : m'.NoStale := by
  have hstatus := e.same.status
  by_cases hoff : m.dhcp.state = .off
  · rwa [e.of_off hoff]
  have hsome := isSome_of_on hoff
  refine ⟨fun hst => ?_, fun hst haddr => ?_⟩
  · rw [hstatus] at hst
    exact absurd (by rw [hc.stopped hst]; rfl) hoff
  · rw [hstatus] at hst
    cases e with
    | rest => exact h.waiting hst haddr
    | attempt _ _ _ hlease => simpa [dhcp_attempt, hsome] using hlease (h.waiting hst haddr)
    | bind => simp [dhcp_bound, hsome, DhcpState.supplied]
    | nak => exact absurd rfl haddr
    | restart _ _ _ hb => exact absurd (hb.frame.1.trans (stop_addr (absurd · hoff))) haddr

theorem NoStale.started {err : ErrT} (haddr : m'.addr = 0) : (m'.started err).NoStale :=
  ⟨fun _ => haddr, fun _ h => absurd haddr h⟩

theorem NoStale.pass (h : m.NoStale) (hc : m.Coherent) (hclears : m.Clears (.pass bit)) (p : m.Pass ok bit m') :
    m'.NoStale := by
  cases p with
  | lost hst hlost =>
      refine ⟨fun _ => stop_addr fun hoff => ?_, nofun⟩
      exact hclears (by rw [hlost.2]) hlost.1 hoff
  | acquired => exact ⟨nofun, nofun⟩
  | giveUp hst _ hs =>
      refine ⟨fun _ => stop_addr fun _ => ?_, nofun⟩
      by_contra haddr
      exact Bool.false_ne_true (hs.symm.trans (h.waiting hst haddr))
  | wait | keep | stayDown => exact h
  | nullPointer hst _ hnone => exact absurd (hc.waiting hst) (by simp [hnone])
  | fallback => exact ⟨nofun, nofun⟩
  | up hst hbit hann hbegun =>
      have haddr : m.addr = 0 := h.stopped (by rcases hst with hst | hst <;> rw [hst] <;> rfl)
      exact .started (hbegun.frame.1.trans haddr)

theorem Pass.stale (p : m.Pass ok 0 m') (hlink : m.linkUp = true) (hoff : m.dhcp.state = .off) :
    m'.status = .linkDown ∧ m'.addr = m.addr ∨ m.linkUp ≠ m.status.linkUp := by
  cases p with
  | lost => exact .inl ⟨rfl, by rw [stop, if_pos hoff]⟩
  | acquired _ hno | giveUp _ hno | wait _ hno | nullPointer _ hno | keep _ hno | fallback _ hno =>
      exact absurd ⟨hlink, rfl⟩ hno
  | stayDown hst => rcases hst with hst | hst <;> simp [hst, hlink, DhcpLinkStatus.linkUp]
  | up _ hbit => exact absurd rfl hbit

theorem noStale_of_run {restart : ∀ i : Call, Call.Answer i → Prop} (r : (system restart).Run Clears m) :
    m.NoStale := by
  refine Run.invariant (I := NoStale) ?_ (fun m l m' r h hclears hstep => ?_) r
  · rintro m (⟨h⟩ | _)
    · exact .started h.frame.1
    · exact ⟨fun _ => rfl, nofun⟩
  · cases hstep with
    | pass p => exact h.pass (coherent_of_run r) hclears p
    | event e => exact h.event (coherent_of_run r) e

theorem Pass.announced (p : m.Pass ok bit m') (h : m.NoStale) (hst : m.status = .linkDown ∨ m.status = .linkDownInit) :
    m'.announced = m.announced := by
  have hstopped : m.status.stopped = true := by rcases hst with hst | hst <;> rw [hst] <;> rfl
  cases p with
  | up _ _ hann hbegun =>
      exact hbegun.frame.2.trans (hann.resolve_right fun hann => hann.1 (h.stopped hstopped))
  | stayDown => rfl
  | lost hst' => rcases hst with hst | hst <;> simp [hst] at hst'
  | acquired hst' | giveUp hst' | wait hst' | nullPointer hst' | keep hst' | fallback hst' =>
      rcases hst with hst | hst <;> simp [hst] at hst'

end Monitor

/-- The step is not a link loss that finds the client absent or off and an address on the interface. -/
def clearsAddress (s : Core) (l : CoreLabel) : Prop :=
  l = .pass (some 0) → s.netif.linkUp = true → s.DhcpOff → s.netif.ipAddr = 0

structure Core.NoStaleAddress (s : Core) : Prop where
  down : s.dhcpLinkStatus = .linkDown ∨ s.dhcpLinkStatus = .linkDownInit → s.netif.ipAddr = 0
  waiting : s.dhcpLinkStatus = .linkUpWaitingDhcp → s.netif.ipAddr ≠ 0 →
    ∃ d, s.netif.dhcp = some d ∧ d.state.supplied = true

theorem Core.noStaleAddress {s : Core} (h : s.monitor.NoStale) : s.NoStaleAddress := by
  refine ⟨fun hst => h.stopped ?_, fun hst haddr => ?_⟩
  · change s.dhcpLinkStatus.stopped = true
    rcases hst with hst | hst <;> rw [hst] <;> rfl
  · exact Core.supplied_client (h.waiting hst haddr)

/-- While no link loss leaves an address behind, there is none after it and none is announced when the
link is back; the first such loss breaks this. -/
theorem no_stale_address (s : Core) (r : (linkMonitor anyAnswer).Run clearsAddress s) :
    s.NoStaleAddress ∧
      (∀ bit t, s.dhcpLinkStatus = .linkDown ∨ s.dhcpLinkStatus = .linkDownInit →
        Exec anyAnswer ethernetifSetLink s bit t → t.announced = s.announced) ∧
      ∀ l t, (linkMonitor anyAnswer).step s l t → (t.NoStaleAddress ↔ clearsAddress s l) := by
  obtain ⟨hs, hc⟩ := Core.run_coherent r
  have hstale {t : Core} (rt : (linkMonitor anyAnswer).Run clearsAddress t) : t.monitor.NoStale := by
    refine Monitor.noStale_of_run (Core.run_view (fun s l _ hread hclears => ?_) rt).2
    match l with
    | .pass none => exact absurd rfl hread
    | .pass (some v) =>
        intro hbit hlink hoff
        cases hbit
        exact hclears rfl hlink (s.dhcpOff_iff.mpr hoff)
    | .event e => nofun
  refine ⟨Core.noStaleAddress (hstale r), fun bit t hst e => ?_, fun l t hstep => ⟨fun ht => ?_, fun hclears => ?_⟩⟩
  · obtain ⟨-, v, -, hpass⟩ := Core.pass_view hs hc e
    exact hpass.announced (hstale r) hst
  · rintro rfl hlink hoff
    cases hstep with
    | pass e =>
        obtain ⟨-, v, hv, hpass⟩ := Core.pass_view hs hc e
        cases hv
        obtain ⟨hst, haddr⟩ := (hpass.stale hlink (s.dhcpOff_iff.mp hoff)).resolve_right (absurd hc.linkUp)
        exact haddr.symm.trans (ht.down (.inl hst))
  · exact Core.noStaleAddress (hstale (r.step hclears hstep))

def unplugged : Core := leased.afterPass (Call.linked false true)

theorem run_unplugged : (linkMonitor anyAnswer).Run clearsAddress unplugged := by
  have hevent {s : Core} {e : LwipEvent} : clearsAddress s (.event e) := nofun
  have hon {s : Core} (h : s.monitor.dhcp.state ≠ .off) (bit : Option UInt32) : clearsAddress s (.pass bit) :=
    fun _ _ hoff => absurd (s.dhcpOff_iff.mp hoff) h
  refine Core.run_afterPass _ (Core.run_afterPass _ (Core.run_after _ (Core.run_after _ ?_ hevent) hevent) ?_) ?_
  · exact Core.run_after _ (Core.run_after _ (run_booted _) hevent) hevent
  · exact hon (by decide +kernel)
  · exact hon (by decide +kernel)

theorem no_stale_address_unplugged : (leased.netif.ipAddr ≠ 0 ∧ unplugged.dhcpLinkStatus = .linkDown) ∧
    (unplugged.NoStaleAddress ∧
      (∀ bit t, unplugged.dhcpLinkStatus = .linkDown ∨ unplugged.dhcpLinkStatus = .linkDownInit →
        Exec anyAnswer ethernetifSetLink unplugged bit t → t.announced = unplugged.announced) ∧
      ∀ l t, (linkMonitor anyAnswer).step unplugged l t → (t.NoStaleAddress ↔ clearsAddress unplugged l)) :=
  ⟨by decide +kernel, no_stale_address unplugged run_unplugged⟩

def lostStatic : Core :=
  ((booted (Call.linked true false)).afterPass (Call.linked true true)).afterPass (Call.linked false true)

theorem stale_address : ¬ ∀ s, (linkMonitor anyAnswer).Run unrestricted s → s.NoStaleAddress := by
  intro h
  have hrun : (linkMonitor anyAnswer).Run unrestricted lostStatic :=
    Core.run_afterPass _ (Core.run_afterPass _ (run_booted _) fun _ => trivial) fun _ => trivial
  have haddr : lostStatic.netif.ipAddr = 0 := (h lostStatic hrun).down (.inl (by decide +kernel))
  exact absurd haddr (by decide +kernel)

end Oinzen
