import Oinzen.App.Client

/-!
# Leases that are lost

The monitor takes note of a lease once. The client goes on by itself, and when it loses the lease
the monitor does not see that.
-/

namespace Oinzen

open Interference Prog System

namespace Monitor

variable {ok : ∀ i : Call, Call.Answer i → Prop} {m m' : Monitor} {i : Input} {bit : UInt32}

/-- The event does not end a lease that the monitor has taken note of, acknowledges an address, and
does not renew a lease that there is not. -/
structure Keeps (m : Monitor) (i : Input) : Prop where
  nullAck : ¬ i.ack 0
  lease : m.status = .linkUpIpAcquired → ¬ i.nak ∧ ¬ i.expiry
  renewal : m.dhcp.state = .requesting → ¬ i.renewal

def KeepsLease (m : Monitor) (l : Label) : Prop := ∀ i, l = .event i → m.Keeps i

structure Leased (m : Monitor) : Prop where
  acquired : m.status = .linkUpIpAcquired → m.addr ≠ 0 ∧ (m.dhcp.state.supplied = true ∨ m.dhcp.state = .off)
  supplied : m.dhcp.state.supplied = true → m.addr ≠ 0
  checking : m.dhcp.state = .checking → m.dhcp.offered ≠ 0

theorem Leased.of_cleared (hclient : m.dhcp = .cleared) (h : m.status = .linkUpIpAcquired → m.addr ≠ 0) :
    m.Leased := by
  constructor
  case acquired => exact fun hst => ⟨h hst, .inr (by rw [hclient]; rfl)⟩
  case supplied => intro hs; rw [hclient] at hs; cases hs
  case checking => intro hs; rw [hclient] at hs; cases hs

theorem stop_addr (h : m.dhcp.state = .off → m.addr = 0) : m.stop.addr = 0 := by
  unfold stop
  split
  · exact h ‹_›
  · rfl

theorem Begun.frame {err : ErrT} (h : m.Begun ok err m') : m'.addr = m.addr ∧ m'.announced = m.announced := by
  cases h <;> exact ⟨rfl, rfl⟩

theorem Begun.state {err : ErrT} (h : m.Begun ok err m') (hm : m.dhcp = .cleared) :
    m'.dhcp.state.supplied = false ∧ m'.dhcp.state ≠ .checking := by
  cases h with
  | down | noMemory => rw [hm]; exact ⟨rfl, nofun⟩
  | _ => exact ⟨rfl, nofun⟩

theorem Begun.leased {err : ErrT} (h : m.Begun ok err m') (hm : m.dhcp = .cleared)
    (hst : m.status ≠ .linkUpIpAcquired) : m'.Leased := by
  obtain ⟨hs, hcheck⟩ := h.state hm
  refine ⟨fun h' => absurd (h.same.status.symm.trans h') hst, fun h' => ?_, fun h' => absurd h' hcheck⟩
  exact absurd (hs.symm.trans h') Bool.false_ne_true

theorem Leased.takes {addr : IpAddr} (h : m.Leased) (hk : m.Keeps i) (ht : m.Takes i addr) : addr ≠ 0 := by
  rcases ht with ⟨hcheck, rfl⟩ | hack
  · exact h.checking hcheck
  · rintro rfl
    exact hk.nullAck hack

theorem Leased.event (h : m.Leased) (hc : m.Coherent) (hk : m.Keeps i) (e : m.Event ok i m') : m'.Leased := by
  by_cases hoff : m.dhcp.state = .off
  · rwa [e.of_off hoff]
  have hsome := isSome_of_on hoff
  have hlease (hst : m.status = .linkUpIpAcquired) : m.dhcp.state.supplied = true :=
    (h.acquired hst).2.resolve_right hoff
  cases e with
  | rest => exact h
  | @attempt state addr asked _ _ _ hkeeps _ hcheck hrenew =>
      constructor
      case acquired =>
        intro hst
        exact ⟨(h.acquired hst).1, .inl (by simpa [dhcp_attempt, hsome] using hkeeps (hlease hst))⟩
      case supplied =>
        intro hs
        have hs : state.supplied = true := by simpa [dhcp_attempt, hsome] using hs
        exact h.supplied ((hrenew hs).resolve_right fun hr => hk.renewal hr.1 hr.2)
      case checking =>
        intro hs
        have hs : state = .checking := by simpa [dhcp_attempt, hsome] using hs
        simpa [dhcp_attempt, hsome] using h.takes hk (hcheck hs)
  | bind _ _ ht =>
      have haddr := h.takes hk ht
      constructor
      case acquired => exact fun _ => ⟨haddr, .inl (by simp [dhcp_bound, hsome, DhcpState.supplied])⟩
      case supplied => exact fun _ => haddr
      case checking => exact fun _ => by simpa [dhcp_bound, hsome] using haddr
  | nak _ _ _ hnak =>
      constructor
      case acquired => exact fun hst => absurd hnak (hk.lease hst).1
      case supplied => intro hs; simp [dhcp_attempt, dhcp_onClient, hsome, DhcpState.supplied] at hs
      case checking => intro hs; simp [dhcp_attempt, dhcp_onClient, hsome] at hs
  | restart _ _ hexpiry hb =>
      refine hb.leased hc.sound.stop fun hst => ?_
      have hst := stop_same.status.symm.trans hst
      exact (hk.lease hst).2 (hexpiry (hlease hst))

theorem Leased.started {err : ErrT} (hclient : m.dhcp = .cleared) (hb : m.Begun ok err m') :
    (m'.started err).Leased := by
  obtain ⟨hs, hcheck⟩ := hb.state hclient
  refine ⟨fun hst => ?_, fun h => absurd (hs.symm.trans h) Bool.false_ne_true, fun h => absurd h hcheck⟩
  unfold Monitor.started at hst
  split at hst <;> cases hst

theorem Leased.pass (h : m.Leased) (hc : m.Coherent) (p : m.Pass ok bit m') : m'.Leased := by
  cases p with
  | lost | giveUp => exact .of_cleared hc.sound.stop nofun
  | acquired _ _ hs => exact ⟨fun _ => ⟨h.supplied hs, .inl hs⟩, h.supplied, h.checking⟩
  | wait | keep | stayDown => exact h
  | nullPointer hst _ hnone => exact absurd (hc.waiting hst) (by simp [hnone])
  | fallback =>
      have hstatic : staticIpaddr ≠ 0 := by decide
      exact .of_cleared hc.sound.stop fun _ => hstatic
  | @up announced err m1 hst hbit hann hbegun =>
      have hoff : m.dhcp = .cleared := hc.stopped (by rcases hst with hst | hst <;> rw [hst] <;> rfl)
      exact .started (m := starting true true { m with announced := announced }) hoff hbegun

theorem leased_of_run {restart : ∀ i : Call, Call.Answer i → Prop} (r : (system restart).Run KeepsLease m) :
    m.Leased := by
  refine Run.invariant (I := Leased) ?_ (fun m l m' r h hkeeps hstep => ?_) r
  · rintro m (⟨h⟩ | _)
    · exact .started rfl h
    · exact .of_cleared rfl nofun
  · cases hstep with
    | pass p => exact h.pass (coherent_of_run r) p
    | event e => exact h.event (coherent_of_run r) (hkeeps _ rfl) e

/-! ## Events that end a lease -/

theorem dhcpHandle_lost {yiaddr : IpAddr} {o : DhcpOptions} {msgType : UInt8} (hs : m.dhcp.state.supplied = true)
    (hasked : m.dhcp.state.asked) (hlost : msgType = 6 ∨ msgType = 5 ∧ yiaddr = 0) :
    Shows ok (dhcpHandle yiaddr o msgType m.dhcp.state) m fun _ m' => m'.addr = 0 := by
  have hextends : m.dhcp.state = .rebinding ∨ m.dhcp.state = .renewing := by
    rcases hasked with h | h | h
    · rw [h] at hs
      cases hs
    · rw [h] at hs
      cases hs
    · exact h
  rcases hlost with rfl | ⟨rfl, rfl⟩
  · refine refines_ite nofun fun _ => refines_ite (fun _ => ?_) fun h => absurd ⟨rfl, .inr (.inr hextends)⟩ h
    refine (dhcpSetState_shows .backingOff).next (netifClearAddr_shows.next ?_)
    refine dhcpDiscover_shows.seq fun _ m' ⟨_, _, _, h⟩ => refines_ret ?_
    rw [h]
    rfl
  · refine refines_ite (fun _ => refines_ite (fun h => ?_) fun _ => ?_) fun h => absurd rfl h
    · rcases hextends with h' | h' <;> rw [h'] at h <;> cases h
    · refine refines_ite (fun _ => ?_) fun h => absurd (.inr hextends) h
      refine (dhcpHandleAck_shows 0 o).next (dhcpBind_shows.mono fun _ m' ⟨_, _, _, _, h⟩ => ?_)
      have hsome := isSome_of_on (m := m) (by rintro h; rw [h] at hs; cases hs)
      rw [h, offer, dhcp_onClient hsome]
      rfl

theorem dhcpRestart_lost (hon : m.dhcp.state ≠ .off) : Shows ok dhcpRestart m fun _ m' => m'.addr = 0 :=
  dhcpRestart_shows.mono fun _ _ ⟨_, h⟩ => h.frame.1.trans (stop_addr (absurd · hon))

end Monitor

/-! ## Results -/

/-- No ACK of 0.0.0.0 is taken, no NAK and no expiry while the monitor has taken note of a lease, and T1
and T2 are not over while the client requests. -/
def keepsLease (s : Core) : CoreLabel → Prop
  | .event (.recv p) => ¬ s.getsAck p 0 ∧ (s.dhcpLinkStatus = .linkUpIpAcquired → ¬ s.getsNak p)
  | .event .coarseTmr => (s.dhcpLinkStatus = .linkUpIpAcquired → ¬ s.leaseOver) ∧
      (s.dhcp.state = .requesting → ¬ s.renewalOver)
  | _ => True

theorem Core.keeps {s : Core} {e : LwipEvent} (h : keepsLease s (.event e)) : s.monitor.Keeps (e.input s) := by
  cases e with
  | recv p => exact ⟨h.1, fun hst => ⟨h.2 hst, id⟩, fun _ => id⟩
  | coarseTmr => exact ⟨id, fun hst => ⟨id, h.1 hst⟩, fun hst => h.2 (s.dhcp_state.trans hst)⟩
  | fineTmr | arpReply => exact ⟨id, fun _ => ⟨id, id⟩, fun _ => id⟩

theorem ensures_dhcpRecv {ok : ∀ i : Call, Call.Answer i → Prop} {s : Core} {p : DhcpPacket} {msgType : UInt8}
    {o : DhcpOptions} {Q : Unit → Core → Prop} (h : s.gets p msgType o)
    (handled : Ensures ok (dhcpHandle p.yiaddr o msgType s.dhcp.state) s Q) : Ensures ok (dhcpRecv p) s Q := by
  obtain ⟨hpcb, hlen, hop, hchaddr, hxid, hopt, htype⟩ := h
  have hsome := Core.isSome_of_pcb hpcb
  simpa [dhcpRecv, hsome, hpcb, Nat.not_lt.mpr hlen, hop, hchaddr, hxid, hopt, htype] using handled

theorem Core.recv_lost {s t : Core} {p : DhcpPacket} (hs : s.Valid) (hsupplied : s.monitor.dhcp.state.supplied = true)
    (hlost : s.getsAck p 0 ∨ s.getsNak p) (e : Exec anyAnswer (dhcpRecv p) s () t) : t.netif.ipAddr = 0 := by
  have handled {msgType : UInt8} {o : DhcpOptions} (hasked : s.dhcp.state.asked) (hgets : s.gets p msgType o)
      (hends : msgType = 6 ∨ msgType = 5 ∧ p.yiaddr = 0) :
      Ensures anyAnswer (dhcpRecv p) s fun _ t => t.netif.ipAddr = 0 := by
    rw [s.dhcp_state] at hasked
    refine ensures_dhcpRecv hgets ?_
    rw [s.dhcp_state]
    exact (Monitor.dhcpHandle_lost hsupplied hasked hends s hs rfl).mono fun _ _ ht => ht.2
  have hensures : Ensures anyAnswer (dhcpRecv p) s fun _ t => t.netif.ipAddr = 0 := by
    rcases hlost with ⟨hasked, hnull, o, hgets⟩ | ⟨hasked, o, hgets⟩
    · exact handled hasked hgets (.inr ⟨rfl, hnull.symm⟩)
    · exact handled hasked hgets (.inl rfl)
  exact ensures_iff.mp hensures _ _ e

theorem Core.coarseTmr_lost {s t : Core} (hs : s.Valid) (hon : s.monitor.dhcp.state ≠ .off) (hover : s.leaseOver)
    (e : Exec anyAnswer dhcpCoarseTmr s () t) : t.netif.ipAddr = 0 := by
  have hsome : s.netif.dhcp.isSome = true := s.dhcp_isSome.trans (Monitor.isSome_of_on hon)
  have hstate : s.dhcp.state ≠ .off := by rwa [s.dhcp_state]
  have hensures : Ensures anyAnswer dhcpCoarseTmr s fun _ t => t.netif.ipAddr = 0 := by
    simp only [dhcpCoarseTmr, ensures_bind, ensures_get, hsome, if_true, hstate, ne_eq, not_false_eq_true,
      decide_true, when_true, leaseTick]
    refine ensures_count (fun d => { d with leaseUsed := d.leaseUsed + 1 }) (fun _ => rfl) (fun _ => rfl) hs hsome
      fun s1 hs1 _ hm1 hd1 => ?_
    rw [if_pos (decide_eq_true hover.1)] at hd1
    rw [if_pos (by rw [hd1]; simpa [Core.leaseOver] using hover)]
    have hon : s1.monitor.dhcp.state ≠ .off := by rwa [hm1]
    exact (Monitor.dhcpRestart_lost hon s1 hs1 rfl).mono fun _ _ ht => ht.2
  exact ensures_iff.mp hensures _ _ e

/-- While no lease is lost behind its back, the monitor is right about the address; a lease that is lost
proves it wrong at once. -/
theorem acquired_has_address (s : Core) (r : (linkMonitor anyAnswer).Run keepsLease s)
    (hst : s.dhcpLinkStatus = .linkUpIpAcquired) :
    (s.netif.ipAddr ≠ 0 ∧ ((∃ d, s.netif.dhcp = some d ∧ d.state.supplied = true) ∨ s.DhcpOff)) ∧
      ∀ e t, Exec anyAnswer e.code s () t →
        t.dhcpLinkStatus = .linkUpIpAcquired ∧ (t.netif.ipAddr ≠ 0 ↔ keepsLease s (.event e)) := by
  have hleased {s : Core} (r : (linkMonitor anyAnswer).Run keepsLease s) : s.monitor.Leased := by
    refine Monitor.leased_of_run (Core.run_view (fun s l _ _ hkeeps i hi => ?_) r).2
    cases l with
    | pass => cases hi
    | event e =>
        cases hi
        exact Core.keeps hkeeps
  obtain ⟨hs, hc⟩ := Core.run_coherent r
  obtain ⟨haddr, hclient⟩ := (hleased r).acquired hst
  refine ⟨⟨haddr, hclient.imp Core.supplied_client s.dhcpOff_iff.mpr⟩, fun e t run => ?_⟩
  obtain ⟨-, hevent⟩ := ensures_iff.mp (LwipEvent.code_event e hs) _ _ run
  have hst' : t.dhcpLinkStatus = .linkUpIpAcquired := hevent.same.status.trans hst
  have hstate : s.dhcp.state = s.monitor.dhcp.state := s.dhcp_state
  refine ⟨hst', fun haddr' => ?_, fun hkeeps => ((hleased (r.step hkeeps (.event run))).acquired hst').1⟩
  cases e with
  | fineTmr | arpReply => trivial
  | recv p =>
      have hlost (h : s.getsAck p 0 ∨ s.getsNak p) : False := by
        have hasked : s.dhcp.state.asked := h.elim And.left And.left
        rw [hstate] at hasked
        rcases hclient with hsupplied | hoff
        · exact haddr' (Core.recv_lost hs hsupplied h run)
        · rw [hoff] at hasked
          rcases hasked with h | h | h | h <;> cases h
      exact ⟨fun h => hlost (.inl h), fun _ h => hlost (.inr h)⟩
  | coarseTmr =>
      refine ⟨fun _ hover => ?_, fun hreq => ?_⟩
      · have hon : s.monitor.dhcp.state ≠ .off := by
          rcases hc.sound with hoff | hon
          · have hexpires : s.monitor.dhcp.expires = true := s.dhcp_expires ▸ decide_eq_true hover.1
            rw [hoff] at hexpires
            cases hexpires
          · exact hon.1
        exact haddr' (Core.coarseTmr_lost hs hon hover run)
      · rw [hstate] at hreq
        rcases hclient with h | h <;> rw [hreq] at h <;> cases h

def reply (msgType : UInt8) : DhcpPacket where
  len := 300
  op := 2
  chaddr := [0x00, 0x80, 0xE1, 0x00, 0x00, 0x00]
  xid := 0xABCD0001
  yiaddr := 0xC0A80064
  options := some ⟨some msgType, some 0xC0A80001, some 120, none, none, some 0xFFFFFF00, none⟩

def leased : Core :=
  (((((booted (Call.linked true true)).after (.recv (reply 2))).after (.recv (reply 5))).after .fineTmr).after
    .fineTmr).afterPass (Call.linked true true)

theorem keepsLease_reply {s : Core} {msgType : UInt8} (hst : s.dhcpLinkStatus ≠ .linkUpIpAcquired) :
    keepsLease s (.event (.recv (reply msgType))) := by
  have haddr : (reply msgType).yiaddr ≠ 0 := by simp [reply]
  exact ⟨fun h => haddr h.2.1.symm, fun h => absurd h hst⟩

theorem run_leased : (linkMonitor anyAnswer).Run keepsLease leased := by
  refine Core.run_afterPass _ (Core.run_after _ (Core.run_after _ ?_ trivial) trivial) fun _ => trivial
  refine Core.run_after _ (Core.run_after _ (run_booted _) ?_) ?_
  · exact keepsLease_reply (by decide +kernel)
  · exact keepsLease_reply (by decide +kernel)

theorem acquired_has_address_leased : leased.dhcpLinkStatus = .linkUpIpAcquired ∧
    (leased.netif.ipAddr ≠ 0 ∧
      ((∃ d, leased.netif.dhcp = some d ∧ d.state.supplied = true) ∨ leased.DhcpOff)) ∧
    ∀ e t, Exec anyAnswer e.code leased () t →
      t.dhcpLinkStatus = .linkUpIpAcquired ∧ (t.netif.ipAddr ≠ 0 ↔ keepsLease leased (.event e)) := by
  have hst : leased.dhcpLinkStatus = .linkUpIpAcquired := by decide +kernel
  exact ⟨hst, acquired_has_address leased run_leased hst⟩

def refused : Core := (leased.after .coarseTmr).after (.recv (reply 6))

/-- The pass after a lost lease stays with the status, and there is no address. -/
theorem acquired_without_address : ¬ ∀ s, (linkMonitor anyAnswer).Run unrestricted s → ∀ bit t,
    Exec anyAnswer ethernetifSetLink s bit t → t.dhcpLinkStatus = .linkUpIpAcquired → t.netif.ipAddr ≠ 0 := by
  intro h
  have hrun : (linkMonitor anyAnswer).Run unrestricted refused :=
    Core.run_after _ (Core.run_after _ (run_leased.mono fun _ _ _ => trivial) trivial) trivial
  have haddr := h refused hrun _ (refused.afterPass (Call.linked true true))
    (exec_run (fun _ => Call.linked true true) (fun _ _ => trivial) 0 ethernetifSetLink _) (by decide +kernel)
  exact haddr (by decide +kernel)

end Oinzen
