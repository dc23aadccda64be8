import Oinzen.App.Lease

/-!
# The bound on the tries

The monitor gives up when the client's counter passes `MAX_DHCP_TRIES`. The client counts the tries
in one state, so the counter is a bound on the messages only while the client does not leave SELECTING.
-/

namespace Oinzen

open Interference Prog System

namespace Monitor

variable {ok : ∀ i : Call, Call.Answer i → Prop} {m m' : Monitor} {i : Input} {bit : UInt32}

def NoOffer (m : Monitor) (l : Label) : Prop := ∀ i, l = .event i → m.status = .linkUpWaitingDhcp → ¬ i.offer

structure Counts (m : Monitor) : Prop where
  selecting : m.dhcp.state = .selecting
  expires : m.dhcp.expires = false
  sent : m.dhcp.tries < 255 → m.sent ≤ m.dhcp.tries.toNat

theorem Client.enter_same {state : DhcpState} {c : Client} (h : c.state = state) : c.enter state = c := by
  rw [Client.enter, if_neg (not_not.mpr h.symm)]

theorem Counts.attempt {addr : IpAddr} {asked : Nat} (h : m.Counts) (hasked : asked ≤ 1) :
    ((m.offer addr).attempt .selecting asked).Counts := by
  have hsome : m.client.isSome = true := isSome_of_on (by rw [h.selecting]; nofun)
  have hdhcp := dhcp_attempt .selecting addr asked hsome
  rw [Client.enter_same h.selecting] at hdhcp
  refine ⟨by rw [hdhcp]; simp [h.selecting], by rw [hdhcp]; simp [h.expires], fun htries => ?_⟩
  rw [hdhcp] at htries ⊢
  by_cases hlt : m.dhcp.tries < 255
  · have hsent := h.sent hlt
    simp only [Client.count, if_pos hlt] at htries ⊢
    have hlt : m.dhcp.tries.toNat < 255 := UInt8.lt_iff_toNat_lt.mp hlt
    have hsucc : (m.dhcp.tries + 1).toNat = m.dhcp.tries.toNat + 1 := by
      rw [UInt8.toNat_add, UInt8.toNat_one]
      omega
    change m.sent + asked ≤ (m.dhcp.tries + 1).toNat
    omega
  · simp only [Client.count, if_neg hlt] at htries
    exact absurd htries hlt

theorem Counts.event (h : m.Counts) (hoffer : ¬ i.offer) (e : m.Event ok i m') : m'.Counts := by
  cases e with
  | rest => exact h
  | attempt _ _ hasked _ hselecting =>
      rw [(hselecting h.selecting).resolve_right hoffer]
      exact h.attempt hasked
  | bind _ hne | nak _ hne => exact absurd h.selecting hne
  | restart _ hexpires => exact absurd (h.expires.symm.trans (hexpires h.selecting)) Bool.false_ne_true

theorem Begun.counts {err : ErrT} (h : m.Begun ok err m') (hlink : m.linkUp = true) (hsent : m.sent = 0)
    (herr : err = .ok) : m'.Counts := by
  cases h with
  | down | noMemory | noPcb => cases herr
  | waiting _ hdown => simp [hlink] at hdown
  | @asking asked _ _ hasked =>
      refine ⟨rfl, rfl, fun _ => ?_⟩
      change m.sent + asked ≤ 1
      omega

theorem Counts.started {err : ErrT} (h : m.Counts) : (m.started err).Counts := ⟨h.selecting, h.expires, h.sent⟩

theorem started_waiting {err : ErrT} (h : (m.started err).status = .linkUpWaitingDhcp) : err = .ok := by
  by_contra herr
  simp [started, herr] at h

def Counted (m : Monitor) : Prop := m.status = .linkUpWaitingDhcp → m.Counts

theorem Counted.pass (h : m.Counted) (p : m.Pass ok bit m') : m'.Counted := by
  cases p with
  | lost | acquired | giveUp | fallback => nofun
  | wait | keep | stayDown => exact h
  | nullPointer => exact fun hst => ⟨(h hst).selecting, (h hst).expires, (h hst).sent⟩
  | up _ _ _ hbegun => exact fun hst => (hbegun.counts rfl rfl (started_waiting hst)).started

theorem Booted.counted (h : Booted ok m) : m.Counted := by
  cases h with
  | up h => exact fun hst => (h.counts rfl rfl (started_waiting hst)).started
  | down => nofun

theorem Counted.step {restart : ∀ i : Call, Call.Answer i → Prop} {l : Label} (h : m.Counted) (hoffer : m.NoOffer l)
    (hstep : Step restart m l m') : m'.Counted := by
  cases hstep with
  | pass p => exact h.pass p
  | event e =>
      intro hst
      have hst := e.same.status.symm.trans hst
      exact (h hst).event (hoffer _ rfl hst) e

theorem Counts.pass (h : m.Counts) (hst : m.status = .linkUpWaitingDhcp) (hsent : maxDhcpTries.toNat < m.sent)
    (hbit : bit ≠ 0) (p : m.Pass ok bit m') : m'.status = .linkUpDhcpError := by
  have hsupplied : m.dhcp.state.supplied = false := by rw [h.selecting]; rfl
  cases p with
  | giveUp => rfl
  | lost _ hlost => exact absurd hlost.2 hbit
  | acquired _ _ hs => exact absurd (hsupplied.symm.trans hs) Bool.false_ne_true
  | wait _ _ _ _ htries =>
      have htries : m.dhcp.tries.toNat ≤ maxDhcpTries.toNat := UInt8.le_iff_toNat_le.mp htries
      have hsent' := h.sent (UInt8.lt_iff_toNat_lt.mpr (Nat.lt_of_le_of_lt htries (by decide)))
      omega
  | nullPointer _ _ hnone =>
      have hsome := isSome_of_on (m := m) (by rw [h.selecting]; nofun)
      simp [hnone] at hsome
  | keep hst' | fallback hst' | stayDown hst' | up hst' => simp [hst] at hst'

theorem Event.unleased (e : m.Event ok i m') (hsound : m.Sound) (hack : ∀ addr, ¬ i.ack addr) (hrenewal : ¬ i.renewal)
    (hs : m.dhcp.state.supplied = false) (hcheck : m.dhcp.state ≠ .checking) :
    m'.dhcp.state.supplied = false ∧ m'.dhcp.state ≠ .checking := by
  have htakes {addr : IpAddr} : ¬ m.Takes i addr := fun h => h.elim (fun h => hcheck h.1) (hack addr)
  cases e with
  | rest => exact ⟨hs, hcheck⟩
  | @attempt state addr asked hon _ _ _ _ hstate hrenew =>
      have hsome := isSome_of_on hon
      rw [dhcp_attempt _ _ _ hsome, Client.count_state, Client.enter_state]
      refine ⟨Bool.eq_false_iff.mpr fun h => ?_, fun h => htakes (hstate h)⟩
      rcases hrenew h with h | h
      · exact Bool.false_ne_true (hs.symm.trans h)
      · exact hrenewal h.2
  | bind _ _ h => exact absurd h htakes
  | nak hon =>
      have hsome := isSome_of_on hon
      simp [dhcp_attempt, dhcp_onClient, hsome, DhcpState.supplied]
  | restart _ _ _ hb => exact hb.state hsound.stop

end Monitor

/-! ## Results -/

/-- The client does not accept an offer while the monitor waits for DHCP. -/
def noOffer (s : Core) : CoreLabel → Prop
  | .event (.recv p) => s.dhcpLinkStatus = .linkUpWaitingDhcp → ¬ s.getsOffer p
  | _ => True

theorem noOffer_view {s : Core} {l : CoreLabel} (h : noOffer s l) : s.monitor.NoOffer (l.view s) := by
  rintro i hi
  cases l with
  | pass => cases hi
  | event e =>
      cases hi
      cases e with
      | recv p => exact h
      | _ => exact fun _ => id

/-- Without offers accepted since it began to wait, the pass after more than `MAX_DHCP_TRIES` messages
gives up. -/
theorem tries_bound (s : Core)
    (r : ((linkMonitor anyAnswer).since fun s => s.dhcpLinkStatus ≠ .linkUpWaitingDhcp).Run noOffer s)
    (hst : s.dhcpLinkStatus = .linkUpWaitingDhcp)
    (hsent : maxDhcpTries.toNat < s.sent.countP DhcpMessageType.asks) (v : UInt32) (hv : v ≠ 0) (t : Core)
    (e : Exec anyAnswer ethernetifSetLink s (some v) t) : t.dhcpLinkStatus = .linkUpDhcpError := by
  have hcounted : s.monitor.Counted := by
    refine Run.invariant (I := fun s => s.monitor.Counted) ?_ (fun s l t r h hoffer hstep => ?_) r
    · rintro s (⟨eth, e⟩ | ⟨-, hst⟩)
      · exact (ensures_iff.mp (ensures_mxLwipInit eth) _ _ e).2.counted
      · exact fun h => absurd h hst
    · obtain ⟨hs, hc⟩ := Core.run_coherent r.reachable
      exact h.step (noOffer_view hoffer) (Core.Step.view hs hc hstep).2.2
  obtain ⟨hs, hc⟩ := Core.run_coherent r.reachable
  obtain ⟨-, w, hw, hpass⟩ := Core.pass_view hs hc e
  cases hw
  exact (hcounted hst).pass hst hsent hv hpass

/-! ### A silent server -/

structure Core.Silent (s : Core) (n k : Nat) : Prop where
  run : (linkMonitor anyAnswer).Run noOffer s
  status : s.dhcpLinkStatus = .linkUpWaitingDhcp
  sent : s.sent.countP DhcpMessageType.asks = n
  client : ∃ d, s.netif.dhcp = some d ∧ d.state = .selecting ∧ d.requestTimeout.toNat = k

theorem backoff_ticks (tries : Nat) : ∃ k, 0 < k ∧
    (UInt16.ofNat ((backoff tries + dhcpFineTimerMsecs - 1) / dhcpFineTimerMsecs)).toNat = k := by
  refine ⟨_, ?_, rfl⟩
  by_cases h : tries < 6
  · revert tries
    decide
  · simp only [backoff, if_neg h]
    decide

theorem Core.Silent.tick {s : Core} {n k : Nat} (h : s.Silent n (k + 2)) : (s.after .fineTmr).Silent n (k + 1) := by
  obtain ⟨d, hd, hstate, htimeout⟩ := h.client
  have hk : d.requestTimeout > 1 := UInt16.lt_iff_toNat_lt.mpr (by rw [htimeout]; simp)
  have hafter : s.after .fineTmr = s.updateDhcp fun d => { d with requestTimeout := d.requestTimeout - 1 } := by
    simp [Core.after, LwipEvent.code, dhcpFineTmr, Prog.run, Prog.get, Prog.modify, Core.dhcp, hd, hk]
  have hpred : (d.requestTimeout - 1).toNat = k + 1 := by
    rw [UInt16.toNat_sub_of_le _ _ (UInt16.le_of_lt hk), htimeout]
    simp
  refine ⟨Core.run_after _ h.run trivial, by rw [hafter]; exact h.status, by rw [hafter]; exact h.sent, ?_⟩
  exact ⟨{ d with requestTimeout := d.requestTimeout - 1 }, by simp [hafter, Core.updateDhcp, hd], hstate, hpred⟩

theorem Core.Silent.ask {s : Core} {n : Nat} (h : s.Silent n 1) : ∃ k, (s.after .fineTmr).Silent (n + 1) (k + 1) := by
  obtain ⟨d, hd, hstate, htimeout⟩ := h.client
  have hk : d.requestTimeout = 1 := UInt16.toNat_inj.mp htimeout
  have hafter : (s.after .fineTmr).dhcpLinkStatus = s.dhcpLinkStatus ∧
      (s.after .fineTmr).sent = s.sent ++ [.discover] ∧ ∃ d' tries, (s.after .fineTmr).netif.dhcp = some d' ∧
        d'.state = .selecting ∧ d'.requestTimeout =
          .ofNat ((backoff tries + dhcpFineTimerMsecs - 1) / dhcpFineTimerMsecs) := by
    by_cases h0 : d.tries = 0 <;>
      simp [Core.after, LwipEvent.code, dhcpFineTmr, Prog.run, Prog.get, Prog.modify, Core.dhcp, hd, hk, hstate,
        Core.updateDhcp, dhcpTimeout, dhcpDiscover, dhcpAttempt, dhcpSetState, dhcpCreateMsg, Prog.call,
        Call.granted, udpSendto, countTry, setRequestTimeout, Core.linkoutput, h0]
    · exact ⟨_, rfl⟩
    · refine ⟨?_, _, rfl⟩
      split <;> rfl
  obtain ⟨hst, hsent, d', tries, hd', hstate', htimeout'⟩ := hafter
  obtain ⟨k, hpos, hk'⟩ := backoff_ticks tries
  obtain ⟨k, rfl⟩ : ∃ j, k = j + 1 := ⟨k - 1, by omega⟩
  refine ⟨k, Core.run_after _ h.run trivial, hst.trans h.status, ?_, d', hd', hstate', htimeout' ▸ hk'⟩
  rw [hsent, List.countP_append, h.sent]
  rfl

theorem Core.Silent.next {n k : Nat} {s : Core} (h : s.Silent n (k + 1)) : ∃ t k, Core.Silent t (n + 1) (k + 1) := by
  induction k generalizing s with
  | zero => exact ⟨_, h.ask⟩
  | succ k ih => exact ih h.tick

theorem silent_server (n : Nat) : ∃ s k, Core.Silent s (n + 1) (k + 1) := by
  induction n with
  | zero =>
      obtain ⟨s, hrun, htest⟩ : ∃ s, (linkMonitor anyAnswer).Run noOffer s ∧
          (decide (s.dhcpLinkStatus = .linkUpWaitingDhcp) && decide (s.sent = [.discover]) &&
            s.netif.dhcp.isSome && decide (s.dhcp.state = .selecting) && decide (s.dhcp.requestTimeout = 4)) = true :=
        ⟨_, run_booted (Call.linked true true), by decide +kernel⟩
      simp only [Bool.and_eq_true, decide_eq_true_eq] at htest
      obtain ⟨⟨⟨⟨hst, hsent⟩, hsome⟩, hstate⟩, htimeout⟩ := htest
      obtain ⟨d, hd⟩ := Option.isSome_iff_exists.mp hsome
      have hdhcp : s.dhcp = d := by simp [Core.dhcp, hd]
      rw [hdhcp] at hstate htimeout
      exact ⟨s, 3, hrun, hst, by rw [hsent]; rfl, d, hd, hstate, by rw [htimeout]; rfl⟩
  | succ n ih =>
      obtain ⟨s, k, h⟩ := ih
      exact h.next

theorem tries_bound_silent : ∃ s, s.sent.countP DhcpMessageType.asks = 251 ∧ ∀ v ≠ 0, ∀ t,
    Exec anyAnswer ethernetifSetLink s (some v) t → t.dhcpLinkStatus = .linkUpDhcpError := by
  obtain ⟨s, k, h⟩ := silent_server 250
  have hsent : maxDhcpTries.toNat < s.sent.countP DhcpMessageType.asks := by rw [h.sent]; decide
  exact ⟨s, h.sent, fun v hv t e => tries_bound s (h.run.since _) h.status hsent v hv t e⟩

/-! ### Offers without acknowledgement -/

def leaseFree (s : Core) (l : CoreLabel) : Prop := s.dhcp.state.supplied = false ∧ linkKept s l

structure Core.Searching (s : Core) : Prop where
  run : (linkMonitor anyAnswer).Run leaseFree s
  lease : s.dhcp.state.supplied = false
  checking : s.dhcp.state ≠ .checking

theorem Core.Searching.recv {s : Core} (h : s.Searching) {p : DhcpPacket}
    (hack : ∀ o, p.options = some o → o.msgType ≠ some 5) : (s.after (.recv p)).Searching := by
  obtain ⟨hs, hc⟩ := Core.run_coherent h.run
  have hexec : Exec anyAnswer (LwipEvent.recv p).code s _ _ :=
    exec_run (fun _ => Call.granted true) (fun _ _ => trivial) 0 (LwipEvent.recv p).code s
  obtain ⟨-, hevent⟩ := ensures_iff.mp (LwipEvent.code_event (.recv p) hs) _ _ hexec
  have hno (addr : IpAddr) : ¬ s.getsAck p addr := by
    rintro ⟨-, -, o, -, -, -, -, -, hopt, htype⟩
    exact hack o hopt htype
  obtain ⟨hlease, hchecking⟩ := hevent.unleased hc.sound hno id (s.dhcp_state ▸ h.lease) (s.dhcp_state ▸ h.checking)
  refine ⟨Core.run_after _ h.run ⟨h.lease, nofun⟩, ?_, ?_⟩
  · exact (congrArg DhcpState.supplied (Core.dhcp_state _)).trans hlease
  · exact fun h => hchecking ((Core.dhcp_state _).symm.trans h)

def Core.round (s : Core) : Core :=
  (s.after (.recv { reply 2 with xid := s.dhcp.xid })).after (.recv { reply 6 with xid := s.dhcp.xid })

def Core.rounds (s : Core) : Nat → Core
  | 0 => s
  | n + 1 => (s.rounds n).round

theorem searching_rounds (n : Nat) : ((booted (Call.linked true true)).rounds n).Searching := by
  induction n with
  | zero => exact ⟨run_booted _, by decide +kernel, by decide +kernel⟩
  | succ n ih =>
      have hack (msgType : UInt8) (hne : msgType ≠ 5) (xid : UInt32) (o : DhcpOptions)
          (hopt : { reply msgType with xid := xid }.options = some o) : o.msgType ≠ some 5 := by
        cases hopt
        simpa using hne
      exact (ih.recv (hack 2 (by decide) _)).recv (hack 6 (by decide) _)

/-- 253 messages, no lease, and the monitor still waits. -/
theorem tries_unbounded : ¬ ∀ s, (linkMonitor anyAnswer).Run leaseFree s → s.dhcp.state.supplied = false →
    s.dhcpLinkStatus = .linkUpWaitingDhcp → maxDhcpTries.toNat < s.sent.countP DhcpMessageType.asks →
    ∀ v ≠ 0, ∀ t, Exec anyAnswer ethernetifSetLink s (some v) t → t.dhcpLinkStatus = .linkUpDhcpError := by
  intro h
  obtain ⟨s, hsearching, htest⟩ : ∃ s : Core, s.Searching ∧
      (decide (s.dhcpLinkStatus = .linkUpWaitingDhcp) &&
        decide (maxDhcpTries.toNat < s.sent.countP DhcpMessageType.asks) &&
        decide ((Prog.run (fun _ => Call.linked true true) 0 ethernetifSetLink s).1 = some 4) &&
        decide ((s.afterPass (Call.linked true true)).dhcpLinkStatus ≠ .linkUpDhcpError)) = true :=
    ⟨_, searching_rounds 126, by decide +kernel⟩
  simp only [Bool.and_eq_true, decide_eq_true_eq] at htest
  obtain ⟨⟨⟨hst, hsent⟩, hbit⟩, hstays⟩ := htest
  have hexec : Exec anyAnswer ethernetifSetLink s _ _ :=
    exec_run (fun _ => Call.linked true true) (fun _ _ => trivial) 0 ethernetifSetLink s
  rw [hbit] at hexec
  exact hstays (h s hsearching.run hsearching.lease hst hsent 4 (by decide) _ hexec)

end Oinzen
