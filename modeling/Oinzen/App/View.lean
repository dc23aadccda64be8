import Oinzen.Interference.Abstraction
import Oinzen.App.Monitor

/-!
# What the stack's functions do to monitor and client

One lemma for each function. The driver's part of the state and the fields of the client that are
left out may take any values.
-/

namespace Oinzen

open Interference Prog

variable {ok : ∀ i : Call, Call.Answer i → Prop} {α : Type}

/-! ## Addresses -/

theorem ensures_driver {p : Code Eth α} {s : Core} {Q : α → Core → Prop}
    (h : ∀ a e, Q a { s with eth := e }) : Ensures ok (Core.driver p) s Q :=
  ensures_lift Core.eth (fun e s => { s with eth := e }) (fun _ _ _ => rfl) (fun _ => rfl) p s Q h

theorem ensures_linkoutput {chains : List (List Pbuf)} {s : Core} {Q : Unit → Core → Prop}
    (h : ∀ e, Q () { s with eth := e }) : Ensures ok (Core.linkoutput chains) s Q := by
  induction chains generalizing s with
  | nil => exact h s.eth
  | cons p rest ih =>
      rw [Core.linkoutput, ensures_bind]
      exact ensures_driver fun _ e => ih h

def Core.Announces (s : Core) (addr : IpAddr) (ann : List IpAddr) : Prop :=
  ann = s.announced ∨ addr ≠ 0 ∧ ann = s.announced ++ [addr]

theorem ensures_netifIssueReports {s : Core} {Q : Unit → Core → Prop}
    (h : ∀ e ann, s.Announces s.netif.ipAddr ann → Q () { s with eth := e, announced := ann }) :
    Ensures ok netifIssueReports s Q := by
  have hquiet : Q () s := h s.eth s.announced (.inl rfl)
  simp only [netifIssueReports, ensures_bind, ensures_get]
  cases s.netif.linkUp && s.netif.up with
  | false => exact hquiet
  | true =>
      by_cases haddr : s.netif.ipAddr = 0
      · simpa [haddr] using hquiet
      · cases hetharp : s.netif.etharp with
        | false => simpa [haddr, hetharp] using hquiet
        | true =>
            simp only [haddr, hetharp, ne_eq, not_false_eq_true, decide_true, when_true, ensures_bind,
              ensures_get, ensures_modify, ensures_call]
            exact fun _ _ => ensures_linkoutput fun e => h e _ (.inr ⟨haddr, rfl⟩)

def Steady (p : Core → IpAddr) : Prop :=
  ∀ s e ann addr mask gw, p { s with
    eth := e, announced := ann, netif.ipAddr := addr, netif.netmask := mask, netif.gw := gw } = p s

theorem ensures_netifDoSetIpaddr {p : Core → IpAddr} (hp : Steady p) {s : Core} {Q : Unit → Core → Prop}
    (h : ∀ e ann, s.Announces (p s) ann → Q () { s with eth := e, announced := ann, netif.ipAddr := p s }) :
    Ensures ok (netifDoSetIpaddr p) s Q := by
  simp only [netifDoSetIpaddr, ensures_bind, ensures_get]
  by_cases hsame : p s = s.netif.ipAddr
  · have := h s.eth s.announced (.inl rfl)
    simp only [hsame] at this
    simpa [hsame] using this
  · simp only [hsame, ne_eq, not_false_eq_true, decide_true, when_true, ensures_bind, ensures_get,
      ensures_call]
    intro _ _
    refine ensures_linkoutput fun e => ?_
    have hsteady : p { s with eth := e } = p s := hp s e _ _ _ _
    rw [ensures_modify, hsteady]
    exact ensures_netifIssueReports fun e ann hann => h e ann hann

theorem ensures_netifDoSetNetmask {q : Core → IpAddr} {s : Core} {Q : Unit → Core → Prop}
    (h : Q () { s with netif.netmask := q s }) : Ensures ok (netifDoSetNetmask q) s Q := by
  simp only [netifDoSetNetmask, ensures_bind, ensures_get]
  by_cases hsame : q s = s.netif.netmask
  · rw [hsame] at h
    simpa [hsame] using h
  · simpa [hsame] using h

theorem ensures_netifDoSetGw {r : Core → IpAddr} {s : Core} {Q : Unit → Core → Prop}
    (h : Q () { s with netif.gw := r s }) : Ensures ok (netifDoSetGw r) s Q := by
  simp only [netifDoSetGw, ensures_bind, ensures_get]
  by_cases hsame : r s = s.netif.gw
  · rw [hsame] at h
    simpa [hsame] using h
  · simpa [hsame] using h

theorem ensures_netifSetAddr {p q r : Core → IpAddr} (hp : Steady p) (hq : Steady q) (hr : Steady r)
    {s : Core} {Q : Unit → Core → Prop}
    (h : ∀ e ann, s.Announces (p s) ann → Q () { s with
      eth := e, announced := ann, netif.ipAddr := p s, netif.netmask := q s, netif.gw := r s }) :
    Ensures ok (netifSetAddr p q r) s Q := by
  simp only [netifSetAddr, ensures_bind, ensures_get]
  by_cases hremove : p s = 0
  · simp only [hremove, decide_true, when_true, Bool.not_true, when_false]
    refine ensures_netifDoSetIpaddr hp fun e ann hann => ?_
    refine ensures_netifDoSetNetmask (ensures_netifDoSetGw ?_)
    have hq' := hq s e ann (p s) s.netif.netmask s.netif.gw
    have hr' := hr s e ann (p s) (q s) s.netif.gw
    dsimp only at hq' hr' ⊢
    rw [hq', hr']
    exact h e ann hann
  · simp only [hremove, decide_false, when_false, Bool.not_false, when_true, ensures_ret]
    refine ensures_netifDoSetNetmask (ensures_netifDoSetGw (ensures_netifDoSetIpaddr hp fun e ann hann => ?_))
    have hp' := hp s s.eth s.announced s.netif.ipAddr (q s) (r s)
    have hr' := hr s s.eth s.announced s.netif.ipAddr (q s) s.netif.gw
    dsimp only at hp' hr' ⊢
    simp only [hr', hp'] at hann ⊢
    exact h e ann hann

/-! ## What is seen of the client -/

structure Core.Valid (s : Core) : Prop where
  mtu : ¬ s.netif.mtu < dhcpMaxMsgLenMinRequired
  refcount : s.dhcpPcbRefcount = if s.dhcp.pcbAllocated then 1 else 0

def Core.seen : Abstraction Core Monitor := ⟨Core.Valid, Core.monitor⟩

abbrev Shows (ok : ∀ i : Call, Call.Answer i → Prop) (p : Code Core α) (m : Monitor)
    (Q : α → Monitor → Prop) : Prop :=
  Refines Core.seen ok p m Q

variable {m : Monitor}

theorem driver_shows {p : Code Eth α} : Shows ok (Core.driver p) m fun _ m' => m' = m := by
  rintro s hs rfl
  exact ensures_driver fun _ _ => ⟨⟨hs.mtu, hs.refcount⟩, rfl⟩

theorem linkoutput_shows {chains : List (List Pbuf)} : Shows ok (Core.linkoutput chains) m fun _ m' => m' = m := by
  rintro s hs rfl
  exact ensures_linkoutput fun _ => ⟨⟨hs.mtu, hs.refcount⟩, rfl⟩

theorem modify_quiet {u : Core → Core} (valid : ∀ s, Core.Valid s → (u s).Valid)
    (view : ∀ s, (u s).monitor = s.monitor) : Shows ok (modify u) m fun _ m' => m' = m := by
  refine refines_modify fun s hs hm => ⟨valid s hs, ?_⟩
  exact (view s).trans hm

theorem Core.Valid.updateDhcp {f : Dhcp → Dhcp} (pcb : ∀ d, (f d).pcbAllocated = d.pcbAllocated) {s : Core}
    (hs : s.Valid) : (s.updateDhcp f).Valid := by
  refine ⟨hs.mtu, ?_⟩
  have hpcb : (s.updateDhcp f).dhcp.pcbAllocated = s.dhcp.pcbAllocated := by
    cases h : s.netif.dhcp with
    | none => simp [Core.updateDhcp, Core.dhcp, h]
    | some d => simp [Core.updateDhcp, Core.dhcp, h, pcb]
  rw [hpcb]
  exact hs.refcount

theorem Core.updateDhcp_monitor {s : Core} {f : Dhcp → Dhcp} {g : Client → Client}
    (view : (f s.dhcp).client = g s.dhcp.client) : (s.updateDhcp f).monitor = s.monitor.onClient g := by
  cases h : s.netif.dhcp with
  | none => simp [Core.monitor, Monitor.onClient, Core.updateDhcp, h]
  | some d =>
      simp only [Core.dhcp, h, Option.getD_some] at view
      simp [Core.monitor, Monitor.onClient, Core.updateDhcp, h, view]

theorem updateDhcp_shows {f : Dhcp → Dhcp} (g : Client → Client)
    (pcb : ∀ d, (f d).pcbAllocated = d.pcbAllocated) (view : ∀ d, (f d).client = g d.client) :
    Shows ok (modify (Core.updateDhcp f)) m fun _ m' => m' = m.onClient g :=
  refines_modify fun _ hs hm => ⟨hs.updateDhcp pcb, (Core.updateDhcp_monitor (view _)).trans (congrArg _ hm)⟩

theorem updateDhcp_quiet {f : Dhcp → Dhcp} (pcb : ∀ d, (f d).pcbAllocated = d.pcbAllocated)
    (view : ∀ d, (f d).client = d.client) : Shows ok (modify (Core.updateDhcp f)) m fun _ m' => m' = m := by
  refine (updateDhcp_shows (fun c => c) pcb view).mono fun _ m' h => ?_
  rw [h, Monitor.onClient_id]

theorem Core.dhcp_client (s : Core) : s.dhcp.client = s.monitor.dhcp := by
  cases h : s.netif.dhcp with
  | none => simp [Core.dhcp, Core.monitor, Monitor.dhcp, h, Dhcp.cleared, Dhcp.client, Client.cleared]
  | some d => simp [Core.dhcp, Core.monitor, Monitor.dhcp, h]

theorem Core.dhcp_state (s : Core) : s.dhcp.state = (Core.seen.view s).dhcp.state :=
  congrArg Client.state s.dhcp_client

theorem Core.dhcp_tries (s : Core) : s.dhcp.tries = (Core.seen.view s).dhcp.tries :=
  congrArg Client.tries s.dhcp_client

theorem Core.dhcp_pcb (s : Core) : s.dhcp.pcbAllocated = (Core.seen.view s).dhcp.pcb :=
  congrArg Client.pcb s.dhcp_client

theorem Core.dhcp_expires (s : Core) : decide (s.dhcp.t0Timeout ≠ 0) = (Core.seen.view s).dhcp.expires :=
  congrArg Client.expires s.dhcp_client

theorem Core.dhcp_offered (s : Core) : s.dhcp.offeredIpAddr = (Core.seen.view s).dhcp.offered :=
  congrArg Client.offered s.dhcp_client

theorem Core.dhcp_isSome (s : Core) : s.netif.dhcp.isSome = (Core.seen.view s).client.isSome := by
  simp [Core.seen, Core.monitor]

/-! ## Messages -/

theorem dhcpSetState_shows (state : DhcpState) :
    Shows ok (dhcpSetState state) m fun _ m' => m' = m.onClient (Client.enter state) := by
  refine refines_see (fun m => decide (state ≠ m.dhcp.state)) (fun s => by rw [s.dhcp_state]) ?_
  refine refines_when (fun hne => ?_) fun hsame => ?_
  · refine Refines.next (updateDhcp_shows (fun c => { c with state := state }) (fun _ => rfl) fun _ => rfl) ?_
    refine Refines.next (updateDhcp_shows (fun c => { c with tries := 0 }) (fun _ => rfl) fun _ => rfl) ?_
    refine Refines.mono (updateDhcp_quiet (fun _ => rfl) fun _ => rfl) fun _ m' h => ?_
    rw [h, Monitor.onClient_onClient]
    exact Monitor.onClient_congr (by rw [Client.enter, if_pos (of_decide_eq_true hne)])
  · exact (Monitor.onClient_eq_self (by rw [Client.enter, if_neg (of_decide_eq_false hsame)])).symm

theorem dhcpCreateMsg_shows (t : DhcpMessageType) :
    Shows ok (dhcpCreateMsg t) m fun _ m' => m' = m := by
  refine refines_call fun room _ => refines_ite (fun _ => ?_) fun _ => refines_ret rfl
  refine refines_get fun s _ _ => Refines.next (n := m) ?_ (refines_ret rfl)
  refine refines_when (fun _ => refines_get fun s _ _ => Refines.next (n := m) ?_ ?_) fun _ => rfl
  · exact refines_when (fun _ => modify_quiet (fun _ h => ⟨h.mtu, h.refcount⟩) fun _ => rfl) fun _ => rfl
  · refine modify_quiet (fun s h => Core.Valid.updateDhcp ?_ h) fun s => ?_
    · exact fun _ => rfl
    · exact (Core.updateDhcp_monitor rfl).trans Monitor.onClient_id

theorem udpSendto_shows (t : DhcpMessageType) :
    Shows ok (udpSendto t) m fun _ m' => m' = m.send t.asks.toNat := by
  refine Refines.next (n := m.send t.asks.toNat) ?_ (refines_call fun _ _ => linkoutput_shows)
  refine refines_modify fun s hs hm => ⟨⟨hs.mtu, hs.refcount⟩, ?_⟩
  rw [← hm]
  cases h : t.asks with
  | false => simp [Core.seen, Core.monitor, Monitor.send, List.countP_append, h]
  | true => simp [Core.seen, Core.monitor, Monitor.send, List.countP_append, h]

theorem countTry_shows : Shows ok countTry m fun _ m' => m' = m.onClient Client.count := by
  refine updateDhcp_shows Client.count (fun d => ?_) fun d => ?_
  · split <;> rfl
  · by_cases h : d.tries < 255
    · simp [Client.count, Dhcp.client, h]
    · simp [Client.count, Dhcp.client, h]

theorem setRequestTimeout_shows (msecs : Nat) :
    Shows ok (setRequestTimeout msecs) m fun _ m' => m' = m :=
  updateDhcp_quiet (fun _ => rfl) fun _ => rfl

theorem dhcpAttempt_shows (state : DhcpState) (t : DhcpMessageType) (msecs : Nat → Nat) :
    Shows ok (dhcpAttempt state t msecs) m fun _ m' =>
      ∃ asked ≤ t.asks.toNat, m' = m.attempt state asked := by
  refine (dhcpSetState_shows state).next ?_
  refine (dhcpCreateMsg_shows t).seq fun created _ h => ?_
  subst h
  have hsend : Shows ok (Prog.when created (udpSendto t)) (m.onClient (Client.enter state)) fun _ m' =>
      ∃ asked ≤ t.asks.toNat, m' = (m.onClient (Client.enter state)).send asked := by
    refine refines_when (fun _ => ?_) fun _ => ⟨0, Nat.zero_le _, rfl⟩
    exact (udpSendto_shows t).mono fun _ m' h => ⟨_, Nat.le_refl _, h⟩
  refine hsend.seq fun _ m' ⟨asked, hasked, h⟩ => ?_
  subst h
  refine countTry_shows.next ?_
  refine refines_get fun s _ _ => (setRequestTimeout_shows _).mono fun _ m' h => ⟨asked, hasked, ?_⟩
  rw [h, Monitor.attempt, ← Monitor.onClient_onClient (Client.enter state) Client.count]
  rfl

theorem dhcpDiscover_shows : Shows ok dhcpDiscover m fun err m' =>
    err = .ok ∧ ∃ asked ≤ 1, m' = (m.offer 0).attempt .selecting asked := by
  refine Refines.next (updateDhcp_shows (fun c => { c with offered := 0 }) (fun _ => rfl) fun _ => rfl) ?_
  exact (dhcpAttempt_shows .selecting .discover backoff).seq fun _ m' h => refines_ret ⟨rfl, h⟩

theorem dhcpCheck_shows : Shows ok dhcpCheck m fun _ m' => m' = m.attempt .checking 0 := by
  refine (dhcpSetState_shows .checking).next (refines_get fun s _ _ => refines_call fun _ _ => ?_)
  refine linkoutput_shows.next (countTry_shows.next ?_)
  refine (setRequestTimeout_shows 500).mono fun _ m' h => ?_
  rw [h, Monitor.onClient_onClient]
  rfl

/-! ## Binding and stopping -/

theorem netifClearAddr_shows : Shows ok netifClearAddr m fun _ m' => m' = m.setAddr 0 0 0 := by
  rintro s hs rfl
  refine ensures_netifSetAddr (fun _ _ _ _ _ _ => rfl) (fun _ _ _ _ _ _ => rfl) (fun _ _ _ _ _ _ => rfl)
    fun e ann hann => ⟨⟨hs.mtu, hs.refcount⟩, ?_⟩
  obtain rfl : ann = s.announced := hann.resolve_right fun h => h.1 rfl
  rfl

section

variable (d : Dhcp)

theorem setT0_client : (setT0 d).client = { d.client with expires := (setT0 d).client.expires } := by
  unfold setT0; split <;> rfl

theorem setT1_client : (setT1 d).client = d.client := by unfold setT1; split <;> rfl

theorem setT2_client : (setT2 d).client = d.client := by unfold setT2; split <;> rfl

theorem orderTimers_client : (orderTimers d).client = d.client := by unfold orderTimers; split <;> rfl

theorem setLeaseTimers_client :
    ∃ expires, (setLeaseTimers d).client = { d.client with expires := expires } := by
  refine ⟨(setT0 { d with leaseUsed := 0 }).client.expires, ?_⟩
  rw [setLeaseTimers, orderTimers_client, setT2_client, setT1_client, setT0_client]
  rfl

theorem setLeaseTimers_pcb : (setLeaseTimers d).pcbAllocated = d.pcbAllocated := by
  obtain ⟨expires, h⟩ := setLeaseTimers_client d
  exact congrArg Client.pcb h

end

theorem dhcpBind_shows : Shows ok dhcpBind m fun _ m' => ∃ expires mask gw ann,
    m' = { (m.onClient fun c => { c.enter .bound with expires := expires }).setAddr m.dhcp.offered mask gw with
      announced := ann } := by
  have htimers : Shows ok (Prog.modify (Core.updateDhcp setLeaseTimers)) m fun _ m' =>
      ∃ expires, m' = m.onClient fun c => { c with expires := expires } := by
    refine refines_modify fun s hs hm => ?_
    obtain ⟨expires, h⟩ := setLeaseTimers_client s.dhcp
    refine ⟨hs.updateDhcp setLeaseTimers_pcb, expires, ?_⟩
    rw [← hm]
    exact Core.updateDhcp_monitor h
  refine htimers.seq fun _ m' ⟨expires, h⟩ => ?_
  subst h
  refine refines_get fun s _ _ => refines_get fun t _ _ => (dhcpSetState_shows .bound).next ?_
  rw [Monitor.onClient_onClient]
  simp only [Client.enter_setExpires]
  rintro u hu hview
  have hoffered : u.dhcp.offeredIpAddr = m.dhcp.offered := by
    rw [u.dhcp_offered, hview]
    cases hc : m.client with
    | none => simp [Monitor.dhcp, Monitor.onClient, hc]
    | some c => simp [Monitor.dhcp, Monitor.onClient, hc]
  have hsteady : Steady fun s => s.dhcp.offeredIpAddr := fun _ _ _ _ _ _ => rfl
  have hconst (a : IpAddr) : Steady fun _ => a := fun _ _ _ _ _ _ => rfl
  refine ensures_netifSetAddr hsteady (hconst _) (hconst _) fun e ann _ => ?_
  refine ⟨⟨hu.mtu, hu.refcount⟩, expires, bindMask s.dhcp, bindGw t.dhcp (bindMask s.dhcp), ann, ?_⟩
  rw [← hview, ← hoffered]
  rfl

theorem dhcpSuppliedAddress_shows : Shows ok dhcpSuppliedAddress m fun supplied m' =>
    supplied = m.dhcp.state.supplied ∧ m' = m := by
  refine refines_see (fun m => m.client.isSome) Core.dhcp_isSome (refines_ite (fun _ => ?_) fun hnone => ?_)
  · exact refines_read (fun m => m.dhcp.state.supplied) (fun s => by rw [s.dhcp_state]) ⟨rfl, rfl⟩
  · have hclient : m.client = none := by simpa using hnone
    exact refines_ret ⟨by simp [Monitor.dhcp, hclient, Client.cleared, DhcpState.supplied], rfl⟩

theorem sendRelease_shows (created : Bool) :
    Shows ok (Prog.when created (udpSendto .release)) m fun _ m' => m' = m :=
  refines_when (fun _ => udpSendto_shows .release) fun _ => rfl

theorem ensures_dhcpDecPcbRefcount {s : Core} {Q : Unit → Core → Prop} (hs : s.Valid)
    (hpcb : s.dhcp.pcbAllocated = true)
    (h : Q () { s with dhcpPcbRefcount := 0, dhcpPcb := false }) : Ensures ok dhcpDecPcbRefcount s Q := by
  have hcount : s.dhcpPcbRefcount - 1 = 0 := by simp [hs.refcount, hpcb]
  simpa [dhcpDecPcbRefcount, hcount] using h

theorem Core.isSome_of_pcb {s : Core} (h : s.dhcp.pcbAllocated = true) : s.netif.dhcp.isSome = true := by
  cases hd : s.netif.dhcp with
  | none => simp [Core.dhcp, hd, Dhcp.cleared] at h
  | some d => rfl

theorem freePcb_shows : Shows ok (do
      Prog.when (← Prog.get fun s => s.dhcp.pcbAllocated) do
        dhcpDecPcbRefcount
        Prog.modify (Core.updateDhcp fun d => { d with pcbAllocated := false })) m fun _ m' =>
    m' = m.onClient fun c => { c with pcb := false } := by
  rintro s hs rfl
  rw [ensures_bind, ensures_get]
  cases hpcb : s.dhcp.pcbAllocated with
  | false =>
      refine ⟨hs, ?_⟩
      rw [s.dhcp_pcb] at hpcb
      exact (Monitor.onClient_eq_self (by rw [← hpcb])).symm
  | true =>
      rw [when_true, ensures_bind]
      refine ensures_dhcpDecPcbRefcount hs hpcb ⟨⟨hs.mtu, ?_⟩, Core.updateDhcp_monitor rfl⟩
      obtain ⟨d, hd⟩ := Option.isSome_iff_exists.mp (Core.isSome_of_pcb hpcb)
      simp [Core.updateDhcp, Core.dhcp, hd]

theorem releaseLease_shows (h : m.dhcp.state ≠ .off) :
    Shows ok releaseLease m fun _ m' => m' = m.stop := by
  refine Refines.next (updateDhcp_shows (fun c => { c with expires := false, offered := 0 })
    (fun _ => rfl) fun _ => ?_) ?_
  · simp [Dhcp.client, clearOffer]
  refine dhcpSuppliedAddress_shows.seq fun supplied m1 h1 => ?_
  obtain ⟨-, rfl⟩ := h1
  refine Refines.next (refines_when (fun _ => ?_) fun _ => rfl) ?_
  · exact (dhcpCreateMsg_shows .release).seq fun created _ h => h ▸ sendRelease_shows created
  refine netifClearAddr_shows.next ((dhcpSetState_shows .off).next (freePcb_shows.mono fun _ m' hm => ?_))
  have hclear : Client.enter .off { m.dhcp with expires := false, offered := 0 } =
      { Client.cleared with pcb := m.dhcp.pcb } := by
    rw [Client.enter, if_pos h.symm]
    rfl
  rw [hm, Monitor.stop, if_neg h]
  simp [Monitor.onClient, Monitor.setAddr, Monitor.client_eq (Monitor.isSome_of_on h), hclear, Client.cleared]

theorem dhcpReleaseAndStop_shows : Shows ok dhcpReleaseAndStop m fun _ m' => m' = m.stop := by
  refine refines_see (fun m => m.client.isSome) Core.dhcp_isSome (refines_ite (fun _ => ?_) fun hnone => ?_)
  · refine refines_see (fun m => decide (m.dhcp.state ≠ .off)) (fun s => by rw [s.dhcp_state]) ?_
    refine refines_when (fun hon => releaseLease_shows (of_decide_eq_true hon)) fun hoff => ?_
    rw [Monitor.stop, if_pos (by simpa using hoff)]
  · have hclient : m.client = none := by simpa using hnone
    refine refines_ret ?_
    rw [Monitor.stop, if_pos (by simp [Monitor.dhcp, hclient, Client.cleared])]

/-! ## Starting -/

theorem dhcpFirst_shows (hup : m.up = true) :
    Shows ok (do
      if ← Prog.get fun s => !s.netif.linkUp then
        dhcpSetState .init
        pure .ok
      else if (← dhcpDiscover) ≠ .ok then
        dhcpReleaseAndStop
        pure .mem
      else pure .ok) { m with client := some ⟨.off, 0, true, false, 0⟩ } fun err m' => m.Begun ok err m' := by
  refine refines_see (fun m => !m.linkUp) (fun _ => rfl) (refines_ite (fun hlink => ?_) fun hlink => ?_)
  · refine (dhcpSetState_shows .init).next (refines_ret ?_)
    exact .waiting hup (by simpa using hlink)
  · refine dhcpDiscover_shows.seq fun err m' ⟨herr, asked, hasked, h⟩ => ?_
    refine refines_ite (fun hne => absurd herr hne) fun _ => refines_ret ?_
    rw [h]
    exact .asking hup (by simpa using hlink) hasked

theorem ensures_dhcpBegin {s : Core} (hmtu : ¬ s.netif.mtu < dhcpMaxMsgLenMinRequired)
    (hcount : s.dhcpPcbRefcount = 0) {d : Dhcp} (hd : s.netif.dhcp = some d)
    (hm : { s.monitor with client := m.client } = m) (hup : m.up = true) :
    Ensures ok dhcpBegin s fun err t => t.Valid ∧ m.Begun ok err t.monitor := by
  have hview (c : Dhcp) (b : Bool) (n : UInt8) : { s with
      netif.dhcp := some c, dhcpPcb := b, dhcpPcbRefcount := n }.monitor = { m with client := some c.client } := by
    rw [← hm]
    rfl
  simp only [dhcpBegin, dhcpIncPcbRefcount, ensures_bind, ensures_modify, ensures_get, hcount, if_true,
    ensures_call, Core.updateDhcp, hd, Option.map_some]
  intro room hroom
  cases room with
  | false =>
      refine ⟨⟨hmtu, rfl⟩, ?_⟩
      rw [show Core.monitor _ = _ from hview .cleared false 0]
      exact .noPcb hroom
  | true =>
      refine dhcpFirst_shows hup _ ⟨hmtu, rfl⟩ ?_
      exact hview { Dhcp.cleared with pcbAllocated := true } true 1

theorem dhcpStart_shows : Shows ok dhcpStart m fun err m' => m.Begun ok err m' := by
  refine refines_see (fun m => !m.up) (fun _ => rfl) (refines_ite (fun hup => ?_) fun hup => ?_)
  · exact refines_ret (.down (by simpa using hup))
  have hup : m.up = true := by simpa using hup
  refine refines_get fun s hs _ => refines_ite (fun hmtu => absurd (of_decide_eq_true hmtu) hs.mtu) fun _ => ?_
  refine refines_see (fun m => m.client.isSome) Core.dhcp_isSome (refines_ite (fun hsome => ?_) fun hnone => ?_)
  · rintro s hs rfl
    obtain ⟨d, hd⟩ := Option.isSome_iff_exists.mp (s.dhcp_isSome.trans hsome)
    rw [ensures_bind, ensures_get, ensures_bind]
    cases hpcb : s.dhcp.pcbAllocated with
    | false => exact ensures_dhcpBegin hs.mtu (by simp [hs.refcount, hpcb]) hd rfl hup
    | true => exact ensures_dhcpDecPcbRefcount hs hpcb (ensures_dhcpBegin hs.mtu rfl hd rfl hup)
  · have hclient : m.client = none := by simpa using hnone
    refine refines_call fun room _ => refines_ite (fun _ => ?_) fun _ => refines_ret (.noMemory hclient)
    rintro s hs rfl
    have hcount : s.dhcpPcbRefcount = 0 := by
      rw [hs.refcount, s.dhcp_pcb]
      simp [Monitor.dhcp, hclient, Client.cleared]
    exact ensures_dhcpBegin hs.mtu hcount rfl rfl hup

theorem dhcpRestart_shows : Shows ok dhcpRestart m fun _ m' => ∃ err, m.stop.Begun ok err m' := by
  refine dhcpReleaseAndStop_shows.next ?_
  exact dhcpStart_shows.seq fun err m' h => refines_ret ⟨err, h⟩

end Oinzen
