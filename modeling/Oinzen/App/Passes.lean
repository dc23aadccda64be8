import Oinzen.App.View

/-!
# The passes of the link thread

What `ethernetif_set_link` does in one pass is a pass of the abstract monitor.
-/

namespace Oinzen

open Interference Prog

variable {ok : ∀ i : Call, Call.Answer i → Prop} {m : Monitor}

theorem setStatus_shows (status : DhcpLinkStatus) :
    Shows ok (setStatus status) m fun _ m' => m' = { m with status := status } :=
  refines_modify fun _ hs hm => ⟨⟨hs.mtu, hs.refcount⟩, hm ▸ rfl⟩

theorem netifLinkCallback_shows : Shows ok netifLinkCallback m fun _ m' => m' = m := by
  refine refines_get fun s _ _ => refines_when (fun _ => ?_) fun _ => rfl
  exact refines_get fun s _ _ => driver_shows

theorem netifSetLinkDown_shows :
    Shows ok netifSetLinkDown m fun _ m' => m' = { m with linkUp := false } := by
  refine refines_see (fun m => m.linkUp) (fun _ => rfl) (refines_when (fun _ => ?_) fun h => ?_)
  · refine Refines.next (n := { m with linkUp := false }) ?_ netifLinkCallback_shows
    exact refines_modify fun _ hs hm => ⟨⟨hs.mtu, hs.refcount⟩, hm ▸ rfl⟩
  · rw [← h]

theorem netifIssueReports_shows : Shows ok netifIssueReports m fun _ m' =>
    ∃ ann, (ann = m.announced ∨ m.addr ≠ 0 ∧ ann = m.announced ++ [m.addr]) ∧
      m' = { m with announced := ann } := by
  rintro s hs rfl
  exact ensures_netifIssueReports fun e ann hann => ⟨⟨hs.mtu, hs.refcount⟩, ann, hann, rfl⟩

theorem netifSetUp_shows (h : m.addr = 0 ∨ m.linkUp = false) :
    Shows ok netifSetUp m fun _ m' => m' = { m with up := true } := by
  refine refines_see (fun m => !m.up) (fun _ => rfl) (refines_when (fun _ => ?_) fun hup => ?_)
  · refine Refines.next (n := { m with up := true }) ?_ ?_
    · exact refines_modify fun _ hs hm => ⟨⟨hs.mtu, hs.refcount⟩, hm ▸ rfl⟩
    · rcases h with haddr | hlink
      · refine netifIssueReports_shows.mono fun _ m' ⟨ann, hann, h⟩ => ?_
        rw [h, hann.resolve_right fun h => h.1 haddr]
      · refine refines_see (fun m => m.linkUp && m.up) (fun _ => rfl) ?_
        rw [hlink]
        exact refines_ret rfl
  · rw [← (by simpa using hup : m.up = true)]

theorem netifSetDown_shows : Shows ok netifSetDown m fun _ m' => m' = { m with up := false } := by
  refine refines_see (fun m => m.up) (fun _ => rfl) (refines_when (fun _ => ?_) fun h => ?_)
  · exact refines_modify fun _ hs hm => ⟨⟨hs.mtu, hs.refcount⟩, hm ▸ rfl⟩
  · rw [← h]

theorem dhcpNetworkChanged_shows (h : m.dhcp.state = .off) :
    Shows ok dhcpNetworkChanged m fun _ m' => m' = m := by
  refine refines_get fun s _ _ => refines_ite (fun _ => ?_) fun _ => refines_ret rfl
  refine refines_see (fun m => m.dhcp.state) Core.dhcp_state ?_
  rw [h]
  exact refines_ret rfl

theorem netifSetLinkUp_shows (hlink : m.linkUp = false) (hoff : m.dhcp.state = .off) :
    Shows ok netifSetLinkUp m fun _ m' =>
      ∃ ann, (ann = m.announced ∨ m.addr ≠ 0 ∧ ann = m.announced ++ [m.addr]) ∧
        m' = { m with linkUp := true, announced := ann } := by
  refine refines_see (fun m => !m.linkUp) (fun _ => rfl) (refines_when (fun _ => ?_) fun h => ?_)
  · refine Refines.next (n := { m with linkUp := true }) ?_ (Refines.next (dhcpNetworkChanged_shows hoff) ?_)
    · exact refines_modify fun _ hs hm => ⟨⟨hs.mtu, hs.refcount⟩, hm ▸ rfl⟩
    · refine netifIssueReports_shows.seq fun _ m' ⟨ann, hann, h⟩ => ?_
      exact netifLinkCallback_shows.mono fun _ _ h' => ⟨ann, hann, h'.trans h⟩
  · simp [hlink] at h

theorem Core.recordStart_monitor (s : Core) :
    s.recordStart.monitor = s.monitor.starting s.netif.up s.netif.linkUp := by
  rw [Core.recordStart, s.dhcp_state, s.dhcp_pcb]
  rfl

theorem startDhcp_shows (up linkUp : Bool) (hup : m.up = up) (hlink : m.linkUp = linkUp) :
    Shows ok startDhcp m fun _ m' => ∃ err m1, Monitor.Begun ok (m.starting up linkUp) err m1 ∧
      m' = m1.started err := by
  refine Refines.next (n := m.starting up linkUp) ?_ (dhcpStart_shows.seq fun err m1 h => ?_)
  · refine refines_modify fun s hs hm => ⟨⟨hs.mtu, hs.refcount⟩, ?_⟩
    subst hm hup hlink
    exact s.recordStart_monitor
  · exact (setStatus_shows _).mono fun _ _ h' => ⟨err, m1, h, h'⟩

theorem linkLost_shows :
    Shows ok linkLost m fun _ m' => m' = { m.stop with linkUp := false, status := .linkDown } :=
  dhcpReleaseAndStop_shows.next (netifSetLinkDown_shows.next (setStatus_shows _))

theorem useStaticAddress_shows : Shows ok useStaticAddress m fun _ m' =>
    ∃ ann, m' = { m.setAddr staticIpaddr staticNetmask staticGw with announced := ann } := by
  rintro s hs rfl
  refine ensures_netifSetAddr (fun _ _ _ _ _ _ => rfl) (fun _ _ _ _ _ _ => rfl) (fun _ _ _ _ _ _ => rfl) ?_
  exact fun e ann _ => ⟨⟨hs.mtu, hs.refcount⟩, ann, rfl⟩

theorem isLost_shows (bit : UInt32) : Shows ok (isLost bit) m fun lost m' => (lost = true ↔ m.Lost bit) ∧ m' = m :=
  refines_read (fun m => m.linkUp && bit = 0) (fun _ => rfl) ⟨by simp [Monitor.Lost], rfl⟩

theorem linkUpWaitingDhcp_shows (bit : UInt32) (hst : m.status = .linkUpWaitingDhcp) :
    Shows ok (linkUpWaitingDhcp bit) m fun _ m' => m.Pass ok bit m' := by
  refine (isLost_shows bit).seq fun lost m' ⟨hlost, h⟩ => ?_
  subst h
  refine refines_ite (fun h => ?_) fun hkept => dhcpSuppliedAddress_shows.seq fun supplied m' ⟨hs, h⟩ => ?_
  · exact linkLost_shows.mono fun _ _ h' => h' ▸ .lost (.inl hst) (hlost.mp h)
  subst h
  have hkept : ¬ m'.Lost bit := fun h => hkept (hlost.mpr h)
  refine refines_ite (fun h => ?_) fun hno => ?_
  · exact (setStatus_shows _).mono fun _ _ h' => h' ▸ .acquired hst hkept (hs ▸ h)
  have hno : m'.dhcp.state.supplied = false := by simpa [hs] using hno
  refine refines_see (fun m => m.client.isSome) Core.dhcp_isSome (refines_ite (fun hsome => ?_) fun hnone => ?_)
  · refine refines_see (fun m => decide (m.dhcp.tries > maxDhcpTries)) (fun s => by rw [s.dhcp_tries]) ?_
    refine refines_when (fun htries => dhcpReleaseAndStop_shows.next ?_) fun htries => ?_
    · exact (setStatus_shows _).mono fun _ _ h' => h' ▸ .giveUp hst hkept hno (of_decide_eq_true htries)
    · exact .wait hst hkept hno hsome (by simpa using htries)
  · refine refines_modify fun _ hs hm => ⟨⟨hs.mtu, hs.refcount⟩, ?_⟩
    subst hm
    exact .nullPointer hst hkept (by simpa using hnone)

theorem linkUpDhcpError_shows (bit : UInt32) (hst : m.status = .linkUpDhcpError) :
    Shows ok (linkUpDhcpError bit) m fun _ m' => m.Pass ok bit m' := by
  refine (isLost_shows bit).seq fun lost m' ⟨hlost, h⟩ => ?_
  subst h
  refine refines_ite (fun h => ?_) fun hkept => dhcpReleaseAndStop_shows.next ?_
  · exact linkLost_shows.mono fun _ _ h' => h' ▸ .lost (.inr (.inr hst)) (hlost.mp h)
  refine useStaticAddress_shows.seq fun _ m1 ⟨ann, h⟩ => (setStatus_shows _).mono fun _ _ h' => ?_
  rw [h', h]
  exact .fallback hst fun h => hkept (hlost.mpr h)

theorem linkUpIpAcquired_shows (bit : UInt32) (hst : m.status = .linkUpIpAcquired) :
    Shows ok (linkUpIpAcquired bit) m fun _ m' => m.Pass ok bit m' := by
  refine (isLost_shows bit).seq fun lost m' ⟨hlost, h⟩ => ?_
  subst h
  refine refines_when (fun h => ?_) fun hkept => .keep hst ?_
  · exact linkLost_shows.mono fun _ _ h' => h' ▸ .lost (.inr (.inl hst)) (hlost.mp h)
  · exact fun h => by simp [hlost.mpr h] at hkept

theorem linkUp_shows (bit : UInt32) (hst : m.status = .linkDown ∨ m.status = .linkDownInit) (hbit : bit ≠ 0)
    (hlink : m.linkUp = false) (hoff : m.dhcp.state = .off) :
    Shows ok (do netifSetLinkUp; startDhcp) { m with up := true } fun _ m' => m.Pass ok bit m' := by
  refine Refines.seq (netifSetLinkUp_shows hlink hoff) fun _ m' ⟨ann, hann, h⟩ => ?_
  subst h
  refine (startDhcp_shows true true rfl rfl).mono fun _ m' ⟨err, m1, hbegun, h⟩ => ?_
  rw [h]
  exact .up hst hbit hann hbegun

theorem linkDown_shows (bit : UInt32) (hst : m.status = .linkDown) (hup : m.up = true) (hlink : m.linkUp = false)
    (hoff : m.dhcp.state = .off) : Shows ok (linkDown bit) m fun _ m' => m.Pass ok bit m' := by
  refine refines_see (fun m => !m.linkUp && bit ≠ 0) (fun _ => rfl) (refines_when (fun h => ?_) fun h => ?_)
  · have hbit : bit ≠ 0 := by simpa [hlink] using h
    have hshows : Shows ok _ _ _ := linkUp_shows bit (.inl hst) hbit hlink hoff
    rwa [show { m with up := true } = m by rw [← hup]] at hshows
  · exact .stayDown (.inl hst) (by simpa [hlink] using h)

theorem linkDownInit_shows (bit : UInt32) (hst : m.status = .linkDownInit) (hlink : m.linkUp = false)
    (hoff : m.dhcp.state = .off) : Shows ok (linkDownInit bit) m fun _ m' => m.Pass ok bit m' := by
  refine refines_when (fun h => (netifSetUp_shows (.inr hlink)).next ?_) fun h => ?_
  · exact linkUp_shows bit (.inr hst) (by simpa using h) hlink hoff
  · exact .stayDown (.inr hst) (by simpa using h)

theorem ethernetifSetLink_shows (hrun : m.status ≠ .notInitialized)
    (hdown : m.status = .linkDown ∨ m.status = .linkDownInit → m.linkUp = false ∧ m.dhcp.state = .off)
    (hup : m.status = .linkDown → m.up = true) :
    Shows ok ethernetifSetLink m fun bit m' => ∃ v, bit = some v ∧ m.Pass ok v m' := by
  refine refines_see (fun m => m.status) (fun _ => rfl) (refines_ite (fun h => absurd h hrun) fun _ => ?_)
  refine driver_shows.seq fun bit m' h => ?_
  subst h
  have hswitch : Shows ok (switchStatus bit m'.status) m' fun _ m'' => m'.Pass ok bit m'' := by
    cases hst : m'.status with
    | notInitialized => exact absurd hst hrun
    | linkUpWaitingDhcp => exact linkUpWaitingDhcp_shows bit hst
    | linkUpIpAcquired => exact linkUpIpAcquired_shows bit hst
    | linkUpDhcpError => exact linkUpDhcpError_shows bit hst
    | linkDown => exact linkDown_shows bit hst (hup hst) (hdown (.inl hst)).1 (hdown (.inl hst)).2
    | linkDownInit => exact linkDownInit_shows bit hst (hdown (.inr hst)).1 (hdown (.inr hst)).2
  exact hswitch.seq fun _ _ h => refines_ret ⟨bit, rfl, h⟩

theorem ensures_lowLevelInit {s : Core} {Q : Unit → Core → Prop}
    (h : ∀ e linkUp, Q () { s with
      eth := e, netif.linkUp := linkUp, netif.hwaddr := [0x00, 0x80, 0xE1, 0x00, 0x00, 0x00],
      netif.mtu := 1500, netif.etharp := true }) :
    Ensures ok lowLevelInit s Q := by
  rw [lowLevelInit, ensures_bind]
  refine ensures_driver fun status e => ?_
  simp only [ensures_bind, ensures_modify]
  cases hst : decide (status = .ok) with
  | true => exact h e true
  | false => exact h e s.netif.linkUp

theorem ensures_netifAdd {eth : Eth} {Q : Unit → Core → Prop}
    (h : ∀ s : Core, s.Valid → ∀ linkUp, s.monitor = { Monitor.boot with linkUp := linkUp } → Q () s) :
    Ensures ok (netifAdd Core.ipaddr Core.netmask Core.gw) (Core.boot eth) Q := by
  rw [netifAdd, ensures_bind, ensures_modify, ensures_bind]
  refine ensures_netifSetAddr (fun _ _ _ _ _ _ => rfl) (fun _ _ _ _ _ _ => rfl) (fun _ _ _ _ _ _ => rfl) ?_
  intro e ann hann
  obtain rfl : ann = [] := hann.resolve_right fun h => h.1 rfl
  have hmtu : ¬ (1500 : UInt16) < dhcpMaxMsgLenMinRequired := by decide
  exact ensures_lowLevelInit fun e linkUp => h _ ⟨hmtu, rfl⟩ linkUp rfl

theorem ensures_mxLwipInit (eth : Eth) :
    Ensures ok mxLwipInit (Core.boot eth) fun _ s => s.Valid ∧ Monitor.Booted ok s.monitor := by
  simp only [mxLwipInit, ensures_bind, ensures_modify]
  refine ensures_netifAdd fun s hs linkUp hm => ?_
  have hlink : s.netif.linkUp = linkUp := congrArg Monitor.linkUp hm
  rw [ensures_get, hlink]
  have hcallback {t : Core} (ht : Core.seen.valid t ∧ Monitor.Booted ok t.monitor) :
      ({ t with netif.linkCallback := true }).Valid ∧
        Monitor.Booted ok ({ t with netif.linkCallback := true }).monitor := ⟨⟨ht.1.mtu, ht.1.refcount⟩, ht.2⟩
  cases linkUp with
  | true =>
      have hup : Shows ok (do netifSetUp; startDhcp) { Monitor.boot with linkUp := true } fun _ m' =>
          Monitor.Booted ok m' := by
        refine Refines.next (netifSetUp_shows (.inl rfl)) ?_
        refine (startDhcp_shows true true rfl rfl).mono fun _ _ h => ?_
        obtain ⟨err, m1, hbegun, rfl⟩ := h
        exact .up hbegun
      exact (hup s hs hm).mono fun _ _ ht => hcallback ht
  | false =>
      have hdown : Shows ok (do netifSetDown; setStatus .linkDownInit) { Monitor.boot with linkUp := false }
          fun _ m' => Monitor.Booted ok m' := by
        refine netifSetDown_shows.next ((setStatus_shows _).mono fun _ _ h => ?_)
        rw [h]
        exact .down
      rw [when_false, ensures_ret]
      exact (hdown s hs hm).mono fun _ _ ht => hcallback ht

end Oinzen
