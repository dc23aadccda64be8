import Oinzen.App.View

/-!
# Timer ticks and packets

Each of them is one of the events of the abstract monitor.
-/

namespace Oinzen

open Interference Prog

inductive LwipEvent
  | fineTmr
  | coarseTmr
  | recv (p : DhcpPacket)
  | arpReply (addr : IpAddr)

def LwipEvent.code : LwipEvent → Code Core Unit
  | .fineTmr => dhcpFineTmr
  | .coarseTmr => dhcpCoarseTmr
  | .recv p => dhcpRecv p
  | .arpReply addr => dhcpArpReply addr

def DhcpState.asked (state : DhcpState) : Prop :=
  state = .requesting ∨ state = .rebooting ∨ state = .rebinding ∨ state = .renewing

namespace Core

def gets (s : Core) (p : DhcpPacket) (msgType : UInt8) (o : DhcpOptions) : Prop :=
  s.dhcp.pcbAllocated = true ∧ dhcpMinReplyLen ≤ p.len ∧ p.op = dhcpBootreply ∧ s.netif.hwaddr = p.chaddr ∧
    s.dhcp.xid = p.xid ∧ p.options = some o ∧ o.msgType = some msgType

def getsOffer (s : Core) (p : DhcpPacket) : Prop :=
  s.dhcp.state = .selecting ∧ ∃ o, s.gets p 2 o ∧ o.serverId.isSome = true

def getsNak (s : Core) (p : DhcpPacket) : Prop := s.dhcp.state.asked ∧ ∃ o, s.gets p 6 o

def getsAck (s : Core) (p : DhcpPacket) (addr : IpAddr) : Prop :=
  s.dhcp.state.asked ∧ addr = p.yiaddr ∧ ∃ o, s.gets p 5 o

def leaseOver (s : Core) : Prop := s.dhcp.t0Timeout ≠ 0 ∧ s.dhcp.leaseUsed + 1 = s.dhcp.t0Timeout

def renewalOver (s : Core) : Prop := s.dhcp.t2RebindTime = 1 ∨ s.dhcp.t1RenewTime = 1

end Core

def Monitor.Input.none : Monitor.Input := ⟨False, False, fun _ => False, False, False⟩

def LwipEvent.input (s : Core) : LwipEvent → Monitor.Input
  | .recv p => { Monitor.Input.none with offer := s.getsOffer p, nak := s.getsNak p, ack := s.getsAck p }
  | .coarseTmr => { Monitor.Input.none with expiry := s.leaseOver, renewal := s.renewalOver }
  | .fineTmr | .arpReply _ => .none

variable {ok : ∀ i : Call, Call.Answer i → Prop} {α : Type} {m : Monitor} {i : Monitor.Input}

/-! ## Requests -/

theorem dhcpAttempt_event {state : DhcpState} {t : DhcpMessageType} {msecs : Nat → Nat}
    (hon : m.dhcp.state ≠ .off) (hstate : state ≠ .off)
    (hlease : m.dhcp.state.supplied = true → state.supplied = true)
    (hselecting : m.dhcp.state = .selecting → state = .selecting ∨ i.offer) (hchecking : state ≠ .checking)
    (hrenewal : state.supplied = true → m.dhcp.state.supplied = true ∨ m.dhcp.state = .requesting ∧ i.renewal) :
    Shows ok (dhcpAttempt state t msecs) m fun _ m' => Monitor.Event ok i m m' := by
  refine (dhcpAttempt_shows state t msecs).mono fun _ m' ⟨asked, hasked, h⟩ => ?_
  have hevent : Monitor.Event ok i m ((m.offer m.dhcp.offered).attempt state asked) :=
    .attempt hon hstate (Nat.le_trans hasked (Bool.toNat_le _)) hlease hselecting (absurd · hchecking) hrenewal
  rwa [Monitor.offer_self, ← h] at hevent

theorem dhcpDiscover_event (hon : m.dhcp.state ≠ .off) (hlease : m.dhcp.state.supplied = false) :
    Shows ok (do let _ ← dhcpDiscover) m fun _ m' => Monitor.Event ok i m m' := by
  refine dhcpDiscover_shows.seq fun _ m' ⟨_, asked, hasked, h⟩ => refines_ret ?_
  rw [h]
  exact .attempt hon nofun hasked (by simp [hlease]) (fun _ => .inl rfl) nofun nofun

theorem dhcpRestart_event (hon : m.dhcp.state ≠ .off)
    (hexpires : m.dhcp.state = .selecting → m.dhcp.expires = true)
    (hlease : m.dhcp.state.supplied = true → i.expiry) :
    Shows ok dhcpRestart m fun _ m' => Monitor.Event ok i m m' :=
  dhcpRestart_shows.mono fun _ _ ⟨_, h⟩ => .restart hon hexpires hlease h

theorem dhcpBind_event {addr : IpAddr} {m1 : Monitor} (hm : m1 = m.offer addr) (hon : m.dhcp.state ≠ .off)
    (hselecting : m.dhcp.state ≠ .selecting) (haddr : m.Takes i addr) :
    Shows ok dhcpBind m1 fun _ m' => Monitor.Event ok i m m' := by
  refine dhcpBind_shows.mono fun _ m' ⟨expires, mask, gw, ann, h⟩ => ?_
  have hoffered : m1.dhcp.offered = addr := by
    rw [hm, Monitor.offer, Monitor.dhcp_onClient (Monitor.isSome_of_on hon)]
  have hclient : (m1.onClient fun c => { c.enter .bound with expires := expires }) =
      m.onClient fun c => { c.enter .bound with expires := expires, offered := addr } := by
    rw [hm, Monitor.offer, Monitor.onClient_onClient]
    refine Monitor.onClient_congr ?_
    simp only [Client.enter]
    split <;> rfl
  rw [h, hoffered, hclient]
  exact .bind hon hselecting haddr

theorem dhcpCheck_event {addr : IpAddr} {m1 : Monitor} (hm : m1 = m.offer addr) (hon : m.dhcp.state ≠ .off)
    (hlease : m.dhcp.state.supplied = false) (hselecting : m.dhcp.state ≠ .selecting) (haddr : m.Takes i addr) :
    Shows ok dhcpCheck m1 fun _ m' => Monitor.Event ok i m m' := by
  refine dhcpCheck_shows.mono fun _ m' h => ?_
  rw [h, hm]
  exact .attempt hon nofun (Nat.zero_le _) (by simp [hlease]) (absurd · hselecting) (fun _ => haddr) nofun

/-! ## Timers -/

theorem dhcpTimeout_event : Shows ok dhcpTimeout m fun _ m' => Monitor.Event ok i m m' := by
  refine refines_see (fun m => m.dhcp.state) Core.dhcp_state ?_
  cases h : m.dhcp.state with
  | backingOff | selecting => exact dhcpDiscover_event (by simp [h]) (by rw [h]; rfl)
  | requesting =>
      refine refines_get fun s _ _ => refines_ite (fun _ => ?_) fun _ => ?_
      · exact dhcpAttempt_event (by simp [h]) (by decide) (by simp [h, DhcpState.supplied]) (by simp [h]) (by decide)
          (absurd · (by decide))
      · exact dhcpRestart_event (by simp [h]) (by simp [h]) (by simp [h, DhcpState.supplied])
  | checking =>
      have haddr : m.Takes i m.dhcp.offered := .inl ⟨h, rfl⟩
      refine refines_get fun s _ _ => refines_ite (fun _ => ?_) fun _ => ?_
      · exact dhcpCheck_event m.offer_self.symm (by simp [h]) (by rw [h]; rfl) (by simp [h]) haddr
      · exact dhcpBind_event m.offer_self.symm (by simp [h]) (by simp [h]) haddr
  | rebooting =>
      refine refines_get fun s _ _ => refines_ite (fun _ => ?_) fun _ => ?_
      · exact dhcpAttempt_event (by simp [h]) (by decide) (by simp [h, DhcpState.supplied]) (by simp [h]) (by decide)
          (absurd · (by decide))
      · exact dhcpDiscover_event (by simp [h]) (by rw [h]; rfl)
  | _ => exact refines_ret .rest

theorem dhcpFineTmr_event : Shows ok dhcpFineTmr m fun _ m' => Monitor.Event ok i m m' := by
  refine refines_get fun s _ _ => refines_ite (fun _ => ?_) fun _ => refines_ret .rest
  refine refines_get fun s _ _ => refines_ite (fun _ => ?_) fun _ => ?_
  · exact Refines.mono (updateDhcp_quiet (fun _ => rfl) fun _ => rfl) fun _ _ h => h ▸ .rest
  · refine refines_when (fun _ => ?_) fun _ => .rest
    exact Refines.next (updateDhcp_quiet (fun _ => rfl) fun _ => rfl) dhcpTimeout_event

theorem dhcpExtend_event {state : DhcpState} {t : DhcpMessageType} {msecs : Nat → Nat} {f : Dhcp → Dhcp}
    (pcb : ∀ d, (f d).pcbAllocated = d.pcbAllocated) (view : ∀ d, (f d).client = d.client)
    (hstate : state.supplied = true) (hfrom : m.dhcp.state = .requesting ∨ m.dhcp.state.supplied = true)
    (hrenewal : i.renewal) : Shows ok (do dhcpAttempt state t msecs; Prog.modify (Core.updateDhcp f)) m fun _ m' =>
      Monitor.Event ok i m m' := by
  have hattempt : Shows ok (dhcpAttempt state t msecs) m fun _ m' => Monitor.Event ok i m m' := by
    refine dhcpAttempt_event ?_ (by rintro rfl; cases hstate) (fun _ => hstate) ?_ (by rintro rfl; cases hstate) ?_
    · intro h
      simp [h, DhcpState.supplied] at hfrom
    · intro h
      simp [h, DhcpState.supplied] at hfrom
    · exact fun _ => hfrom.symm.imp_right fun h => ⟨h, hrenewal⟩
  refine hattempt.seq fun _ m' he => ?_
  exact Refines.mono (updateDhcp_quiet pcb view) fun _ _ h => h ▸ he

theorem dhcpT1Timeout_event (hrenewal : i.renewal) :
    Shows ok dhcpT1Timeout m fun _ m' => Monitor.Event ok i m m' := by
  refine refines_see (fun m => m.dhcp.state) Core.dhcp_state (refines_when (fun h => ?_) fun _ => .rest)
  simp only [Bool.or_eq_true, decide_eq_true_eq] at h
  exact dhcpExtend_event (fun _ => rfl) (fun _ => rfl) rfl (by grind [DhcpState.supplied]) hrenewal

theorem dhcpT2Timeout_event (hrenewal : i.renewal) :
    Shows ok dhcpT2Timeout m fun _ m' => Monitor.Event ok i m m' := by
  refine refines_see (fun m => m.dhcp.state) Core.dhcp_state (refines_when (fun h => ?_) fun _ => .rest)
  simp only [Bool.or_eq_true, decide_eq_true_eq] at h
  exact dhcpExtend_event (fun _ => rfl) (fun _ => rfl) rfl (by grind [DhcpState.supplied]) hrenewal

theorem ensures_count (f : Dhcp → Dhcp) (pcb : ∀ d, (f d).pcbAllocated = d.pcbAllocated)
    (view : ∀ d, (f d).client = d.client) {s : Core} (hs : s.Valid) (hsome : s.netif.dhcp.isSome = true)
    {c : Bool} {Q : Unit → Core → Prop}
    (h : ∀ t, t.Valid → t.netif.dhcp.isSome = true → t.monitor = s.monitor →
      t.dhcp = (if c then f s.dhcp else s.dhcp) → Q () t) :
    Ensures ok (Prog.when c (Prog.modify (Core.updateDhcp f))) s Q := by
  cases c with
  | false => exact h s hs hsome rfl rfl
  | true =>
      obtain ⟨d, hd⟩ := Option.isSome_iff_exists.mp hsome
      refine h (s.updateDhcp f) (hs.updateDhcp pcb) (by simp [Core.updateDhcp, hd]) ?_ ?_
      · exact (Core.updateDhcp_monitor (g := fun c => c) (view _)).trans Monitor.onClient_id
      · simp [Core.updateDhcp, Core.dhcp, hd]

theorem leaseTick_event {s : Core} (hs : s.Valid) (hsome : s.netif.dhcp.isSome = true)
    (hon : s.monitor.dhcp.state ≠ .off) : Ensures ok leaseTick s fun _ t =>
      t.Valid ∧ Monitor.Event ok (LwipEvent.coarseTmr.input s) s.monitor t.monitor := by
  rw [leaseTick, ensures_bind, ensures_get, ensures_bind]
  refine ensures_count (fun d => { d with leaseUsed := d.leaseUsed + 1 }) (fun _ => rfl) (fun _ => rfl) hs hsome
    fun s1 hs1 hsome1 hm1 hd1 => ?_
  rw [ensures_bind, ensures_get]
  split
  case isTrue hover =>
    have hover : s.leaseOver := by
      obtain ⟨hexpiring, hused⟩ := Bool.and_eq_true_iff.mp hover
      rw [if_pos hexpiring] at hd1
      exact ⟨of_decide_eq_true hexpiring, by simpa [hd1] using hused⟩
    have hexpires : s.monitor.dhcp.expires = true := s.dhcp_expires ▸ decide_eq_true hover.1
    exact dhcpRestart_event hon (fun _ => hexpires) (fun _ => hover) s1 hs1 hm1
  case isFalse =>
  have htimers : s1.dhcp.t2RebindTime = s.dhcp.t2RebindTime ∧ s1.dhcp.t1RenewTime = s.dhcp.t1RenewTime := by
    rw [hd1]; split <;> exact ⟨rfl, rfl⟩
  rw [ensures_bind, ensures_get, ensures_bind]
  refine ensures_count (fun d => { d with t2RebindTime := d.t2RebindTime - 1 }) (fun _ => rfl) (fun _ => rfl) hs1
    hsome1 fun s2 hs2 hsome2 hm2 hd2 => ?_
  have hrenew : s2.dhcp.t1RenewTime = s.dhcp.t1RenewTime := by
    rw [hd2, ← htimers.2]; split <;> rfl
  split
  case isTrue hover =>
    have hover : s.renewalOver := .inl (htimers.1 ▸ hover)
    exact dhcpT2Timeout_event (i := LwipEvent.coarseTmr.input s) hover s2 hs2 (hm2.trans hm1)
  case isFalse =>
  rw [ensures_bind, ensures_get, ensures_bind]
  refine ensures_count (fun d => { d with t1RenewTime := d.t1RenewTime - 1 }) (fun _ => rfl) (fun _ => rfl) hs2
    hsome2 fun s3 hs3 _ hm3 _ => ?_
  cases hover : decide (s2.dhcp.t1RenewTime = 1) with
  | false => exact ⟨hs3, (hm3.trans (hm2.trans hm1)).symm ▸ .rest⟩
  | true =>
      have hover : s.renewalOver := .inr (hrenew ▸ of_decide_eq_true hover)
      exact dhcpT1Timeout_event (i := LwipEvent.coarseTmr.input s) hover s3 hs3 (hm3.trans (hm2.trans hm1))

theorem dhcpCoarseTmr_event {s : Core} (hs : s.Valid) : Ensures ok dhcpCoarseTmr s fun _ t =>
    t.Valid ∧ Monitor.Event ok (LwipEvent.coarseTmr.input s) s.monitor t.monitor := by
  rw [dhcpCoarseTmr, ensures_bind, ensures_get]
  split
  case isFalse => exact ⟨hs, .rest⟩
  case isTrue hsome =>
  rw [ensures_bind, ensures_get, s.dhcp_state]
  cases hon : decide ((Core.seen.view s).dhcp.state ≠ .off) with
  | false => exact ⟨hs, .rest⟩
  | true => exact leaseTick_event hs hsome (of_decide_eq_true hon)

/-! ## Packets -/

theorem dhcpHandleNak_event (hon : m.dhcp.state ≠ .off) (hselecting : m.dhcp.state ≠ .selecting) (hnak : i.nak) :
    Shows ok dhcpHandleNak m fun _ m' => Monitor.Event ok i m m' := by
  refine (dhcpSetState_shows .backingOff).next (netifClearAddr_shows.next ?_)
  refine dhcpDiscover_shows.seq fun _ m' ⟨_, asked, hasked, h⟩ => refines_ret ?_
  rw [h]
  exact .nak hon hselecting hasked hnak

theorem dhcpHandleAck_shows (yiaddr : IpAddr) (o : DhcpOptions) :
    Shows ok (dhcpHandleAck yiaddr o) m fun _ m' => m' = m.offer yiaddr :=
  updateDhcp_shows (fun c => { c with offered := yiaddr }) (fun _ => rfl) fun _ => rfl

def messageInput (state : DhcpState) (yiaddr : IpAddr) (o : DhcpOptions) (msgType : UInt8) : Monitor.Input where
  offer := state = .selecting ∧ msgType = 2 ∧ o.serverId.isSome = true
  nak := state.asked ∧ msgType = 6
  ack addr := state.asked ∧ msgType = 5 ∧ addr = yiaddr
  expiry := False
  renewal := False

theorem dhcpHandleOffer_event (yiaddr : IpAddr) (o : DhcpOptions) (hstate : m.dhcp.state = .selecting)
    (hoffer : o.serverId.isSome = true → i.offer) :
    Shows ok (dhcpHandleOffer yiaddr o) m fun _ m' => Monitor.Event ok i m m' := by
  cases hserver : o.serverId with
  | none =>
      simp only [dhcpHandleOffer, hserver]
      exact refines_ret .rest
  | some server =>
      simp only [dhcpHandleOffer, hserver]
      refine Refines.next (updateDhcp_shows (fun c => { c with offered := yiaddr }) (fun _ => rfl) fun _ => rfl) ?_
      refine (dhcpAttempt_shows .requesting .request backoff).mono fun _ m' ⟨asked, hasked, h⟩ => ?_
      rw [h]
      exact .attempt (by simp [hstate]) nofun hasked (by simp [hstate, DhcpState.supplied])
        (fun _ => .inr (hoffer (by rw [hserver]; rfl))) nofun nofun

theorem dhcpHandle_event (yiaddr : IpAddr) (o : DhcpOptions) (msgType : UInt8) :
    Shows ok (dhcpHandle yiaddr o msgType m.dhcp.state) m fun _ m' =>
      Monitor.Event ok (messageInput m.dhcp.state yiaddr o msgType) m m' := by
  refine refines_ite (fun hack => ?_) fun _ => ?_
  · refine refines_ite (fun h => ?_) fun _ => refines_ite (fun h => ?_) fun _ => refines_ret .rest
    · have haddr : m.Takes (messageInput m.dhcp.state yiaddr o msgType) yiaddr := .inr ⟨.inl h, hack, rfl⟩
      refine (dhcpHandleAck_shows yiaddr o).next (refines_get fun s _ _ => refines_ite (fun _ => ?_) fun _ => ?_)
      · exact dhcpCheck_event rfl (by simp [h]) (by rw [h]; rfl) (by simp [h]) haddr
      · exact dhcpBind_event rfl (by simp [h]) (by simp [h]) haddr
    · have haddr : m.Takes (messageInput m.dhcp.state yiaddr o msgType) yiaddr := .inr ⟨.inr h, hack, rfl⟩
      exact (dhcpHandleAck_shows yiaddr o).next (dhcpBind_event rfl (by grind) (by grind) haddr)
  · refine refines_ite (fun h => ?_) fun _ => refines_ite (fun h => ?_) fun _ => refines_ret .rest
    · exact dhcpHandleNak_event (by grind) (by grind) ⟨by grind [DhcpState.asked], h.1⟩
    · exact dhcpHandleOffer_event yiaddr o h.2 fun hserver => ⟨h.2, h.1, hserver⟩

theorem Monitor.Event.mono {j : Monitor.Input} {m' : Monitor} (e : Monitor.Event ok i m m')
    (offer : i.offer → j.offer) (nak : i.nak → j.nak) (ack : ∀ addr, i.ack addr → j.ack addr)
    (expiry : i.expiry → j.expiry) (renewal : i.renewal → j.renewal) : Monitor.Event ok j m m' := by
  have takes {addr : IpAddr} (h : m.Takes i addr) : m.Takes j addr := h.imp_right (ack addr)
  cases e with
  | rest => exact .rest
  | attempt hon hstate hasked hlease hsel hcheck hrenew =>
      exact .attempt hon hstate hasked hlease (fun h => (hsel h).imp_right offer) (fun h => takes (hcheck h))
        fun h => (hrenew h).imp_right (And.imp_right renewal)
  | bind hon hsel haddr => exact .bind hon hsel (takes haddr)
  | nak hon hsel hasked hnak => exact .nak hon hsel hasked (nak hnak)
  | restart hon hexp hlease hb => exact .restart hon hexp (fun h => expiry (hlease h)) hb

theorem dhcpRecv_event (p : DhcpPacket) {s : Core} (hs : s.Valid) : Ensures ok (dhcpRecv p) s fun _ t =>
    t.Valid ∧ Monitor.Event ok ((LwipEvent.recv p).input s) s.monitor t.monitor := by
  have hrest : s.Valid ∧ Monitor.Event ok ((LwipEvent.recv p).input s) s.monitor s.monitor := ⟨hs, .rest⟩
  rw [dhcpRecv, ensures_bind, ensures_get]
  split
  case isFalse => exact hrest
  case isTrue hpcb =>
  split
  case isTrue => exact hrest
  case isFalse hlen =>
  split
  case isTrue => exact hrest
  case isFalse hop =>
  rw [ensures_bind, ensures_get]
  split
  case isTrue => exact hrest
  case isFalse hchaddr =>
  rw [ensures_bind, ensures_get]
  split
  case isTrue => exact hrest
  case isFalse hxid =>
  cases hopt : p.options with
  | none => exact hrest
  | some o =>
      cases htype : o.msgType with
      | none =>
          simp only [htype]
          exact hrest
      | some msgType =>
          simp only [htype]
          rw [ensures_bind, ensures_get, s.dhcp_state]
          have hgets : s.gets p msgType o :=
            ⟨(Bool.and_eq_true_iff.mp hpcb).2, by omega, not_not.mp hop, not_not.mp hchaddr, not_not.mp hxid, hopt,
              htype⟩
          refine (dhcpHandle_event p.yiaddr o msgType s hs rfl).mono fun _ t ⟨ht, he⟩ => ⟨ht, ?_⟩
          rw [← s.dhcp_state] at he
          refine he.mono ?_ ?_ ?_ id id
          · rintro ⟨hsel, htwo, hserver⟩
            exact ⟨hsel, o, htwo ▸ hgets, hserver⟩
          · rintro ⟨hasked, hsix⟩
            exact ⟨hasked, o, hsix ▸ hgets⟩
          · rintro addr ⟨hasked, hfive, haddr⟩
            exact ⟨hasked, haddr, o, hfive ▸ hgets⟩

theorem dhcpArpReply_event (addr : IpAddr) :
    Shows ok (dhcpArpReply addr) m fun _ m' => Monitor.Event ok i m m' := by
  refine refines_get fun s _ _ => refines_ite (fun _ => ?_) fun _ => refines_ret .rest
  refine refines_see (fun m => decide (m.dhcp.state = .checking)) (fun s => by rw [s.dhcp_state]) ?_
  refine refines_when (fun h => refines_get fun s _ _ => refines_when (fun _ => ?_) fun _ => .rest) fun _ => .rest
  have h : m.dhcp.state = .checking := of_decide_eq_true h
  exact dhcpAttempt_event (by simp [h]) nofun (by simp [h, DhcpState.supplied]) (by simp [h]) nofun nofun

theorem LwipEvent.code_event (e : LwipEvent) {s : Core} (hs : s.Valid) : Ensures ok e.code s fun _ t =>
    t.Valid ∧ Monitor.Event ok (e.input s) s.monitor t.monitor := by
  cases e with
  | fineTmr => exact dhcpFineTmr_event s hs rfl
  | coarseTmr => exact dhcpCoarseTmr_event hs
  | recv p => exact dhcpRecv_event p hs
  | arpReply addr => exact dhcpArpReply_event addr s hs rfl

end Oinzen
