import Oinzen.Interference.Watch
import Oinzen.App.Events

/-!
# A client that is off

Timers and messages find nothing to do while the client is absent or off, and stopping it, or working on
the interface without starting it, leaves it so.
-/

namespace Oinzen

open Interference Prog

def Core.idle (s : Core) : Bool := decide (s.dhcp.state = .off) && decide (s.dhcp.requestTimeout = 0)

namespace Core

variable {s : Core}

theorem idle_iff : s.idle = true ↔ s.dhcp.state = .off ∧ s.dhcp.requestTimeout = 0 := by
  simp [idle]

theorem idle_congr {t : Core} (h : t.netif = s.netif) : t.idle = s.idle := by
  unfold idle dhcp
  rw [h]

end Core

theorem still_dhcpFineTmr : dhcpFineTmr.Still fun s => s.idle = true := by
  refine .get fun _ _ => .ite (.get fun s hs => ?_) .ret
  rw [(Core.idle_iff.mp hs).2]
  exact .ret

theorem still_dhcpCoarseTmr : dhcpCoarseTmr.Still fun s => s.idle = true := by
  refine .get fun _ _ => .ite (.get fun s hs => ?_) .ret
  rw [(Core.idle_iff.mp hs).1]
  exact .ret

theorem still_dhcpArpReply (addr : IpAddr) : (dhcpArpReply addr).Still fun s => s.idle = true := by
  refine .get fun _ _ => .ite (.get fun s hs => ?_) .ret
  rw [(Core.idle_iff.mp hs).1]
  exact .ret

theorem dhcpHandle_off (yiaddr : IpAddr) (o : DhcpOptions) (msgType : UInt8) :
    dhcpHandle yiaddr o msgType .off = pure () := by
  simp [dhcpHandle]

theorem still_dhcpRecv (p : DhcpPacket) : (dhcpRecv p).Still fun s => s.idle = true := by
  refine .get fun _ _ => .ite (.ite .ret <| .ite .ret <| .get fun _ _ => .ite .ret <| .get fun _ _ => .ite .ret ?_) .ret
  split
  · exact .ret
  · split
    · exact .ret
    · refine .get fun s hs => ?_
      rw [(Core.idle_iff.mp hs).1, dhcpHandle_off]
      exact .ret

theorem still_lwipEvent (e : LwipEvent) : e.code.Still fun s => s.idle = true := by
  cases e with
  | fineTmr => exact still_dhcpFineTmr
  | coarseTmr => exact still_dhcpCoarseTmr
  | recv p => exact still_dhcpRecv p
  | arpReply addr => exact still_dhcpArpReply addr

def Core.KeepsIdle (u : Core → Core) : Prop := ∀ s, s.idle = true → (u s).idle = true

theorem keepsIdle_id : Core.KeepsIdle id := fun _ hs => hs

theorem keepsIdle_same {u : Core → Core} (h : ∀ s, (u s).netif.dhcp = s.netif.dhcp) : Core.KeepsIdle u := by
  intro s hs
  have same : (u s).dhcp = s.dhcp := congrArg (·.getD .cleared) (h s)
  rwa [Core.idle_iff, same, ← Core.idle_iff]

theorem keepsIdle_updateDhcp {f : Dhcp → Dhcp} (state : ∀ d, d.state = .off → (f d).state = .off)
    (timeout : ∀ d, d.requestTimeout = 0 → (f d).requestTimeout = 0) : Core.KeepsIdle (Core.updateDhcp f) := by
  intro s hs
  rw [Core.idle_iff] at hs ⊢
  unfold Core.updateDhcp Core.dhcp at *
  cases hd : s.netif.dhcp with
  | none => exact ⟨rfl, rfl⟩
  | some d =>
      rw [hd] at hs
      exact ⟨state d hs.1, timeout d hs.2⟩

theorem each_driver {α : Type} (p : Code Eth α) : (Core.driver p).Each Core.KeepsIdle :=
  (Each.all (fun _ => trivial) p : p.Each fun _ => True).lift fun _ _ => keepsIdle_same fun _ => rfl

theorem each_linkoutput : ∀ ps, (Core.linkoutput ps).Each Core.KeepsIdle
  | [] => .ret
  | _ :: rest => .bind (each_driver _) fun _ => each_linkoutput rest

theorem each_modify {u : Core → Core} (h : ∀ s, (u s).netif.dhcp = s.netif.dhcp) :
    (Prog.modify u : Code Core Unit).Each Core.KeepsIdle :=
  .modify (keepsIdle_same h)

theorem each_get {α : Type} {g : Core → α} : (Prog.get g : Code Core α).Each Core.KeepsIdle := .get keepsIdle_id

theorem each_netifIssueReports : netifIssueReports.Each Core.KeepsIdle :=
  .bind each_get fun _ => .when <| .bind each_get fun _ => .when <| .bind each_get fun _ => .when <|
    .bind (each_modify fun _ => rfl) fun _ => .bind .call each_linkoutput

theorem each_netifSetAddr (ipaddr netmask gw : Core → IpAddr) :
    (netifSetAddr ipaddr netmask gw).Each Core.KeepsIdle := by
  have address : (netifDoSetIpaddr ipaddr).Each Core.KeepsIdle :=
    .bind each_get fun _ => .when <| .bind each_get fun _ => .bind each_get fun _ => .bind .call fun _ =>
      .bind (each_linkoutput _) fun _ => .bind (each_modify fun _ => rfl) fun _ => each_netifIssueReports
  have mask : (netifDoSetNetmask netmask).Each Core.KeepsIdle :=
    .bind each_get fun _ => .when (each_modify fun _ => rfl)
  have gateway : (netifDoSetGw gw).Each Core.KeepsIdle :=
    .bind each_get fun _ => .when (each_modify fun _ => rfl)
  exact .bind each_get fun _ => .bind (.when address) fun _ => .bind mask fun _ => .bind gateway fun _ => .when address

theorem each_dhcpSetState_off : (dhcpSetState .off).Each Core.KeepsIdle :=
  .bind each_get fun _ => .when <|
    .bind (.modify (keepsIdle_updateDhcp (fun _ _ => rfl) fun _ h => h)) fun _ =>
      .bind (.modify (keepsIdle_updateDhcp (fun _ h => h) fun _ h => h)) fun _ =>
        .modify (keepsIdle_updateDhcp (fun _ h => h) fun _ _ => rfl)

theorem each_dhcpCreateMsg (t : DhcpMessageType) : (dhcpCreateMsg t).Each Core.KeepsIdle := by
  have xid : Core.KeepsIdle fun s => s.updateDhcp fun d => { d with xid := s.xid } :=
    fun s => keepsIdle_updateDhcp (f := fun d => { d with xid := s.xid }) (fun _ h => h) (fun _ h => h) s
  exact .bind .call fun _ => .ite
    (.bind each_get fun _ => .bind
      (.when <| .bind each_get fun _ => .bind (.when (each_modify fun _ => rfl)) fun _ => .modify xid) fun _ => .ret)
    .ret

theorem each_dhcpStop : dhcpStop.Each Core.KeepsIdle := by
  have count : dhcpDecPcbRefcount.Each Core.KeepsIdle :=
    .bind (each_modify fun _ => rfl) fun _ => .bind each_get fun _ => .when (each_modify fun _ => rfl)
  have supplied : dhcpSuppliedAddress.Each Core.KeepsIdle := .bind each_get fun _ => .ite each_get .ret
  have send : (udpSendto .release).Each Core.KeepsIdle :=
    .bind (each_modify fun _ => rfl) fun _ => .bind .call each_linkoutput
  have lease : releaseLease.Each Core.KeepsIdle :=
    .bind (.modify (keepsIdle_updateDhcp (fun _ h => h) fun _ h => h)) fun _ => .bind supplied fun _ => .bind
      (.when <| .bind (each_dhcpCreateMsg _) fun _ => .when send) fun _ =>
        .bind (each_netifSetAddr ..) fun _ => .bind each_dhcpSetState_off fun _ => .bind each_get fun _ =>
          .when <| .bind count fun _ => .modify (keepsIdle_updateDhcp (fun _ h => h) fun _ h => h)
  exact .bind each_get fun _ => .ite (.bind each_get fun _ => .when lease) .ret

theorem each_netifSetLinkDown : netifSetLinkDown.Each Core.KeepsIdle := by
  have callback : netifLinkCallback.Each Core.KeepsIdle :=
    .bind each_get fun _ => .when <| .bind each_get fun _ => each_driver _
  exact .bind each_get fun _ => .when <| .bind (each_modify fun _ => rfl) fun _ => callback

end Oinzen
