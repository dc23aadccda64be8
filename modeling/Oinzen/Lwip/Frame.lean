import Oinzen.Interference.Frame
import Oinzen.Lwip.Dhcp

/-!
# The variables of the link monitor

`dhcp_link_status` and the addresses of `lwip.c` belong to the link thread. The DHCP client and the
driver neither look at them nor change them, and the client does not change the flags of the interface.
-/

namespace Oinzen

open Interference Frame

structure LinkVariables where
  dhcpLinkStatus : DhcpLinkStatus
  ipaddr : IpAddr
  netmask : IpAddr
  gw : IpAddr

structure LinkView where
  vars : LinkVariables
  up : Bool
  linkUp : Bool

def linkFrame : Frame Core LinkView LinkVariables where
  view s := ⟨⟨s.dhcpLinkStatus, s.ipaddr, s.netmask, s.gw⟩, s.netif.up, s.netif.linkUp⟩
  put r s := { s with dhcpLinkStatus := r.dhcpLinkStatus, ipaddr := r.ipaddr, netmask := r.netmask, gw := r.gw }

theorem avoids_driver {α : Type} (p : Code Eth α) : linkFrame.Avoids (Core.driver p) := by
  unfold Core.driver
  refine .lift ?_ ?_ p
  · exact fun _ _ => rfl
  · exact fun _ => ⟨fun _ => rfl, fun _ _ => rfl⟩

theorem avoids_linkoutput : ∀ ps, linkFrame.Avoids (Core.linkoutput ps)
  | [] => .ret
  | _ :: rest => .bind (avoids_driver _) fun _ => avoids_linkoutput rest

theorem avoids_updateDhcp {f : Dhcp → Dhcp} : linkFrame.Avoids (Prog.modify (Core.updateDhcp f) : Code Core Unit) :=
  .modify ⟨fun _ => rfl, fun _ _ => rfl⟩

theorem avoids_netifIssueReports : linkFrame.Avoids netifIssueReports :=
  .bind (.get fun _ _ => rfl) fun _ => .when <| .bind (.get fun _ _ => rfl) fun _ => .when <|
    .bind (.get fun _ _ => rfl) fun _ => .when <| .bind (.modify ⟨fun _ => rfl, fun _ _ => rfl⟩) fun _ =>
      .bind .call avoids_linkoutput

section

variable {ipaddr netmask gw : Core → IpAddr}

theorem avoids_netifDoSetIpaddr (h : linkFrame.Ignores ipaddr) : linkFrame.Avoids (netifDoSetIpaddr ipaddr) :=
  .bind (.get fun r s => by rw [h r s]; rfl) fun _ => .when <| .bind (.get h) fun _ =>
    .bind (.get fun _ _ => rfl) fun _ => .bind .call fun _ => .bind (avoids_linkoutput _) fun _ =>
      .bind (.modify ⟨fun _ => rfl, fun r s => by rw [h r s]; rfl⟩) fun _ => avoids_netifIssueReports

theorem avoids_netifDoSetNetmask (h : linkFrame.Ignores netmask) : linkFrame.Avoids (netifDoSetNetmask netmask) :=
  .bind (.get fun r s => by rw [h r s]; rfl) fun _ => .when (.modify ⟨fun _ => rfl, fun r s => by rw [h r s]; rfl⟩)

theorem avoids_netifDoSetGw (h : linkFrame.Ignores gw) : linkFrame.Avoids (netifDoSetGw gw) :=
  .bind (.get fun r s => by rw [h r s]; rfl) fun _ => .when (.modify ⟨fun _ => rfl, fun r s => by rw [h r s]; rfl⟩)

theorem avoids_netifSetAddr (hip : linkFrame.Ignores ipaddr) (hmask : linkFrame.Ignores netmask)
    (hgw : linkFrame.Ignores gw) : linkFrame.Avoids (netifSetAddr ipaddr netmask gw) :=
  .bind (.get fun r s => by rw [hip r s]) fun _ => .bind (.when (avoids_netifDoSetIpaddr hip)) fun _ =>
    .bind (avoids_netifDoSetNetmask hmask) fun _ => .bind (avoids_netifDoSetGw hgw) fun _ =>
      .when (avoids_netifDoSetIpaddr hip)

end

theorem avoids_netifClearAddr : linkFrame.Avoids netifClearAddr :=
  avoids_netifSetAddr (fun _ _ => rfl) (fun _ _ => rfl) fun _ _ => rfl

theorem avoids_dhcpIncPcbRefcount : linkFrame.Avoids dhcpIncPcbRefcount :=
  .bind (.get fun _ _ => rfl) fun _ => .ite
    (.bind .call fun _ => .ite
      (.bind (.modify ⟨fun _ => rfl, fun _ _ => rfl⟩) fun _ =>
        .bind (.modify ⟨fun _ => rfl, fun _ _ => rfl⟩) fun _ => .ret)
      (.bind (.modify ⟨fun _ => rfl, fun _ _ => rfl⟩) fun _ => .ret))
    (.bind (.modify ⟨fun _ => rfl, fun _ _ => rfl⟩) fun _ => .ret)

theorem avoids_dhcpDecPcbRefcount : linkFrame.Avoids dhcpDecPcbRefcount :=
  .bind (.modify ⟨fun _ => rfl, fun _ _ => rfl⟩) fun _ => .bind (.get fun _ _ => rfl) fun _ =>
    .when (.modify ⟨fun _ => rfl, fun _ _ => rfl⟩)

theorem avoids_dhcpSetState (newState : DhcpState) : linkFrame.Avoids (dhcpSetState newState) :=
  .bind (.get fun _ _ => rfl) fun _ => .when <| .bind avoids_updateDhcp fun _ => .bind avoids_updateDhcp fun _ =>
    avoids_updateDhcp

theorem avoids_dhcpCreateMsg (t : DhcpMessageType) : linkFrame.Avoids (dhcpCreateMsg t) :=
  .bind .call fun _ => .ite
    (.bind (.get fun _ _ => rfl) fun _ => .bind
      (.when <| .bind (.get fun _ _ => rfl) fun _ => .bind (.when (.modify ⟨fun _ => rfl, fun _ _ => rfl⟩)) fun _ =>
        .modify ⟨fun _ => rfl, fun _ _ => rfl⟩) fun _ => .ret)
    .ret

theorem avoids_udpSendto (t : DhcpMessageType) : linkFrame.Avoids (udpSendto t) :=
  .bind (.modify ⟨fun _ => rfl, fun _ _ => rfl⟩) fun _ => .bind .call avoids_linkoutput

theorem avoids_dhcpAttempt (state : DhcpState) (t : DhcpMessageType) (msecs : Nat → Nat) :
    linkFrame.Avoids (dhcpAttempt state t msecs) :=
  .bind (avoids_dhcpSetState _) fun _ => .bind (avoids_dhcpCreateMsg _) fun _ =>
    .bind (.when (avoids_udpSendto _)) fun _ => .bind avoids_updateDhcp fun _ =>
      .bind (.get fun _ _ => rfl) fun _ => avoids_updateDhcp

theorem avoids_dhcpDiscover : linkFrame.Avoids dhcpDiscover :=
  .bind avoids_updateDhcp fun _ => .bind (avoids_dhcpAttempt ..) fun _ => .ret

theorem avoids_dhcpCheck : linkFrame.Avoids dhcpCheck :=
  .bind (avoids_dhcpSetState _) fun _ => .bind (.get fun _ _ => rfl) fun _ => .bind .call fun _ =>
    .bind (avoids_linkoutput _) fun _ => .bind avoids_updateDhcp fun _ => avoids_updateDhcp

theorem avoids_dhcpBind : linkFrame.Avoids dhcpBind :=
  .bind avoids_updateDhcp fun _ => .bind (.get fun _ _ => rfl) fun _ => .bind (.get fun _ _ => rfl) fun _ =>
    .bind (avoids_dhcpSetState _) fun _ => avoids_netifSetAddr (fun _ _ => rfl) (fun _ _ => rfl) fun _ _ => rfl

theorem avoids_dhcpSuppliedAddress : linkFrame.Avoids dhcpSuppliedAddress :=
  .bind (.get fun _ _ => rfl) fun _ => .ite (.get fun _ _ => rfl) .ret

theorem avoids_releaseLease : linkFrame.Avoids releaseLease :=
  .bind avoids_updateDhcp fun _ => .bind avoids_dhcpSuppliedAddress fun _ => .bind
    (.when <| .bind (avoids_dhcpCreateMsg _) fun _ => .when (avoids_udpSendto _)) fun _ =>
      .bind avoids_netifClearAddr fun _ => .bind (avoids_dhcpSetState _) fun _ => .bind (.get fun _ _ => rfl) fun _ =>
        .when <| .bind avoids_dhcpDecPcbRefcount fun _ => avoids_updateDhcp

theorem avoids_dhcpReleaseAndStop : linkFrame.Avoids dhcpReleaseAndStop :=
  .bind (.get fun _ _ => rfl) fun _ => .ite (.bind (.get fun _ _ => rfl) fun _ => .when avoids_releaseLease) .ret

theorem avoids_dhcpBegin : linkFrame.Avoids dhcpBegin :=
  .bind avoids_updateDhcp fun _ => .bind avoids_dhcpIncPcbRefcount fun _ => .ite
    (.bind avoids_updateDhcp fun _ => .bind (.get fun _ _ => rfl) fun _ => .ite
      (.bind (avoids_dhcpSetState _) fun _ => .ret)
      (.bind avoids_dhcpDiscover fun _ => .ite (.bind avoids_dhcpReleaseAndStop fun _ => .ret) .ret))
    .ret

theorem avoids_dhcpStart : linkFrame.Avoids dhcpStart :=
  .bind (.get fun _ _ => rfl) fun _ => .ite .ret <| .bind (.get fun _ _ => rfl) fun _ => .ite .ret <|
    .bind (.get fun _ _ => rfl) fun _ => .ite
      (.bind (.get fun _ _ => rfl) fun _ => .bind (.when avoids_dhcpDecPcbRefcount) fun _ => avoids_dhcpBegin)
      (.bind .call fun _ => .ite (.bind (.modify ⟨fun _ => rfl, fun _ _ => rfl⟩) fun _ => avoids_dhcpBegin) .ret)

theorem avoids_dhcpRestart : linkFrame.Avoids dhcpRestart :=
  .bind avoids_dhcpReleaseAndStop fun _ => .bind avoids_dhcpStart fun _ => .ret

theorem avoids_dhcpTimeout : linkFrame.Avoids dhcpTimeout := by
  refine .bind (.get fun _ _ => rfl) fun state => ?_
  cases state with
  | backingOff | selecting => exact .bind avoids_dhcpDiscover fun _ => .ret
  | requesting => exact .bind (.get fun _ _ => rfl) fun _ => .ite (avoids_dhcpAttempt ..) avoids_dhcpRestart
  | checking => exact .bind (.get fun _ _ => rfl) fun _ => .ite avoids_dhcpCheck avoids_dhcpBind
  | rebooting =>
      exact .bind (.get fun _ _ => rfl) fun _ => .ite (avoids_dhcpAttempt ..) (.bind avoids_dhcpDiscover fun _ => .ret)
  | _ => exact .ret

theorem avoids_dhcpT1Timeout : linkFrame.Avoids dhcpT1Timeout :=
  .bind (.get fun _ _ => rfl) fun _ => .when <| .bind (avoids_dhcpAttempt ..) fun _ => avoids_updateDhcp

theorem avoids_dhcpT2Timeout : linkFrame.Avoids dhcpT2Timeout :=
  .bind (.get fun _ _ => rfl) fun _ => .when <| .bind (avoids_dhcpAttempt ..) fun _ => avoids_updateDhcp

theorem avoids_leaseTick : linkFrame.Avoids leaseTick :=
  .bind (.get fun _ _ => rfl) fun _ => .bind (.when avoids_updateDhcp) fun _ => .bind (.get fun _ _ => rfl) fun _ =>
    .ite avoids_dhcpRestart <| .bind (.get fun _ _ => rfl) fun _ => .bind (.when avoids_updateDhcp) fun _ =>
      .ite avoids_dhcpT2Timeout <| .bind (.get fun _ _ => rfl) fun _ => .bind (.when avoids_updateDhcp) fun _ =>
        .when avoids_dhcpT1Timeout

theorem avoids_dhcpCoarseTmr : linkFrame.Avoids dhcpCoarseTmr :=
  .bind (.get fun _ _ => rfl) fun _ => .ite (.bind (.get fun _ _ => rfl) fun _ => .when avoids_leaseTick) .ret

theorem avoids_dhcpFineTmr : linkFrame.Avoids dhcpFineTmr :=
  .bind (.get fun _ _ => rfl) fun _ => .ite
    (.bind (.get fun _ _ => rfl) fun _ => .ite avoids_updateDhcp <| .when <|
      .bind avoids_updateDhcp fun _ => avoids_dhcpTimeout)
    .ret

theorem avoids_dhcpHandleNak : linkFrame.Avoids dhcpHandleNak :=
  .bind (avoids_dhcpSetState _) fun _ => .bind avoids_netifClearAddr fun _ => .bind avoids_dhcpDiscover fun _ => .ret

theorem avoids_dhcpHandleOffer (yiaddr : IpAddr) (o : DhcpOptions) : linkFrame.Avoids (dhcpHandleOffer yiaddr o) := by
  unfold dhcpHandleOffer
  cases o.serverId with
  | none => exact .ret
  | some server => exact .bind avoids_updateDhcp fun _ => avoids_dhcpAttempt ..

theorem avoids_dhcpHandle (yiaddr : IpAddr) (o : DhcpOptions) (msgType : UInt8) (state : DhcpState) :
    linkFrame.Avoids (dhcpHandle yiaddr o msgType state) :=
  .ite
    (.ite
      (.bind avoids_updateDhcp fun _ => .bind (.get fun _ _ => rfl) fun _ => .ite avoids_dhcpCheck avoids_dhcpBind)
      (.ite (.bind avoids_updateDhcp fun _ => avoids_dhcpBind) .ret))
    (.ite avoids_dhcpHandleNak (.ite (avoids_dhcpHandleOffer ..) .ret))

theorem avoids_dhcpRecv (p : DhcpPacket) : linkFrame.Avoids (dhcpRecv p) := by
  refine .bind (.get fun _ _ => rfl) fun _ => .ite (.ite .ret <| .ite .ret <| .bind (.get fun _ _ => rfl) fun _ =>
    .ite .ret <| .bind (.get fun _ _ => rfl) fun _ => .ite .ret ?_) .ret
  split
  · exact .ret
  · split
    · exact .ret
    · exact .bind (.get fun _ _ => rfl) fun _ => avoids_dhcpHandle ..

theorem avoids_dhcpArpReply (addr : IpAddr) : linkFrame.Avoids (dhcpArpReply addr) :=
  .bind (.get fun _ _ => rfl) fun _ => .ite
    (.bind (.get fun _ _ => rfl) fun _ => .when <| .bind (.get fun _ _ => rfl) fun _ => .when (avoids_dhcpAttempt ..))
    .ret

end Oinzen
