import Oinzen.Driver.Ethernetif

/-!
# The state of the TCP/IP stack

The one network interface with its DHCP client, the variables of `lwip.c` and the driver below.
Addresses are in host byte order.
-/

namespace Oinzen

open Interference

inductive DhcpState
  | off | requesting | init | rebooting | rebinding | renewing | selecting | informing | checking
  | permanent | bound | releasing | backingOff
  deriving DecidableEq, Repr

structure Dhcp where
  xid : UInt32
  pcbAllocated : Bool
  state : DhcpState
  tries : UInt8
  subnetMaskGiven : Bool
  requestTimeout : UInt16
  t1Timeout : UInt16
  t2Timeout : UInt16
  t1RenewTime : UInt16
  t2RebindTime : UInt16
  leaseUsed : UInt16
  t0Timeout : UInt16
  serverIpAddr : IpAddr
  offeredIpAddr : IpAddr
  offeredSnMask : IpAddr
  offeredGwAddr : IpAddr
  offeredT0Lease : UInt32
  offeredT1Renew : UInt32
  offeredT2Rebind : UInt32

def Dhcp.cleared : Dhcp := ⟨0, false, .off, 0, false, 0, 0, 0, 0, 0, 0, 0, 0, 0, 0, 0, 0, 0, 0⟩

/-- `struct netif`; its flags are the first three fields. -/
structure Netif where
  up : Bool
  linkUp : Bool
  etharp : Bool
  mtu : UInt16
  hwaddr : List UInt8
  ipAddr : IpAddr
  netmask : IpAddr
  gw : IpAddr
  dhcp : Option Dhcp
  linkCallback : Bool

inductive DhcpLinkStatus
  | notInitialized | linkUpWaitingDhcp | linkUpIpAcquired | linkUpDhcpError | linkDown | linkDownInit
  deriving DecidableEq, Repr

/-- What `dhcp_start` finds when the program calls it. -/
structure Start where
  up : Bool
  linkUp : Bool
  stopped : Bool

structure Core where
  netif : Netif
  dhcpPcb : Bool
  dhcpPcbRefcount : UInt8
  xid : UInt32
  dhcpLinkStatus : DhcpLinkStatus
  ipaddr : IpAddr
  netmask : IpAddr
  gw : IpAddr
  eth : Eth
  fault : Bool
  /-- The messages that the client has sent since the program last called `dhcp_start`. -/
  sent : List DhcpMessageType
  starts : List Start
  announced : List IpAddr

def Core.boot (eth : Eth) : Core where
  netif := ⟨false, false, false, 0, [], 0, 0, 0, none, false⟩
  dhcpPcb := false
  dhcpPcbRefcount := 0
  xid := 0xABCD0000
  dhcpLinkStatus := .notInitialized
  ipaddr := 0
  netmask := 0
  gw := 0
  eth := eth
  fault := false
  sent := []
  starts := []
  announced := []

namespace Core

def dhcp (s : Core) : Dhcp := s.netif.dhcp.getD .cleared

def updateDhcp (f : Dhcp → Dhcp) (s : Core) : Core := { s with netif.dhcp := s.netif.dhcp.map f }

/-- Code of the driver, which sees nothing but its own state. -/
def driver {α : Type} (p : Code Eth α) : Code Core α := p.lift Core.eth fun e s => { s with eth := e }

def linkoutput : List (List Pbuf) → Code Core Unit
  | [] => pure ()
  | p :: rest => do
      let _ ← driver (lowLevelOutput p)
      linkoutput rest

end Core

end Oinzen
