import Oinzen.Lwip.Dhcp

/-!
# The link monitor

`lwip.c`: the initialisation of the stack and the passes of the link thread.
-/

namespace Oinzen

open Interference

def maxDhcpTries : UInt8 := 250

/-- 192.168.0.10, 255.255.255.0 and 192.168.0.1. -/
def staticIpaddr : IpAddr := 0xC0A8000A
def staticNetmask : IpAddr := 0xFFFFFF00
def staticGw : IpAddr := 0xC0A80001

def setStatus (status : DhcpLinkStatus) : Code Core Unit :=
  Prog.modify fun s => { s with dhcpLinkStatus := status }

/-- Remember what a call of `dhcp_start` by the program finds, and count messages from here. -/
def Core.recordStart (s : Core) : Core :=
  { s with
    starts := s.starts ++
      [⟨s.netif.up, s.netif.linkUp, decide (s.dhcp.state = .off) && !s.dhcp.pcbAllocated⟩]
    sent := [] }

/-- `dhcp_start` and the status that follows from its result. -/
def startDhcp : Code Core Unit := do
  Prog.modify Core.recordStart
  let err ← dhcpStart
  setStatus (if err ≠ .ok then .linkUpDhcpError else .linkUpWaitingDhcp)

def mxLwipInit : Code Core Unit := do
  Prog.modify fun s => { s with ipaddr := 0 }
  Prog.modify fun s => { s with netmask := 0 }
  Prog.modify fun s => { s with gw := 0 }
  netifAdd Core.ipaddr Core.netmask Core.gw
  let linkUp ← Prog.get fun s => s.netif.linkUp
  Prog.when linkUp do
    netifSetUp
    startDhcp
  Prog.when (!linkUp) do
    netifSetDown
    setStatus .linkDownInit
  Prog.modify fun s => { s with netif.linkCallback := true }

def linkLost : Code Core Unit := do
  dhcpStop
  netifSetLinkDown
  setStatus .linkDown

/-- Whether the guard for a lost link holds. -/
def isLost (regvalue : UInt32) : Code Core Bool := Prog.get fun s => s.netif.linkUp && regvalue = 0

def checkTries : Code Core Unit := do
  if ← Prog.get fun s => s.netif.dhcp.isSome then
    Prog.when (← Prog.get fun s => decide (s.dhcp.tries > maxDhcpTries)) do
      dhcpStop
      setStatus .linkUpDhcpError
  else Prog.modify fun s => { s with fault := true }

def linkUpWaitingDhcp (regvalue : UInt32) : Code Core Unit := do
  if ← isLost regvalue then linkLost
  else if ← dhcpSuppliedAddress then setStatus .linkUpIpAcquired
  else checkTries

def linkUpIpAcquired (regvalue : UInt32) : Code Core Unit := do
  Prog.when (← isLost regvalue) linkLost

def useStaticAddress : Code Core Unit := do
  Prog.modify fun s => { s with ipaddr := staticIpaddr }
  Prog.modify fun s => { s with netmask := staticNetmask }
  Prog.modify fun s => { s with gw := staticGw }
  netifSetAddr Core.ipaddr Core.netmask Core.gw

def linkUpDhcpError (regvalue : UInt32) : Code Core Unit := do
  if ← isLost regvalue then linkLost
  else
    dhcpStop
    useStaticAddress
    setStatus .linkUpIpAcquired

def linkDown (regvalue : UInt32) : Code Core Unit := do
  Prog.when (← Prog.get fun s => !s.netif.linkUp && regvalue ≠ 0) do
    netifSetLinkUp
    startDhcp

def linkDownInit (regvalue : UInt32) : Code Core Unit := do
  Prog.when (regvalue ≠ 0) do
    netifSetUp
    netifSetLinkUp
    startDhcp

def switchStatus (regvalue : UInt32) : DhcpLinkStatus → Code Core Unit
  | .notInitialized => pure ()
  | .linkUpWaitingDhcp => linkUpWaitingDhcp regvalue
  | .linkUpIpAcquired => linkUpIpAcquired regvalue
  | .linkUpDhcpError => linkUpDhcpError regvalue
  | .linkDown => linkDown regvalue
  | .linkDownInit => linkDownInit regvalue

/-- One pass of the loop of `ethernetif_set_link`; it gives the link bit, if it has read it. -/
def ethernetifSetLink : Code Core (Option UInt32) := do
  let status ← Prog.get fun s => s.dhcpLinkStatus
  if status = .notInitialized then pure none
  else
    let regvalue ← Core.driver ethernetifPhyLinkStatusBit
    switchStatus regvalue status
    pure (some regvalue)

end Oinzen
