import Oinzen.Lwip.Netif

/-!
# The DHCP client

`dhcp.c` with its ARP check, without AUTOIP, boot file, host name, NTP and DNS options.
-/

namespace Oinzen

open Interference

def rebootTries : UInt8 := 2
def dhcpMaxMsgLenMinRequired : UInt16 := 576
def dhcpMinReplyLen : Nat := 44
def dhcpBootreply : UInt8 := 2

/-- `DHCP_COARSE_TIMER_SECS` and `DHCP_FINE_TIMER_MSECS`. -/
def dhcpCoarseTimerSecs : UInt32 := 60
def dhcpFineTimerMsecs : Nat := 500

/-- The options that `dhcp_parse_reply` finds in a message. -/
structure DhcpOptions where
  msgType : Option UInt8
  serverId : Option IpAddr
  leaseTime : Option UInt32
  t1 : Option UInt32
  t2 : Option UInt32
  subnetMask : Option IpAddr
  router : Option IpAddr

/-- A packet that `dhcp_recv` gets: its length, the fields it looks at, and its options, `none` when
they do not parse. -/
structure DhcpPacket where
  len : Nat
  op : UInt8
  chaddr : List UInt8
  xid : UInt32
  yiaddr : IpAddr
  options : Option DhcpOptions

/-! ## The control block -/

def dhcpIncPcbRefcount : Code Core Bool := do
  if (← Prog.get fun s => s.dhcpPcbRefcount) = 0 then
    if ← Prog.call Call.udpNew then
      Prog.modify fun s => { s with dhcpPcb := true }
      Prog.modify fun s => { s with dhcpPcbRefcount := s.dhcpPcbRefcount + 1 }
      pure true
    else
      Prog.modify fun s => { s with dhcpPcb := false }
      pure false
  else
    Prog.modify fun s => { s with dhcpPcbRefcount := s.dhcpPcbRefcount + 1 }
    pure true

def dhcpDecPcbRefcount : Code Core Unit := do
  Prog.modify fun s => { s with dhcpPcbRefcount := s.dhcpPcbRefcount - 1 }
  Prog.when (decide ((← Prog.get fun s => s.dhcpPcbRefcount) = 0)) do
    Prog.modify fun s => { s with dhcpPcb := false }

/-! ## Messages -/

def dhcpSetState (newState : DhcpState) : Code Core Unit := do
  Prog.when (← Prog.get fun s => decide (newState ≠ s.dhcp.state)) do
    Prog.modify (Core.updateDhcp fun d => { d with state := newState })
    Prog.modify (Core.updateDhcp fun d => { d with tries := 0 })
    Prog.modify (Core.updateDhcp fun d => { d with requestTimeout := 0 })

def dhcpCreateMsg (messageType : DhcpMessageType) : Code Core Bool := do
  if ← Prog.call Call.pbufAllocMsg then
    let state ← Prog.get fun s => s.dhcp.state
    Prog.when (messageType ≠ .request || state = .rebooting) do
      Prog.when (← Prog.get fun s => decide (s.dhcp.tries = 0)) do
        Prog.modify fun s => { s with xid := s.xid + 1 }
      Prog.modify fun s => s.updateDhcp fun d => { d with xid := s.xid }
    pure true
  else pure false

def udpSendto (messageType : DhcpMessageType) : Code Core Unit := do
  Prog.modify fun s => { s with sent := s.sent ++ [messageType] }
  Core.linkoutput (← Prog.call (Call.udpSendto messageType))

def countTry : Code Core Unit :=
  Prog.modify (Core.updateDhcp fun d => if d.tries < 255 then { d with tries := d.tries + 1 } else d)

def setRequestTimeout (msecs : Nat) : Code Core Unit :=
  Prog.modify (Core.updateDhcp fun d =>
    { d with requestTimeout := .ofNat ((msecs + dhcpFineTimerMsecs - 1) / dhcpFineTimerMsecs) })

/-- What all requests do: enter a state, send a message if there is room for one, count the try and
set the timer. -/
def dhcpAttempt (state : DhcpState) (messageType : DhcpMessageType) (msecs : Nat → Nat) :
    Code Core Unit := do
  dhcpSetState state
  let created ← dhcpCreateMsg messageType
  Prog.when created (udpSendto messageType)
  countTry
  let tries ← Prog.get fun s => s.dhcp.tries.toNat
  setRequestTimeout (msecs tries)

/-- The waiting time of DISCOVER and of the first REQUEST. -/
def backoff (tries : Nat) : Nat := (if tries < 6 then 1 <<< tries else 60) * 1000

def dhcpSelect : Code Core Unit := dhcpAttempt .requesting .request backoff

def dhcpDecline : Code Core Unit := dhcpAttempt .backingOff .decline fun _ => 10 * 1000

def dhcpRenew : Code Core Unit :=
  dhcpAttempt .renewing .request fun tries => if tries < 10 then tries * 2000 else 20 * 1000

def dhcpRebind : Code Core Unit :=
  dhcpAttempt .rebinding .request fun tries => if tries < 10 then tries * 1000 else 10 * 1000

def dhcpReboot : Code Core Unit :=
  dhcpAttempt .rebooting .request fun tries => if tries < 10 then tries * 1000 else 10 * 1000

def dhcpDiscover : Code Core ErrT := do
  Prog.modify (Core.updateDhcp fun d => { d with offeredIpAddr := 0 })
  dhcpAttempt .selecting .discover backoff
  pure .ok

def dhcpCheck : Code Core Unit := do
  dhcpSetState .checking
  let addr ← Prog.get fun s => s.dhcp.offeredIpAddr
  Core.linkoutput (← Prog.call (Call.etharpOutput addr))
  countTry
  setRequestTimeout 500

/-! ## Binding -/

def coarseTicks (secs : UInt32) : UInt16 :=
  let timeout := (secs + dhcpCoarseTimerSecs / 2) / dhcpCoarseTimerSecs
  let timeout := if timeout > 0xFFFF then 0xFFFF else timeout
  if timeout.toUInt16 = 0 then 1 else timeout.toUInt16

def setT0 (d : Dhcp) : Dhcp :=
  if d.offeredT0Lease ≠ 0xFFFFFFFF then { d with t0Timeout := coarseTicks d.offeredT0Lease } else d

def setT1 (d : Dhcp) : Dhcp :=
  if d.offeredT1Renew ≠ 0xFFFFFFFF then
    { d with t1Timeout := coarseTicks d.offeredT1Renew, t1RenewTime := coarseTicks d.offeredT1Renew }
  else d

def setT2 (d : Dhcp) : Dhcp :=
  if d.offeredT2Rebind ≠ 0xFFFFFFFF then
    { d with t2Timeout := coarseTicks d.offeredT2Rebind, t2RebindTime := coarseTicks d.offeredT2Rebind }
  else d

def orderTimers (d : Dhcp) : Dhcp :=
  if d.t1Timeout ≥ d.t2Timeout && d.t2Timeout > 0 then { d with t1Timeout := 0 } else d

def setLeaseTimers (d : Dhcp) : Dhcp := orderTimers (setT2 (setT1 (setT0 { d with leaseUsed := 0 })))

/-- The mask offered, or the one of the address's class. -/
def bindMask (d : Dhcp) : IpAddr :=
  let firstOctet := d.offeredIpAddr >>> 24
  if d.subnetMaskGiven then d.offeredSnMask
  else if firstOctet ≤ 127 then 0xFF000000
  else if firstOctet ≥ 192 then 0xFFFFFF00
  else 0xFFFF0000

/-- The gateway offered, or the first host of the network. -/
def bindGw (d : Dhcp) (snMask : IpAddr) : IpAddr :=
  if d.offeredGwAddr = 0 then (d.offeredIpAddr &&& snMask) ||| 1 else d.offeredGwAddr

def dhcpBind : Code Core Unit := do
  Prog.modify (Core.updateDhcp setLeaseTimers)
  let snMask ← Prog.get fun s => bindMask s.dhcp
  let gwAddr ← Prog.get fun s => bindGw s.dhcp snMask
  dhcpSetState .bound
  netifSetAddr (fun s => s.dhcp.offeredIpAddr) (fun _ => snMask) fun _ => gwAddr

/-! ## Starting and stopping -/

def DhcpState.supplied (state : DhcpState) : Bool :=
  state = .bound || state = .renewing || state = .rebinding

def dhcpSuppliedAddress : Code Core Bool := do
  if ← Prog.get fun s => s.netif.dhcp.isSome then Prog.get fun s => s.dhcp.state.supplied
  else pure false

def clearOffer (d : Dhcp) : Dhcp :=
  { d with
    serverIpAddr := 0, offeredIpAddr := 0, offeredSnMask := 0, offeredGwAddr := 0
    offeredT0Lease := 0, offeredT1Renew := 0, offeredT2Rebind := 0
    t1RenewTime := 0, t2RebindTime := 0, leaseUsed := 0, t0Timeout := 0 }

/-- The part of `dhcp_release_and_stop` for a client that is not off. -/
def releaseLease : Code Core Unit := do
  Prog.modify (Core.updateDhcp clearOffer)
  Prog.when (← dhcpSuppliedAddress) do
    let created ← dhcpCreateMsg .release
    Prog.when created (udpSendto .release)
  netifClearAddr
  dhcpSetState .off
  Prog.when (← Prog.get fun s => s.dhcp.pcbAllocated) do
    dhcpDecPcbRefcount
    Prog.modify (Core.updateDhcp fun d => { d with pcbAllocated := false })

def dhcpReleaseAndStop : Code Core Unit := do
  if ← Prog.get fun s => s.netif.dhcp.isSome then
    Prog.when (← Prog.get fun s => decide (s.dhcp.state ≠ .off)) releaseLease
  else pure ()

def dhcpStop : Code Core Unit := dhcpReleaseAndStop

/-- The end of `dhcp_start`: clear the struct and begin. -/
def dhcpBegin : Code Core ErrT := do
  Prog.modify (Core.updateDhcp fun _ => .cleared)
  if ← dhcpIncPcbRefcount then
    Prog.modify (Core.updateDhcp fun d => { d with pcbAllocated := true })
    if ← Prog.get fun s => !s.netif.linkUp then
      dhcpSetState .init
      pure .ok
    else if (← dhcpDiscover) ≠ .ok then
      dhcpReleaseAndStop
      pure .mem
    else pure .ok
  else pure .mem

def dhcpStart : Code Core ErrT := do
  if ← Prog.get fun s => !s.netif.up then pure .arg
  else if ← Prog.get fun s => decide (s.netif.mtu < dhcpMaxMsgLenMinRequired) then pure .mem
  else if ← Prog.get fun s => s.netif.dhcp.isSome then
    Prog.when (← Prog.get fun s => s.dhcp.pcbAllocated) dhcpDecPcbRefcount
    dhcpBegin
  else if ← Prog.call Call.memMalloc then
    Prog.modify fun s => { s with netif.dhcp := some .cleared }
    dhcpBegin
  else pure .mem

def dhcpNetworkChanged : Code Core Unit := do
  if ← Prog.get fun s => s.netif.dhcp.isSome then
    match ← Prog.get fun s => s.dhcp.state with
    | .rebinding | .renewing | .bound | .rebooting => do
        Prog.modify (Core.updateDhcp fun d => { d with tries := 0 })
        dhcpReboot
    | .off => pure ()
    | _ => do
        Prog.modify (Core.updateDhcp fun d => { d with tries := 0 })
        let _ ← dhcpDiscover
  else pure ()

def netifSetLinkUp : Code Core Unit := do
  Prog.when (← Prog.get fun s => !s.netif.linkUp) do
    Prog.modify fun s => { s with netif.linkUp := true }
    dhcpNetworkChanged
    netifIssueReports
    netifLinkCallback

/-! ## Timers -/

def dhcpRestart : Code Core Unit := do
  dhcpReleaseAndStop
  let _ ← dhcpStart

def dhcpTimeout : Code Core Unit := do
  match ← Prog.get fun s => s.dhcp.state with
  | .backingOff | .selecting => do
      let _ ← dhcpDiscover
  | .requesting => do
      if ← Prog.get fun s => decide (s.dhcp.tries ≤ 5) then dhcpSelect else dhcpRestart
  | .checking => do
      if ← Prog.get fun s => decide (s.dhcp.tries ≤ 1) then dhcpCheck else dhcpBind
  | .rebooting => do
      if ← Prog.get fun s => decide (s.dhcp.tries < rebootTries) then dhcpReboot
      else
        let _ ← dhcpDiscover
  | _ => pure ()

/-- Half of the time that is left, if that is a tick at least. -/
def halfOfRest (timeout used : UInt16) : Option UInt16 :=
  if (timeout.toNat - used.toNat) / 2 ≥ 1 then some (.ofNat ((timeout.toNat - used.toNat) / 2)) else none

def dhcpT1Timeout : Code Core Unit := do
  let state ← Prog.get fun s => s.dhcp.state
  Prog.when (state = .requesting || state = .bound || state = .renewing) do
    dhcpRenew
    Prog.modify (Core.updateDhcp fun d =>
      { d with t1RenewTime := (halfOfRest d.t2Timeout d.leaseUsed).getD d.t1RenewTime })

def dhcpT2Timeout : Code Core Unit := do
  let state ← Prog.get fun s => s.dhcp.state
  Prog.when (state = .requesting || state = .bound || state = .renewing || state = .rebinding) do
    dhcpRebind
    Prog.modify (Core.updateDhcp fun d =>
      { d with t2RebindTime := (halfOfRest d.t0Timeout d.leaseUsed).getD d.t2RebindTime })

/-- The three lease timers of a client that is not off; the first that is over is served. -/
def leaseTick : Code Core Unit := do
  let expiring ← Prog.get fun s => decide (s.dhcp.t0Timeout ≠ 0)
  Prog.when expiring do
    Prog.modify (Core.updateDhcp fun d => { d with leaseUsed := d.leaseUsed + 1 })
  if ← Prog.get fun s => expiring && decide (s.dhcp.leaseUsed = s.dhcp.t0Timeout) then dhcpRestart
  else
    let rebind ← Prog.get fun s => s.dhcp.t2RebindTime
    Prog.when (rebind ≠ 0) do
      Prog.modify (Core.updateDhcp fun d => { d with t2RebindTime := d.t2RebindTime - 1 })
    if rebind = 1 then dhcpT2Timeout
    else
      let renew ← Prog.get fun s => s.dhcp.t1RenewTime
      Prog.when (renew ≠ 0) do
        Prog.modify (Core.updateDhcp fun d => { d with t1RenewTime := d.t1RenewTime - 1 })
      Prog.when (renew = 1) dhcpT1Timeout

def dhcpCoarseTmr : Code Core Unit := do
  if ← Prog.get fun s => s.netif.dhcp.isSome then
    Prog.when (← Prog.get fun s => decide (s.dhcp.state ≠ .off)) leaseTick
  else pure ()

def dhcpFineTmr : Code Core Unit := do
  if ← Prog.get fun s => s.netif.dhcp.isSome then
    let timeout ← Prog.get fun s => s.dhcp.requestTimeout
    if timeout > 1 then Prog.modify (Core.updateDhcp fun d => { d with requestTimeout := d.requestTimeout - 1 })
    else
      Prog.when (timeout = 1) do
        Prog.modify (Core.updateDhcp fun d => { d with requestTimeout := d.requestTimeout - 1 })
        dhcpTimeout
  else pure ()

/-! ## Received messages -/

def applyAck (yiaddr : IpAddr) (o : DhcpOptions) (d : Dhcp) : Dhcp :=
  let t0 := o.leaseTime.getD d.offeredT0Lease
  { d with
    offeredT0Lease := t0
    offeredT1Renew := o.t1.getD (t0 / 2)
    offeredT2Rebind := o.t2.getD (t0 * 7 / 8)
    offeredIpAddr := yiaddr
    offeredSnMask := o.subnetMask.getD 0
    subnetMaskGiven := o.subnetMask.isSome
    offeredGwAddr := o.router.getD 0 }

def dhcpHandleAck (yiaddr : IpAddr) (o : DhcpOptions) : Code Core Unit :=
  Prog.modify (Core.updateDhcp (applyAck yiaddr o))

def dhcpHandleNak : Code Core Unit := do
  dhcpSetState .backingOff
  netifClearAddr
  let _ ← dhcpDiscover

/-- An offer without a server identifier is ignored. -/
def dhcpHandleOffer (yiaddr : IpAddr) (o : DhcpOptions) : Code Core Unit :=
  match o.serverId with
  | some server => do
      Prog.modify (Core.updateDhcp fun d =>
        { d with requestTimeout := 0, serverIpAddr := server, offeredIpAddr := yiaddr })
      dhcpSelect
  | none => pure ()

/-- What a message of a known type does, by the state of the client. -/
def dhcpHandle (yiaddr : IpAddr) (o : DhcpOptions) (msgType : UInt8) (state : DhcpState) : Code Core Unit :=
  if msgType = 5 then
    if state = .requesting then do
      dhcpHandleAck yiaddr o
      if ← Prog.get fun s => s.netif.etharp then dhcpCheck else dhcpBind
    else if state = .rebooting ∨ state = .rebinding ∨ state = .renewing then do
      dhcpHandleAck yiaddr o
      dhcpBind
    else pure ()
  else if msgType = 6 ∧ (state = .rebooting ∨ state = .requesting ∨ state = .rebinding ∨ state = .renewing) then
    dhcpHandleNak
  else if msgType = 2 ∧ state = .selecting then dhcpHandleOffer yiaddr o
  else pure ()

def dhcpRecv (p : DhcpPacket) : Code Core Unit := do
  if ← Prog.get fun s => s.netif.dhcp.isSome && s.dhcp.pcbAllocated then
    if p.len < dhcpMinReplyLen then pure ()
    else if p.op ≠ dhcpBootreply then pure ()
    else if (← Prog.get fun s => s.netif.hwaddr) ≠ p.chaddr then pure ()
    else if (← Prog.get fun s => s.dhcp.xid) ≠ p.xid then pure ()
    else
      match p.options with
      | none => pure ()
      | some o =>
          match o.msgType with
          | none => pure ()
          | some msgType => do dhcpHandle p.yiaddr o msgType (← Prog.get fun s => s.dhcp.state)
  else pure ()

def dhcpArpReply (addr : IpAddr) : Code Core Unit := do
  if ← Prog.get fun s => s.netif.dhcp.isSome then
    Prog.when (← Prog.get fun s => decide (s.dhcp.state = .checking)) do
      Prog.when (← Prog.get fun s => decide (addr = s.dhcp.offeredIpAddr)) dhcpDecline
  else pure ()

end Oinzen
