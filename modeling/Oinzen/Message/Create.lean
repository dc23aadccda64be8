import Oinzen.Message.WellFormed

/-!
# The messages that the client sends

`dhcp_create_msg`, the functions that append options, and the messages of the requests. An assertion that
fails leaves no message.
-/

namespace Oinzen

open Wire

def dhcpOptionsLen : Nat := 68
def dhcpMinOptionsLen : Nat := 68
def dhcpChaddrOfs : Nat := 28
def dhcpBootrequest : UInt8 := 1
def lwipIanaHwtypeEthernet : UInt8 := 1
def dhcpMagicCookie : UInt32 := 0x63825363

def dhcpOptionRequestedIp : UInt8 := 50
def dhcpOptionParameterRequestList : UInt8 := 55
def dhcpOptionMaxMsgSize : UInt8 := 57
def dhcpOptionBroadcast : UInt8 := 28

def dhcpDiscoverRequestOptions : List UInt8 := [dhcpOptionSubnetMask, dhcpOptionRouter, dhcpOptionBroadcast]

def DhcpMessageType.code : DhcpMessageType → UInt8
  | .discover => 1
  | .offer => 2
  | .request => 3
  | .decline => 4
  | .ack => 5
  | .nak => 6
  | .release => 7
  | .inform => 8

/-- `lwip_htonl` and `lwip_htons`, as the bytes in memory. -/
def htonl (v : UInt32) : List UInt8 :=
  [((v &&& 0xff000000) >>> 24).toUInt8, ((v &&& 0x00ff0000) >>> 16).toUInt8, ((v &&& 0x0000ff00) >>> 8).toUInt8,
    (v &&& 0x000000ff).toUInt8]

def htons (v : UInt16) : List UInt8 := [((v &&& 0xff00) >>> 8).toUInt8, (v &&& 0x00ff).toUInt8]

/-- A message that is being made, with `options_out_len`. -/
structure MsgOut where
  payload : Nat → UInt8
  optionsOutLen : Nat

def stored (payload : Nat → UInt8) (ofs : Nat) (bs : List UInt8) : Nat → UInt8 :=
  memcpy payload ofs (fun i => bs.getD i 0) 0 bs.length

namespace MsgOut

def push (m : MsgOut) (b : UInt8) : MsgOut where
  payload := Function.update m.payload (dhcpOptionsOfs + m.optionsOutLen) b
  optionsOutLen := m.optionsOutLen + 1

def pushAll (m : MsgOut) (bs : List UInt8) : MsgOut := bs.foldl push m

end MsgOut

def dhcpOption (optionType optionLen : UInt8) (m : MsgOut) : Option MsgOut :=
  if m.optionsOutLen + 2 + optionLen.toNat ≤ dhcpOptionsLen then some ((m.push optionType).push optionLen) else none

def dhcpOptionByte (value : UInt8) (m : MsgOut) : Option MsgOut :=
  if m.optionsOutLen < dhcpOptionsLen then some (m.push value) else none

def dhcpOptionShort (value : UInt16) (m : MsgOut) : Option MsgOut :=
  if m.optionsOutLen + 2 ≤ dhcpOptionsLen then some (m.pushAll (htons value)) else none

def dhcpOptionLong (value : UInt32) (m : MsgOut) : Option MsgOut :=
  if m.optionsOutLen + 4 ≤ dhcpOptionsLen then some (m.pushAll (htonl value)) else none

def padOptions : Nat → MsgOut → MsgOut
  | 0, m => m
  | n + 1, m =>
      if (m.optionsOutLen < dhcpMinOptionsLen ∨ m.optionsOutLen % 4 ≠ 0) ∧ m.optionsOutLen < dhcpOptionsLen then
        padOptions n (m.push 0)
      else m

def dhcpOptionTrailer (m : MsgOut) : Pbuf :=
  let m := padOptions dhcpOptionsLen (m.push dhcpOptionEnd)
  ⟨dhcpOptionsOfs + m.optionsOutLen, m.payload⟩

def sendsCiaddr (messageType : DhcpMessageType) (state : DhcpState) : Bool :=
  messageType = .inform || messageType = .decline || messageType = .release ||
    (messageType = .request && (state = .renewing || state = .rebinding))

def msgHeader (s : Core) (messageType : DhcpMessageType) : Nat → UInt8 :=
  let msg := stored (fun _ => 0) 0 [dhcpBootrequest, lwipIanaHwtypeEthernet, .ofNat s.netif.hwaddr.length]
  let msg := stored msg 4 (htonl s.dhcp.xid)
  let msg := if sendsCiaddr messageType s.dhcp.state then stored msg 12 (htonl s.netif.ipAddr) else msg
  let msg := stored msg dhcpChaddrOfs (s.netif.hwaddr.take 6)
  stored msg dhcpMsgLen (htonl dhcpMagicCookie)

def msgOut (s : Core) (messageType : DhcpMessageType) : Option MsgOut := do
  let m ← dhcpOption dhcpOptionMessageType 1 ⟨msgHeader s messageType, 0⟩
  dhcpOptionByte messageType.code m

def maxMsgSizeOption (mtu : UInt16) (m : MsgOut) : Option MsgOut := do
  let m ← dhcpOption dhcpOptionMaxMsgSize 2 m
  dhcpOptionShort mtu m

def addressOption (optionType : UInt8) (addr : IpAddr) (m : MsgOut) : Option MsgOut := do
  let m ← dhcpOption optionType 4 m
  dhcpOptionLong addr m

def requestListOption (m : MsgOut) : Option MsgOut := do
  let m ← dhcpOption dhcpOptionParameterRequestList (.ofNat dhcpDiscoverRequestOptions.length) m
  dhcpDiscoverRequestOptions.foldlM (fun m b => dhcpOptionByte b m) m

inductive Request
  | discover | select | decline | renew | rebind | reboot | release | inform
  deriving DecidableEq, Repr

namespace Request

def messageType : Request → DhcpMessageType
  | discover => .discover
  | select | renew | rebind | reboot => .request
  | decline => .decline
  | release => .release
  | inform => .inform

/-- The options behind the message type; `server` is the server that a release goes to. -/
def append (s : Core) (server : IpAddr) (m : MsgOut) : Request → Option MsgOut
  | discover | renew | rebind => do
      let m ← maxMsgSizeOption s.netif.mtu m
      requestListOption m
  | select => do
      let m ← maxMsgSizeOption s.netif.mtu m
      let m ← addressOption dhcpOptionRequestedIp s.dhcp.offeredIpAddr m
      let m ← addressOption dhcpOptionServerId s.dhcp.serverIpAddr m
      requestListOption m
  | decline => addressOption dhcpOptionRequestedIp s.dhcp.offeredIpAddr m
  | reboot => do
      let m ← maxMsgSizeOption dhcpMaxMsgLenMinRequired m
      let m ← addressOption dhcpOptionRequestedIp s.dhcp.offeredIpAddr m
      requestListOption m
  | release => addressOption dhcpOptionServerId server m
  | inform => maxMsgSizeOption s.netif.mtu m

def message (s : Core) (server : IpAddr) (r : Request) : Option Pbuf := do
  let m ← msgOut s r.messageType
  let m ← r.append s server m
  some (dhcpOptionTrailer m)

end Request

end Oinzen
