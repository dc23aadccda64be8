import Oinzen.Lwip.Dhcp
import Oinzen.Pbuf.Chain
import Mathlib.Logic.Function.Basic

/-!
# Received DHCP messages

`dhcp_parse_reply` of `dhcp.c`, which looks for the options of a message in a chain of pbufs, and what
`dhcp_recv` reads of the message itself. The offsets are 16 bits wide.
-/

namespace Oinzen

def dhcpSnameOfs : Nat := 44
def dhcpSnameLen : Nat := 64
def dhcpFileOfs : Nat := 108
def dhcpFileLen : Nat := 128
def dhcpMsgLen : Nat := 236
def dhcpOptionsOfs : Nat := dhcpMsgLen + 4

def dhcpOptionPad : UInt8 := 0
def dhcpOptionSubnetMask : UInt8 := 1
def dhcpOptionRouter : UInt8 := 3
def dhcpOptionLeaseTime : UInt8 := 51
def dhcpOptionOverload : UInt8 := 52
def dhcpOptionMessageType : UInt8 := 53
def dhcpOptionServerId : UInt8 := 54
def dhcpOptionT1 : UInt8 := 58
def dhcpOptionT2 : UInt8 := 59
def dhcpOptionEnd : UInt8 := 255

def dhcpOverloadFile : UInt32 := 1
def dhcpOverloadSname : UInt32 := 2
def dhcpOverloadSnameFile : UInt32 := 3

inductive DhcpParseError
  | buf | val
  deriving DecidableEq, Repr

inductive DhcpOptionIdx
  | overload | msgType | serverId | leaseTime | t1 | t2 | subnetMask | router
  deriving DecidableEq, Repr

/-- `dhcp_rx_options_val` where `dhcp_rx_options_given` is set. -/
abbrev RxOptions := DhcpOptionIdx → Option UInt32

def dhcpClearAllOptions : RxOptions := fun _ => none

def decodeIdx (op : UInt8) : Option DhcpOptionIdx :=
  if op = dhcpOptionSubnetMask then some .subnetMask
  else if op = dhcpOptionRouter then some .router
  else if op = dhcpOptionLeaseTime then some .leaseTime
  else if op = dhcpOptionOverload then some .overload
  else if op = dhcpOptionMessageType then some .msgType
  else if op = dhcpOptionServerId then some .serverId
  else if op = dhcpOptionT1 then some .t1
  else if op = dhcpOptionT2 then some .t2
  else none

/-- The checks of the length of an option, and of the field that holds it. -/
def DhcpOptionIdx.valid (optionsIdx : Nat) (len : UInt8) : DhcpOptionIdx → Bool
  | .overload => len = 1 && optionsIdx = dhcpOptionsOfs
  | .msgType => len = 1
  | .router => len ≥ 4
  | _ => len = 4

def DhcpOptionIdx.decodeLen : DhcpOptionIdx → Nat
  | .overload | .msgType => 1
  | _ => 4

def ntohl (bs : List UInt8) : UInt32 := .ofNat (bs.foldl (fun v b => v * 256 + b.toNat) 0)

def decodeOption (idx : DhcpOptionIdx) (q : List Pbuf) (valOffset : Nat) (rx : RxOptions) :
    Except DhcpParseError RxOptions :=
  let value := pbufCopyPartial q idx.decodeLen valOffset
  if value.length ≠ idx.decodeLen then .error .buf
  else .ok (Function.update rx idx (some (ntohl value)))

def firstByte : List Pbuf → UInt8
  | [] => 0
  | q :: _ => q.payload 0

/-- The length of the option at a place; it may be in the next pbuf. -/
def optionLen (q : Pbuf) (next : List Pbuf) (offset : Nat) : UInt8 :=
  if offset + 1 < q.len then q.payload (offset + 1) else firstByte next

/-- The option at a place of the pbuf `q`: the place of the next one, and what is given then. -/
def parseOption (optionsIdx : Nat) (q : Pbuf) (next : List Pbuf) (offset : Nat) (rx : RxOptions) :
    Except DhcpParseError (Nat × RxOptions) :=
  let op := q.payload offset
  let valOffset := (offset + 2) % 65536
  if valOffset < offset then .error .buf
  else
    let len := optionLen q next offset
    if op = dhcpOptionPad then .ok (offset + 1, rx)
    else
      match decodeIdx op with
      | none => if offset + len.toNat + 2 > 0xFFFF then .error .buf else .ok (offset + len.toNat + 2, rx)
      | some idx =>
          if !idx.valid optionsIdx len then .error .val
          else if offset + len.toNat + 2 > 0xFFFF then .error .buf
          else if (rx idx).isSome then .ok (offset + len.toNat + 2, rx)
          else (decodeOption idx (q :: next) valOffset rx).map (offset + len.toNat + 2, ·)

/-- The end of the loop: on to the next pbuf when the offset is behind this one. -/
def nextPbuf (q : Pbuf) (next : List Pbuf) (offset offsetMax : Nat) :
    Except DhcpParseError (List Pbuf × Nat × Nat) :=
  if offset ≥ q.len then
    let offset := offset - q.len
    let offsetMax := (offsetMax + 65536 - q.len) % 65536
    if offset < offsetMax then if next = [] then .error .val else .ok (next, offset, offsetMax) else .error .buf
  else .ok (q :: next, offset, offsetMax)

def parseLoop (optionsIdx : Nat) :
    Nat → List Pbuf → Nat → Nat → RxOptions → Option (Except DhcpParseError RxOptions)
  | 0, _, _, _, _ => none
  | _ + 1, [], _, _, rx => some (.ok rx)
  | fuel + 1, q :: next, offset, offsetMax, rx =>
      if offset < offsetMax ∧ q.payload offset ≠ dhcpOptionEnd then
        match parseOption optionsIdx q next offset rx with
        | .error e => some (.error e)
        | .ok (offset, rx) =>
            match nextPbuf q next offset offsetMax with
            | .error e => some (.error e)
            | .ok (qs, offset, offsetMax) => parseLoop optionsIdx fuel qs offset offsetMax rx
      else some (.ok rx)

def findOptions : List Pbuf → Nat → Nat → List Pbuf × Nat × Nat
  | [], optionsIdx, optionsIdxMax => ([], optionsIdx, optionsIdxMax)
  | q :: next, optionsIdx, optionsIdxMax =>
      if optionsIdx ≥ q.len then findOptions next (optionsIdx - q.len) ((optionsIdxMax + 65536 - q.len) % 65536)
      else (q :: next, optionsIdx, optionsIdxMax)

def parseField (p : List Pbuf) (optionsIdx optionsIdxMax : Nat) (rx : RxOptions) :
    Option (Except DhcpParseError RxOptions) :=
  match findOptions p optionsIdx optionsIdxMax with
  | ([], _, _) => some (.error .buf)
  | (q :: next, optionsIdx, optionsIdxMax) =>
      parseLoop optionsIdx (totLen (q :: next) + next.length + 1) (q :: next) optionsIdx optionsIdxMax rx

/-- From `again` on; `passes` bounds the number of times it is reached. -/
def parseFields (p : List Pbuf) :
    Nat → Nat → Nat → Bool → Bool → RxOptions → Option (Except DhcpParseError RxOptions)
  | 0, _, _, _, _, _ => none
  | passes + 1, optionsIdx, optionsIdxMax, file, sname, rx =>
      match parseField p optionsIdx optionsIdxMax rx with
      | none => none
      | some (.error e) => some (.error e)
      | some (.ok rx) =>
          let overload := rx .overload
          let rx := Function.update rx .overload none
          let file := file || overload = some dhcpOverloadFile || overload = some dhcpOverloadSnameFile
          let sname := sname || overload = some dhcpOverloadSname || overload = some dhcpOverloadSnameFile
          if file then parseFields p passes dhcpFileOfs (dhcpFileOfs + dhcpFileLen) false sname rx
          else if sname then parseFields p passes dhcpSnameOfs (dhcpSnameOfs + dhcpSnameLen) file false rx
          else some (.ok rx)

def dhcpParseReply (p : List Pbuf) : Option (Except DhcpParseError RxOptions) :=
  if (p.head?.elim 0 Pbuf.len) < dhcpSnameOfs then some (.error .buf)
  else parseFields p 3 dhcpOptionsOfs (totLen p) false false dhcpClearAllOptions

def RxOptions.options (rx : RxOptions) : DhcpOptions where
  msgType := (rx .msgType).map UInt32.toUInt8
  serverId := rx .serverId
  leaseTime := rx .leaseTime
  t1 := rx .t1
  t2 := rx .t2
  subnetMask := rx .subnetMask
  router := rx .router

/-- The packet that `dhcp_recv` sees in a chain, whose first pbuf is `p`. -/
def dhcpPacket (p : Pbuf) (next : List Pbuf) : Option DhcpPacket :=
  (dhcpParseReply (p :: next)).map fun r =>
    { len := p.len
      op := p.payload 0
      chaddr := (List.range 6).map fun i => p.payload (28 + i)
      xid := ntohl ((List.range 4).map fun i => p.payload (4 + i))
      yiaddr := ntohl ((List.range 4).map fun i => p.payload (16 + i))
      options := r.toOption.map RxOptions.options }

end Oinzen
