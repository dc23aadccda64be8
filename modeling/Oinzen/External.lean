import Oinzen.Interference.Program
import Mathlib.Algebra.GroupWithZero.Nat

/-!
# The code around the program

`Call` lists what the modelled functions ask of code and hardware that is not modelled: the
allocators, the PHY, the IP and ARP layers between the DHCP client and the driver, the clock and
the core lock. A run fixes the answers, in any way the type allows.
-/

namespace Oinzen

open Interference

structure Pbuf where
  len : Nat
  payload : Nat → UInt8

def memcpy (dst : Nat → UInt8) (dstOffset : Nat) (src : Nat → UInt8) (srcOffset n : Nat) : Nat → UInt8 :=
  fun j => if dstOffset ≤ j ∧ j < dstOffset + n then src (srcOffset + (j - dstOffset)) else dst j

def totLen (p : List Pbuf) : Nat := (p.map Pbuf.len).sum

def bytes (row : Nat → UInt8) (n : Nat) : List UInt8 := (List.range n).map row

def chainBytes (p : List Pbuf) : List UInt8 := p.flatMap fun q => bytes q.payload q.len

@[simp]
theorem length_bytes (row : Nat → UInt8) (n : Nat) : (bytes row n).length = n := by simp [bytes]

theorem totLen_cons (q : Pbuf) (p : List Pbuf) : totLen (q :: p) = q.len + totLen p := by simp [totLen]

theorem totLen_append (p q : List Pbuf) : totLen (p ++ q) = totLen p + totLen q := by simp [totLen]

theorem chainBytes_cons (q : Pbuf) (p : List Pbuf) : chainBytes (q :: p) = bytes q.payload q.len ++ chainBytes p := rfl

@[simp]
theorem length_chainBytes (p : List Pbuf) : (chainBytes p).length = totLen p := by
  induction p with
  | nil => rfl
  | cons q p ih => rw [chainBytes_cons, List.length_append, length_bytes, ih, totLen_cons]

inductive HalStatus
  | ok | error | busy | timeout
  deriving DecidableEq, Repr

inductive ErrT
  | ok | mem | arg | val | use
  deriving DecidableEq, Repr

inductive DhcpMessageType
  | discover | offer | request | decline | ack | nak | release | inform
  deriving DecidableEq, Repr

abbrev IpAddr := UInt32

inductive Call
  | halEthInit
  /-- `MACMIIDR` once the MII is no longer busy; `none` when `PHY_READ_TO` passes first. -/
  | macmiidr (phyReg : UInt16)
  /-- Whether the MII takes the value before `PHY_WRITE_TO` passes. -/
  | macmiiWrite (phyReg : UInt16) (value : UInt32)
  | halGetTick
  /-- The ticks read in a loop that ends a second after `tickstart`. -/
  | halGetTicks (tickstart : UInt32)
  | memMalloc
  | udpNew
  | pbufAllocMsg
  | pbufAlloc (len : UInt16)
  | pbufFree
  /-- The chain that the layers above pass to `netif->linkoutput` next. -/
  | linkoutput
  | netifInput (p : List Pbuf)
  /-- The chains that the UDP, IP and ARP layers pass to `netif->linkoutput` for a DHCP message. -/
  | udpSendto (message : DhcpMessageType)
  /-- The chains passed to `netif->linkoutput` for an ARP request or announcement. -/
  | etharpOutput (addr : IpAddr)
  /-- The chains sent when connections bound to an address that goes away are reset. -/
  | ipAddrChanged (old new : IpAddr)
  | lockTcpipCore
  | unlockTcpipCore

abbrev Call.Answer : Call → Type
  | halEthInit => HalStatus
  | macmiidr _ => Option UInt16
  | macmiiWrite _ _ => Bool
  | halGetTick => UInt32
  | halGetTicks tickstart => {ticks : List UInt32 // ∃ tick ∈ ticks, tick - tickstart > 1000}
  | memMalloc => Bool
  | udpNew => Bool
  | pbufAllocMsg => Bool
  | pbufAlloc len => Option {p : List Pbuf // totLen p = len.toNat}
  | pbufFree => Unit
  | linkoutput => List Pbuf
  | netifInput _ => ErrT
  | udpSendto _ => List (List Pbuf)
  | etharpOutput _ => List (List Pbuf)
  | ipAddrChanged _ _ => List (List Pbuf)
  | lockTcpipCore => Unit
  | unlockTcpipCore => Unit

/-- Answers with which everything succeeds and nothing is sent; `room` says whether received frames
find a pbuf. -/
def Call.granted (room : Bool) : ∀ i, Call.Answer i
  | halEthInit => .ok
  | macmiidr _ => none
  | macmiiWrite _ _ => true
  | halGetTick => 0
  | halGetTicks tickstart => ⟨[1001 + tickstart], _, List.mem_singleton_self _, by rw [UInt32.add_sub_cancel]; decide⟩
  | memMalloc => true
  | udpNew => true
  | pbufAllocMsg => true
  | pbufAlloc len => if room then some ⟨[⟨len.toNat, fun _ => 0⟩], by simp [totLen]⟩ else none
  | pbufFree => ()
  | linkoutput => [⟨60, fun _ => 0⟩]
  | netifInput _ => .ok
  | udpSendto _ => []
  | etharpOutput _ => []
  | ipAddrChanged _ _ => []
  | lockTcpipCore => ()
  | unlockTcpipCore => ()

def anyAnswer : ∀ i : Call, Call.Answer i → Prop := fun _ _ => True

abbrev Code (σ α : Type) := Prog σ Call.Answer α

end Oinzen
