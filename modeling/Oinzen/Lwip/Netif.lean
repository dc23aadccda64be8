import Oinzen.Lwip.State

/-!
# The network interface

`netif.c`. Addresses are passed by pointer, so a function that takes one reads it each time anew.
`netif_set_link_up` also tells the DHCP client and is in the module of the client.
-/

namespace Oinzen

open Interference

def netifIssueReports : Code Core Unit := do
  Prog.when (← Prog.get fun s => s.netif.linkUp && s.netif.up) do
    let addr ← Prog.get fun s => s.netif.ipAddr
    Prog.when (addr ≠ 0) do
      Prog.when (← Prog.get fun s => s.netif.etharp) do
        Prog.modify fun s => { s with announced := s.announced ++ [s.netif.ipAddr] }
        Core.linkoutput (← Prog.call (Call.etharpOutput addr))

def netifDoSetIpaddr (ipaddr : Core → IpAddr) : Code Core Unit := do
  Prog.when (← Prog.get fun s => decide (ipaddr s ≠ s.netif.ipAddr)) do
    let newAddr ← Prog.get ipaddr
    let oldAddr ← Prog.get fun s => s.netif.ipAddr
    Core.linkoutput (← Prog.call (Call.ipAddrChanged oldAddr newAddr))
    Prog.modify fun s => { s with netif.ipAddr := ipaddr s }
    netifIssueReports

def netifDoSetNetmask (netmask : Core → IpAddr) : Code Core Unit := do
  Prog.when (← Prog.get fun s => decide (netmask s ≠ s.netif.netmask)) do
    Prog.modify fun s => { s with netif.netmask := netmask s }

def netifDoSetGw (gw : Core → IpAddr) : Code Core Unit := do
  Prog.when (← Prog.get fun s => decide (gw s ≠ s.netif.gw)) do
    Prog.modify fun s => { s with netif.gw := gw s }

/-- An address is removed before the mask and the gateway change, and set after them. -/
def netifSetAddr (ipaddr netmask gw : Core → IpAddr) : Code Core Unit := do
  let remove ← Prog.get fun s => decide (ipaddr s = 0)
  Prog.when remove (netifDoSetIpaddr ipaddr)
  netifDoSetNetmask netmask
  netifDoSetGw gw
  Prog.when (!remove) (netifDoSetIpaddr ipaddr)

def netifClearAddr : Code Core Unit := netifSetAddr (fun _ => 0) (fun _ => 0) fun _ => 0

def netifSetUp : Code Core Unit := do
  Prog.when (← Prog.get fun s => !s.netif.up) do
    Prog.modify fun s => { s with netif.up := true }
    netifIssueReports

def netifSetDown : Code Core Unit := do
  Prog.when (← Prog.get fun s => s.netif.up) do
    Prog.modify fun s => { s with netif.up := false }

def netifLinkCallback : Code Core Unit := do
  Prog.when (← Prog.get fun s => s.netif.linkCallback) do
    let linkUp ← Prog.get fun s => s.netif.linkUp
    Core.driver (ethernetifUpdateConfig linkUp)

def netifSetLinkDown : Code Core Unit := do
  Prog.when (← Prog.get fun s => s.netif.linkUp) do
    Prog.modify fun s => { s with netif.linkUp := false }
    netifLinkCallback

def lowLevelInit : Code Core Unit := do
  let halEthInitStatus ← Core.driver lowLevelInitEth
  Prog.when (halEthInitStatus = .ok) do
    Prog.modify fun s => { s with netif.linkUp := true }
  Prog.modify fun s => { s with netif.hwaddr := [0x00, 0x80, 0xE1, 0x00, 0x00, 0x00] }
  Prog.modify fun s => { s with netif.mtu := 1500 }
  Prog.modify fun s => { s with netif.etharp := true }

def netifAdd (ipaddr netmask gw : Core → IpAddr) : Code Core Unit := do
  Prog.modify fun s => { s with netif := ⟨false, false, false, 0, s.netif.hwaddr, 0, 0, 0, none, false⟩ }
  netifSetAddr ipaddr netmask gw
  lowLevelInit

end Oinzen
