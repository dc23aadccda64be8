import Oinzen.App.Lwip

/-!
# Monitor and client

What the results about the link monitor depend on: its status, the flags and addresses of the
interface, and of the DHCP client its state, its tries, its PCB, whether a lease is running out and
the address that is offered.
The rest of the stack and the driver below are left out.
-/

namespace Oinzen

structure Client where
  state : DhcpState
  tries : UInt8
  pcb : Bool
  expires : Bool
  offered : IpAddr

structure Monitor where
  status : DhcpLinkStatus
  up : Bool
  linkUp : Bool
  addr : IpAddr
  mask : IpAddr
  gw : IpAddr
  client : Option Client
  sent : Nat
  starts : List Start
  announced : List IpAddr
  fault : Bool

def DhcpMessageType.asks (t : DhcpMessageType) : Bool := t = .discover || t = .request

def Dhcp.client (d : Dhcp) : Client := ⟨d.state, d.tries, d.pcbAllocated, d.t0Timeout ≠ 0, d.offeredIpAddr⟩

def Core.monitor (s : Core) : Monitor where
  status := s.dhcpLinkStatus
  up := s.netif.up
  linkUp := s.netif.linkUp
  addr := s.netif.ipAddr
  mask := s.netif.netmask
  gw := s.netif.gw
  client := s.netif.dhcp.map Dhcp.client
  sent := s.sent.countP DhcpMessageType.asks
  starts := s.starts
  announced := s.announced
  fault := s.fault

namespace Client

def cleared : Client := ⟨.off, 0, false, false, 0⟩

def enter (state : DhcpState) (c : Client) : Client :=
  if state ≠ c.state then { c with state := state, tries := 0 } else c

def count (c : Client) : Client := if c.tries < 255 then { c with tries := c.tries + 1 } else c

variable (state : DhcpState) (c : Client)

@[simp] theorem enter_state : (c.enter state).state = state := by
  by_cases h : state ≠ c.state
  · rw [enter, if_pos h]
  · rw [enter, if_neg h, not_not.mp h]

@[simp] theorem enter_pcb : (c.enter state).pcb = c.pcb := by unfold enter; split <;> rfl
@[simp] theorem enter_expires : (c.enter state).expires = c.expires := by unfold enter; split <;> rfl
@[simp] theorem enter_offered : (c.enter state).offered = c.offered := by unfold enter; split <;> rfl

theorem enter_setExpires (expires : Bool) :
    Client.enter state { c with expires := expires } = { c.enter state with expires := expires } := by
  simp only [enter]
  split <;> rfl

theorem enter_setOffered (addr : IpAddr) :
    Client.enter state { c with offered := addr } = { c.enter state with offered := addr } := by
  simp only [enter]
  split <;> rfl

theorem count_setOffered (addr : IpAddr) :
    Client.count { c with offered := addr } = { c.count with offered := addr } := by
  simp only [count]
  split <;> rfl

@[simp] theorem count_state : c.count.state = c.state := by unfold count; split <;> rfl
@[simp] theorem count_pcb : c.count.pcb = c.pcb := by unfold count; split <;> rfl
@[simp] theorem count_expires : c.count.expires = c.expires := by unfold count; split <;> rfl

end Client

namespace Monitor

def dhcp (m : Monitor) : Client := m.client.getD .cleared

def onClient (f : Client → Client) (m : Monitor) : Monitor := { m with client := m.client.map f }

def setAddr (addr mask gw : IpAddr) (m : Monitor) : Monitor := { m with addr := addr, mask := mask, gw := gw }

def send (messages : Nat) (m : Monitor) : Monitor := { m with sent := m.sent + messages }

def offer (addr : IpAddr) (m : Monitor) : Monitor := m.onClient fun c => { c with offered := addr }

def attempt (state : DhcpState) (asked : Nat) (m : Monitor) : Monitor :=
  (m.onClient fun c => (c.enter state).count).send asked

section

variable {m : Monitor}

@[simp] theorem client_setAddr (a b c : IpAddr) : (m.setAddr a b c).client = m.client := rfl
@[simp] theorem dhcp_setAddr (a b c : IpAddr) : (m.setAddr a b c).dhcp = m.dhcp := rfl
@[simp] theorem client_send (n : Nat) : (m.send n).client = m.client := rfl
@[simp] theorem dhcp_send (n : Nat) : (m.send n).dhcp = m.dhcp := rfl

theorem onClient_id : m.onClient (fun c => c) = m := by
  simp [onClient]

theorem onClient_onClient (f g : Client → Client) :
    (m.onClient f).onClient g = m.onClient fun c => g (f c) := by
  simp [onClient, Function.comp_def]

theorem onClient_congr {f g : Client → Client} (h : f m.dhcp = g m.dhcp) : m.onClient f = m.onClient g := by
  cases hc : m.client with
  | none => simp [onClient, hc]
  | some c => simpa [onClient, hc, dhcp] using h

theorem onClient_eq_self {f : Client → Client} (h : f m.dhcp = m.dhcp) : m.onClient f = m :=
  (onClient_congr (g := fun c => c) h).trans onClient_id

theorem offer_self : m.offer m.dhcp.offered = m := onClient_eq_self rfl

@[simp] theorem isSome_onClient (f : Client → Client) : (m.onClient f).client.isSome = m.client.isSome := by
  simp [onClient]

theorem dhcp_onClient {f : Client → Client} (h : m.client.isSome = true) : (m.onClient f).dhcp = f m.dhcp := by
  obtain ⟨c, hc⟩ := Option.isSome_iff_exists.mp h
  simp [onClient, dhcp, hc]

theorem client_eq (h : m.client.isSome = true) : m.client = some m.dhcp := by
  obtain ⟨c, hc⟩ := Option.isSome_iff_exists.mp h
  simp [dhcp, hc]

theorem isSome_of_on (h : m.dhcp.state ≠ .off) : m.client.isSome = true := by
  cases hc : m.client with
  | none => exact absurd (by simp [dhcp, hc, Client.cleared]) h
  | some c => rfl

@[simp] theorem isSome_attempt (state : DhcpState) (addr : IpAddr) (asked : Nat) :
    ((m.offer addr).attempt state asked).client.isSome = m.client.isSome := by
  simp [attempt, offer]

theorem dhcp_attempt (state : DhcpState) (addr : IpAddr) (asked : Nat) (h : m.client.isSome = true) :
    ((m.offer addr).attempt state asked).dhcp = { (m.dhcp.enter state).count with offered := addr } := by
  have ho : (m.offer addr).client.isSome = true := by simpa [offer] using h
  simp only [attempt, dhcp_send, dhcp_onClient ho]
  simp only [offer, dhcp_onClient h, Client.enter_setOffered, Client.count_setOffered]

def bound (expires : Bool) (addr mask gw : IpAddr) (announced : List IpAddr) (m : Monitor) : Monitor :=
  { (m.onClient fun c => { c.enter .bound with expires := expires, offered := addr }).setAddr addr mask gw with
    announced := announced }

@[simp] theorem isSome_bound (expires : Bool) (addr mask gw : IpAddr) (announced : List IpAddr) :
    (m.bound expires addr mask gw announced).client.isSome = m.client.isSome := by
  simp [bound]

theorem dhcp_bound {expires : Bool} {addr mask gw : IpAddr} {announced : List IpAddr}
    (h : m.client.isSome = true) : (m.bound expires addr mask gw announced).dhcp =
      { m.dhcp.enter .bound with expires := expires, offered := addr } :=
  dhcp_onClient h

end

def stop (m : Monitor) : Monitor :=
  if m.dhcp.state = .off then m else { m.setAddr 0 0 0 with client := some .cleared }

inductive Begun (ok : ∀ i : Call, Call.Answer i → Prop) (m : Monitor) : ErrT → Monitor → Prop
  | down : m.up = false → Begun ok m .arg m
  | noMemory : m.client = none → Begun ok m .mem m
  | noPcb : ok .udpNew false → Begun ok m .mem { m with client := some .cleared }
  | waiting : m.up = true → m.linkUp = false →
      Begun ok m .ok { m with client := some ⟨.init, 0, true, false, 0⟩ }
  | asking {asked} : m.up = true → m.linkUp = true → asked ≤ 1 →
      Begun ok m .ok { m.send asked with client := some ⟨.selecting, 1, true, false, 0⟩ }

structure Input where
  offer : Prop
  nak : Prop
  ack : IpAddr → Prop
  expiry : Prop
  renewal : Prop

def Takes (i : Input) (m : Monitor) (addr : IpAddr) : Prop :=
  m.dhcp.state = .checking ∧ addr = m.dhcp.offered ∨ i.ack addr

inductive Event (ok : ∀ i : Call, Call.Answer i → Prop) (i : Input) (m : Monitor) : Monitor → Prop
  | rest : Event ok i m m
  | attempt {state addr asked} : m.dhcp.state ≠ .off → state ≠ .off → asked ≤ 1 →
      (m.dhcp.state.supplied = true → state.supplied = true) →
      (m.dhcp.state = .selecting → state = .selecting ∨ i.offer) →
      (state = .checking → Takes i m addr) →
      (state.supplied = true → m.dhcp.state.supplied = true ∨ m.dhcp.state = .requesting ∧ i.renewal) →
      Event ok i m ((m.offer addr).attempt state asked)
  | bind {expires addr mask gw announced} : m.dhcp.state ≠ .off → m.dhcp.state ≠ .selecting →
      Takes i m addr → Event ok i m (m.bound expires addr mask gw announced)
  | nak {asked} : m.dhcp.state ≠ .off → m.dhcp.state ≠ .selecting → asked ≤ 1 → i.nak →
      Event ok i m ((((m.onClient (Client.enter .backingOff)).setAddr 0 0 0).offer 0).attempt .selecting asked)
  | restart {err m'} : m.dhcp.state ≠ .off → (m.dhcp.state = .selecting → m.dhcp.expires = true) →
      (m.dhcp.state.supplied = true → i.expiry) → Begun ok m.stop err m' → Event ok i m m'

def started (err : ErrT) (m : Monitor) : Monitor :=
  { m with status := if err ≠ .ok then .linkUpDhcpError else .linkUpWaitingDhcp }

def starting (up linkUp : Bool) (m : Monitor) : Monitor :=
  { m with
    up := up, linkUp := linkUp, sent := 0
    starts := m.starts ++ [⟨up, linkUp, decide (m.dhcp.state = .off) && !m.dhcp.pcb⟩] }

def boot : Monitor := ⟨.notInitialized, false, false, 0, 0, 0, none, 0, [], [], false⟩

inductive Booted (ok : ∀ i : Call, Call.Answer i → Prop) : Monitor → Prop
  | up {err m} : Begun ok (boot.starting true true) err m → Booted ok (m.started err)
  | down : Booted ok { boot with status := .linkDownInit }

def Lost (bit : UInt32) (m : Monitor) : Prop := m.linkUp = true ∧ bit = 0

inductive Pass (ok : ∀ i : Call, Call.Answer i → Prop) (m : Monitor) (bit : UInt32) : Monitor → Prop
  | lost : m.status = .linkUpWaitingDhcp ∨ m.status = .linkUpIpAcquired ∨ m.status = .linkUpDhcpError →
      m.Lost bit → Pass ok m bit { m.stop with linkUp := false, status := .linkDown }
  | acquired : m.status = .linkUpWaitingDhcp → ¬ m.Lost bit → m.dhcp.state.supplied = true →
      Pass ok m bit { m with status := .linkUpIpAcquired }
  | giveUp : m.status = .linkUpWaitingDhcp → ¬ m.Lost bit → m.dhcp.state.supplied = false →
      m.dhcp.tries > maxDhcpTries → Pass ok m bit { m.stop with status := .linkUpDhcpError }
  | wait : m.status = .linkUpWaitingDhcp → ¬ m.Lost bit → m.dhcp.state.supplied = false →
      m.client.isSome = true → m.dhcp.tries ≤ maxDhcpTries → Pass ok m bit m
  | nullPointer : m.status = .linkUpWaitingDhcp → ¬ m.Lost bit → m.client = none →
      Pass ok m bit { m with fault := true }
  | keep : m.status = .linkUpIpAcquired → ¬ m.Lost bit → Pass ok m bit m
  | fallback {announced} : m.status = .linkUpDhcpError → ¬ m.Lost bit →
      Pass ok m bit { m.stop.setAddr staticIpaddr staticNetmask staticGw with
        announced := announced, status := .linkUpIpAcquired }
  | stayDown : m.status = .linkDown ∨ m.status = .linkDownInit → bit = 0 → Pass ok m bit m
  | up {announced err m'} : m.status = .linkDown ∨ m.status = .linkDownInit → bit ≠ 0 →
      announced = m.announced ∨ m.addr ≠ 0 ∧ announced = m.announced ++ [m.addr] →
      Begun ok (starting true true { m with announced := announced }) err m' → Pass ok m bit (m'.started err)

end Monitor

end Oinzen
