import Oinzen.Agenda.Plan

/-!
# Timeouts

`timeouts.c`: the list of timeouts with the pool that its entries are from, the timers that start anew
each time, and the TCP timer. The values of `sys_now` are arguments. An assertion that fails is kept in
`failed`.
-/

namespace Oinzen

def lwipMaxTimeout : UInt32 := 0x7fffffff
def lwipUint32Max : UInt32 := 0xffffffff
def tcpTmrInterval : UInt32 := 250
def memNumSysTimeout : Nat := 5
def sysTimeoutsSleeptimeInfinite : UInt32 := 0xFFFFFFFF

def timeLessThan (t compareTo : UInt32) : Bool := t - compareTo > lwipMaxTimeout

/-- The handlers of `lwip_cyclic_timers`, without the one of TCP. -/
inductive CyclicTimer
  | ipReassTmr | etharpTmr | dhcpCoarseTmr | dhcpFineTmr
  deriving DecidableEq, Repr

def CyclicTimer.intervalMs : CyclicTimer → UInt32
  | ipReassTmr => 1000
  | etharpTmr => 1000
  | dhcpCoarseTmr => 60000
  | dhcpFineTmr => 500

def lwipCyclicTimers : List CyclicTimer := [.ipReassTmr, .etharpTmr, .dhcpCoarseTmr, .dhcpFineTmr]

inductive TimeoutHandler
  | tcpipTcpTimer
  | lwipCyclicTimer (cyclic : CyclicTimer)
  deriving DecidableEq, Repr

structure SysTimeo where
  time : UInt32
  h : TimeoutHandler

structure Timeouts where
  nextTimeout : List SysTimeo
  currentTimeoutDueTime : UInt32
  tcpipTcpTimerActive : Bool
  free : Nat
  failed : Bool

def insertTimeout (timeout : SysTimeo) : List SysTimeo → List SysTimeo
  | [] => [timeout]
  | t :: rest => if timeLessThan timeout.time t.time then timeout :: t :: rest else t :: insertTimeout timeout rest

def sysTimeoutAbs (absTime : UInt32) (h : TimeoutHandler) (s : Timeouts) : Timeouts :=
  if s.free = 0 then { s with failed := true }
  else { s with nextTimeout := insertTimeout ⟨absTime, h⟩ s.nextTimeout, free := s.free - 1 }

def sysTimeout (now msecs : UInt32) (h : TimeoutHandler) (s : Timeouts) : Timeouts :=
  sysTimeoutAbs (now + msecs) h { s with failed := s.failed || !decide (msecs ≤ lwipUint32Max / 4) }

def lwipCyclicTimer (now : UInt32) (cyclic : CyclicTimer) (s : Timeouts) : Timeouts :=
  let nextTimeoutTime := s.currentTimeoutDueTime + cyclic.intervalMs
  if timeLessThan nextTimeoutTime now then sysTimeoutAbs (now + cyclic.intervalMs) (.lwipCyclicTimer cyclic) s
  else sysTimeoutAbs nextTimeoutTime (.lwipCyclicTimer cyclic) s

/-- `tcpip_tcp_timer` after the call of `tcp_tmr`; `pcbs` says whether there are connections. -/
def tcpipTcpTimer (now : UInt32) (pcbs : Bool) (s : Timeouts) : Timeouts :=
  if pcbs then sysTimeout now tcpTmrInterval .tcpipTcpTimer s else { s with tcpipTcpTimerActive := false }

def handlerEnd (now : UInt32) (pcbs : Bool) (s : Timeouts) : TimeoutHandler → Timeouts
  | .tcpipTcpTimer => tcpipTcpTimer now pcbs s
  | .lwipCyclicTimer cyclic => lwipCyclicTimer now cyclic s

def tcpTimerNeeded (now : UInt32) (pcbs : Bool) (s : Timeouts) : Timeouts :=
  if !s.tcpipTcpTimerActive && pcbs then
    sysTimeout now tcpTmrInterval .tcpipTcpTimer { s with tcpipTcpTimerActive := true }
  else s

/-- `sys_timeouts_init`; each timer is started at a time of its own. -/
def sysTimeoutsInit (now : CyclicTimer → UInt32) (s : Timeouts) : Timeouts :=
  lwipCyclicTimers.foldl (fun s cyclic => sysTimeout (now cyclic) cyclic.intervalMs (.lwipCyclicTimer cyclic) s) s

/-- A pass of the loop of `sys_check_timeouts`: the timeout that is taken from the list, if one is due. -/
def takeTimeout (now : UInt32) (s : Timeouts) : Option (TimeoutHandler × Timeouts) :=
  match s.nextTimeout with
  | [] => none
  | tmptimeout :: rest =>
      if timeLessThan now tmptimeout.time then none
      else some (tmptimeout.h,
        { s with nextTimeout := rest, currentTimeoutDueTime := tmptimeout.time, free := s.free + 1 })

def sysTimeoutsSleeptime (now : UInt32) (s : Timeouts) : UInt32 × Timeouts :=
  match s.nextTimeout with
  | [] => (sysTimeoutsSleeptimeInfinite, s)
  | t :: _ =>
      if timeLessThan t.time now then (0, s)
      else (t.time - now, { s with failed := s.failed || !decide (t.time - now ≤ lwipMaxTimeout) })

inductive ThreadPlace
  | again
  /-- It waits for a message, at most until the first timeout is due. -/
  | waiting
  | handling
  /-- In the loop of `sys_check_timeouts`, which has read the clock. -/
  | checking (now : Nat)
  | inHandler (now : Nat) (h : TimeoutHandler)

/-- The timers of a running stack. The clock does not wrap; the code sees it modulo `2 ^ 32`. -/
structure TcpipThread where
  clock : Nat
  timeouts : Timeouts
  pcbs : Bool
  place : ThreadPlace
  /-- What `sys_check_timeouts` read when it last ran to its end. -/
  checked : Nat
  /-- What `sys_timeouts_init` read when it started each timer. -/
  started : CyclicTimer → Nat
  calls : TimeoutHandler → Nat

inductive ThreadStep
  | pass (d : Nat)
  | connect
  | disconnect
  | sleep (msecs : UInt32)
  | fetch
  | timeout
  | handled
  | call (h : TimeoutHandler)
  | finished (now : Nat)
  | handlerEnd (h : TimeoutHandler)

namespace TcpipThread

open Agenda

inductive Step : TcpipThread → ThreadStep → TcpipThread → Prop
  | pass {s d} : Step s (.pass d) { s with clock := s.clock + d }
  | connect {s} :
      Step s .connect { s with pcbs := true, timeouts := tcpTimerNeeded (stamp s.clock) true s.timeouts }
  | disconnect {s} : Step s .disconnect { s with pcbs := false }
  | sleep {s r} : s.place = .again → sysTimeoutsSleeptime (stamp s.clock) s.timeouts = r → r.1 ≠ 0 →
      Step s (.sleep r.1) { s with timeouts := r.2, place := .waiting }
  | check {s r} : s.place = .again → sysTimeoutsSleeptime (stamp s.clock) s.timeouts = r → r.1 = 0 →
      Step s (.sleep r.1) { s with timeouts := r.2, place := .checking s.clock }
  | fetch {s} : s.place = .waiting → Step s .fetch { s with place := .handling }
  | timeout {s} : s.place = .waiting → Step s .timeout { s with place := .checking s.clock }
  | handled {s} : s.place = .handling → Step s .handled { s with place := .again }
  | call {s now h timeouts} : s.place = .checking now → takeTimeout (stamp now) s.timeouts = some (h, timeouts) →
      Step s (.call h)
        { s with
          timeouts := timeouts
          place := .inHandler now h
          calls := Function.update s.calls h (s.calls h + 1) }
  | finished {s now} : s.place = .checking now → takeTimeout (stamp now) s.timeouts = none →
      Step s (.finished now) { s with place := .again, checked := now }
  | handlerEnd {s now h} : s.place = .inHandler now h →
      Step s (.handlerEnd h)
        { s with timeouts := Oinzen.handlerEnd (stamp s.clock) s.pcbs s.timeouts h, place := .checking now }

structure Start (s : TcpipThread) : Prop where
  order : (lwipCyclicTimers.map s.started).Pairwise (· ≤ ·)
  started : ∀ c, s.checked ≤ s.started c ∧ s.started c ≤ s.clock
  attended : s.clock ≤ s.checked + 2 ^ 30
  timers : s.timeouts = sysTimeoutsInit (fun c => stamp (s.started c)) ⟨[], 0, false, memNumSysTimeout, false⟩
  place : s.place = .again
  pcbs : s.pcbs = false
  calls : ∀ h, s.calls h = 0

def system : Interference.System TcpipThread ThreadStep := ⟨Start, Step⟩

/-- The thread looks after its timers at least every `2 ^ 30` milliseconds. -/
def Attended (s : TcpipThread) : ThreadStep → Prop
  | .pass d => s.clock + d ≤ s.checked + 2 ^ 30
  | _ => True

end TcpipThread

end Oinzen
