import Oinzen.Lwip.Frame
import Oinzen.Lwip.Idle

/-!
# The pass of the link thread beside the TCP/IP thread

The TCP/IP thread works under the core lock. The passes of the link thread do not take it, so the two can
meet in the middle of what both of them do to the client, the addresses and the ring. What the pass may
meet there depends on where it stands.
-/

namespace Oinzen

open Interference Prog Threads

inductive TcpipWork
  | event (e : LwipEvent)
  | output (p : List Pbuf)

def TcpipWork.code : TcpipWork → Code Core Unit
  | .event e => e.code
  | .output p => Core.linkoutput [p]

def tcpipThread (w : TcpipWork) : Code Core Unit := do
  Prog.call Call.lockTcpipCore
  w.code
  Prog.call Call.unlockTcpipCore

def linkThread : Code Core Unit := do
  let _ ← ethernetifSetLink

def Call.lockOp : Call → LockOp
  | .lockTcpipCore => .take
  | .unlockTcpipCore => .give
  | _ => .none

/-- The link thread is on the left, the TCP/IP thread on the right. -/
def linkAndTcpip (w : TcpipWork) (answers : Side → Nat → ∀ i, Call.Answer i) : Threads Core Call.Answer where
  lock := Call.lockOp
  code
    | .left => linkThread
    | .right => tcpipThread w
  answers := answers

/-! ## The windows of a pass -/

inductive Stage
  | before
  | looking
  | stopping
  | starting
  | after
  deriving DecidableEq

def Stage.Before (a b : Stage) : Prop := a = b ∨ a = .before ∨ b = .after ∨ a = .looking ∧ b ≠ .before

instance (a b : Stage) : Decidable (a.Before b) := inferInstanceAs (Decidable (_ ∨ _))

instance : Preorder Stage where
  le := Stage.Before
  le_refl _ := .inl rfl
  le_trans a b c hab hbc := by
    revert hab hbc
    cases a <;> cases b <;> cases c <;> decide

instance (a b : Stage) : Decidable (a ≤ b) := inferInstanceAs (Decidable (a.Before b))

structure Watched where
  core : Core
  stage : Stage
  active : Bool

def inStage {α : Type} (stage : Stage) (p : Code Core α) : Code Watched α :=
  p.lift Watched.core fun c x => { x with core := c, stage := stage }

def underLock {α : Type} (p : Code Core α) : Code Watched α :=
  p.lift Watched.core fun c x => { x with core := c, active := x.active || !x.core.idle }

def lostInStages : Code Watched Unit := do
  inStage .stopping dhcpStop
  inStage .stopping netifSetLinkDown
  inStage .after (setStatus .linkDown)

def triesInStages : Code Watched Unit := do
  if ← inStage .looking (Prog.get fun s => s.netif.dhcp.isSome) then
    Prog.when (← inStage .looking (Prog.get fun s => decide (s.dhcp.tries > maxDhcpTries))) do
      inStage .stopping dhcpStop
      inStage .after (setStatus .linkUpDhcpError)
  else inStage .looking (Prog.modify fun s => { s with fault := true })

def startInStages : Code Watched Unit := do
  inStage .starting (Prog.modify Core.recordStart)
  let err ← inStage .starting dhcpStart
  inStage .after (setStatus (if err ≠ .ok then .linkUpDhcpError else .linkUpWaitingDhcp))

def switchInStages (regvalue : UInt32) : DhcpLinkStatus → Code Watched Unit
  | .notInitialized => pure ()
  | .linkUpWaitingDhcp => do
      if ← inStage .looking (isLost regvalue) then lostInStages
      else if ← inStage .looking dhcpSuppliedAddress then inStage .after (setStatus .linkUpIpAcquired)
      else triesInStages
  | .linkUpIpAcquired => do
      Prog.when (← inStage .looking (isLost regvalue)) lostInStages
  | .linkUpDhcpError => do
      if ← inStage .looking (isLost regvalue) then lostInStages
      else
        inStage .stopping dhcpStop
        inStage .stopping useStaticAddress
        inStage .after (setStatus .linkUpIpAcquired)
  | .linkDown => do
      Prog.when (← inStage .looking (Prog.get fun s => !s.netif.linkUp && regvalue ≠ 0)) do
        inStage .starting netifSetLinkUp
        startInStages
  | .linkDownInit =>
      Prog.when (regvalue ≠ 0) do
        inStage .starting netifSetUp
        inStage .starting netifSetLinkUp
        startInStages

def linkInStages : Code Watched Unit := do
  let status ← inStage .before (Prog.get fun s => s.dhcpLinkStatus)
  if status = .notInitialized then pure ()
  else
    let regvalue ← inStage .looking (Core.driver ethernetifPhyLinkStatusBit)
    switchInStages regvalue status

def tcpipUnderLock (w : TcpipWork) : Code Watched Unit := do
  Prog.call Call.lockTcpipCore
  underLock w.code
  Prog.call Call.unlockTcpipCore

/-- The two threads, with where the link thread stands and whether the other has found the client at work. -/
def watchedThreads (w : TcpipWork) (answers : Side → Nat → ∀ i, Call.Answer i) : Threads Watched Call.Answer where
  lock := Call.lockOp
  code
    | .left => linkInStages
    | .right => tcpipUnderLock w
  answers := answers

theorem projects_inStage {α : Type} {stage : Stage} (p : Code Core α) : Projects Watched.core (inStage stage p) p :=
  .lift (fun _ _ => rfl) p

theorem projects_lost : Projects Watched.core lostInStages linkLost :=
  .bind (projects_inStage _) fun _ => .bind (projects_inStage _) fun _ => projects_inStage _

theorem projects_tries : Projects Watched.core triesInStages checkTries :=
  .bind (projects_inStage _) fun _ => .ite
    (.bind (projects_inStage _) fun _ => .when <| .bind (projects_inStage _) fun _ => projects_inStage _)
    (projects_inStage _)

theorem projects_start : Projects Watched.core startInStages startDhcp :=
  .bind (projects_inStage _) fun _ => .bind (projects_inStage _) fun _ => projects_inStage _

theorem projects_switch (regvalue : UInt32) (status : DhcpLinkStatus) :
    Projects Watched.core (switchInStages regvalue status) (switchStatus regvalue status) := by
  cases status with
  | notInitialized => exact .ret ()
  | linkUpWaitingDhcp =>
      exact .bind (projects_inStage _) fun _ => .ite projects_lost <| .bind (projects_inStage _) fun _ =>
        .ite (projects_inStage _) projects_tries
  | linkUpIpAcquired => exact .bind (projects_inStage _) fun _ => .when projects_lost
  | linkUpDhcpError =>
      exact .bind (projects_inStage _) fun _ => .ite projects_lost <| .bind (projects_inStage _) fun _ =>
        .bind (projects_inStage _) fun _ => projects_inStage _
  | linkDown =>
      exact .bind (projects_inStage _) fun _ => .when <| .bind (projects_inStage _) fun _ => projects_start
  | linkDownInit =>
      exact .when <| .bind (projects_inStage _) fun _ => .bind (projects_inStage _) fun _ => projects_start

theorem projects_link : Projects Watched.core linkInStages linkThread := by
  refine .act (fun _ => rfl) fun x => ?_
  change Projects _ (if x.core.dhcpLinkStatus = .notInitialized then _ else _) ((if _ then _ else _) >>= _)
  split
  · exact .ret ()
  · rw [Prog.bind_assoc]
    refine .bind (projects_inStage _) fun regvalue => ?_
    have whole := (projects_switch regvalue x.core.dhcpLinkStatus).bind (f := ret) (g := ret) .ret
    rw [bind_ret] at whole
    rw [Prog.bind_assoc]
    exact whole

/-! ## What belongs to a stage -/

def stageFrame : Frame Watched LinkView (LinkVariables × Stage) where
  view x := linkFrame.view x.core
  put r x := { x with core := linkFrame.put r.1 x.core, stage := r.2 }

/-- Outside of its windows the link thread sees to its own variables only, before it starts the client it
leaves the interface alone, and where it stops it does not start it. -/
def Stage.Work : Stage → Action Watched Call.Answer → Prop
  | .before, a | .after, a => stageFrame.Within a
  | .looking, a => ∀ x, (a.update x).core.netif = x.core.netif
  | .stopping, a => ∀ x, x.core.idle = true → (a.update x).core.idle = true
  | .starting, _ => True

structure Stage.Takes (here : Stage) (a : Action Watched Call.Answer) : Prop where
  stage : ∀ x, (a.update x).stage = here
  active : ∀ x, (a.update x).active = x.active
  work : here.Work a

theorem course_looking {α : Type} {stage : Stage} {p : Code Core α} {f : α → Code Watched Unit}
    (order : stage ≤ .looking) (h : p.Each fun u => ∀ s, (u s).netif = s.netif)
    (next : ∀ a, Course Stage.Takes .looking (f a)) : Course Stage.Takes stage (inStage .looking p >>= f) :=
  .bind order (h.lift fun _ hu _ => ⟨fun _ => rfl, fun _ => rfl, fun x => hu x.core⟩) next

theorem course_stopping {α : Type} {stage : Stage} {p : Code Core α} {f : α → Code Watched Unit}
    (order : stage ≤ .stopping) (h : p.Each Core.KeepsIdle) (next : ∀ a, Course Stage.Takes .stopping (f a)) :
    Course Stage.Takes stage (inStage .stopping p >>= f) :=
  .bind order (h.lift fun _ hu _ => ⟨fun _ => rfl, fun _ => rfl, fun x => hu x.core⟩) next

theorem course_starting {α : Type} {stage : Stage} {p : Code Core α} {f : α → Code Watched Unit}
    (order : stage ≤ .starting) (next : ∀ a, Course Stage.Takes .starting (f a)) :
    Course Stage.Takes stage (inStage .starting p >>= f) :=
  .bind order ((Each.all (fun _ => trivial) p : p.Each fun _ => True).lift fun _ _ _ =>
    ⟨fun _ => rfl, fun _ => rfl, trivial⟩) next

theorem course_setStatus {stage : Stage} (status : DhcpLinkStatus) (order : stage ≤ .after) :
    Course Stage.Takes stage (inStage .after (setStatus status)) :=
  ⟨.after, order, ⟨fun _ => rfl, fun _ => rfl,
    ⟨fun v => (⟨status, v.vars.ipaddr, v.vars.netmask, v.vars.gw⟩, .after), fun _ => rfl⟩,
    ⟨fun _ => .ret (), fun _ => rfl⟩⟩, fun _ => trivial⟩

theorem each_look {α : Type} {g : Core → α} :
    (Prog.get g : Code Core α).Each fun u => ∀ s, (u s).netif = s.netif :=
  .get fun _ => rfl

theorem each_useStaticAddress : useStaticAddress.Each Core.KeepsIdle :=
  .bind (each_modify fun _ => rfl) fun _ => .bind (each_modify fun _ => rfl) fun _ =>
    .bind (each_modify fun _ => rfl) fun _ => each_netifSetAddr ..

theorem course_lost : Course Stage.Takes .looking lostInStages :=
  course_stopping (by decide) each_dhcpStop fun _ => course_stopping (by decide) each_netifSetLinkDown fun _ =>
    course_setStatus _ (by decide)

theorem course_tries : Course Stage.Takes .looking triesInStages :=
  course_looking (by decide) each_look fun _ => .ite
    (course_looking (by decide) each_look fun _ => .when <| course_stopping (by decide) each_dhcpStop fun _ =>
      course_setStatus _ (by decide))
    ⟨.looking, by decide, ⟨fun _ => rfl, fun _ => rfl, fun _ => rfl⟩, fun _ => trivial⟩

theorem course_start : Course Stage.Takes .starting startInStages :=
  course_starting (by decide) fun _ => course_starting (by decide) fun _ => course_setStatus _ (by decide)

theorem course_switch (regvalue : UInt32) (status : DhcpLinkStatus) :
    Course Stage.Takes .looking (switchInStages regvalue status) := by
  cases status with
  | notInitialized => trivial
  | linkUpWaitingDhcp =>
      refine course_looking (by decide) each_look fun _ => .ite course_lost <| course_looking (by decide) ?_ fun _ =>
        .ite (course_setStatus _ (by decide)) course_tries
      exact .bind each_look fun _ => .ite each_look .ret
  | linkUpIpAcquired => exact course_looking (by decide) each_look fun _ => .when course_lost
  | linkUpDhcpError =>
      exact course_looking (by decide) each_look fun _ => .ite course_lost <|
        course_stopping (by decide) each_dhcpStop fun _ => course_stopping (by decide) each_useStaticAddress fun _ =>
          course_setStatus _ (by decide)
  | linkDown =>
      exact course_looking (by decide) each_look fun _ => .when <| course_starting (by decide) fun _ => course_start
  | linkDownInit =>
      exact .when <| course_starting (by decide) fun _ => course_starting (by decide) fun _ => course_start

theorem course_link : Course Stage.Takes .before linkInStages := by
  refine ⟨.before, le_rfl, ⟨fun _ => rfl, fun _ => rfl, ?_⟩, fun x => .ite trivial ?_⟩
  · exact ⟨⟨fun v => (v.vars, .before), fun _ => rfl⟩, ⟨fun v => if v.vars.dhcpLinkStatus = .notInitialized then pure ()
      else do
        let regvalue ← inStage .looking (Core.driver ethernetifPhyLinkStatusBit)
        switchInStages regvalue v.vars.dhcpLinkStatus, fun _ => rfl⟩⟩
  · refine course_looking (by decide) ?_ fun regvalue => course_switch regvalue _
    exact (Each.all (fun _ => trivial) ethernetifPhyLinkStatusBit : ethernetifPhyLinkStatusBit.Each fun _ => True).lift
      fun _ _ _ => rfl

/-! ## The TCP/IP thread leaves the variables of the link thread alone -/

theorem avoids_lwipEvent (e : LwipEvent) : linkFrame.Avoids e.code := by
  cases e with
  | fineTmr => exact avoids_dhcpFineTmr
  | coarseTmr => exact avoids_dhcpCoarseTmr
  | recv p => exact avoids_dhcpRecv p
  | arpReply addr => exact avoids_dhcpArpReply addr

theorem avoids_underLock {α : Type} {p : Code Core α} (h : linkFrame.Avoids p) : stageFrame.Avoids (underLock p) := by
  induction p with
  | ret => trivial
  | act u k ih =>
      obtain ⟨⟨view, put⟩, ignores, rest⟩ := h
      refine ⟨⟨fun x => view x.core, fun r x => ?_⟩, fun r x => ?_, fun x => ih _ (rest _)⟩
      · exact congrArg (fun c => (⟨c, r.2, x.active || !x.core.idle⟩ : Watched)) (put r.1 x.core)
      · exact congrArg (fun q => underLock q) (ignores r.1 x.core)
  | ask i k ih => exact fun b => ih b (h b)

theorem avoids_tcpipUnderLock (w : TcpipWork) : stageFrame.Avoids (tcpipUnderLock w) := by
  have work : linkFrame.Avoids w.code := by
    cases w with
    | event e => exact avoids_lwipEvent e
    | output p => exact avoids_linkoutput [p]
  exact .bind .call fun _ => .bind (avoids_underLock work) fun _ => .call

/-- The state at which the client has been found off so far, and is. -/
def Watched.rest (x : Watched) : Prop := x.active = false ∧ x.core.idle = true

theorem still_underLock (e : LwipEvent) : (tcpipUnderLock (.event e)).Still Watched.rest := by
  have work : (underLock e.code).Still Watched.rest := by
    refine (still_lwipEvent e).lift (fun _ hx => hx.2) ?_
    rintro ⟨core, stage, active⟩ ⟨rfl, idle⟩
    exact congrArg (Watched.mk core stage) (by rw [idle]; rfl)
  exact fun _ => work.bind fun _ _ => trivial

theorem projects_tcpip (w : TcpipWork) : Projects Watched.core (tcpipUnderLock w) (tcpipThread w) :=
  .ask fun _ => (Projects.lift (fun _ _ => rfl) w.code).bind fun _ => .ask fun _ => .ret ()

theorem projects_threads (w : TcpipWork) (answers : Side → Nat → ∀ i, Call.Answer i) (d : Side) :
    Projects Watched.core ((watchedThreads w answers).code d) ((linkAndTcpip w answers).code d) := by
  cases d with
  | left => exact projects_link
  | right => exact projects_tcpip w

end Oinzen
