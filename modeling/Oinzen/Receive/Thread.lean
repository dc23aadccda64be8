import Oinzen.Driver.Start
import Oinzen.Receive.Input

/-!
# Runs of the receive thread

The thread as it is, which sleeps on its semaphore, and `low_level_input` called at arbitrary
moments. Both start in the state that `low_level_init` leaves.
-/

namespace Oinzen

open Interference Ring

def receiveThread (strict : Bool) : Machine Eth Call.Answer RxPoint DmaEvent where
  fire := Eth.fire strict
  pending s := s.dmasr.rs
  handler := halEthIrqHandler
  enter := osSemaphoreWait
  body := ethernetifInput

/-- Rounds of the receive thread at arbitrary moments. -/
def receiveCalls : Machine Eth Call.Answer Unit DmaEvent where
  fire := Eth.fire false
  pending s := s.dmasr.rs
  handler := halEthIrqHandler
  enter _ s := some s
  body _ := do
    let _ ← ethernetifInputRound
    pure ()

/-- The thread sleeps and nothing that happened so far will wake it. -/
def Blocked (c : Machine.Config Eth Call.Answer RxPoint) : Prop :=
  c.control = .before .wait ∧ c.irq = none ∧ c.shared.xSemaphore = false ∧ c.shared.dmasr.rs = false

namespace Receive

open Machine

section Started

variable (answers : Nat → ∀ i, Call.Answer i) (rxTab : RxPtr → RxDesc) (txTab : TxPtr → TxDesc)
  (rxBuff : RxPtr → Nat → UInt8) (txBuff : TxPtr → Nat → UInt8)

theorem started_fresh : Phase 0 0 0 0 (Counted 0 0) none (Eth.started answers rxTab txTab rxBuff txBuff) ∧
    (Eth.started answers rxTab txTab rxBuff txBuff).heth.lock = false ∧
    (Eth.started answers rxTab txTab rxBuff txBuff).dma.rxSuspended = false ∧
    (Eth.started answers rxTab txTab rxBuff txBuff).nextRx.own = true ∧
    Drained (Eth.started answers rxTab txTab rxBuff txBuff) := by
  obtain ⟨rx, tx, init, maccr, hready, -, heq⟩ := started_eq answers rxTab txTab rxBuff txBuff
  rw [heq]
  refine ⟨⟨⟨⟨?_, ?_, ?_, rfl, ?_, nofun, ?_⟩, ⟨Nat.le_refl _, nofun⟩, ?_, ?_, rfl⟩, rfl, nofun, rfl,
    ⟨rfl, nofun⟩, nofun⟩, rfl, rfl, (hready 0).1, .inr rfl⟩
  · exact fun i => (hready i).2.2.2
  · exact fun i => (hready i).2.2.1
  · exact fun i => (hready i).2.1
  · exact .empty 0 fun i => (hready i).1
  · exact ⟨Nat.zero_lt_succ _, nofun, nofun⟩
  · exact Nat.le_refl _
  · exact Nat.le_refl _

theorem started_idle (resumes : Prop) :
    Idle resumes (Eth.started answers rxTab txTab rxBuff txBuff) := by
  obtain ⟨hp, hl, hrun, -⟩ := started_fresh answers rxTab txTab rxBuff txBuff
  exact ⟨⟨0, 0, hp⟩, hl, fun _ hs => absurd (hrun.symm.trans hs) Bool.false_ne_true⟩

theorem started_asleep (drains resumes : Prop) :
    Asleep drains resumes (Eth.started answers rxTab txTab rxBuff txBuff) := by
  obtain ⟨hp, hl, hrun, hown, hdrained⟩ := started_fresh answers rxTab txTab rxBuff txBuff
  exact ⟨⟨0, hp.ring⟩, fun _ => hdrained, fun _ => .inr ⟨hown, hrun⟩⟩

end Started

theorem receiveCalls_proof : receiveCalls.Proof (inputSetting false False False).meets IrqKeeps
    (inputSetting false False False).guar fun _ => Idle False where
  stable _ :=
    have hstable : Stable (inputSetting false False False).rely (Idle False) := idle_stable nofun
    hstable
  handler s _ := irqHandler_safe false s
  body := by
    rintro ⟨⟩ s t h he
    obtain rfl := Option.some.inj he
    have hstable : Stable (inputSetting false False False).rely (Idle False) := idle_stable nofun
    exact .seq _ (round_safe nofun h) fun p u hu => Prog.safe_ret hstable hu.1

def At (drains resumes : Prop) : RxPoint → Eth → Prop
  | .wait, s => Idle resumes s ∧ Asleep drains resumes s
  | .top, s => Idle resumes s

theorem at_stable {strict : Bool} {drains resumes : Prop} (hs : resumes → strict = true) (k : RxPoint) :
    Stable (inputSetting strict drains resumes).rely (At drains resumes k) := by
  cases k with
  | wait => exact (idle_stable hs).and (asleep_stable hs)
  | top => exact idle_stable hs

theorem receiveThread_proof {strict : Bool} {drains resumes : Prop} (hs : resumes → strict = true) :
    (receiveThread strict).Proof (inputSetting strict drains resumes).meets IrqKeeps
      (inputSetting strict drains resumes).guar (At drains resumes) where
  stable := at_stable hs
  handler s _ := irqHandler_safe strict s
  body := by
    intro k s t h he
    cases k with
    | wait =>
        -- the token is taken; nothing else has changed
        simp only [receiveThread, osSemaphoreWait, Option.ite_none_right_eq_some, Option.some.injEq] at he
        obtain ⟨-, rfl⟩ := he
        obtain ⟨⟨⟨lo, c, hp⟩, hl, hd⟩, -⟩ := h
        exact Prog.safe_ret (at_stable hs .top)
          ⟨⟨lo, c, hp.update _ _ rfl rfl rfl hp.rxDesc hp.info⟩, hl, hd⟩
    | top =>
        obtain rfl := Option.some.inj he
        refine .seq _ (round_safe hs h) fun p u hu => ?_
        cases p with
        | none => exact Prog.safe_ret (at_stable hs .wait) ⟨hu.1, hu.2 rfl⟩
        | some chain => exact Prog.safe_ret (at_stable hs .top) hu.1

/-- The receive ring between two calls: the frames taken are the first that arrived; the CPU owns
the descriptors of the other frames that arrived and of the one that is arriving; the driver counts
the segments of the next frame it has passed. -/
structure Consistent (s : Eth) : Prop where
  log : Log s
  owned : ∀ i, (s.dmaRxDscrTab i).own = false ↔
    ∃ j, j < ((s.dma.arrived.drop s.taken.length).flatten ++ s.dma.arriving).length ∧
      slot ethRxBufNb (start s s.taken.length + j) = i
  holds : ∀ j seg, ((s.dma.arrived.drop s.taken.length).flatten ++ s.dma.arriving)[j]? = some seg →
    (s.dmaRxDscrTab (slot ethRxBufNb (start s s.taken.length + j))).fs = seg.fs ∧
    (s.dmaRxDscrTab (slot ethRxBufNb (start s s.taken.length + j))).ls = seg.ls ∧
    (s.dmaRxDscrTab (slot ethRxBufNb (start s s.taken.length + j))).fl = seg.fl ∧
    s.rxBuff (slot ethRxBufNb (start s s.taken.length + j)) = seg.data
  frames : ∀ f ∈ s.dma.arrived, Frame f
  arriving : Beginning s.dma.arriving
  scanned : ∀ j, j < s.heth.rxFrameInfos.segCount → ∃ seg,
    ((s.dma.arrived.drop s.taken.length).flatten ++ s.dma.arriving)[j]? = some seg ∧ seg.ls = false
  next : s.heth.rxDesc = slot ethRxBufNb (start s s.taken.length + s.heth.rxFrameInfos.segCount)
  first : 0 < s.heth.rxFrameInfos.segCount →
    s.heth.rxFrameInfos.fsRxDesc = some (slot ethRxBufNb (start s s.taken.length))
  fault : s.fault = false

theorem RingAt.owned {s : Eth} {rel : Nat} (h : RingAt s rel) (i : RxPtr) :
    (s.dmaRxDscrTab i).own = false ↔ ∃ k, rel ≤ k ∧ k < (segs s).length ∧ slot ethRxBufNb k = i := by
  rw [← h.window.held_iff]
  simp [Free, cell]

theorem Idle.consistent {resumes : Prop} {s : Eth} (h : Idle resumes s) : Consistent s := by
  obtain ⟨⟨lo, c, hp⟩, -, -⟩ := h
  obtain ⟨hcount, hfs⟩ := hp.info
  obtain rfl := hp.first
  have hlen : (segs s).length = start s s.taken.length +
      ((s.dma.arrived.drop s.taken.length).flatten ++ s.dma.arriving).length := by
    conv_lhs => rw [segs_eq_start s s.taken.length]
    rw [List.length_append]
    rfl
  refine ⟨hp.log, fun i => ?_, fun j seg hseg => ?_, hp.ring.frames, hp.ring.arriving, ?_, ?_, ?_, hp.fault⟩
  · rw [hp.ring.owned]
    constructor
    · rintro ⟨k, hk, hk', rfl⟩
      exact ⟨k - start s s.taken.length, by omega, by congr 1; omega⟩
    · rintro ⟨j, hj, rfl⟩
      exact ⟨_, Nat.le_add_right _ _, by omega, rfl⟩
  · rw [← getElem?_start] at hseg
    have hlt := (List.getElem?_eq_some_iff.mp hseg).1
    obtain ⟨-, seg', hseg', hrest⟩ := hp.ring.window.held _ (Nat.le_add_right _ _) hlt
    obtain rfl : seg = seg' := by rw [hseg] at hseg'; exact Option.some.inj hseg'
    exact hrest
  · intro j hj
    obtain ⟨seg, hseg, hls⟩ := hp.noLast j (by omega)
    rw [getElem?_start] at hseg
    exact ⟨seg, hseg, hls⟩
  · rw [hp.rxDesc, hcount]
  · rw [hcount]
    exact hfs

end Receive

/-- In every state the descriptors of the CPU are a run on the ring that begins in the first frame
not taken and ends at the DMA; between two calls the whole account of the ring is in order. -/
theorem receive_ring_consistent (answers : Nat → ∀ i, Call.Answer i) (rxTab : RxPtr → RxDesc)
    (txTab : TxPtr → TxDesc) (rxBuff : RxPtr → Nat → UInt8) (txBuff : TxPtr → Nat → UInt8)
    (c : Machine.Config Eth Call.Answer Unit)
    (run : receiveCalls.Reaches Machine.always (Eth.started answers rxTab txTab rxBuff txBuff) () c) :
    (∃ rel, Receive.Standing rel c.shared ∧
      ∀ i, (c.shared.dmaRxDscrTab i).own = false ↔
        ∃ k, rel ≤ k ∧ k < (Receive.segs c.shared).length ∧ slot ethRxBufNb k = i) ∧
    (c.control = .before () → Receive.Consistent c.shared) := by
  have hmeets : receiveCalls.Reaches (Receive.inputSetting false False False).meets
      (Eth.started answers rxTab txTab rxBuff txBuff) () c := run.mono fun s t _ => ⟨False.elim, False.elim⟩
  have hstart := Receive.started_idle answers rxTab txTab rxBuff txBuff False
  constructor
  · have hstanding := (Receive.started_fresh answers rxTab txTab rxBuff txBuff).1.toStanding
    obtain ⟨rel, hrel⟩ := Receive.receiveCalls_proof.always hstart
      (I := fun s => ∃ rel, Receive.Standing rel s) ⟨0, hstanding⟩
      (fun s t ⟨e, he⟩ ⟨rel, h⟩ => ⟨rel, h.others (Receive.others_of_fire he)⟩)
      (fun s t h ⟨rel, hs⟩ => ⟨rel, hs.others (Receive.others_of_irq h)⟩)
      (fun s t h _ => h) (fun _ u t _ hu he => by obtain rfl := Option.some.inj he; exact hu) hmeets
    exact ⟨rel, hrel, hrel.ring.owned⟩
  · intro hc
    obtain ⟨s, i, control⟩ := c
    obtain rfl : control = .before () := hc
    exact (Receive.receiveCalls_proof.before hstart hmeets).consistent

theorem receive_ring_consistent_frames : ∃ c : Machine.Config Eth Call.Answer Unit,
    c.shared.dma.arrived.length = 2 ∧ c.shared.taken.length = 1 ∧
    ((∃ rel, Receive.Standing rel c.shared ∧
      ∀ i, (c.shared.dmaRxDscrTab i).own = false ↔
        ∃ k, rel ≤ k ∧ k < (Receive.segs c.shared).length ∧ slot ethRxBufNb k = i) ∧
    (c.control = .before () → Receive.Consistent c.shared)) := by
  obtain ⟨c, run, htest⟩ : ∃ c, receiveCalls.Reaches Machine.always cleared () c ∧
      (decide (c.shared.dma.arrived.length = 2) && decide (c.shared.taken.length = 1)) = true :=
    Machine.reaches_of_schedule (fun _ _ => true) (fun _ _ _ => trivial)
      ([arrive, arrive] ++ proceed true 31) (by decide +kernel)
  simp only [Bool.and_eq_true, decide_eq_true_eq] at htest
  exact ⟨c, htest.1, htest.2, receive_ring_consistent _ _ _ _ _ c run⟩

end Oinzen
