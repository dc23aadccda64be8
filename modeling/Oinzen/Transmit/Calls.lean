import Oinzen.Interference.Machine
import Oinzen.Driver.Start
import Oinzen.Transmit.Output

/-!
# Runs of `low_level_output`

One call after the other, each with a chain that fits the ring, while the DMA sends and interrupts
are served.
-/

namespace Oinzen

open Interference Ring

def outputCall : Code Eth Unit := do
  let p ← Prog.call Call.linkoutput
  Prog.when (decide (1 ≤ totLen p ∧ totLen p ≤ ethTxBufNb * ethTxBufSize)) do
    let first ← Prog.get fun s => s.heth.txDesc
    let errval ← lowLevelOutput p
    Prog.modify fun s => { s with outputs := s.outputs ++ [⟨p, first, s.ownReads, errval⟩] }

def transmitCalls : Machine Eth Call.Answer Unit DmaEvent where
  fire := Eth.fire false
  pending s := s.dmasr.rs || s.dmasr.ts
  handler := halEthIrqHandler
  enter _ s := some s
  body _ := outputCall

namespace Transmit

open Machine Prog

structure Whole (p : List Pbuf) (f : List TxSeg) : Prop where
  nonempty : 0 < f.length
  fs : ∀ i seg, f[i]? = some seg → (seg.fs = true ↔ i = 0)
  ls : ∀ i seg, f[i]? = some seg → (seg.ls = true ↔ i + 1 = f.length)
  data : f.flatMap TxSeg.data = chainBytes p

theorem flatMap_chunks {α : Type} (l : List α) (size n : Nat) :
    ((List.range n).flatMap fun i => (l.drop (i * size)).take size) = l.take (n * size) := by
  induction n with
  | zero => simp
  | succ n ih => rw [List.range_succ, List.flatMap_append, ih, Nat.add_one_mul, List.take_add]; simp

theorem totLen_le_needed (p : List Pbuf) : totLen p ≤ needed p * ethTxBufSize := by
  unfold needed ethTxBufSize
  omega

theorem block_whole (p : List Pbuf) : Whole p (block p) := by
  have hpos := needed_pos p
  have hseg : ∀ i seg, (block p)[i]? = some seg → i < needed p ∧ seg.fs = decide (i = 0) ∧
      seg.ls = decide (i = needed p - 1) := by
    intro i seg h
    obtain ⟨j, hj, rfl⟩ := Option.map_eq_some_iff.mp ((List.getElem?_map ..).symm.trans h)
    obtain ⟨hi, rfl⟩ := List.getElem?_eq_some_iff.mp hj
    rw [List.length_range, bufcountOf_eq] at hi
    simp [hi, bufcountOf_eq]
  refine ⟨by rw [length_block]; exact hpos, fun i seg h => ?_, fun i seg h => ?_, ?_⟩
  · simp [(hseg i seg h).2.1]
  · obtain ⟨hi, -, hls⟩ := hseg i seg h
    rw [hls, length_block, decide_eq_true_eq]
    omega
  · rw [block, List.flatMap_map, flatMap_chunks, bufcountOf_eq, List.take_of_length_le]
    rw [length_chainBytes]
    exact totLen_le_needed p

def acceptedBy (outs : List Output) : List (List Pbuf) :=
  (outs.filter fun o => o.errval = .ok).map Output.chain

def Between (s : Eth) : Prop :=
  ∃ acc outs reads, Copying acc outs [] reads 0 0 s ∧ acc = acceptedBy outs

theorem between_stable : Stable outputSetting.rely Between :=
  fun _ _ r ⟨acc, outs, reads, h, hacc⟩ => ⟨acc, outs, reads, copying_stable r h, hacc⟩

theorem Copying.other {acc : List (List Pbuf)} {outs : List Output} {p : List Pbuf}
    {reads : List (TxPtr × Bool)} {s : Eth} (h : Copying acc outs p reads 0 0 s) (q : List Pbuf) :
    Copying acc outs q reads 0 0 s :=
  { h with copied := fun k hk => absurd hk (Nat.not_lt_zero k) }

theorem Done.record {acc : List (List Pbuf)} {outs : List Output} {p : List Pbuf} {err : ErrT} {s : Eth}
    (h : Done acc outs p err s) (hacc : acc = acceptedBy outs) :
    Between { s with outputs := s.outputs ++ [⟨p, slot ethTxBufNb (base acc), s.ownReads, err⟩] } := by
  obtain ⟨reads, ⟨rfl, h, hpassed⟩ | ⟨rfl, h, hstopped⟩⟩ := h
  · have hans : Answered ⟨p, slot ethTxBufNb (base acc), reads, .ok⟩ := by
      refine ⟨.inl rfl, fun r hr => ?_, ⟨(fun he => by cases he), ?_⟩, fun _ j hj => ?_⟩
      · obtain ⟨j, hj, rfl⟩ := hpassed.only r hr
        exact ⟨j, hj, slot_add _ j⟩
      · rintro ⟨j, -, hr⟩
        obtain ⟨_, -, he⟩ := hpassed.only _ hr
        exact absurd (congrArg Prod.snd he) (by simp)
      · rw [← slot_add]
        exact hpassed.all j hj
    refine ⟨acc ++ [p], _, reads, { h.other [] with ring := h.ring.congr rfl, outputs := rfl, answered := ?_ }, ?_⟩
    · rw [h.outputs, h.ownReads]
      exact List.forall_mem_append.mpr ⟨h.answered, List.forall_mem_singleton.mpr hans⟩
    · simp [acceptedBy, h.outputs, hacc]
  · have hans : Answered ⟨p, slot ethTxBufNb (base acc), reads, .use⟩ := by
      refine ⟨.inr rfl, fun r hr => ?_, ⟨fun _ => ?_, fun _ => rfl⟩, (fun he => by cases he)⟩
      · obtain ⟨j, hj, he⟩ := hstopped.only r hr
        exact ⟨j, hj, by rw [he, slot_add]⟩
      · obtain ⟨j, hj, hr⟩ := hstopped.found
        exact ⟨j, hj, by rw [← slot_add]; exact hr⟩
    refine ⟨acc, _, reads, { h.other [] with ring := h.ring.congr rfl, outputs := rfl, answered := ?_ }, ?_⟩
    · rw [h.outputs, h.ownReads]
      exact List.forall_mem_append.mpr ⟨h.answered, List.forall_mem_singleton.mpr hans⟩
    · simp [acceptedBy, h.outputs, hacc]

theorem Between.standing {s : Eth} (h : Between s) : Standing s := by
  obtain ⟨acc, outs, reads, h, -⟩ := h
  exact h.standing

theorem outputCall_safe {s : Eth} (h : Between s) : outputCall.Safe outputSetting (fun _ => Between) s := by
  refine safe_call between_stable h fun t p ht => ?_
  refine safe_when (fun hp => ?_) fun _ => safe_ret between_stable ht
  obtain ⟨hpos, hmax⟩ := of_decide_eq_true hp
  obtain ⟨acc, outs, reads, ht, hacc⟩ := ht
  refine safe_get copying_stable ht (fun t ht => ht.standing) fun t ht => ?_
  rw [ht.txDesc]
  refine .seq _ (lowLevelOutput_safe hpos hmax (ht.other p)) fun err t ht => ?_
  exact safe_modify (k := ret) (done_stable err) ht (fun t ht => (ht.record hacc).standing)
    fun t ht _ => safe_ret between_stable (ht.record hacc)

theorem transmitCalls_proof :
    transmitCalls.Proof outputSetting.meets IrqKeeps outputSetting.guar fun _ => Between where
  stable _ := between_stable
  handler s _ := irqHandler_safe false s
  body := by
    rintro ⟨⟩ s t h he
    obtain rfl := Option.some.inj he
    exact outputCall_safe h

theorem started_between (answers : Nat → ∀ i, Call.Answer i) (rxTab : RxPtr → RxDesc)
    (txTab : TxPtr → TxDesc) (rxBuff : RxPtr → Nat → UInt8) (txBuff : TxPtr → Nat → UInt8) :
    Between (Eth.started answers rxTab txTab rxBuff txBuff) := by
  obtain ⟨rx, tx, init, maccr, -, hready, heq⟩ := started_eq answers rxTab txTab rxBuff txBuff
  rw [heq]
  have hring : RingAt { Eth.boot rx tx rxBuff txBuff with
      heth := ⟨init, false, .ready, 0, 0, ⟨none, none, 0, 0, none⟩⟩, maccr := maccr, xSemaphore := true } :=
    ⟨fun i => (hready i).2.2, fun i => (hready i).2.1, rfl, List.prefix_rfl, .empty 0 fun i => (hready i).1⟩
  exact ⟨[], [], [], ⟨hring, rfl, rfl, rfl, nofun, rfl, rfl, rfl, rfl, Nat.zero_le _, nofun⟩, rfl⟩

/-- The transmit ring as a queue: the descriptors from the DMA's next one up to `heth.TxDesc` are the
DMA's, they hold the segments that were handed over and not sent, and all that was handed over are
the frames accepted, in their order. -/
structure Fifo (s : Eth) : Prop where
  txDesc : s.heth.txDesc = slot ethTxBufNb s.handed.length
  cur : s.dma.txCur = slot ethTxBufNb s.dma.wire.length
  fits : s.handed.length ≤ s.dma.wire.length + ethTxBufNb
  owned : ∀ i, (s.dmaTxDscrTab i).own = true ↔
    ∃ k, s.dma.wire.length ≤ k ∧ k < s.handed.length ∧ slot ethTxBufNb k = i
  holds : ∀ k, s.dma.wire.length ≤ k → k < s.handed.length →
    s.handed[k]? = some (segment (cell s (slot ethTxBufNb k)))
  sent : s.dma.wire <+: s.handed
  blocks : s.handed = s.accepted.flatMap block
  whole : ∀ p ∈ s.accepted, Whole p (block p)

theorem Standing.fifo {s : Eth} (h : Standing s) (outside : s.transmitting = false) : Fifo s where
  txDesc := (h.blocks outside).1
  cur := h.ring.cur
  fits := h.ring.window.fits
  owned := h.ring.owned
  holds k hk hk' := (h.ring.window.held k hk hk').2
  sent := h.ring.sent
  blocks := (h.blocks outside).2
  whole p _ := block_whole p

end Transmit

/-- Frames leave once, whole, and in the order in which the calls that accepted them returned; a call
is refused exactly when a descriptor it needs is seen to belong to the DMA. -/
theorem transmit_ring_fifo (answers : Nat → ∀ i, Call.Answer i) (rxTab : RxPtr → RxDesc)
    (txTab : TxPtr → TxDesc) (rxBuff : RxPtr → Nat → UInt8) (txBuff : TxPtr → Nat → UInt8)
    (c : Machine.Config Eth Call.Answer Unit)
    (run : transmitCalls.Reaches Machine.always (Eth.started answers rxTab txTab rxBuff txBuff) () c) :
    (c.shared.transmitting = false → Transmit.Fifo c.shared) ∧
    c.shared.dma.wire <+: c.shared.handed ∧
    (∀ o ∈ c.shared.outputs, Transmit.Answered o) ∧
    (c.control = .before () → c.shared.accepted = Transmit.acceptedBy c.shared.outputs) := by
  have hstart := Transmit.started_between answers rxTab txTab rxBuff txBuff
  have hstanding : Transmit.Standing c.shared :=
    Transmit.transmitCalls_proof.always hstart (I := Transmit.Standing) hstart.standing
      (fun s t ⟨e, he⟩ h => h.others (Transmit.others_of_fire he))
      (fun s t hirq h => h.others (Transmit.others_of_irq hirq))
      (fun s t h _ => h) (fun _ u t _ hu he => by obtain rfl := Option.some.inj he; exact hu) run
  refine ⟨hstanding.fifo, hstanding.ring.sent, hstanding.answered, fun hc => ?_⟩
  obtain ⟨s, i, control⟩ := c
  obtain rfl : control = .before () := hc
  obtain ⟨acc, outs, reads, h, hacc⟩ := Transmit.transmitCalls_proof.before hstart run
  rw [h.accepted, h.outputs, hacc]

theorem transmit_ring_fifo_frames : ∃ c : Machine.Config Eth Call.Answer Unit,
    c.shared.accepted.length = 2 ∧ c.shared.dma.wire.length = 1 ∧
    ((c.shared.transmitting = false → Transmit.Fifo c.shared) ∧
    c.shared.dma.wire <+: c.shared.handed ∧
    (∀ o ∈ c.shared.outputs, Transmit.Answered o) ∧
    (c.control = .before () → c.shared.accepted = Transmit.acceptedBy c.shared.outputs)) := by
  obtain ⟨c, run, htest⟩ : ∃ c, transmitCalls.Reaches Machine.always cleared () c ∧
      (decide (c.shared.accepted.length = 2) && decide (c.shared.dma.wire.length = 1)) = true :=
    Machine.reaches_of_schedule (fun _ _ => true) (fun _ _ _ => trivial)
      (proceed true 25 ++ .env .send :: proceed true 25) (by decide +kernel)
  simp only [Bool.and_eq_true, decide_eq_true_eq] at htest
  exact ⟨c, htest.1, htest.2, transmit_ring_fifo _ _ _ _ _ c run⟩

end Oinzen
