import Oinzen.Transmit.Handover

/-!
# The copy beside the DMA and the interrupt handler

The DMA only gives descriptors back, so one that was free stays free, and those that the copy has seen
free follow the ones handed over.
-/

namespace Oinzen.Transmit

open Ring Interference Prog

structure Others (s t : Eth) : Prop extends Spares s t where
  sent : s.dma.wire.length ≤ t.dma.wire.length
  ring : RingAt s → RingAt t

theorem Others.of_ringPart {s t : Eth} (h : Bystands s t) (e : ringPart t = ringPart s) : Others s t := by
  have hring := fun hr : RingAt s => hr.congr e
  simp only [ringPart, Prod.mk.injEq] at e
  obtain ⟨htab, -, -, hwire, -⟩ := e
  exact ⟨⟨h, fun hl => hl.congr htab, fun i _ => congrFun htab i⟩, by rw [hwire], hring⟩

theorem others_of_fire {s t : Eth} {strict : Bool} {e : DmaEvent} (h : s.fire strict e = some t) :
    Others s t := by
  have hby := bystands_of_fire h
  obtain ⟨_, _, _, -, rfl⟩ | ⟨-, -, rfl⟩ | ⟨hown, rfl⟩ | ⟨_, _, _, _, rfl⟩ := Eth.fire_cases h
  · exact .of_ringPart hby rfl
  · exact .of_ringPart hby rfl
  · exact ⟨spares_sendTx hown, by simp [Eth.sendTx], fun hr => hr.sendTx hown⟩
  · exact .of_ringPart hby rfl

theorem others_of_irq {s t : Eth} (h : IrqKeeps s t) : Others s t := by
  have hby := bystands_of_irq h
  obtain ⟨_, _, _, _, rfl, -⟩ := h
  exact .of_ringPart hby rfl

/-- A call that was answered: it was refused when a descriptor the frame needs was seen to belong to
the DMA, and accepted when all of them were seen to be free. -/
structure Answered (o : Output) : Prop where
  errval : o.errval = .ok ∨ o.errval = .use
  reads : ∀ r ∈ o.ownReads, ∃ j, j < needed o.chain ∧ r.1 = o.first + Fin.ofNat _ j
  refused : o.errval = .use ↔ ∃ j, j < needed o.chain ∧ (o.first + Fin.ofNat _ j, true) ∈ o.ownReads
  accepted : o.errval = .ok → ∀ j, j < needed o.chain → (o.first + Fin.ofNat _ j, false) ∈ o.ownReads

/-- Outside `HAL_ETH_TransmitFrame` the segments handed over are those of the frames accepted. -/
structure Standing (s : Eth) : Prop where
  ring : RingAt s
  blocks : s.transmitting = false →
    s.heth.txDesc = slot ethTxBufNb s.handed.length ∧ s.handed = s.accepted.flatMap block
  answered : ∀ o ∈ s.outputs, Answered o

theorem Standing.others {s t : Eth} (h : Standing s) (o : Others s t) : Standing t where
  ring := o.ring h.ring
  blocks := by rw [o.transmitting, o.txDesc, o.handed, o.accepted]; exact h.blocks
  answered := by rw [o.outputs]; exact h.answered

def outputSetting : Setting Eth where
  rely s t := (∃ e, s.fire false e = some t) ∨ IrqKeeps s t
  guar _ t := Standing t
  meets := Machine.always

theorem others_of_rely {s t : Eth} (h : outputSetting.rely s t) : Others s t := by
  rcases h with ⟨e, he⟩ | h
  · exact others_of_fire he
  · exact others_of_irq h

def base (acc : List (List Pbuf)) : Nat := (acc.flatMap block).length

structure Copying (acc : List (List Pbuf)) (outs : List Output) (p : List Pbuf)
    (reads : List (TxPtr × Bool)) (seen m : Nat) (s : Eth) : Prop where
  ring : RingAt s
  transmitting : s.transmitting = false
  accepted : s.accepted = acc
  outputs : s.outputs = outs
  answered : ∀ o ∈ outs, Answered o
  handed : s.handed = acc.flatMap block
  txDesc : s.heth.txDesc = slot ethTxBufNb (base acc)
  lock : s.heth.lock = false
  ownReads : s.ownReads = reads
  free : base acc + seen ≤ s.dma.wire.length + ethTxBufNb
  copied : Copied (base acc) p m s

section

variable {acc : List (List Pbuf)} {outs : List Output} {p : List Pbuf} {reads : List (TxPtr × Bool)}
  {seen m : Nat} {s t : Eth}

theorem Copying.standing (h : Copying acc outs p reads seen m s) : Standing s where
  ring := h.ring
  blocks _ := ⟨by rw [h.txDesc, h.handed]; rfl, by rw [h.handed, h.accepted]⟩
  answered := by rw [h.outputs]; exact h.answered

theorem Copying.others (h : Copying acc outs p reads seen m s) (o : Others s t) :
    Copying acc outs p reads seen m t where
  ring := o.ring h.ring
  transmitting := o.transmitting.trans h.transmitting
  accepted := o.accepted.trans h.accepted
  outputs := o.outputs.trans h.outputs
  answered := h.answered
  handed := o.handed.trans h.handed
  txDesc := o.txDesc.trans h.txDesc
  lock := by
    by_contra hlock
    exact absurd (o.lock (by simpa using hlock)) (by simp [h.lock])
  ownReads := o.ownReads.trans h.ownReads
  free := by have := h.free; have := o.sent; omega
  copied := by rw [Copied, o.txBuff]; exact h.copied

def taskPart (s : Eth) : TxPtr × Bool × List (List Pbuf) × List Output × List (TxPtr × Bool) :=
  (s.heth.txDesc, s.transmitting, s.accepted, s.outputs, s.ownReads)

theorem Copying.congr (h : Copying acc outs p reads seen m s) (ring : ringPart t = ringPart s)
    (task : taskPart t = taskPart s) (lock : t.heth.lock = s.heth.lock) :
    Copying acc outs p reads seen m t := by
  have hring := h.ring.congr ring
  simp only [ringPart, taskPart, Prod.mk.injEq] at ring task
  obtain ⟨-, hbuff, -, hwire, hhanded⟩ := ring
  obtain ⟨htxDesc, htransmitting, haccepted, houtputs, hreads⟩ := task
  exact ⟨hring, htransmitting.trans h.transmitting, haccepted.trans h.accepted, houtputs.trans h.outputs,
    h.answered, hhanded.trans h.handed, htxDesc.trans h.txDesc, lock.trans h.lock, hreads.trans h.ownReads,
    by rw [hwire]; exact h.free, by rw [Copied, hbuff]; exact h.copied⟩

theorem copying_stable : Stable outputSetting.rely (Copying acc outs p reads seen m) :=
  fun _ _ r h => h.others (others_of_rely r)

theorem Copying.window (h : Copying acc outs p reads seen m s) :
    Window (cell s) (claim s.handed) s.dma.wire.length (base acc) := by
  have := h.ring.window
  rwa [show s.handed.length = base acc by rw [h.handed]; rfl] at this

def Underway (acc : List (List Pbuf)) (outs : List Output) (p : List Pbuf) (s : Eth) : Prop :=
  ∃ reads, Copying acc outs p reads 0 0 s

theorem Copying.underway (h : Copying acc outs p reads seen m s) : Underway acc outs p s :=
  ⟨reads, { h with free := by have := h.free; omega, copied := fun _ hk => absurd hk (Nat.not_lt_zero _) }⟩

theorem underway_surroundings : Surroundings outputSetting (base acc) p (Underway acc outs p) where
  stable _ _ r h := by
    obtain ⟨reads, h⟩ := h
    exact ⟨reads, copying_stable r h⟩
  buff r := (others_of_rely r).txBuff
  ownReads r := (others_of_rely r).ownReads
  free r h := by rw [(others_of_rely r).free _ h]; exact h
  linked h := by
    obtain ⟨_, h⟩ := h
    exact ⟨h.ring.next, h.ring.buffer⟩
  quiet h := by
    obtain ⟨_, h⟩ := h
    exact h.standing
  see {s} log h := by
    obtain ⟨_, h⟩ := h
    have hlog : Copying acc outs p log 0 0 { s with ownReads := log } :=
      { h with ring := h.ring.congr rfl, ownReads := rfl }
    exact ⟨⟨log, hlog⟩, hlog.standing⟩
  copy {s d} row e h _ hown _ := by
    obtain ⟨reads, h⟩ := h
    have hring := h.ring.modify (t := { s with
      txBuff := Function.update s.txBuff (slot ethTxBufNb (base acc + d)) row, copiedOut := s.copiedOut ++ [e] })
      (slot ethTxBufNb (base acc + d)) hown rfl rfl rfl (fun j hj => by simp [cell, hj])
      ⟨hown, h.ring.next _, h.ring.buffer _⟩
    have hcopy : Copying acc outs p reads 0 0 { s with
        txBuff := Function.update s.txBuff (slot ethTxBufNb (base acc + d)) row, copiedOut := s.copiedOut ++ [e] } :=
      { h with ring := hring, copied := fun _ hk => absurd hk (Nat.not_lt_zero _) }
    exact ⟨⟨reads, hcopy⟩, hcopy.standing⟩

theorem Filling.copying (h : Filling (Underway acc outs p) (base acc) p reads seen m s)
    (hmax : totLen p ≤ ethTxBufNb * ethTxBufSize) (hseen : seen ≤ needed p) :
    Copying acc outs p reads seen m s := by
  obtain ⟨_, hrest⟩ := h.rest
  have hneeded := needed_le hmax
  have hroom : ∀ d, d ≤ seen → base acc + d ≤ s.dma.wire.length + ethTxBufNb := by
    intro d
    induction d with
    | zero => exact fun _ => hrest.free
    | succ d ih =>
        intro hd
        exact hrest.window.room_add (by omega) (ih (by omega)) (h.free d hd)
  exact { hrest with ownReads := h.ownReads, free := hroom seen (Nat.le_refl _), copied := h.copied hmax }

end

end Oinzen.Transmit
