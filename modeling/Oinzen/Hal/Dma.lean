import Oinzen.Hal.Eth

/-!
# The DMA

What the DMA engines do on their own. It uses the descriptors in ring order and only while it owns
them. A `strict` DMA also stops when it is suspended and does not begin a descriptor it could not
follow up: when it would run out it ends the block, so that a frame is cut short.
-/

namespace Oinzen

inductive DmaEvent
  /-- Fill the next receive descriptor; `ls` ends the frame. -/
  | fill (ls : Bool) (fl : BitVec 14) (data : Nat → UInt8)
  /-- The next receive descriptor belongs to the CPU. -/
  | suspend
  /-- Send from the next transmit descriptor and give it back. -/
  | send
  /-- Set status flags the receive path does not depend on. -/
  | status (ts tbus tus ais : Bool)

namespace Eth

def nextRx (s : Eth) : RxDesc := s.dmaRxDscrTab s.dma.rxCur

def fillRx (ls : Bool) (fl : BitVec 14) (data : Nat → UInt8) (s : Eth) : Eth :=
  let seg : RxSeg := ⟨s.dma.arriving.isEmpty, ls, fl, data⟩
  let raised := ls && !s.nextRx.dic
  { s.updateRxDesc s.dma.rxCur fun d => { d with own := false, fs := seg.fs, ls := ls, fl := fl } with
    rxBuff := Function.update s.rxBuff s.nextRx.buffer1Addr data
    dmasr := { s.dmasr with rs := s.dmasr.rs || raised, nis := s.dmasr.nis || raised }
    dma := { s.dma with
      rxCur := s.nextRx.buffer2NextDescAddr
      arrived := if ls then s.dma.arrived ++ [s.dma.arriving ++ [seg]] else s.dma.arrived
      arriving := if ls then [] else s.dma.arriving ++ [seg] } }

def suspendRx (s : Eth) : Eth := { s with dma.rxSuspended := true, dmasr.rbus := true }

def sendTx (s : Eth) : Eth :=
  let d := s.dmaTxDscrTab s.dma.txCur
  { s.updateTxDesc s.dma.txCur fun d => { d with own := false } with
    dma := { s.dma with
      txCur := d.buffer2NextDescAddr
      wire := s.dma.wire ++ [⟨d.fs, d.ls, bytes (s.txBuff d.buffer1Addr) d.tbs1⟩] } }

def raise (ts tbus tus ais : Bool) (s : Eth) : Eth :=
  { s with
    dmasr := { s.dmasr with
      ts := s.dmasr.ts || ts, tbus := s.dmasr.tbus || tbus, tus := s.dmasr.tus || tus
      ais := s.dmasr.ais || ais } }

def mayFill (strict ls : Bool) (s : Eth) : Bool :=
  s.nextRx.own && (ls || decide (s.dma.arriving.length + 1 < ethRxBufNb)) &&
    (!strict || !s.dma.rxSuspended && (ls || (s.dmaRxDscrTab s.nextRx.buffer2NextDescAddr).own))

def fire (strict : Bool) : DmaEvent → Eth → Option Eth
  | .fill ls fl data, s => if s.mayFill strict ls then some (s.fillRx ls fl data) else none
  | .suspend, s => if s.nextRx.own || s.dma.rxSuspended then none else some s.suspendRx
  | .send, s => if (s.dmaTxDscrTab s.dma.txCur).own then some s.sendTx else none
  | .status ts tbus tus ais, s => some (s.raise ts tbus tus ais)

theorem fire_cases {strict : Bool} {e : DmaEvent} {s t : Eth} (h : s.fire strict e = some t) :
    (∃ ls fl data, s.mayFill strict ls = true ∧ t = s.fillRx ls fl data) ∨
    (s.nextRx.own = false ∧ s.dma.rxSuspended = false ∧ t = s.suspendRx) ∨
    ((s.dmaTxDscrTab s.dma.txCur).own = true ∧ t = s.sendTx) ∨
    ∃ ts tbus tus ais, t = s.raise ts tbus tus ais := by
  cases e with
  | fill ls fl data =>
      simp only [fire, Option.ite_none_right_eq_some, Option.some.injEq] at h
      exact .inl ⟨ls, fl, data, h.1, h.2.symm⟩
  | suspend =>
      simp only [fire, Option.ite_none_left_eq_some, Option.some.injEq, Bool.or_eq_true, not_or,
        Bool.not_eq_true] at h
      exact .inr (.inl ⟨h.1.1, h.1.2, h.2.symm⟩)
  | send =>
      simp only [fire, Option.ite_none_right_eq_some, Option.some.injEq] at h
      exact .inr (.inr (.inl ⟨h.1, h.2.symm⟩))
  | status ts tbus tus ais => exact .inr (.inr (.inr ⟨ts, tbus, tus, ais, (Option.some.inj h).symm⟩))

end Eth

end Oinzen
