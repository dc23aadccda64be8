import Oinzen.Ring.Window
import Oinzen.Hal.Dma

/-!
# The transmit ring

Which descriptors were passed to the DMA, and which segments they hold. A position is the number of
segments handed over before.
-/

namespace Oinzen.Transmit

open Ring

def cell (s : Eth) (i : TxPtr) : TxDesc × (Nat → UInt8) := (s.dmaTxDscrTab i, s.txBuff i)

def segment (c : TxDesc × (Nat → UInt8)) : TxSeg := ⟨c.1.fs, c.1.ls, bytes c.2 c.1.tbs1⟩

def Holds (all : List TxSeg) (k : Nat) (c : TxDesc × (Nat → UInt8)) : Prop :=
  c.1.own = true ∧ all[k]? = some (segment c)

def Free (c : TxDesc × (Nat → UInt8)) : Prop := c.1.own = false

def claim (all : List TxSeg) : Claim Free where
  holds := Holds all
  apart k c h := by simp [Free, h.1]

def block (p : List Pbuf) : List TxSeg :=
  (List.range (bufcountOf (totLen p))).map fun i =>
    ⟨i = 0, i = bufcountOf (totLen p) - 1, ((chainBytes p).drop (i * ethTxBufSize)).take ethTxBufSize⟩

structure RingAt (s : Eth) : Prop where
  next : ∀ i, (s.dmaTxDscrTab i).buffer2NextDescAddr = i + 1
  buffer : ∀ i, (s.dmaTxDscrTab i).buffer1Addr = i
  cur : s.dma.txCur = slot ethTxBufNb s.dma.wire.length
  sent : s.dma.wire <+: s.handed
  window : Window (cell s) (claim s.handed) s.dma.wire.length s.handed.length

def ringPart (s : Eth) : (TxPtr → TxDesc) × (TxPtr → Nat → UInt8) × TxPtr × List TxSeg × List TxSeg :=
  (s.dmaTxDscrTab, s.txBuff, s.dma.txCur, s.dma.wire, s.handed)

theorem RingAt.congr {s t : Eth} (h : RingAt s) (e : ringPart t = ringPart s) : RingAt t := by
  simp only [ringPart, Prod.mk.injEq] at e
  obtain ⟨htab, hbuff, hcur, hwire, hhanded⟩ := e
  have hcell : cell t = cell s := by funext i; rw [cell, cell, htab, hbuff]
  exact ⟨by rw [htab]; exact h.next, by rw [htab]; exact h.buffer, by rw [hcur, hwire]; exact h.cur,
    by rw [hwire, hhanded]; exact h.sent, by rw [hcell, hwire, hhanded]; exact h.window⟩

theorem RingAt.owned {s : Eth} (h : RingAt s) (i : TxPtr) :
    (s.dmaTxDscrTab i).own = true ↔
      ∃ k, s.dma.wire.length ≤ k ∧ k < s.handed.length ∧ slot ethTxBufNb k = i := by
  rw [← h.window.held_iff]
  simp [Free, cell]

theorem prefix_snoc_of_getElem? {α : Type} {l m : List α} {a : α} (h : l <+: m) (ha : m[l.length]? = some a) :
    l ++ [a] <+: m := by
  obtain ⟨more, rfl⟩ := h
  rw [List.getElem?_append_right (Nat.le_refl _), Nat.sub_self] at ha
  obtain ⟨rest, rfl⟩ : ∃ rest, more = a :: rest := by
    cases more with
    | nil => simp at ha
    | cons b rest => exact ⟨rest, by simpa using ha⟩
  exact ⟨rest, by simp⟩

theorem RingAt.sendTx {s : Eth} (h : RingAt s) (hown : (s.dmaTxDscrTab s.dma.txCur).own = true) :
    RingAt s.sendTx := by
  have hnot : ¬ Free (cell s (slot ethTxBufNb s.dma.wire.length)) := by
    rw [← h.cur]
    simp [Free, cell, hown]
  have hlt := h.window.nonempty hnot
  obtain ⟨-, hseg⟩ := h.window.held _ (Nat.le_refl _) hlt
  rw [← h.cur, segment, cell] at hseg
  have hlen : s.sendTx.dma.wire.length = s.dma.wire.length + 1 := by simp [Eth.sendTx]
  refine ⟨fun i => ?_, fun i => ?_, ?_, ?_, ?_⟩
  · by_cases hi : i = s.dma.txCur
    · simp [Eth.sendTx, Eth.updateTxDesc, hi, h.next]
    · simp [Eth.sendTx, Eth.updateTxDesc, hi, h.next]
  · by_cases hi : i = s.dma.txCur
    · simp [Eth.sendTx, Eth.updateTxDesc, hi, h.buffer]
    · simp [Eth.sendTx, Eth.updateTxDesc, hi, h.buffer]
  · rw [hlen, ← slot_succ, ← h.cur]
    exact h.next _
  · have hbuf := h.buffer s.dma.txCur
    simp only [Eth.sendTx, hbuf]
    exact prefix_snoc_of_getElem? h.sent hseg
  · rw [hlen]
    refine h.window.pop hlt (fun i hi => ?_) ?_
    · rw [← h.cur] at hi
      simp [cell, Eth.sendTx, Eth.updateTxDesc, hi]
    · rw [← h.cur]
      simp [Free, cell, Eth.sendTx, Eth.updateTxDesc]

theorem RingAt.modify {s t : Eth} (h : RingAt s) (i : TxPtr) (hfree : (s.dmaTxDscrTab i).own = false)
    (cur : t.dma.txCur = s.dma.txCur) (wire : t.dma.wire = s.dma.wire) (handed : t.handed = s.handed)
    (same : ∀ j, j ≠ i → cell t j = cell s j)
    (still : (t.dmaTxDscrTab i).own = false ∧ (t.dmaTxDscrTab i).buffer2NextDescAddr = i + 1 ∧
      (t.dmaTxDscrTab i).buffer1Addr = i) : RingAt t := by
  have htab : ∀ j, j ≠ i → t.dmaTxDscrTab j = s.dmaTxDscrTab j := fun j hj => congrArg Prod.fst (same j hj)
  refine ⟨fun j => ?_, fun j => ?_, by rw [cur, wire]; exact h.cur, by rw [wire, handed]; exact h.sent, ?_⟩
  · by_cases hj : j = i
    · rw [hj]; exact still.2.1
    · rw [htab j hj]; exact h.next j
  · by_cases hj : j = i
    · rw [hj]; exact still.2.2
    · rw [htab j hj]; exact h.buffer j
  · rw [wire, handed]
    refine h.window.modify_free (fun j hj => same j ?_) fun j hj => ?_
    · rintro rfl
      exact hj hfree
    · by_cases hji : j = i
      · rw [hji]; exact still.1
      · rw [same j hji]; exact hj

theorem RingAt.give {s t : Eth} (h : RingAt s) (room : s.handed.length < s.dma.wire.length + ethTxBufNb)
    (cur : t.dma.txCur = s.dma.txCur) (wire : t.dma.wire = s.dma.wire)
    (buff : t.txBuff = s.txBuff)
    (tab : t.dmaTxDscrTab = Function.update s.dmaTxDscrTab (slot ethTxBufNb s.handed.length)
      { s.dmaTxDscrTab (slot ethTxBufNb s.handed.length) with own := true })
    (handed : t.handed = s.handed ++ [segment (cell s (slot ethTxBufNb s.handed.length))]) : RingAt t := by
  refine ⟨fun j => ?_, fun j => ?_, by rw [cur, wire]; exact h.cur, ?_, ?_⟩
  · by_cases hj : j = slot ethTxBufNb s.handed.length
    · simp [tab, hj, h.next]
    · simp [tab, hj, h.next]
  · by_cases hj : j = slot ethTxBufNb s.handed.length
    · simp [tab, hj, h.buffer]
    · simp [tab, hj, h.buffer]
  · rw [wire, handed]
    exact h.sent.trans (List.prefix_append _ _)
  · have hmore : Window (cell s) (claim t.handed) s.dma.wire.length s.handed.length := by
      refine h.window.mono fun k _ hk hold => ⟨hold.1, ?_⟩
      rw [handed, List.getElem?_append_left hk]
      exact hold.2
    have hlen : t.handed.length = s.handed.length + 1 := by rw [handed]; simp
    rw [wire, hlen]
    refine hmore.push room (fun i hi => ?_) ⟨?_, ?_⟩
    · simp [cell, tab, buff, hi]
    · simp [cell, tab]
    · rw [handed, List.getElem?_append_right (Nat.le_refl _)]
      simp [segment, cell, tab, buff]

end Oinzen.Transmit
