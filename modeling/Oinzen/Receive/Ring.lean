import Oinzen.Ring.Window
import Oinzen.Hal.Dma

/-!
# The receive ring

Which descriptors the DMA has passed to the CPU, and which segments they hold. A position is the
number of segments filled before; `lo` is the first position not given back.
-/

namespace Oinzen.Receive

open Ring

def segs (s : Eth) : List RxSeg := s.dma.arrived.flatten ++ s.dma.arriving

def start (s : Eth) (k : Nat) : Nat := (s.dma.arrived.take k).flatten.length

def cell (s : Eth) (i : RxPtr) : RxDesc × (Nat → UInt8) := (s.dmaRxDscrTab i, s.rxBuff i)

def Holds (all : List RxSeg) (k : Nat) (c : RxDesc × (Nat → UInt8)) : Prop :=
  c.1.own = false ∧ ∃ seg, all[k]? = some seg ∧
    c.1.fs = seg.fs ∧ c.1.ls = seg.ls ∧ c.1.fl = seg.fl ∧ c.2 = seg.data

def Free (c : RxDesc × (Nat → UInt8)) : Prop := c.1.own = true

def claim (all : List RxSeg) : Claim Free where
  holds := Holds all
  apart k c h := by simp [Free, h.1]

structure Frame (f : List RxSeg) : Prop where
  nonempty : 0 < f.length
  fits : f.length ≤ ethRxBufNb
  fs : ∀ j seg, f[j]? = some seg → (seg.fs = true ↔ j = 0)
  ls : ∀ j seg, f[j]? = some seg → (seg.ls = true ↔ j + 1 = f.length)

structure Beginning (f : List RxSeg) : Prop where
  fits : f.length < ethRxBufNb
  fs : ∀ j seg, f[j]? = some seg → (seg.fs = true ↔ j = 0)
  ls : ∀ (j : Nat) (seg : RxSeg), f[j]? = some seg → seg.ls = false

structure RingAt (s : Eth) (lo : Nat) : Prop where
  next : ∀ i, (s.dmaRxDscrTab i).buffer2NextDescAddr = i + 1
  buffer : ∀ i, (s.dmaRxDscrTab i).buffer1Addr = i
  interrupts : ∀ i, (s.dmaRxDscrTab i).dic = false
  cur : s.dma.rxCur = slot ethRxBufNb (segs s).length
  window : Window (cell s) (claim (segs s)) lo (segs s).length
  frames : ∀ f ∈ s.dma.arrived, Frame f
  arriving : Beginning s.dma.arriving

/-! ## What the DMA does to the ring -/

def ringPart (s : Eth) := (s.dmaRxDscrTab, s.rxBuff, s.dma.rxCur, s.dma.arrived, s.dma.arriving)

theorem RingAt.congr {s t : Eth} {lo : Nat} (h : RingAt s lo) (same : ringPart t = ringPart s) :
    RingAt t lo := by
  simp only [ringPart, Prod.mk.injEq] at same
  obtain ⟨htab, hbuff, hcur, harr, hing⟩ := same
  have hsegs : segs t = segs s := by simp only [segs, harr, hing]
  have hcell : cell t = cell s := by funext i; simp only [cell, htab, hbuff]
  refine ⟨?_, ?_, ?_, ?_, ?_, ?_, ?_⟩
  · rw [htab]; exact h.next
  · rw [htab]; exact h.buffer
  · rw [htab]; exact h.interrupts
  · rw [hcur, hsegs]; exact h.cur
  · rw [hcell, hsegs]; exact h.window
  · rw [harr]; exact h.frames
  · rw [hing]; exact h.arriving

def filled (s : Eth) (ls : Bool) (fl : BitVec 14) (data : Nat → UInt8) : RxSeg :=
  ⟨s.dma.arriving.isEmpty, ls, fl, data⟩

theorem segs_fillRx (s : Eth) (ls : Bool) (fl : BitVec 14) (data : Nat → UInt8) :
    segs (s.fillRx ls fl data) = segs s ++ [filled s ls fl data] := by
  cases ls <;> simp [segs, Eth.fillRx, filled]

theorem Beginning.push {f : List RxSeg} (h : Beginning f) {seg : RxSeg} (fs : seg.fs = f.isEmpty)
    (j : Nat) (x : RxSeg) (hx : (f ++ [seg])[j]? = some x) :
    (x.fs = true ↔ j = 0) ∧ (j < f.length ∧ x.ls = false ∨ j = f.length ∧ x = seg) := by
  rcases Nat.lt_or_ge j f.length with hlt | hge
  · rw [List.getElem?_append_left hlt] at hx
    exact ⟨h.fs j x hx, .inl ⟨hlt, h.ls j x hx⟩⟩
  · rw [List.getElem?_append_right hge] at hx
    obtain ⟨hj, rfl⟩ : j - f.length = 0 ∧ seg = x := by
      rcases hd : j - f.length with _ | d
      · exact ⟨rfl, by simpa [hd] using hx⟩
      · simp [hd] at hx
    obtain rfl : j = f.length := by omega
    refine ⟨?_, .inr ⟨rfl, rfl⟩⟩
    rw [fs]
    cases f <;> simp

theorem RingAt.fill {s : Eth} {lo : Nat} (h : RingAt s lo) {strict ls : Bool} (fl : BitVec 14)
    (data : Nat → UInt8) (may : s.mayFill strict ls = true) : RingAt (s.fillRx ls fl data) lo := by
  simp only [Eth.mayFill, Bool.and_eq_true, Bool.or_eq_true, decide_eq_true_eq] at may
  obtain ⟨⟨hown, hfits⟩, -⟩ := may
  have hroom : (segs s).length < lo + ethRxBufNb := by
    refine h.window.room ?_
    rw [← h.cur]
    exact hown
  have hlen : (segs (s.fillRx ls fl data)).length = (segs s).length + 1 := by
    rw [segs_fillRx, List.length_append, List.length_singleton]
  have htab : ∀ i, ((s.fillRx ls fl data).dmaRxDscrTab i) =
      if i = s.dma.rxCur then
        { s.nextRx with own := false, fs := s.dma.arriving.isEmpty, ls := ls, fl := fl }
      else s.dmaRxDscrTab i := by
    intro i
    by_cases hi : i = s.dma.rxCur
    · subst hi; simp [Eth.fillRx, Eth.updateRxDesc, Eth.nextRx]
    · simp [Eth.fillRx, Eth.updateRxDesc, hi]
  refine ⟨?_, ?_, ?_, ?_, ?_, ?_, ?_⟩
  · intro i
    rw [htab]
    split
    · rename_i hi; rw [hi]; exact h.next _
    · exact h.next i
  · intro i
    rw [htab]
    split
    · rename_i hi; rw [hi]; exact h.buffer _
    · exact h.buffer i
  · intro i
    rw [htab]
    split
    · exact h.interrupts _
    · exact h.interrupts i
  · rw [hlen, ← slot_succ, ← h.cur]
    exact h.next _
  · rw [hlen]
    have hgrow : Window (cell s) (claim (segs (s.fillRx ls fl data))) lo (segs s).length := by
      refine h.window.mono fun k _ hk ⟨hcpu, seg, hseg, hrest⟩ => ⟨hcpu, seg, ?_, hrest⟩
      rw [segs_fillRx, List.getElem?_append_left hk]
      exact hseg
    refine hgrow.push hroom (fun i hi => ?_) ?_
    · rw [← h.cur] at hi
      refine Prod.ext ?_ ?_
      · simp [cell, htab, hi]
      · simp [cell, Eth.fillRx, Eth.nextRx, h.buffer, hi]
    · rw [← h.cur]
      refine ⟨by simp [cell, htab], filled s ls fl data, ?_, ?_⟩
      · rw [segs_fillRx, List.getElem?_append_right (Nat.le_refl _)]
        simp
      · simp [cell, filled, Eth.fillRx, Eth.updateRxDesc, Eth.nextRx, h.buffer]
  · intro f hf
    cases ls with
    | false => exact h.frames f hf
    | true =>
        simp only [Eth.fillRx, if_true, List.mem_append, List.mem_singleton] at hf
        rcases hf with hf | rfl
        · exact h.frames f hf
        · have hfits' := h.arriving.fits
          refine ⟨by simp, by simp; omega, fun j x hx => (h.arriving.push rfl j x hx).1, ?_⟩
          intro j x hx
          rcases (h.arriving.push rfl j x hx).2 with ⟨hj, hls⟩ | ⟨rfl, rfl⟩
          · simp [hls]; omega
          · simp
  · cases ls with
    | true => exact ⟨by simp [Eth.fillRx], by simp [Eth.fillRx], by simp [Eth.fillRx]⟩
    | false =>
        refine ⟨by simpa [Eth.fillRx] using hfits, ?_, ?_⟩
        · exact fun j x hx => (h.arriving.push rfl j x hx).1
        · intro j x hx
          rcases (h.arriving.push rfl j x hx).2 with ⟨-, hls⟩ | ⟨-, rfl⟩
          · exact hls
          · rfl

theorem RingAt.fire {s t : Eth} {lo : Nat} (h : RingAt s lo) {strict : Bool} {e : DmaEvent}
    (ht : s.fire strict e = some t) : RingAt t lo := by
  obtain ⟨ls, fl, data, may, rfl⟩ | ⟨-, -, rfl⟩ | ⟨-, rfl⟩ | ⟨_, _, _, _, rfl⟩ := Eth.fire_cases ht
  · exact h.fill fl data may
  · exact h.congr rfl
  · exact h.congr rfl
  · exact h.congr rfl

theorem RingAt.release {s : Eth} {lo : Nat} (h : RingAt s lo) (some : lo < (segs s).length) :
    RingAt (s.updateRxDesc (slot ethRxBufNb lo) fun d => { d with own := true }) (lo + 1) := by
  have htab : ∀ i, ((s.updateRxDesc (slot ethRxBufNb lo) fun d => { d with own := true }).dmaRxDscrTab i) =
      if i = slot ethRxBufNb lo then { s.dmaRxDscrTab i with own := true } else s.dmaRxDscrTab i := by
    intro i
    by_cases hi : i = slot ethRxBufNb lo
    · subst hi; simp [Eth.updateRxDesc]
    · simp [Eth.updateRxDesc, hi]
  refine ⟨?_, ?_, ?_, h.cur, ?_, h.frames, h.arriving⟩
  · intro i
    rw [htab]
    split <;> exact h.next i
  · intro i
    rw [htab]
    split <;> exact h.buffer i
  · intro i
    rw [htab]
    split <;> exact h.interrupts i
  · refine h.window.pop some (fun i hi => ?_) ?_
    · refine Prod.ext ?_ rfl
      simp [cell, htab, hi]
    · simp [Free, cell, htab]

/-! ## Frames and positions -/

theorem segs_eq_start (s : Eth) (k : Nat) :
    segs s = (s.dma.arrived.take k).flatten ++ ((s.dma.arrived.drop k).flatten ++ s.dma.arriving) := by
  rw [segs, ← List.append_assoc, ← List.flatten_append, List.take_append_drop]

theorem getElem?_start (s : Eth) (k j : Nat) :
    (segs s)[start s k + j]? = ((s.dma.arrived.drop k).flatten ++ s.dma.arriving)[j]? := by
  rw [segs_eq_start s k, start, List.getElem?_append_right (Nat.le_add_right _ _)]
  congr 1
  omega

def NoLast (s : Eth) (lo c : Nat) : Prop :=
  ∀ j, j < c → ∃ seg, (segs s)[lo + j]? = some seg ∧ seg.ls = false

theorem NoLast.lt_frame {s : Eth} {lo k c : Nat} (h : RingAt s lo) (hk : k < s.dma.arrived.length)
    (hc : NoLast s (start s k) c) : c < (s.dma.arrived[k]).length := by
  have hf := h.frames _ (List.getElem_mem hk)
  by_contra hge
  have hlast : (s.dma.arrived[k]).length - 1 < (s.dma.arrived[k]).length := by
    have := hf.nonempty; omega
  obtain ⟨seg, hseg, hls⟩ := hc ((s.dma.arrived[k]).length - 1) (by omega)
  rw [getElem?_start, List.drop_eq_getElem_cons hk, List.flatten_cons, List.append_assoc,
    List.getElem?_append_left hlast] at hseg
  have := (hf.ls _ _ hseg).mpr (by omega)
  rw [hls] at this
  exact Bool.false_ne_true this

theorem getElem?_frame {s : Eth} {k j : Nat} (hk : k < s.dma.arrived.length)
    (hj : j < (s.dma.arrived[k]).length) :
    (segs s)[start s k + j]? = (s.dma.arrived[k])[j]? := by
  rw [getElem?_start, List.drop_eq_getElem_cons hk, List.flatten_cons, List.append_assoc,
    List.getElem?_append_left hj]

theorem getElem?_arriving (s : Eth) (j : Nat) :
    (segs s)[start s s.dma.arrived.length + j]? = s.dma.arriving[j]? := by
  simp [getElem?_start]

theorem NoLast.fits {s : Eth} {lo k c : Nat} (h : RingAt s lo) (hk : k ≤ s.dma.arrived.length)
    (hc : NoLast s (start s k) c) : c < ethRxBufNb := by
  rcases Nat.lt_or_eq_of_le hk with hlt | rfl
  · have := hc.lt_frame h hlt
    have := (h.frames _ (List.getElem_mem hlt)).fits
    omega
  · have := h.arriving.fits
    by_contra hge
    obtain ⟨seg, hseg, -⟩ := hc s.dma.arriving.length (by omega)
    simp [getElem?_arriving] at hseg

theorem NoLast.frame_of_last {s : Eth} {lo k c : Nat} (h : RingAt s lo) (hk : k ≤ s.dma.arrived.length)
    (hc : NoLast s (start s k) c) {seg : RxSeg} (hseg : (segs s)[start s k + c]? = some seg)
    (hls : seg.ls = true) : ∃ f, s.dma.arrived[k]? = some f ∧ f.length = c + 1 ∧ f[c]? = some seg := by
  rcases Nat.lt_or_eq_of_le hk with hlt | rfl
  · have hf := h.frames _ (List.getElem_mem hlt)
    have hshort := hc.lt_frame h hlt
    rw [getElem?_frame hlt hshort] at hseg
    exact ⟨_, List.getElem?_eq_getElem hlt, ((hf.ls _ _ hseg).mp hls).symm, hseg⟩
  · rw [getElem?_arriving] at hseg
    have := h.arriving.ls _ _ hseg
    rw [hls] at this
    exact absurd this.symm Bool.false_ne_true

theorem NoLast.fs_iff {s : Eth} {lo k c : Nat} (h : RingAt s lo) (hk : k ≤ s.dma.arrived.length)
    (hc : NoLast s (start s k) c) {seg : RxSeg} (hseg : (segs s)[start s k + c]? = some seg) :
    seg.fs = true ↔ c = 0 := by
  rcases Nat.lt_or_eq_of_le hk with hlt | rfl
  · rw [getElem?_frame hlt (hc.lt_frame h hlt)] at hseg
    exact (h.frames _ (List.getElem_mem hlt)).fs _ _ hseg
  · rw [getElem?_arriving] at hseg
    exact h.arriving.fs _ _ hseg

theorem NoLast.all_taken {s : Eth} {lo k c : Nat} (h : RingAt s lo) (hk : k ≤ s.dma.arrived.length)
    (hc : NoLast s (start s k) c) (hend : (segs s).length ≤ start s k + c) :
    k = s.dma.arrived.length := by
  rcases Nat.lt_or_eq_of_le hk with hlt | heq
  · have hshort := hc.lt_frame h hlt
    have hin : ((s.dma.arrived[k])[c]?).isSome := by simp [hshort]
    rw [← getElem?_frame hlt hshort, List.getElem?_eq_none hend] at hin
    cases hin
  · exact heq

end Oinzen.Receive
