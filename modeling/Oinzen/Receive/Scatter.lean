import Oinzen.Interference.Frame
import Oinzen.Interference.Twin
import Oinzen.Receive.Others
import Oinzen.Driver.Start

/-!
# One call of `low_level_input`

A frame that the DMA has stored in some descriptors is copied to a chain of pbufs of any lengths, while
the DMA goes on with the other descriptors.
-/

namespace Oinzen

open Ring Interference Relation

namespace Scatter

open Receive Prog

/-- The buffer of a descriptor is its own, and the descriptors are in a circle. -/
structure Linked (s : Eth) : Prop where
  next : ∀ i, (s.dmaRxDscrTab i).buffer2NextDescAddr = i + 1
  buffer : ∀ i, (s.dmaRxDscrTab i).buffer1Addr = i

def segments (frame : List UInt8) : Nat := (frame.length + ethRxBufSize - 1) / ethRxBufSize

/-- The DMA has stored the frame, all buffers full but the last. -/
structure Stored (b : Nat) (frame : List UInt8) (s : Eth) : Prop where
  linked : Linked s
  long : 4 < frame.length
  fits : segments frame ≤ ethRxBufNb
  own : ∀ j, j < segments frame → (s.dmaRxDscrTab (slot ethRxBufNb (b + j))).own = false
  fs : ∀ j, j < segments frame → ((s.dmaRxDscrTab (slot ethRxBufNb (b + j))).fs = true ↔ j = 0)
  ls : ∀ j, j < segments frame → ((s.dmaRxDscrTab (slot ethRxBufNb (b + j))).ls = true ↔ j + 1 = segments frame)
  fl : (s.dmaRxDscrTab (slot ethRxBufNb (b + (segments frame - 1)))).fl.toNat = frame.length
  data : ∀ m, m < frame.length →
    frame[m]? = some (s.rxBuff (slot ethRxBufNb (b + m / ethRxBufSize)) (m % ethRxBufSize))

structure Reads (b : Nat) (frame : List UInt8) (lens : List Nat) (e : Memcpy ethRxBufNb) : Prop where
  buffer : ∃ j, j < segments frame ∧ j * ethRxBufSize < frame.length - 4 ∧ e.buffer = slot ethRxBufNb (b + j)
  fits : e.bufferoffset + e.n ≤ ethRxBufSize
  pbuf : e.len ∈ lens ∧ e.payloadoffset + e.n ≤ e.len
  own : ∀ j, j < segments frame → e.own (slot ethRxBufNb (b + j)) = false

def Besides (s t : Eth) : Prop := (∃ e, s.fire false e = some t) ∨ IrqKeeps s t

structure Spares (s t : Eth) : Prop extends Bystands s t where
  linked : Linked s → Linked t
  desc : ∀ i, (s.dmaRxDscrTab i).own = false → t.dmaRxDscrTab i = s.dmaRxDscrTab i
  buff : Linked s → ∀ i, (s.dmaRxDscrTab i).own = false → t.rxBuff i = s.rxBuff i

theorem Spares.of_rx {s t : Eth} (h : Bystands s t) (tab : t.dmaRxDscrTab = s.dmaRxDscrTab)
    (buff : t.rxBuff = s.rxBuff) : Spares s t where
  toBystands := h
  linked hl := ⟨by rw [tab]; exact hl.next, by rw [tab]; exact hl.buffer⟩
  desc i _ := congrFun tab i
  buff _ i _ := congrFun buff i

theorem Besides.spares {s t : Eth} (h : Besides s t) : Spares s t := by
  rcases h with he | hirq
  · obtain ⟨e, he⟩ := he
    have hby := bystands_of_fire he
    obtain ⟨ls, fl, data, may, rfl⟩ | ⟨-, -, rfl⟩ | ⟨-, rfl⟩ | ⟨_, _, _, _, rfl⟩ := Eth.fire_cases he
    · simp only [Eth.mayFill, Bool.and_eq_true] at may
      have hne : ∀ i, (s.dmaRxDscrTab i).own = false → i ≠ s.dma.rxCur := by
        rintro i hi rfl
        exact Bool.false_ne_true (hi.symm.trans may.1.1)
      refine ⟨hby, fun h => ⟨fun i => ?_, fun i => ?_⟩, fun i hi => ?_, fun h i hi => ?_⟩
      · by_cases hi : i = s.dma.rxCur <;> simp [Eth.fillRx, Eth.updateRxDesc, hi, h.next]
      · by_cases hi : i = s.dma.rxCur <;> simp [Eth.fillRx, Eth.updateRxDesc, hi, h.buffer]
      · simp [Eth.fillRx, Eth.updateRxDesc, hne i hi]
      · simp [Eth.fillRx, Eth.nextRx, h.buffer, hne i hi]
    · exact .of_rx hby rfl rfl
    · exact .of_rx hby rfl rfl
    · exact .of_rx hby rfl rfl
  · have hby := bystands_of_irq hirq
    obtain ⟨_, _, _, _, rfl, -⟩ := hirq
    exact .of_rx hby rfl rfl

section

variable {b : Nat} {frame : List UInt8} {s t : Eth}

theorem lt_segments {d : Nat} : d < segments frame ↔ d * ethRxBufSize < frame.length := by
  unfold segments ethRxBufSize
  omega

theorem Stored.segments_pos (h : Stored b frame s) : 0 < segments frame := by
  rw [lt_segments, Nat.zero_mul]
  exact Nat.zero_lt_of_lt h.long

theorem Stored.length_lt (h : Stored b frame s) : frame.length < 2 ^ 14 := by
  rw [← h.fl]
  exact (s.dmaRxDscrTab (slot ethRxBufNb (b + (segments frame - 1)))).fl.isLt

theorem Stored.spared (h : Stored b frame s) (hspares : Spares s t) : Stored b frame t := by
  have hdesc : ∀ j, j < segments frame →
      t.dmaRxDscrTab (slot ethRxBufNb (b + j)) = s.dmaRxDscrTab (slot ethRxBufNb (b + j)) :=
    fun j hj => hspares.desc _ (h.own j hj)
  refine ⟨hspares.linked h.linked, h.long, h.fits, fun j hj => ?_, fun j hj => ?_, fun j hj => ?_, ?_, fun m hm => ?_⟩
  · rw [hdesc j hj]
    exact h.own j hj
  · rw [hdesc j hj]
    exact h.fs j hj
  · rw [hdesc j hj]
    exact h.ls j hj
  · rw [hdesc _ (Nat.sub_one_lt_of_lt h.segments_pos)]
    exact h.fl
  · have hj : m / ethRxBufSize < segments frame := by
      rw [lt_segments]
      exact Nat.lt_of_le_of_lt (Nat.div_mul_le_self _ _) hm
    rw [hspares.buff h.linked _ (h.own _ hj)]
    exact h.data m hm

end

/-! ## Finding the frame -/

structure Found (b : Nat) (frame : List UInt8) (status : HalStatus) (s : Eth) : Prop where
  status : status = .ok
  fsRxDesc : s.heth.rxFrameInfos.fsRxDesc = some (slot ethRxBufNb b)
  lsRxDesc : s.heth.rxFrameInfos.lsRxDesc = some (slot ethRxBufNb (b + (segments frame - 1)))
  segCount : s.heth.rxFrameInfos.segCount = segments frame

structure Scanning (b : Nat) (frame : List UInt8) (log : List (Memcpy ethRxBufNb)) (i : RxPtr) (x : RxFrameInfos)
    (s : Eth) : Prop extends Stored b frame s where
  copiedIn : s.copiedIn = log
  rxDesc : s.heth.rxDesc = i
  infos : s.heth.rxFrameInfos = x

def lastInfos (i : RxPtr) (fl : BitVec 14) (x : RxFrameInfos) : RxFrameInfos :=
  let fsRxDesc := if x.segCount = 0 then some i else x.fsRxDesc
  ⟨fsRxDesc, some i, x.segCount + 1, .ofNat fl.toNat - 4, fsRxDesc <|> x.buffer⟩

section

variable {b : Nat} {frame : List UInt8} {log : List (Memcpy ethRxBufNb)} {i : RxPtr} {x : RxFrameInfos} {d : RxDesc}
  {s : Eth}

theorem scanning_stable : Stable (beside Besides).rely (Scanning b frame log i x) := by
  intro s t r h
  have hspares := Besides.spares r
  exact ⟨h.spared hspares, hspares.copiedIn.trans h.copiedIn, hspares.rxDesc.trans h.rxDesc,
    hspares.infos.trans h.infos⟩

theorem seen_stable : Stable (beside Besides).rely fun s =>
    Scanning b frame log i x s ∧ s.dmaRxDscrTab i = d ∧ d.own = false := by
  intro s t r h
  obtain ⟨h, rfl, hown⟩ := h
  exact ⟨scanning_stable r h, (Besides.spares r).desc i hown, hown⟩

theorem Scanning.update (h : Scanning b frame log i x s) {t : Eth} (i' : RxPtr) (x' : RxFrameInfos)
    (tab : t.dmaRxDscrTab = s.dmaRxDscrTab) (buff : t.rxBuff = s.rxBuff) (copiedIn : t.copiedIn = s.copiedIn)
    (rxDesc : t.heth.rxDesc = i') (infos : t.heth.rxFrameInfos = x') : Scanning b frame log i' x' t := by
  obtain ⟨⟨hlinked, hlong, hfits, hown, hfs, hls, hfl, hdata⟩, hlog, -, -⟩ := h
  refine ⟨⟨⟨?_, ?_⟩, hlong, hfits, ?_, ?_, ?_, ?_, ?_⟩, copiedIn.trans hlog, rxDesc, infos⟩
  all_goals simp only [tab, buff]
  exacts [hlinked.next, hlinked.buffer, hown, hfs, hls, hfl, hdata]

theorem scanning_modify {α : Type} {u : Eth → Eth} {k : Unit → Code Eth α} {Q : α → Eth → Prop}
    (h : Scanning b frame log i x s) (i' : RxPtr) (x' : RxFrameInfos)
    (update : ∀ t, Scanning b frame log i x t → Scanning b frame log i' x' (u t))
    (next : ∀ t, Scanning b frame log i' x' t → (k ()).Safe (beside Besides) Q t) :
    (modify u >>= k).Safe (beside Besides) Q s :=
  beside_modify scanning_stable h fun t ht => next _ (update t ht)

theorem seen_modify {α : Type} {u : Eth → Eth} {k : Unit → Code Eth α} {Q : α → Eth → Prop}
    (h : Scanning b frame log i x s ∧ s.dmaRxDscrTab i = d ∧ d.own = false)
    (tab : ∀ t, (u t).dmaRxDscrTab = t.dmaRxDscrTab) (x' : RxFrameInfos)
    (update : ∀ t, Scanning b frame log i x t → t.dmaRxDscrTab i = d → Scanning b frame log i x' (u t))
    (next : ∀ t, Scanning b frame log i x' t ∧ t.dmaRxDscrTab i = d ∧ d.own = false →
      (k ()).Safe (beside Besides) Q t) :
    (modify u >>= k).Safe (beside Besides) Q s := by
  refine beside_modify seen_stable h fun t ht => next _ ⟨update t ht.1 ht.2.1, ?_, ht.2.2⟩
  rw [tab]
  exact ht.2.1

theorem halReturn_safe {P : Eth → Prop} (state : HalEthState) (status : HalStatus)
    (stable : Stable (beside Besides).rely P) (hs : P s) (update : ∀ t lock state,
      P t → P { t with heth.lock := lock, heth.state := state }) :
    (halReturn state status).Safe (beside Besides) (fun r t => r = status ∧ P t) s := by
  refine beside_modify stable hs fun t ht => ?_
  refine beside_modify stable (update t t.heth.lock state ht) fun t ht => ?_
  exact safe_ret ((Stable.const _).and stable) ⟨rfl, update t false t.heth.state ht⟩

theorem takeLast_safe (h : Scanning b frame log i x s ∧ s.dmaRxDscrTab i = d ∧ d.own = false) :
    takeLast.Safe (beside Besides) (fun r t => r = .ok ∧ ∃ j,
      Scanning b frame log j (lastInfos i d.fl x) t ∧ t.dmaRxDscrTab i = d ∧ d.own = false) s := by
  refine seen_modify h (fun _ => rfl) { x with lsRxDesc := some i }
    (fun t ht _ => ht.update _ _ rfl rfl rfl ht.rxDesc (by simp [ht.infos, ht.rxDesc])) fun t ht => ?_
  refine seen_modify ht (fun _ => rfl) { x with lsRxDesc := some i, segCount := x.segCount + 1 }
    (fun t ht _ => ht.update _ _ rfl rfl rfl ht.rxDesc (by simp [ht.infos])) fun t ht => ?_
  refine beside_get seen_stable ht fun t ht => ?_
  refine .seq (fun _ t => Scanning b frame log i { x with
    fsRxDesc := if x.segCount = 0 then some i else x.fsRxDesc, lsRxDesc := some i, segCount := x.segCount + 1 } t ∧
      t.dmaRxDscrTab i = d ∧ d.own = false) ?_ fun _ t ht => ?_
  · simp only [ht.1.infos, Nat.add_eq_right]
    by_cases hfirst : x.segCount = 0
    · simp only [hfirst, decide_true, when_true, if_true]
      exact seen_modify (k := ret) ht (fun _ => rfl) _
        (fun t ht _ => ht.update _ _ rfl rfl rfl ht.rxDesc (by simp [ht.infos, ht.rxDesc, hfirst]))
        fun t ht => safe_ret seen_stable ht
    · simp only [hfirst, decide_false, when_false, if_false]
      exact safe_ret seen_stable ht
  refine seen_modify ht (fun _ => rfl) { x with
    fsRxDesc := if x.segCount = 0 then some i else x.fsRxDesc, lsRxDesc := some i, segCount := x.segCount + 1
    length := .ofNat d.fl.toNat - 4 }
    (fun t ht hd => ht.update _ _ rfl rfl rfl ht.rxDesc (by simp [ht.infos, Eth.rxDesc, ht.rxDesc, hd]))
    fun t ht => ?_
  refine seen_modify ht (fun t => by dsimp only; split <;> rfl) (lastInfos i d.fl x) (fun t ht _ => ?_) fun t ht => ?_
  · have hfs : t.heth.rxFrameInfos.fsRxDesc = if x.segCount = 0 then some i else x.fsRxDesc := by rw [ht.infos]
    cases hcase : (if x.segCount = 0 then some i else x.fsRxDesc) with
    | none =>
        simp only [hfs, hcase]
        exact ht.update _ _ rfl rfl rfl ht.rxDesc (by simp [ht.infos, lastInfos, hcase])
    | some j =>
        simp only [hfs, hcase]
        exact ht.update _ _ rfl rfl rfl ht.rxDesc (by simp [ht.infos, lastInfos, hcase, ht.linked.buffer])
  refine beside_modify seen_stable ht fun t ht => ?_
  have hstable : Stable (beside Besides).rely fun t => ∃ j,
      Scanning b frame log j (lastInfos i d.fl x) t ∧ t.dmaRxDscrTab i = d ∧ d.own = false := by
    intro s t r h
    obtain ⟨j, h, rfl, hown⟩ := h
    exact ⟨j, scanning_stable r h, (Besides.spares r).desc i hown, hown⟩
  refine halReturn_safe .ready .ok hstable ⟨_, ht.1.update _ _ rfl rfl rfl rfl ht.1.infos, ht.2⟩ ?_
  rintro t lock state ⟨j, ht, hd⟩
  exact ⟨j, ht.update _ _ rfl rfl rfl ht.rxDesc ht.infos, hd⟩

theorem Scanning.move (h : Scanning b frame log i x s) :
    Scanning b frame log (i + 1) x { s with heth.rxDesc := s.rxDesc.buffer2NextDescAddr } :=
  h.update _ _ rfl rfl rfl (by simp [Eth.rxDesc, h.rxDesc, h.linked.next]) h.infos

/-- However the scan ends it has only looked at the ring, and a frame that it finds ends at a descriptor it has seen. -/
def Scanned (b : Nat) (frame : List UInt8) (log : List (Memcpy ethRxBufNb)) (status : HalStatus) (t : Eth) : Prop :=
  ∃ j y, Scanning b frame log j y t ∧ (status = .ok → ∃ i x, y = lastInfos i (t.dmaRxDscrTab i).fl x)

theorem giveUp_safe (h : Scanning b frame log i x s) :
    (halReturn .ready .error).Safe (beside Besides) (Scanned b frame log) s := by
  have hreturn := halReturn_safe .ready .error scanning_stable h fun t lock state ht =>
    ht.update (t := { t with heth.lock := lock, heth.state := state }) _ _ rfl rfl rfl ht.rxDesc ht.infos
  refine hreturn.mono fun r t ⟨hr, ht⟩ => ⟨i, x, ht, fun hok => ?_⟩
  exact nomatch hok.symm.trans hr

theorem scan_scanned (n : Nat) (h : Scanning b frame log i x s) :
    (scanDescriptors n).Safe (beside Besides) (Scanned b frame log) s := by
  induction n generalizing i x s with
  | zero => exact beside_get scanning_stable h fun t ht => giveUp_safe ht
  | succ n ih =>
      refine beside_get scanning_stable h fun t ht => ?_
      split
      · exact giveUp_safe ht
      rename_i hown
      rw [Eth.rxDesc, ht.rxDesc] at hown
      obtain ⟨d, hd⟩ : ∃ d, t.dmaRxDscrTab i = d := ⟨_, rfl⟩
      rw [hd] at hown
      refine beside_get seen_stable ⟨ht, hd, by simpa using hown⟩ fun t ht => ?_
      split
      · refine seen_modify ht (fun _ => rfl) { x with fsRxDesc := some i }
          (fun t ht _ => ht.update _ _ rfl rfl rfl ht.rxDesc (by simp [ht.infos, ht.rxDesc])) fun t ht => ?_
        refine seen_modify ht (fun _ => rfl) { x with fsRxDesc := some i, segCount := 1 }
          (fun t ht _ => ht.update _ _ rfl rfl rfl ht.rxDesc (by simp [ht.infos])) fun t ht => ?_
        exact beside_modify scanning_stable ht.1 fun t ht => ih ht.move
      refine beside_get seen_stable ht fun t ht => ?_
      split
      · refine seen_modify ht (fun _ => rfl) { x with segCount := x.segCount + 1 }
          (fun t ht _ => ht.update _ _ rfl rfl rfl ht.rxDesc (by simp [ht.infos])) fun t ht => ?_
        exact beside_modify scanning_stable ht.1 fun t ht => ih ht.move
      · refine (takeLast_safe ht).mono fun r t hlast => ?_
        obtain ⟨-, j, ht, rfl, -⟩ := hlast
        exact ⟨j, _, ht, fun _ => ⟨i, x, rfl⟩⟩

theorem getReceivedFrame_scanned (stored : Stored b frame s) :
    halEthGetReceivedFrameIt.Safe (beside Besides) (Scanned b frame s.copiedIn) s := by
  have hstart : Scanning b frame s.copiedIn s.heth.rxDesc s.heth.rxFrameInfos s := ⟨stored, rfl, rfl, rfl⟩
  refine beside_get scanning_stable hstart fun t ht => ?_
  split
  · have hstable : Stable (beside Besides).rely (Scanned b frame s.copiedIn .busy) :=
      fun _ _ r ⟨j, y, h, _⟩ => ⟨j, y, scanning_stable r h, nofun⟩
    exact safe_ret hstable ⟨_, _, ht, nofun⟩
  refine scanning_modify ht _ _ (fun t ht => ht.update _ _ rfl rfl rfl ht.rxDesc ht.infos) fun t ht => ?_
  refine scanning_modify ht _ _ (fun t ht => ht.update _ _ rfl rfl rfl ht.rxDesc ht.infos) fun t ht => ?_
  exact scan_scanned _ ht

structure Partway (b : Nat) (frame : List UInt8) (j : Nat) (x : RxFrameInfos) : Prop where
  within : j < segments frame
  segCount : x.segCount = j
  fsRxDesc : 0 < j → x.fsRxDesc = some (slot ethRxBufNb b)

theorem scan_found (n : Nat) {j : Nat} (hn : segments frame ≤ j + n)
    (h : Scanning b frame log (slot ethRxBufNb (b + j)) x s) (hx : Partway b frame j x) :
    (scanDescriptors n).Safe (beside Besides) (fun r t => Found b frame r t) s := by
  induction n generalizing j x s with
  | zero =>
      have := hx.within
      omega
  | succ n ih =>
      have hnext : slot ethRxBufNb (b + j) + 1 = slot ethRxBufNb (b + (j + 1)) := slot_succ _
      refine beside_get scanning_stable h fun t ht => ?_
      have hown := ht.own j hx.within
      rw [Eth.rxDesc, ht.rxDesc, hown, if_neg Bool.false_ne_true]
      refine beside_get scanning_stable ht fun t ht => ?_
      have hfs := ht.fs j hx.within
      have hls := ht.ls j hx.within
      rw [Eth.rxDesc, ht.rxDesc]
      split
      · -- the first of several
        rename_i hfirst
        rw [Bool.and_eq_true, Bool.not_eq_true', hfs] at hfirst
        obtain ⟨rfl, hlast⟩ := hfirst
        refine scanning_modify ht _ { x with fsRxDesc := some (slot ethRxBufNb b) }
          (fun t ht => ht.update _ _ rfl rfl rfl ht.rxDesc (by simp [ht.infos, ht.rxDesc])) fun t ht => ?_
        refine scanning_modify ht _ { x with fsRxDesc := some (slot ethRxBufNb b), segCount := 1 }
          (fun t ht => ht.update _ _ rfl rfl rfl ht.rxDesc (by simp [ht.infos])) fun t ht => ?_
        refine scanning_modify ht _ _ (fun t ht => ht.move) fun t ht => ?_
        rw [hnext] at ht
        have hmore : 0 + 1 ≠ segments frame := fun he => Bool.false_ne_true (hlast.symm.trans (hls.mpr he))
        have := hx.within
        exact ih (by omega) ht ⟨by omega, rfl, fun _ => rfl⟩
      rename_i hfirst
      refine beside_get scanning_stable ht fun t ht => ?_
      have hfs' := ht.fs j hx.within
      have hls' := ht.ls j hx.within
      rw [Eth.rxDesc, ht.rxDesc]
      split
      · -- one in between
        rename_i hmiddle
        rw [Bool.and_eq_true, Bool.not_eq_true', Bool.not_eq_true'] at hmiddle
        obtain ⟨hlast, hnot⟩ := hmiddle
        have hj : 0 < j := Nat.pos_of_ne_zero fun hzero => Bool.false_ne_true (hnot.symm.trans (hfs'.mpr hzero))
        have hmore : j + 1 ≠ segments frame := fun he => Bool.false_ne_true (hlast.symm.trans (hls'.mpr he))
        refine scanning_modify ht _ { x with segCount := x.segCount + 1 }
          (fun t ht => ht.update _ _ rfl rfl rfl ht.rxDesc (by simp [ht.infos])) fun t ht => ?_
        refine scanning_modify ht _ _ (fun t ht => ht.move) fun t ht => ?_
        rw [hnext] at ht
        have := hx.within
        exact ih (by omega) ht ⟨by omega, congrArg (· + 1) hx.segCount, fun _ => hx.fsRxDesc hj⟩
      · -- the last one
        rename_i hmiddle
        have hlast : j + 1 = segments frame := by
          by_contra hmore
          have hls := Bool.eq_false_of_not_eq_true (mt hls.mp hmore)
          have hls' := Bool.eq_false_of_not_eq_true (mt hls'.mp hmore)
          rcases Nat.eq_zero_or_pos j with rfl | hj
          · exact hfirst (by rw [hfs.mpr rfl, hls]; rfl)
          · exact hmiddle (by rw [Bool.eq_false_of_not_eq_true (mt hfs'.mp (Nat.ne_of_gt hj)), hls']; rfl)
        obtain ⟨d, hd⟩ : ∃ d, t.dmaRxDscrTab (slot ethRxBufNb (b + j)) = d := ⟨_, rfl⟩
        have hown := ht.own j hx.within
        rw [hd] at hown
        refine (takeLast_safe ⟨ht, hd, hown⟩).mono fun r t hend => ?_
        obtain ⟨hr, _, ht, -⟩ := hend
        refine ⟨hr, ?_, ?_, ?_⟩
        all_goals rw [ht.infos, lastInfos]
        · rcases Nat.eq_zero_or_pos j with rfl | hj
          · rw [if_pos hx.segCount, Nat.add_zero]
          · rw [if_neg (by rw [hx.segCount]; omega), hx.fsRxDesc hj]
        · rw [← hlast, Nat.add_sub_cancel]
        · exact (congrArg (· + 1) hx.segCount).trans hlast

theorem getReceivedFrame_found {j : Nat} (stored : Stored b frame s) (unlocked : s.heth.lock = false)
    (rxDesc : s.heth.rxDesc = slot ethRxBufNb (b + j)) (partway : Partway b frame j s.heth.rxFrameInfos)
    {r : HalStatus} {t : Eth} (run : Runs Besides halEthGetReceivedFrameIt s r t) : Found b frame r t := by
  have hstable : Stable (beside Besides).rely fun t => t.heth.lock = false ∧
      Scanning b frame s.copiedIn (slot ethRxBufNb (b + j)) s.heth.rxFrameInfos t := by
    refine Stable.and (fun s t r h => ?_) scanning_stable
    exact Bool.eq_false_of_not_eq_true fun hlock => Bool.false_ne_true (h.symm.trans ((Besides.spares r).lock hlock))
  refine Safe.runs (Q := fun r t => Found b frame r t) ?_ run
  refine beside_get hstable ⟨unlocked, stored, rfl, rxDesc, rfl⟩ fun t ht => ?_
  rw [ht.1, if_neg Bool.false_ne_true]
  refine scanning_modify ht.2 _ _ (fun t ht => ht.update _ _ rfl rfl rfl ht.rxDesc ht.infos) fun t ht => ?_
  refine scanning_modify ht _ _ (fun t ht => ht.update _ _ rfl rfl rfl ht.rxDesc ht.infos) fun t ht => ?_
  have := stored.fits
  exact scan_found _ (by omega) ht partway

end

/-! ## The copy -/

structure Reading (b : Nat) (frame : List UInt8) (lens : List Nat) (log : List (Memcpy ethRxBufNb)) (s : Eth) : Prop
    extends Stored b frame s where
  copiedIn : ∃ new, s.copiedIn = log ++ new ∧ ∀ e ∈ new, Reads b frame lens e

structure Stands (b : Nat) (frame : List UInt8) (d m : Nat) (c : CopyIn) : Prop where
  desc : c.dmarxdesc = slot ethRxBufNb (b + d)
  buffer : c.buffer = slot ethRxBufNb (b + d)
  offset : m = d * ethRxBufSize + c.bufferoffset
  fits : c.bufferoffset ≤ ethRxBufSize
  within : d * ethRxBufSize < frame.length - 4

def Filled (frame : List UInt8) (m n : Nat) (q : Pbuf) : Prop := ∀ i, i < n → frame[m + i]? = some (q.payload i)

section

variable {b d m po left : Nat} {frame : List UInt8} {lens : List Nat} {log : List (Memcpy ethRxBufNb)} {s t : Eth}
  {q : Pbuf} {c : CopyIn}

theorem reading_stable : Stable (beside Besides).rely (Reading b frame lens log) := by
  intro s t r h
  have hspares := Besides.spares r
  exact ⟨h.spared hspares, by rw [hspares.copiedIn]; exact h.copiedIn⟩

theorem Reading.copy (h : Reading b frame lens log s) (q : Pbuf) (po : Nat) (hc : Stands b frame d m c) {n : Nat}
    (hfit : c.bufferoffset + n ≤ ethRxBufSize) (hlen : q.len ∈ lens ∧ po + n ≤ q.len) :
    Reading b frame lens log { s with
      copiedIn := s.copiedIn ++ [⟨c.buffer, c.bufferoffset, q.len, po, n, fun i => (s.dmaRxDscrTab i).own⟩] } := by
  obtain ⟨new, hnew, hreads⟩ := h.copiedIn
  have hd : d < segments frame := by
    rw [lt_segments]
    have := hc.within
    omega
  have hread : Reads b frame lens ⟨c.buffer, c.bufferoffset, q.len, po, n, fun i => (s.dmaRxDscrTab i).own⟩ :=
    ⟨⟨d, hd, hc.within, hc.buffer⟩, hfit, hlen, h.own⟩
  refine { h with linked := ⟨h.linked.next, h.linked.buffer⟩, copiedIn := ?_ }
  refine ⟨_, (congrArg (· ++ _) hnew).trans (List.append_assoc _ _ _), ?_⟩
  exact List.forall_mem_append.mpr ⟨hreads, List.forall_mem_singleton.mpr hread⟩

theorem Filled.copy (h : Filled frame m po q) (stored : Stored b frame s) (hc : Stands b frame d (m + po) c) {n : Nat}
    (hfit : c.bufferoffset + n ≤ ethRxBufSize) (hin : m + po + n ≤ frame.length) :
    Filled frame m (po + n) { q with payload := memcpy q.payload po (s.rxBuff c.buffer) c.bufferoffset n } := by
  intro i hi
  simp only [memcpy]
  by_cases hnew : po ≤ i
  · have hdata := stored.data (m + i) (by omega)
    have hoffset := hc.offset
    unfold ethRxBufSize at *
    rw [hdata, if_pos ⟨hnew, hi⟩, hc.buffer, show (m + i) / 2016 = d by omega,
      show (m + i) % 2016 = c.bufferoffset + (i - po) by omega]
  · rw [if_neg (by omega)]
    exact h i (by omega)

theorem fillPbuf_reads (q : Pbuf) (c : CopyIn) (po left : Nat) {d : Nat} (h : Reading b frame lens log s)
    (hlen : q.len ∈ lens) (hleft : po + left = q.len) (hin : m + q.len ≤ frame.length - 4)
    (hfilled : Filled frame m po q) (hc : Stands b frame d (m + po) c) :
      (fillPbuf q c po left).Safe (beside Besides) (fun x t =>
      Reading b frame lens log t ∧ x.1.len = q.len ∧ Filled frame m q.len x.1 ∧
      ∃ d, Stands b frame d (m + q.len) x.2) s := by
  induction q, c, po, left using fillPbuf.induct generalizing s d with
  | case1 q c po left hmore room =>
      rename_i ih
      have hfits := hc.fits
      have hoffset := hc.offset
      have hroom : room = ethRxBufSize - c.bufferoffset := rfl
      have hfull : c.bufferoffset + room ≤ ethRxBufSize := by omega
      have hsucc := Nat.add_one_mul d ethRxBufSize
      rw [fillPbuf, dif_pos hmore]
      refine safe_act reading_stable h fun t ht _ => ⟨trivial, ?_⟩
      have hread := ht.copy q po hc (n := room) hfull ⟨hlen, by omega⟩
      have hfilled := hfilled.copy ht.toStored hc hfull (by omega)
      refine beside_get reading_stable hread fun t ht => ?_
      rw [ht.linked.next, hc.desc, slot_succ]
      refine beside_get reading_stable ht fun t ht => ?_
      rw [ht.linked.buffer]
      have hnext : Stands b frame (d + 1) (m + (po + room))
          ⟨slot ethRxBufNb (b + d + 1), slot ethRxBufNb (b + d + 1), 0⟩ :=
        ⟨rfl, rfl, by dsimp only; omega, Nat.zero_le _, by omega⟩
      have hsame : po + room + (left - room) = q.len := by omega
      exact ih _ _ _ ht hlen hsame hin hfilled hnext
  | case2 q c po left hlast =>
      have hfit : c.bufferoffset + left ≤ ethRxBufSize := by omega
      have hoffset := hc.offset
      rw [fillPbuf, dif_neg hlast]
      refine safe_act reading_stable h fun t ht _ => ⟨trivial, ?_⟩
      have hread := ht.copy q po hc hfit ⟨hlen, by omega⟩
      have hfilled := hfilled.copy ht.toStored hc hfit (by omega)
      rw [hleft] at hfilled
      have hstays : Stands b frame d (m + q.len) { c with bufferoffset := c.bufferoffset + left } :=
        ⟨hc.desc, hc.buffer, by dsimp only; omega, hfit, hc.within⟩
      exact safe_ret (reading_stable.and (.const _)) ⟨hread, rfl, hfilled, d, hstays⟩

theorem bytes_of_filled (h : Filled frame m q.len q) : bytes q.payload q.len = (frame.drop m).take q.len := by
  refine List.ext_getElem? fun i => ?_
  by_cases hi : i < q.len
  · simp [bytes, hi, h i hi]
  · simp [bytes, hi]

theorem fillChain_reads (chain : List Pbuf) (c : CopyIn) {d : Nat} (h : Reading b frame lens log s)
    (hlens : ∀ q ∈ chain, q.len ∈ lens) (hin : m + totLen chain ≤ frame.length - 4) (hc : Stands b frame d m c) :
    (fillChain chain c).Safe (beside Besides) (fun chain' t => Reading b frame lens log t ∧
      chain'.map Pbuf.len = chain.map Pbuf.len ∧ chainBytes chain' = (frame.drop m).take (totLen chain)) s := by
  induction chain generalizing c d m s with
  | nil => exact safe_ret (reading_stable.and (.const _)) ⟨h, rfl, by simp [chainBytes, totLen]⟩
  | cons q rest ih =>
      have htot : totLen (q :: rest) = q.len + totLen rest := by simp [totLen]
      have hfill := fillPbuf_reads (m := m) q c 0 q.len h (hlens q (by simp)) (Nat.zero_add _) (by omega) nofun hc
      refine .seq _ hfill fun x t hx => ?_
      obtain ⟨ht, hlen, hfilled, d, hc⟩ := hx
      refine .seq _ (ih x.2 ht (fun q hq => hlens q (by simp [hq])) (by omega) hc) fun chain' t hchain => ?_
      obtain ⟨ht, hmap, hbytes⟩ := hchain
      refine safe_ret (reading_stable.and (.const _)) ⟨ht, by simp [hlen, hmap], ?_⟩
      rw [← hlen] at hfilled
      rw [htot, List.take_add, chainBytes, List.flatMap_cons, ← chainBytes, hbytes, bytes_of_filled hfilled, hlen,
        List.drop_drop]

end

/-! ## The call -/

abbrev copyFrame : Interference.Frame Eth (List (Memcpy ethRxBufNb)) Unit := .watch Eth.copiedIn

theorem avoids_releaseDescriptors : ∀ n i, copyFrame.Avoids (releaseDescriptors n i) :=
  watch_releaseDescriptors (fun _ _ _ => rfl) fun _ => rfl

structure Described (b : Nat) (frame : List UInt8) (x : RxFrameInfos) : Prop where
  fsRxDesc : x.fsRxDesc = some (slot ethRxBufNb b)
  buffer : x.buffer = some (slot ethRxBufNb b)
  length : x.length.toUInt16 = .ofNat (frame.length - 4)

/-- The chain has the frame without its CRC, and all that was read is the frame's. -/
structure Scattered (b : Nat) (frame : List UInt8) (chain : List Pbuf) (log : List (Memcpy ethRxBufNb))
    (p : Option (List Pbuf)) (t : Eth) : Prop where
  returned : ∃ chain', p = some chain' ∧ chain'.map Pbuf.len = chain.map Pbuf.len ∧
    chainBytes chain' = frame.take (frame.length - 4)
  copiedIn : ∃ new, t.copiedIn = log ++ new ∧ ∀ e ∈ new, Reads b frame (chain.map Pbuf.len) e

section

variable {b : Nat} {frame : List UInt8} {lens : List Nat} {log : List (Memcpy ethRxBufNb)} {s t : Eth} {r : HalStatus}

theorem length_eq {n : Nat} (hlong : 4 < n) (hmax : n < 2 ^ 14) : (UInt32.ofNat n - 4).toUInt16 = .ofNat (n - 4) := by
  apply UInt16.toNat.inj
  simp [UInt16.toNat_sub]
  omega

theorem Found.described (h : Found b frame r t) (scanned : Scanned b frame log r t) :
    Reading b frame lens log t ∧ Described b frame t.heth.rxFrameInfos := by
  obtain ⟨j, y, ht, hlast⟩ := scanned
  obtain ⟨i, x, rfl⟩ := hlast h.status
  have hfs := h.fsRxDesc
  have hls := h.lsRxDesc
  rw [ht.infos] at hfs hls
  obtain rfl : i = slot ethRxBufNb (b + (segments frame - 1)) := Option.some.inj hls
  refine ⟨⟨ht.toStored, [], by simp [ht.copiedIn], nofun⟩, ?_⟩
  rw [ht.infos]
  refine ⟨hfs, ?_, ?_⟩
  · rw [lastInfos] at hfs ⊢
    simp only at hfs ⊢
    rw [hfs]
    rfl
  · rw [lastInfos, ht.fl]
    exact length_eq ht.long ht.length_lt

theorem described_stable : Stable (beside Besides).rely fun t =>
    Reading b frame lens log t ∧ Described b frame t.heth.rxFrameInfos := by
  refine reading_stable.and fun s t r h => ?_
  rwa [(Besides.spares r).infos]

end

section

variable {b : Nat} {frame : List UInt8} {log : List (Memcpy ethRxBufNb)} {s t : Eth}
  {answers : Nat → ∀ i, Call.Answer i} {chain : {p : List Pbuf // totLen p = (UInt16.ofNat (frame.length - 4)).toNat}}

theorem Scattered.congr {chain : List Pbuf} {p : Option (List Pbuf)} (h : Scattered b frame chain log p s)
    (same : t.copiedIn = s.copiedIn) : Scattered b frame chain log p t :=
  ⟨h.returned, by rw [same]; exact h.copiedIn⟩

theorem scattered_stable {chain : List Pbuf} (p : Option (List Pbuf)) :
    Stable (beside Besides).rely (Scattered b frame chain log p) :=
  fun _ _ r h => h.congr (Besides.spares r).copiedIn

theorem receiveFrame_scatters (n : Nat) (alloc : ∀ m, answers m (.pbufAlloc (.ofNat (frame.length - 4))) = some chain)
    (h : Reading b frame (chain.val.map Pbuf.len) log s ∧ Described b frame s.heth.rxFrameInfos) :
    (receiveFrame.answer answers n).Safe (beside Besides) (Scattered b frame chain.val log) s := by
  refine beside_get_answer described_stable h fun t ht => ?_
  rw [ht.2.length]
  refine beside_get_answer described_stable ht fun t ht => ?_
  have hlen : (UInt16.ofNat (frame.length - 4)).toNat = frame.length - 4 := by
    have := ht.1.length_lt
    rw [UInt16.toNat_ofNat']
    omega
  have hsome : UInt16.ofNat (frame.length - 4) ≠ 0 := by
    have := ht.1.long
    intro hzero
    rw [hzero] at hlen
    simp at hlen
    omega
  rw [ht.2.buffer, if_neg hsome, answer_call, alloc]
  refine beside_get_answer described_stable ht fun t ht => ?_
  rw [ht.2.fsRxDesc]
  have hstart : Stands b frame 0 0 ⟨slot ethRxBufNb b, slot ethRxBufNb b, 0⟩ :=
    ⟨rfl, rfl, by simp, Nat.zero_le _, by have := ht.1.long; omega⟩
  have htot : totLen chain.val = frame.length - 4 := chain.property.trans hlen
  have hfill := fillChain_reads chain.val _ ht.1 (fun q hq => List.mem_map_of_mem hq) (by omega) hstart
  refine .answer _ _ (.seq _ hfill fun chain' t hchain => ?_)
  obtain ⟨ht, hmap, hbytes⟩ := hchain
  rw [htot, List.drop_zero] at hbytes
  exact safe_ret (scattered_stable _) ⟨⟨chain', rfl, hmap, hbytes⟩, ht.copiedIn⟩

theorem releaseDescriptors_scattered {chain : List Pbuf} {p : Option (List Pbuf)} (n : Nat) (i : Option RxPtr)
    (h : Scattered b frame chain log p s) :
    (releaseDescriptors n i).Safe (beside Besides) (fun _ => Scattered b frame chain log p) s := by
  have hstable : Stable (beside Besides).rely fun t => t.copiedIn = s.copiedIn :=
    fun _ _ r ht => (Besides.spares r).copiedIn.trans ht
  exact ((avoids_releaseDescriptors n i).safe hstable (fun _ _ => trivial) rfl).mono fun _ _ ht => h.congr ht

theorem lowLevelInput_scatters (n : Nat) (stored : Stored b frame s)
    (found : ∀ r m, Runs Besides halEthGetReceivedFrameIt s r m → Found b frame r m)
    (alloc : ∀ m, answers m (.pbufAlloc (.ofNat (frame.length - 4))) = some chain) :
    (lowLevelInput.answer answers n).Safe (beside Besides) (Scattered b frame chain.val s.copiedIn) s := by
  have hget : halEthGetReceivedFrameIt.Safe (beside Besides)
      (fun r m => Found b frame r m ∧ Scanned b frame s.copiedIn r m) s :=
    safe_of_runs fun r m run => ⟨found r m run, (getReceivedFrame_scanned stored).runs run⟩
  refine .answer_seq _ (hget.answer answers n) fun r t m ht => ?_
  obtain ⟨hfound, hscanned⟩ := ht
  rw [if_neg (not_not.mpr hfound.status)]
  refine .answer_seq _ (receiveFrame_scatters m alloc (hfound.described hscanned)) fun p t m ht => ?_
  have hstable : Stable (beside Besides).rely (Scattered b frame chain.val s.copiedIn p) := scattered_stable p
  refine .answer _ _ (beside_get hstable ht fun t ht => ?_)
  refine beside_get hstable ht fun t ht => ?_
  refine .seq _ (releaseDescriptors_scattered _ _ ht) fun _ t ht => ?_
  refine beside_modify hstable ht fun t ht => ?_
  refine beside_get hstable (ht.congr rfl) fun t ht => ?_
  refine .seq (fun _ => Scattered b frame chain.val s.copiedIn p) (safe_when (fun _ => ?_) fun _ => safe_ret hstable ht)
    fun _ t ht => safe_ret hstable ht
  refine beside_modify hstable ht fun t ht => ?_
  exact beside_modify (k := ret) hstable (ht.congr rfl) fun t ht =>
    safe_ret hstable (ht.congr rfl)

end

end Scatter

/-! ## Results -/

open Scatter

/-- A frame that was found is copied whole, without its CRC, and read from nowhere else. -/
theorem low_level_input_scatters (b : Nat) (frame : List UInt8) (s : Eth) (answers : Nat → ∀ i, Call.Answer i) (n : Nat)
    (chain : {p : List Pbuf // totLen p = (UInt16.ofNat (frame.length - 4)).toNat}) (stored : Stored b frame s)
    (found : ∀ r m, Prog.Runs Besides halEthGetReceivedFrameIt s r m → Found b frame r m)
    (alloc : ∀ m, answers m (.pbufAlloc (.ofNat (frame.length - 4))) = some chain) :
    (∃ p t, Prog.Runs Besides (lowLevelInput.answer answers n) s p t) ∧
    ∀ p t, Prog.Runs Besides (lowLevelInput.answer answers n) s p t → Scattered b frame chain.val s.copiedIn p t :=
  ⟨⟨_, _, Prog.runs_run answers n _ s⟩, fun _ _ run => (lowLevelInput_scatters n stored found alloc).runs run⟩

def sevens : List UInt8 := List.replicate 2018 7

theorem length_sevens : sevens.length = 2018 := List.length_replicate

theorem segments_sevens : segments sevens = 2 := by rw [segments, length_sevens, ethRxBufSize]

def wrapped : Eth :=
  (({ cleared with dma.rxCur := 3, heth.rxDesc := 3 } : Eth).fillRx false 0 fun _ => 7).fillRx true 2018 fun _ => 7

theorem wrapped_stored : Stored 3 sevens wrapped := by
  refine ⟨⟨by decide +kernel, by decide +kernel⟩, ?_, ?_, ?_, ?_, ?_, ?_, fun m hm => ?_⟩
  · rw [length_sevens]
    decide
  · rw [segments_sevens]
    decide
  · rw [segments_sevens]
    decide +kernel
  · rw [segments_sevens]
    decide +kernel
  · rw [segments_sevens]
    decide +kernel
  · rw [segments_sevens, length_sevens]
    decide +kernel
  · rw [length_sevens] at hm
    have hrow : m / ethRxBufSize = 0 ∨ m / ethRxBufSize = 1 := by
      unfold ethRxBufSize
      omega
    rw [sevens, List.getElem?_replicate, if_pos hm]
    rcases hrow with hrow | hrow <;> rw [hrow] <;> rfl

def pooled : ∀ i, Call.Answer i
  | .pbufAlloc len =>
      if h : len = 2014 then
        some ⟨[⟨592, fun _ => 0⟩, ⟨592, fun _ => 0⟩, ⟨592, fun _ => 0⟩, ⟨238, fun _ => 0⟩], by subst h; decide⟩
      else none
  | i => Call.granted true i

theorem pooled_alloc {len : UInt16} (h : len = 2014) : pooled (.pbufAlloc len) =
    some ⟨[⟨592, fun _ => 0⟩, ⟨592, fun _ => 0⟩, ⟨592, fun _ => 0⟩, ⟨238, fun _ => 0⟩], by subst h; decide⟩ :=
  dif_pos h

theorem low_level_input_scatters_wrapped : ∃ chain : List Pbuf, chain.length = 4 ∧
    (∃ p t, Prog.Runs Besides (lowLevelInput.answer (fun _ => pooled) 0) wrapped p t) ∧
    ∀ p t, Prog.Runs Besides (lowLevelInput.answer (fun _ => pooled) 0) wrapped p t →
      Scattered 3 sevens chain wrapped.copiedIn p t := by
  have hpartway : Partway 3 sevens 0 wrapped.heth.rxFrameInfos :=
    ⟨by rw [segments_sevens]; decide, by decide +kernel, nofun⟩
  have hlen : UInt16.ofNat (sevens.length - 4) = 2014 := by
    rw [length_sevens]
    rfl
  refine ⟨[⟨592, fun _ => 0⟩, ⟨592, fun _ => 0⟩, ⟨592, fun _ => 0⟩, ⟨238, fun _ => 0⟩], rfl, ?_⟩
  refine low_level_input_scatters 3 sevens wrapped (fun _ => pooled) 0 ⟨_, by rw [hlen]; decide⟩
    wrapped_stored (fun r m run => ?_) fun _ => ?_
  · exact getReceivedFrame_found wrapped_stored (by decide +kernel) (by decide +kernel) hpartway run
  · exact pooled_alloc hlen

end Oinzen
