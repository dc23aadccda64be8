import Oinzen.Hal.Interrupt
import Oinzen.Transmit.Gather

/-!
# Handing a frame over to the DMA

`HAL_ETH_TransmitFrame` looks at the first OWN bit only. The other descriptors it hands over are
free because the copy has seen all of them, and what is handed over does not depend on what else goes on.
-/

namespace Oinzen.Transmit

open Ring Interference Prog

/-! ## Segments -/

theorem length_block {p : List Pbuf} : (block p).length = needed p := by
  rw [block, List.length_map, List.length_range, bufcountOf_eq]

structure Described (p : List Pbuf) (i : Nat) (d : TxDesc) : Prop where
  fs : d.fs = decide (i = 0)
  ls : d.ls = decide (i = needed p - 1)
  tbs1 : d.tbs1 = min ethTxBufSize (totLen p - i * ethTxBufSize)

section

variable {p : List Pbuf} {s t : Eth}

theorem Copied.chunk {b : Nat} (h : Copied b p (totLen p) s) (i : Nat) :
    ((chainBytes p).drop (i * ethTxBufSize)).take ethTxBufSize =
      bytes (s.txBuff (slot ethTxBufNb (b + i))) (min ethTxBufSize (totLen p - i * ethTxBufSize)) := by
  apply List.ext_getElem?
  intro j
  have hlen := length_chainBytes p
  have hcopied := h (i * ethTxBufSize + j)
  unfold ethTxBufSize at *
  rcases Nat.lt_or_ge j (min 2016 (totLen p - i * 2016)) with hlt | hge
  · rw [List.getElem?_take_of_lt (by omega), List.getElem?_drop, hcopied (by omega),
      show (i * 2016 + j) / 2016 = i by omega, show (i * 2016 + j) % 2016 = j by omega]
    simp [bytes, hlt]
  · rw [List.getElem?_eq_none (by simp; omega), List.getElem?_eq_none (by rw [length_bytes]; exact hge)]

theorem segment_eq {b : Nat} (h : Copied b p (totLen p) s) {i : Nat} (hi : i < needed p)
    (hd : Described p i (s.dmaTxDscrTab (slot ethTxBufNb (b + i)))) :
    (block p)[i]? = some (segment (cell s (slot ethTxBufNb (b + i)))) := by
  rw [block, bufcountOf_eq, List.getElem?_map, List.getElem?_range hi, Option.map_some, h.chunk]
  simp [segment, cell, hd.fs, hd.ls, hd.tbs1]

theorem and_tbs1 {n : Nat} (h : n ≤ ethTxBufSize) : n &&& 0x1FFF = n := by
  unfold ethTxBufSize at h
  rw [show (0x1FFF : Nat) = 2 ^ 13 - 1 from rfl, Nat.and_two_pow_sub_one_eq_mod]
  omega

theorem last_size {i : Nat} (hi : i + 1 = needed p) (hpos : 1 ≤ totLen p) :
    totLen p - (needed p - 1) * ethTxBufSize ≤ ethTxBufSize := by
  have hlast : ¬ i + 1 < needed p := by omega
  rw [lt_needed hpos, Nat.add_one_mul] at hlast
  rw [← hi, Nat.add_sub_cancel]
  omega

theorem full_size {i : Nat} (hi : i + 1 < needed p) (hpos : 1 ≤ totLen p) :
    ethTxBufSize ≤ totLen p - i * ethTxBufSize := by
  rw [lt_needed hpos, Nat.add_one_mul] at hi
  omega

end

/-! ## The state of the transmission -/

structure Spares (s t : Eth) : Prop extends Bystands s t where
  linked : Linked s → Linked t
  free : ∀ i, (s.dmaTxDscrTab i).own = false → t.dmaTxDscrTab i = s.dmaTxDscrTab i

theorem Spares.own {s t : Eth} (h : Spares s t) {i : TxPtr} (hi : (s.dmaTxDscrTab i).own = false) :
    (t.dmaTxDscrTab i).own = false := by
  rw [h.free i hi]
  exact hi

theorem spares_sendTx {s : Eth} {i : TxPtr} (hown : (s.dmaTxDscrTab i).own = true) :
    Spares s ({ s with dma.txCur := i } : Eth).sendTx := by
  refine ⟨⟨rfl, rfl, rfl, id, rfl, rfl, rfl, rfl, rfl, rfl, rfl, rfl, rfl, rfl⟩, fun hl => ⟨fun j => ?_, fun j => ?_⟩,
    fun j hj => ?_⟩
  · by_cases hji : j = i <;> simp [Eth.sendTx, Eth.updateTxDesc, hji, hl.next]
  · by_cases hji : j = i <;> simp [Eth.sendTx, Eth.updateTxDesc, hji, hl.buffer]
  · have hne : j ≠ i := by
      rintro rfl
      exact Bool.false_ne_true (hj.symm.trans hown)
    simp [Eth.sendTx, Eth.updateTxDesc, hne]

def memoryPart (s : Eth) : (TxPtr → TxDesc) × (TxPtr → Nat → UInt8) × Dma × List TxSeg × List (TxPtr × Bool) ×
    Bool × List (List Pbuf) × List Output × List (Memcpy ethTxBufNb) :=
  (s.dmaTxDscrTab, s.txBuff, s.dma, s.handed, s.ownReads, s.transmitting, s.accepted, s.outputs, s.copiedOut)

def Keeps (f : TxDesc → TxDesc) : Prop :=
  ∀ d, ((f d).own, (f d).buffer1Addr, (f d).buffer2NextDescAddr) = (d.own, d.buffer1Addr, d.buffer2NextDescAddr)

section

variable {f : TxDesc → TxDesc}

theorem Keeps.buffer (h : Keeps f) (d : TxDesc) : (f d).buffer1Addr = d.buffer1Addr :=
  congrArg (fun x => x.2.1) (h d)

theorem Keeps.next (h : Keeps f) (d : TxDesc) : (f d).buffer2NextDescAddr = d.buffer2NextDescAddr :=
  congrArg (fun x => x.2.2) (h d)

theorem dmaTxDscrTab_updateCurTxDesc (s : Eth) (f : TxDesc → TxDesc) (k : TxPtr) :
    (s.updateCurTxDesc f).dmaTxDscrTab k = if k = s.heth.txDesc then f (s.dmaTxDscrTab k) else s.dmaTxDscrTab k := by
  simp only [Eth.updateCurTxDesc, Eth.updateTxDesc, Function.update_apply]
  split
  · rename_i hk
    rw [hk]
  · rfl

theorem Linked.updateCurTxDesc {s : Eth} (h : Linked s)
    (next : ∀ d, (f d).buffer2NextDescAddr = d.buffer2NextDescAddr) (buffer : ∀ d, (f d).buffer1Addr = d.buffer1Addr) :
    Linked (s.updateCurTxDesc f) where
  next k := by rw [dmaTxDscrTab_updateCurTxDesc, apply_ite TxDesc.buffer2NextDescAddr, next, ite_self, h.next]
  buffer k := by rw [dmaTxDscrTab_updateCurTxDesc, apply_ite TxDesc.buffer1Addr, buffer, ite_self, h.buffer]

end

def handOver (s : Eth) : Eth :=
  { s.updateCurTxDesc fun d => { d with own := true } with
    handed := s.handed ++ [⟨s.txDesc.fs, s.txDesc.ls, bytes (s.txBuff s.txDesc.buffer1Addr) s.txDesc.tbs1⟩] }

/-- `i` segments of the frame were handed over after `before`, `heth.TxDesc` has moved `pos` descriptors on from
`b`, and the next descriptor is as `D` says. -/
structure Giving (E : Nat → Eth → Prop) (b : Nat) (p : List Pbuf) (before : List TxSeg) (i pos : Nat)
    (D : TxDesc → Prop) (s : Eth) : Prop where
  rest : E i s
  txDesc : s.heth.txDesc = slot ethTxBufNb (b + pos)
  handed : s.handed = before ++ (block p).take i
  free : ∀ j, i ≤ j → j < needed p → (s.dmaTxDscrTab (slot ethTxBufNb (b + j))).own = false
  copied : Copied b p (totLen p) s
  desc : i < needed p → D (s.dmaTxDscrTab (slot ethTxBufNb (b + i)))

/-- What else goes on while `p` is handed over from `b` on, after the segments `before`: `E i` holds when `i`
descriptors were given. -/
structure Handover (w : Setting Eth) (b : Nat) (p : List Pbuf) (before : List TxSeg) (E : Nat → Eth → Prop) :
    Prop where
  stable : ∀ i, Stable w.rely (E i)
  spares : ∀ {s t}, w.rely s t → Spares s t
  linked : ∀ {i s}, E i s → Linked s
  aside : ∀ {i s t}, E i s → memoryPart t = memoryPart s → E i t ∧ w.guar s t
  setup : ∀ {i s f}, E i s → i < needed p → s.heth.txDesc = slot ethTxBufNb (b + i) →
    (s.dmaTxDscrTab (slot ethTxBufNb (b + i))).own = false → Keeps f →
    E i (s.updateCurTxDesc f) ∧ w.guar s (s.updateCurTxDesc f)
  give : ∀ {i s}, Giving E b p before i i (Described p i) s → i < needed p →
    E (i + 1) (handOver s) ∧ w.guar s (handOver s)

section

variable {w : Setting Eth} {E : Nat → Eth → Prop} {b i pos : Nat} {p : List Pbuf} {before : List TxSeg}
  {D D' : TxDesc → Prop} {α : Type} {Q : α → Eth → Prop} {k : Unit → Code Eth α} {s t : Eth}

theorem giving_stable (ho : Handover w b p before E) : Stable w.rely (Giving E b p before i pos D) := by
  intro s t r h
  have hspares := ho.spares r
  refine ⟨ho.stable i r h.rest, hspares.txDesc.trans h.txDesc, hspares.handed.trans h.handed, fun j hj hj' => ?_, ?_,
    fun hi => ?_⟩
  · rw [hspares.free _ (h.free j hj hj')]
    exact h.free j hj hj'
  · rw [Copied, hspares.txBuff]
    exact h.copied
  · rw [hspares.free _ (h.free i (Nat.le_refl i) hi)]
    exact h.desc hi

theorem Handover.unlocked (ho : Handover w b p before E) : Stable w.rely fun s => s.heth.lock = false :=
  unlocked_stable fun _ _ r => (ho.spares r).toBystands

theorem Giving.congr (ho : Handover w b p before E) (h : Giving E b p before i pos D s) (e : memoryPart t = memoryPart s)
    (txDesc : t.heth.txDesc = s.heth.txDesc) : Giving E b p before i pos D t ∧ w.guar s t := by
  obtain ⟨hrest, hguar⟩ := ho.aside h.rest e
  simp only [memoryPart, Prod.mk.injEq] at e
  obtain ⟨htab, hbuff, -, hhanded, -⟩ := e
  exact ⟨⟨hrest, txDesc.trans h.txDesc, hhanded.trans h.handed, by rw [htab]; exact h.free,
    by rw [Copied, hbuff]; exact h.copied, by rw [htab]; exact h.desc⟩, hguar⟩

theorem giving_modify (ho : Handover w b p before E) {u : Eth → Eth} (h : Giving E b p before i pos D s)
    (memory : ∀ s, memoryPart (u s) = memoryPart s) (txDesc : ∀ s, (u s).heth.txDesc = s.heth.txDesc)
    (next : ∀ t, Giving E b p before i pos D t → (k ()).Safe w Q t) : (modify u >>= k).Safe w Q s :=
  safe_modify (giving_stable ho) h (fun t ht => (ht.congr ho (memory t) (txDesc t)).2)
    fun t ht _ => next _ (ht.congr ho (memory t) (txDesc t)).1

theorem giving_get (ho : Handover w b p before E) {β : Type} {f : Eth → β} {k : β → Code Eth α}
    (h : Giving E b p before i pos D s) (next : ∀ t, Giving E b p before i pos D t → (k (f t)).Safe w Q t) :
    (get f >>= k).Safe w Q s :=
  safe_get (giving_stable ho) h (fun _ ht => (ht.congr ho rfl rfl).2) next

theorem Giving.setup (ho : Handover w b p before E) (h : Giving E b p before i i D s) (hi : i < needed p)
    {f : TxDesc → TxDesc} (keeps : Keeps f) (set : ∀ d, D d → D' (f d)) :
    Giving E b p before i i D' (s.updateCurTxDesc f) ∧ w.guar s (s.updateCurTxDesc f) := by
  obtain ⟨hrest, hguar⟩ := ho.setup h.rest hi h.txDesc (h.free i (Nat.le_refl i) hi) keeps
  refine ⟨⟨hrest, h.txDesc, h.handed, fun j hj hj' => ?_, h.copied, fun _ => ?_⟩, hguar⟩
  · have hown : ∀ d, (f d).own = d.own := fun d => congrArg Prod.fst (keeps d)
    by_cases hcur : slot ethTxBufNb (b + j) = slot ethTxBufNb (b + i)
    · simpa [Eth.updateCurTxDesc, Eth.updateTxDesc, h.txDesc, hcur, hown] using h.free i (Nat.le_refl i) hi
    · simpa [Eth.updateCurTxDesc, Eth.updateTxDesc, h.txDesc, hcur] using h.free j hj hj'
  · simp only [Eth.updateCurTxDesc, Eth.updateTxDesc, h.txDesc, Function.update_self]
    exact set _ (h.desc hi)

theorem giving_setup (ho : Handover w b p before E) (D' : TxDesc → Prop) {f : TxDesc → TxDesc}
    (h : Giving E b p before i i D s) (hi : i < needed p) (keeps : Keeps f) (set : ∀ d, D d → D' (f d))
    (next : ∀ t, Giving E b p before i i D' t → (k ()).Safe w Q t) :
    (modify (Eth.updateCurTxDesc f) >>= k).Safe w Q s :=
  safe_modify (giving_stable ho) h (fun _ ht => (ht.setup ho hi keeps set).2)
    fun _ ht _ => next _ (ht.setup ho hi keeps set).1

/-! ## `HAL_ETH_TransmitFrame` -/

theorem Giving.give (ho : Handover w b p before E) (hneeded : needed p ≤ ethTxBufNb)
    (h : Giving E b p before i i (Described p i) s) (hi : i < needed p) :
    Giving E b p before (i + 1) i (fun _ => True) (handOver s) ∧ w.guar s (handOver s) := by
  obtain ⟨hrest, hguar⟩ := ho.give h hi
  have hdesc : s.txDesc = s.dmaTxDscrTab (slot ethTxBufNb (b + i)) := by rw [Eth.txDesc, h.txDesc]
  have hseg : (⟨s.txDesc.fs, s.txDesc.ls, bytes (s.txBuff s.txDesc.buffer1Addr) s.txDesc.tbs1⟩ : TxSeg) =
      segment (cell s (slot ethTxBufNb (b + i))) := by
    rw [hdesc, (ho.linked h.rest).buffer]
    rfl
  have hblock := segment_eq h.copied hi (h.desc hi)
  refine ⟨⟨hrest, h.txDesc, ?_, fun j hj hj' => ?_, h.copied, fun _ => trivial⟩, hguar⟩
  · simp only [handOver, hseg, h.handed, List.append_assoc, List.take_add_one, hblock, Option.toList_some]
  · have hne := slot_ne (n := ethTxBufNb) b (i := j) (j := i) (by omega) (by omega) (by omega)
    simpa [handOver, Eth.updateCurTxDesc, Eth.updateTxDesc, h.txDesc, hne] using h.free j (by omega) hj'

theorem giveTxDesc_safe (ho : Handover w b p before E) (hneeded : needed p ≤ ethTxBufNb)
    (h : Giving E b p before i i (Described p i) s) (hi : i < needed p) :
    giveTxDesc.Safe w (fun _ => Giving E b p before (i + 1) (i + 1) fun _ => True) s := by
  refine safe_modify (giving_stable ho) h (fun t ht => (ht.give ho hneeded hi).2) fun t ht _ => ?_
  have hmove : ∀ u, Giving E b p before (i + 1) i (fun _ => True) u →
      Giving E b p before (i + 1) (i + 1) (fun _ => True) { u with heth.txDesc := u.txDesc.buffer2NextDescAddr } ∧
        w.guar u { u with heth.txDesc := u.txDesc.buffer2NextDescAddr } := by
    intro u hu
    obtain ⟨hrest, hguar⟩ := ho.aside (t := { u with heth.txDesc := u.txDesc.buffer2NextDescAddr }) hu.rest rfl
    refine ⟨{ hu with rest := hrest, txDesc := ?_ }, hguar⟩
    rw [Eth.txDesc, (ho.linked hu.rest).next, hu.txDesc, slot_succ, Nat.add_assoc]
  exact safe_modify (k := ret) (giving_stable ho) (ht.give ho hneeded hi).1 (fun u hu => (hmove u hu).2)
    fun u hu _ => safe_ret (giving_stable ho) (hmove u hu).1

theorem transmitSegments_safe (ho : Handover w b p before E) (hpos : 1 ≤ totLen p)
    (hneeded : needed p ≤ ethTxBufNb) (n : Nat) (hn : i + n = needed p)
    (h : Giving E b p before i i (fun _ => True) s) :
    (transmitSegments (totLen p) (needed p) n).Safe w
      (fun _ => Giving E b p before (needed p) (needed p) fun _ => True) s := by
  induction n generalizing i s with
  | zero =>
      obtain rfl : i = needed p := by omega
      exact safe_ret (giving_stable ho) h
  | succ n ih =>
      have hi : i < needed p := by omega
      have hindex : needed p - (n + 1) = i := by omega
      rw [transmitSegments, hindex]
      refine giving_setup ho (fun d => d.fs = false ∧ d.ls = false) h hi (fun _ => rfl) (fun _ _ => ⟨rfl, rfl⟩)
        fun t ht => ?_
      refine .seq (fun _ => Giving E b p before i i fun d => d.fs = decide (i = 0) ∧ d.ls = false)
        (safe_when (fun hc => ?_) fun hc => ?_) fun _ t ht => ?_
      · exact giving_setup ho (k := ret) _ ht hi (fun _ => rfl) (fun d hd => ⟨hc.symm, hd.2⟩)
          fun t ht => safe_ret (giving_stable ho) ht
      · exact safe_ret (giving_stable ho) { ht with desc := fun hi => by rw [hc]; exact ht.desc hi }
      refine giving_setup ho (fun d => d.fs = decide (i = 0) ∧ d.ls = false ∧ d.tbs1 = ethTxBufSize) ht hi
        (fun _ => rfl) (fun d hd => ⟨hd.1, hd.2, and_tbs1 (Nat.le_refl _)⟩) fun t ht => ?_
      refine .seq (fun _ => Giving E b p before i i (Described p i))
        (safe_when (fun hc => ?_) fun hc => ?_) fun _ t ht => ?_
      · -- the last segment has what is left
        have hlast := last_size (i := i) (by have := of_decide_eq_true hc; omega) hpos
        refine giving_setup ho (fun d => d.fs = decide (i = 0) ∧ d.ls = true) ht hi (fun _ => rfl)
          (fun d hd => ⟨hd.1, rfl⟩) fun t ht => ?_
        refine giving_setup ho (k := ret) _ ht hi (fun _ => rfl) (fun d hd => ⟨hd.1, hd.2.trans hc.symm, ?_⟩)
          fun t ht => safe_ret (giving_stable ho) ht
        rw [and_tbs1 hlast, Nat.min_eq_right (by rw [of_decide_eq_true hc]; exact hlast), of_decide_eq_true hc]
      · have hfull := full_size (i := i) (by have := of_decide_eq_false hc; omega) hpos
        refine safe_ret (giving_stable ho) { ht with desc := fun hi => ?_ }
        obtain ⟨hfs, hls, htbs⟩ := ht.desc hi
        exact ⟨hfs, hls.trans hc.symm, by rw [htbs, Nat.min_eq_left hfull]⟩
      exact .seq _ (giveTxDesc_safe ho hneeded ht hi) fun _ t ht => ih (by omega) ht

theorem transmitBuffers_safe (ho : Handover w b p before E) (hpos : 1 ≤ totLen p)
    (hneeded : needed p ≤ ethTxBufNb) (h : Giving E b p before 0 0 (fun _ => True) s) :
    (transmitBuffers (totLen p) (needed p)).Safe w
      (fun _ => Giving E b p before (needed p) (needed p) fun _ => True) s := by
  unfold transmitBuffers
  split
  · rename_i hone
    have hlast := last_size (p := p) (i := 0) hone.symm hpos
    have hi : 0 < needed p := by omega
    refine giving_setup ho (fun d => d.fs = true ∧ d.ls = true) h hi (fun _ => rfl) (fun _ _ => ⟨rfl, rfl⟩)
      fun t ht => ?_
    refine giving_setup ho (Described p 0) ht hi (fun _ => rfl) (fun d hd => ⟨hd.1, ?_, ?_⟩) fun t ht => ?_
    · simp [hd.2, hone]
    · rw [hone] at hlast
      simp only [Nat.sub_self, Nat.zero_mul, Nat.sub_zero] at hlast ⊢
      rw [and_tbs1 hlast, Nat.min_eq_right hlast]
    · have := giveTxDesc_safe ho hneeded ht hi
      rwa [Nat.zero_add, ← hone] at this
  · exact transmitSegments_safe ho hpos hneeded _ (Nat.zero_add _) h

theorem halReturn_safe (ho : Handover w b p before E) (state : HalEthState) (status : HalStatus)
    (h : Giving E b p before i pos D s) :
    (halReturn state status).Safe w (fun _ t => Giving E b p before i pos D t ∧ t.heth.lock = false) s := by
  refine giving_modify ho h (fun _ => rfl) (fun _ => rfl) fun t ht => ?_
  have hunlock : ∀ t, Giving E b p before i pos D t →
      Giving E b p before i pos D (t.setLock false) ∧ w.guar t (t.setLock false) := fun t ht => ht.congr ho rfl rfl
  refine safe_modify (giving_stable ho) ht (fun t ht => (hunlock t ht).2) fun t ht _ => ?_
  exact safe_ret ((giving_stable ho).and ho.unlocked) ⟨(hunlock t ht).1, rfl⟩

theorem halEthTransmitFrame_safe (ho : Handover w b p before E) (hpos : 1 ≤ totLen p)
    (hneeded : needed p ≤ ethTxBufNb) (h : Giving E b p before 0 0 (fun _ => True) s) {L : Bool → Prop}
    (stable : Stable w.rely fun s => L s.heth.lock) (hL : L s.heth.lock) :
    (halEthTransmitFrame (totLen p)).Safe w (fun _ t =>
      (L false ∧ Giving E b p before (needed p) (needed p) (fun _ => True) t ∧ t.heth.lock = false) ∨
        (L true ∧ Giving E b p before 0 0 (fun _ => True) t)) s := by
  refine safe_get ((giving_stable ho).and stable) ⟨h, hL⟩ (fun _ ht => (ht.1.congr ho rfl rfl).2) fun t ht => ?_
  obtain ⟨ht, hlock⟩ := ht
  cases hfound : t.heth.lock with
  | true =>
      rw [hfound] at hlock
      have hreturn : (ret HalStatus.busy : Code Eth HalStatus).Safe w
          (fun _ => Giving E b p before 0 0 fun _ => True) t := safe_ret (giving_stable ho) ht
      exact hreturn.mono fun _ t ht => .inr ⟨hlock, ht⟩
  | false =>
      rw [hfound] at hlock
      rw [if_neg Bool.false_ne_true]
      refine giving_modify ho ht (fun _ => rfl) (fun _ => rfl) fun t ht => ?_
      refine giving_modify ho ht (fun _ => rfl) (fun _ => rfl) fun t ht => ?_
      rw [if_neg (by omega)]
      refine giving_get ho ht fun t ht => ?_
      have hown := ht.free 0 (Nat.le_refl 0) (needed_pos p)
      rw [Eth.txDesc, ht.txDesc, hown, if_neg Bool.false_ne_true, bufcountOf_eq]
      refine .seq _ (transmitBuffers_safe ho hpos hneeded ht) fun _ t ht => ?_
      refine giving_get ho ht fun t ht => ?_
      refine .seq (fun _ => Giving E b p before (needed p) (needed p) fun _ => True)
        (safe_when (fun _ => ?_) fun _ => safe_ret (giving_stable ho) ht) fun _ t ht => ?_
      · refine giving_modify ho ht (fun _ => rfl) (fun _ => rfl) fun t ht => ?_
        exact giving_modify ho (k := ret) ht (fun _ => rfl) (fun _ => rfl) fun t ht => safe_ret (giving_stable ho) ht
      · exact (halReturn_safe ho _ _ ht).mono fun _ t ht => .inl ⟨hlock, ht⟩

end

end Oinzen.Transmit
