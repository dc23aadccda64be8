import Oinzen.Transmit.Copy

/-!
# A call of `low_level_output`

`HAL_ETH_TransmitFrame` looks at the first OWN bit only. The other descriptors it hands over are
free because the copy has seen all of them.
-/

namespace Oinzen.Transmit

open Ring Interference Prog

section

variable {acc : List (List Pbuf)} {outs : List Output} {p : List Pbuf} {reads : List (TxPtr × Bool)}
  {s t : Eth}

structure Sending (acc : List (List Pbuf)) (outs : List Output) (p : List Pbuf) (reads : List (TxPtr × Bool))
    (s : Eth) : Prop where
  ring : RingAt s
  transmitting : s.transmitting = true
  accepted : s.accepted = acc
  outputs : s.outputs = outs
  answered : ∀ o ∈ outs, Answered o
  ownReads : s.ownReads = reads
  free : base acc + needed p ≤ s.dma.wire.length + ethTxBufNb

theorem Sending.standing (h : Sending acc outs p reads s) : Standing s where
  ring := h.ring
  blocks hno := by simp [h.transmitting] at hno
  answered := by rw [h.outputs]; exact h.answered

theorem sending_handover :
    Handover outputSetting (base acc) p (acc.flatMap block) fun _ => Sending acc outs p reads where
  stable _ s t r h := by
    have o := others_of_rely r
    have hsent := o.sent
    have hfree := h.free
    exact ⟨o.ring h.ring, o.transmitting.trans h.transmitting, o.accepted.trans h.accepted, o.outputs.trans h.outputs,
      h.answered, o.ownReads.trans h.ownReads, by omega⟩
  spares r := (others_of_rely r).toSpares
  linked h := ⟨h.ring.next, h.ring.buffer⟩
  aside {i s t} h e := by
    simp only [memoryPart, Prod.mk.injEq] at e
    obtain ⟨htab, hbuff, hdma, hhanded, hreads, htransmitting, haccepted, houtputs, -⟩ := e
    have hring : RingAt t := h.ring.congr (by simp only [ringPart, htab, hbuff, hdma, hhanded])
    have ht : Sending acc outs p reads t := ⟨hring, htransmitting.trans h.transmitting, haccepted.trans h.accepted,
      houtputs.trans h.outputs, h.answered, hreads.trans h.ownReads, by rw [hdma]; exact h.free⟩
    exact ⟨ht, ht.standing⟩
  setup {i s f} h hi txDesc hown keeps := by
    have hkeeps := keeps (s.dmaTxDscrTab (slot ethTxBufNb (base acc + i)))
    simp only [Prod.mk.injEq] at hkeeps
    obtain ⟨hfree, hbuffer, hnext⟩ := hkeeps
    have hring : RingAt (s.updateCurTxDesc f) := by
      refine h.ring.modify (slot ethTxBufNb (base acc + i)) hown rfl rfl rfl (fun j hj => ?_) ?_
      · simp [cell, Eth.updateCurTxDesc, Eth.updateTxDesc, txDesc, hj]
      · simp only [Eth.updateCurTxDesc, Eth.updateTxDesc, txDesc, Function.update_self, hfree, hbuffer, hnext]
        exact ⟨hown, h.ring.next _, h.ring.buffer _⟩
    have ht : Sending acc outs p reads (s.updateCurTxDesc f) := { h with ring := hring }
    exact ⟨ht, ht.standing⟩
  give {i s} h hi := by
    have hlength : s.handed.length = base acc + i := by
      rw [h.handed, List.length_append, List.length_take, length_block, Nat.min_eq_left hi.le]
      rfl
    have hroom := h.rest.free
    have hdesc : s.txDesc = s.dmaTxDscrTab (slot ethTxBufNb (base acc + i)) := by rw [Eth.txDesc, h.txDesc]
    have hring : RingAt (handOver s) := by
      refine h.rest.ring.give (by omega) rfl rfl rfl ?_ ?_
      · rw [hlength]
        simp only [handOver, Eth.updateCurTxDesc, Eth.updateTxDesc, h.txDesc]
      · rw [hlength, handOver, hdesc, h.rest.ring.buffer]
        rfl
    have ht : Sending acc outs p reads (handOver s) := { h.rest with ring := hring }
    exact ⟨ht, ht.standing⟩

def Done (acc : List (List Pbuf)) (outs : List Output) (p : List Pbuf) (err : ErrT) (s : Eth) : Prop :=
  ∃ reads, err = .ok ∧ Copying (acc ++ [p]) outs p reads 0 0 s ∧ Passed (base acc) (needed p) reads ∨
    err = .use ∧ Copying acc outs p reads 0 0 s ∧ Stopped (base acc) p reads

theorem done_stable (err : ErrT) : Stable outputSetting.rely (Done acc outs p err) := by
  rintro s t r ⟨reads, ⟨herr, h, hreads⟩ | ⟨herr, h, hreads⟩⟩
  · exact ⟨reads, .inl ⟨herr, copying_stable r h, hreads⟩⟩
  · exact ⟨reads, .inr ⟨herr, copying_stable r h, hreads⟩⟩

theorem Done.standing {err : ErrT} (h : Done acc outs p err s) : Standing s := by
  obtain ⟨reads, ⟨-, h, -⟩ | ⟨-, h, -⟩⟩ := h
  · exact h.standing
  · exact h.standing

theorem Done.congr {err : ErrT} (h : Done acc outs p err s) (ring : ringPart t = ringPart s)
    (task : taskPart t = taskPart s) (lock : t.heth.lock = s.heth.lock) : Done acc outs p err t := by
  obtain ⟨reads, ⟨herr, h, hreads⟩ | ⟨herr, h, hreads⟩⟩ := h
  · exact ⟨reads, .inl ⟨herr, h.congr ring task lock, hreads⟩⟩
  · exact ⟨reads, .inr ⟨herr, h.congr ring task lock, hreads⟩⟩

abbrev GivingFrame (acc : List (List Pbuf)) (outs : List Output) (p : List Pbuf) (reads : List (TxPtr × Bool))
    (i : Nat) : Eth → Prop :=
  Giving (fun _ => Sending acc outs p reads) (base acc) p (acc.flatMap block) i i fun _ => True

theorem Copying.begin {d : Nat} (h : Copying acc outs p reads (d + 1) (totLen p) s)
    (hmax : totLen p ≤ ethTxBufNb * ethTxBufSize) (hd : needed p = d + 1) :
    GivingFrame acc outs p reads 0 { s with transmitting := true } where
  rest := ⟨h.ring.congr rfl, rfl, h.accepted, h.outputs, h.answered, h.ownReads, by rw [hd]; exact h.free⟩
  handed := by simp [h.handed]
  txDesc := h.txDesc
  free j _ hj := by
    have hneeded := needed_le hmax
    have hfree := h.free
    have hlength : s.handed.length = base acc := by rw [h.handed]; rfl
    exact h.ring.window.free _ (by omega) (by omega)
  copied := h.copied
  desc _ := trivial

theorem GivingFrame.end (h : GivingFrame acc outs p reads (needed p) s) (lock : s.heth.lock = false) :
    Copying (acc ++ [p]) outs p reads 0 0 { s with transmitting := false, accepted := s.accepted ++ [p] } where
  ring := h.rest.ring.congr rfl
  transmitting := rfl
  accepted := by rw [h.rest.accepted]
  outputs := h.rest.outputs
  answered := h.rest.answered
  handed := by simp [h.handed, ← length_block]
  txDesc := by
    rw [h.txDesc]
    simp [base, length_block]
  lock := lock
  ownReads := h.rest.ownReads
  free := by
    have hfree := h.rest.free
    simpa [base, length_block] using hfree
  copied := fun k hk => absurd hk (Nat.not_lt_zero k)

theorem At.needed_eq {b d : Nat} {c : CopyOut} (h : At b p d (totLen p) c) (hpos : 1 ≤ totLen p) :
    needed p = d + 1 := by
  have hwithin := h.within
  have hoffset := h.offset
  have hfits := h.fits
  have hge : ¬ d + 1 < needed p := by
    rw [lt_needed hpos, Nat.add_one_mul]
    omega
  omega

theorem transmitCopied_safe {r : Option CopyOut} (hpos : 1 ≤ totLen p)
    (hmax : totLen p ≤ ethTxBufNb * ethTxBufSize)
    (h : Gathered (Underway acc outs p) (base acc) p (totLen p) r s) :
    (transmitCopied p r).Safe outputSetting (Done acc outs p) s := by
  cases r with
  | none =>
      obtain ⟨reads, seen, m, h, hstopped, -⟩ := h
      obtain ⟨_, hrest⟩ := h.rest
      exact safe_ret (done_stable .use) ⟨reads, .inr ⟨rfl, { hrest with ownReads := h.ownReads }, hstopped⟩⟩
  | some c =>
      obtain ⟨d, reads, h, hpassed, hc⟩ := h
      have hd := hc.needed_eq hpos
      have h := h.copying hmax (by omega)
      have hlock : Stable outputSetting.rely fun s => s.heth.lock = false :=
        unlocked_stable fun _ _ r => (others_of_rely r).toBystands
      refine safe_modify (copying_stable.and hlock) ⟨h, h.lock⟩
        (fun t ht => (ht.1.begin hmax hd).rest.standing) fun t ht _ => ?_
      rw [hc.framelength]
      have htransmit := halEthTransmitFrame_safe sending_handover hpos (needed_le hmax) (ht.1.begin hmax hd)
        (L := fun lock => lock = false) hlock ht.2
      refine .seq _ htransmit fun _ t ht => ?_
      obtain ⟨-, ht⟩ | ⟨hlocked, -⟩ := ht
      · refine safe_modify ((giving_stable sending_handover).and hlock) ht
          (fun t ht => (GivingFrame.end ht.1 ht.2).standing) fun t ht _ => ?_
        exact safe_ret (done_stable .ok) ⟨reads, .inl ⟨rfl, GivingFrame.end ht.1 ht.2, hd ▸ hpassed⟩⟩
      · exact absurd hlocked.symm Bool.false_ne_true

theorem lowLevelOutput_safe (hpos : 1 ≤ totLen p) (hmax : totLen p ≤ ethTxBufNb * ethTxBufSize)
    (h : Copying acc outs p reads 0 0 s) :
    (lowLevelOutput p).Safe outputSetting (Done acc outs p) s := by
  have hclear : ∀ t, Copying acc outs p reads 0 0 t → Copying acc outs p [] 0 0 { t with ownReads := [] } :=
    fun t ht => { ht with ring := ht.ring.congr rfl, ownReads := rfl }
  refine safe_modify copying_stable h (fun t ht => (hclear t ht).standing) fun t ht _ => ?_
  refine safe_get copying_stable (hclear t ht) (fun t ht => ht.standing) fun t ht => ?_
  rw [Eth.txDesc, ht.ring.buffer, ht.txDesc]
  refine safe_get copying_stable ht (fun t ht => ht.standing) fun t ht => ?_
  rw [ht.txDesc]
  have hnil : p ≠ [] := by
    rintro rfl
    exact Nat.not_succ_le_zero 0 hpos
  refine .seq _ (copyChain_gathered underway_surroundings ht.underway ht.ownReads hnil)
    fun r t hr => ?_
  refine .seq _ (transmitCopied_safe hpos hmax hr) fun err t ht => ?_
  refine safe_get (done_stable err) ht (fun t ht => ht.standing) fun t ht => ?_
  refine .seq (fun _ => Done acc outs p err) (safe_when (fun _ => ?_) fun _ => safe_ret (done_stable err) ht)
    fun _ t ht => safe_ret (done_stable err) ht
  have hclear : ∀ t, Done acc outs p err t → Done acc outs p err { t with dmasr.tus := false } :=
    fun t ht => ht.congr rfl rfl rfl
  have hpoll : ∀ t, Done acc outs p err t → Done acc outs p err t.transmitPollDemand :=
    fun t ht => ht.congr rfl rfl rfl
  refine safe_modify (done_stable err) ht (fun t ht => (hclear t ht).standing) fun t ht _ => ?_
  exact safe_modify (k := ret) (done_stable err) (hclear t ht) (fun t ht => (hpoll t ht).standing)
    fun t ht _ => safe_ret (done_stable err) (hpoll t ht)

end

end Oinzen.Transmit
