import Oinzen.Transmit.Queue

/-!
# Rings that differ in stale bytes

Two states may differ in bytes that the DMA does not send. A call does the same in both: what it hands
over it has written before.
-/

namespace Oinzen.Transmit

open Ring Interference Relation Prog

structure Twin (b m : Nat) (s u : Eth) : Prop extends Alike s u where
  sent : ∀ i, (u.dmaTxDscrTab i).own = true → ∀ j, j < (u.dmaTxDscrTab i).tbs1 → s.txBuff i j = u.txBuff i j
  cells : ∀ k, k < m → s.txBuff (slot ethTxBufNb (b + k / ethTxBufSize)) (k % ethTxBufSize) =
    u.txBuff (slot ethTxBufNb (b + k / ethTxBufSize)) (k % ethTxBufSize)

structure Copies (b m n : Nat) (s u : Eth) : Prop extends Twin b m s u where
  txDesc : s.heth.txDesc = slot ethTxBufNb b
  seen : ∀ j, j < n → (s.dmaTxDscrTab (slot ethTxBufNb (b + j))).own = false

theorem alike_matched {s u t : Eth} (h : Alike s u)
    (rows : ∀ i, (u.dmaTxDscrTab i).own = true →
      bytes (s.txBuff i) (u.dmaTxDscrTab i).tbs1 = bytes (u.txBuff i) (u.dmaTxDscrTab i).tbs1)
    (e : Completes s t) : ∃ v, Completes u v ∧ Alike t v ∧ v.txBuff = u.txBuff ∧ v.copiedOut = u.copiedOut ∧
      ∀ i, (v.dmaTxDscrTab i).own = true → u.dmaTxDscrTab i = v.dmaTxDscrTab i := by
  obtain ⟨i, hown, rfl⟩ | ⟨ts, tbus, tus, ais, rfl⟩ := e
  · rw [h.dmaTxDscrTab] at hown
    refine ⟨_, .inl ⟨i, hown, rfl⟩, ⟨?_, h.heth, ?_, ?_, h.handed, h.tbus⟩, rfl, rfl, fun j hj => ?_⟩
    · constructor <;> intro j <;> by_cases hij : j = i <;>
        simp [Eth.sendTx, Eth.updateTxDesc, hij, h.linked.next, h.linked.buffer]
    · simp [Eth.sendTx, Eth.updateTxDesc, h.dmaTxDscrTab]
    · simp [Eth.sendTx, h.dmaTxDscrTab, h.dma, h.linked.buffer, rows i hown]
    · by_cases hij : j = i
      · simp [Eth.sendTx, Eth.updateTxDesc, hij] at hj
      · simp [Eth.sendTx, Eth.updateTxDesc, hij]
  · refine ⟨_, .inr ⟨ts, tbus, tus, ais, rfl⟩, ?_, rfl, rfl, fun _ _ => rfl⟩
    exact { h with linked := h.linked.congr rfl, tbus := by simp [Eth.raise, h.tbus] }

section

variable {b m n d : Nat} {s u : Eth}

theorem bytes_congr {row row' : Nat → UInt8} {n : Nat} (h : ∀ j, j < n → row j = row' j) : bytes row n = bytes row' n :=
  List.map_congr_left fun j hj => h j (List.mem_range.mp hj)

theorem twin_matched (b m : Nat) : Matched Completes (Twin b m) := by
  intro s u t h e
  obtain ⟨v, hv, halike, hbuff, -, hsame⟩ := alike_matched h.toAlike (fun i hi => bytes_congr (h.sent i hi)) e
  refine ⟨v, hv, halike, fun i hi => ?_, ?_⟩
  · rw [e.spares.txBuff, hbuff, ← hsame i hi]
    exact h.sent i (by rw [hsame i hi]; exact hi)
  · rw [e.spares.txBuff, hbuff]
    exact h.cells

theorem copies_matched (b m n : Nat) : Matched Completes (Copies b m n) := by
  intro s u t h e
  obtain ⟨v, hv, htwin⟩ := twin_matched b m h.toTwin e
  exact ⟨v, hv, htwin, e.spares.txDesc.trans h.txDesc, fun j hj => e.spares.own (h.seen j hj)⟩

theorem Twin.none (h : Twin b m s u) (b' : Nat) : Twin b' 0 s u :=
  { h with cells := fun _ hk => absurd hk (Nat.not_lt_zero _) }

theorem Twin.copy (h : Twin b m s u) (hown : (s.dmaTxDscrTab (slot ethTxBufNb (b + d))).own = false) {o n po : Nat}
    (hm : m = d * ethTxBufSize + o) (hfit : o + n ≤ ethTxBufSize) (q : Pbuf) (log log' : List (Memcpy ethTxBufNb)) :
    Twin b (m + n)
      { s with
        txBuff := Function.update s.txBuff (slot ethTxBufNb (b + d))
          (memcpy (s.txBuff (slot ethTxBufNb (b + d))) o q.payload po n)
        copiedOut := log }
      { u with
        txBuff := Function.update u.txBuff (slot ethTxBufNb (b + d))
          (memcpy (u.txBuff (slot ethTxBufNb (b + d))) o q.payload po n)
        copiedOut := log' } := by
  refine { h with linked := h.linked.congr rfl, sent := fun i hi => ?_, cells := fun k hk => ?_ }
  · have hne : i ≠ slot ethTxBufNb (b + d) := by
      rintro rfl
      rw [h.dmaTxDscrTab] at hown
      exact Bool.false_ne_true (hown.symm.trans hi)
    simp only [Function.update_of_ne hne]
    exact h.sent i hi
  · by_cases hslot : slot ethTxBufNb (b + k / ethTxBufSize) = slot ethTxBufNb (b + d)
    · simp only [hslot, Function.update_self, memcpy]
      split
      · rfl
      · rename_i hout
        rw [← hslot]
        refine h.cells k ?_
        unfold ethTxBufSize at *
        by_contra hge
        have hdiv : k / 2016 = d := by omega
        omega
    · simp only [Function.update_of_ne hslot]
      refine h.cells k ?_
      by_contra hge
      refine hslot (congrArg (fun x => slot ethTxBufNb (b + x)) ?_)
      unfold ethTxBufSize at *
      omega

/-! ## The copy -/

theorem isBufferAvailable_twin {i : TxPtr} (h : Copies b m n s u) :
    Simulates Completes (isBufferAvailable i) (isBufferAvailable i)
      (fun free t free' v => free' = free ∧ Copies b m n t v ∧ (free = true → (t.dmaTxDscrTab i).own = false)) s u := by
  have hlog : ∀ {t v : Eth} {log log' : List (TxPtr × Bool)}, Copies b m n t v →
      Copies b m n { t with ownReads := log } { v with ownReads := log' } := fun ht =>
    { ht with linked := ht.linked.congr rfl }
  refine simulates_get (copies_matched b m n) h fun t v ht => ?_
  rw [ht.dmaTxDscrTab]
  cases hown : (v.dmaTxDscrTab i).own with
  | true =>
      refine simulates_modify (copies_matched b m n) ht fun t v ht => ?_
      exact simulates_ret (copies_matched b m n) (hlog ht) fun _ _ ht => ⟨rfl, ht, nofun⟩
  | false =>
      have hmatched : Matched Completes fun s u => Copies b m n s u ∧ (s.dmaTxDscrTab i).own = false := by
        intro s u t h e
        obtain ⟨v, hv, hc⟩ := copies_matched b m n h.1 e
        exact ⟨v, hv, hc, e.spares.own h.2⟩
      have hfree : (t.dmaTxDscrTab i).own = false := by rw [ht.dmaTxDscrTab]; exact hown
      refine simulates_modify hmatched ⟨ht, hfree⟩ fun t v ht => ?_
      exact simulates_ret hmatched ⟨hlog ht.1, ht.2⟩ fun _ _ ht => ⟨rfl, ht.1, fun _ => ht.2⟩

theorem Copies.see (h : Copies b m d s u) (hown : (s.dmaTxDscrTab (slot ethTxBufNb (b + d))).own = false) :
    Copies b m (d + 1) s u := by
  refine { h with seen := fun j hj => ?_ }
  rcases Nat.lt_succ_iff_lt_or_eq.mp hj with hlt | rfl
  · exact h.seen j hlt
  · exact hown

def CopiedAlike (b : Nat) : Option CopyOut → Eth → Option CopyOut → Eth → Prop
  | some c, t, c', v => c' = some c ∧ ∃ d m n, Stands b d m c ∧ Copies b m n t v ∧ (0 < m → d + 1 ≤ n)
  | none, t, c', v => c' = none ∧ Twin b 0 t v

theorem copyPbuf_twin (q : Pbuf) (c : CopyOut) (po left : Nat) (h : Copies b m (d + 1) s u)
    (hc : Stands b d m c) :
    Simulates Completes (copyPbuf q c po left) (copyPbuf q c po left) (CopiedAlike b) s u := by
  have hcopy : ∀ {c : CopyOut} {d m po n : Nat} {t v : Eth} {log log' : List (Memcpy ethTxBufNb)},
      Stands b d m c → c.bufferoffset + n ≤ ethTxBufSize → Copies b m (d + 1) t v →
      Copies b (m + n) (d + 1)
        { t with
          txBuff := Function.update t.txBuff c.buffer (memcpy (t.txBuff c.buffer) c.bufferoffset q.payload po n)
          copiedOut := log }
        { v with
          txBuff := Function.update v.txBuff c.buffer (memcpy (v.txBuff c.buffer) c.bufferoffset q.payload po n)
          copiedOut := log' } := by
    intro c d m po n t v log log' hc hfit h
    rw [hc.buffer]
    exact ⟨h.copy (h.seen d (Nat.lt_succ_self d)) hc.offset hfit q _ _, h.txDesc, h.seen⟩
  induction c, po, left using copyPbuf.induct generalizing s u d m with
  | case1 c po left hmore room =>
      rename_i ih
      have hfits := hc.fits
      have hroom : c.bufferoffset + room = ethTxBufSize := Nat.add_sub_cancel' hfits
      rw [copyPbuf, dif_pos hmore]
      refine simulates_modify (copies_matched _ _ _) h fun t v ht => ?_
      refine simulates_get (copies_matched _ _ _) (hcopy hc (Nat.le_of_eq hroom) ht) fun t v ht => ?_
      rw [ht.dmaTxDscrTab, ht.linked.next, hc.desc, slot_succ]
      refine .seq (isBufferAvailable_twin ht) fun _ t free v hbuf => ?_
      obtain ⟨rfl, ht, hseen⟩ := hbuf
      cases free with
      | false => exact simulates_ret (twin_matched b 0) (ht.none b) fun _ _ ht => ⟨rfl, ht⟩
      | true =>
          refine simulates_get (copies_matched _ _ _) (ht.see (hseen rfl)) fun t v ht => ?_
          rw [ht.dmaTxDscrTab, ht.linked.buffer]
          exact ih _ _ ht (hc.next hroom)
  | case2 c po left hlast =>
      rw [copyPbuf, dif_neg hlast]
      refine simulates_modify (copies_matched _ _ _) h fun t v ht => ?_
      exact simulates_ret (copies_matched _ _ _) (hcopy hc (by omega) ht) fun t v ht =>
        ⟨rfl, d, _, _, hc.stay (by omega), ht, fun _ => Nat.le_refl _⟩

theorem copyChain_twin (q : List Pbuf) (c : CopyOut) (h : Copies b m n s u) (hn : 0 < m → d + 1 ≤ n)
    (hc : Stands b d m c) : Simulates Completes (copyChain q c) (copyChain q c) (CopiedAlike b) s u := by
  induction q generalizing c d m n s u with
  | nil => exact simulates_ret (copies_matched _ _ _) h fun t v ht => ⟨rfl, d, m, n, hc, ht, hn⟩
  | cons q rest ih =>
      rw [copyChain, hc.desc]
      refine .seq (isBufferAvailable_twin h) fun _ t free v hbuf => ?_
      obtain ⟨rfl, ht, hseen⟩ := hbuf
      cases free with
      | false => exact simulates_ret (twin_matched b 0) (ht.none b) fun _ _ ht => ⟨rfl, ht⟩
      | true =>
          have hd : d ≤ n := by
            have hoffset := hc.offset
            have hsize := ethTxBufSize_pos
            rcases Nat.eq_zero_or_pos d with rfl | hpos
            · exact Nat.zero_le n
            · have hle : ethTxBufSize ≤ d * ethTxBufSize := Nat.le_mul_of_pos_left _ hpos
              have := hn (by omega)
              omega
          have hcur : Copies b m d t v := { ht with seen := fun j hj => ht.seen j (by omega) }
          refine .seq (copyPbuf_twin q c 0 q.len (hcur.see (hseen rfl)) hc) fun r t r' v hr => ?_
          cases r with
          | none =>
              obtain ⟨rfl, ht⟩ := hr
              exact simulates_ret (twin_matched b 0) ht fun _ _ ht => ⟨rfl, ht⟩
          | some c =>
              obtain ⟨rfl, d, m, n, hc, ht, hn⟩ := hr
              exact ih c ht hn hc

/-! ## The transmission -/

/-- `heth.TxDesc` has moved `pos` descriptors on from `b`, those from the `i`-th on that the frame still needs
are free, and when `set` the `i`-th is set up for bytes that were written. -/
structure Handing (b m i pos : Nat) (set : Prop) (s u : Eth) : Prop extends Twin b m s u where
  txDesc : s.heth.txDesc = slot ethTxBufNb (b + pos)
  free : ∀ j, i ≤ j → j < bufcountOf m → j < ethTxBufNb → (s.dmaTxDscrTab (slot ethTxBufNb (b + j))).own = false
  size : set → (s.dmaTxDscrTab (slot ethTxBufNb (b + i))).tbs1 ≤ ethTxBufSize ∧
    i * ethTxBufSize + (s.dmaTxDscrTab (slot ethTxBufNb (b + i))).tbs1 ≤ m

variable {i pos : Nat} {set set' : Prop}

theorem lt_bufcountOf (hm : 0 < m) : i < bufcountOf m ↔ i * ethTxBufSize < m := by
  unfold bufcountOf ethTxBufSize
  split
  · split <;> omega
  · omega

theorem handing_matched (b m i pos : Nat) (set : Prop) : Matched Completes (Handing b m i pos set) := by
  intro s u t h e
  obtain ⟨v, hv, ht⟩ := twin_matched b m h.toTwin e
  refine ⟨v, hv, ht, e.spares.txDesc.trans h.txDesc, fun j hj hj' hnb => ?_, fun hset => ?_⟩
  · exact e.spares.own (h.free j hj hj' hnb)
  · rw [e.tbs1]
    exact h.size hset

theorem Handing.row (h : Handing b m i pos set s u) (hm : 0 < m) (hi : i < bufcountOf m)
    (hown : (s.dmaTxDscrTab (slot ethTxBufNb (b + i))).own = true) {j : Nat} (hj : j < ethTxBufSize) :
    s.txBuff (slot ethTxBufNb (b + i)) j = u.txBuff (slot ethTxBufNb (b + i)) j := by
  have hnb : ethTxBufNb ≤ i := by
    by_contra hlt
    exact Bool.false_ne_true ((h.free i (Nat.le_refl i) hi (by omega)).symm.trans hown)
  have hslot : slot ethTxBufNb (b + i) = slot ethTxBufNb (b + (i - ethTxBufNb)) := by
    apply Fin.ext
    change (b + i) % ethTxBufNb = (b + (i - ethTxBufNb)) % ethTxBufNb
    rw [show b + i = b + (i - ethTxBufNb) + ethTxBufNb by omega, Nat.add_mod_right]
  have hlap := Nat.mul_le_mul_right ethTxBufSize (show i - ethTxBufNb + 1 ≤ i by omega)
  have hcell := h.cells ((i - ethTxBufNb) * ethTxBufSize + j)
  rw [lt_bufcountOf hm] at hi
  rw [Nat.add_one_mul] at hlap
  rw [Nat.mul_comm, Nat.mul_add_div ethTxBufSize_pos, Nat.div_eq_of_lt hj, Nat.mul_add_mod, Nat.mod_eq_of_lt hj,
    Nat.add_zero, Nat.mul_comm] at hcell
  rw [hslot]
  exact hcell (by omega)

theorem Alike.updateCurTxDesc (h : Alike s u) {f : TxDesc → TxDesc}
    (next : ∀ d, (f d).buffer2NextDescAddr = d.buffer2NextDescAddr) (buffer : ∀ d, (f d).buffer1Addr = d.buffer1Addr) :
    Alike (s.updateCurTxDesc f) (u.updateCurTxDesc f) := by
  refine ⟨h.linked.updateCurTxDesc next buffer, h.heth, ?_, h.dma, h.handed, h.tbus⟩
  funext k
  rw [dmaTxDscrTab_updateCurTxDesc, dmaTxDscrTab_updateCurTxDesc, h.heth, h.dmaTxDscrTab]

theorem Handing.setup (h : Handing b m i i set s u) (hm : 0 < m) (hi : i < bufcountOf m) {f : TxDesc → TxDesc}
    (keeps : ∀ d, (f d).own = d.own ∧ (f d).buffer1Addr = d.buffer1Addr ∧
      (f d).buffer2NextDescAddr = d.buffer2NextDescAddr)
    (size : ∀ d, (f d).tbs1 = d.tbs1 ∨ (f d).tbs1 ≤ ethTxBufSize)
    (fits : set' → ∀ d, (set → d.tbs1 ≤ ethTxBufSize ∧ i * ethTxBufSize + d.tbs1 ≤ m) →
      (f d).tbs1 ≤ ethTxBufSize ∧ i * ethTxBufSize + (f d).tbs1 ≤ m) :
    Handing b m i i set' (s.updateCurTxDesc f) (u.updateCurTxDesc f) := by
  have halike := h.toAlike.updateCurTxDesc (fun d => (keeps d).2.2) fun d => (keeps d).2.1
  have htx : u.heth.txDesc = slot ethTxBufNb (b + i) := by rw [← h.heth]; exact h.txDesc
  refine ⟨⟨halike, fun k hk => ?_, h.cells⟩, h.txDesc, fun j hj hj' hnb => ?_, fun hset => ?_⟩
  · rw [dmaTxDscrTab_updateCurTxDesc] at hk ⊢
    split at hk <;> rename_i hcur
    · rw [(keeps _).1] at hk
      rw [if_pos hcur]
      intro j hj
      rcases size (u.dmaTxDscrTab k) with hsame | hle
      · exact h.sent k hk j (hsame ▸ hj)
      · obtain rfl := hcur.trans htx
        exact h.row hm hi (by rw [h.dmaTxDscrTab]; exact hk) (by omega)
    · rw [if_neg hcur]
      exact h.sent k hk
  · rw [dmaTxDscrTab_updateCurTxDesc, apply_ite TxDesc.own, (keeps _).1, ite_self]
    exact h.free j hj hj' hnb
  · rw [dmaTxDscrTab_updateCurTxDesc, if_pos h.txDesc.symm]
    exact fits hset _ h.size

theorem Handing.give (h : Handing b m i i True s u) :
    Handing b m (i + 1) i False
      { s.updateCurTxDesc fun d => { d with own := true } with
        handed := s.handed ++ [⟨s.txDesc.fs, s.txDesc.ls, bytes (s.txBuff s.txDesc.buffer1Addr) s.txDesc.tbs1⟩] }
      { u.updateCurTxDesc fun d => { d with own := true } with
        handed := u.handed ++ [⟨u.txDesc.fs, u.txDesc.ls, bytes (u.txBuff u.txDesc.buffer1Addr) u.txDesc.tbs1⟩] } := by
  obtain ⟨hle, hfits⟩ := h.size trivial
  have htx : u.heth.txDesc = slot ethTxBufNb (b + i) := by rw [← h.heth]; exact h.txDesc
  have hbytes : ∀ j, j < (u.dmaTxDscrTab (slot ethTxBufNb (b + i))).tbs1 →
      s.txBuff (slot ethTxBufNb (b + i)) j = u.txBuff (slot ethTxBufNb (b + i)) j := by
    intro j hj
    rw [← h.dmaTxDscrTab] at hj
    have hcell := h.cells (i * ethTxBufSize + j) (by omega)
    rwa [Nat.mul_comm, Nat.mul_add_div ethTxBufSize_pos, Nat.div_eq_of_lt (by omega), Nat.mul_add_mod,
      Nat.mod_eq_of_lt (by omega), Nat.add_zero] at hcell
  have halike := h.toAlike.updateCurTxDesc (f := fun d => { d with own := true }) (fun _ => rfl) fun _ => rfl
  have hseg : (⟨s.txDesc.fs, s.txDesc.ls, bytes (s.txBuff s.txDesc.buffer1Addr) s.txDesc.tbs1⟩ : TxSeg) =
      ⟨u.txDesc.fs, u.txDesc.ls, bytes (u.txBuff u.txDesc.buffer1Addr) u.txDesc.tbs1⟩ := by
    rw [Eth.txDesc, Eth.txDesc, h.heth, h.dmaTxDscrTab, h.linked.buffer, htx, bytes_congr hbytes]
  refine ⟨⟨⟨halike.linked.congr rfl, halike.heth, halike.dmaTxDscrTab, halike.dma, ?_, halike.tbus⟩,
    fun k hk => ?_, h.cells⟩, h.txDesc, fun j hj hj' hnb => ?_, False.elim⟩
  · change s.handed ++ [_] = u.handed ++ [_]
    rw [h.handed, hseg]
  · simp only [dmaTxDscrTab_updateCurTxDesc] at hk ⊢
    split at hk <;> rename_i hcur
    · obtain rfl := hcur.trans htx
      rw [if_pos hcur]
      exact hbytes
    · rw [if_neg hcur]
      exact h.sent k hk
  · have hne : slot ethTxBufNb (b + j) ≠ s.heth.txDesc := by
      rw [h.txDesc]
      exact slot_ne b (by omega) (by omega) (by omega)
    simp only [dmaTxDscrTab_updateCurTxDesc, if_neg hne]
    exact h.free j (by omega) hj' hnb

theorem Handing.move (h : Handing b m (i + 1) i False s u) :
    Handing b m (i + 1) (i + 1) False { s with heth.txDesc := s.txDesc.buffer2NextDescAddr }
      { u with heth.txDesc := u.txDesc.buffer2NextDescAddr } := by
  have htx : u.heth.txDesc = slot ethTxBufNb (b + i) := by rw [← h.heth]; exact h.txDesc
  have hs : s.txDesc.buffer2NextDescAddr = slot ethTxBufNb (b + (i + 1)) := by
    rw [Eth.txDesc, h.txDesc, h.linked_left.next, slot_succ, Nat.add_assoc]
  have hu : u.txDesc.buffer2NextDescAddr = slot ethTxBufNb (b + (i + 1)) := by
    rw [Eth.txDesc, htx, h.linked.next, slot_succ, Nat.add_assoc]
  rw [hs, hu]
  exact { h with
    linked := h.linked.congr rfl, heth := by rw [h.heth], txDesc := rfl, size := False.elim }

/-! ## Programs -/

variable {α : Type} {k l : Unit → Code Eth α} {P : α → Eth → α → Eth → Prop}

theorem setup_twin (set' : Prop) {f : TxDesc → TxDesc} (h : Handing b m i i set s u) (hm : 0 < m)
    (hi : i < bufcountOf m)
    (keeps : ∀ d, (f d).own = d.own ∧ (f d).buffer1Addr = d.buffer1Addr ∧
      (f d).buffer2NextDescAddr = d.buffer2NextDescAddr)
    (size : ∀ d, (f d).tbs1 = d.tbs1 ∨ (f d).tbs1 ≤ ethTxBufSize)
    (fits : set' → ∀ d, (set → d.tbs1 ≤ ethTxBufSize ∧ i * ethTxBufSize + d.tbs1 ≤ m) →
      (f d).tbs1 ≤ ethTxBufSize ∧ i * ethTxBufSize + (f d).tbs1 ≤ m)
    (next : ∀ t v, Handing b m i i set' t v → Simulates Completes (k ()) (l ()) P t v) :
    Simulates Completes (modify (Eth.updateCurTxDesc f) >>= k) (modify (Eth.updateCurTxDesc f) >>= l) P s u := by
  refine simulates_modify (R := Handing b m i i set) (handing_matched _ _ _ _ _) h fun t v ht => ?_
  exact next _ _ (ht.setup hm hi keeps size fits)

theorem giveTxDesc_twin (h : Handing b m i i True s u) :
    Simulates Completes giveTxDesc giveTxDesc (fun _ t _ v => Handing b m (i + 1) (i + 1) False t v) s u := by
  refine simulates_modify (handing_matched _ _ _ _ _) h fun t v ht => ?_
  refine simulates_act (handing_matched _ _ _ _ _) ht.give fun t v ht => ?_
  exact simulates_ret (handing_matched _ _ _ _ _) ht.move fun _ _ ht => ht

theorem transmitSegments_twin (hm : 0 < m) (n : Nat) (hn : i + n = bufcountOf m) (h : Handing b m i i False s u) :
    Simulates Completes (transmitSegments m (bufcountOf m) n) (transmitSegments m (bufcountOf m) n)
      (fun _ t _ v => Twin b m t v) s u := by
  induction n generalizing i s u with
  | zero => exact simulates_ret (handing_matched _ _ _ _ _) h fun _ _ ht => ht.toTwin
  | succ n ih =>
      have hi : i < bufcountOf m := by omega
      have hindex : bufcountOf m - (n + 1) = i := by omega
      have hlt := (lt_bufcountOf (i := i) hm).mp hi
      have hnext := lt_bufcountOf (i := i + 1) hm
      rw [Nat.add_one_mul] at hnext
      rw [transmitSegments, hindex]
      refine setup_twin False h hm hi (fun _ => ⟨rfl, rfl, rfl⟩) (fun _ => .inl rfl) False.elim fun t v ht => ?_
      refine .seq (P := fun _ t _ v => Handing b m i i False t v) ?_ fun _ t _ v ht => ?_
      · cases decide (i = 0) with
        | true =>
            exact setup_twin (k := ret) (l := ret) False ht hm hi (fun _ => ⟨rfl, rfl, rfl⟩) (fun _ => .inl rfl)
              False.elim fun t v ht => simulates_ret (handing_matched _ _ _ _ _) ht fun _ _ ht => ht
        | false => exact simulates_ret (handing_matched _ _ _ _ _) ht fun _ _ ht => ht
      have hfull : ethTxBufSize &&& 0x1FFF = ethTxBufSize := and_tbs1 (Nat.le_refl _)
      -- only the last descriptor is not full
      refine setup_twin (i + 1 < bufcountOf m) ht hm hi (fun _ => ⟨rfl, rfl, rfl⟩) (fun _ => .inr (Nat.le_of_eq hfull))
        (fun hmore _ _ => ?_) fun t v ht => ?_
      · simp only [hfull]
        exact ⟨Nat.le_refl _, by omega⟩
      refine .seq (P := fun _ t _ v => Handing b m i i True t v) ?_ fun _ t _ v ht => ?_
      · cases hlast : decide (i = bufcountOf m - 1) with
        | true =>
            have hi' : bufcountOf m - 1 = i := (of_decide_eq_true hlast).symm
            have hle : m - i * ethTxBufSize ≤ ethTxBufSize := by omega
            rw [hi']
            refine setup_twin False ht hm hi (fun _ => ⟨rfl, rfl, rfl⟩) (fun _ => .inl rfl) False.elim fun t v ht => ?_
            refine setup_twin (k := ret) (l := ret) True ht hm hi (fun _ => ⟨rfl, rfl, rfl⟩)
              (fun _ => .inr (by rw [and_tbs1 hle]; exact hle)) (fun _ _ _ => ?_)
              fun t v ht => simulates_ret (handing_matched _ _ _ _ _) ht fun _ _ ht => ht
            rw [and_tbs1 hle]
            exact ⟨hle, Nat.le_of_eq (Nat.add_sub_cancel' (Nat.le_of_lt hlt))⟩
        | false =>
            have hmore : i + 1 < bufcountOf m := by
              have := of_decide_eq_false hlast
              omega
            exact simulates_ret (handing_matched _ _ _ _ _) ⟨ht.toTwin, ht.txDesc, ht.free, fun _ => ht.size hmore⟩
              fun _ _ ht => ht
      · exact .seq (giveTxDesc_twin ht) fun _ t _ v ht => ih (by omega) ht

theorem transmitBuffers_twin (hm : 0 < m) (h : Handing b m 0 0 False s u) :
    Simulates Completes (transmitBuffers m (bufcountOf m)) (transmitBuffers m (bufcountOf m))
      (fun _ t _ v => Twin b m t v) s u := by
  unfold transmitBuffers
  split
  · rename_i hone
    have hi : 0 < bufcountOf m := by omega
    have hle : m ≤ ethTxBufSize := by
      have := lt_bufcountOf (i := 1) hm
      omega
    refine setup_twin False h hm hi (fun _ => ⟨rfl, rfl, rfl⟩) (fun _ => .inl rfl) False.elim fun t v ht => ?_
    refine setup_twin True ht hm hi (fun _ => ⟨rfl, rfl, rfl⟩) (fun _ => .inr (by rw [and_tbs1 hle]; exact hle))
      (fun _ _ _ => ?_) fun t v ht => ?_
    · rw [and_tbs1 hle]
      exact ⟨hle, Nat.le_of_eq (by rw [Nat.zero_mul, Nat.zero_add])⟩
    · exact (giveTxDesc_twin ht).mono fun _ _ _ _ hlast => hlast.toTwin
  · exact transmitSegments_twin hm _ (Nat.zero_add _) h

theorem Twin.setLock (h : Twin b m s u) (x : Bool) : Twin b m (s.setLock x) (u.setLock x) :=
  { h with linked := h.linked.congr rfl, heth := by simp [Eth.setLock, h.heth] }

theorem Twin.setState (h : Twin b m s u) (x : HalEthState) : Twin b m (s.setState x) (u.setState x) :=
  { h with linked := h.linked.congr rfl, heth := by simp [Eth.setState, h.heth] }

theorem halReturn_twin (state : HalEthState) (status : HalStatus) (h : Twin b m s u) :
    Simulates Completes (halReturn state status) (halReturn state status) (fun _ t _ v => Twin b m t v) s u := by
  refine simulates_modify (twin_matched b m) h fun t v ht => ?_
  refine simulates_modify (twin_matched b m) (ht.setState state) fun t v ht => ?_
  exact simulates_ret (twin_matched b m) (ht.setLock false) fun _ _ ht => ht

theorem halEthTransmitFrame_twin (h : Copies b m n s u) (hn : m ≤ n * ethTxBufSize) :
    Simulates Completes (halEthTransmitFrame m) (halEthTransmitFrame m) (fun _ t _ v => Twin b m t v) s u := by
  refine simulates_get (copies_matched b m n) h fun t v ht => ?_
  rw [ht.heth]
  split
  · exact simulates_ret (copies_matched b m n) ht fun _ _ ht => ht.toTwin
  refine simulates_modify (copies_matched b m n) ht fun t v ht => ?_
  have ht : Copies b m n (t.setLock true) (v.setLock true) := ⟨ht.setLock true, ht.txDesc, ht.seen⟩
  refine simulates_modify (copies_matched b m n) ht fun t v ht => ?_
  have ht : Copies b m n (t.setState .busy) (v.setState .busy) := ⟨ht.setState .busy, ht.txDesc, ht.seen⟩
  split
  · exact halReturn_twin _ _ ht.toTwin
  rename_i hzero
  have hm : 0 < m := Nat.pos_of_ne_zero hzero
  refine simulates_get (copies_matched b m n) ht fun t v ht => ?_
  rw [Eth.txDesc, Eth.txDesc, ht.heth, ht.dmaTxDscrTab]
  split
  · exact halReturn_twin _ _ ht.toTwin
  have hfree : ∀ j, 0 ≤ j → j < bufcountOf m → j < ethTxBufNb →
      (t.dmaTxDscrTab (slot ethTxBufNb (b + j))).own = false := by
    intro j _ hj _
    rw [lt_bufcountOf hm] at hj
    exact ht.seen j (Nat.lt_of_mul_lt_mul_right (a := ethTxBufSize) (by omega))
  refine .seq (transmitBuffers_twin hm ⟨ht.toTwin, ht.txDesc, hfree, False.elim⟩) fun _ t _ v ht => ?_
  refine simulates_get (twin_matched b m) ht fun t v ht => ?_
  rw [ht.tbus]
  refine .seq (P := fun _ t _ v => Twin b m t v) ?_ fun _ t _ v ht => halReturn_twin _ _ ht
  cases v.dmasr.tbus with
  | true =>
      have hclear : ∀ {t v}, Twin b m t v →
          Twin b m { t with dmasr.tbus := false } { v with dmasr.tbus := false } := fun ht =>
        { ht with linked := ht.linked.congr rfl, tbus := rfl }
      have hpoll : ∀ {t v : Eth}, Twin b m t v → Twin b m t.transmitPollDemand v.transmitPollDemand := fun ht =>
        { ht with linked := ht.linked.congr rfl }
      refine simulates_modify (twin_matched b m) ht fun t v ht => ?_
      refine simulates_act (twin_matched b m) (hclear ht) fun t v ht => ?_
      exact simulates_ret (twin_matched b m) (hpoll ht) fun _ _ ht => ht
  | false => exact simulates_ret (twin_matched b m) ht fun _ _ ht => ht

/-! ## The call -/

theorem transmitCopied_twin (p : List Pbuf) {r r' : Option CopyOut} (h : CopiedAlike b r s r' u) :
    Simulates Completes (transmitCopied p r) (transmitCopied p r') (fun a t a' v => a' = a ∧ Twin b 0 t v) s u := by
  cases r with
  | none =>
      obtain ⟨rfl, h⟩ := h
      exact simulates_ret (twin_matched b 0) h fun _ _ ht => ⟨rfl, ht⟩
  | some c =>
      obtain ⟨rfl, d, m, n, hc, h, hn⟩ := h
      have hfits : m ≤ n * ethTxBufSize := by
        rcases Nat.eq_zero_or_pos m with rfl | hm
        · exact Nat.zero_le _
        · have hle := Nat.mul_le_mul_right ethTxBufSize (hn hm)
          rw [Nat.add_one_mul] at hle
          have := hc.offset
          have := hc.fits
          omega
      refine simulates_modify (copies_matched b m n) h fun t v ht => ?_
      have ht : Copies b m n { t with transmitting := true } { v with transmitting := true } :=
        { ht with linked := ht.linked.congr rfl }
      rw [hc.framelength]
      refine .seq (halEthTransmitFrame_twin ht hfits) fun _ t _ v ht => ?_
      refine simulates_modify (twin_matched b m) ht fun t v ht => ?_
      have hlast : Twin b m { t with transmitting := false, accepted := t.accepted ++ [p] }
          { v with transmitting := false, accepted := v.accepted ++ [p] } :=
        { ht with linked := ht.linked.congr rfl }
      exact simulates_ret (twin_matched b m) hlast fun _ _ ht => ⟨rfl, ht.none b⟩

theorem clearUnderflow_twin (errval : ErrT) (h : Twin b 0 s u) :
    Simulates Completes (clearUnderflow errval) (clearUnderflow errval)
      (fun a t a' v => a' = a ∧ Twin b 0 t v) s u := by
  have hleft : ∀ {t v : Eth}, Twin b 0 t v → Twin b 0 { t with dmasr.tus := false } v := fun ht => { ht with }
  have hpoll : ∀ {t v : Eth}, Twin b 0 t v → Twin b 0 t.transmitPollDemand v := fun ht => { ht with }
  have hright : ∀ {t v : Eth}, Twin b 0 t v →
      Twin b 0 t ({ v with dmasr.tus := false } : Eth).transmitPollDemand := fun ht =>
    { ht with linked := ht.linked.congr rfl }
  have hlast : ∀ {t v : Eth}, Twin b 0 t v → Simulates Completes (ret errval) (clearUnderflow errval)
      (fun a t a' v => a' = a ∧ Twin b 0 t v) t v := by
    intro t v ht
    refine simulates_get_right ?_
    cases v.dmasr.tus with
    | true =>
        rw [when_true, bind_assoc]
        refine simulates_modify_right ?_
        refine simulates_modify_right ?_
        exact simulates_ret (twin_matched b 0) (hright ht) fun _ _ ht => ⟨rfl, ht⟩
    | false => exact simulates_ret (twin_matched b 0) ht fun _ _ ht => ⟨rfl, ht⟩
  refine simulates_get_left (twin_matched b 0) h fun t v ht => ?_
  cases t.dmasr.tus with
  | true =>
      rw [when_true, bind_assoc]
      refine simulates_modify_left (twin_matched b 0) ht fun t v ht => ?_
      exact simulates_modify_left (twin_matched b 0) (hleft ht) fun t v ht => hlast (hpoll ht)
  | false => exact hlast ht

theorem lowLevelOutput_twin (q : List Pbuf) (h : Twin b 0 s u) :
    Simulates Completes (lowLevelOutput q) (lowLevelOutput q) (fun a t a' v => a' = a ∧ Twin b 0 t v) s u := by
  have hstart : ∀ {t v : Eth}, Copies s.heth.txDesc.val 0 0 t v →
      Copies s.heth.txDesc.val 0 0 { t with ownReads := [] } { v with ownReads := [] } := fun ht =>
    { ht with linked := ht.linked.congr rfl }
  have hcopies : Copies s.heth.txDesc.val 0 0 s u := ⟨h.none _, (slot_val _).symm, nofun⟩
  refine simulates_modify (copies_matched _ _ _) hcopies fun t v ht => ?_
  refine simulates_get (copies_matched _ _ _) (hstart ht) fun t v ht => ?_
  rw [Eth.txDesc, Eth.txDesc, ht.linked_left.buffer, ht.linked.buffer, ← ht.heth, ht.txDesc]
  refine simulates_get (copies_matched _ _ _) ht fun t v ht => ?_
  rw [← ht.heth, ht.txDesc]
  have hstands : Stands s.heth.txDesc.val 0 0
      ⟨slot ethTxBufNb s.heth.txDesc.val, slot ethTxBufNb s.heth.txDesc.val, 0, 0⟩ :=
    ⟨rfl, rfl, rfl, (Nat.zero_mul _).symm, Nat.zero_le _⟩
  refine .seq (copyChain_twin q _ ht (fun hm => absurd hm (Nat.lt_irrefl 0)) hstands) fun r t r' v hr => ?_
  refine .seq (transmitCopied_twin q hr) fun a t a' v ha => ?_
  obtain ⟨rfl, ht⟩ := ha
  exact (clearUnderflow_twin _ ht).mono fun _ _ _ _ hlast => ⟨hlast.1, hlast.2.none b⟩

end

end Oinzen.Transmit
