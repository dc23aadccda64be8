import Mathlib.Data.List.Basic
import Oinzen.Interference.Twin
import Oinzen.Transmit.Calls

/-!
# One call of `low_level_output`

What a call makes of a ring with whatever earlier frames have left there.
-/

namespace Oinzen

open Ring Interference Relation

namespace Transmit

open Prog

/-! ## The copy -/

/-- The DMA sends from a descriptor and gives it back, in whatever order, or raises flags. -/
def Completes (s t : Eth) : Prop :=
  (∃ i, (s.dmaTxDscrTab i).own = true ∧ t = ({ s with dma.txCur := i } : Eth).sendTx) ∨
    ∃ ts tbus tus ais, t = s.raise ts tbus tus ais

theorem Completes.spares {s t : Eth} (h : Completes s t) : Spares s t := by
  obtain ⟨i, hown, rfl⟩ | ⟨_, _, _, _, rfl⟩ := h
  · exact spares_sendTx hown
  · exact ⟨⟨rfl, rfl, rfl, id, rfl, rfl, rfl, rfl, rfl, rfl, rfl, rfl, rfl, rfl⟩, fun hl => hl.congr rfl,
      fun _ _ => rfl⟩

theorem Completes.lock {s t : Eth} (h : Completes s t) : t.heth.lock = s.heth.lock := by
  obtain ⟨i, -, rfl⟩ | ⟨_, _, _, _, rfl⟩ := h <;> rfl

theorem Completes.tbs1 {s t : Eth} (h : Completes s t) (i : TxPtr) :
    (t.dmaTxDscrTab i).tbs1 = (s.dmaTxDscrTab i).tbs1 := by
  obtain ⟨j, -, rfl⟩ | ⟨_, _, _, _, rfl⟩ := h
  · by_cases hij : i = j <;> simp [Eth.sendTx, Eth.updateTxDesc, hij]
  · rfl

structure Alike (s u : Eth) : Prop where
  linked : Linked u
  heth : s.heth = u.heth
  dmaTxDscrTab : s.dmaTxDscrTab = u.dmaTxDscrTab
  dma : s.dma = u.dma
  handed : s.handed = u.handed
  tbus : s.dmasr.tbus = u.dmasr.tbus

structure Aside (b : Nat) (p : List Pbuf) (s u : Eth) : Prop extends Alike s u where
  rows : ∀ i, ((u.dmaTxDscrTab i).own = true ∨ ∀ j, j < needed p → i ≠ slot ethTxBufNb (b + j)) →
    s.txBuff i = u.txBuff i
  log : ∃ new, s.copiedOut = u.copiedOut ++ new ∧ ∀ e ∈ new, Inside e

theorem aside_refl (b : Nat) (p : List Pbuf) {s : Eth} (linked : Linked s) : Aside b p s s :=
  ⟨⟨linked, rfl, rfl, rfl, rfl, rfl⟩, fun _ _ => rfl, [], by simp, nofun⟩

structure Gathering (rely : Eth → Eth → Prop) (p : List Pbuf) (s t : Eth) : Prop where
  linked : Linked t
  txDesc : t.heth.txDesc = s.heth.txDesc
  handed : t.handed = s.handed
  lock : t.heth.lock = true → s.heth.lock = true
  held : (∀ x y, rely x y → y.heth.lock = x.heth.lock) → t.heth.lock = s.heth.lock
  alone : (∀ x y, ¬ rely x y) → Aside s.heth.txDesc.val p t s

section

variable {rely : Eth → Eth → Prop} {b : Nat} {p : List Pbuf} {s u : Eth}

theorem Alike.linked_left (h : Alike s u) : Linked s :=
  h.linked.congr h.dmaTxDscrTab

theorem Aside.see (h : Aside b p s u) (log : List (TxPtr × Bool)) : Aside b p { s with ownReads := log } u :=
  { h with }

theorem Aside.copy (h : Aside b p s u) {d : Nat} (hd : d < needed p)
    (hown : (s.dmaTxDscrTab (slot ethTxBufNb (b + d))).own = false) (row : Nat → UInt8) {e : Memcpy ethTxBufNb}
    (he : Inside e) :
    Aside b p { s with
      txBuff := Function.update s.txBuff (slot ethTxBufNb (b + d)) row, copiedOut := s.copiedOut ++ [e] } u := by
  refine { h with rows := fun i hi => ?_, log := ?_ }
  · have hne : i ≠ slot ethTxBufNb (b + d) := by
      rintro rfl
      rcases hi with hi | hi
      · rw [h.dmaTxDscrTab, hi] at hown
        exact Bool.false_ne_true hown.symm
      · exact hi d hd rfl
    exact (Function.update_of_ne hne _ _).trans (h.rows i hi)
  · obtain ⟨new, hnew, hinside⟩ := h.log
    refine ⟨new ++ [e], by simp [hnew], ?_⟩
    exact List.forall_mem_append.mpr ⟨hinside, List.forall_mem_singleton.mpr he⟩

theorem gathering_surroundings (spares : ∀ x y, rely x y → Spares x y) :
    Surroundings (beside rely) s.heth.txDesc.val p (Gathering rely p s) where
  stable x y r h :=
    have hs := spares x y r
    { linked := hs.linked h.linked
      txDesc := hs.txDesc.trans h.txDesc
      handed := hs.handed.trans h.handed
      lock := fun hlock => h.lock (hs.lock hlock)
      held := fun hheld => (hheld x y r).trans (h.held hheld)
      alone := fun halone => absurd r (halone x y) }
  buff r := (spares _ _ r).txBuff
  ownReads r := (spares _ _ r).ownReads
  free r := (spares _ _ r).own
  linked h := h.linked
  quiet _ := trivial
  see log h :=
    ⟨{ h with linked := h.linked.congr rfl, alone := fun halone => (h.alone halone).see log }, trivial⟩
  copy row _ h hd hown he :=
    ⟨{ h with
      linked := h.linked.congr rfl
      alone := fun halone => (h.alone halone).copy hd hown row he }, trivial⟩

end

/-! ## The transmission -/

/-- `i` descriptors from `b` on were given to the DMA since `s`, set up for the first segments of `p`; another
may be in hand. -/
structure Given (b : Nat) (p : List Pbuf) (s : Eth) (i : Nat) (t : Eth) : Prop where
  given : ∀ j, j < i → (t.dmaTxDscrTab (slot ethTxBufNb (b + j))).own = true ∧
    Described p j (t.dmaTxDscrTab (slot ethTxBufNb (b + j)))
  rest : ∀ k, (∀ j, j ≤ i → j < needed p → k ≠ slot ethTxBufNb (b + j)) → t.dmaTxDscrTab k = s.dmaTxDscrTab k
  txBuff : t.txBuff = s.txBuff
  copiedOut : t.copiedOut = s.copiedOut

structure Progress (rely : Eth → Eth → Prop) (b : Nat) (p : List Pbuf) (reads : List (TxPtr × Bool)) (s : Eth)
    (i : Nat) (t : Eth) : Prop where
  linked : Linked t
  ownReads : t.ownReads = reads
  alone : (∀ x y, ¬ rely x y) → Given b p s i t

section

variable {rely : Eth → Eth → Prop} {b i : Nat} {p : List Pbuf} {reads : List (TxPtr × Bool)} {before : List TxSeg}
  {s t : Eth}

theorem Given.setup (h : Given b p s i t) (hneeded : needed p ≤ ethTxBufNb) (hi : i < needed p)
    (txDesc : t.heth.txDesc = slot ethTxBufNb (b + i)) (f : TxDesc → TxDesc) :
    Given b p s i (t.updateCurTxDesc f) := by
  have hne : ∀ j, j < i → slot ethTxBufNb (b + j) ≠ slot ethTxBufNb (b + i) :=
    fun j hj => slot_ne b (by omega) (by omega) (by omega)
  refine { h with given := fun j hj => ?_, rest := fun k hk => ?_ }
  · simpa [Eth.updateCurTxDesc, Eth.updateTxDesc, txDesc, hne j hj] using h.given j hj
  · simpa [Eth.updateCurTxDesc, Eth.updateTxDesc, txDesc, hk i (Nat.le_refl i) hi] using h.rest k hk

theorem Given.give (h : Given b p s i t) (hneeded : needed p ≤ ethTxBufNb) (hi : i < needed p)
    (txDesc : t.heth.txDesc = slot ethTxBufNb (b + i))
    (described : Described p i (t.dmaTxDscrTab (slot ethTxBufNb (b + i)))) : Given b p s (i + 1) (handOver t) := by
  have hset := h.setup hneeded hi txDesc fun d => { d with own := true }
  refine ⟨fun j hj => ?_, fun k hk => hset.rest k fun j hj => hk j (Nat.le_succ_of_le hj), hset.txBuff, hset.copiedOut⟩
  rcases Nat.lt_succ_iff_lt_or_eq.mp hj with hlt | rfl
  · exact hset.given j hlt
  · simp only [handOver, Eth.updateCurTxDesc, Eth.updateTxDesc, txDesc, Function.update_self, true_and]
    exact ⟨described.fs, described.ls, described.tbs1⟩

theorem Given.congr {t' : Eth} (h : Given b p s i t) (tab : t'.dmaTxDscrTab = t.dmaTxDscrTab)
    (buff : t'.txBuff = t.txBuff) (log : t'.copiedOut = t.copiedOut) : Given b p s i t' :=
  ⟨by rw [tab]; exact h.given, by rw [tab]; exact h.rest, buff.trans h.txBuff, log.trans h.copiedOut⟩

theorem progress_handover (spares : ∀ x y, rely x y → Spares x y) (hneeded : needed p ≤ ethTxBufNb) :
    Handover (beside rely) b p before (Progress rely b p reads s) where
  stable i x y r h :=
    have hs := spares x y r
    ⟨hs.linked h.linked, hs.ownReads.trans h.ownReads, fun halone => absurd r (halone x y)⟩
  spares r := spares _ _ r
  linked h := h.linked
  aside h e := by
    simp only [memoryPart, Prod.mk.injEq] at e
    obtain ⟨htab, hbuff, -, -, hreads, -, -, -, hlog⟩ := e
    exact ⟨⟨h.linked.congr htab, hreads.trans h.ownReads,
      fun halone => (h.alone halone).congr htab hbuff hlog⟩, trivial⟩
  setup h hi txDesc _ keeps :=
    ⟨⟨h.linked.updateCurTxDesc keeps.next keeps.buffer, h.ownReads,
      fun halone => (h.alone halone).setup hneeded hi txDesc _⟩, trivial⟩
  give {i t} h hi := by
    have hlinked : Linked (handOver t) :=
      have hset := h.rest.linked.updateCurTxDesc (f := fun d => { d with own := true }) (fun _ => rfl) fun _ => rfl
      hset.congr rfl
    exact ⟨⟨hlinked, h.rest.ownReads, fun halone => (h.rest.alone halone).give hneeded hi h.txDesc (h.desc hi)⟩,
      trivial⟩

end

/-! ## The call -/

/-- How the handle was found: its lock may have been given up since the call. -/
structure Found (rely : Eth → Eth → Prop) (s : Eth) (found : Bool) : Prop where
  lock : found = true → s.heth.lock = true
  held : (∀ x y, rely x y → y.heth.lock = x.heth.lock) → found = s.heth.lock

structure Ready (rely : Eth → Eth → Prop) (p : List Pbuf) (reads : List (TxPtr × Bool)) (s u : Eth) : Prop where
  gathering : Gathering rely p s u
  passed : Passed s.heth.txDesc.val (needed p) reads
  free : ∀ j, j < needed p → (u.dmaTxDscrTab (slot ethTxBufNb (s.heth.txDesc.val + j))).own = false
  copied : Copied s.heth.txDesc.val p (totLen p) u

structure Outcome (rely : Eth → Eth → Prop) (p : List Pbuf) (reads : List (TxPtr × Bool)) (s u : Eth) (i : Nat)
    (t : Eth) : Prop where
  ready : Ready rely p reads s u
  progress : Progress rely s.heth.txDesc.val p reads u i t
  txDesc : t.heth.txDesc = slot ethTxBufNb (s.heth.txDesc.val + i)
  handed : t.handed = s.handed ++ (block p).take i
  free : ∀ j, i ≤ j → j < needed p → (t.dmaTxDscrTab (slot ethTxBufNb (s.heth.txDesc.val + j))).own = false

inductive Finished (rely : Eth → Eth → Prop) (p : List Pbuf) (s : Eth) : ErrT → Eth → Prop
  | sent {reads u t} (lock : Found rely s false) (outcome : Outcome rely p reads s u (needed p) t) :
      Finished rely p s .ok t
  | lost {reads u t} (lock : Found rely s true) (outcome : Outcome rely p reads s u 0 t) : Finished rely p s .ok t
  | refused {t} (stopped : Stopped s.heth.txDesc.val p t.ownReads)
      (met : Met (Gathering rely p s) s.heth.txDesc.val p) (handed : t.handed = s.handed) : Finished rely p s .use t

def outcomePart (s : Eth) : TxPtr × (TxPtr → TxDesc) × (TxPtr → Nat → UInt8) × List (Memcpy ethTxBufNb) ×
    List TxSeg × List (TxPtr × Bool) :=
  (s.heth.txDesc, s.dmaTxDscrTab, s.txBuff, s.copiedOut, s.handed, s.ownReads)

section

variable {rely : Eth → Eth → Prop} {p : List Pbuf} {reads : List (TxPtr × Bool)} {s t u : Eth} {i : Nat} {err : ErrT}

theorem slot_txDesc (s : Eth) (j : Nat) :
    slot ethTxBufNb (s.heth.txDesc.val + j) = s.heth.txDesc + Fin.ofNat _ j := by
  rw [slot_add, slot_val]

theorem Outcome.congr {t' : Eth} (h : Outcome rely p reads s u i t) (e : outcomePart t' = outcomePart t) :
    Outcome rely p reads s u i t' := by
  simp only [outcomePart, Prod.mk.injEq] at e
  obtain ⟨htxDesc, htab, hbuff, hlog, hhanded, hreads⟩ := e
  obtain ⟨hready, ⟨hlinked, hown, halone⟩, htx, hblocks, hfree⟩ := h
  exact ⟨hready, ⟨hlinked.congr htab, hreads.trans hown, fun h => (halone h).congr htab hbuff hlog⟩,
    htxDesc.trans htx, hhanded.trans hblocks, by rw [htab]; exact hfree⟩

theorem Finished.congr {t' : Eth} (h : Finished rely p s err t) (e : outcomePart t' = outcomePart t) :
    Finished rely p s err t' := by
  cases h with
  | sent lock outcome => exact .sent lock (outcome.congr e)
  | lost lock outcome => exact .lost lock (outcome.congr e)
  | refused stopped met handed =>
      simp only [outcomePart, Prod.mk.injEq] at e
      obtain ⟨-, -, -, -, hhanded, hreads⟩ := e
      exact .refused (by rw [hreads]; exact stopped) met (hhanded.trans handed)

theorem outcome_stable (spares : ∀ x y, rely x y → Spares x y) :
    Stable (beside rely).rely (Outcome rely p reads s u i) := by
  intro x y r h
  have hs := spares x y r
  obtain ⟨hready, ⟨hlinked, hown, -⟩, htx, hblocks, hfree⟩ := h
  exact ⟨hready, ⟨hs.linked hlinked, hs.ownReads.trans hown, fun halone => absurd r (halone x y)⟩,
    hs.txDesc.trans htx, hs.handed.trans hblocks, fun j hj hj' => hs.own (hfree j hj hj')⟩

theorem finished_stable (spares : ∀ x y, rely x y → Spares x y) :
    Stable (beside rely).rely (Finished rely p s err) := by
  intro x y r h
  have hs := spares x y r
  cases h with
  | sent lock outcome => exact .sent lock (outcome_stable spares r outcome)
  | lost lock outcome => exact .lost lock (outcome_stable spares r outcome)
  | refused stopped met handed => exact .refused (by rw [hs.ownReads]; exact stopped) met (hs.handed.trans handed)

theorem found_stable (spares : ∀ x y, rely x y → Spares x y) :
    Stable (beside rely).rely fun t => Found rely s t.heth.lock :=
  fun x y r h => ⟨fun hlock => h.lock ((spares x y r).lock hlock), fun hheld => (hheld x y r).trans (h.held hheld)⟩

theorem transmitCopied_finished (spares : ∀ x y, rely x y → Spares x y) (hpos : 1 ≤ totLen p)
    (hmax : totLen p ≤ ethTxBufNb * ethTxBufSize) {r : Option CopyOut} {t : Eth}
    (h : Gathered (Gathering rely p s) s.heth.txDesc.val p (totLen p) r t) :
    (transmitCopied p r).Safe (beside rely) (Finished rely p s) t := by
  cases r with
  | none =>
      obtain ⟨reads, seen, m, h, hstopped, hmet⟩ := h
      exact safe_ret (finished_stable spares) (.refused (by rw [h.ownReads]; exact hstopped) hmet h.rest.handed)
  | some c =>
      obtain ⟨d, reads, h, hpassed, hc⟩ := h
      have hneeded := hc.needed_eq hpos
      have hle := needed_le hmax
      have hready : ∀ u, Filling (Gathering rely p s) s.heth.txDesc.val p reads (d + 1) (totLen p) u →
          Ready rely p reads s u := fun u hu =>
        ⟨hu.rest, hneeded ▸ hpassed, fun j hj => hu.free j (hneeded ▸ hj), hu.copied hmax⟩
      refine beside_modify ((filling_stable (gathering_surroundings spares))) h fun u hu => ?_
      have hgiving : Giving (Progress rely s.heth.txDesc.val p reads u) s.heth.txDesc.val p s.handed 0 0
          (fun _ => True) { u with transmitting := true } :=
        { rest := ⟨hu.rest.linked.congr rfl, hu.ownReads,
          fun _ => ⟨nofun, fun _ _ => rfl, rfl, rfl⟩⟩
          txDesc := by rw [Nat.add_zero, slot_val]; exact hu.rest.txDesc
          handed := by rw [List.take_zero, List.append_nil]; exact hu.rest.handed
          free := fun j _ hj => (hready u hu).free j hj
          copied := (hready u hu).copied
          desc := fun _ => trivial }
      have hfound : Found rely s u.heth.lock := ⟨hu.rest.lock, hu.rest.held⟩
      rw [hc.framelength]
      have htransmit := halEthTransmitFrame_safe (progress_handover spares hle) hpos hle hgiving
        (L := Found rely s) (found_stable spares) hfound
      have hrecord : ∀ {i : Nat} {t : Eth}, Outcome rely p reads s u i t →
          Outcome rely p reads s u i { t with transmitting := false, accepted := t.accepted ++ [p] } :=
        fun h => h.congr rfl
      refine .seq _ htransmit fun _ t ht => ?_
      obtain ⟨hlock, hgiving, -⟩ | ⟨hlock, hgiving⟩ := ht
      · have ht : Outcome rely p reads s u (needed p) t :=
          ⟨hready u hu, hgiving.rest, hgiving.txDesc, hgiving.handed, hgiving.free⟩
        refine beside_modify (outcome_stable spares) ht fun t ht => ?_
        exact safe_ret (finished_stable spares) (.sent hlock (hrecord ht))
      · have ht : Outcome rely p reads s u 0 t :=
          ⟨hready u hu, hgiving.rest, hgiving.txDesc, hgiving.handed, hgiving.free⟩
        refine beside_modify (outcome_stable spares) ht fun t ht => ?_
        exact safe_ret (finished_stable spares) (.lost hlock (hrecord ht))

def clearUnderflow (errval : ErrT) : Code Eth ErrT := do
  Prog.when (← Prog.get fun s => s.dmasr.tus) do
    Prog.modify fun s => { s with dmasr.tus := false }
    Prog.modify Eth.transmitPollDemand
  pure errval

theorem clearUnderflow_safe {Q : ErrT → Eth → Prop} {errval : ErrT} (stable : Stable (beside rely).rely (Q errval))
    (clear : ∀ t tus polls, Q errval t → Q errval { t with dmasr.tus := tus, dmatpdr := polls }) (h : Q errval s) :
    (clearUnderflow errval).Safe (beside rely) Q s := by
  refine beside_get stable h fun t ht => ?_
  cases t.dmasr.tus with
  | true =>
      rw [when_true, bind_assoc]
      refine beside_modify stable ht fun t ht => ?_
      refine beside_modify stable (clear t false _ ht) fun t ht => ?_
      exact safe_ret stable (clear t _ _ ht)
  | false => exact safe_ret stable ht

theorem lowLevelOutput_finished (spares : ∀ x y, rely x y → Spares x y) (linked : Linked s) (hpos : 1 ≤ totLen p)
    (hmax : totLen p ≤ ethTxBufNb * ethTxBufSize) :
    (lowLevelOutput p).Safe (beside rely) (Finished rely p s) s := by
  have hnil : p ≠ [] := by
    rintro rfl
    exact Nat.not_succ_le_zero 0 hpos
  have hsur := gathering_surroundings (p := p) (s := s) spares
  have hstable : Stable (beside rely).rely fun t => Gathering rely p s t ∧ t.ownReads = [] :=
    hsur.stable.and fun _ _ r h => (hsur.ownReads r).trans h
  have hstart : Gathering rely p s s :=
    ⟨linked, rfl, rfl, id, fun _ => rfl, fun _ => aside_refl _ p linked⟩
  refine beside_modify hsur.stable hstart fun t ht => ?_
  refine beside_get hstable ⟨(hsur.see [] ht).1, rfl⟩ fun t ht => ?_
  have hbuffer : t.txDesc.buffer1Addr = slot ethTxBufNb s.heth.txDesc.val := by
    rw [Eth.txDesc, ht.1.linked.buffer, ht.1.txDesc, slot_val]
  rw [hbuffer]
  refine beside_get hstable ht fun t ht => ?_
  rw [show t.heth.txDesc = slot ethTxBufNb s.heth.txDesc.val by rw [ht.1.txDesc, slot_val]]
  refine .seq _ (copyChain_gathered hsur ht.1 ht.2 hnil) fun r t ht => ?_
  refine .seq _ (transmitCopied_finished spares hpos hmax ht) fun err t ht => ?_
  exact clearUnderflow_safe (finished_stable spares) (fun _ _ _ h => h.congr rfl) ht

/-! ## Results -/

structure Queued (p : List Pbuf) (s t : Eth) : Prop where
  became : ∀ j, j < needed p → (s.dmaTxDscrTab (s.heth.txDesc + Fin.ofNat _ j)).own = false ∧
    (t.dmaTxDscrTab (s.heth.txDesc + Fin.ofNat _ j)).own = true
  txDesc : t.heth.txDesc = s.heth.txDesc + Fin.ofNat _ (needed p)

structure Carries (p : List Pbuf) (s t : Eth) : Prop extends Queued p s t where
  fs : ∀ j, j < needed p → ((t.dmaTxDscrTab (s.heth.txDesc + Fin.ofNat _ j)).fs = true ↔ j = 0)
  ls : ∀ j, j < needed p → ((t.dmaTxDscrTab (s.heth.txDesc + Fin.ofNat _ j)).ls = true ↔ j + 1 = needed p)
  sizes : ((List.range (needed p)).map fun j => (t.dmaTxDscrTab (s.heth.txDesc + Fin.ofNat _ j)).tbs1).sum = totLen p
  data : ((List.range (needed p)).flatMap fun j =>
    bytes (t.txBuff (t.dmaTxDscrTab (s.heth.txDesc + Fin.ofNat _ j)).buffer1Addr)
      (t.dmaTxDscrTab (s.heth.txDesc + Fin.ofNat _ j)).tbs1) = chainBytes p
  rest : ∀ i, (∀ j, j < needed p → i ≠ s.heth.txDesc + Fin.ofNat _ j) →
    t.dmaTxDscrTab i = s.dmaTxDscrTab i ∧ t.txBuff i = s.txBuff i
  copies : ∃ new, t.copiedOut = s.copiedOut ++ new ∧ ∀ e ∈ new, Inside e

/-- The segments of the frame were given to the DMA, and `heth.TxDesc` has moved on behind them. -/
structure HandedOver (p : List Pbuf) (s t : Eth) : Prop where
  handed : t.handed = s.handed ++ block p
  txDesc : t.heth.txDesc = s.heth.txDesc + Fin.ofNat _ (needed p)

theorem Outcome.carries (h : Outcome rely p reads s u (needed p) t) (halone : ∀ x y, ¬ rely x y) :
    Carries p s t := by
  have hgiven := h.progress.alone halone
  have haside := h.ready.gathering.alone halone
  have hfree := h.ready.free
  have hset := hgiven.given
  simp only [slot_txDesc] at hfree hset
  rw [haside.dmaTxDscrTab] at hfree
  have hlinked := h.progress.linked.buffer
  have hdata : ((List.range (needed p)).flatMap fun j =>
      bytes (t.txBuff (t.dmaTxDscrTab (s.heth.txDesc + Fin.ofNat _ j)).buffer1Addr)
        (t.dmaTxDscrTab (s.heth.txDesc + Fin.ofNat _ j)).tbs1) = chainBytes p := by
    calc _ = (List.range (needed p)).flatMap fun j => ((chainBytes p).drop (j * ethTxBufSize)).take ethTxBufSize := by
          refine List.flatMap_congr fun j hj => ?_
          rw [(hset j (List.mem_range.mp hj)).2.tbs1, hlinked, hgiven.txBuff, h.ready.copied.chunk, slot_txDesc]
      _ = chainBytes p := by
          rw [flatMap_chunks, List.take_of_length_le]
          rw [length_chainBytes]
          exact totLen_le_needed p
  refine ⟨⟨fun j hj => ⟨hfree j hj, (hset j hj).1⟩, ?_⟩, fun j hj => ?_, fun j hj => ?_, ?_, hdata,
    fun i hi => ⟨?_, ?_⟩, ?_⟩
  · rw [h.txDesc, slot_txDesc]
  · rw [(hset j hj).2.fs, decide_eq_true_eq]
  · rw [(hset j hj).2.ls, decide_eq_true_eq]
    omega
  · have hlength := congrArg List.length hdata
    rwa [length_chainBytes, List.length_flatMap, funext fun j => length_bytes _ _] at hlength
  · rw [hgiven.rest i fun j _ hj => slot_txDesc s j ▸ hi j hj, haside.dmaTxDscrTab]
  · rw [hgiven.txBuff]
    exact haside.rows i (.inr fun j hj => slot_txDesc s j ▸ hi j hj)
  · rw [hgiven.copiedOut]
    exact haside.log

theorem Finished.carries (h : Finished rely p s err t) (halone : ∀ x y, ¬ rely x y)
    (free : ∀ j, j < needed p → (s.dmaTxDscrTab (s.heth.txDesc + Fin.ofNat _ j)).own = false)
    (unlocked : s.heth.lock = false) : err = .ok ∧ Carries p s t := by
  cases h with
  | sent _ outcome => exact ⟨rfl, outcome.carries halone⟩
  | lost found => exact absurd (unlocked.symm.trans (found.lock rfl)) Bool.false_ne_true
  | refused stopped met handed =>
      obtain ⟨u, j, hu, hj, hown⟩ := met
      rw [(hu.alone halone).dmaTxDscrTab, slot_txDesc, free j hj] at hown
      exact absurd hown Bool.false_ne_true

theorem Finished.queued_iff (h : Finished rely p s err t) (halone : ∀ x y, ¬ rely x y) :
    (err = .ok ↔ Queued p s t) ↔
      (s.heth.lock = false ∨ ∃ j, j < needed p ∧ (s.dmaTxDscrTab (s.heth.txDesc + Fin.ofNat _ j)).own = true) := by
  have hheld : ∀ x y, rely x y → y.heth.lock = x.heth.lock := fun x y r => absurd r (halone x y)
  cases h with
  | sent found outcome =>
      exact iff_of_true (iff_of_true rfl (outcome.carries halone).toQueued) (.inl (found.held hheld).symm)
  | lost found outcome =>
      have haside := outcome.ready.gathering.alone halone
      have hfree := outcome.ready.free
      simp only [slot_txDesc, haside.dmaTxDscrTab] at hfree
      refine iff_of_false (fun hqueued => ?_) ?_
      · have hfirst := ((hqueued.mp rfl).became 0 (needed_pos p)).2
        rw [← slot_txDesc, outcome.free 0 (Nat.le_refl 0) (needed_pos p)] at hfirst
        exact Bool.false_ne_true hfirst
      · rintro (hunlocked | ⟨j, hj, hown⟩)
        · exact Bool.false_ne_true (hunlocked.symm.trans (found.held hheld).symm)
        · exact Bool.false_ne_true ((hfree j hj).symm.trans hown)
  | refused stopped met handed =>
      obtain ⟨u, j, hu, hj, hown⟩ := met
      rw [(hu.alone halone).dmaTxDscrTab, slot_txDesc] at hown
      refine iff_of_true (iff_of_false (by decide) fun hqueued => ?_) (.inr ⟨j, hj, hown⟩)
      exact Bool.false_ne_true ((hqueued.became j hj).1.symm.trans hown)

theorem Passed.not_stopped {b : Nat} (h : Passed b (needed p) reads) {i : TxPtr} : (i, true) ∉ reads := by
  intro hmem
  obtain ⟨j, -, he⟩ := h.only _ hmem
  exact Bool.false_ne_true (congrArg Prod.snd he).symm

theorem not_handedOver (h : t.handed = s.handed) : ¬ HandedOver p s t := by
  intro hover
  have hlength := congrArg List.length (h.symm.trans hover.handed)
  rw [List.length_append, length_block] at hlength
  have := needed_pos p
  omega

theorem Finished.truthful (h : Finished rely p s err t)
    (hfree : s.heth.lock = false ∨ ∃ j, j < needed p ∧ (s.heth.txDesc + Fin.ofNat _ j, true) ∈ t.ownReads) :
    err = .ok ↔ HandedOver p s t := by
  cases h with
  | sent found outcome =>
      refine iff_of_true rfl ⟨?_, ?_⟩
      · rw [outcome.handed, ← length_block, List.take_length]
      · rw [outcome.txDesc, slot_txDesc]
  | lost found outcome =>
      rcases hfree with hunlocked | ⟨j, -, hseen⟩
      · exact absurd (hunlocked.symm.trans (found.lock rfl)) Bool.false_ne_true
      · rw [outcome.progress.ownReads] at hseen
        exact absurd hseen outcome.ready.passed.not_stopped
  | refused stopped met handed => exact iff_of_false nofun (not_handedOver handed)

theorem Finished.truthful_iff (h : Finished rely p s err t) (hheld : ∀ x y, rely x y → y.heth.lock = x.heth.lock) :
    (err = .ok ↔ HandedOver p s t) ↔
      (s.heth.lock = false ∨ ∃ j, j < needed p ∧ (s.heth.txDesc + Fin.ofNat _ j, true) ∈ t.ownReads) := by
  refine ⟨fun htruthful => ?_, h.truthful⟩
  cases h with
  | sent found outcome => exact .inl (found.held hheld).symm
  | lost found outcome =>
      refine absurd (htruthful.mp rfl) (not_handedOver ?_)
      rw [outcome.handed, List.take_zero, List.append_nil]
  | refused stopped met handed =>
      obtain ⟨j, hj, hseen⟩ := stopped.found
      exact .inr ⟨j, hj, slot_txDesc s j ▸ hseen⟩

end

end Transmit

open Transmit

section

variable (answers : Nat → ∀ i, Call.Answer i) (n : Nat) (p : List Pbuf) (s : Eth)

theorem run_finished (linked : Linked s) (hpos : 1 ≤ totLen p) (hmax : totLen p ≤ ethTxBufNb * ethTxBufSize) :
    Finished (fun _ _ => False) p s (Prog.run answers n (lowLevelOutput p) s).1
      (Prog.run answers n (lowLevelOutput p) s).2 :=
  (lowLevelOutput_finished (fun _ _ => False.elim) linked hpos hmax).runs (Prog.runs_run answers n _ s)

/-- A frame that finds its descriptors and the handle free is queued with what the chain has. -/
theorem low_level_output_gathers (linked : Linked s) (hpos : 1 ≤ totLen p)
    (hmax : totLen p ≤ ethTxBufNb * ethTxBufSize)
    (free : ∀ j, j < needed p → (s.dmaTxDscrTab (s.heth.txDesc + Fin.ofNat _ j)).own = false)
    (unlocked : s.heth.lock = false) :
    (Prog.run answers n (lowLevelOutput p) s).1 = .ok ∧ Carries p s (Prog.run answers n (lowLevelOutput p) s).2 :=
  (run_finished answers n p s linked hpos hmax).carries (fun _ _ => id) free unlocked

theorem low_level_output_gathers_two :
    (Prog.run (fun _ => Call.granted true) 0 (lowLevelOutput [⟨2000, fun _ => 1⟩, ⟨0, fun _ => 0⟩, ⟨100, fun _ => 2⟩])
      cleared).1 = .ok ∧
    Carries [⟨2000, fun _ => 1⟩, ⟨0, fun _ => 0⟩, ⟨100, fun _ => 2⟩] cleared
      (Prog.run (fun _ => Call.granted true) 0
        (lowLevelOutput [⟨2000, fun _ => 1⟩, ⟨0, fun _ => 0⟩, ⟨100, fun _ => 2⟩]) cleared).2 :=
  low_level_output_gathers _ 0 _ cleared ⟨by decide +kernel, by decide +kernel⟩ (by decide) (by decide)
    (by decide +kernel) (by decide +kernel)

/-- `ERR_OK` says that the frame was queued just when the handle is free, or the frame finds no room; also
while the DMA works and raises flags, and with a free handle while interrupts are served. -/
theorem low_level_output_truthful_iff (linked : Linked s) (hpos : 1 ≤ totLen p)
    (hmax : totLen p ≤ ethTxBufNb * ethTxBufSize) :
    (((Prog.run answers n (lowLevelOutput p) s).1 = .ok ↔ Queued p s (Prog.run answers n (lowLevelOutput p) s).2) ↔
      (s.heth.lock = false ∨ ∃ j, j < needed p ∧ (s.dmaTxDscrTab (s.heth.txDesc + Fin.ofNat _ j)).own = true)) ∧
    (∀ err t, Prog.Runs Completes (lowLevelOutput p) s err t → ((err = .ok ↔ HandedOver p s t) ↔
      (s.heth.lock = false ∨ ∃ j, j < needed p ∧ (s.heth.txDesc + Fin.ofNat _ j, true) ∈ t.ownReads))) ∧
    ∀ err t, Prog.Runs (fun x y => Completes x y ∨ IrqKeeps x y) (lowLevelOutput p) s err t →
      s.heth.lock = false → (err = .ok ↔ HandedOver p s t) := by
  refine ⟨?_, fun err t run => ?_, fun err t run hunlocked => ?_⟩
  · exact (run_finished answers n p s linked hpos hmax).queued_iff fun _ _ => id
  · have hfinished := (lowLevelOutput_finished (fun _ _ => Completes.spares) linked hpos hmax).runs run
    exact hfinished.truthful_iff fun _ _ => Completes.lock
  · have hspares : ∀ x y, Completes x y ∨ IrqKeeps x y → Spares x y := fun x y r =>
      r.elim Completes.spares fun h => (others_of_irq h).toSpares
    exact ((lowLevelOutput_finished hspares linked hpos hmax).runs run).truthful (.inl hunlocked)

def stopping : Eth := (cleared.setLock true).setState .busy

theorem stopping_linked : Linked stopping := ⟨by decide +kernel, by decide +kernel⟩

def unnoticed : ErrT × Eth :=
  Prog.run (fun _ => Call.granted true) 0 (lowLevelOutput [⟨60, fun _ => 0⟩]) (stopping.raise true false false false)

theorem low_level_output_truthful_iff_stopping :
    (((Prog.run (fun _ => Call.granted true) 0 (lowLevelOutput [⟨60, fun _ => 0⟩]) stopping).1 = .ok ↔
      Queued [⟨60, fun _ => 0⟩] stopping
        (Prog.run (fun _ => Call.granted true) 0 (lowLevelOutput [⟨60, fun _ => 0⟩]) stopping).2) ↔
      (stopping.heth.lock = false ∨
        ∃ j, j < needed [⟨60, fun _ => 0⟩] ∧ (stopping.dmaTxDscrTab (stopping.heth.txDesc + Fin.ofNat _ j)).own = true)) ∧
    Prog.Runs Completes (lowLevelOutput [⟨60, fun _ => 0⟩]) stopping unnoticed.1 unnoticed.2 ∧
    unnoticed.1 = .ok ∧ ¬ HandedOver [⟨60, fun _ => 0⟩] stopping unnoticed.2 := by
  obtain ⟨halone, hbeside, -⟩ := low_level_output_truthful_iff (fun _ => Call.granted true) 0
    [⟨60, fun _ => 0⟩] stopping stopping_linked (by decide) (by decide)
  have hrun : Prog.Runs Completes (lowLevelOutput [⟨60, fun _ => 0⟩]) stopping unnoticed.1 unnoticed.2 :=
    (Prog.runs_run _ 0 _ _).before (.single (.inr ⟨true, false, false, false, rfl⟩))
  have hok : unnoticed.1 = .ok := by decide +kernel
  refine ⟨halone, hrun, hok, fun hover => ?_⟩
  exact absurd ((hbeside _ _ hrun).mp (iff_of_true hok hover)) (by decide +kernel)

/-- The frame is lost, and the caller is told that it was sent. -/
theorem low_level_output_locked : ¬ ∀ (answers : Nat → ∀ i, Call.Answer i) (n : Nat) (p : List Pbuf) (s : Eth),
    Linked s → 1 ≤ totLen p → totLen p ≤ ethTxBufNb * ethTxBufSize →
      ((Prog.run answers n (lowLevelOutput p) s).1 = .ok ↔
        Queued p s (Prog.run answers n (lowLevelOutput p) s).2) := by
  intro h
  have htruthful := h (fun _ => Call.granted true) 0 [⟨60, fun _ => 0⟩] stopping stopping_linked (by decide) (by decide)
  have hqueued := htruthful.mp (by decide +kernel)
  exact absurd (hqueued.became 0 (needed_pos _)).2 (by decide +kernel)

end

end Oinzen
