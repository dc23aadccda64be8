import Oinzen.Interference.Frame
import Oinzen.Transmit.Twin

/-!
# Refused calls

A call that is refused may have filled buffers before. They belong to free descriptors, and whatever is
sent from them later is written first.
-/

namespace Oinzen

open Ring Interference Relation

namespace Transmit

open Prog

/-! ## What the DMA does beside the copy -/

def GivenBack (s t : Eth) (i : TxPtr) : Prop :=
  t.dmaTxDscrTab i = s.dmaTxDscrTab i ∨
    (s.dmaTxDscrTab i).own = true ∧ t.dmaTxDscrTab i = { s.dmaTxDscrTab i with own := false }

theorem Completes.givenBack {s t : Eth} (h : Completes s t) (i : TxPtr) : GivenBack s t i := by
  obtain ⟨j, hown, rfl⟩ | ⟨_, _, _, _, rfl⟩ := h
  · by_cases hij : i = j
    · subst hij
      exact .inr ⟨hown, by simp [Eth.sendTx, Eth.updateTxDesc]⟩
    · exact .inl (by simp [Eth.sendTx, Eth.updateTxDesc, hij])
  · exact .inl rfl

theorem run_givenBack {s t : Eth} (e : ReflTransGen Completes s t) (i : TxPtr) : GivenBack s t i := by
  induction e with
  | refl => exact .inl rfl
  | tail _ e ih =>
      rcases ih with ih | ⟨hown, ih⟩ <;> rcases e.givenBack i with h | ⟨h', h⟩
      · exact .inl (h.trans ih)
      · rw [ih] at h h'
        exact .inr ⟨h', h⟩
      · exact .inr ⟨hown, h.trans ih⟩
      · rw [ih] at h'
        exact absurd h' Bool.false_ne_true

theorem run_txDesc {s t : Eth} (e : ReflTransGen Completes s t) : t.heth.txDesc = s.heth.txDesc := by
  induction e with
  | refl => rfl
  | tail _ e ih => exact e.spares.txDesc.trans ih

theorem aside_matched (b : Nat) (p : List Pbuf) : Matched Completes (Aside b p) := by
  intro s u t h e
  obtain ⟨v, hv, halike, hbuff, hlog, hsame⟩ := alike_matched h.toAlike (fun i hi => by rw [h.rows i (.inl hi)]) e
  refine ⟨v, hv, halike, fun i hi => ?_, ?_⟩
  · rw [e.spares.txBuff, hbuff]
    exact h.rows i (hi.imp_left fun hown => by rw [hsame i hown]; exact hown)
  · obtain ⟨i, -, rfl⟩ | ⟨_, _, _, _, rfl⟩ := e <;> rw [hlog] <;> exact h.log

/-- What the copy has made of a state that the DMA alone has reached. -/
def Apart (b : Nat) (p : List Pbuf) (s₀ s : Eth) : Prop := ∃ u, ReflTransGen Completes s₀ u ∧ Aside b p s u

theorem apart_surroundings (b : Nat) (p : List Pbuf) (s₀ : Eth) :
    Surroundings (beside Completes) b p (Apart b p s₀) where
  stable s t r h := by
    obtain ⟨u, hu, h⟩ := h
    obtain ⟨v, hv, h⟩ := aside_matched b p h r
    exact ⟨v, hu.tail hv, h⟩
  buff r := (Completes.spares r).txBuff
  ownReads r := (Completes.spares r).ownReads
  free r := (Completes.spares r).own
  linked h := by
    obtain ⟨u, hu, h⟩ := h
    exact h.linked_left
  quiet _ := trivial
  see log h := by
    obtain ⟨u, hu, h⟩ := h
    exact ⟨⟨u, hu, h.see log⟩, trivial⟩
  copy row _ h hd hown he := by
    obtain ⟨u, hu, h⟩ := h
    exact ⟨⟨u, hu, h.copy hd hown row he⟩, trivial⟩

/-! ## The log of the copies -/

abbrev logFrame : Frame Eth (List (Memcpy ethTxBufNb)) Unit := .watch Eth.copiedOut

theorem avoids_giveTxDesc : logFrame.Avoids giveTxDesc :=
  .bind (.watch_modify fun _ => rfl) fun _ => .watch_modify fun _ => rfl

theorem avoids_transmitSegments (m k : Nat) : ∀ n, logFrame.Avoids (transmitSegments m k n)
  | 0 => .ret
  | n + 1 =>
      .bind (.watch_modify fun _ => rfl) fun _ => .bind (.when (.watch_modify fun _ => rfl)) fun _ =>
        .bind (.watch_modify fun _ => rfl) fun _ =>
        .bind (.when (.bind (.watch_modify fun _ => rfl) fun _ => .watch_modify fun _ => rfl)) fun _ =>
        .bind avoids_giveTxDesc fun _ => avoids_transmitSegments m k n

theorem avoids_transmitBuffers (m k : Nat) : logFrame.Avoids (transmitBuffers m k) :=
  .ite (.bind (.watch_modify fun _ => rfl) fun _ => .bind (.watch_modify fun _ => rfl) fun _ => avoids_giveTxDesc)
    (avoids_transmitSegments m k k)

theorem avoids_halReturn (state : HalEthState) (status : HalStatus) : logFrame.Avoids (halReturn state status) :=
  .bind (.watch_modify fun _ => rfl) fun _ => .bind (.watch_modify fun _ => rfl) fun _ => .ret

theorem avoids_clearFlag {c : Bool} {f : Eth → Eth} (h : ∀ s, (f s).copiedOut = s.copiedOut) :
    logFrame.Avoids (Prog.when c do Prog.modify f; Prog.modify Eth.transmitPollDemand : Code Eth Unit) :=
  .when <| .bind (.watch_modify h) fun _ => .watch_modify fun _ => rfl

theorem avoids_halEthTransmitFrame (m : Nat) : logFrame.Avoids (halEthTransmitFrame m) :=
  .bind (.watch_get _) fun _ => .ite .ret <| .bind (.watch_modify fun _ => rfl) fun _ =>
    .bind (.watch_modify fun _ => rfl) fun _ => .ite (avoids_halReturn _ _) <| .bind (.watch_get _) fun _ =>
    .ite (avoids_halReturn _ _) <| .bind (avoids_transmitBuffers _ _) fun _ => .bind (.watch_get _) fun _ =>
    .bind (avoids_clearFlag fun _ => rfl) fun _ => avoids_halReturn _ _

/-! ## The call -/

def LoggedSince (s t : Eth) : Prop := ∃ new, t.copiedOut = s.copiedOut ++ new ∧ ∀ e ∈ new, Inside e

section

variable {b : Nat} {p : List Pbuf} {s₀ s t u : Eth} {log : List (Memcpy ethTxBufNb)}

theorem log_stable : Stable (beside Completes).rely fun s => s.copiedOut = log :=
  fun _ _ e h => (Completes.spares e).copiedOut.trans h

theorem apart_stable : Stable (beside Completes).rely (Apart b p s₀) :=
  (apart_surroundings b p s₀).stable

theorem Apart.logged (h : Apart b p s₀ s) : LoggedSince s₀ s := by
  obtain ⟨u, hu, h⟩ := h
  have hlog := log_stable.run hu (rfl : s₀.copiedOut = s₀.copiedOut)
  obtain ⟨new, hnew, hinside⟩ := h.log
  exact ⟨new, hnew.trans (congrArg (· ++ new) hlog), hinside⟩

theorem copyChain_apart (h : Apart b p s₀ s) (reads : s.ownReads = []) :
    (copyChain p ⟨slot ethTxBufNb b, slot ethTxBufNb b, 0, 0⟩).Safe (beside Completes)
      (fun _ => Apart b p s₀) s := by
  cases p with
  | nil => exact safe_ret apart_stable h
  | cons q rest =>
      refine (copyChain_gathered (apart_surroundings _ _ _) h reads (by simp)).mono fun r t hr => ?_
      cases r with
      | none =>
          obtain ⟨_, _, _, h, -, -⟩ := hr
          exact h.rest
      | some c =>
          obtain ⟨_, _, h, -, -⟩ := hr
          exact h.rest

def Closed (b : Nat) (p : List Pbuf) (s : Eth) (err : ErrT) (t : Eth) : Prop :=
  LoggedSince s t ∧ (err = .use → Apart b p s t)

theorem closed_stable (err : ErrT) : Stable (beside Completes).rely (Closed b p s₀ err) := by
  rintro s t e ⟨⟨new, hnew, hinside⟩, hrefused⟩
  exact ⟨⟨new, log_stable e hnew, hinside⟩, fun herr => apart_stable e (hrefused herr)⟩

theorem transmitCopied_closed (r : Option CopyOut) (h : Apart b p s₀ s) :
    (transmitCopied p r).Safe (beside Completes) (Closed b p s₀) s := by
  cases r with
  | none => exact safe_ret (closed_stable .use) ⟨h.logged, fun _ => h⟩
  | some c =>
      obtain ⟨new, hnew, hinside⟩ := h.logged
      refine beside_modify log_stable hnew fun t ht => ?_
      refine .seq _ ((avoids_halEthTransmitFrame _).safe log_stable (fun _ _ => trivial) ht) fun _ t ht => ?_
      refine beside_modify log_stable ht fun t ht => ?_
      exact safe_ret (closed_stable .ok) ⟨⟨new, ht, hinside⟩, nofun⟩

theorem Closed.clear {err : ErrT} (h : Closed b p s₀ err s) (tus : Bool) (polls : Nat) :
    Closed b p s₀ err { s with dmasr.tus := tus, dmatpdr := polls } := by
  refine ⟨h.1, fun herr => ?_⟩
  obtain ⟨u, hu, haside⟩ := h.2 herr
  exact ⟨u, hu, { haside with }⟩

theorem lowLevelOutput_closed (p : List Pbuf) (linked : Linked s) :
    (lowLevelOutput p).Safe (beside Completes) (Closed s.heth.txDesc.val p s) s := by
  have htx : ∀ {t}, Apart s.heth.txDesc.val p s t →
      Linked t ∧ t.heth.txDesc = slot ethTxBufNb s.heth.txDesc.val := by
    rintro t ⟨u, hu, haside⟩
    exact ⟨haside.linked_left, by rw [haside.heth, run_txDesc hu, slot_val]⟩
  have hstable : Stable (beside Completes).rely fun t => Apart s.heth.txDesc.val p s t ∧ t.ownReads = [] :=
    apart_stable.and fun _ _ e h => (Completes.spares e).ownReads.trans h
  have hstart : Apart s.heth.txDesc.val p s s := ⟨s, .refl, aside_refl _ p linked⟩
  refine beside_modify apart_stable hstart fun t ht => ?_
  obtain ⟨u, hu, haside⟩ := ht
  refine beside_get hstable ⟨⟨u, hu, haside.see []⟩, rfl⟩ fun t ht => ?_
  rw [Eth.txDesc, (htx ht.1).1.buffer, (htx ht.1).2]
  refine beside_get hstable ht fun t ht => ?_
  rw [(htx ht.1).2]
  refine .seq _ (copyChain_apart ht.1 ht.2) fun r t ht => ?_
  refine .seq _ (transmitCopied_closed r ht) fun err t ht => ?_
  exact clearUnderflow_safe (closed_stable err) (fun _ tus polls ht => ht.clear tus polls) ht

end

/-! ## The calls that follow -/

theorem Twin.symm {b m : Nat} {s u : Eth} (h : Twin b m s u) : Twin b m u s where
  linked := h.linked_left
  heth := h.heth.symm
  dmaTxDscrTab := h.dmaTxDscrTab.symm
  dma := h.dma.symm
  handed := h.handed.symm
  tbus := h.tbus.symm
  sent i hi j hj := by
    rw [h.dmaTxDscrTab] at hi hj
    exact (h.sent i hi j hj).symm
  cells k hk := (h.cells k hk).symm

theorem Aside.twin {b : Nat} {p : List Pbuf} {s u : Eth} (h : Aside b p s u) : Twin b 0 s u where
  toAlike := h.toAlike
  sent i hi j _ := congrFun (h.rows i (.inl hi)) j
  cells _ hk := absurd hk (Nat.not_lt_zero _)

/-- The descriptors are the same, what has gone out is the same, and so is what the DMA still has to send. -/
structure SameRing (s u : Eth) : Prop where
  txDesc : s.heth.txDesc = u.heth.txDesc
  dmaTxDscrTab : s.dmaTxDscrTab = u.dmaTxDscrTab
  wire : s.dma.wire = u.dma.wire
  handed : s.handed = u.handed
  pending : ∀ i, (u.dmaTxDscrTab i).own = true →
    bytes (s.txBuff i) (u.dmaTxDscrTab i).tbs1 = bytes (u.txBuff i) (u.dmaTxDscrTab i).tbs1

theorem Twin.sameRing {b m : Nat} {s u : Eth} (h : Twin b m s u) : SameRing s u :=
  ⟨congrArg Heth.txDesc h.heth, h.dmaTxDscrTab, by rw [h.dma], h.handed, fun i hi => bytes_congr (h.sent i hi)⟩

def lowLevelOutputs : List (List Pbuf) → Code Eth (List ErrT)
  | [] => pure []
  | p :: ps => do
      let errval ← lowLevelOutput p
      pure (errval :: (← lowLevelOutputs ps))

theorem lowLevelOutputs_twin {b : Nat} {s u : Eth} (ps : List (List Pbuf)) (h : Twin b 0 s u) :
    Simulates Completes (lowLevelOutputs ps) (lowLevelOutputs ps) (fun as t as' v => as' = as ∧ Twin b 0 t v) s u := by
  induction ps generalizing s u with
  | nil => exact simulates_ret (twin_matched b 0) h fun _ _ ht => ⟨rfl, ht⟩
  | cons p ps ih =>
      refine .seq (lowLevelOutput_twin p h) fun a t a' v ha => ?_
      obtain ⟨rfl, ht⟩ := ha
      refine .seq (ih ht) fun as t as' v has => ?_
      obtain ⟨rfl, ht⟩ := has
      exact simulates_ret (twin_matched b 0) ht fun _ _ ht => ⟨rfl, ht⟩

/-- Whatever calls follow, what they do from the one state they do from the other. -/
def SameCalls (s u : Eth) : Prop :=
  ∀ ps, Simulates Completes (lowLevelOutputs ps) (lowLevelOutputs ps) (fun as t as' v => as' = as ∧ SameRing t v) s u

theorem Twin.sameCalls {b : Nat} {s u : Eth} (h : Twin b 0 s u) : SameCalls s u :=
  fun ps => (lowLevelOutputs_twin ps h).mono fun _ _ _ _ hlast => ⟨hlast.1, hlast.2.sameRing⟩

end Transmit

/-! ## Results -/

open Transmit

/-- A call writes to free buffers only. One that is refused leaves the ring as the DMA alone would have left it, and
the calls after it do what they would have done without it. -/
theorem low_level_output_refused (p : List Pbuf) (s t : Eth) (errval : ErrT) (linked : Linked s)
    (run : Prog.Runs Completes (lowLevelOutput p) s errval t) :
    (∃ new, t.copiedOut = s.copiedOut ++ new ∧ ∀ e ∈ new, e.own e.buffer = false) ∧
    (errval = .use → t.heth.txDesc = s.heth.txDesc ∧ (∀ i, GivenBack s t i) ∧
      ∃ u, ReflTransGen Completes s u ∧ SameRing t u ∧ SameCalls t u ∧ SameCalls u t) := by
  obtain ⟨⟨new, hnew, hinside⟩, hrefused⟩ := (lowLevelOutput_closed p linked).runs run
  refine ⟨⟨new, hnew, fun e he => (hinside e he).own⟩, fun herr => ?_⟩
  obtain ⟨u, hu, haside⟩ := hrefused herr
  refine ⟨?_, fun i => ?_, u, hu, haside.twin.sameRing, haside.twin.sameCalls, haside.twin.symm.sameCalls⟩
  · rw [haside.heth, run_txDesc hu]
  · rw [GivenBack, haside.dmaTxDscrTab]
    exact run_givenBack hu i

def occupied : Eth := cleared.updateTxDesc 1 fun d => { d with own := true }

def refusal : ErrT × Eth :=
  Prog.run (fun _ => Call.granted true) 0 (lowLevelOutput [⟨3000, fun _ => 1⟩]) occupied

theorem low_level_output_refused_occupied :
    refusal.1 = .use ∧
    (∃ new, refusal.2.copiedOut = occupied.copiedOut ++ new ∧ ∀ e ∈ new, e.own e.buffer = false) ∧
    (refusal.1 = .use → refusal.2.heth.txDesc = occupied.heth.txDesc ∧ (∀ i, GivenBack occupied refusal.2 i) ∧
      ∃ u, ReflTransGen Completes occupied u ∧ SameRing refusal.2 u ∧ SameCalls refusal.2 u ∧ SameCalls u refusal.2) :=
  ⟨by decide +kernel, low_level_output_refused [⟨3000, fun _ => 1⟩] occupied refusal.2 refusal.1
    ⟨by decide +kernel, by decide +kernel⟩ (Prog.runs_run _ 0 _ _)⟩

end Oinzen
