import Oinzen.Receive.Thread

/-!
# The receive thread asleep

What the ring looks like while the thread sleeps and nothing is due to wake it: which frames are
left in it, and whether the DMA can bring in another.
-/

namespace Oinzen

open Interference Ring Machine

/-- A complete frame is in the ring: the CPU owns the descriptor that ends it. -/
def Stranded (s : Eth) : Prop :=
  ∃ i, (s.dmaRxDscrTab i).own = false ∧ (s.dmaRxDscrTab i).ls = true

def Receiving (s : Eth) : Prop :=
  (∃ i, (s.dmaRxDscrTab i).own = true) ∧ s.dma.rxSuspended = false

instance (s : Eth) : Decidable (Stranded s) :=
  inferInstanceAs (Decidable (∃ i, (s.dmaRxDscrTab i).own = false ∧ (s.dmaRxDscrTab i).ls = true))

namespace Receive

/-- A run from the start of the thread, all steps meeting `meets`. -/
abbrev Run (strict : Bool) (meets : Eth → Eth → Prop) (answers : Nat → ∀ i, Call.Answer i)
    (rxTab : RxPtr → RxDesc) (txTab : TxPtr → TxDesc) (rxBuff : RxPtr → Nat → UInt8)
    (txBuff : TxPtr → Nat → UInt8) (c : Config Eth Call.Answer RxPoint) : Prop :=
  (receiveThread strict).Reaches meets (Eth.started answers rxTab txTab rxBuff txBuff) .wait c

section

variable {strict : Bool} {drains resumes : Prop} {answers : Nat → ∀ i, Call.Answer i}
  {rxTab : RxPtr → RxDesc} {txTab : TxPtr → TxDesc} {rxBuff : RxPtr → Nat → UInt8}
  {txBuff : TxPtr → Nat → UInt8} {c : Config Eth Call.Answer RxPoint}

theorem blocked_not_signalled (h : Blocked c) : ¬ Signalled c.shared := by
  obtain ⟨-, -, htoken, hrs⟩ := h
  rintro (h | h)
  · exact Bool.false_ne_true (htoken.symm.trans h)
  · exact Bool.false_ne_true (hrs.symm.trans h)

theorem run_blocked (hs : resumes → strict = true)
    (run : Run strict (inputSetting strict drains resumes).meets answers rxTab txTab rxBuff txBuff c)
    (h : Blocked c) : Idle resumes c.shared ∧ Asleep drains resumes c.shared := by
  obtain ⟨s, i, control⟩ := c
  obtain rfl : control = .before .wait := h.1
  have hstart : At drains resumes .wait (Eth.started answers rxTab txTab rxBuff txBuff) :=
    ⟨started_idle answers rxTab txTab rxBuff txBuff resumes,
      started_asleep answers rxTab txTab rxBuff txBuff drains resumes⟩
  exact (receiveThread_proof hs).before hstart run

theorem Consistent.not_stranded {s : Eth} (h : Consistent s)
    (hall : s.dma.arrived.length = s.taken.length) : ¬ Stranded s := by
  rintro ⟨i, hown, hls⟩
  obtain ⟨j, hj, rfl⟩ := (h.owned i).mp hown
  obtain ⟨seg, hseg⟩ : ∃ seg, ((s.dma.arrived.drop s.taken.length).flatten ++ s.dma.arriving)[j]? = some seg :=
    ⟨_, List.getElem?_eq_getElem hj⟩
  have hlast : seg.ls = true := (h.holds j seg hseg).2.1 ▸ hls
  rw [← hall, List.drop_length, List.flatten_nil, List.nil_append] at hseg
  exact Bool.false_ne_true ((h.arriving.ls j seg hseg).symm.trans hlast)

theorem Consistent.stranded {s : Eth} (h : Consistent s) (hleft : s.taken.length < s.dma.arrived.length) :
    Stranded s := by
  obtain ⟨f, hf⟩ : ∃ f, s.dma.arrived[s.taken.length] = f := ⟨_, rfl⟩
  have hframe := h.frames f (hf ▸ List.getElem_mem hleft)
  have hlast : f.length - 1 < f.length := Nat.sub_lt hframe.nonempty Nat.one_pos
  obtain ⟨seg, hseg⟩ : ∃ seg, f[f.length - 1]? = some seg := ⟨_, List.getElem?_eq_getElem hlast⟩
  have hls : seg.ls = true := (hframe.ls _ seg hseg).mpr (Nat.sub_add_cancel hframe.nonempty)
  have hdrop : (s.dma.arrived.drop s.taken.length).flatten ++ s.dma.arriving =
      f ++ ((s.dma.arrived.drop (s.taken.length + 1)).flatten ++ s.dma.arriving) := by
    rw [List.drop_eq_getElem_cons hleft, List.flatten_cons, List.append_assoc, hf]
  have hthere : ((s.dma.arrived.drop s.taken.length).flatten ++ s.dma.arriving)[f.length - 1]? = some seg := by
    rw [hdrop, List.getElem?_append_left hlast]
    exact hseg
  have hlt := (List.getElem?_eq_some_iff.mp hthere).1
  exact ⟨_, (h.owned _).mpr ⟨_, hlt, rfl⟩, (h.holds _ seg hthere).2.1.trans hls⟩

end

/-! ## After a frame is dropped -/

def Drops (s t : Eth) : Prop := ∃ rec, t.taken = s.taken ++ [rec] ∧ rec.pbuf = none

structure Rests (s t : Eth) : Prop where
  taken : t.taken.length = s.taken.length + 1
  arrived : t.dma.arrived = s.dma.arrived
  token : t.xSemaphore = s.xSemaphore
  rs : t.dmasr.rs = s.dmasr.rs

abbrev takenFrame : Interference.Frame Eth (List Taken) Unit := .watch Eth.taken

theorem not_drops {s t : Eth} (h : t.taken = s.taken) : ¬ Drops s t := by
  rintro ⟨rec, htaken, -⟩
  have hlen := congrArg List.length (h.symm.trans htaken)
  simp at hlen

theorem avoids_halReturn (state : HalEthState) (status : HalStatus) : takenFrame.Avoids (halReturn state status) :=
  .bind (.watch_modify fun _ => rfl) fun _ => .bind (.watch_modify fun _ => rfl) fun _ => .ret

theorem avoids_takeLast : takenFrame.Avoids takeLast := by
  refine .bind (.watch_modify fun _ => rfl) fun _ => .bind (.watch_modify fun _ => rfl) fun _ =>
    .bind (.watch_get _) fun _ => .bind (.when (.watch_modify fun _ => rfl)) fun _ =>
    .bind (.watch_modify fun _ => rfl) fun _ => .bind (.watch_modify fun s => ?_) fun _ =>
    .bind (.watch_modify fun _ => rfl) fun _ => avoids_halReturn _ _
  split <;> rfl

theorem avoids_scanDescriptors : ∀ n, takenFrame.Avoids (scanDescriptors n)
  | 0 => .bind (.watch_get _) fun _ => avoids_halReturn _ _
  | n + 1 =>
      have next : takenFrame.Avoids (do
          Prog.modify fun s => { s with heth.rxDesc := s.rxDesc.buffer2NextDescAddr }
          scanDescriptors n : Code Eth HalStatus) :=
        .bind (.watch_modify fun _ => rfl) fun _ => avoids_scanDescriptors n
      .bind (.watch_get _) fun _ => .ite (avoids_halReturn _ _) <|
        .bind (.watch_get _) fun _ => .ite
          (.bind (.watch_modify fun _ => rfl) fun _ => .bind (.watch_modify fun _ => rfl) fun _ => next) <|
        .bind (.watch_get _) fun _ => .ite (.bind (.watch_modify fun _ => rfl) fun _ => next) avoids_takeLast

theorem avoids_getReceivedFrame : takenFrame.Avoids halEthGetReceivedFrameIt :=
  .bind (.watch_get _) fun _ => .ite .ret <| .bind (.watch_modify fun _ => rfl) fun _ =>
    .bind (.watch_modify fun _ => rfl) fun _ => avoids_scanDescriptors _

theorem avoids_fillPbuf (q : Pbuf) (c : CopyIn) (payloadoffset left : Nat) :
    takenFrame.Avoids (fillPbuf q c payloadoffset left) := by
  induction q, c, payloadoffset, left using fillPbuf.induct with
  | case1 q c payloadoffset left hmore room ih =>
      rw [fillPbuf, dif_pos hmore]
      refine .bind ⟨⟨fun _ => rfl, fun _ _ => rfl⟩, fun _ _ => rfl, fun _ => .ret⟩ fun q => ?_
      exact .bind (.watch_get _) fun next => .bind (.watch_get _) fun buffer => ih q next buffer
  | case2 q c payloadoffset left hlast =>
      rw [fillPbuf, dif_neg hlast]
      exact .bind ⟨⟨fun _ => rfl, fun _ _ => rfl⟩, fun _ _ => rfl, fun _ => .ret⟩ fun _ => .ret

theorem avoids_fillChain : ∀ chain c, takenFrame.Avoids (fillChain chain c)
  | [], _ => .ret
  | q :: rest, c => .bind (avoids_fillPbuf q c 0 q.len) fun _ => .bind (avoids_fillChain rest _) fun _ => .ret

theorem avoids_receiveFrame : takenFrame.Avoids receiveFrame := by
  refine .bind (.watch_get _) fun len => .bind (.watch_get _) fun buffer => .ite .ret ?_
  refine .bind .call fun alloc => ?_
  cases alloc with
  | none => exact .ret
  | some chain =>
      refine .bind (.watch_get _) fun first => ?_
      split
      · exact .bind (avoids_fillChain _ _) fun _ => .ret
      · exact .bind (.watch_modify fun _ => rfl) fun _ => .ret

theorem pollDemand_keeps (p : Option (List Pbuf)) {s t : Eth} (h : Rests s t) :
    (do
      Prog.when (← Prog.get fun s => s.dmasr.rbus) do
        Prog.modify fun s => { s with dmasr.rbus := false }
        Prog.modify Eth.receivePollDemand
      pure p : Code Eth (Option (List Pbuf))).Ensures anyAnswer t fun q u => q = p ∧ Rests s u := by
  simp only [Prog.ensures_bind, Prog.ensures_get, Prog.ensures_when, Prog.ensures_modify, Prog.pure_eq,
    Prog.ensures_ret]
  split
  · exact ⟨trivial, h.taken, h.arrived, h.token, h.rs⟩
  · exact ⟨trivial, h⟩

theorem lowLevelInput_endsAfter :
    lowLevelInput.EndsAfter anyAnswer Drops fun s p t => p = none ∧ Rests s t := by
  have silent {α : Type} {p : Code Eth α} (h : takenFrame.Avoids p) {Q : Eth → α → Eth → Prop} :
      p.EndsAfter anyAnswer Drops Q := h.endsAfter fun _ _ => not_drops
  refine .bind (silent avoids_getReceivedFrame) fun r => ?_
  split
  · trivial
  refine .bind (silent avoids_receiveFrame) fun p => .bind (silent (.watch_get _)) fun first =>
    .bind (silent (.watch_get _)) fun segCount =>
    .bind (silent (watch_releaseDescriptors (fun _ _ _ => rfl) (fun _ => rfl) _ _)) fun _ s => ⟨?_, ?_⟩
  · rintro ⟨rec, htaken, hnone⟩
    obtain rfl : ⟨first, segCount, s.heth.rxFrameInfos.length, p⟩ = rec :=
      List.singleton_inj.mp (List.append_cancel_left htaken)
    obtain rfl : p = none := hnone
    exact pollDemand_keeps none ⟨List.length_append, rfl, rfl, rfl⟩
  · refine silent (.bind (.watch_get _) fun _ => .bind (.when ?_) fun _ => .ret)
    exact .bind (.watch_modify fun _ => rfl) fun _ => .watch_modify fun _ => rfl

theorem ethernetifInput_endsAfter (k : RxPoint) :
    (ethernetifInput k).EndsAfter anyAnswer Drops fun s l t => l = .wait ∧ Rests s t := by
  have silent {α : Type} {p : Code Eth α} (h : takenFrame.Avoids p) {Q : Eth → α → Eth → Prop} :
      p.EndsAfter anyAnswer Drops Q := h.endsAfter fun _ _ => not_drops
  cases k with
  | wait => trivial
  | top =>
      refine .bind (.bind (silent .call) fun _ => .bind ?_ fun p => silent ?_) fun _ => trivial
      · refine lowLevelInput_endsAfter.mono fun s p t h => ?_
        obtain ⟨rfl, hrests⟩ := h
        exact fun _ _ => ⟨rfl, hrests⟩
      · refine .bind ?_ fun _ => .bind .call fun _ => .ret
        cases p with
        | none => exact .ret
        | some chain => exact .bind .call fun _ => .when .call

theorem stranded_of_drop {strict : Bool} {answers : Nat → ∀ i, Call.Answer i} {rxTab : RxPtr → RxDesc}
    {txTab : TxPtr → TxDesc} {rxBuff : RxPtr → Nat → UInt8} {txBuff : TxPtr → Nat → UInt8}
    {c d : Config Eth Call.Answer RxPoint} (run : Run strict always answers rxTab txTab rxBuff txBuff c)
    (e : (receiveThread strict).Step always c d) (hdrop : ¬ DropsLast c.shared d.shared) :
    ∃ f, Relation.ReflTransGen ((receiveThread strict).Step always) d f ∧ Blocked f ∧ Stranded f.shared := by
  have hproof := @receiveThread_proof strict False False nofun
  have hstart : At False False .wait (Eth.started answers rxTab txTab rxBuff txBuff) :=
    ⟨started_idle answers rxTab txTab rxBuff txBuff False, started_asleep answers rxTab txTab rxBuff txBuff _ _⟩
  have any {s t : Eth} (_ : always s t) : (inputSetting strict False False).meets s t := ⟨False.elim, False.elim⟩
  obtain ⟨rec, htaken, hnone, hleft⟩ : ∃ rec, d.shared.taken = c.shared.taken ++ [rec] ∧ rec.pbuf = none ∧
      ¬ (Signalled c.shared ∨ c.shared.dma.arrived.length = c.shared.taken.length + 1) := by
    simpa only [DropsLast, not_forall, exists_prop] using hdrop
  have henter : ∀ k s t, (receiveThread strict).enter k s = some t → ¬ Drops s t := by
    intro k s t he
    cases k with
    | wait =>
        simp only [receiveThread, osSemaphoreWait, Option.ite_none_right_eq_some, Option.some.injEq] at he
        obtain ⟨-, rfl⟩ := he
        exact not_drops rfl
    | top =>
        obtain rfl := Option.some.inj he
        exact not_drops rfl
  obtain ⟨l, t, steps, rfl, hrests⟩ := Reaches.marked hproof answers (fun _ _ => trivial) ethernetifInput_endsAfter
    (fun _ => not_drops rfl) (fun s t he => not_drops (he.elim fun _ h => (others_of_fire h).taken))
    (fun s t h => not_drops (others_of_irq h).taken) henter hstart (run.mono fun _ _ => any) e ⟨rec, htaken, hnone⟩
  have hthere : Run strict always answers rxTab txTab rxBuff txBuff ⟨t, none, .before .wait⟩ :=
    Relation.ReflTransGen.trans (.tail run e) steps
  have hconsistent : Consistent t := (hproof.before hstart (hthere.mono fun _ _ => any)).1.consistent
  have hle := hconsistent.log.le
  rw [hrests.taken, hrests.arrived] at hle
  obtain ⟨hsignal, hmore⟩ := not_or.mp hleft
  obtain ⟨htoken, hrs⟩ := not_or.mp hsignal
  have hblocked : Blocked ⟨t, none, .before .wait⟩ :=
    ⟨rfl, rfl, hrests.token.trans (Bool.eq_false_iff.mpr htoken), hrests.rs.trans (Bool.eq_false_iff.mpr hrs)⟩
  refine ⟨⟨t, none, .before .wait⟩, steps, hblocked, hconsistent.stranded ?_⟩
  rw [hrests.taken, hrests.arrived]
  exact Nat.lt_of_le_of_ne hle (Ne.symm hmore)

/-! ## Runs -/

def blocked (c : Config Eth Call.Answer RxPoint) : Bool :=
  (match c.control with | .before .wait => true | _ => false) && c.irq.isNone &&
    !c.shared.xSemaphore && !c.shared.dmasr.rs

theorem blocked_of_test {c : Config Eth Call.Answer RxPoint} (h : blocked c = true) : Blocked c := by
  obtain ⟨s, irq, control⟩ := c
  simp only [blocked, Bool.and_eq_true, Bool.not_eq_true', Option.isNone_iff_eq_none] at h
  obtain ⟨⟨⟨hcontrol, hirq⟩, htoken⟩, hrs⟩ := h
  match control with
  | .before .wait => exact ⟨rfl, hirq, htoken, hrs⟩

def keepsAll (_ t : Eth) : Bool := t.taken.all fun rec => rec.pbuf.isSome

theorem dropsLast_of_test (s t : Eth) (h : keepsAll s t = true) : DropsLast s t := by
  intro rec htaken hnone
  rw [keepsAll, htaken, List.all_append, Bool.and_eq_true] at h
  simp [hnone] at h

def dropsFirst (s t : Eth) : Bool :=
  s.taken.isEmpty && t.taken.length == 1 && t.taken.all (fun rec => rec.pbuf.isNone) && !s.xSemaphore &&
    !s.dmasr.rs && s.dma.arrived.length == 2

theorem not_dropsLast_of_test {s t : Eth} (h : dropsFirst s t = true) : ¬ DropsLast s t := by
  simp only [dropsFirst, Bool.and_eq_true, List.isEmpty_iff, beq_iff_eq, Bool.not_eq_true'] at h
  obtain ⟨⟨⟨⟨⟨hnone, hone⟩, hdropped⟩, htoken⟩, hrs⟩, htwo⟩ := h
  obtain ⟨rec, hrec⟩ := List.length_eq_one_iff.mp hone
  intro hlast
  rw [hrec, List.all_cons, Bool.and_eq_true] at hdropped
  rcases hlast rec (by rw [hrec, hnone, List.nil_append]) (Option.isNone_iff_eq_none.mp hdropped.1) with
    (h | h) | h
  · exact Bool.false_ne_true (htoken.symm.trans h)
  · exact Bool.false_ne_true (hrs.symm.trans h)
  · rw [htwo, hnone] at h
    exact absurd h (by decide)

def pollResumes (s t : Eth) : Bool :=
  decide (t.dmarpdr = s.dmarpdr) || !s.dma.rxSuspended || s.nextRx.own || s.dmasr.rbus

theorem pollResumes_of_test (s t : Eth) (h : pollResumes s t = true) : PollResumes s t := by
  intro hpoll hsus
  simpa [pollResumes, hpoll, hsus] using h

end Receive

/-! ## Results -/

/-- While every frame that is dropped is the last one in the ring, no frame is left behind; the first
drop of another kind can be followed by the sleep on a complete frame. -/
theorem blocked_not_stranded (strict : Bool) (answers : Nat → ∀ i, Call.Answer i)
    (rxTab : RxPtr → RxDesc) (txTab : TxPtr → TxDesc) (rxBuff : RxPtr → Nat → UInt8)
    (txBuff : TxPtr → Nat → UInt8) (c : Config Eth Call.Answer RxPoint)
    (run : Receive.Run strict Receive.DropsLast answers rxTab txTab rxBuff txBuff c) :
    (Blocked c → ¬ Stranded c.shared ∧ c.shared.dma.arrived.length = c.shared.taken.length) ∧
    ∀ d, (receiveThread strict).Step always c d → ¬ Receive.DropsLast c.shared d.shared →
      ∃ e, Relation.ReflTransGen ((receiveThread strict).Step always) d e ∧ Blocked e ∧ Stranded e.shared := by
  constructor
  · intro h
    have hmeets : Receive.Run strict (Receive.inputSetting strict True False).meets answers rxTab txTab
        rxBuff txBuff c := run.mono fun s t hst => ⟨fun _ => hst, False.elim⟩
    obtain ⟨hidle, hasleep⟩ := Receive.run_blocked nofun hmeets h
    have hall := (hasleep.drained trivial).resolve_left (Receive.blocked_not_signalled h)
    exact ⟨hidle.consistent.not_stranded hall, hall⟩
  · intro d e hdrop
    exact Receive.stranded_of_drop (run.mono fun _ _ _ => trivial) e hdrop

theorem blocked_not_stranded_frame :
    (∃ c : Config Eth Call.Answer RxPoint, c.shared.taken.length = 1 ∧ Blocked c ∧
      ¬ Stranded c.shared ∧ c.shared.dma.arrived.length = c.shared.taken.length) ∧
    ∃ c d e : Config Eth Call.Answer RxPoint, (receiveThread true).Step always c d ∧
      ¬ Receive.DropsLast c.shared d.shared ∧
      Relation.ReflTransGen ((receiveThread true).Step always) d e ∧ Blocked e ∧ Stranded e.shared := by
  constructor
  · obtain ⟨c, run, htest⟩ : ∃ c, (receiveThread true).Reaches Receive.DropsLast cleared .wait c ∧
        (decide (c.shared.taken.length = 1) && Receive.blocked c) = true :=
      reaches_of_schedule Receive.keepsAll Receive.dropsLast_of_test
        (arrive :: interrupt ++ proceed true 43) (by decide +kernel)
    simp only [Bool.and_eq_true, decide_eq_true_eq] at htest
    have hblocked := Receive.blocked_of_test htest.2
    exact ⟨c, htest.1, hblocked, (blocked_not_stranded _ _ _ _ _ _ c run).1 hblocked⟩
  · obtain ⟨c, run, htest⟩ : ∃ c, (receiveThread true).Reaches Receive.DropsLast cleared .wait c ∧
        ((receiveThread true).advance (fun _ _ => true) (.task (Call.granted false)) c).any
          (fun d => Receive.dropsFirst c.shared d.shared) = true :=
      reaches_of_schedule Receive.keepsAll Receive.dropsLast_of_test
        (arrive :: arrive :: interrupt ++ proceed false 26) (by decide +kernel)
    obtain ⟨d, hd, hdrop⟩ := (Option.any_eq_true _ _).mp htest
    have hstep : (receiveThread true).Step always c d := step_of_advance (fun _ _ _ => trivial) hd
    have hearly := Receive.not_dropsLast_of_test hdrop
    obtain ⟨e, he⟩ := (blocked_not_stranded _ _ _ _ _ _ c run).2 d hstep hearly
    exact ⟨c, d, e, hstep, hearly, he⟩

/-- A frame for which there is no pbuf ends the loop, although another is complete behind it. -/
theorem blocked_stranded : ¬ ∀ c : Config Eth Call.Answer RxPoint,
    (receiveThread true).Reaches always cleared .wait c → Blocked c → ¬ Stranded c.shared := by
  intro h
  obtain ⟨c, run, htest⟩ : ∃ c, (receiveThread true).Reaches always cleared .wait c ∧
      (Receive.blocked c && decide (Stranded c.shared)) = true :=
    reaches_of_schedule (fun _ _ => true) (fun _ _ _ => trivial)
      (arrive :: arrive :: interrupt ++ proceed false 30) (by decide +kernel)
  simp only [Bool.and_eq_true, decide_eq_true_eq] at htest
  exact h c run (Receive.blocked_of_test htest.1) htest.2

/-- While every poll demand finds the DMA able to go on, the thread does not sleep on one that is
suspended. -/
theorem blocked_receiving (answers : Nat → ∀ i, Call.Answer i)
    (rxTab : RxPtr → RxDesc) (txTab : TxPtr → TxDesc) (rxBuff : RxPtr → Nat → UInt8)
    (txBuff : TxPtr → Nat → UInt8) (c : Config Eth Call.Answer RxPoint)
    (run : Receive.Run true Receive.PollResumes answers rxTab txTab rxBuff txBuff c) (h : Blocked c) :
    Receiving c.shared := by
  have hmeets : Receive.Run true (Receive.inputSetting true False True).meets answers rxTab txTab
      rxBuff txBuff c := run.mono fun s t hst => ⟨False.elim, fun _ => hst⟩
  obtain ⟨-, hasleep⟩ := Receive.run_blocked (fun _ => rfl) hmeets h
  obtain ⟨hown, hrun⟩ := (hasleep.awake trivial).resolve_left (Receive.blocked_not_signalled h)
  exact ⟨⟨_, hown⟩, hrun⟩

theorem blocked_receiving_frame : ∃ c : Config Eth Call.Answer RxPoint,
    c.shared.dmarpdr = 1 ∧ Blocked c ∧ Receiving c.shared := by
  obtain ⟨c, run, htest⟩ : ∃ c, (receiveThread true).Reaches Receive.PollResumes cleared .wait c ∧
      (decide (c.shared.dmarpdr = 1) && Receive.blocked c) = true :=
    reaches_of_schedule Receive.pollResumes Receive.pollResumes_of_test
      (List.replicate 4 arrive ++ suspend :: interrupt ++ proceed true 138)
      (by decide +kernel)
  simp only [Bool.and_eq_true, decide_eq_true_eq] at htest
  have hblocked := Receive.blocked_of_test htest.2
  exact ⟨c, htest.1, hblocked, blocked_receiving _ _ _ _ _ c run hblocked⟩

/-- The poll demand comes when RBUS is seen, though the descriptor the DMA waits for is not yet
given back; RBUS is cleared, so there is no second one. -/
theorem blocked_suspended : ¬ ∀ c : Config Eth Call.Answer RxPoint,
    (receiveThread true).Reaches always cleared .wait c → Blocked c → Receiving c.shared := by
  intro h
  obtain ⟨c, run, htest⟩ : ∃ c, (receiveThread true).Reaches always cleared .wait c ∧
      (Receive.blocked c && c.shared.dma.rxSuspended) = true :=
    reaches_of_schedule (fun _ _ => true) (fun _ _ _ => trivial)
      (List.replicate 3 arrive ++ interrupt ++ proceed true 27 ++
        [arrive, arrive, suspend] ++ interrupt ++ proceed true 154)
      (by decide +kernel)
  rw [Bool.and_eq_true] at htest
  have hrun := (h c run (Receive.blocked_of_test htest.1)).2
  exact Bool.false_ne_true (hrun.symm.trans htest.2)

end Oinzen
