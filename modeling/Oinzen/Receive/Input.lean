import Oinzen.Interference.Machine
import Oinzen.Receive.Others
import Oinzen.Driver.Ethernetif
import Mathlib.Data.List.Infix

/-!
# `low_level_input` on the ring

The three results about reception need the same walk through the code, so it is made once: the ring
is kept in any case, `drains` asks that the thread sleeps on an empty ring and `resumes` that it
sleeps on a running DMA.
-/

namespace Oinzen.Receive

open Ring Interference Prog

/-! ## Conditions on the steps of a run -/

/-- A frame that is dropped is the last one that has arrived, or a wake-up is due. -/
def DropsLast (s t : Eth) : Prop :=
  ∀ rec, t.taken = s.taken ++ [rec] → rec.pbuf = none →
    Signalled s ∨ s.dma.arrived.length = s.taken.length + 1

/-- A poll demand finds the DMA running, or its next descriptor ready, or RBUS set again. -/
def PollResumes (s t : Eth) : Prop :=
  t.dmarpdr ≠ s.dmarpdr → s.dma.rxSuspended = true → s.nextRx.own = true ∨ s.dmasr.rbus = true

structure Log (s : Eth) : Prop where
  le : s.taken.length ≤ s.dma.arrived.length
  each : ∀ i rec, s.taken[i]? = some rec → ∃ f seg, s.dma.arrived[i]? = some f ∧
    f.getLast? = some seg ∧ rec.first = some (slot ethRxBufNb (start s i)) ∧
    rec.segCount = f.length ∧ rec.length = .ofNat seg.fl.toNat - 4

/-- What holds in every state: of the frames that arrived some are taken, and of the next one the
descriptors before `rel` are given back. -/
structure Standing (rel : Nat) (s : Eth) : Prop where
  ring : RingAt s rel
  log : Log s
  lower : start s s.taken.length ≤ rel
  upper : rel ≤ start s (s.taken.length + 1)
  fault : s.fault = false

def inputSetting (strict : Bool) (drains resumes : Prop) : Setting Eth where
  rely s t := (∃ e, s.fire strict e = some t) ∨ IrqKeeps s t
  guar _ t := ∃ rel, Standing rel t
  meets s t := (drains → DropsLast s t) ∧ (resumes → PollResumes s t)

section

variable {strict : Bool} {drains resumes : Prop}

theorem others_of_rely {s t : Eth} (h : (inputSetting strict drains resumes).rely s t) : Others s t := by
  rcases h with ⟨e, he⟩ | h
  · exact others_of_fire he
  · exact others_of_irq h

/-! ## Where the thread stands -/

/-- The thread has released `rel` positions and scanned up to `pos`; the frame at hand begins at
`lo` and shows `c` segments before `seen`. -/
structure Phase (lo c rel pos : Nat) (info : RxFrameInfos → Prop) (seen : Option RxSeg) (s : Eth) :
    Prop extends Standing rel s where
  first : lo = start s s.taken.length
  noLast : NoLast s lo c
  rxDesc : s.heth.rxDesc = slot ethRxBufNb pos
  info : info s.heth.rxFrameInfos
  seen : ∀ seg, seen = some seg → (segs s)[lo + c]? = some seg

theorem start_of_arrived {s t : Eth} (h : s.dma.arrived <+: t.dma.arrived) {k : Nat}
    (hk : k ≤ s.dma.arrived.length) : start t k = start s k := by
  obtain ⟨more, hmore⟩ := h
  rw [start, start, ← hmore, List.take_append_of_le_length hk]

theorem start_mono (s : Eth) {k l : Nat} (h : k ≤ l) : start s k ≤ start s l :=
  (List.take_prefix_take_left h).flatten.length_le

theorem start_le_of_arrived {s t : Eth} (h : s.dma.arrived <+: t.dma.arrived) (k : Nat) :
    start s k ≤ start t k := by
  obtain ⟨more, hmore⟩ := h
  refine List.IsPrefix.length_le (.flatten ?_)
  rw [← hmore, List.take_append]
  exact List.prefix_append _ _

theorem getElem?_of_log {α : Type} {l m : List α} (h : l <+: m) {i : Nat} {a : α}
    (hi : l[i]? = some a) : m[i]? = some a := by
  obtain ⟨more, rfl⟩ := h
  rw [List.getElem?_append_left (List.getElem?_eq_some_iff.mp hi).1]
  exact hi

theorem Log.others {s t : Eth} (h : Log s) (o : Others s t) : Log t := by
  refine ⟨?_, fun i rec hi => ?_⟩
  · rw [o.taken]
    exact h.le.trans o.arrived.length_le
  · rw [o.taken] at hi
    obtain ⟨f, seg, hf, hseg, hfirst, hrest⟩ := h.each i rec hi
    refine ⟨f, seg, getElem?_of_log o.arrived hf, hseg, ?_, hrest⟩
    rw [start_of_arrived o.arrived (List.getElem?_eq_some_iff.mp hf).1.le]
    exact hfirst

theorem NoLast.others {s t : Eth} {lo c : Nat} (h : NoLast s lo c) (o : Others s t) :
    NoLast t lo c := by
  intro j hj
  obtain ⟨seg, hseg, hls⟩ := h j hj
  exact ⟨seg, getElem?_of_log o.segs hseg, hls⟩

theorem Standing.others {rel : Nat} {s t : Eth} (h : Standing rel s) (o : Others s t) :
    Standing rel t where
  ring := o.ring rel h.ring
  log := h.log.others o
  lower := by rw [o.taken, start_of_arrived o.arrived h.log.le]; exact h.lower
  upper := by rw [o.taken]; exact h.upper.trans (start_le_of_arrived o.arrived _)
  fault := o.fault.trans h.fault

theorem Phase.others {lo c rel pos : Nat} {info : RxFrameInfos → Prop} {seen : Option RxSeg}
    {s t : Eth} (h : Phase lo c rel pos info seen s) (o : Others s t) :
    Phase lo c rel pos info seen t where
  toStanding := h.toStanding.others o
  first := by rw [o.taken, start_of_arrived o.arrived h.log.le]; exact h.first
  noLast := h.noLast.others o
  rxDesc := o.rxDesc.trans h.rxDesc
  info := by rw [o.infos]; exact h.info
  seen := fun seg hs => getElem?_of_log o.segs (h.seen seg hs)

theorem Log.congr {s t : Eth} (h : Log s) (taken : t.taken = s.taken)
    (arrived : t.dma.arrived = s.dma.arrived) : Log t := by
  have hstart : ∀ k, start t k = start s k := fun k => by rw [start, start, arrived]
  refine ⟨by rw [taken, arrived]; exact h.le, ?_⟩
  rw [taken, arrived]
  simp only [hstart]
  exact h.each

theorem Standing.congr {rel : Nat} {s t : Eth} (h : Standing rel s) (ring : ringPart t = ringPart s)
    (taken : t.taken = s.taken) (fault : t.fault = s.fault) : Standing rel t := by
  have harr : t.dma.arrived = s.dma.arrived := congrArg (fun x => x.2.2.2.1) ring
  have hstart : ∀ k, start t k = start s k := fun k => by rw [start, start, harr]
  refine ⟨h.ring.congr ring, h.log.congr taken harr, ?_, ?_, fault.trans h.fault⟩
  · rw [taken, hstart]
    exact h.lower
  · rw [taken, hstart]
    exact h.upper

theorem Phase.update {lo c rel pos : Nat} {info : RxFrameInfos → Prop} {seen : Option RxSeg}
    {s t : Eth} (h : Phase lo c rel pos info seen s) (pos' : Nat) (info' : RxFrameInfos → Prop)
    (ring : ringPart t = ringPart s) (taken : t.taken = s.taken) (fault : t.fault = s.fault)
    (rxDesc : t.heth.rxDesc = slot ethRxBufNb pos') (infos : info' t.heth.rxFrameInfos) :
    Phase lo c rel pos' info' seen t := by
  have harr : t.dma.arrived = s.dma.arrived := congrArg (fun x => x.2.2.2.1) ring
  have hsegs : segs t = segs s := by
    rw [segs, segs, harr, show t.dma.arriving = s.dma.arriving from congrArg (fun x => x.2.2.2.2) ring]
  refine ⟨h.toStanding.congr ring taken fault, ?_, ?_, rxDesc, infos, ?_⟩
  · rw [taken, start, harr]
    exact h.first
  · rw [NoLast, hsegs]
    exact h.noLast
  · rw [hsegs]
    exact h.seen

theorem phase_stable (lo c rel pos : Nat) (info : RxFrameInfos → Prop) (seen : Option RxSeg) :
    Stable (inputSetting strict drains resumes).rely (Phase lo c rel pos info seen) :=
  fun _ _ r h => h.others (others_of_rely r)

theorem lock_stable : Stable (inputSetting strict drains resumes).rely fun s => s.heth.lock = false :=
  unlocked_stable fun _ _ r => (others_of_rely r).toBystands

theorem debt_stable (hs : resumes → strict = true) :
    Stable (inputSetting strict drains resumes).rely fun s => resumes → Debt s := by
  rintro s t (⟨e, he⟩ | h) hd hr
  · obtain rfl := hs hr
    exact (hd hr).fire he
  · exact (hd hr).irq h

def Counted (lo c : Nat) (x : RxFrameInfos) : Prop :=
  x.segCount = c ∧ (0 < c → x.fsRxDesc = some (slot ethRxBufNb lo))

/-- The shape of the registers when the frame at `lo` was found to end with `seg`. -/
def Found (lo c : Nat) (seg : RxSeg) (x : RxFrameInfos) : Prop :=
  x.segCount = c + 1 ∧ x.fsRxDesc = some (slot ethRxBufNb lo) ∧
    x.length = .ofNat seg.fl.toNat - 4 ∧ x.buffer = some (slot ethRxBufNb lo)

structure Idle (resumes : Prop) (s : Eth) : Prop where
  phase : ∃ lo c, Phase lo c lo (lo + c) (Counted lo c) none s
  lock : s.heth.lock = false
  debt : resumes → Debt s

def Drained (s : Eth) : Prop := Signalled s ∨ s.dma.arrived.length = s.taken.length

structure Asleep (drains resumes : Prop) (s : Eth) : Prop where
  ring : ∃ lo, RingAt s lo
  drained : drains → Drained s
  awake : resumes → Awake s

theorem drained_others {s t : Eth} {lo : Nat} (hr : RingAt s lo) (h : Drained s) (o : Others s t) :
    Drained t := by
  rcases h with h | h
  · exact .inl (o.signalled h)
  · rcases o.arrival lo hr with harr | hsignal
    · right; rw [harr, o.taken]; exact h
    · exact .inl hsignal

theorem asleep_stable (hs : resumes → strict = true) :
    Stable (inputSetting strict drains resumes).rely (Asleep drains resumes) := by
  rintro s t r ⟨⟨lo, hr⟩, hd, ha⟩
  refine ⟨⟨lo, (others_of_rely r).ring lo hr⟩, fun h => drained_others hr (hd h) (others_of_rely r), ?_⟩
  intro h
  rcases r with ⟨e, he⟩ | hirq
  · obtain rfl := hs h
    exact (ha h).fire hr he
  · exact (ha h).irq hirq

theorem idle_stable (hs : resumes → strict = true) :
    Stable (inputSetting strict drains resumes).rely (Idle resumes) := by
  rintro s t r ⟨⟨lo, c, hp⟩, hl, hd⟩
  exact ⟨⟨lo, c, phase_stable _ _ _ _ _ _ r hp⟩, lock_stable r hl, debt_stable hs r hd⟩

/-! ## Rules -/

section Rules

variable {lo c rel pos lo' c' rel' pos' : Nat} {info info' : RxFrameInfos → Prop}
  {seen seen' : Option RxSeg} {E E' : Eth → Prop} {α : Type} {Q : α → Eth → Prop} {s : Eth}

theorem phase_get {β : Type} {f : Eth → β} {k : β → Code Eth α}
    (stable : Stable (inputSetting strict drains resumes).rely E)
    (h : Phase lo c rel pos info seen s ∧ E s)
    (next : ∀ t, Phase lo c rel pos info seen t ∧ E t →
      (k (f t)).Safe (inputSetting strict drains resumes) Q t) :
    (get f >>= k).Safe (inputSetting strict drains resumes) Q s :=
  safe_get ((phase_stable _ _ _ _ _ _).and stable) h (fun _ ht => ⟨_, ht.1.toStanding⟩) next

theorem phase_modify_to (E' : Eth → Prop) {u : Eth → Eth} {k : Unit → Code Eth α}
    (stable : Stable (inputSetting strict drains resumes).rely E)
    (h : Phase lo c rel pos info seen s ∧ E s)
    (update : ∀ t, Phase lo c rel pos info seen t ∧ E t → Phase lo' c' rel' pos' info' seen' (u t) ∧ E' (u t))
    (next : ∀ t, Phase lo' c' rel' pos' info' seen' t ∧ E' t →
      (k ()).Safe (inputSetting strict drains resumes) Q t) :
    (modify u >>= k).Safe (inputSetting strict drains resumes) Q s :=
  safe_modify ((phase_stable _ _ _ _ _ _).and stable) h
    (fun t ht => ⟨_, (update t ht).1.toStanding⟩) fun t ht _ => next _ (update t ht)

theorem phase_modify {u : Eth → Eth} {k : Unit → Code Eth α}
    (stable : Stable (inputSetting strict drains resumes).rely E)
    (h : Phase lo c rel pos info seen s ∧ E s)
    (update : ∀ t, Phase lo c rel pos info seen t ∧ E t → Phase lo' c' rel' pos' info' seen' (u t) ∧ E (u t))
    (next : ∀ t, Phase lo' c' rel' pos' info' seen' t ∧ E t →
      (k ()).Safe (inputSetting strict drains resumes) Q t) :
    (modify u >>= k).Safe (inputSetting strict drains resumes) Q s :=
  phase_modify_to E stable h update next

end Rules

/-! ## The scan -/

section Scan

variable {lo c : Nat} {info : RxFrameInfos → Prop} {seg : RxSeg} {s : Eth}

theorem Phase.fits (h : Phase lo c lo (lo + c) info none s) : c < ethRxBufNb := by
  have hno := h.noLast
  rw [h.first] at hno
  exact hno.fits h.ring h.log.le

theorem Phase.le (h : Phase lo c lo (lo + c) info none s) : lo + c ≤ (segs s).length := by
  rcases c with _ | c
  · exact h.ring.window.le
  · obtain ⟨seg, hseg, -⟩ := h.noLast c (Nat.lt_succ_self c)
    exact (List.getElem?_eq_some_iff.mp hseg).1

theorem Phase.see (h : Phase lo c lo (lo + c) info none s) (hown : s.rxDesc.own = false) :
    ∃ seg, Phase lo c lo (lo + c) info (some seg) s := by
  have hcell : ¬ Free (cell s (slot ethRxBufNb (lo + c))) := by
    simp only [Free, cell, ← h.rxDesc]
    simpa [Eth.rxDesc] using hown
  obtain ⟨k, hk, hk', hslot⟩ := (h.ring.window.held_iff _).mp hcell
  have hfits := h.fits
  have hwin := h.ring.window.fits
  obtain rfl : k = lo + c := slot_inj _ hk (by omega) (by omega) (by omega) hslot
  obtain ⟨-, seg, hseg, -⟩ := h.ring.window.held _ hk hk'
  exact ⟨seg, { h with seen := fun x hx => by cases hx; exact hseg }⟩

theorem Phase.end_of_own (h : Phase lo c lo (lo + c) info none s) (hown : s.rxDesc.own = true) :
    (segs s).length = lo + c := by
  have hle := h.le
  by_contra hne
  have hheld := h.ring.window.held (lo + c) (by omega) (by omega)
  have := hheld.1
  simp only [cell, ← h.rxDesc] at this
  rw [Eth.rxDesc] at hown
  rw [hown] at this
  exact Bool.false_ne_true this.symm

theorem Phase.status (h : Phase lo c lo (lo + c) info (some seg) s) :
    s.rxDesc.fs = seg.fs ∧ s.rxDesc.ls = seg.ls ∧ s.rxDesc.fl = seg.fl := by
  have hseg := h.seen seg rfl
  have hlt := (List.getElem?_eq_some_iff.mp hseg).1
  obtain ⟨-, seg', hseg', hfs, hls, hfl, -⟩ := h.ring.window.held (lo + c) (by omega) hlt
  obtain rfl : seg = seg' := by rw [hseg] at hseg'; exact Option.some.inj hseg'
  simp only [cell, ← h.rxDesc] at hfs hls hfl
  exact ⟨hfs, hls, hfl⟩

theorem Phase.fs_iff (h : Phase lo c lo (lo + c) info (some seg) s) : seg.fs = true ↔ c = 0 := by
  have hno := h.noLast
  have hseg := h.seen seg rfl
  rw [h.first] at hno hseg
  exact hno.fs_iff h.ring h.log.le hseg

theorem Phase.noLast_succ {rel pos : Nat} (h : Phase lo c rel pos info (some seg) s)
    (hls : seg.ls = false) : NoLast s lo (c + 1) := by
  intro j hj
  rcases Nat.lt_succ_iff_lt_or_eq.mp hj with hlt | rfl
  · exact h.noLast j hlt
  · exact ⟨seg, h.seen seg rfl, hls⟩

theorem Phase.pass (h : Phase lo c lo (lo + c) (Counted lo (c + 1)) (some seg) s)
    (hls : seg.ls = false) :
    Phase lo (c + 1) lo (lo + (c + 1)) (Counted lo (c + 1)) none
      { s with heth.rxDesc := s.rxDesc.buffer2NextDescAddr } := by
  have hnext : s.rxDesc.buffer2NextDescAddr = slot ethRxBufNb (lo + (c + 1)) := by
    rw [Eth.rxDesc, h.ring.next, h.rxDesc]
    exact slot_succ _
  have hmoved : Phase lo c lo (lo + (c + 1)) (Counted lo (c + 1)) (some seg)
      { s with heth.rxDesc := s.rxDesc.buffer2NextDescAddr } :=
    h.update _ _ rfl rfl rfl hnext h.info
  exact { hmoved with noLast := hmoved.noLast_succ hls, seen := nofun }

theorem Phase.asleep (h : Phase lo c lo (lo + c) info none s) (hown : s.rxDesc.own = true)
    (hd : resumes → Debt s) : Asleep drains resumes s := by
  have hend := h.end_of_own hown
  have hcur : s.nextRx = s.rxDesc := by
    rw [Eth.nextRx, Eth.rxDesc, h.ring.cur, h.rxDesc, hend]
  refine ⟨⟨lo, h.ring⟩, fun _ => .inr ?_, fun hr => .inr ⟨hcur ▸ hown, ?_⟩⟩
  · have hno := h.noLast
    rw [h.first] at hno hend
    exact (hno.all_taken h.ring h.log.le hend.le).symm
  · by_contra hsus
    have := (hd hr (by simpa using hsus)).2
    rw [hcur, hown] at this
    exact Bool.false_ne_true this.symm

def Got (drains resumes : Prop) : HalStatus → Eth → Prop
  | .ok, s =>
      (∃ lo c seg, seg.ls = true ∧ Phase lo c lo (lo + c + 1) (Found lo c seg) (some seg) s) ∧
        s.heth.lock = false ∧ (resumes → Debt s)
  | _, s => Idle resumes s ∧ Asleep drains resumes s

theorem got_stable (hs : resumes → strict = true) (r : HalStatus) :
    Stable (inputSetting strict drains resumes).rely (Got drains resumes r) := by
  cases r with
  | ok =>
      refine .and (.exists_ fun lo => .exists_ fun c => .exists_ fun seg => .and (.const _) ?_) ?_
      · exact phase_stable _ _ _ _ _ _
      · exact lock_stable.and (debt_stable hs)
  | error => exact (idle_stable hs).and (asleep_stable hs)
  | busy => exact (idle_stable hs).and (asleep_stable hs)
  | timeout => exact (idle_stable hs).and (asleep_stable hs)

theorem halReturn_safe (hs : resumes → strict = true) {E : Eth → Prop}
    (stable : Stable (inputSetting strict drains resumes).rely E)
    (state : ∀ t x, E t → E (t.setState x)) (lock : ∀ t, E t → E (t.setLock false)) {rel pos : Nat}
    {seen : Option RxSeg} (x : HalEthState) (r : HalStatus)
    (h : Phase lo c rel pos info seen s ∧ E s)
    (got : ∀ t, Phase lo c rel pos info seen t ∧ E t → t.heth.lock = false → Got drains resumes r t) :
    (halReturn x r).Safe (inputSetting strict drains resumes) (Got drains resumes) s := by
  refine phase_modify stable h
    (fun t ht => ⟨ht.1.update _ _ rfl rfl rfl ht.1.rxDesc ht.1.info, state t x ht.2⟩) fun t ht => ?_
  have hunlock : ∀ t, Phase lo c rel pos info seen t ∧ E t →
      Phase lo c rel pos info seen (t.setLock false) ∧
        (E (t.setLock false) ∧ (t.setLock false).heth.lock = false) :=
    fun t ht => ⟨ht.1.update _ _ rfl rfl rfl ht.1.rxDesc ht.1.info, lock t ht.2, rfl⟩
  refine phase_modify_to (fun t => E t ∧ t.heth.lock = false) stable ht hunlock fun t ht => ?_
  exact safe_ret (got_stable hs r) (got t ⟨ht.1, ht.2.1⟩ ht.2.2)

theorem giveUp_safe (hs : resumes → strict = true)
    (h : Phase lo c lo (lo + c) (Counted lo c) none s ∧ (resumes → Debt s))
    (hasleep : Asleep drains resumes s) :
    (halReturn .ready .error).Safe (inputSetting strict drains resumes) (Got drains resumes) s := by
  refine halReturn_safe (E := fun t => (resumes → Debt t) ∧ Asleep drains resumes t) hs
    ((debt_stable hs).and (asleep_stable hs)) (fun t x ht => ?_) (fun t ht => ?_) _ _
    ⟨h.1, h.2, hasleep⟩ fun t ht hlock => ⟨⟨⟨lo, c, ht.1⟩, hlock, ht.2.1⟩, ht.2.2⟩
  · obtain ⟨hd, ⟨l, hl⟩, hdr, haw⟩ := ht
    exact ⟨hd, ⟨l, hl.congr rfl⟩, hdr, haw⟩
  · obtain ⟨hd, ⟨l, hl⟩, hdr, haw⟩ := ht
    exact ⟨hd, ⟨l, hl.congr rfl⟩, hdr, haw⟩

theorem last_safe (hs : resumes → strict = true) (hls : seg.ls = true)
    (h : Phase lo c lo (lo + c) (Counted lo c) (some seg) s ∧ (resumes → Debt s)) :
    (takeLast).Safe (inputSetting strict drains resumes) (Got drains resumes) s := by
  refine phase_modify (debt_stable hs) h (fun t ht =>
    ⟨ht.1.update _ (Counted lo c) rfl rfl rfl ht.1.rxDesc ht.1.info, ht.2⟩) fun t ht => ?_
  refine phase_modify (debt_stable hs) ht (fun t ht =>
    ⟨ht.1.update _ (fun x => x.segCount = c + 1 ∧ (0 < c → x.fsRxDesc = some (slot ethRxBufNb lo)))
      rfl rfl rfl ht.1.rxDesc ⟨congrArg (· + 1) ht.1.info.1, ht.1.info.2⟩, ht.2⟩) fun t ht => ?_
  refine phase_get (debt_stable hs) ht fun t ht => ?_
  refine .seq (fun _ t => Phase lo c lo (lo + c)
    (fun x => x.segCount = c + 1 ∧ x.fsRxDesc = some (slot ethRxBufNb lo)) (some seg) t ∧
      (resumes → Debt t)) ?_ fun _ t ht => ?_
  · have hstable : Stable (inputSetting strict drains resumes).rely _ := (phase_stable lo c lo (lo + c)
      (fun x => x.segCount = c + 1 ∧ x.fsRxDesc = some (slot ethRxBufNb lo)) (some seg)).and (debt_stable hs)
    rw [ht.1.info.1]
    rcases Nat.eq_zero_or_pos c with rfl | hc
    · exact phase_modify (k := ret) (debt_stable hs) ht (fun t ht =>
        ⟨ht.1.update _ _ rfl rfl rfl ht.1.rxDesc ⟨ht.1.info.1, congrArg some ht.1.rxDesc⟩, ht.2⟩)
        fun t ht => safe_ret hstable ht
    · rw [show decide (c + 1 = 1) = false from decide_eq_false (by omega)]
      exact safe_ret hstable ⟨ht.1.update _ _ rfl rfl rfl ht.1.rxDesc ⟨ht.1.info.1, ht.1.info.2 hc⟩, ht.2⟩
  refine phase_modify (debt_stable hs) ht (fun t ht =>
    ⟨ht.1.update _ (fun x => x.segCount = c + 1 ∧ x.fsRxDesc = some (slot ethRxBufNb lo) ∧
      x.length = .ofNat seg.fl.toNat - 4) rfl rfl rfl ht.1.rxDesc
      ⟨ht.1.info.1, ht.1.info.2, by simp only [ht.1.status.2.2]⟩, ht.2⟩) fun t ht => ?_
  refine phase_modify (debt_stable hs) ht (fun t ht => ?_) fun t (ht : Phase lo c lo (lo + c)
    (Found lo c seg) (some seg) t ∧ (resumes → Debt t)) => ?_
  · simp only [ht.1.info.2.1]
    exact ⟨ht.1.update _ _ rfl rfl rfl ht.1.rxDesc ⟨ht.1.info.1, rfl, ht.1.info.2.2,
      congrArg some (ht.1.ring.buffer _)⟩, ht.2⟩
  refine phase_modify (debt_stable hs) ht (fun t ht => ?_) fun t (ht : Phase lo c lo (lo + c + 1)
    (Found lo c seg) (some seg) t ∧ (resumes → Debt t)) => ?_
  · refine ⟨ht.1.update _ _ rfl rfl rfl ?_ ht.1.info, ht.2⟩
    change t.rxDesc.buffer2NextDescAddr = _
    rw [Eth.rxDesc, ht.1.ring.next, ht.1.rxDesc]
    exact slot_succ _
  exact halReturn_safe hs (debt_stable hs) (fun _ _ h => h) (fun _ h => h) _ _ ht
    fun t ht hlock => ⟨⟨lo, c, seg, hls, ht.1⟩, hlock, ht.2⟩

theorem scan_safe (hs : resumes → strict = true) : ∀ n c s, ethRxBufNb ≤ c + n →
    Phase lo c lo (lo + c) (Counted lo c) none s ∧ (resumes → Debt s) →
    (scanDescriptors n).Safe (inputSetting strict drains resumes) (Got drains resumes) s := by
  intro n
  induction n with
  | zero =>
      intro c s hn h
      have := h.1.fits
      omega
  | succ n ih =>
      intro c s hn h
      have hstep : slot ethRxBufNb (lo + c) + 1 = slot ethRxBufNb (lo + (c + 1)) := slot_succ _
      rw [scanDescriptors]
      refine phase_get (debt_stable hs) h fun t ht => ?_
      split
      · rename_i hown
        exact giveUp_safe hs ht (ht.1.asleep hown ht.2)
      rename_i hown
      obtain ⟨seg, hsee⟩ := ht.1.see (by simpa using hown)
      refine phase_get (debt_stable hs) ⟨hsee, ht.2⟩ fun t ht => ?_
      obtain ⟨hfs, hls, -⟩ := ht.1.status
      rw [hfs, hls]
      split
      · -- the first of several segments
        rename_i hfirst
        obtain ⟨hsfs, hsls⟩ : seg.fs = true ∧ seg.ls = false := by simpa using hfirst
        obtain rfl : c = 0 := ht.1.fs_iff.mp hsfs
        refine phase_modify (debt_stable hs) ht (fun t ht =>
          ⟨ht.1.update _ (fun x => x.fsRxDesc = some (slot ethRxBufNb lo)) rfl rfl rfl ht.1.rxDesc
            (congrArg some ht.1.rxDesc), ht.2⟩) fun t ht => ?_
        refine phase_modify (debt_stable hs) ht (fun t ht =>
          ⟨ht.1.update _ (Counted lo 1) rfl rfl rfl ht.1.rxDesc ⟨rfl, fun _ => ht.1.info⟩, ht.2⟩) fun t ht => ?_
        exact phase_modify (debt_stable hs) ht (fun t ht => ⟨ht.1.pass hsls, ht.2⟩) fun t ht =>
          ih _ t (by omega) ht
      rename_i hfirst
      refine phase_get (debt_stable hs) ht fun t ht => ?_
      obtain ⟨hfs, hls, -⟩ := ht.1.status
      rw [hfs, hls]
      split
      · -- one in between
        rename_i hmiddle
        obtain ⟨hsls, hsfs⟩ : seg.ls = false ∧ seg.fs = false := by simpa using hmiddle
        have hc : 0 < c := Nat.pos_of_ne_zero fun hzero => by
          rw [ht.1.fs_iff.mpr hzero] at hsfs
          exact Bool.false_ne_true hsfs.symm
        refine phase_modify (debt_stable hs) ht (fun t ht =>
          ⟨ht.1.update _ (Counted lo (c + 1)) rfl rfl rfl ht.1.rxDesc
            ⟨congrArg (· + 1) ht.1.info.1, fun _ => ht.1.info.2 hc⟩, ht.2⟩) fun t ht => ?_
        exact phase_modify (debt_stable hs) ht (fun t ht => ⟨ht.1.pass hsls, ht.2⟩) fun t ht =>
          ih _ t (by omega) ht
      · -- the last one
        rename_i hlast
        have hsls : seg.ls = true := by
          cases hl : seg.ls <;> cases hf : seg.fs <;> simp_all
        exact last_safe hs hsls ht

theorem getReceivedFrame_safe (hs : resumes → strict = true) (h : Idle resumes s) :
    halEthGetReceivedFrameIt.Safe (inputSetting strict drains resumes) (Got drains resumes) s := by
  obtain ⟨⟨lo, c, hp⟩, hl, hd⟩ := h
  have hstable : Stable (inputSetting strict drains resumes).rely _ := lock_stable
  refine phase_get (hstable.and (debt_stable hs)) ⟨hp, hl, hd⟩ fun t ht => ?_
  rw [ht.2.1]
  refine phase_modify_to (fun t => resumes → Debt t) (hstable.and (debt_stable hs)) ht (fun t ht =>
    ⟨ht.1.update _ _ rfl rfl rfl ht.1.rxDesc ht.1.info, ht.2.2⟩) fun t ht => ?_
  exact phase_modify (debt_stable hs) ht (fun t ht =>
    ⟨ht.1.update _ _ rfl rfl rfl ht.1.rxDesc ht.1.info, ht.2⟩) fun t ht =>
      scan_safe hs _ c t (Nat.le_add_left _ _) ht

end Scan

/-! ## Copying the frame -/

section Copy

variable {P : Eth → Prop} {s : Eth}

theorem fillPbuf_safe (stable : Stable (inputSetting strict drains resumes).rely P)
    (standing : ∀ t, P t → ∃ rel, Standing rel t) (logged : ∀ t log, P t → P { t with copiedIn := log })
    (q : Pbuf) (c : CopyIn) (payloadoffset left : Nat) (h : P s) :
    (fillPbuf q c payloadoffset left).Safe (inputSetting strict drains resumes) (fun _ t => P t) s := by
  induction q, c, payloadoffset, left using fillPbuf.induct generalizing s with
  | case1 q c payloadoffset left hmore room =>
      rename_i ih
      rw [fillPbuf, dif_pos hmore]
      refine safe_act stable h fun t ht _ => ⟨standing _ (logged t _ ht), ?_⟩
      refine safe_get stable (logged t _ ht) standing fun t ht => ?_
      refine safe_get stable ht standing fun t ht => ?_
      exact ih _ _ _ ht
  | case2 q c payloadoffset left hlast =>
      rw [fillPbuf, dif_neg hlast]
      refine safe_act stable h fun t ht _ => ⟨standing _ (logged t _ ht), ?_⟩
      exact safe_ret stable (logged t _ ht)

theorem fillChain_safe (stable : Stable (inputSetting strict drains resumes).rely P)
    (standing : ∀ t, P t → ∃ rel, Standing rel t) (logged : ∀ t log, P t → P { t with copiedIn := log })
    (chain : List Pbuf) (c : CopyIn) (h : P s) :
    (fillChain chain c).Safe (inputSetting strict drains resumes) (fun _ t => P t) s := by
  induction chain generalizing c s with
  | nil => exact safe_ret stable h
  | cons q rest ih =>
      refine .seq (fun _ => P) (fillPbuf_safe stable standing logged q c 0 q.len h) fun x t ht => ?_
      exact .seq (fun _ => P) (ih _ ht) fun _ t ht => safe_ret stable ht

variable {lo c rel pos : Nat} {seg : RxSeg} {E : Eth → Prop}

theorem receiveFrame_safe (stable : Stable (inputSetting strict drains resumes).rely E)
    (logged : ∀ t log, E t → E { t with copiedIn := log })
    (h : Phase lo c rel pos (Found lo c seg) (some seg) s ∧ E s) :
    receiveFrame.Safe (inputSetting strict drains resumes)
      (fun _ t => Phase lo c rel pos (Found lo c seg) (some seg) t ∧ E t) s := by
  have hstable : Stable (inputSetting strict drains resumes).rely _ := (phase_stable lo c rel pos
    (Found lo c seg) (some seg)).and stable
  have hstanding : ∀ t, Phase lo c rel pos (Found lo c seg) (some seg) t ∧ E t → ∃ rel, Standing rel t :=
    fun t ht => ⟨_, ht.1.toStanding⟩
  have hlogged : ∀ t log, Phase lo c rel pos (Found lo c seg) (some seg) t ∧ E t →
      Phase lo c rel pos (Found lo c seg) (some seg) { t with copiedIn := log } ∧ E { t with copiedIn := log } :=
    fun t log ht => ⟨ht.1.update _ _ rfl rfl rfl ht.1.rxDesc ht.1.info, logged t log ht.2⟩
  refine phase_get stable h fun t ht => ?_
  generalize t.heth.rxFrameInfos.length.toUInt16 = len
  refine phase_get stable ht fun t ht => ?_
  rw [ht.1.info.2.2.2]
  split
  · exact safe_ret hstable ht
  refine safe_call hstable ht fun t alloc ht => ?_
  cases alloc with
  | none => exact safe_ret hstable ht
  | some chain =>
      refine phase_get stable ht fun t ht => ?_
      rw [ht.1.info.2.1]
      exact .seq _ (fillChain_safe hstable hstanding hlogged chain.val _ ht) fun _ t ht => safe_ret hstable ht

end Copy

/-! ## Giving the descriptors back -/

section Release

variable {lo c : Nat} {seg : RxSeg} {s : Eth}

/-- While descriptors are given back: RBUS remembers a suspension until it is tested, and the DMA
could go on by now. -/
def Releasing (resumes : Prop) (s : Eth) : Prop :=
  s.heth.lock = false ∧ (resumes → Due s ∧ Ready s)

abbrev Held (lo c rel : Nat) (seg : RxSeg) : Eth → Prop :=
  Phase lo c rel (lo + c + 1) (Found lo c seg) (some seg)

theorem releasing_stable (hs : resumes → strict = true) {rel : Nat} :
    Stable (inputSetting strict drains resumes).rely
      fun s => Held lo c rel seg s ∧ Releasing resumes s := by
  rintro s t r ⟨hp, hl, hd⟩
  refine ⟨phase_stable _ _ _ _ _ _ r hp, lock_stable r hl, fun h => ?_⟩
  rcases r with ⟨e, he⟩ | hirq
  · obtain rfl := hs h
    exact ⟨(hd h).1.fire he, (hd h).2.fire hp.ring he⟩
  · exact ⟨(hd h).1.irq hirq, (hd h).2.irq hirq⟩

theorem Phase.frame {rel pos : Nat} {info : RxFrameInfos → Prop}
    (h : Phase lo c rel pos info (some seg) s) (hls : seg.ls = true) :
    ∃ f, s.dma.arrived[s.taken.length]? = some f ∧ f.length = c + 1 ∧ f[c]? = some seg := by
  have hno := h.noLast
  have hseg := h.seen seg rfl
  rw [h.first] at hno hseg
  exact hno.frame_of_last h.ring h.log.le hseg hls

theorem start_succ {k : Nat} {f : List RxSeg} (hf : s.dma.arrived[k]? = some f) :
    start s (k + 1) = start s k + f.length := by
  obtain ⟨hk, rfl⟩ := List.getElem?_eq_some_iff.mp hf
  rw [start, List.take_succ_eq_append_getElem hk, List.flatten_append, List.length_append, start]
  simp

theorem Phase.release {rel : Nat} (hls : seg.ls = true) (h : Held lo c rel seg s) (hrel : rel ≤ lo + c) :
    Held lo c (rel + 1) seg (s.updateRxDesc (slot ethRxBufNb rel) fun d => { d with own := true }) := by
  have hlt := (List.getElem?_eq_some_iff.mp (h.seen seg rfl)).1
  obtain ⟨f, hf, hlen, -⟩ := h.frame hls
  have hupper : rel + 1 ≤ start s (s.taken.length + 1) := by
    rw [start_succ hf, ← h.first]
    omega
  exact ⟨⟨h.ring.release (by omega), h.log.congr rfl rfl, Nat.le_succ_of_le h.lower, hupper, h.fault⟩,
    h.first, h.noLast, h.rxDesc, h.info, h.seen⟩

theorem Phase.ready {rel : Nat} (hls : seg.ls = true) (h : Held lo c rel seg s) (hrel : rel ≤ lo + c) :
    Ready (s.updateRxDesc (slot ethRxBufNb rel) fun d => { d with own := true }) := by
  have hring := (h.release hls hrel).ring
  have hfits := h.ring.window.fits
  right
  rw [Eth.nextRx, hring.cur]
  exact hring.window.free _ (Nat.le_refl _) (by
    change (segs s).length < rel + 1 + ethRxBufNb
    omega)

theorem releaseRest_safe (hs : resumes → strict = true) (hls : seg.ls = true) : ∀ n rel s, rel + n = lo + c + 1 →
    Held lo c rel seg s ∧ Releasing resumes s →
    (releaseDescriptors n (some (slot ethRxBufNb rel))).Safe (inputSetting strict drains resumes)
      (fun _ t => Held lo c (lo + c + 1) seg t ∧ Releasing resumes t) s := by
  intro n
  induction n with
  | zero =>
      intro rel s hn h
      obtain rfl : rel = lo + c + 1 := hn
      exact safe_ret (releasing_stable hs) h
  | succ n ih =>
      intro rel s hn h
      refine safe_modify (releasing_stable hs) h
        (fun t ht => ⟨_, (ht.1.release hls (by omega)).toStanding⟩) fun t ht _ => ?_
      have ht' : Held lo c (rel + 1) seg (t.updateRxDesc (slot ethRxBufNb rel) fun d => { d with own := true }) ∧
          Releasing resumes (t.updateRxDesc (slot ethRxBufNb rel) fun d => { d with own := true }) :=
        ⟨ht.1.release hls (by omega), ht.2.1, fun hr => ⟨(ht.2.2 hr).1, ht.1.ready hls (by omega)⟩⟩
      refine safe_get (releasing_stable hs) ht' (fun t ht => ⟨_, ht.1.toStanding⟩) fun t ht => ?_
      rw [ht.1.ring.next, slot_succ]
      exact ih (rel + 1) t (by omega) ht

theorem release_safe (hs : resumes → strict = true) (hls : seg.ls = true)
    (h : Held lo c lo seg s ∧ s.heth.lock = false ∧ (resumes → Debt s)) :
    (releaseDescriptors (c + 1) (some (slot ethRxBufNb lo))).Safe (inputSetting strict drains resumes)
      (fun _ t => Held lo c (lo + c + 1) seg t ∧ Releasing resumes t) s := by
  have hstable : Stable (inputSetting strict drains resumes).rely _ := (phase_stable lo c lo (lo + c + 1)
    (Found lo c seg) (some seg)).and (lock_stable.and (debt_stable hs))
  refine safe_modify hstable h
    (fun t ht => ⟨_, (ht.1.release hls (Nat.le_add_right _ _)).toStanding⟩) fun t ht _ => ?_
  have ht' : Held lo c (lo + 1) seg (t.updateRxDesc (slot ethRxBufNb lo) fun d => { d with own := true }) ∧
      Releasing resumes (t.updateRxDesc (slot ethRxBufNb lo) fun d => { d with own := true }) :=
    ⟨ht.1.release hls (Nat.le_add_right _ _), ht.2.1,
      fun hr => ⟨(ht.2.2 hr).due, ht.1.ready hls (Nat.le_add_right _ _)⟩⟩
  refine safe_get (releasing_stable hs) ht' (fun t ht => ⟨_, ht.1.toStanding⟩) fun t ht => ?_
  rw [ht.1.ring.next, slot_succ]
  exact releaseRest_safe hs hls c (lo + 1) t (by omega) ht

def recordTaken (first : Option RxPtr) (segCount : Nat) (p : Option (List Pbuf)) (s : Eth) : Eth :=
  { s with
    heth.rxFrameInfos.segCount := 0
    taken := s.taken ++ [⟨first, segCount, s.heth.rxFrameInfos.length, p⟩] }

theorem Phase.take (h : Held lo c (lo + c + 1) seg s) (hls : seg.ls = true) (p : Option (List Pbuf)) :
    Phase (lo + c + 1) 0 (lo + c + 1) (lo + c + 1) (Counted (lo + c + 1) 0) none
      (recordTaken (some (slot ethRxBufNb lo)) (c + 1) p s) := by
  obtain ⟨f, hf, hlen, hlast⟩ := h.frame hls
  have hstart : start s (s.taken.length + 1) = lo + c + 1 := by
    rw [start_succ hf, ← h.first, hlen]
    rfl
  have hlength : (recordTaken (some (slot ethRxBufNb lo)) (c + 1) p s).taken.length = s.taken.length + 1 :=
    List.length_append
  refine ⟨⟨h.ring.congr rfl, ⟨?_, ?_⟩, ?_, ?_, h.fault⟩, ?_, nofun, h.rxDesc, ⟨rfl, nofun⟩, nofun⟩
  · rw [hlength]
    exact (List.getElem?_eq_some_iff.mp hf).1
  · intro i rec hi
    change (s.taken ++ [_])[i]? = some rec at hi
    rcases Nat.lt_or_ge i s.taken.length with hlt | hge
    · rw [List.getElem?_append_left hlt] at hi
      exact h.log.each i rec hi
    · rw [List.getElem?_append_right hge] at hi
      obtain ⟨hi0, rfl⟩ : i - s.taken.length = 0 ∧ _ = rec := by
        rcases hd : i - s.taken.length with _ | d
        · exact ⟨rfl, by simpa [hd] using hi⟩
        · simp [hd] at hi
      obtain rfl : i = s.taken.length := by omega
      refine ⟨_, seg, hf, ?_, ?_, hlen.symm, h.info.2.2.1⟩
      · rw [List.getLast?_eq_getElem?, hlen]
        exact hlast
      · change some (slot ethRxBufNb lo) = some (slot ethRxBufNb (start s s.taken.length))
        rw [h.first]
  · rw [hlength]
    exact hstart.le
  · rw [hlength]
    exact hstart.symm.le.trans (start_mono s (Nat.le_succ _))
  · rw [hlength]
    exact hstart.symm

end Release

/-! ## The poll demand and the whole function -/

section Whole

variable {lo : Nat} {s : Eth} {p : Option (List Pbuf)}

abbrev Fresh (lo : Nat) : Eth → Prop := Phase lo 0 lo lo (Counted lo 0) none

def Leaves (drains : Prop) (p : Option (List Pbuf)) (s : Eth) : Prop :=
  s.heth.lock = false ∧ (drains → p = none → Drained s)

theorem leaves_stable : Stable (inputSetting strict drains resumes).rely
    fun s => Fresh lo s ∧ Leaves drains p s := by
  rintro s t r ⟨hp, hl, hd⟩
  exact ⟨phase_stable _ _ _ _ _ _ r hp, lock_stable r hl,
    fun h hn => drained_others hp.ring (hd h hn) (others_of_rely r)⟩

theorem due_ready_stable (hs : resumes → strict = true) :
    Stable (inputSetting strict drains resumes).rely
      fun s => (Fresh lo s ∧ Leaves drains p s) ∧ (resumes → Due s ∧ Ready s) := by
  rintro s t r ⟨hl, hd⟩
  refine ⟨leaves_stable r hl, fun h => ?_⟩
  rcases r with ⟨e, he⟩ | hirq
  · obtain rfl := hs h
    exact ⟨(hd h).1.fire he, (hd h).2.fire hl.1.ring he⟩
  · exact ⟨(hd h).1.irq hirq, (hd h).2.irq hirq⟩

theorem ready_stable (hs : resumes → strict = true) :
    Stable (inputSetting strict drains resumes).rely
      fun s => (Fresh lo s ∧ Leaves drains p s) ∧ (resumes → Ready s) := by
  rintro s t r ⟨hl, hd⟩
  refine ⟨leaves_stable r hl, fun h => ?_⟩
  rcases r with ⟨e, he⟩ | hirq
  · obtain rfl := hs h
    exact (hd h).fire hl.1.ring he
  · exact (hd h).irq hirq

def Done (drains resumes : Prop) (p : Option (List Pbuf)) (s : Eth) : Prop :=
  Idle resumes s ∧ (p = none → Asleep drains resumes s)

theorem done_stable (hs : resumes → strict = true) :
    Stable (inputSetting strict drains resumes).rely (Done drains resumes p) :=
  fun _ _ r h => ⟨idle_stable hs r h.1, fun hp => asleep_stable hs r (h.2 hp)⟩

theorem done_of_settled (h : Fresh lo s ∧ Leaves drains p s) (hd : resumes → Debt s ∧ Awake s) :
    Done drains resumes p s :=
  ⟨⟨⟨lo, 0, h.1⟩, h.2.1, fun hr => (hd hr).1⟩,
    fun hp => ⟨⟨lo, h.1.ring⟩, fun hdr => h.2.2 hdr hp, fun hr => (hd hr).2⟩⟩

theorem settled_poll (hready : Ready s)
    (hmeets : s.dma.rxSuspended = true → s.nextRx.own = true ∨ s.dmasr.rbus = true) :
    Debt s.receivePollDemand ∧ Awake s.receivePollDemand := by
  have hsus : s.receivePollDemand.dma.rxSuspended = (s.dma.rxSuspended && !s.nextRx.own) := rfl
  constructor
  · intro h
    rw [hsus, Bool.and_eq_true, Bool.not_eq_true'] at h
    rcases hmeets h.1 with hown | hrbus
    · rw [h.2] at hown
      exact absurd hown Bool.false_ne_true
    · exact ⟨hrbus, h.2⟩
  · rcases hready with hsignal | hown
    · exact .inl hsignal
    · refine .inr ⟨hown, ?_⟩
      rw [hsus, hown]
      exact Bool.and_false _

theorem pollDemand_safe (hs : resumes → strict = true)
    (h : (Fresh lo s ∧ Leaves drains p s) ∧ (resumes → Due s ∧ Ready s)) :
    (do
      Prog.when (← Prog.get fun s => s.dmasr.rbus) do
        Prog.modify fun s => { s with dmasr.rbus := false }
        Prog.modify Eth.receivePollDemand
      pure p : Code Eth (Option (List Pbuf))).Safe (inputSetting strict drains resumes)
      (Done drains resumes) s := by
  have hend : ∀ t, Done drains resumes p t →
      (ret p : Code Eth (Option (List Pbuf))).Safe (inputSetting strict drains resumes)
        (Done drains resumes) t := fun t ht => safe_ret (done_stable hs) ht
  refine safe_get (due_ready_stable hs) h (fun t ht => ⟨_, ht.1.1.toStanding⟩) fun t ht => ?_
  refine .seq (fun _ => Done drains resumes p) ?_ fun _ t ht => hend t ht
  refine safe_when (fun hrbus => ?_) fun hrbus => safe_ret (done_stable hs) ?_
  · refine safe_modify (due_ready_stable hs) ht (fun t ht =>
      ⟨_, ht.1.1.toStanding.congr rfl rfl rfl⟩) fun t ht _ => ?_
    have ht' : (Fresh lo { t with dmasr.rbus := false } ∧ Leaves drains p { t with dmasr.rbus := false }) ∧
        (resumes → Ready { t with dmasr.rbus := false }) :=
      ⟨⟨ht.1.1.update _ _ rfl rfl rfl ht.1.1.rxDesc ht.1.1.info, ht.1.2⟩, fun hr => (ht.2 hr).2⟩
    refine safe_modify (k := ret) (ready_stable hs) ht' (fun t ht =>
      ⟨_, ht.1.1.toStanding.congr rfl rfl rfl⟩)
      fun t ht hmeets => ?_
    refine safe_ret (done_stable hs) (done_of_settled
      ⟨ht.1.1.update _ _ rfl rfl rfl ht.1.1.rxDesc ht.1.1.info, ht.1.2⟩ fun hr => ?_)
    exact settled_poll (ht.2 hr) (hmeets.2 hr (Nat.succ_ne_self _))
  · refine done_of_settled ht.1 fun hr => ?_
    have hrun : t.dma.rxSuspended = false := by
      by_contra hsus
      have := (ht.2 hr).1 (by simpa using hsus)
      rw [hrbus] at this
      exact Bool.false_ne_true this
    exact ⟨fun hsus => absurd (hrun.symm.trans hsus) Bool.false_ne_true,
      (ht.2 hr).2.imp_right fun hown => ⟨hown, hrun⟩⟩

theorem lowLevelInput_safe (hs : resumes → strict = true) (h : Idle resumes s) :
    lowLevelInput.Safe (inputSetting strict drains resumes) (Done drains resumes) s := by
  refine .seq (Got drains resumes) (getReceivedFrame_safe hs h) fun r t ht => ?_
  split
  · rename_i hr
    have hnone : Idle resumes t ∧ Asleep drains resumes t := by
      cases r with
      | ok => exact absurd rfl hr
      | error => exact ht
      | busy => exact ht
      | timeout => exact ht
    exact safe_ret (done_stable hs) ⟨hnone.1, fun _ => hnone.2⟩
  · rename_i hr
    obtain rfl : r = .ok := not_not.mp hr
    obtain ⟨⟨lo, c, seg, hls, hp⟩, hl, hd⟩ := ht
    have hstable : Stable (inputSetting strict drains resumes).rely
        fun s => s.heth.lock = false ∧ (resumes → Debt s) := lock_stable.and (debt_stable hs)
    refine .seq _ (receiveFrame_safe hstable (fun _ _ h => h) ⟨hp, hl, hd⟩) fun p t ht => ?_
    refine phase_get hstable ht fun t ht => ?_
    rw [ht.1.info.2.1]
    refine phase_get hstable ht fun t ht => ?_
    rw [ht.1.info.1]
    refine .seq _ (release_safe hs hls ht) fun _ t ht => ?_
    refine safe_modify (releasing_stable hs) ht
      (fun t ht => ⟨_, (Phase.take ht.1 hls p).toStanding⟩) fun t ht hmeets => ?_
    refine pollDemand_safe hs ⟨⟨Phase.take ht.1 hls p, ht.2.1, fun hdr hnone => ?_⟩, ht.2.2⟩
    refine (hmeets.1 hdr _ rfl hnone).imp_right fun hall => ?_
    change t.dma.arrived.length = (t.taken ++ [_]).length
    rw [hall, List.length_append]
    rfl

theorem round_safe (hs : resumes → strict = true) (h : Idle resumes s) :
    ethernetifInputRound.Safe (inputSetting strict drains resumes) (Done drains resumes) s := by
  refine safe_call (idle_stable hs) h fun t _ ht => ?_
  refine .seq _ (lowLevelInput_safe hs ht) fun p t ht => ?_
  have hunlock : ∀ t, Done drains resumes p t → (do
      Prog.call Call.unlockTcpipCore
      pure p : Code Eth (Option (List Pbuf))).Safe (inputSetting strict drains resumes)
      (Done drains resumes) t :=
    fun t ht => safe_call (done_stable hs) ht fun t _ ht => safe_ret (done_stable hs) ht
  refine .seq (fun _ => Done drains resumes p) ?_ fun _ => hunlock
  cases p with
  | none => exact safe_ret (done_stable hs) ht
  | some chain =>
      refine safe_call (done_stable hs) ht fun t verdict ht => ?_
      refine safe_when (fun _ => ?_) fun _ => safe_ret (done_stable hs) ht
      exact safe_ask (done_stable hs) ht fun t _ ht => safe_ret (done_stable hs) ht

end Whole

end

end Oinzen.Receive
