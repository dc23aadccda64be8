import Oinzen.Interference.Machine
import Oinzen.Hal.Dma

/-!
# The interrupt handler

What the handler does to the state, and what it and the DMA leave as it is.
-/

namespace Oinzen

open Interference Prog

def Signalled (s : Eth) : Prop := s.xSemaphore = true ∨ s.dmasr.rs = true

def IrqKeeps (s t : Eth) : Prop :=
  ∃ lock state dmasr token,
    t = { s with heth.lock := lock, heth.state := state, dmasr := dmasr, xSemaphore := token } ∧
    (lock = true → s.heth.lock = true) ∧ dmasr.rbus = s.dmasr.rbus ∧ (Signalled s → Signalled t)

structure Bystands (s t : Eth) : Prop where
  rxDesc : t.heth.rxDesc = s.heth.rxDesc
  txDesc : t.heth.txDesc = s.heth.txDesc
  infos : t.heth.rxFrameInfos = s.heth.rxFrameInfos
  lock : t.heth.lock = true → s.heth.lock = true
  txBuff : t.txBuff = s.txBuff
  fault : t.fault = s.fault
  taken : t.taken = s.taken
  handed : t.handed = s.handed
  ownReads : t.ownReads = s.ownReads
  transmitting : t.transmitting = s.transmitting
  accepted : t.accepted = s.accepted
  outputs : t.outputs = s.outputs
  copiedOut : t.copiedOut = s.copiedOut
  copiedIn : t.copiedIn = s.copiedIn

theorem bystands_of_fire {s t : Eth} {strict : Bool} {e : DmaEvent} (h : s.fire strict e = some t) :
    Bystands s t := by
  obtain ⟨_, _, _, -, rfl⟩ | ⟨-, -, rfl⟩ | ⟨-, rfl⟩ | ⟨_, _, _, _, rfl⟩ := Eth.fire_cases h <;>
    exact ⟨rfl, rfl, rfl, id, rfl, rfl, rfl, rfl, rfl, rfl, rfl, rfl, rfl, rfl⟩

theorem bystands_of_irq {s t : Eth} (h : IrqKeeps s t) : Bystands s t := by
  obtain ⟨_, _, _, _, rfl, hlock, -⟩ := h
  exact ⟨rfl, rfl, rfl, hlock, rfl, rfl, rfl, rfl, rfl, rfl, rfl, rfl, rfl, rfl⟩

theorem unlocked_stable {rely : Eth → Eth → Prop} (bystands : ∀ s t, rely s t → Bystands s t) :
    Stable rely fun s => s.heth.lock = false :=
  fun s t r h => Bool.eq_false_iff.mpr fun hlock => Bool.false_ne_true (h.symm.trans ((bystands s t r).lock hlock))

def irqSetting (strict : Bool) : Setting Eth where
  rely s t := ∃ e, s.fire strict e = some t
  guar := IrqKeeps
  meets := Machine.always

theorem irqKeeps_setLock (s : Eth) : IrqKeeps s (s.setLock false) :=
  ⟨false, s.heth.state, s.dmasr, s.xSemaphore, rfl, nofun, rfl, id⟩

theorem irqKeeps_setState (x : HalEthState) (s : Eth) : IrqKeeps s (s.setState x) :=
  ⟨s.heth.lock, x, s.dmasr, s.xSemaphore, rfl, id, rfl, id⟩

theorem irqKeeps_refl (s : Eth) : IrqKeeps s s :=
  ⟨s.heth.lock, s.heth.state, s.dmasr, s.xSemaphore, rfl, id, rfl, id⟩

theorem stable_true (strict : Bool) : Stable (irqSetting strict).rely fun _ => True := fun _ _ _ h => h

theorem irqUnlock_safe (strict : Bool) (s : Eth) :
    irqUnlock.Safe (irqSetting strict) (fun _ _ => True) s := by
  refine safe_modify (stable_true strict) trivial (fun t _ => irqKeeps_setState _ t) fun t _ _ => ?_
  refine safe_modify (k := ret) (stable_true strict) trivial (fun t _ => irqKeeps_setLock t) fun t _ _ => ?_
  exact safe_ret (stable_true strict) trivial

theorem token_stable (strict : Bool) : Stable (irqSetting strict).rely fun s => s.xSemaphore = true := by
  rintro s t ⟨e, he⟩ htoken
  obtain ⟨_, _, _, -, rfl⟩ | ⟨-, -, rfl⟩ | ⟨-, rfl⟩ | ⟨_, _, _, _, rfl⟩ := Eth.fire_cases he <;>
    exact htoken

theorem irqNormal_safe (strict : Bool) (s : Eth) :
    irqNormal.Safe (irqSetting strict) (fun _ _ => True) s := by
  refine safe_get (stable_true strict) trivial (fun t _ => irqKeeps_refl t) fun t _ => ?_
  split
  · refine safe_modify (stable_true strict) trivial (fun t _ => ?_) fun t _ _ => ?_
    · exact ⟨t.heth.lock, t.heth.state, t.dmasr, true, rfl, id, rfl, fun _ => .inl rfl⟩
    refine safe_modify (token_stable strict) rfl (fun t htoken => ?_) fun t _ _ => ?_
    · exact ⟨t.heth.lock, t.heth.state, { t.dmasr with rs := false }, t.xSemaphore, rfl, id, rfl,
        fun _ => .inl htoken⟩
    exact irqUnlock_safe strict _
  · refine safe_get (stable_true strict) trivial (fun t _ => irqKeeps_refl t) fun t _ => ?_
    refine safe_when (fun _ => ?_) fun _ => safe_ret (stable_true strict) trivial
    refine safe_modify (stable_true strict) trivial (fun t _ => ?_) fun t _ _ => irqUnlock_safe strict _
    exact ⟨t.heth.lock, t.heth.state, { t.dmasr with ts := false }, t.xSemaphore, rfl, id, rfl, id⟩

theorem irqHandler_safe (strict : Bool) (s : Eth) :
    halEthIrqHandler.Safe (irqSetting strict) (fun _ _ => True) s := by
  refine .bind ((irqNormal_safe strict s).mono fun _ t _ => ?_)
  refine safe_modify (stable_true strict) trivial (fun t _ => ?_) fun t _ _ => ?_
  · exact ⟨t.heth.lock, t.heth.state, { t.dmasr with nis := false }, t.xSemaphore, rfl, id, rfl, id⟩
  refine safe_get (stable_true strict) trivial (fun t _ => irqKeeps_refl t) fun t _ => ?_
  refine safe_when (fun _ => ?_) fun _ => safe_ret (stable_true strict) trivial
  refine safe_modify (stable_true strict) trivial (fun t _ => ?_) fun t _ _ => irqUnlock_safe strict _
  exact ⟨t.heth.lock, t.heth.state, { t.dmasr with ais := false }, t.xSemaphore, rfl, id, rfl, id⟩

end Oinzen
