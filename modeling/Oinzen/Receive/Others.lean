import Oinzen.Interference.Frame
import Oinzen.Hal.Interrupt
import Oinzen.Receive.Ring
import Oinzen.Driver.Ethernetif

/-!
# What goes on beside the receive thread

The DMA and the interrupt handler act between any two actions of the receive thread. This says what
they leave as it is and in which direction they change the rest.
-/

namespace Oinzen.Receive

open Ring Interference Prog

structure Others (s t : Eth) : Prop extends Bystands s t where
  arrived : s.dma.arrived <+: t.dma.arrived
  segs : segs s <+: segs t
  ring : ∀ lo, RingAt s lo → RingAt t lo
  signalled : Signalled s → Signalled t
  arrival : ∀ lo, RingAt s lo → t.dma.arrived = s.dma.arrived ∨ Signalled t

theorem others_of_fire {s t : Eth} {strict : Bool} {e : DmaEvent} (h : s.fire strict e = some t) :
    Others s t := by
  have hby := bystands_of_fire h
  have hring := fun lo (hr : RingAt s lo) => hr.fire h
  obtain ⟨ls, fl, data, -, rfl⟩ | ⟨-, -, rfl⟩ | ⟨-, rfl⟩ | ⟨_, _, _, _, rfl⟩ := Eth.fire_cases h
  · refine ⟨hby, ?_, ?_, hring, ?_, fun lo hr => ?_⟩
    · cases ls <;> simp [Eth.fillRx]
    · rw [segs_fillRx]
      exact List.prefix_append _ _
    · rintro (htoken | hrs)
      · exact .inl htoken
      · exact .inr (by simp [Eth.fillRx, hrs])
    · cases ls with
      | false => exact .inl rfl
      | true => exact .inr (.inr (by simp [Eth.fillRx, Eth.nextRx, hr.interrupts]))
  · exact ⟨hby, List.prefix_rfl, List.prefix_rfl, hring, id, fun _ _ => .inl rfl⟩
  · exact ⟨hby, List.prefix_rfl, List.prefix_rfl, hring, id, fun _ _ => .inl rfl⟩
  · exact ⟨hby, List.prefix_rfl, List.prefix_rfl, hring, id, fun _ _ => .inl rfl⟩

theorem others_of_irq {s t : Eth} (h : IrqKeeps s t) : Others s t := by
  have hby := bystands_of_irq h
  obtain ⟨_, _, _, _, rfl, -, -, hsignal⟩ := h
  exact ⟨hby, List.prefix_rfl, List.prefix_rfl, fun lo hr => hr.congr rfl, hsignal, fun _ _ => .inl rfl⟩

theorem watch_releaseDescriptors {υ : Type} {view : Eth → υ}
    (desc : ∀ s i (f : RxDesc → RxDesc), view (s.updateRxDesc i f) = view s)
    (fault : ∀ s : Eth, view { s with fault := true } = view s) :
    ∀ n i, (Interference.Frame.watch view).Avoids (releaseDescriptors n i)
  | 0, _ => .ret
  | _ + 1, none => .watch_modify fault
  | n + 1, some _ =>
      .bind (.watch_modify fun s => desc s _ _) fun _ =>
        .bind (.watch_get _) fun _ => watch_releaseDescriptors desc fault n _

def Debt (s : Eth) : Prop :=
  s.dma.rxSuspended = true → s.dmasr.rbus = true ∧ s.nextRx.own = false

def Due (s : Eth) : Prop := s.dma.rxSuspended = true → s.dmasr.rbus = true

def Ready (s : Eth) : Prop := Signalled s ∨ s.nextRx.own = true

def Awake (s : Eth) : Prop := Signalled s ∨ s.nextRx.own = true ∧ s.dma.rxSuspended = false

theorem Debt.due {s : Eth} (h : Debt s) : Due s := fun hs => (h hs).1

theorem Debt.fire {s t : Eth} {e : DmaEvent} (h : Debt s) (ht : s.fire true e = some t) : Debt t := by
  obtain ⟨ls, fl, data, may, rfl⟩ | ⟨hown, -, rfl⟩ | ⟨-, rfl⟩ | ⟨_, _, _, _, rfl⟩ := Eth.fire_cases ht
  · simp only [Eth.mayFill, Bool.and_eq_true] at may
    intro hs
    rw [(h hs).2] at may
    simp at may
  · exact fun _ => ⟨rfl, hown⟩
  · exact h
  · exact h

theorem Due.fire {s t : Eth} {strict : Bool} {e : DmaEvent} (h : Due s) (ht : s.fire strict e = some t) :
    Due t := by
  obtain ⟨ls, fl, data, may, rfl⟩ | ⟨hown, -, rfl⟩ | ⟨-, rfl⟩ | ⟨_, _, _, _, rfl⟩ := Eth.fire_cases ht
  · exact h
  · exact fun _ => rfl
  · exact h
  · exact h

theorem fill_ready {s : Eth} {lo : Nat} (hr : RingAt s lo) {ls : Bool} (fl : BitVec 14)
    (data : Nat → UInt8) (may : s.mayFill true ls = true) :
    Signalled (s.fillRx ls fl data) ∨
      (s.fillRx ls fl data).nextRx.own = true ∧ (s.fillRx ls fl data).dma.rxSuspended = false := by
  simp only [Eth.mayFill, Bool.and_eq_true, Bool.or_eq_true, Bool.not_true, Bool.false_or,
    Bool.not_eq_true'] at may
  obtain ⟨-, hsus, hls | hnext⟩ := may
  · exact .inl (.inr (by simp [Eth.fillRx, Eth.nextRx, hr.interrupts, hls]))
  · refine .inr ⟨?_, hsus⟩
    have hother : s.nextRx.buffer2NextDescAddr ≠ s.dma.rxCur := by
      rw [Eth.nextRx, hr.next]
      revert hnext
      generalize s.dma.rxCur = i
      intro _
      revert i
      decide
    have hsame : (s.fillRx ls fl data).nextRx = s.dmaRxDscrTab s.nextRx.buffer2NextDescAddr := by
      simp [Eth.nextRx, Eth.fillRx, Eth.updateRxDesc] at hother ⊢
      simp [hother]
    rw [hsame]
    exact hnext

theorem Ready.fire {s t : Eth} {lo : Nat} (hr : RingAt s lo) {e : DmaEvent} (h : Ready s)
    (ht : s.fire true e = some t) : Ready t := by
  have hsignal := (others_of_fire ht).signalled
  obtain ⟨ls, fl, data, may, rfl⟩ | ⟨hown, -, rfl⟩ | ⟨-, rfl⟩ | ⟨_, _, _, _, rfl⟩ := Eth.fire_cases ht
  · exact (fill_ready hr fl data may).imp_right And.left
  · exact h.imp_left hsignal
  · exact h.imp_left hsignal
  · exact h.imp_left hsignal

theorem Awake.fire {s t : Eth} {lo : Nat} (hr : RingAt s lo) {e : DmaEvent} (h : Awake s)
    (ht : s.fire true e = some t) : Awake t := by
  have hsignal := (others_of_fire ht).signalled
  obtain ⟨ls, fl, data, may, rfl⟩ | ⟨hown, -, rfl⟩ | ⟨-, rfl⟩ | ⟨_, _, _, _, rfl⟩ := Eth.fire_cases ht
  · exact fill_ready hr fl data may
  · rcases h with h | ⟨h, -⟩
    · exact .inl (hsignal h)
    · rw [hown] at h
      exact absurd h Bool.false_ne_true
  · exact h.imp_left hsignal
  · exact h.imp_left hsignal

theorem Debt.irq {s t : Eth} (h : Debt s) (ht : IrqKeeps s t) : Debt t := by
  obtain ⟨_, _, _, _, rfl, -, hrbus, -⟩ := ht
  exact fun hs => ⟨hrbus.trans (h hs).1, (h hs).2⟩

theorem Due.irq {s t : Eth} (h : Due s) (ht : IrqKeeps s t) : Due t := by
  obtain ⟨_, _, _, _, rfl, -, hrbus, -⟩ := ht
  exact fun hs => hrbus.trans (h hs)

theorem Ready.irq {s t : Eth} (h : Ready s) (ht : IrqKeeps s t) : Ready t := by
  obtain ⟨_, _, _, _, rfl, -, -, hsignal⟩ := ht
  exact h.imp_left hsignal

theorem Awake.irq {s t : Eth} (h : Awake s) (ht : IrqKeeps s t) : Awake t := by
  obtain ⟨_, _, _, _, rfl, -, -, hsignal⟩ := ht
  exact h.imp_left hsignal

end Oinzen.Receive
