import Oinzen.Driver.Ethernetif
import Oinzen.Hal.Dma
import Oinzen.Interference.Machine

/-!
# The state after `low_level_init`
-/

namespace Oinzen

open Interference

def Eth.started (answers : Nat → ∀ i, Call.Answer i) (rxTab : RxPtr → RxDesc) (txTab : TxPtr → TxDesc)
    (rxBuff : RxPtr → Nat → UInt8) (txBuff : TxPtr → Nat → UInt8) : Eth :=
  (Prog.run answers 0 lowLevelInitEth (Eth.boot rxTab txTab rxBuff txBuff)).2

section

variable (answers : Nat → ∀ i, Call.Answer i) (rxTab : RxPtr → RxDesc) (txTab : TxPtr → TxDesc)
  (rxBuff : RxPtr → Nat → UInt8) (txBuff : TxPtr → Nat → UInt8)

def RxReady (i : RxPtr) (d : RxDesc) : Prop :=
  d.own = true ∧ d.dic = false ∧ d.buffer1Addr = i ∧ d.buffer2NextDescAddr = i + 1

def TxReady (i : TxPtr) (d : TxDesc) : Prop :=
  d.own = false ∧ d.buffer1Addr = i ∧ d.buffer2NextDescAddr = i + 1

theorem started_eq : ∃ rx tx init maccr, (∀ i, RxReady i (rx i)) ∧ (∀ i, TxReady i (tx i)) ∧
    Eth.started answers rxTab txTab rxBuff txBuff =
      { Eth.boot rx tx rxBuff txBuff with
        heth := ⟨init, false, .ready, 0, 0, ⟨none, none, 0, 0, none⟩⟩, maccr := maccr
        xSemaphore := true } := by
  refine ⟨(Eth.started answers rxTab txTab rxBuff txBuff).dmaRxDscrTab,
    (Eth.started answers rxTab txTab rxBuff txBuff).dmaTxDscrTab, _, _, fun i => ?_, fun i => ?_, rfl⟩
  · match i with
    | 0 => exact ⟨rfl, rfl, rfl, rfl⟩
    | 1 => exact ⟨rfl, rfl, rfl, rfl⟩
    | 2 => exact ⟨rfl, rfl, rfl, rfl⟩
    | 3 => exact ⟨rfl, rfl, rfl, rfl⟩
  · match i with
    | 0 => exact ⟨rfl, rfl, rfl⟩
    | 1 => exact ⟨rfl, rfl, rfl⟩
    | 2 => exact ⟨rfl, rfl, rfl⟩
    | 3 => exact ⟨rfl, rfl, rfl⟩

end

def cleared : Eth :=
  Eth.started (fun _ => Call.granted true) (fun _ => ⟨false, false, false, 0, false, false, 0, 0, 0⟩)
    (fun _ => ⟨false, false, false, false, false, 0, 0, 0⟩) (fun _ _ => 0) fun _ _ => 0

def arrive : Machine.Move Call.Answer DmaEvent := .env (.fill true 68 fun _ => 0)

def suspend : Machine.Move Call.Answer DmaEvent := .env .suspend

def interrupt : List (Machine.Move Call.Answer DmaEvent) := List.replicate 9 (.irq (Call.granted true))

def proceed (room : Bool) (n : Nat) : List (Machine.Move Call.Answer DmaEvent) :=
  List.replicate n (.task (Call.granted room))

end Oinzen
