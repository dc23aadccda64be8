import Oinzen.External
import Mathlib.Logic.Function.Basic

/-!
# The Ethernet HAL

The handle, the descriptor rings and the DMA status register of `stm32f7xx_hal_eth.c`, and the HAL
functions the driver calls. Every access to something another party can see is one action.
-/

namespace Oinzen

open Interference

abbrev ethRxBufNb : Nat := 4
abbrev ethTxBufNb : Nat := 4

instance : NeZero ethRxBufNb := ⟨Nat.succ_ne_zero 3⟩
instance : NeZero ethTxBufNb := ⟨Nat.succ_ne_zero 3⟩

def ethRxBufSize : Nat := 2016
def ethTxBufSize : Nat := 2016

theorem ethRxBufSize_pos : 0 < ethRxBufSize := by decide
theorem ethTxBufSize_pos : 0 < ethTxBufSize := by decide

/-- Index of a receive descriptor and of its buffer; the address both are known by. -/
abbrev RxPtr := Fin ethRxBufNb
abbrev TxPtr := Fin ethTxBufNb

inductive HalEthState
  | reset | ready | busy | busyTx | busyWr | busyRd | timeout
  deriving DecidableEq, Repr

/-- `ETH_DMADescTypeDef` on the receive ring: the bits of `Status` and `ControlBufferSize` in use. -/
structure RxDesc where
  own : Bool
  fs : Bool
  ls : Bool
  fl : BitVec 14
  dic : Bool
  rch : Bool
  bufSize : Nat
  buffer1Addr : RxPtr
  buffer2NextDescAddr : RxPtr

structure TxDesc where
  own : Bool
  fs : Bool
  ls : Bool
  tch : Bool
  checksumInsertion : Bool
  tbs1 : Nat
  buffer1Addr : TxPtr
  buffer2NextDescAddr : TxPtr

structure RxFrameInfos where
  fsRxDesc : Option RxPtr
  lsRxDesc : Option RxPtr
  segCount : Nat
  length : UInt32
  buffer : Option RxPtr

structure EthInit where
  autoNegotiation : Bool
  checksumByHardware : Bool
  rxInterruptMode : Bool
  fullDuplex : Bool
  speed100M : Bool

structure Heth where
  init : EthInit
  lock : Bool
  state : HalEthState
  rxDesc : RxPtr
  txDesc : TxPtr
  rxFrameInfos : RxFrameInfos

/-- The flags of `DMASR` that the program tests or clears. -/
structure Dmasr where
  rs : Bool
  rbus : Bool
  ts : Bool
  tbus : Bool
  tus : Bool
  nis : Bool
  ais : Bool

/-- What the DMA writes to a receive descriptor and its buffer. -/
structure RxSeg where
  fs : Bool
  ls : Bool
  fl : BitVec 14
  data : Nat → UInt8

/-- What the DMA reads from a transmit descriptor and its buffer. -/
structure TxSeg where
  fs : Bool
  ls : Bool
  data : List UInt8
  deriving DecidableEq

/-- The DMA engines, with what they have received and sent since they were started. -/
structure Dma where
  rxCur : RxPtr
  rxSuspended : Bool
  arrived : List (List RxSeg)
  arriving : List RxSeg
  txCur : TxPtr
  wire : List TxSeg

/-- What `low_level_input` took from the ring: a frame's first descriptor, how many it gave back,
its length, and the chain it was copied to, if any. -/
structure Taken where
  first : Option RxPtr
  segCount : Nat
  length : UInt32
  pbuf : Option (List Pbuf)

/-- One call of `low_level_output`: the chain, where `heth.TxDesc` stood, the OWN bits that the copy
found, and the result. -/
structure Output where
  chain : List Pbuf
  first : TxPtr
  ownReads : List (TxPtr × Bool)
  errval : ErrT

/-- One `memcpy` of the driver between the buffer of a descriptor and a pbuf of `len` bytes, with the OWN
bits at that time. -/
structure Memcpy (nb : Nat) where
  buffer : Fin nb
  bufferoffset : Nat
  len : Nat
  payloadoffset : Nat
  n : Nat
  own : Fin nb → Bool

/-- One call of `HAL_ETH_ReadPHYRegister` or `HAL_ETH_WritePHYRegister`, with what it returned. -/
inductive PhyAccess
  | read (phyReg : UInt16) (status : HalStatus) (regValue : UInt32)
  | write (phyReg : UInt16) (status : HalStatus) (regValue : UInt32)
  deriving DecidableEq

structure Eth where
  heth : Heth
  dmaRxDscrTab : RxPtr → RxDesc
  dmaTxDscrTab : TxPtr → TxDesc
  rxBuff : RxPtr → Nat → UInt8
  txBuff : TxPtr → Nat → UInt8
  dmasr : Dmasr
  maccr : UInt32
  /-- How often `DMARPDR` and `DMATPDR` were written. -/
  dmarpdr : Nat
  dmatpdr : Nat
  dma : Dma
  xSemaphore : Bool
  fault : Bool
  taken : List Taken
  /-- Segments in the order in which their descriptors were given to the DMA. -/
  handed : List TxSeg
  /-- The OWN bits the copy of the current frame found. -/
  ownReads : List (TxPtr × Bool)
  transmitting : Bool
  accepted : List (List Pbuf)
  outputs : List Output
  /-- The copies to the transmit buffers and from the receive buffers. -/
  copiedOut : List (Memcpy ethTxBufNb)
  copiedIn : List (Memcpy ethRxBufNb)
  phy : List PhyAccess

/-- Memory before the first initialisation: the handle is zero, the rings and buffers are not. -/
def Eth.boot (rxTab : RxPtr → RxDesc) (txTab : TxPtr → TxDesc) (rxBuff : RxPtr → Nat → UInt8)
    (txBuff : TxPtr → Nat → UInt8) : Eth where
  heth :=
    { init := ⟨false, false, false, false, false⟩, lock := false, state := .reset, rxDesc := 0
      txDesc := 0, rxFrameInfos := ⟨none, none, 0, 0, none⟩ }
  dmaRxDscrTab := rxTab
  dmaTxDscrTab := txTab
  rxBuff := rxBuff
  txBuff := txBuff
  dmasr := ⟨false, false, false, false, false, false, false⟩
  maccr := 0x8000
  dmarpdr := 0
  dmatpdr := 0
  dma := ⟨0, false, [], [], 0, []⟩
  xSemaphore := false
  fault := false
  taken := []
  handed := []
  ownReads := []
  transmitting := false
  accepted := []
  outputs := []
  copiedOut := []
  copiedIn := []
  phy := []

namespace Eth

def setLock (b : Bool) (s : Eth) : Eth := { s with heth.lock := b }
def setState (x : HalEthState) (s : Eth) : Eth := { s with heth.state := x }
def rxDesc (s : Eth) : RxDesc := s.dmaRxDscrTab s.heth.rxDesc
def txDesc (s : Eth) : TxDesc := s.dmaTxDscrTab s.heth.txDesc

def updateRxDesc (i : RxPtr) (f : RxDesc → RxDesc) (s : Eth) : Eth :=
  { s with dmaRxDscrTab := Function.update s.dmaRxDscrTab i (f (s.dmaRxDscrTab i)) }

def updateTxDesc (i : TxPtr) (f : TxDesc → TxDesc) (s : Eth) : Eth :=
  { s with dmaTxDscrTab := Function.update s.dmaTxDscrTab i (f (s.dmaTxDscrTab i)) }

def updateCurTxDesc (f : TxDesc → TxDesc) (s : Eth) : Eth := s.updateTxDesc s.heth.txDesc f

def phyReturn (access : PhyAccess) (s : Eth) : Eth := { s with phy := s.phy ++ [access] }

def transmitPollDemand (s : Eth) : Eth := { s with dmatpdr := s.dmatpdr + 1 }

/-- Writing `DMARPDR`: a suspended DMA goes on if it owns the descriptor it must use next. -/
def receivePollDemand (s : Eth) : Eth :=
  { s with
    dmarpdr := s.dmarpdr + 1
    dma.rxSuspended := s.dma.rxSuspended && !(s.dmaRxDscrTab s.dma.rxCur).own }

end Eth

/-- `__HAL_LOCK`: give `HAL_BUSY` if the handle is locked, else lock it and go on. -/
def halLock (body : Code Eth HalStatus) : Code Eth HalStatus := do
  if ← Prog.get fun s => s.heth.lock then pure .busy
  else
    Prog.modify (Eth.setLock true)
    body

def halReturn (state : HalEthState) (status : HalStatus) : Code Eth HalStatus := do
  Prog.modify (Eth.setState state)
  Prog.modify (Eth.setLock false)
  pure status

/-! ## Initialisation and descriptor lists -/

/-- What `HAL_ETH_Init` leaves in the handle; how the PHY answers decides its status. -/
def halEthInit : Code Eth HalStatus := do
  Prog.when ((← Prog.get fun s => s.heth.state) = .reset) do
    Prog.modify (Eth.setLock false)
  let status ← Prog.call Call.halEthInit
  Prog.modify (Eth.setState (if status = .timeout then .timeout else .ready))
  pure status

def txDescListInit (tab : Nat → TxPtr) (txBuffCount : Nat) : Nat → Code Eth Unit
  | 0 => pure ()
  | n + 1 => do
      let i := txBuffCount - (n + 1)
      Prog.modify (Eth.updateTxDesc (tab i) fun d =>
        { d with own := false, fs := false, ls := false, checksumInsertion := false, tch := true })
      Prog.modify (Eth.updateTxDesc (tab i) fun d => { d with buffer1Addr := tab i })
      Prog.when (← Prog.get fun s => s.heth.init.checksumByHardware) do
        Prog.modify (Eth.updateTxDesc (tab i) fun d => { d with checksumInsertion := true })
      let next := if i < txBuffCount - 1 then tab (i + 1) else tab 0
      Prog.modify (Eth.updateTxDesc (tab i) fun d => { d with buffer2NextDescAddr := next })
      txDescListInit tab txBuffCount n

def halEthDmaTxDescListInit (tab : Nat → TxPtr) (txBuffCount : Nat) : Code Eth HalStatus :=
  halLock do
    Prog.modify (Eth.setState .busy)
    Prog.modify fun s => { s with heth.txDesc := tab 0 }
    txDescListInit tab txBuffCount txBuffCount
    -- DMATDLAR
    Prog.modify fun s => { s with dma.txCur := tab 0 }
    halReturn .ready .ok

def rxDescListInit (tab : Nat → RxPtr) (rxBuffCount : Nat) : Nat → Code Eth Unit
  | 0 => pure ()
  | n + 1 => do
      let i := rxBuffCount - (n + 1)
      Prog.modify (Eth.updateRxDesc (tab i) fun d => { d with own := true, fs := false, ls := false, fl := 0 })
      Prog.modify (Eth.updateRxDesc (tab i) fun d => { d with rch := true, dic := false, bufSize := ethRxBufSize })
      Prog.modify (Eth.updateRxDesc (tab i) fun d => { d with buffer1Addr := tab i })
      Prog.when (← Prog.get fun s => s.heth.init.rxInterruptMode) do
        Prog.modify (Eth.updateRxDesc (tab i) fun d => { d with dic := false })
      let next := if i < rxBuffCount - 1 then tab (i + 1) else tab 0
      Prog.modify (Eth.updateRxDesc (tab i) fun d => { d with buffer2NextDescAddr := next })
      rxDescListInit tab rxBuffCount n

def halEthDmaRxDescListInit (tab : Nat → RxPtr) (rxBuffCount : Nat) : Code Eth HalStatus :=
  halLock do
    Prog.modify (Eth.setState .busy)
    Prog.modify fun s => { s with heth.rxDesc := tab 0 }
    rxDescListInit tab rxBuffCount rxBuffCount
    -- DMARDLAR
    Prog.modify fun s => { s with dma.rxCur := tab 0 }
    halReturn .ready .ok

/-! ## Transmission -/

/-- One round of the loop over the descriptors of a frame: give a segment to the DMA. -/
def giveTxDesc : Code Eth Unit := do
  Prog.modify fun s =>
    { s.updateCurTxDesc fun d => { d with own := true } with
      handed := s.handed ++ [⟨s.txDesc.fs, s.txDesc.ls, bytes (s.txBuff s.txDesc.buffer1Addr) s.txDesc.tbs1⟩] }
  Prog.modify fun s => { s with heth.txDesc := s.txDesc.buffer2NextDescAddr }

def transmitSegments (frameLength bufcount : Nat) : Nat → Code Eth Unit
  | 0 => pure ()
  | n + 1 => do
      let i := bufcount - (n + 1)
      Prog.modify (Eth.updateCurTxDesc fun d => { d with fs := false, ls := false })
      Prog.when (i = 0) do
        Prog.modify (Eth.updateCurTxDesc fun d => { d with fs := true })
      Prog.modify (Eth.updateCurTxDesc fun d => { d with tbs1 := ethTxBufSize &&& 0x1FFF })
      Prog.when (i = bufcount - 1) do
        Prog.modify (Eth.updateCurTxDesc fun d => { d with ls := true })
        let size := frameLength - (bufcount - 1) * ethTxBufSize
        Prog.modify (Eth.updateCurTxDesc fun d => { d with tbs1 := size &&& 0x1FFF })
      giveTxDesc
      transmitSegments frameLength bufcount n

/-- The number of transmit buffers that `HAL_ETH_TransmitFrame` computes. -/
def bufcountOf (frameLength : Nat) : Nat :=
  if frameLength > ethTxBufSize then
    frameLength / ethTxBufSize + if frameLength % ethTxBufSize ≠ 0 then 1 else 0
  else 1

def transmitBuffers (frameLength bufcount : Nat) : Code Eth Unit :=
  if bufcount = 1 then do
    Prog.modify (Eth.updateCurTxDesc fun d => { d with fs := true, ls := true })
    Prog.modify (Eth.updateCurTxDesc fun d => { d with tbs1 := frameLength &&& 0x1FFF })
    giveTxDesc
  else transmitSegments frameLength bufcount bufcount

def halEthTransmitFrame (frameLength : Nat) : Code Eth HalStatus :=
  halLock do
    Prog.modify (Eth.setState .busy)
    if frameLength = 0 then halReturn .ready .error
    else if ← Prog.get fun s => s.txDesc.own then halReturn .busyTx .error
    else
      transmitBuffers frameLength (bufcountOf frameLength)
      Prog.when (← Prog.get fun s => s.dmasr.tbus) do
        Prog.modify fun s => { s with dmasr.tbus := false }
        Prog.modify Eth.transmitPollDemand
      halReturn .ready .ok

/-! ## Reception -/

/-- The branch of the scan for the last segment of a frame. -/
def takeLast : Code Eth HalStatus := do
  Prog.modify fun s => { s with heth.rxFrameInfos.lsRxDesc := some s.heth.rxDesc }
  Prog.modify fun s => { s with heth.rxFrameInfos.segCount := s.heth.rxFrameInfos.segCount + 1 }
  Prog.when ((← Prog.get fun s => s.heth.rxFrameInfos.segCount) = 1) do
    Prog.modify fun s => { s with heth.rxFrameInfos.fsRxDesc := some s.heth.rxDesc }
  Prog.modify fun s => { s with heth.rxFrameInfos.length := .ofNat s.rxDesc.fl.toNat - 4 }
  Prog.modify fun s => match s.heth.rxFrameInfos.fsRxDesc with
    | some i => { s with heth.rxFrameInfos.buffer := some (s.dmaRxDscrTab i).buffer1Addr }
    | none => { s with fault := true }
  Prog.modify fun s => { s with heth.rxDesc := s.rxDesc.buffer2NextDescAddr }
  halReturn .ready .ok

/-- The scan of `HAL_ETH_GetReceivedFrame_IT`, with the descriptors it may still look at. -/
def scanDescriptors : Nat → Code Eth HalStatus
  | 0 => do
      let _ ← Prog.get fun s => s.rxDesc.own
      halReturn .ready .error
  | n + 1 => do
      if ← Prog.get fun s => s.rxDesc.own then halReturn .ready .error
      else if ← Prog.get fun s => s.rxDesc.fs && !s.rxDesc.ls then
        Prog.modify fun s => { s with heth.rxFrameInfos.fsRxDesc := some s.heth.rxDesc }
        Prog.modify fun s => { s with heth.rxFrameInfos.segCount := 1 }
        Prog.modify fun s => { s with heth.rxDesc := s.rxDesc.buffer2NextDescAddr }
        scanDescriptors n
      else if ← Prog.get fun s => !s.rxDesc.ls && !s.rxDesc.fs then
        Prog.modify fun s => { s with heth.rxFrameInfos.segCount := s.heth.rxFrameInfos.segCount + 1 }
        Prog.modify fun s => { s with heth.rxDesc := s.rxDesc.buffer2NextDescAddr }
        scanDescriptors n
      else takeLast

def halEthGetReceivedFrameIt : Code Eth HalStatus :=
  halLock do
    Prog.modify (Eth.setState .busy)
    scanDescriptors ethRxBufNb

/-! ## Interrupt -/

def halEthRxCpltCallback : Code Eth Unit := Prog.modify fun s => { s with xSemaphore := true }

def irqUnlock : Code Eth Unit := do
  Prog.modify (Eth.setState .ready)
  Prog.modify (Eth.setLock false)

/-- The first part of the handler: a frame was received, or else one was transmitted. -/
def irqNormal : Code Eth Unit := do
  if ← Prog.get fun s => s.dmasr.rs then
    halEthRxCpltCallback
    Prog.modify fun s => { s with dmasr.rs := false }
    irqUnlock
  else
    Prog.when (← Prog.get fun s => s.dmasr.ts) do
      Prog.modify fun s => { s with dmasr.ts := false }
      irqUnlock

def halEthIrqHandler : Code Eth Unit := do
  irqNormal
  Prog.modify fun s => { s with dmasr.nis := false }
  Prog.when (← Prog.get fun s => s.dmasr.ais) do
    Prog.modify fun s => { s with dmasr.ais := false }
    irqUnlock

/-! ## The PHY, and starting and stopping -/

def phyBcr : UInt16 := 0x00
def phyBsr : UInt16 := 0x01
def phySr : UInt16 := 0x1F
def phyAutonegotiation : UInt32 := 0x1000
def phyAutonegoComplete : UInt32 := 0x0020
def phyLinkedStatus : UInt32 := 0x0004
def phySpeedStatus : UInt32 := 0x0004
def phyDuplexStatus : UInt32 := 0x0010

/-- The status returned, and the value that `*RegValue` is left with. -/
def halEthReadPhyRegister (phyReg : UInt16) (regValue : UInt32) : Code Eth (HalStatus × UInt32) := do
  if (← Prog.get fun s => s.heth.state) = .busyRd then
    Prog.modify (Eth.phyReturn (.read phyReg .busy regValue))
    pure (.busy, regValue)
  else
    Prog.modify (Eth.setState .busyRd)
    match ← Prog.call (Call.macmiidr phyReg) with
    | none =>
        Prog.modify (Eth.setState .ready)
        Prog.modify fun s => (s.setLock false).phyReturn (.read phyReg .timeout regValue)
        pure (.timeout, regValue)
    | some v =>
        Prog.modify fun s => (s.setState .ready).phyReturn (.read phyReg .ok v.toUInt32)
        pure (.ok, v.toUInt32)

def halEthWritePhyRegister (phyReg : UInt16) (regValue : UInt32) : Code Eth HalStatus := do
  if (← Prog.get fun s => s.heth.state) = .busyWr then
    Prog.modify (Eth.phyReturn (.write phyReg .busy regValue))
    pure .busy
  else
    Prog.modify (Eth.setState .busyWr)
    if ← Prog.call (Call.macmiiWrite phyReg regValue) then
      Prog.modify fun s => (s.setState .ready).phyReturn (.write phyReg .ok regValue)
      pure .ok
    else
      Prog.modify (Eth.setState .ready)
      Prog.modify fun s => (s.setLock false).phyReturn (.write phyReg .timeout regValue)
      pure .timeout

/-- The frame of `HAL_ETH_Start`, `HAL_ETH_Stop` and `HAL_ETH_ConfigMAC`; of the registers only `MACCR` is
modelled. -/
def halEthReconfigure (registers : Code Eth Unit) : Code Eth HalStatus :=
  halLock do
    Prog.modify (Eth.setState .busy)
    registers
    halReturn .ready .ok

def updateMaccr (f : UInt32 → UInt32) : Code Eth Unit := do
  Prog.modify fun s => { s with maccr := f s.maccr }
  let tmpreg ← Prog.get fun s => s.maccr
  Prog.modify fun s => { s with maccr := tmpreg }

def maccrTe : UInt32 := 0x00000008
def maccrRe : UInt32 := 0x00000004
def ethSpeed100M : UInt32 := 0x00004000
def ethModeFullDuplex : UInt32 := 0x00000800

def EthInit.speed (init : EthInit) : UInt32 := if init.speed100M then ethSpeed100M else 0
def EthInit.duplexMode (init : EthInit) : UInt32 := if init.fullDuplex then ethModeFullDuplex else 0

def halEthStart : Code Eth HalStatus :=
  halEthReconfigure do
    updateMaccr fun tmpreg => tmpreg ||| maccrTe
    updateMaccr fun tmpreg => tmpreg ||| maccrRe

def halEthStop : Code Eth HalStatus :=
  halEthReconfigure do
    updateMaccr fun tmpreg => tmpreg &&& ~~~maccrRe
    updateMaccr fun tmpreg => tmpreg &&& ~~~maccrTe

/-- `HAL_ETH_ConfigMAC` without a configuration: only speed and duplex mode. -/
def halEthConfigMac : Code Eth HalStatus :=
  halEthReconfigure do
    let init ← Prog.get fun s => s.heth.init
    updateMaccr fun tmpreg => (tmpreg &&& ~~~0x00004800) ||| (init.speed ||| init.duplexMode)

end Oinzen
