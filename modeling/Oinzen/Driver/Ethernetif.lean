import Oinzen.Hal.Eth

/-!
# The Ethernet driver

`ethernetif.c`: the frame copies to and from the DMA's buffers, the receive thread and the link
callback.
-/

namespace Oinzen

open Interference

/-! ## Output -/

/-- What `low_level_output` keeps in its local variables between two pbufs. -/
structure CopyOut where
  dmaTxDesc : TxPtr
  buffer : TxPtr
  bufferoffset : Nat
  framelength : Nat

/-- Whether the CPU may write to a transmit descriptor's buffer. -/
def isBufferAvailable (i : TxPtr) : Code Eth Bool := do
  let own ← Prog.get fun s => (s.dmaTxDscrTab i).own
  Prog.modify fun s => { s with ownReads := s.ownReads ++ [(i, own)] }
  pure !own

def copyToBuffer (q : Pbuf) (c : CopyOut) (payloadoffset n : Nat) : Code Eth Unit :=
  Prog.modify fun s =>
    { s with
      txBuff := Function.update s.txBuff c.buffer
        (memcpy (s.txBuff c.buffer) c.bufferoffset q.payload payloadoffset n)
      copiedOut := s.copiedOut ++
        [⟨c.buffer, c.bufferoffset, q.len, payloadoffset, n, fun i => (s.dmaTxDscrTab i).own⟩] }

/-- The loop over the buffers that one pbuf fills; `none` when it meets one that is not free. -/
def copyPbuf (q : Pbuf) (c : CopyOut) (payloadoffset byteslefttocopy : Nat) :
    Code Eth (Option CopyOut) :=
  if _h : byteslefttocopy + c.bufferoffset > ethTxBufSize then do
    let room := ethTxBufSize - c.bufferoffset
    copyToBuffer q c payloadoffset room
    let next ← Prog.get fun s => (s.dmaTxDscrTab c.dmaTxDesc).buffer2NextDescAddr
    if ← isBufferAvailable next then
      let buffer ← Prog.get fun s => (s.dmaTxDscrTab next).buffer1Addr
      copyPbuf q ⟨next, buffer, 0, c.framelength + room⟩ (payloadoffset + room) (byteslefttocopy - room)
    else pure none
  else do
    copyToBuffer q c payloadoffset byteslefttocopy
    pure (some { c with
      bufferoffset := c.bufferoffset + byteslefttocopy
      framelength := c.framelength + byteslefttocopy })
termination_by byteslefttocopy + c.bufferoffset
decreasing_by
  have := ethTxBufSize_pos
  omega

def copyChain : List Pbuf → CopyOut → Code Eth (Option CopyOut)
  | [], c => pure (some c)
  | q :: rest, c => do
      if ← isBufferAvailable c.dmaTxDesc then
        match ← copyPbuf q c 0 q.len with
        | none => pure none
        | some c => copyChain rest c
      else pure none

/-- Hand the copied frame over, unless the copy was stopped. -/
def transmitCopied (p : List Pbuf) : Option CopyOut → Code Eth ErrT
  | none => pure .use
  | some c => do
      Prog.modify fun s => { s with transmitting := true }
      let _ ← halEthTransmitFrame c.framelength
      Prog.modify fun s => { s with transmitting := false, accepted := s.accepted ++ [p] }
      pure .ok

def lowLevelOutput (p : List Pbuf) : Code Eth ErrT := do
  Prog.modify fun s => { s with ownReads := [] }
  let buffer ← Prog.get fun s => s.txDesc.buffer1Addr
  let dmaTxDesc ← Prog.get fun s => s.heth.txDesc
  let copied ← copyChain p ⟨dmaTxDesc, buffer, 0, 0⟩
  let errval ← transmitCopied p copied
  Prog.when (← Prog.get fun s => s.dmasr.tus) do
    Prog.modify fun s => { s with dmasr.tus := false }
    Prog.modify Eth.transmitPollDemand
  pure errval

/-! ## Input -/

/-- What `low_level_input` keeps in its local variables between two pbufs. -/
structure CopyIn where
  dmarxdesc : RxPtr
  buffer : RxPtr
  bufferoffset : Nat

def copyFromBuffer (q : Pbuf) (c : CopyIn) (payloadoffset n : Nat) : Code Eth Pbuf :=
  Prog.act
    (fun s =>
      { s with
        copiedIn := s.copiedIn ++
          [⟨c.buffer, c.bufferoffset, q.len, payloadoffset, n, fun i => (s.dmaRxDscrTab i).own⟩] })
    fun s => Prog.ret { q with payload := memcpy q.payload payloadoffset (s.rxBuff c.buffer) c.bufferoffset n }

/-- The loop over the buffers that one pbuf is filled from. -/
def fillPbuf (q : Pbuf) (c : CopyIn) (payloadoffset byteslefttocopy : Nat) :
    Code Eth (Pbuf × CopyIn) :=
  if _h : byteslefttocopy + c.bufferoffset > ethRxBufSize then do
    let room := ethRxBufSize - c.bufferoffset
    let q ← copyFromBuffer q c payloadoffset room
    let next ← Prog.get fun s => (s.dmaRxDscrTab c.dmarxdesc).buffer2NextDescAddr
    let buffer ← Prog.get fun s => (s.dmaRxDscrTab next).buffer1Addr
    fillPbuf q ⟨next, buffer, 0⟩ (payloadoffset + room) (byteslefttocopy - room)
  else do
    let q ← copyFromBuffer q c payloadoffset byteslefttocopy
    pure (q, { c with bufferoffset := c.bufferoffset + byteslefttocopy })
termination_by byteslefttocopy + c.bufferoffset
decreasing_by
  have := ethRxBufSize_pos
  omega

def fillChain : List Pbuf → CopyIn → Code Eth (List Pbuf)
  | [], _ => pure []
  | q :: rest, c => do
      let (q, c) ← fillPbuf q c 0 q.len
      pure (q :: (← fillChain rest c))

/-- `SegCount` rounds of giving descriptors back to the DMA. -/
def releaseDescriptors : Nat → Option RxPtr → Code Eth Unit
  | 0, _ => pure ()
  | _ + 1, none => Prog.modify fun s => { s with fault := true }
  | n + 1, some i => do
      Prog.modify (Eth.updateRxDesc i fun d => { d with own := true })
      let next ← Prog.get fun s => (s.dmaRxDscrTab i).buffer2NextDescAddr
      releaseDescriptors n (some next)

/-- Copy the frame of `RxFrameInfos` to a new chain, if there is room for one. -/
def receiveFrame : Code Eth (Option (List Pbuf)) := do
  let len ← Prog.get fun s => s.heth.rxFrameInfos.length.toUInt16
  let buffer ← Prog.get fun s => s.heth.rxFrameInfos.buffer
  if len = 0 then pure none
  else
    match ← Prog.call (Call.pbufAlloc len) with
    | none => pure none
    | some chain => do
        match ← Prog.get fun s => s.heth.rxFrameInfos.fsRxDesc, buffer with
        | some dmarxdesc, some buffer => do pure (some (← fillChain chain.val ⟨dmarxdesc, buffer, 0⟩))
        | _, _ => do
            Prog.modify fun s => { s with fault := true }
            pure (some chain.val)

def lowLevelInput : Code Eth (Option (List Pbuf)) := do
  if (← halEthGetReceivedFrameIt) ≠ .ok then pure none
  else
    let p ← receiveFrame
    let dmarxdesc ← Prog.get fun s => s.heth.rxFrameInfos.fsRxDesc
    let segCount ← Prog.get fun s => s.heth.rxFrameInfos.segCount
    releaseDescriptors segCount dmarxdesc
    Prog.modify fun s =>
      { s with
        heth.rxFrameInfos.segCount := 0
        taken := s.taken ++ [⟨dmarxdesc, segCount, s.heth.rxFrameInfos.length, p⟩] }
    Prog.when (← Prog.get fun s => s.dmasr.rbus) do
      Prog.modify fun s => { s with dmasr.rbus := false }
      Prog.modify Eth.receivePollDemand
    pure p

/-! ## The receive thread -/

/-- Where the receive thread stands between two rounds of its inner loop. -/
inductive RxPoint
  | wait
  | top
  deriving DecidableEq

def deliver : Option (List Pbuf) → Code Eth Unit
  | none => pure ()
  | some chain => do
      Prog.when ((← Prog.call (Call.netifInput chain)) ≠ .ok) do
        Prog.call Call.pbufFree

/-- One round of the inner loop of `ethernetif_input`; it is repeated while it returns a frame. -/
def ethernetifInputRound : Code Eth (Option (List Pbuf)) := do
  Prog.call Call.lockTcpipCore
  let p ← lowLevelInput
  deliver p
  Prog.call Call.unlockTcpipCore
  pure p

def ethernetifInput : RxPoint → Code Eth RxPoint
  | .wait => pure .top
  | .top => do pure (if (← ethernetifInputRound).isSome then .top else .wait)

/-- Leaving a control point: the wait is over when it has taken the token. -/
def osSemaphoreWait : RxPoint → Eth → Option Eth
  | .wait, s => if s.xSemaphore then some { s with xSemaphore := false } else none
  | .top, s => some s

/-! ## Initialisation and link callback -/

def osSemaphoreCreate : Code Eth Unit := Prog.modify fun s => { s with xSemaphore := true }

/-- What `low_level_init` does to the hardware; it gives the status of `HAL_ETH_Init`. -/
def lowLevelInitEth : Code Eth HalStatus := do
  Prog.modify fun s =>
    { s with
      heth.init.autoNegotiation := true, heth.init.rxInterruptMode := true
      heth.init.checksumByHardware := true }
  let halEthInitStatus ← halEthInit
  let _ ← halEthDmaTxDescListInit (Fin.ofNat ethTxBufNb) ethTxBufNb
  let _ ← halEthDmaRxDescListInit (Fin.ofNat ethRxBufNb) ethRxBufNb
  osSemaphoreCreate
  let _ ← halEthStart
  pure halEthInitStatus

/-- Reading the status until it says the auto-negotiation is over; `false` after a second. -/
def waitAutonegotiation (tickstart : UInt32) : List UInt32 → UInt32 → Code Eth (Bool × UInt32)
  | [], regvalue => pure (false, regvalue)
  | tick :: ticks, regvalue => do
      let (_, regvalue) ← halEthReadPhyRegister phyBsr regvalue
      if tick - tickstart > 1000 then pure (false, regvalue)
      else if regvalue &&& phyAutonegoComplete = phyAutonegoComplete then pure (true, regvalue)
      else waitAutonegotiation tickstart ticks regvalue

/-- The value written to `PHY_BCR` when the mode is fixed by hand. -/
def fixedMode (init : EthInit) : UInt32 :=
  (if init.fullDuplex then (0x800 : UInt32) >>> 3 else 0) |||
    (if init.speed100M then (0x4000 : UInt32) >>> 1 else 0)

/-- Negotiate with the PHY; `false` when the mode has to be fixed by hand. -/
def autonegotiate : Code Eth Bool := do
  let _ ← halEthWritePhyRegister phyBcr phyAutonegotiation
  let tickstart ← Prog.call Call.halGetTick
  let ticks ← Prog.call (Call.halGetTicks tickstart)
  let (done, regvalue) ← waitAutonegotiation tickstart ticks.val 0
  Prog.when done do
    let (_, regvalue) ← halEthReadPhyRegister phySr regvalue
    Prog.modify fun s => { s with heth.init.fullDuplex := decide (regvalue &&& phyDuplexStatus ≠ 0) }
    Prog.modify fun s => { s with heth.init.speed100M := decide (regvalue &&& phySpeedStatus = 0) }
  pure done

/-- `ethernetif_update_config`, called with whether the link is up. -/
def ethernetifUpdateConfig (linkUp : Bool) : Code Eth Unit := do
  let _ ← halEthStop
  Prog.when linkUp do
    let negotiated ←
      if ← Prog.get fun s => s.heth.init.autoNegotiation then autonegotiate else pure false
    Prog.when (!negotiated) do
      let init ← Prog.get fun s => s.heth.init
      let _ ← halEthWritePhyRegister phyBcr (fixedMode init)
    let _ ← halEthConfigMac
    let _ ← halEthStart

def ethernetifPhyLinkStatusBit : Code Eth UInt32 := do
  let (_, regvalue) ← halEthReadPhyRegister phyBsr 0
  pure (regvalue &&& phyLinkedStatus)

end Oinzen
