import Oinzen.Heap.Mem
import Mathlib.Logic.Function.Basic

/-!
# Pbufs in memory

`pbuf.c`, the part that allocates pbufs, counts the references to them, and links and cuts chains. The
answers of `memp_malloc`, `mem_malloc` and `mem_trim` are arguments; an assertion that fails is kept in `failed`.
A function gives `none` when a loop does not end in so many passes, or when it writes through `NULL`.
-/

namespace Oinzen

def sizeofStructPbuf : Nat := 16
def pbufPoolBufsizeAligned : Nat := 592

inductive PbufType
  | ram | rom | ref | pool
  deriving DecidableEq, Repr

inductive PbufLayer
  | transport | ip | link | rawTx | raw
  deriving DecidableEq, Repr

def PbufLayer.offset : PbufLayer → Nat
  | transport => 54
  | ip => 34
  | link => 14
  | rawTx | raw => 0

def PbufType.contiguous : PbufType → Bool
  | ram | pool => true
  | rom | ref => false

structure PbufNode where
  next : Option Nat
  payload : Int
  totLen : UInt16
  len : UInt16
  type : PbufType
  isCustom : Bool
  ref : UInt8

/-- A pbuf comes from the heap, a pool or the owner of a custom pbuf, or goes back there. -/
inductive Traffic
  | taken (p : Nat)
  | released (p : Nat)

structure PbufMem where
  node : Nat → PbufNode
  /-- The bytes that the heap was last asked for, for a pbuf. -/
  heap : Nat → Nat
  traffic : List Traffic
  failed : Bool

namespace PbufMem

def next (m : PbufMem) (p : Nat) : Option Nat := (m.node p).next

def lwipAssert (c : Bool) (m : PbufMem) : PbufMem := { m with failed := m.failed || !c }

def update (p : Nat) (f : PbufNode → PbufNode) (m : PbufMem) : PbufMem :=
  { m with node := Function.update m.node p (f (m.node p)) }

def setNext (p : Nat) (q : Option Nat) : PbufMem → PbufMem := update p fun n => { n with next := q }
def setTotLen (p : Nat) (totLen : UInt16) : PbufMem → PbufMem := update p fun n => { n with totLen := totLen }
def setLen (p : Nat) (len : UInt16) : PbufMem → PbufMem := update p fun n => { n with len := len }
def setRef (p : Nat) (ref : UInt8) : PbufMem → PbufMem := update p fun n => { n with ref := ref }

def pbufInitAllocedPbuf (p : Nat) (payload : Int) (totLen len : UInt16) (type : PbufType) (isCustom : Bool)
    (m : PbufMem) : PbufMem :=
  { m.update p fun _ => ⟨none, payload, totLen, len, type, isCustom, 1⟩ with traffic := m.traffic ++ [.taken p] }

/-! ## References -/

def pbufRef (p : Nat) (m : PbufMem) : PbufMem :=
  let m := m.setRef p ((m.node p).ref + 1)
  m.lwipAssert ((m.node p).ref > 0)

/-- A pass of the loop of `pbuf_free`, and whether the pbuf is gone. -/
def freePass (p : Nat) (m : PbufMem) : Bool × PbufMem :=
  let m := m.lwipAssert ((m.node p).ref > 0)
  let m := m.setRef p ((m.node p).ref - 1)
  if (m.node p).ref = 0 then (true, { m with traffic := m.traffic ++ [.released p] }) else (false, m)

/-- The loop of `pbuf_free`, with the count of pbufs that are gone. -/
def freeLoop : Nat → Option Nat → UInt8 → PbufMem → Option (UInt8 × PbufMem)
  | _, none, count, m => some (count, m)
  | fuel + 1, some p, count, m =>
      match freePass p m with
      | (true, m') => freeLoop fuel (m'.next p) (count + 1) m'
      | (false, m') => some (count, m')
  | 0, some _, _, _ => none

def pbufFree (fuel : Nat) (p : Option Nat) (m : PbufMem) : Option (UInt8 × PbufMem) :=
  match p with
  | none => some (0, m.lwipAssert false)
  | some p => freeLoop fuel (some p) 0 m

/-! ## Allocation -/

def pbufAllocReference (payload : Int) (length : UInt16) (type : PbufType) (m : PbufMem) (gets : List (Option Nat)) :
    Option (Option Nat × PbufMem) :=
  let m := m.lwipAssert (type = .ref || type = .rom)
  match gets with
  | [] => none
  | none :: _ => some (none, m)
  | some p :: _ => some (some p, m.pbufInitAllocedPbuf p payload length length type false)

/-- How much of the data the next pbuf of the pool takes. -/
def poolLen (remLen : UInt16) (offset : Nat) : UInt16 :=
  let room : UInt16 := .ofNat (pbufPoolBufsizeAligned - lwipMemAlignSize offset)
  if remLen < room then remLen else room

def poolAppend (last : Option Nat) (q : Nat) (remLen : UInt16) (offset : Nat) (m : PbufMem) : PbufMem :=
  let m := m.pbufInitAllocedPbuf q (lwipMemAlignSize (q + sizeofStructPbuf + offset)) remLen (poolLen remLen offset) .pool
    false
  match last with
  | some last => m.setNext last (some q)
  | none => m

def poolFails (fuel : Nat) (p : Option Nat) (m : PbufMem) : Option (Option Nat × PbufMem) :=
  match p with
  | some p => (pbufFree fuel (some p) m).map fun r => (none, r.2)
  | none => some (none, m)

def poolLoop (fuel : Nat) (p last : Option Nat) (remLen : UInt16) (offset : Nat) (m : PbufMem) :
    List (Option Nat) → Option (Option Nat × PbufMem)
  | [] => none
  | none :: _ => poolFails fuel p m
  | some q :: gets =>
      let rest := remLen - poolLen remLen offset
      let m := poolAppend last q remLen offset m
      let p := some (p.getD q)
      if rest > 0 then poolLoop fuel p (some q) rest 0 m gets else some (p, m)

def allocRam (offset : Nat) (length : UInt16) (m : PbufMem) (gets : List (Option Nat)) :
    Option (Option Nat × PbufMem) :=
  let payloadLen := memSizeT (lwipMemAlignSize offset + lwipMemAlignSize length.toNat)
  let allocLen := memSizeT (lwipMemAlignSize sizeofStructPbuf + payloadLen)
  if payloadLen < lwipMemAlignSize length.toNat || allocLen < lwipMemAlignSize length.toNat then some (none, m)
  else match gets with
    | [] => none
    | none :: _ => some (none, m)
    | some p :: _ =>
        let m := { m with heap := Function.update m.heap p allocLen }
        some (some p, m.pbufInitAllocedPbuf p (lwipMemAlignSize (p + sizeofStructPbuf + offset)) length length .ram false)

def pbufAlloc (fuel : Nat) (layer : PbufLayer) (length : UInt16) (type : PbufType) (gets : List (Option Nat))
    (m : PbufMem) : Option (Option Nat × PbufMem) :=
  match type with
  | .ref | .rom => pbufAllocReference 0 length type m gets
  | .pool => poolLoop fuel none none length layer.offset m gets
  | .ram => allocRam layer.offset length m gets

def pbufAllocedCustom (l : PbufLayer) (length : UInt16) (type : PbufType) (p : Nat) (payloadMem : Option Int)
    (payloadMemLen : UInt16) (m : PbufMem) : Option Nat × PbufMem :=
  if lwipMemAlignSize l.offset + length.toNat > payloadMemLen.toNat then (none, m)
  else
    let payload := match payloadMem with
      | some payloadMem => payloadMem + lwipMemAlignSize l.offset
      | none => 0
    (some p, m.pbufInitAllocedPbuf p payload length length type true)

/-! ## Chains -/

def catLoop (t : Nat) : Nat → Nat → PbufMem → Option (Nat × PbufMem)
  | fuel + 1, p, m =>
      match m.next p with
      | none => some (p, m)
      | some q => catLoop t fuel q (m.setTotLen p ((m.node p).totLen + (m.node t).totLen))
  | 0, _, _ => none

def pbufCat (fuel h t : Nat) (m : PbufMem) : Option PbufMem := do
  let (p, m) ← catLoop t fuel h m
  let m := m.lwipAssert ((m.node p).totLen = (m.node p).len)
  let m := m.lwipAssert (m.next p).isNone
  let m := m.setTotLen p ((m.node p).totLen + (m.node t).totLen)
  pure (m.setNext p (some t))

def pbufChain (fuel h t : Nat) (m : PbufMem) : Option PbufMem := (pbufCat fuel h t m).map (pbufRef t)

/-- `pbuf_dechain` up to its call of `pbuf_free`: the rest of the chain, if there is one. -/
def dechainCut (p : Nat) (m : PbufMem) : Option Nat × PbufMem :=
  match m.next p with
  | none => (none, m)
  | some q =>
      let m := m.lwipAssert (((m.node q).totLen.toNat : Int) = (m.node p).totLen.toNat - (m.node p).len.toNat)
      let m := m.setTotLen q ((m.node p).totLen - (m.node p).len)
      let m := m.setNext p none
      (some q, m.setTotLen p (m.node p).len)

def pbufDechain (fuel p : Nat) (m : PbufMem) : Option (Option Nat × PbufMem) :=
  match dechainCut p m with
  | (none, m) => some (none, m.lwipAssert ((m.node p).totLen = (m.node p).len))
  | (some q, m) => do
      let (tailGone, m) ← freeLoop fuel (some q) 0 m
      pure (if tailGone > 0 then none else some q, m.lwipAssert ((m.node p).totLen = (m.node p).len))

/-- The loop of `pbuf_realloc`: the pbuf that becomes the last one, with the bytes it keeps. -/
def reallocLoop (shrink : UInt16) : Nat → Nat → UInt16 → PbufMem → Option (Nat × UInt16 × PbufMem)
  | fuel + 1, q, remLen, m =>
      if remLen > (m.node q).len then
        let m' := m.setTotLen q ((m.node q).totLen - shrink)
        match m.next q with
        | some q' => reallocLoop shrink fuel q' (remLen - (m.node q).len) m'
        | none => none
      else some (q, remLen, m)
  | 0, _, _, _ => none

/-- A pbuf of the heap is trimmed to the bytes that it keeps; `trim` is what `mem_trim` returns. -/
def trimHeap (trim : Nat → Nat → Option Nat) (q : Nat) (remLen : UInt16) (m : PbufMem) : Option Nat × PbufMem :=
  let n := m.node q
  if n.type = .ram ∧ remLen ≠ n.len ∧ n.isCustom = false then
    let size := memSizeT (n.payload - q + remLen.toNat)
    (trim q size, { m with heap := Function.update m.heap q size }.lwipAssert (trim q size).isSome)
  else (some q, m)

/-- `pbuf_realloc` up to its call of `pbuf_free`, for which the link is cut here before. -/
def reallocCut (trim : Nat → Nat → Option Nat) (fuel p : Nat) (newLen : UInt16) (m : PbufMem) :
    Option (Option Nat × PbufMem) :=
  if newLen ≥ (m.node p).totLen then some (none, m)
  else do
    let (q, remLen, m) ← reallocLoop ((m.node p).totLen - newLen) fuel p newLen m
    match trimHeap trim q remLen m with
    | (none, _) => none
    | (some q, m) =>
        let m := m.setLen q remLen
        let m := m.setTotLen q (m.node q).len
        pure (m.next q, m.setNext q none)

def pbufAddHeaderImpl (p headerSizeIncrement : Nat) (force : Bool) (m : PbufMem) : Bool × PbufMem :=
  let n := m.node p
  let incrementMagnitude : UInt16 := .ofNat headerSizeIncrement
  if headerSizeIncrement > 0xFFFF then (true, m)
  else if headerSizeIncrement = 0 then (false, m)
  else if incrementMagnitude + n.totLen < incrementMagnitude then (true, m)
  else if n.type.contiguous && decide (n.payload - headerSizeIncrement < p + sizeofStructPbuf) then (true, m)
  else if !n.type.contiguous && !force then (true, m)
  else
    (false, m.update p fun n =>
      { n with
        payload := n.payload - headerSizeIncrement
        len := n.len + incrementMagnitude
        totLen := n.totLen + incrementMagnitude })

def pbufRemoveHeader (p headerSizeDecrement : Nat) (m : PbufMem) : Bool × PbufMem :=
  let incrementMagnitude : UInt16 := .ofNat headerSizeDecrement
  if headerSizeDecrement > 0xFFFF then (true, m)
  else if headerSizeDecrement = 0 then (false, m)
  else if incrementMagnitude > (m.node p).len then (true, m)
  else
    (false, m.update p fun n =>
      { n with
        payload := n.payload + headerSizeDecrement
        len := n.len - incrementMagnitude
        totLen := n.totLen - incrementMagnitude })

/-- A pass of the loop of `pbuf_free_header` that frees a pbuf: what follows it. -/
def popHeader (fuel f : Nat) (m : PbufMem) : Option (Option Nat × PbufMem) :=
  (freeLoop fuel (some f) 0 (m.setNext f none)).map fun r => (m.next f, r.2)

def pbufFreeHeader (fuel : Nat) : Nat → Option Nat → UInt16 → PbufMem → Option (Option Nat × PbufMem)
  | _, none, _, m => some (none, m)
  | n + 1, some p, freeLeft, m =>
      if freeLeft = 0 then some (some p, m)
      else if freeLeft ≥ (m.node p).len then do
        let (q, m') ← popHeader fuel p m
        pbufFreeHeader fuel n q (freeLeft - (m.node p).len) m'
      else some (some p, (pbufRemoveHeader p freeLeft.toNat m).2)
  | 0, some _, _, _ => none

end PbufMem

end Oinzen
