import Oinzen.Tiling.Blocks

/-!
# The heap of `mem.c`

The heap is the array `ram`; a `struct mem` stands at the start of each block and holds the places of
its neighbours. Places are offsets in `ram`, and so are the pointers of the callers, which may also lie
outside. A failed assertion is reported and the code goes on.
-/

namespace Oinzen

open Tiling

def memAlignment : Nat := 4
def minSizeAligned : Nat := 12
def sizeofStructMem : Nat := 8
def memSizeAligned : Nat := 1600

def lwipMemAlignSize (size : Nat) : Nat := (size + (memAlignment - 1)) / memAlignment * memAlignment

def memSizeT (n : Int) : Nat := (n % 65536).toNat

structure MemHeap where
  ram : Nat → UInt8
  lfree : Nat
  failed : Bool

namespace MemHeap

def next (h : MemHeap) (mem : Nat) : Nat := word h.ram mem
def prev (h : MemHeap) (mem : Nat) : Nat := word h.ram (mem + 2)
def used (h : MemHeap) (mem : Nat) : UInt8 := h.ram (mem + 4)

def setNext (mem v : Nat) (h : MemHeap) : MemHeap := { h with ram := setWord h.ram mem v }
def setPrev (mem v : Nat) (h : MemHeap) : MemHeap := { h with ram := setWord h.ram (mem + 2) v }
def setUsed (mem : Nat) (v : UInt8) (h : MemHeap) : MemHeap := { h with ram := setByte h.ram (mem + 4) v }
def setLfree (mem : Nat) (h : MemHeap) : MemHeap := { h with lfree := mem }

def lwipAssert (c : Bool) (h : MemHeap) : MemHeap := { h with failed := h.failed || !c }

def onlyIf (c : Bool) (f : MemHeap → MemHeap) (h : MemHeap) : MemHeap := if c then f h else h

def memInit (ram : Nat → UInt8) : MemHeap :=
  let h : MemHeap := ⟨ram, 0, false⟩
  let h := h.setNext 0 memSizeAligned |>.setPrev 0 0 |>.setUsed 0 0
  h.setUsed memSizeAligned 1 |>.setNext memSizeAligned memSizeAligned |>.setPrev memSizeAligned memSizeAligned

/-- The back pointer of the block `next`, unless that is the end. -/
def relink (next mem : Nat) : MemHeap → MemHeap := onlyIf (next != memSizeAligned) (setPrev next mem)

/-- The block `mem` takes over the block `nmem`, which follows it. -/
def absorb (mem nmem : Nat) (h : MemHeap) : MemHeap :=
  let h := h.onlyIf (h.lfree == nmem) (setLfree mem)
  let h := h.setNext mem (h.next nmem)
  h.relink (h.next nmem) mem

def plugHoles (mem : Nat) (h : MemHeap) : MemHeap :=
  let h := h.lwipAssert (mem < memSizeAligned) |>.lwipAssert (h.used mem == 0)
    |>.lwipAssert (h.next mem ≤ memSizeAligned)
  let nmem := h.next mem
  let h := h.onlyIf (mem != nmem && h.used nmem == 0 && nmem != memSizeAligned) (absorb mem nmem)
  let pmem := h.prev mem
  h.onlyIf (pmem != mem && h.used pmem == 0) (absorb pmem mem)

def memLinkValid (h : MemHeap) (mem : Nat) : Bool :=
  let nmem := h.next mem
  let pmem := h.prev mem
  !(nmem > memSizeAligned || pmem > memSizeAligned || (pmem != mem && h.next pmem != mem) ||
    (nmem != memSizeAligned && h.prev nmem != mem))

def memFree (rmem : Option Int) (h : MemHeap) : MemHeap :=
  match rmem with
  | none => h
  | some rmem =>
      if rmem % memAlignment ≠ 0 then h.lwipAssert false
      else if rmem - sizeofStructMem < 0 ∨ rmem + minSizeAligned > memSizeAligned then h.lwipAssert false
      else
        let mem := (rmem - sizeofStructMem).toNat
        if h.used mem = 0 then h.lwipAssert false
        else if !h.memLinkValid mem then h.lwipAssert false
        else h.setUsed mem 0 |>.onlyIf (mem < h.lfree) (setLfree mem) |>.plugHoles mem

/-- The size for the allocator; `none` when it cannot be had. -/
def adjustSize (size : UInt16) : Option Nat :=
  let aligned := memSizeT (lwipMemAlignSize size.toNat)
  let newsize := if aligned < minSizeAligned then minSizeAligned else aligned
  if newsize > memSizeAligned ∨ newsize < size.toNat then none else some newsize

/-- A free block `ptr2` that ends at `next` after the block `ptr`. -/
def splitOff (ptr ptr2 next : Nat) (h : MemHeap) : MemHeap :=
  h.setUsed ptr2 0 |>.setNext ptr2 next |>.setPrev ptr2 ptr |>.setNext ptr ptr2

def memTrim (rmem : Int) (newSize : UInt16) (h : MemHeap) : Option Int × MemHeap :=
  match adjustSize newSize with
  | none => (none, h)
  | some newsize =>
      if rmem < 0 ∨ rmem ≥ memSizeAligned then (some rmem, h.lwipAssert false)
      else
        let ptr := memSizeT (rmem - sizeofStructMem)
        let size := memSizeT (memSizeT (h.next ptr - ptr) - sizeofStructMem)
        let h := h.lwipAssert (newsize ≤ size)
        if newsize > size then (none, h)
        else if newsize = size then (some rmem, h)
        else
          let mem2 := h.next ptr
          let ptr2 := memSizeT (ptr + sizeofStructMem + newsize)
          if h.used mem2 = 0 then
            let h := h.lwipAssert (h.next ptr != memSizeAligned)
            let next := h.next mem2
            let h := h.onlyIf (h.lfree == mem2) (setLfree ptr2) |>.splitOff ptr ptr2 next
            (some rmem, h.relink (h.next ptr2) ptr2)
          else if newsize + sizeofStructMem + minSizeAligned ≤ size then
            let h := h.lwipAssert (h.next ptr != memSizeAligned)
            let h := h.onlyIf (ptr2 < h.lfree) (setLfree ptr2) |>.splitOff ptr ptr2 (h.next ptr)
            (some rmem, h.relink (h.next ptr2) ptr2)
          else (some rmem, h)

/-- `mem->next - (ptr + SIZEOF_STRUCT_MEM)`, which is unsigned. -/
def room (h : MemHeap) (ptr : Nat) : Nat := ((h.next ptr - (ptr + sizeofStructMem) : Int) % 4294967296).toNat

/-- The first block with room for `size` bytes; the outer `none` means that the loop goes on. -/
def findFit (h : MemHeap) (size : Nat) : Nat → Nat → Option (Option Nat)
  | 0, _ => none
  | fuel + 1, ptr =>
      if ptr < memSizeAligned - size then
        if h.used ptr = 0 ∧ h.room ptr ≥ size then some (some ptr) else findFit h size fuel (h.next ptr)
      else some none

def carve (ptr size : Nat) (h : MemHeap) : MemHeap :=
  if h.room ptr ≥ size + sizeofStructMem + minSizeAligned then
    let ptr2 := memSizeT (ptr + sizeofStructMem + size)
    let h := h.lwipAssert (ptr2 != memSizeAligned) |>.splitOff ptr ptr2 (h.next ptr) |>.setUsed ptr 1
    h.relink (h.next ptr2) ptr2
  else h.setUsed ptr 1

def skipUsed (h : MemHeap) : Nat → Nat → Option Nat
  | 0, _ => none
  | fuel + 1, cur => if h.used cur ≠ 0 ∧ cur ≠ memSizeAligned then skipUsed h fuel (h.next cur) else some cur

def adjustLfree (mem : Nat) (h : MemHeap) : Option MemHeap :=
  if mem = h.lfree then
    (h.skipUsed memSizeAligned h.lfree).map fun cur =>
      h.setLfree cur |>.lwipAssert (cur == memSizeAligned || h.used cur == 0)
  else some h

def memMalloc (sizeIn : UInt16) (h : MemHeap) : Option (Option Int × MemHeap) :=
  if sizeIn = 0 then some (none, h)
  else
    match adjustSize sizeIn with
    | none => some (none, h)
    | some size =>
        match h.findFit size memSizeAligned h.lfree with
        | none => none
        | some none => some (none, h)
        | some (some mem) =>
            match (h.carve mem size).adjustLfree mem with
            | none => none
            | some h =>
                let h := h.lwipAssert (mem + sizeofStructMem + size ≤ memSizeAligned)
                  |>.lwipAssert ((mem + sizeofStructMem) % memAlignment == 0)
                  |>.lwipAssert (mem % memAlignment == 0)
                some (some (mem + sizeofStructMem), h)

end MemHeap

end Oinzen
