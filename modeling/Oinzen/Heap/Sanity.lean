import Oinzen.Heap.Runs

/-!
# What every run of the heap keeps

The assertions of `mem_sanity` hold in every state that the callers reach, requests fail for want of a
large enough block only, and a heap in which nothing is allocated is whole again.
-/

namespace Oinzen.HeapUse

open Tiling Interference MemHeap

variable {s t : HeapUse} {h : MemHeap} {bs xs ys : List Block} {b c : Block} {fuel : Nat} {l : MemCall}

/-- Call by call the callers see a store of independent objects. -/
theorem run_store (r : system.Run System.unrestricted s) :
    (view s).Pairwise Object.Apart ∧ (∀ o ∈ view s, o.Inside memAlignment sizeofStructMem memSizeAligned) ∧
      ∀ l t, Step s l t →
        (store UInt8 memAlignment sizeofStructMem memSizeAligned).step (view s) (request l) (view t) := by
  have refined : (store UInt8 memAlignment sizeofStructMem memSizeAligned).Run System.unrestricted (view s) := by
    induction r with
    | start hs =>
        obtain ⟨ram, rfl⟩ := hs
        exact .start rfl
    | step r _ step ih =>
        obtain ⟨bs, inv⟩ := run_inv r
        obtain ⟨-, -, seen⟩ := step.refines inv
        exact ih.step trivial seen
  obtain ⟨apart, inside⟩ := store_apart refined
  refine ⟨apart, inside, fun l t step => ?_⟩
  obtain ⟨bs, inv⟩ := run_inv r
  obtain ⟨-, -, seen⟩ := step.refines inv
  exact seen

def heapAfter (h : MemHeap) (size : UInt16) : MemHeap := ((h.memMalloc size).map Prod.snd).getD h

def oneAllocated : HeapUse := ⟨heapAfter (memInit fun _ => 0) 44, [⟨8, 44⟩]⟩

def twoAllocated : HeapUse := ⟨heapAfter oneAllocated.heap 20, [⟨60, 20⟩, ⟨8, 44⟩]⟩

theorem run_oneAllocated : system.Run System.unrestricted oneAllocated :=
  .step (.start ⟨fun _ => 0, rfl⟩) trivial (@Step.granted (memInit fun _ => 0) _ [] 44 8 rfl)

theorem run_store_write :
    (view twoAllocated).Pairwise Object.Apart ∧
      (∀ o ∈ view twoAllocated, o.Inside memAlignment sizeofStructMem memSizeAligned) ∧
        (store UInt8 memAlignment sizeofStructMem memSizeAligned).step (view twoAllocated) (.write 8 3 255)
          (view ⟨{ twoAllocated.heap with ram := setByte twoAllocated.heap.ram 11 255 }, twoAllocated.live⟩) := by
  have second : system.Run System.unrestricted twoAllocated :=
    .step run_oneAllocated trivial (@Step.granted oneAllocated.heap _ [⟨8, 44⟩] 20 60 rfl)
  obtain ⟨apart, inside, seen⟩ := run_store second
  exact ⟨apart, inside, seen _ _ (@Step.written _ [⟨60, 20⟩] ⟨8, 44⟩ [] 3 255 (by decide))⟩

/-- A shrinking `mem_trim` of a live allocation is never refused. -/
theorem run_trims (r : system.Run System.unrestricted s) {a : Alloc} (ha : a ∈ s.live) (size : UInt16)
    (less : size.toNat ≤ a.len) : (s.heap.memTrim a.ptr size).1 = some a.ptr := by
  obtain ⟨h, live⟩ := s
  obtain ⟨as, cs, rfl⟩ := List.append_of_mem ha
  obtain ⟨bs, inv⟩ := run_inv r
  obtain ⟨xs, b, ys, rfl, -, -, -, len, cases⟩ := inv.memTrim_cases size
  have sized : 20 ≤ b.size ∧ b.size % 4 = 0 := inv.sane.linked.sized b (by simp)
  have whole := inv.sane.linked.parts.2.2.2.2.2.2
  have e₀ : memSizeAligned = 1600 := rfl
  have e₁ : sizeofStructMem = 8 := rfl
  obtain ⟨fits, adjusts, fit⟩ := adjustSize_of_le (n := size) (m := b.size - sizeofStructMem)
    (by omega) (by omega) (by omega) (by omega)
  rcases cases with ⟨none, -⟩ | ⟨newsize, adjust, grows, -⟩ | ⟨newsize, h', -, -, e, -⟩
  · rw [none] at adjusts
    cases adjusts
  · rw [adjust] at adjusts
    cases adjusts
    omega
  · rw [e]

/-- `mem_malloc` returns, with NULL only for want of a large enough free block. -/
theorem run_malloc (r : system.Run System.unrestricted s) :
    ∃ bs, Linked s.heap bs ∧ Separated bs ∧ s.heap.lfree = firstFree 0 bs ∧
      ∀ n, ∃ p h', s.heap.memMalloc n = some (p, h') ∧ (p = none ↔ n = 0 ∨ Full bs n) ∧
        (p = none → h' = s.heap) := by
  obtain ⟨bs, inv⟩ := run_inv r
  refine ⟨bs, inv.sane.linked, inv.sane.separated, inv.sane.lfree, fun n => ?_⟩
  rcases memMalloc_spec inv.sane n with ⟨why, e⟩ | ⟨size, xs, b, ys, h', adjust, ne, rfl, free, fit, e, -, -, -⟩
  · exact ⟨none, s.heap, e, ⟨fun _ => why, fun _ => rfl⟩, fun _ => rfl⟩
  · refine ⟨_, h', e, ⟨fun none => (by cases none), fun why => ?_⟩, fun none => (by cases none)⟩
    rcases why with zero | full
    · exact absurd zero ne
    · have := full size adjust b (by simp) free
      omega

theorem run_malloc_whole :
    ∃ bs, Linked oneAllocated.heap bs ∧ Separated bs ∧ oneAllocated.heap.lfree = firstFree 0 bs ∧
      ∀ n, ∃ p h', oneAllocated.heap.memMalloc n = some (p, h') ∧ (p = none ↔ n = 0 ∨ Full bs n) ∧
        (p = none → h' = oneAllocated.heap) :=
  run_malloc run_oneAllocated

/-- When everything is freed the heap is one free block, and the next request starts at its front. -/
theorem run_drained (r : system.Run System.unrestricted s) (none : s.live = []) :
    s.heap.lfree = 0 ∧ s.heap.used 0 = 0 ∧ s.heap.next 0 = memSizeAligned ∧
      ∀ n : UInt16, 0 < n.toNat → n.toNat + sizeofStructMem ≤ memSizeAligned →
        ∃ h', s.heap.memMalloc n = some (some (sizeofStructMem : Int), h') := by
  have e₀ : memSizeAligned = 1600 := rfl
  have e₁ : sizeofStructMem = 8 := rfl
  obtain ⟨bs, inv⟩ := run_inv r
  have empty : taken 0 bs = [] := by
    have perm := inv.owned.perm
    rw [none, List.map_nil] at perm
    exact List.map_eq_nil_iff.mp perm.nil_eq.symm
  have whole := inv.sane.linked.whole
  obtain rfl : bs = [⟨memSizeAligned, false⟩] := by
    rw [← whole]
    exact normal_of_taken_nil inv.sane.separated empty (fun nil => by rw [nil] at whole; cases whole)
  obtain ⟨-, hb, -⟩ := @Linked.parts _ _ [] _ inv.sane.linked
  refine ⟨inv.sane.lfree, hb.used, hb.next.trans (Nat.zero_add _), fun n pos small => ?_⟩
  rcases memMalloc_spec inv.sane n with ⟨why, -⟩ | ⟨size, xs, b, ys, h', -, -, split, -, -, e, -, -, -⟩
  · exfalso
    obtain ⟨size, adjust, fit⟩ := adjustSize_of_le (n := n) (m := memSizeAligned - sizeofStructMem) (by omega)
      (by omega) (by omega) (by omega)
    rcases why with rfl | full
    · exact absurd pos (by decide)
    · have := full size adjust _ List.mem_cons_self rfl
      dsimp only at this
      omega
  · have front : xs = [] := by
      cases xs with
      | nil => rfl
      | cons x xs => simp at split
    subst front
    exact ⟨h', e⟩

def drained : HeapUse := ⟨oneAllocated.heap.memFree (some 8), []⟩

theorem run_drained_free : drained.heap.lfree = 0 ∧ drained.heap.used 0 = 0 ∧ drained.heap.next 0 = memSizeAligned ∧
    ∃ h', drained.heap.memMalloc 1592 = some (some 8, h') := by
  have freed : system.Run System.unrestricted drained :=
    .step run_oneAllocated trivial (@Step.freed _ [] ⟨8, 44⟩ [])
  obtain ⟨lfree, used, next, room⟩ := run_drained freed rfl
  exact ⟨lfree, used, next, room 1592 (by decide) (by decide)⟩

end Oinzen.HeapUse
