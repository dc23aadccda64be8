import Oinzen.Heap.Mem

/-!
# The blocks that the headers describe

`Segment` says that the headers from a place on are those of a list of blocks, each linked with its
neighbours. An operation changes a few headers, and what they describe changes at that place.
-/

namespace Oinzen.MemHeap

open Tiling

variable {h h' : MemHeap} {p q r a mem ptr2 size : Nat} {b c : Block} {bs xs ys : List Block}

structure Header (h : MemHeap) (q p : Nat) (b : Block) : Prop where
  next : h.next p = p + b.size
  prev : h.prev p = q
  used : h.used p = if b.used then 1 else 0

def Segment (h : MemHeap) : Nat → Nat → List Block → Prop
  | _, _, [] => True
  | q, p, b :: bs => Header h q p b ∧ Segment h p (p + b.size) bs

def lastPlace : Nat → Nat → List Block → Nat
  | q, _, [] => q
  | _, p, b :: bs => lastPlace p (p + b.size) bs

def Sized (bs : List Block) : Prop :=
  ∀ b ∈ bs, sizeofStructMem + minSizeAligned ≤ b.size ∧ b.size % memAlignment = 0

/-- The heap is `bs`, from the first header to the end. -/
structure Linked (h : MemHeap) (bs : List Block) : Prop where
  segment : Segment h 0 0 bs
  sized : Sized bs
  whole : extent bs = memSizeAligned
  endUsed : h.used memSizeAligned = 1
  endNext : h.next memSizeAligned = memSizeAligned
  endPrev : h.prev memSizeAligned = memSizeAligned

/-! ## What the operations leave -/

def Same (h h' : MemHeap) (lo hi : Nat) : Prop := ∀ i, lo ≤ i → i < hi → h'.ram i = h.ram i

theorem Same.mono {lo hi lo' hi' : Nat} (s : Same h h' lo hi) (hlo : lo ≤ lo') (hhi : hi' ≤ hi) :
    Same h h' lo' hi' :=
  fun i hi hi' => s i (by omega) (by omega)

theorem Same.trans {h'' : MemHeap} {lo hi : Nat} (s : Same h h' lo hi) (s' : Same h' h'' lo hi) :
    Same h h'' lo hi :=
  fun i hi hi' => (s' i hi hi').trans (s i hi hi')

theorem same_setNext {v lo hi : Nat} (apart : hi ≤ mem ∨ mem + 5 ≤ lo) : Same h (h.setNext mem v) lo hi :=
  fun _ _ _ => setWord_of_apart (by omega)

theorem same_setPrev {v lo hi : Nat} (apart : hi ≤ mem ∨ mem + 5 ≤ lo) : Same h (h.setPrev mem v) lo hi :=
  fun _ _ _ => setWord_of_apart (by omega)

theorem same_setUsed {v : UInt8} {lo hi : Nat} (apart : hi ≤ mem ∨ mem + 5 ≤ lo) :
    Same h (h.setUsed mem v) lo hi :=
  fun _ _ _ => setByte_of_ne v (by omega)

theorem onlyIf_true {f : MemHeap → MemHeap} (c : Bool) (hc : c = true) : h.onlyIf c f = f h := by
  rw [onlyIf, if_pos hc]

theorem onlyIf_false {f : MemHeap → MemHeap} (c : Bool) (hc : c = false) : h.onlyIf c f = h := by
  rw [onlyIf, if_neg (by simp [hc])]

theorem lwipAssert_true : h.lwipAssert true = h := by simp [lwipAssert]

/-! ## Headers -/

theorem Header.same (hd : Header h q p b) (s : Same h h' p (p + 5)) : Header h' q p b where
  next := (word_congr (s p (by omega) (by omega)) (s (p + 1) (by omega) (by omega))).trans hd.next
  prev := (word_congr (s (p + 2) (by omega) (by omega)) (s (p + 3) (by omega) (by omega))).trans hd.prev
  used := (s (p + 4) (by omega) (by omega)).trans hd.used

theorem Sized.tail (sized : Sized (b :: bs)) : Sized bs := fun c hc => sized c (List.mem_cons_of_mem _ hc)

theorem Sized.head (sized : Sized (b :: bs)) : 20 ≤ b.size ∧ b.size % 4 = 0 := sized b List.mem_cons_self

theorem sized_append : Sized (xs ++ ys) ↔ Sized xs ∧ Sized ys := List.forall_mem_append

theorem sized_cons : Sized (b :: bs) ↔ (20 ≤ b.size ∧ b.size % 4 = 0) ∧ Sized bs := by
  simp only [Sized, List.forall_mem_cons]
  rfl

theorem Sized.extent_mod (sized : Sized bs) : extent bs % 4 = 0 := by
  induction bs with
  | nil => rfl
  | cons b bs ih =>
      have := sized.head
      have := ih sized.tail
      simp only [extent]
      omega

theorem Segment.same (seg : Segment h q p bs) (sized : Sized bs) (s : Same h h' p (p + extent bs)) :
    Segment h' q p bs := by
  induction bs generalizing q p with
  | nil => exact seg
  | cons b bs ih =>
      have := sized.head
      simp only [extent] at s
      exact ⟨seg.1.same (s.mono (by omega) (by omega)), ih seg.2 sized.tail (s.mono (by omega) (by omega))⟩

theorem segment_append : Segment h q p (xs ++ ys) ↔
    Segment h q p xs ∧ Segment h (lastPlace q p xs) (p + extent xs) ys := by
  induction xs generalizing q p with
  | nil => simp [Segment, lastPlace, extent]
  | cons x xs ih => simp [Segment, lastPlace, extent, ih, and_assoc, Nat.add_assoc]

theorem lastPlace_concat : lastPlace q p (xs ++ [b]) = p + extent xs := by
  induction xs generalizing q p with
  | nil => rfl
  | cons x xs ih => simp [lastPlace, extent, ih, Nat.add_assoc]

/-! ## One header changes -/

theorem Segment.relink (seg : Segment h q p bs) (sized : Sized bs)
    (fits : p + extent bs = memSizeAligned) (hmem : mem < 65536) :
    Segment (h.relink p mem) mem p bs := by
  cases bs with
  | nil => trivial
  | cons b bs =>
      have hb := sized.head
      simp only [extent] at fits
      have set : h.relink p mem = h.setPrev p mem := onlyIf_true _ (by simpa using by omega)
      rw [set]
      refine ⟨⟨?_, word_setWord_self hmem, ?_⟩, ?_⟩
      · exact (word_setWord_apart (.inr (by omega))).trans seg.1.next
      · exact (setWord_of_apart (.inr (by omega))).trans seg.1.used
      · exact Segment.same seg.2 sized.tail (same_setPrev (.inr (by omega)))

theorem same_relink {lo hi : Nat} (apart : p = memSizeAligned ∨ hi ≤ p ∨ p + 5 ≤ lo) :
    Same h (h.relink p mem) lo hi := by
  by_cases hp : p = memSizeAligned
  · rw [MemHeap.relink, onlyIf_false _ (by simpa using hp)]
    exact fun _ _ _ => rfl
  · rw [MemHeap.relink, onlyIf_true _ (by simpa using hp)]
    exact same_setPrev (apart.resolve_left hp)

theorem ram_onlyIf_setLfree (k : Bool) (v : Nat) : (h.onlyIf k (setLfree v)).ram = h.ram := by
  simp only [onlyIf]
  split <;> rfl

theorem same_absorb {n lo hi : Nat} (apart : hi ≤ p ∨ p + 5 ≤ lo) (between : p + 5 ≤ n)
    (apart' : h.next n = memSizeAligned ∨ hi ≤ h.next n ∨ h.next n + 5 ≤ lo) : Same h (h.absorb p n) lo hi := by
  let h₁ := h.onlyIf (h.lfree == n) (setLfree p)
  have e₁ : h₁.ram = h.ram := ram_onlyIf_setLfree ..
  have next₁ : h₁.next n = h.next n := by rw [MemHeap.next, e₁]; rfl
  have next₂ : (h₁.setNext p (h₁.next n)).next n = h.next n :=
    (word_setWord_apart (.inl (by omega))).trans next₁
  have first : Same h h₁ lo hi := fun i _ _ => by rw [e₁]
  refine (first.trans (same_setNext apart)).trans (same_relink ?_)
  rwa [next₂]

theorem Segment.absorb (seg : Segment h 0 0 (xs ++ b :: c :: ys)) (sized : Sized (xs ++ b :: c :: ys))
    (fits : extent (xs ++ b :: c :: ys) = memSizeAligned) (hp : p = extent xs) :
    Segment (h.absorb p (p + b.size)) 0 0 (xs ++ ⟨b.size + c.size, b.used⟩ :: ys) := by
  obtain ⟨sx, sb, sc, sy⟩ : Sized xs ∧ (20 ≤ b.size ∧ b.size % 4 = 0) ∧ (20 ≤ c.size ∧ c.size % 4 = 0) ∧
      Sized ys := by simpa [sized_append, sized_cons] using sized
  obtain ⟨m, hm⟩ : ∃ m, m = p + b.size + c.size := ⟨_, rfl⟩
  obtain ⟨hx, hb, hc, hy⟩ : Segment h 0 0 xs ∧ Header h (lastPlace 0 0 xs) p b ∧
      Header h p (p + b.size) c ∧ Segment h (p + b.size) m ys := by
    simpa [segment_append, Segment, ← hp, ← hm] using seg
  have fits' : m + extent ys = 1600 := by
    simp only [extent_append, extent, ← hp, memSizeAligned] at fits
    omega
  have nextc : h.next (p + b.size) = m := hc.next.trans hm.symm
  let h₁ := h.onlyIf (h.lfree == p + b.size) (setLfree p)
  have e₁ : h₁.ram = h.ram := ram_onlyIf_setLfree ..
  let h₂ := h₁.setNext p m
  have next₁ : h₁.next (p + b.size) = m := by rw [MemHeap.next, e₁]; exact nextc
  have next₂ : h₂.next (p + b.size) = m := (word_setWord_apart (.inl (by omega))).trans next₁
  have out : h.absorb p (p + b.size) = h₂.relink m p := by
    have : h.absorb p (p + b.size) =
        (h₁.setNext p (h₁.next (p + b.size))).relink ((h₁.setNext p (h₁.next (p + b.size))).next (p + b.size)) p := rfl
    rw [this, next₁, next₂]
  have header : Header h₂ (lastPlace 0 0 xs) p ⟨b.size + c.size, b.used⟩ := by
    refine ⟨(word_setWord_self (by omega)).trans (by simp only [hm]; omega), ?_, ?_⟩
    · refine (word_setWord_apart (.inl (by omega))).trans ?_
      rw [e₁]; exact hb.prev
    · refine (setWord_of_apart (.inr (by omega))).trans ?_
      rw [e₁]; exact hb.used
  have rest : Segment h₂ (p + b.size) m ys := by
    refine hy.same sy fun i hi _ => ?_
    have : h₂.ram i = h₁.ram i := setWord_of_apart (.inr (by omega))
    rw [this, e₁]
  rw [segment_append, ← hp, Nat.zero_add]
  refine ⟨hx.same sx ?_, ?_, ?_⟩
  · rw [Nat.zero_add, ← hp]
    exact same_absorb (.inl le_rfl) (by omega) (.inr (.inl (by omega)))
  · rw [out]
    exact header.same (same_relink (.inr (.inl (by omega))))
  · rw [out, show p + (b.size + c.size) = m by omega]
    exact rest.relink sy fits' (by omega)

/-! ## A block is split -/

theorem same_splitOff {m lo hi : Nat} (apart : hi ≤ p ∨ p + 5 ≤ lo) (apart' : hi ≤ ptr2 ∨ ptr2 + 5 ≤ lo) :
    Same h (h.splitOff p ptr2 m) lo hi :=
  (((same_setUsed apart').trans (same_setNext apart')).trans (same_setPrev apart')).trans (same_setNext apart)

theorem next_splitOff {m : Nat} (hm : m < 65536) (room : p + 5 ≤ ptr2) : (h.splitOff p ptr2 m).next ptr2 = m :=
  ((word_setWord_apart (.inl (by omega))).trans (word_setWord_apart (.inr (by omega)))).trans
    (word_setWord_self hm)

theorem header_splitOff (room : p + 5 ≤ ptr2) (hm : ptr2 + size < 65536) :
    Header (h.splitOff p ptr2 (ptr2 + size)) p ptr2 ⟨size, false⟩ where
  next := next_splitOff hm room
  prev := (word_setWord_apart (.inl (by omega))).trans (word_setWord_self (by omega))
  used := by
    refine (setWord_of_apart (.inr (by omega))).trans ?_
    refine (setWord_of_apart (.inr (by omega))).trans ?_
    exact (setWord_of_apart (.inr (by omega))).trans (setByte_self 0)

theorem Header.splitOff {m : Nat} (hd : Header h q p b) (room : p + 5 ≤ p + size) (hm : p + size < 65536) :
    Header (h.splitOff p (p + size) m) q p ⟨size, b.used⟩ := by
  have before : Same h (((h.setUsed (p + size) 0).setNext (p + size) m).setPrev (p + size) p) p (p + 5) :=
    ((same_setUsed (.inl room)).trans (same_setNext (.inl room))).trans (same_setPrev (.inl room))
  have hd' := hd.same before
  exact ⟨word_setWord_self hm, (word_setWord_apart (.inl (by omega))).trans hd'.prev,
    (setWord_of_apart (.inr (by omega))).trans hd'.used⟩

theorem Header.setUsed (hd : Header h q p b) (u : Bool) :
    Header (h.setUsed p (if u then 1 else 0)) q p ⟨b.size, u⟩ where
  next := (word_setByte_apart _ (.inr (by omega))).trans hd.next
  prev := (word_setByte_apart _ (.inr (by omega))).trans hd.prev
  used := setByte_self _

theorem Segment.assemble {m : Nat} (hx : Segment h 0 0 xs) (hb : Header h (lastPlace 0 0 xs) p b)
    (hc : Header h p ptr2 c) (hy : Segment h q m ys) (sized : Sized (xs ++ b :: c :: ys))
    (hp : p = extent xs) (hptr2 : ptr2 = p + b.size) (hm : m = ptr2 + c.size)
    (fits : m + extent ys = memSizeAligned) : Segment (h.relink m ptr2) 0 0 (xs ++ b :: c :: ys) := by
  obtain ⟨sx, sb, sc, sy⟩ : Sized xs ∧ (20 ≤ b.size ∧ b.size % 4 = 0) ∧ (20 ≤ c.size ∧ c.size % 4 = 0) ∧
      Sized ys := by simpa [sized_append, sized_cons] using sized
  have bound : m + extent ys = 1600 := fits
  have same : Same h (h.relink m ptr2) 0 m := same_relink (.inr (.inl le_rfl))
  rw [segment_append, Nat.zero_add, ← hp]
  refine ⟨hx.same sx (same.mono le_rfl (by omega)), hb.same (same.mono (by omega) (by omega)), ?_, ?_⟩
  · rw [← hptr2]
    exact hc.same (same.mono (by omega) (by omega))
  · rw [← hptr2, ← hm]
    exact hy.relink sy fits (by omega)

end Oinzen.MemHeap
