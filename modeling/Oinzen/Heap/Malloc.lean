import Oinzen.Heap.Linked

/-!
# `mem_malloc`

First fit over the blocks. A block with room for another one is split, else it is taken whole.
-/

namespace Oinzen.MemHeap

open Tiling

variable {h h' : MemHeap} {p q r mem ptr2 size fuel : Nat} {b c : Block} {bs xs ys : List Block}

structure Sane (h : MemHeap) (bs : List Block) : Prop where
  linked : Linked h bs
  separated : Separated bs
  lfree : h.lfree = firstFree 0 bs

def Keeps (h h' : MemHeap) (bs : List Block) : Prop :=
  ∀ r c, (r, c) ∈ taken 0 bs → Same h h' (r + sizeofStructMem) (r + c.size)

theorem mem_taken {s : Nat} : (r, c) ∈ taken s bs ↔ (r, c) ∈ places s bs ∧ c.used = true := by
  simp [taken]

theorem data_apart (sized : Sized (xs ++ ys)) (fits : extent (xs ++ ys) = memSizeAligned)
    (hc : (r, c) ∈ taken 0 (xs ++ ys)) :
    extent xs = memSizeAligned ∨ r + c.size ≤ extent xs ∨ extent xs + 5 ≤ r + sizeofStructMem := by
  cases ys with
  | nil => exact .inl (by simpa using fits)
  | cons b ys =>
      have place : (extent xs, b) ∈ places 0 (xs ++ b :: ys) := mem_places.mpr ⟨xs, ys, rfl, by simp⟩
      have hb := sized b (by simp)
      simp only [sizeofStructMem, minSizeAligned] at hb ⊢
      by_cases e : (r, c) = (extent xs, b)
      · cases e
        exact .inr (.inr (by omega))
      · have := places_apart (mem_taken.mp hc).1 place e
        omega

theorem Sized.length_le (sized : Sized bs) : 20 * bs.length ≤ extent bs := by
  induction bs with
  | nil => simp
  | cons b bs ih =>
      have := sized.head
      have := ih sized.tail
      simp only [List.length_cons, extent]
      omega

theorem Header.used_eq_zero (hd : Header h q p b) : h.used p = 0 ↔ b.used = false := by
  rw [hd.used]
  cases b.used <;> decide

theorem Header.room (hd : Header h q p b) (sized : 20 ≤ b.size) (fits : p + b.size ≤ memSizeAligned) :
    h.room p = b.size - sizeofStructMem := by
  have : (h.next p : Int) = p + b.size := by exact_mod_cast hd.next
  simp only [MemHeap.room, this, sizeofStructMem, memSizeAligned] at fits ⊢
  omega

/-! ## The loops -/

theorem findFit_spec (seg : Segment h q p bs) (sized : Sized bs) (fits : p + extent bs = memSizeAligned)
    (hsize : size ≤ memSizeAligned) (enough : bs.length < fuel) :
    (∃ xs b ys, bs = xs ++ b :: ys ∧ b.used = false ∧ size + sizeofStructMem ≤ b.size ∧
        h.findFit size fuel p = some (some (p + extent xs))) ∨
      (∀ b ∈ bs, b.used = false → b.size < size + sizeofStructMem) ∧ h.findFit size fuel p = some none := by
  induction bs generalizing q p fuel with
  | nil =>
      obtain ⟨fuel, rfl⟩ : ∃ f, fuel = f + 1 := ⟨fuel - 1, by simp at enough; omega⟩
      refine .inr ⟨by simp, ?_⟩
      simp only [extent] at fits
      rw [findFit, if_neg (by omega)]
  | cons b bs ih =>
      obtain ⟨fuel, rfl⟩ : ∃ f, fuel = f + 1 := ⟨fuel - 1, by omega⟩
      have hb := sized.head
      simp only [extent] at fits
      have room : h.room p = b.size - sizeofStructMem := seg.1.room hb.1 (by omega)
      simp only [sizeofStructMem] at room ⊢
      rw [findFit]
      by_cases hin : p < memSizeAligned - size
      · rw [if_pos hin]
        by_cases hfit : h.used p = 0 ∧ h.room p ≥ size
        · rw [if_pos hfit]
          exact .inl ⟨[], b, bs, rfl, seg.1.used_eq_zero.mp hfit.1, by omega, rfl⟩
        · have small : b.used = false → b.size < size + 8 := by
            intro free
            have := seg.1.used_eq_zero.mpr free
            have : ¬ h.room p ≥ size := fun hr => hfit ⟨this, hr⟩
            omega
          rw [if_neg hfit, seg.1.next]
          rcases ih seg.2 sized.tail (by omega) (by simpa using enough) with
            ⟨xs, c, ys, rfl, hc, hroom, hfind⟩ | ⟨hall, hfind⟩
          · exact .inl ⟨b :: xs, c, ys, rfl, hc, hroom, by rw [hfind, extent, Nat.add_assoc]⟩
          · exact .inr ⟨List.forall_mem_cons.mpr ⟨small, hall⟩, hfind⟩
      · rw [if_neg hin]
        refine .inr ⟨fun c hc _ => ?_, rfl⟩
        obtain ⟨xs, ys, hcs⟩ := List.append_of_mem hc
        have : b.size + extent bs = extent (b :: bs) := rfl
        rw [hcs, extent_append, extent] at this
        omega

theorem skipUsed_spec (seg : Segment h q p bs) (sized : Sized bs) (fits : p + extent bs = memSizeAligned)
    (enough : bs.length < fuel) : h.skipUsed fuel p = some (firstFree p bs) := by
  induction bs generalizing q p fuel with
  | nil =>
      obtain ⟨fuel, rfl⟩ : ∃ f, fuel = f + 1 := ⟨fuel - 1, by simp at enough; omega⟩
      simp only [extent, Nat.add_zero] at fits
      rw [skipUsed, if_neg (by simp [fits])]
      rfl
  | cons b bs ih =>
      obtain ⟨fuel, rfl⟩ : ∃ f, fuel = f + 1 := ⟨fuel - 1, by omega⟩
      have hb := sized.head
      simp only [extent] at fits
      rw [skipUsed, firstFree]
      cases hu : b.used with
      | false => rw [if_neg fun hc => hc.1 (seg.1.used_eq_zero.mpr hu)]; rfl
      | true =>
          have used : h.used p ≠ 0 := fun h0 => by simp [seg.1.used_eq_zero.mp h0] at hu
          rw [if_pos ⟨used, by omega⟩, if_pos rfl, seg.1.next]
          exact ih seg.2 sized.tail (by omega) (by simpa using enough)

/-! ## The block that is found -/

def carved (size : Nat) (b : Block) : List Block :=
  if size + sizeofStructMem + (sizeofStructMem + minSizeAligned) ≤ b.size then
    [⟨size + sizeofStructMem, true⟩, ⟨b.size - (size + sizeofStructMem), false⟩]
  else [⟨b.size, true⟩]

theorem extent_carved (size : Nat) (b : Block) : extent (carved size b) = b.size := by
  simp only [carved]
  split <;> simp only [extent, sizeofStructMem] at * <;> omega

theorem sized_carved (hb : 20 ≤ b.size ∧ b.size % 4 = 0) (hsize : size % 4 = 0) (min : 12 ≤ size) :
    Sized (carved size b) := by
  by_cases h : size + sizeofStructMem + (sizeofStructMem + minSizeAligned) ≤ b.size
  · rw [carved, if_pos h, sized_cons, sized_cons]
    simp only [sizeofStructMem, minSizeAligned] at h ⊢
    exact ⟨by omega, by omega, by simp [Sized]⟩
  · rw [carved, if_neg h, sized_cons]
    exact ⟨hb, by simp [Sized]⟩

theorem Linked.replace (lk : Linked h bs) {bs' : List Block} (seg : Segment h' 0 0 bs') (sized : Sized bs')
    (fits : extent bs' = memSizeAligned) (same : Same h h' memSizeAligned (memSizeAligned + 5)) : Linked h' bs' where
  segment := seg
  sized := sized
  whole := fits
  endUsed := (same (memSizeAligned + 4) (by decide) (by decide)).trans lk.endUsed
  endNext := (word_congr (same memSizeAligned (by decide) (by decide))
    (same (memSizeAligned + 1) (by decide) (by decide))).trans lk.endNext
  endPrev := (word_congr (same (memSizeAligned + 2) (by decide) (by decide))
    (same (memSizeAligned + 3) (by decide) (by decide))).trans lk.endPrev

theorem Sane.flag {h : MemHeap} {bs : List Block} (sane : Sane h bs) (failed : Bool) :
    Sane { h with failed := failed } bs := by
  have same : ∀ lo hi, Same h { h with failed := failed } lo hi := fun _ _ _ _ _ => rfl
  have lk := sane.linked
  exact ⟨lk.replace (lk.segment.same lk.sized (same _ _)) lk.sized lk.whole (same _ _), sane.separated, sane.lfree⟩

theorem Linked.parts (lk : Linked h (xs ++ b :: ys)) :
    Segment h 0 0 xs ∧ Header h (lastPlace 0 0 xs) (extent xs) b ∧
      Segment h (extent xs) (extent xs + b.size) ys ∧ Sized xs ∧ (20 ≤ b.size ∧ b.size % 4 = 0) ∧ Sized ys ∧
      extent xs + b.size + extent ys = 1600 := by
  have fits := lk.whole
  have seg := lk.segment
  obtain ⟨sx, sb, sy⟩ : Sized xs ∧ (20 ≤ b.size ∧ b.size % 4 = 0) ∧ Sized ys := by
    simpa [sized_append, sized_cons] using lk.sized
  rw [segment_append, Nat.zero_add] at seg
  simp only [extent_append, extent] at fits
  exact ⟨seg.1, seg.2.1, seg.2.2, sx, sb, sy, by rw [← Nat.add_assoc] at fits; exact fits⟩

theorem Sized.extent_cases (sized : Sized ys) : extent ys = 0 ∨ 20 ≤ extent ys := by
  cases ys with
  | nil => exact .inl rfl
  | cons y ys =>
      have := sized.head
      exact .inr (by simp only [extent]; omega)

theorem memSizeT_of_lt {n : Int} {k : Nat} (h : n = k) (lt : k < 65536) : memSizeT n = k := by
  rw [h, memSizeT]
  omega

def splitUsed (p ptr2 m : Nat) (h : MemHeap) : MemHeap :=
  let h := (h.splitOff p ptr2 m).setUsed p 1
  h.relink (h.next ptr2) ptr2

theorem splitUsed_eq {m : Nat} (room : p + 5 ≤ ptr2) (hm : m < 65536) :
    h.splitUsed p ptr2 m = ((h.splitOff p ptr2 m).setUsed p 1).relink m ptr2 := by
  have : ((h.splitOff p ptr2 m).setUsed p 1).next ptr2 = m :=
    (word_setByte_apart _ (.inl (by omega))).trans (next_splitOff hm room)
  rw [splitUsed, this]

theorem same_splitUsed {m lo hi : Nat} (room : p + 5 ≤ ptr2) (hm : m < 65536) (apart : hi ≤ p ∨ p + 5 ≤ lo)
    (apart' : hi ≤ ptr2 ∨ ptr2 + 5 ≤ lo) (apart'' : m = memSizeAligned ∨ hi ≤ m ∨ m + 5 ≤ lo) :
    Same h (h.splitUsed p ptr2 m) lo hi := by
  rw [splitUsed_eq room hm]
  exact ((same_splitOff apart apart').trans (same_setUsed apart)).trans (same_relink apart'')

theorem splitUsed_rest (m : Nat) :
    (h.splitUsed p ptr2 m).lfree = h.lfree ∧ (h.splitUsed p ptr2 m).failed = h.failed := by
  simp only [splitUsed, relink, onlyIf]
  split <;> exact ⟨rfl, rfl⟩

theorem Linked.splitUsed (lk : Linked h bs) {n k m : Nat} (hx : Segment h 0 0 xs)
    (hb : Header h (lastPlace 0 0 xs) p b) (hy : Segment h q m ys)
    (sized : Sized (xs ++ ⟨n, true⟩ :: ⟨k, false⟩ :: ys)) (hp : p = extent xs) (hm : m = p + n + k)
    (fits : m + extent ys = memSizeAligned) :
    Linked (h.splitUsed p (p + n) m) (xs ++ ⟨n, true⟩ :: ⟨k, false⟩ :: ys) ∧
      Keeps h (h.splitUsed p (p + n) m) (xs ++ ⟨n, true⟩ :: ⟨k, false⟩ :: ys) := by
  obtain ⟨sx, sn, sk, sy⟩ : Sized xs ∧ (20 ≤ n ∧ n % 4 = 0) ∧ (20 ≤ k ∧ k % 4 = 0) ∧ Sized ys := by
    simpa [sized_append, sized_cons] using sized
  have whole : extent (xs ++ ⟨n, true⟩ :: ⟨k, false⟩ :: ys) = memSizeAligned := by
    simp only [extent_append, extent]
    omega
  have e : memSizeAligned = 1600 := rfl
  have room : p + 5 ≤ p + n := by omega
  have first : Header ((h.splitOff p (p + n) m).setUsed p 1) (lastPlace 0 0 xs) p ⟨n, true⟩ :=
    (hb.splitOff room (by omega)).setUsed true
  have second : Header ((h.splitOff p (p + n) m).setUsed p 1) p (p + n) ⟨k, false⟩ := by
    rw [hm]
    exact (header_splitOff room (by omega)).same (same_setUsed (.inr room))
  have before : ∀ lo hi, (hi ≤ p ∨ p + 5 ≤ lo) → (hi ≤ p + n ∨ p + n + 5 ≤ lo) →
      Same h ((h.splitOff p (p + n) m).setUsed p 1) lo hi :=
    fun _ _ a a' => (same_splitOff a a').trans (same_setUsed a)
  have seg : Segment (h.splitUsed p (p + n) m) 0 0 (xs ++ ⟨n, true⟩ :: ⟨k, false⟩ :: ys) := by
    rw [splitUsed_eq room (by omega)]
    refine Segment.assemble (hx.same sx ?_) first second (hy.same sy ?_) sized hp rfl hm fits
    · exact before _ _ (.inl (by omega)) (.inl (by omega))
    · exact before _ _ (.inr (by omega)) (.inr (by omega))
  refine ⟨lk.replace seg sized whole ?_, fun r c hc => ?_⟩
  · have := sy.extent_cases
    exact same_splitUsed room (by omega) (.inr (by omega)) (.inr (by omega)) (by omega)
  · have left := data_apart sized whole hc
    have middle := @data_apart _ _ (xs ++ [⟨n, true⟩]) (⟨k, false⟩ :: ys)
      (by simpa using sized) (by simpa using whole) (by simpa using hc)
    have right := @data_apart _ _ (xs ++ [⟨n, true⟩, ⟨k, false⟩]) ys
      (by simpa using sized) (by simpa using whole) (by simpa using hc)
    simp only [extent_append, extent, ← hp] at left middle right
    exact same_splitUsed room (by omega) (by omega) (by omega) (by omega)

theorem carve_split (room : h.room p ≥ size + sizeofStructMem + minSizeAligned) (next : h.next p = p + b.size)
    (fits : p + (size + sizeofStructMem) < memSizeAligned) :
    h.carve p size = h.splitUsed p (p + (size + sizeofStructMem)) (p + b.size) := by
  have ptr2 : memSizeT (p + sizeofStructMem + size) = p + (size + sizeofStructMem) := by
    refine memSizeT_of_lt ?_ ?_
    · push_cast
      omega
    · simp only [memSizeAligned] at fits
      omega
  have assert : (p + (size + sizeofStructMem) != memSizeAligned) = true := by
    simpa using by omega
  rw [carve, if_pos room, ptr2]
  dsimp only
  rw [assert, lwipAssert_true, next]
  rfl

theorem carve_linked (lk : Linked h (xs ++ b :: ys)) (fit : size + sizeofStructMem ≤ b.size)
    (hsize : size % 4 = 0) (min : 12 ≤ size) :
    Linked (h.carve (extent xs) size) (xs ++ (carved size b ++ ys)) ∧
      Keeps h (h.carve (extent xs) size) (xs ++ (carved size b ++ ys)) ∧
      (h.carve (extent xs) size).lfree = h.lfree ∧ (h.carve (extent xs) size).failed = h.failed := by
  obtain ⟨hx, hb, hy, sx, sb, sy, fits⟩ := lk.parts
  have sized : Sized (xs ++ (carved size b ++ ys)) :=
    sized_append.mpr ⟨sx, sized_append.mpr ⟨sized_carved sb hsize min, sy⟩⟩
  have whole : extent (xs ++ (carved size b ++ ys)) = memSizeAligned := by
    rw [extent_append, extent_append, extent_carved, ← Nat.add_assoc]
    exact fits
  have room : h.room (extent xs) = b.size - sizeofStructMem :=
    hb.room sb.1 (by simp only [memSizeAligned]; omega)
  by_cases split : size + sizeofStructMem + (sizeofStructMem + minSizeAligned) ≤ b.size
  · have out := @carve_split h (extent xs) size _ (by omega) hb.next
      (by simp only [memSizeAligned, sizeofStructMem, minSizeAligned] at split ⊢; omega)
    rw [carved, if_pos split] at sized ⊢
    obtain ⟨linked, keeps⟩ := lk.splitUsed hx hb hy sized rfl (by omega) fits
    rw [out]
    exact ⟨linked, keeps, splitUsed_rest _⟩
  · have out : h.carve (extent xs) size = h.setUsed (extent xs) 1 := by rw [carve, if_neg (by omega)]
    rw [carved, if_neg split] at sized whole ⊢
    rw [out]
    have seg : Segment (h.setUsed (extent xs) 1) 0 0 (xs ++ ⟨b.size, true⟩ :: ys) := by
      rw [segment_append, Nat.zero_add]
      refine ⟨hx.same sx (same_setUsed (.inl (by omega))), hb.setUsed true, ?_⟩
      exact hy.same sy (same_setUsed (.inr (by omega)))
    refine ⟨lk.replace seg sized whole (same_setUsed (.inr (by simp only [memSizeAligned]; omega))), ?_, rfl, rfl⟩
    intro r c hc
    have left := data_apart sized whole hc
    simp only [memSizeAligned] at left
    exact same_setUsed (by omega)

theorem separated_carved (sep : Separated (xs ++ b :: ys)) (free : b.used = false) :
    Separated (xs ++ (carved size b ++ ys)) := by
  have right : Separated (b :: ys) := (separated_cut.mp sep).2
  rw [carved]
  split
  · exact separated_cut.mpr ⟨sep.left.append_used rfl, (right.head free.symm).cons_used rfl⟩
  · exact separated_cut.mpr ⟨sep.left.append_used rfl, Separated.cons_used (List.IsChain.tail right) rfl⟩

/-! ## The result -/

theorem adjustSize_some {n : UInt16} (e : adjustSize n = some size) :
    size % 4 = 0 ∧ 12 ≤ size ∧ size ≤ memSizeAligned ∧ n.toNat ≤ size := by
  have aligned : memSizeT (lwipMemAlignSize n.toNat) % 4 = 0 := by
    simp only [memSizeT, lwipMemAlignSize, memAlignment]
    omega
  rw [adjustSize] at e
  generalize hnew : (if memSizeT (lwipMemAlignSize n.toNat) < minSizeAligned then minSizeAligned
    else memSizeT (lwipMemAlignSize n.toNat)) = newsize at e
  have hsize : newsize % 4 = 0 ∧ 12 ≤ newsize := by
    have : minSizeAligned = 12 := rfl
    split at hnew <;> omega
  by_cases refused : newsize > memSizeAligned ∨ newsize < n.toNat
  · rw [if_pos refused] at e
    cases e
  · rw [if_neg refused] at e
    cases e
    omega

theorem adjustLfree_spec (lk : Linked h (xs ++ bs)) (moves : h.lfree = extent xs) :
    ∃ h', h.adjustLfree (extent xs) = some h' ∧ h'.ram = h.ram ∧ h'.lfree = firstFree (extent xs) bs ∧
      h'.failed = h.failed := by
  obtain ⟨sx, sb⟩ := sized_append.mp lk.sized
  have seg := (segment_append.mp lk.segment).2
  have fits := lk.whole
  rw [extent_append] at fits
  rw [Nat.zero_add] at seg
  have enough : bs.length < memSizeAligned := by
    have := sb.length_le
    simp only [memSizeAligned] at fits ⊢
    omega
  have skip := skipUsed_spec seg sb fits enough
  have assert : (firstFree (extent xs) bs == memSizeAligned || h.used (firstFree (extent xs) bs) == 0) = true := by
    obtain ⟨us, vs, rfl, -, hfirst, hvs⟩ := firstFree_cut (extent xs) bs
    rw [hfirst]
    cases vs with
    | nil =>
        rw [List.append_nil] at fits
        simp [fits]
    | cons v vs =>
        have hv : Header h _ (extent xs + extent us) v := (segment_append.mp seg).2.1
        have : h.used (extent xs + extent us) = 0 := hv.used_eq_zero.mpr (hvs v rfl)
        simp only [Bool.or_eq_true, beq_iff_eq]
        exact .inr this
  refine ⟨h.setLfree (firstFree (extent xs) bs), ?_, rfl, rfl, rfl⟩
  rw [adjustLfree, if_pos moves.symm, moves, skip, Option.map_some, assert, lwipAssert_true]

def Full (bs : List Block) (n : UInt16) : Prop :=
  ∀ size, adjustSize n = some size → ∀ b ∈ bs, b.used = false → b.size < size + sizeofStructMem

theorem memMalloc_spec (sane : Sane h bs) (n : UInt16) :
    ((n = 0 ∨ Full bs n) ∧ h.memMalloc n = some (none, h)) ∨
      ∃ size xs b ys h', adjustSize n = some size ∧ n ≠ 0 ∧ bs = xs ++ b :: ys ∧ b.used = false ∧
        size + sizeofStructMem ≤ b.size ∧ h.memMalloc n = some (some ((extent xs + sizeofStructMem : Nat) : Int), h') ∧
        Sane h' (xs ++ (carved size b ++ ys)) ∧ Keeps h h' (xs ++ (carved size b ++ ys)) ∧ h'.failed = h.failed := by
  by_cases zero : n = 0
  · exact .inl ⟨.inl zero, by rw [memMalloc, if_pos zero]⟩
  cases adjust : adjustSize n with
  | none =>
      refine .inl ⟨.inr fun size e => (by rw [adjust] at e; cases e), ?_⟩
      rw [memMalloc, if_neg zero, adjust]
  | some size =>
      obtain ⟨aligned, min, max, -⟩ := adjustSize_some adjust
      obtain ⟨us, vs, rfl, used, first, free⟩ := firstFree_cut 0 bs
      rw [Nat.zero_add] at first
      have lfree : h.lfree = extent us := sane.lfree.trans first
      have lk := sane.linked
      have fits := lk.whole
      rw [extent_append] at fits
      have seg := (segment_append.mp lk.segment).2
      rw [Nat.zero_add] at seg
      have sv := (sized_append.mp lk.sized).2
      have enough : vs.length < memSizeAligned := by
        have := sv.length_le
        simp only [memSizeAligned] at fits ⊢
        omega
      rcases findFit_spec seg sv fits max enough with ⟨ws, b, ys, rfl, hfree, hroom, hfind⟩ | ⟨hall, hfind⟩
      · rw [← List.append_assoc] at lk
        have bound := lk.parts.2.2.2.2.2.2
        have sizedXs := lk.parts.2.2.2.1
        obtain ⟨linked, keeps, sameLfree, sameFailed⟩ := carve_linked lk hroom aligned min
        rw [← List.append_assoc] at sane
        have sep := @separated_carved size _ _ _ sane.separated hfree
        have place : extent us + extent ws = extent (us ++ ws) := (extent_append us ws).symm
        obtain ⟨h', adj, ram', lfree', failed'⟩ : ∃ h', (h.carve (extent (us ++ ws)) size).adjustLfree
            (extent (us ++ ws)) = some h' ∧ h'.ram = (h.carve (extent (us ++ ws)) size).ram ∧
            h'.lfree = firstFree 0 (us ++ ws ++ (carved size b ++ ys)) ∧ h'.failed = h.failed := by
          cases ws with
          | nil =>
              rw [List.append_nil] at *
              obtain ⟨h', adj, hram, hl, hf⟩ := adjustLfree_spec linked (sameLfree.trans lfree)
              exact ⟨h', adj, hram, by rw [hl, firstFree_of_used used, Nat.zero_add], hf.trans sameFailed⟩
          | cons w ws =>
              have hw := (sized_append.mp sizedXs).2.head
              have moves : extent (us ++ w :: ws) ≠ (h.carve (extent (us ++ w :: ws)) size).lfree := by
                rw [sameLfree, lfree, extent_append, extent]
                omega
              refine ⟨_, by rw [adjustLfree, if_neg moves], rfl, ?_, sameFailed⟩
              rw [sameLfree, sane.lfree]
              refine (firstFree_before ?_ _).symm
              rw [← sane.lfree, lfree, extent_append, extent]
              omega
        have e : h.memMalloc n = some (some ((extent (us ++ ws) + sizeofStructMem : Nat) : Int), h') := by
          have a₁ : decide (extent (us ++ ws) + sizeofStructMem + size ≤ memSizeAligned) = true := by
            have : memSizeAligned = 1600 := rfl
            exact decide_eq_true (by omega)
          have mod := sizedXs.extent_mod
          have a₂ : ((extent (us ++ ws) + sizeofStructMem) % memAlignment == 0) = true := by
            simp only [sizeofStructMem, memAlignment, beq_iff_eq]
            omega
          have a₃ : (extent (us ++ ws) % memAlignment == 0) = true := by
            simp only [memAlignment, beq_iff_eq]
            omega
          rw [memMalloc, if_neg zero, adjust]
          simp only
          rw [lfree, hfind, place]
          simp only
          rw [adj]
          simp only [a₁, a₂, a₃, lwipAssert_true]
          push_cast
          rfl
        have same : ∀ lo hi, Same (h.carve (extent (us ++ ws)) size) h' lo hi := fun lo hi i _ _ => by rw [ram']
        refine .inr ⟨size, us ++ ws, b, ys, h', rfl, zero, by rw [List.append_assoc], hfree, hroom, e, ?_, ?_, failed'⟩
        · refine ⟨?_, sep, lfree'⟩
          exact linked.replace (linked.segment.same linked.sized (same _ _)) linked.sized linked.whole (same _ _)
        · exact fun r c hc => (keeps r c hc).trans (same _ _)
      · refine .inl ⟨.inr fun size' e b hb => ?_, ?_⟩
        · rw [adjust] at e
          cases e
          rcases List.mem_append.mp hb with hb | hb
          · intro hu
            rw [used b hb] at hu
            cases hu
          · exact hall b hb
        · rw [memMalloc, if_neg zero, adjust]
          simp only
          rw [lfree, hfind]

end Oinzen.MemHeap
