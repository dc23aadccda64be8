import Oinzen.Heap.Malloc

/-!
# `mem_free`

A block that is freed is joined with the free blocks beside it.
-/

namespace Oinzen.MemHeap

open Tiling

variable {h h' : MemHeap} {p r mem n : Nat} {a b c : Block} {bs ws xs ys : List Block}

theorem firstFree_le_free (free : b.used = false) : firstFree 0 (xs ++ b :: ys) ≤ extent xs := by
  obtain ⟨n, u⟩ := b
  cases free
  rw [firstFree_release]
  omega

theorem absorb_rest (other : h.lfree ≠ n) : (h.absorb p n).lfree = h.lfree ∧ (h.absorb p n).failed = h.failed := by
  have e : h.onlyIf (h.lfree == n) (setLfree p) = h := onlyIf_false _ (by simpa using other)
  rw [absorb, e]
  simp only [relink, onlyIf]
  split <;> exact ⟨rfl, rfl⟩

theorem Linked.absorb (lk : Linked h (xs ++ b :: c :: ys)) (hb : b.used = false)
    (lfree : h.lfree = firstFree 0 (xs ++ b :: c :: ys)) :
    Linked (h.absorb (extent xs) (extent xs + b.size)) (xs ++ ⟨b.size + c.size, false⟩ :: ys) ∧
      (h.absorb (extent xs) (extent xs + b.size)).lfree = firstFree 0 (xs ++ ⟨b.size + c.size, false⟩ :: ys) ∧
      (h.absorb (extent xs) (extent xs + b.size)).failed = h.failed ∧
      Keeps h (h.absorb (extent xs) (extent xs + b.size)) (xs ++ ⟨b.size + c.size, false⟩ :: ys) := by
  have e : memSizeAligned = 1600 := rfl
  obtain ⟨sx, sb, sc, sy⟩ : Sized xs ∧ (20 ≤ b.size ∧ b.size % 4 = 0) ∧ (20 ≤ c.size ∧ c.size % 4 = 0) ∧
      Sized ys := by simpa [sized_append, sized_cons] using lk.sized
  have whole := lk.whole
  simp only [extent_append, extent] at whole
  have next : h.next (extent xs + b.size) = extent xs + b.size + c.size := by
    have lk' : Linked h ((xs ++ [b]) ++ c :: ys) := by simpa using lk
    simpa [extent] using lk'.parts.2.1.next
  have sized' : Sized (xs ++ ⟨b.size + c.size, false⟩ :: ys) :=
    sized_append.mpr ⟨sx, sized_cons.mpr ⟨by dsimp only; omega, sy⟩⟩
  have whole' : extent (xs ++ ⟨b.size + c.size, false⟩ :: ys) = memSizeAligned := by
    simp only [extent_append, extent]
    omega
  have seg := lk.segment.absorb lk.sized lk.whole rfl
  rw [hb] at seg
  have := sy.extent_cases
  have first := @firstFree_le_free b xs (c :: ys) hb
  obtain ⟨sameLfree, sameFailed⟩ := absorb_rest (h := h) (p := extent xs) (n := extent xs + b.size) (by omega)
  refine ⟨lk.replace seg sized' whole' ?_, ?_, sameFailed, fun r d hd => ?_⟩
  · exact same_absorb (.inr (by omega)) (by omega) (by omega)
  · rw [sameLfree, lfree]
    exact firstFree_of_free hb rfl 0 _ _
  · have left := data_apart sized' whole' hd
    have right := @data_apart _ _ (xs ++ [⟨b.size + c.size, false⟩]) ys (by simpa using sized')
      (by simpa using whole') (by simpa using hd)
    simp only [extent_append, extent] at left right
    exact same_absorb (by omega) (by omega) (by omega)

theorem Keeps.trans {h'' : MemHeap} (k : Keeps h h' bs) (k' : Keeps h' h'' bs) : Keeps h h'' bs :=
  fun r c hc => (k r c hc).trans (k' r c hc)

theorem Keeps.of_taken (k : Keeps h h' xs) (e : taken 0 ys = taken 0 xs) : Keeps h h' ys :=
  fun r c hc => k r c (e ▸ hc)

theorem Keeps.refl (h : MemHeap) (bs : List Block) : Keeps h h bs := fun _ _ _ _ _ _ => rfl

theorem plugRight (lk : Linked h (xs ++ ⟨n, false⟩ :: ys)) (lfree : h.lfree = firstFree 0 (xs ++ ⟨n, false⟩ :: ys)) :
    ∃ m zs h', join ⟨n, false⟩ ys = ⟨m, false⟩ :: zs ∧
      h.onlyIf (extent xs != h.next (extent xs) && h.used (h.next (extent xs)) == 0 &&
        h.next (extent xs) != memSizeAligned) (absorb (extent xs) (h.next (extent xs))) = h' ∧
      Linked h' (xs ++ ⟨m, false⟩ :: zs) ∧ h'.lfree = firstFree 0 (xs ++ ⟨m, false⟩ :: zs) ∧ h'.failed = h.failed ∧
      Keeps h h' (xs ++ ⟨m, false⟩ :: zs) := by
  have whole := lk.whole
  simp only [extent_append, extent] at whole
  have next : h.next (extent xs) = extent xs + n := lk.parts.2.1.next
  have pos : 20 ≤ n := lk.parts.2.2.2.2.1.1
  rw [next]
  cases ys with
  | nil =>
      refine ⟨n, [], h, rfl, onlyIf_false _ ?_, lk, lfree, rfl, .refl _ _⟩
      simp only [extent, Nat.add_zero] at whole
      simp [whole]
  | cons c cs =>
      have lk' : Linked h ((xs ++ [⟨n, false⟩]) ++ c :: cs) := by simpa using lk
      have hc := lk'.parts.2.1
      have sc := lk'.parts.2.2.2.2.1
      simp only [extent_append, extent, Nat.add_zero] at hc
      cases hu : c.used with
      | true =>
          have used : h.used (extent xs + n) ≠ 0 := fun h0 => by simp [hc.used_eq_zero.mp h0] at hu
          refine ⟨n, c :: cs, h, by simp [join, hu], onlyIf_false _ ?_, lk, lfree, rfl, .refl _ _⟩
          simp [used]
      | false =>
          obtain ⟨linked, lfree', failed, keeps⟩ := lk.absorb rfl lfree
          refine ⟨n + c.size, cs, _, by simp [join, hu], onlyIf_true _ ?_, linked, lfree', failed, keeps⟩
          have : h.used (extent xs + n) = 0 := hc.used_eq_zero.mpr hu
          have e : memSizeAligned = 1600 := rfl
          simp only [extent] at whole
          simp only [this, Bool.and_eq_true, bne_iff_ne, beq_self_eq_true, and_true]
          omega

theorem plugLeft (lk : Linked h (xs ++ ⟨n, false⟩ :: ys)) (lfree : h.lfree = firstFree 0 (xs ++ ⟨n, false⟩ :: ys))
    (sep : Separated xs) :
    ∃ h', h.onlyIf (h.prev (extent xs) != extent xs && h.used (h.prev (extent xs)) == 0)
        (absorb (h.prev (extent xs)) (extent xs)) = h' ∧
      Linked h' (xs.foldr join (⟨n, false⟩ :: ys)) ∧ h'.lfree = firstFree 0 (xs.foldr join (⟨n, false⟩ :: ys)) ∧
      h'.failed = h.failed ∧ Keeps h h' (xs.foldr join (⟨n, false⟩ :: ys)) := by
  have prev := lk.parts.2.1.prev
  rcases List.eq_nil_or_concat xs with rfl | ⟨ws, a, rfl⟩
  · refine ⟨h, onlyIf_false _ ?_, lk, lfree, rfl, .refl _ _⟩
    rw [prev]
    simp [lastPlace, extent]
  · rw [List.concat_eq_append] at *
    rw [prev, lastPlace_concat, Nat.zero_add]
    have lk' : Linked h (ws ++ a :: ⟨n, false⟩ :: ys) := by simpa using lk
    have lfree' : h.lfree = firstFree 0 (ws ++ a :: ⟨n, false⟩ :: ys) := by simpa using lfree
    have ha := lk'.parts.2.1
    have sa := lk'.parts.2.2.2.2.1
    have e : extent (ws ++ [a]) = extent ws + a.size := by simp [extent]
    cases hu : a.used with
    | true =>
        have used : h.used (extent ws) ≠ 0 := fun h0 => by simp [ha.used_eq_zero.mp h0] at hu
        have normal : (ws ++ [a]).foldr join (⟨n, false⟩ :: ys) = ws ++ [a] ++ ⟨n, false⟩ :: ys := by
          rw [List.foldr_append, List.foldr_cons, List.foldr_nil]
          simp only [join, hu, Bool.true_or, if_true]
          rw [foldr_join_of_separated sep]
          simp
        rw [normal]
        exact ⟨h, onlyIf_false _ (by simp [used]), lk, lfree, rfl, .refl _ _⟩
    | false =>
        have free : h.used (extent ws) = 0 := ha.used_eq_zero.mpr hu
        have normal : (ws ++ [a]).foldr join (⟨n, false⟩ :: ys) = ws ++ ⟨a.size + n, false⟩ :: ys := by
          rw [List.foldr_append, List.foldr_cons, List.foldr_nil]
          simp only [join, hu, Bool.or_false, Bool.false_eq_true, if_false]
          refine foldr_join_of_separated ?_
          have : Separated (ws ++ [a]) := sep
          exact List.isChain_append.mpr ⟨this.left, .singleton _, fun x hx y hy => by
            cases hy
            simpa [hu] using (List.isChain_append.mp this).2.2 x hx a rfl⟩
        rw [normal, e]
        obtain ⟨linked, lfree'', failed, keeps⟩ := lk'.absorb hu lfree'
        refine ⟨_, onlyIf_true _ ?_, linked, lfree'', failed, keeps⟩
        simp only [free, Bool.and_eq_true, bne_iff_ne, beq_self_eq_true, and_true]
        omega

theorem plugHoles_sane (lk : Linked h (xs ++ ⟨n, false⟩ :: ys)) (lfree : h.lfree = firstFree 0 (xs ++ ⟨n, false⟩ :: ys))
    (sepLeft : Separated xs) (sepRight : Separated ys) :
    Sane (h.plugHoles (extent xs)) (normalize (xs ++ ⟨n, false⟩ :: ys)) ∧
      Keeps h (h.plugHoles (extent xs)) (normalize (xs ++ ⟨n, false⟩ :: ys)) ∧
      (h.plugHoles (extent xs)).failed = h.failed := by
  have e : memSizeAligned = 1600 := rfl
  have hb := lk.parts.2.1
  have sb : 20 ≤ n ∧ n % 4 = 0 := lk.parts.2.2.2.2.1
  have whole := lk.whole
  simp only [extent_append, extent] at whole
  have a₁ : decide (extent xs < memSizeAligned) = true := decide_eq_true (by omega)
  have a₂ : (h.used (extent xs) == 0) = true := beq_iff_eq.mpr (hb.used_eq_zero.mpr rfl)
  have a₃ : decide (h.next (extent xs) ≤ memSizeAligned) = true := by
    rw [hb.next]
    exact decide_eq_true (by dsimp only; omega)
  obtain ⟨m, zs, h', normal, right, linked, lfree', failed, keeps⟩ := plugRight lk lfree
  obtain ⟨h'', left, linked', lfree'', failed', keeps'⟩ := plugLeft linked lfree' sepLeft
  have out : h.plugHoles (extent xs) = h'' := by
    rw [plugHoles]
    simp only [a₁, a₂, a₃, lwipAssert_true, right, left]
  have same : normalize (xs ++ ⟨n, false⟩ :: ys) = xs.foldr join (⟨m, false⟩ :: zs) := by
    rw [normalize_between sepRight, normal]
  have sep : Separated (xs.foldr join (⟨m, false⟩ :: zs)) := same ▸ separated_normalize _
  have back : taken 0 (xs.foldr join (⟨m, false⟩ :: zs)) = taken 0 (xs ++ ⟨m, false⟩ :: zs) := by
    rw [← same, taken_normalize, taken_append, taken_append, ← normal, taken_join]
  rw [out, same]
  exact ⟨⟨linked', sep, lfree''⟩, (keeps.of_taken back).trans keeps', failed'.trans failed⟩

theorem memLinkValid_of_linked (lk : Linked h (xs ++ b :: ys)) : h.memLinkValid (extent xs) = true := by
  have e : memSizeAligned = 1600 := rfl
  obtain ⟨hx, hb, hy, sx, sb, sy, fits⟩ := lk.parts
  have nextFits : ¬ h.next (extent xs) > memSizeAligned := by
    rw [hb.next]
    omega
  have left : h.prev (extent xs) ≤ memSizeAligned ∧
      (h.prev (extent xs) ≠ extent xs → h.next (h.prev (extent xs)) = extent xs) := by
    rw [hb.prev]
    rcases List.eq_nil_or_concat xs with rfl | ⟨ws, a, rfl⟩
    · exact ⟨by simp [lastPlace], fun ne => absurd rfl ne⟩
    · rw [List.concat_eq_append] at *
      have ha : Header h (lastPlace 0 0 ws) (extent ws) a := by simpa using (segment_append.mp hx).2.1
      have width : extent (ws ++ [a]) = extent ws + a.size := by simp [extent]
      rw [lastPlace_concat, Nat.zero_add]
      exact ⟨by omega, fun _ => by rw [ha.next, width]⟩
  have right : h.next (extent xs) ≠ memSizeAligned → h.prev (h.next (extent xs)) = extent xs := by
    rw [hb.next]
    cases ys with
    | nil =>
        simp only [extent, Nat.add_zero] at fits
        exact fun ne => absurd (by omega) ne
    | cons c cs => exact fun _ => hy.1.prev
  rw [memLinkValid]
  simp only [Bool.not_eq_true', Bool.or_eq_false_iff, Bool.and_eq_false_iff, decide_eq_false_iff_not,
    bne_eq_false_iff_eq]
  refine ⟨⟨⟨nextFits, by omega⟩, ?_⟩, ?_⟩
  · by_cases ne : h.prev (extent xs) = extent xs
    · exact .inl ne
    · exact .inr (left.2 ne)
  · by_cases ne : h.next (extent xs) = memSizeAligned
    · exact .inl ne
    · exact .inr (right ne)

theorem memFree_spec (sane : Sane h (xs ++ b :: ys)) (used : b.used = true) :
    Sane (h.memFree (some ((extent xs + sizeofStructMem : Nat) : Int))) (normalize (xs ++ ⟨b.size, false⟩ :: ys)) ∧
      Keeps h (h.memFree (some ((extent xs + sizeofStructMem : Nat) : Int)))
        (normalize (xs ++ ⟨b.size, false⟩ :: ys)) ∧
      (h.memFree (some ((extent xs + sizeofStructMem : Nat) : Int))).failed = h.failed := by
  have lk := sane.linked
  obtain ⟨hx, hb, hy, sx, sb, sy, fits⟩ := lk.parts
  have mod := sx.extent_mod
  have inUse : h.used (extent xs) ≠ 0 := fun h0 => by simp [hb.used_eq_zero.mp h0] at used
  let h₁ := h.setUsed (extent xs) 0
  let h₂ := h₁.onlyIf (extent xs < h₁.lfree) (setLfree (extent xs))
  have out : h.memFree (some ((extent xs + sizeofStructMem : Nat) : Int)) = h₂.plugHoles (extent xs) := by
    have back : (((extent xs + sizeofStructMem : Nat) : Int) - sizeofStructMem).toNat = extent xs := by omega
    have aligned : ¬ ((extent xs + sizeofStructMem : Nat) : Int) % memAlignment ≠ 0 := by
      simp only [sizeofStructMem, memAlignment]
      omega
    have inside : ¬ (((extent xs + sizeofStructMem : Nat) : Int) - sizeofStructMem < 0 ∨
        ((extent xs + sizeofStructMem : Nat) : Int) + minSizeAligned > memSizeAligned) := by
      simp only [sizeofStructMem, minSizeAligned, memSizeAligned]
      omega
    rw [memFree]
    simp only
    rw [if_neg aligned, if_neg inside, back, if_neg inUse, memLinkValid_of_linked lk]
    rfl
  have sized : Sized (xs ++ ⟨b.size, false⟩ :: ys) := sized_append.mpr ⟨sx, sized_cons.mpr ⟨sb, sy⟩⟩
  have whole : extent (xs ++ ⟨b.size, false⟩ :: ys) = memSizeAligned := by
    rw [← lk.whole]
    simp [extent]
  have linked₁ : Linked h₁ (xs ++ ⟨b.size, false⟩ :: ys) := by
    refine lk.replace ?_ sized whole (same_setUsed (.inr (by simp only [memSizeAligned]; omega)))
    rw [segment_append, Nat.zero_add]
    exact ⟨hx.same sx (same_setUsed (.inl (by omega))), hb.setUsed false, hy.same sy (same_setUsed (.inr (by omega)))⟩
  have keeps₁ : Keeps h h₁ (normalize (xs ++ ⟨b.size, false⟩ :: ys)) := by
    refine Keeps.of_taken (fun r c hc => ?_) (taken_normalize 0 _)
    have := data_apart sized whole hc
    have e : memSizeAligned = 1600 := rfl
    exact same_setUsed (by omega)
  have ram₂ : h₂.ram = h₁.ram := ram_onlyIf_setLfree ..
  have same₂ : ∀ lo hi, Same h₁ h₂ lo hi := fun lo hi i _ _ => by rw [ram₂]
  have linked₂ : Linked h₂ (xs ++ ⟨b.size, false⟩ :: ys) :=
    linked₁.replace (linked₁.segment.same sized (same₂ _ _)) sized whole (same₂ _ _)
  have lfree₂ : h₂.lfree = firstFree 0 (xs ++ ⟨b.size, false⟩ :: ys) := by
    have before : h₁.lfree = firstFree 0 (xs ++ ⟨b.size, true⟩ :: ys) := by
      rw [← used]
      exact sane.lfree
    rw [firstFree_release, ← before]
    simp only [h₂, onlyIf, decide_eq_true_eq]
    split
    · simp only [setLfree]
      omega
    · omega
  have failed₂ : h₂.failed = h.failed := by
    simp only [h₂, onlyIf]
    split <;> rfl
  obtain ⟨done, keeps, failed⟩ := plugHoles_sane linked₂ lfree₂ sane.separated.left
    (@Separated.right [b] _ (Separated.right sane.separated))
  rw [out]
  exact ⟨done, (keeps₁.trans fun r c _ => same₂ _ _).trans keeps, failed.trans failed₂⟩

end Oinzen.MemHeap
