import Oinzen.Heap.Free

/-!
# `mem_trim`

The end of a block is given back when a free block follows or when it has room for a block of its own.
-/

namespace Oinzen.MemHeap

open Tiling

variable {h h' : MemHeap} {p r mem n newsize : Nat} {a b c : Block} {bs ws xs ys zs : List Block}

def trimmed (newsize : Nat) (b : Block) (ys : List Block) : List Block :=
  let rest := b.size - (newsize + sizeofStructMem)
  if rest = 0 ∨ (rest < sizeofStructMem + minSizeAligned ∧ ys.head?.all Block.used) then b :: ys
  else ⟨newsize + sizeofStructMem, true⟩ :: join ⟨rest, false⟩ ys

theorem setUsed_of_used {v : UInt8} (used : h.used p = v) : h.setUsed p v = h := by
  rw [setUsed, setByte, ← used, MemHeap.used, Function.update_eq_self]

theorem splitOff_relink {q m : Nat} (hb : Header h q p b) (used : b.used = true) (room : p + 5 ≤ p + n)
    (small : p + n < 65536) :
    (h.splitOff p (p + n) m).relink ((h.splitOff p (p + n) m).next (p + n)) (p + n) = h.splitUsed p (p + n) m := by
  have inUse : (h.splitOff p (p + n) m).used p = 1 := by
    rw [(hb.splitOff room small).used, used]
    rfl
  rw [splitUsed, setUsed_of_used inUse]

theorem firstFree_trimmed {k m : Nat} (fits : n < m) :
    firstFree 0 (xs ++ ⟨n, true⟩ :: ⟨k, false⟩ :: ys) =
      if extent xs + n < firstFree 0 (xs ++ ⟨m, true⟩ :: zs) then extent xs + n
      else firstFree 0 (xs ++ ⟨m, true⟩ :: zs) := by
  have behind := (firstFree_bounds (extent xs + m) zs).1
  have before := (firstFree_bounds 0 xs).2
  rw [firstFree_append, firstFree_append]
  split
  · simp only [firstFree, if_true, Bool.false_eq_true, if_false, Nat.zero_add]
    rw [if_pos (by omega)]
  · rw [if_neg (by omega)]

theorem trim_sane (sane : Sane h (xs ++ b :: ys)) (used : b.used = true) {moves : Bool} {k m : Nat}
    (hmoves : moves = true ↔ extent xs + n < h.lfree) (hzs : Segment h r m zs) (sep : Separated (⟨k, false⟩ :: zs))
    (sized : Sized (xs ++ ⟨n, true⟩ :: ⟨k, false⟩ :: zs)) (less : n < b.size) (hm : m = extent xs + n + k)
    (fits : m + extent zs = memSizeAligned) :
    let h₁ := (h.onlyIf moves (setLfree (extent xs + n))).splitOff (extent xs) (extent xs + n) m
    Sane (h₁.relink (h₁.next (extent xs + n)) (extent xs + n)) (xs ++ ⟨n, true⟩ :: ⟨k, false⟩ :: zs) ∧
      Keeps h (h₁.relink (h₁.next (extent xs + n)) (extent xs + n)) (xs ++ ⟨n, true⟩ :: ⟨k, false⟩ :: zs) ∧
      (h₁.relink (h₁.next (extent xs + n)) (extent xs + n)).failed = h.failed := by
  have e : memSizeAligned = 1600 := rfl
  have sn : 20 ≤ n ∧ n % 4 = 0 := (sized_cons.mp (sized_append.mp sized).2).1
  have lk := sane.linked
  let h₀ := h.onlyIf moves (setLfree (extent xs + n))
  have ram₀ : h₀.ram = h.ram := ram_onlyIf_setLfree ..
  have same₀ : ∀ lo hi, Same h h₀ lo hi := fun lo hi i _ _ => by rw [ram₀]
  have lk₀ : Linked h₀ (xs ++ b :: ys) :=
    lk.replace (lk.segment.same lk.sized (same₀ _ _)) lk.sized lk.whole (same₀ _ _)
  have sz : Sized zs := (sized_cons.mp (sized_cons.mp (sized_append.mp sized).2).2).2
  obtain ⟨hx, hb, -, -, -, -, -⟩ := lk₀.parts
  intro h₁
  have out : h₁.relink (h₁.next (extent xs + n)) (extent xs + n) = h₀.splitUsed (extent xs) (extent xs + n) m :=
    splitOff_relink hb used (by omega) (by omega)
  obtain ⟨linked, keeps⟩ := lk₀.splitUsed hx hb (hzs.same sz (same₀ _ _)) sized rfl hm fits
  obtain ⟨lfree, failed⟩ := @splitUsed_rest h₀ (extent xs) (extent xs + n) m
  rw [out]
  refine ⟨⟨linked, ?_, ?_⟩, fun p c hc => (same₀ _ _).trans (keeps p c hc), ?_⟩
  · exact separated_cut.mpr ⟨sane.separated.left.append_used rfl, sep.cons_used rfl⟩
  · obtain ⟨size, u⟩ := b
    cases used
    rw [lfree, @firstFree_trimmed _ _ _ ys _ _ less, ← sane.lfree]
    simp only [h₀, onlyIf]
    by_cases first : extent xs + n < h.lfree
    · rw [if_pos (hmoves.mpr first), if_pos first]
      rfl
    · rw [if_neg (fun c => first (hmoves.mp c)), if_neg first]
  · rw [failed]
    simp only [h₀, onlyIf]
    split <;> rfl

def splitsLast (newsize : Nat) (b : Block) (ys : List Block) : Bool :=
  ys.isEmpty && newsize + sizeofStructMem + minSizeAligned ≤ b.size - sizeofStructMem

theorem Linked.measures (lk : Linked h (xs ++ b :: ys)) :
    ¬ (((extent xs + sizeofStructMem : Nat) : Int) < 0 ∨
        ((extent xs + sizeofStructMem : Nat) : Int) ≥ memSizeAligned) ∧
      memSizeT (((extent xs + sizeofStructMem : Nat) : Int) - sizeofStructMem) = extent xs ∧
      memSizeT ((h.next (extent xs) : Int) - extent xs) = b.size ∧
      memSizeT ((b.size : Int) - sizeofStructMem) = b.size - sizeofStructMem := by
  have e : memSizeAligned = 1600 := rfl
  have e' : sizeofStructMem = 8 := rfl
  obtain ⟨-, hb, -, -, sb, -, fits⟩ := lk.parts
  refine ⟨by omega, memSizeT_of_lt (by omega) (by omega), ?_, memSizeT_of_lt (by omega) (by omega)⟩
  refine memSizeT_of_lt ?_ (by omega)
  rw [hb.next]
  omega

theorem memTrim_spec (sane : Sane h (xs ++ b :: ys)) (used : b.used = true) {newSize : UInt16}
    (adjust : adjustSize newSize = some newsize) (shrinks : newsize + sizeofStructMem ≤ b.size) :
    ∃ h', h.memTrim ((extent xs + sizeofStructMem : Nat) : Int) newSize =
        (some ((extent xs + sizeofStructMem : Nat) : Int), h') ∧
      Sane h' (xs ++ trimmed newsize b ys) ∧ Keeps h h' (xs ++ trimmed newsize b ys) ∧
      h'.failed = (h.failed || splitsLast newsize b ys) := by
  have e : memSizeAligned = 1600 := rfl
  have e' : sizeofStructMem = 8 := rfl
  have e'' : minSizeAligned = 12 := rfl
  have lk := sane.linked
  obtain ⟨hx, hb, hy, sx, sb, sy, fits⟩ := lk.parts
  obtain ⟨aligned, min, -, -⟩ := adjustSize_some adjust
  obtain ⟨inside, ptr, width, size⟩ := lk.measures
  have ptr2 : memSizeT ((extent xs : Int) + sizeofStructMem + newsize) = extent xs + (newsize + sizeofStructMem) :=
    memSizeT_of_lt (by omega) (by omega)
  have assert : decide (newsize ≤ b.size - sizeofStructMem) = true := decide_eq_true (by omega)
  rw [memTrim, adjust]
  simp only
  rw [if_neg inside, ptr, width, size, assert, lwipAssert_true, if_neg (by omega)]
  by_cases exact_ : newsize = b.size - sizeofStructMem
  · rw [if_pos exact_]
    have same : trimmed newsize b ys = b :: ys := by
      rw [trimmed]
      exact if_pos (.inl (by omega))
    rw [same]
    have whole : splitsLast newsize b ys = false := by
      rw [splitsLast, decide_eq_false (by omega), Bool.and_false]
    exact ⟨h, rfl, sane, .refl _ _, by rw [whole, Bool.or_false]⟩
  · rw [if_neg exact_, hb.next, ptr2]
    have more : ¬ (b.size - (newsize + sizeofStructMem) = 0) := by omega
    have bound : b.size - (newsize + sizeofStructMem) + (newsize + sizeofStructMem) = b.size := by omega
    by_cases free : ∃ c zs, ys = c :: zs ∧ c.used = false
    · -- The end goes to the free block behind.
      obtain ⟨c, zs, rfl, hc⟩ := free
      have sc := sy.head
      have behind : h.used (extent xs + b.size) = 0 := hy.1.used_eq_zero.mpr hc
      have shape : trimmed newsize b (c :: zs) = ⟨newsize + sizeofStructMem, true⟩ ::
          ⟨b.size - (newsize + sizeofStructMem) + c.size, false⟩ :: zs := by
        rw [trimmed, if_neg (by simp [hc, more])]
        simp [join, hc]
      simp only [extent] at fits
      have first : (h.lfree == extent xs + b.size) = true ↔ extent xs + (newsize + sizeofStructMem) < h.lfree := by
        have whole : xs ++ b :: c :: zs = xs ++ b :: ([] ++ c :: zs) := rfl
        have all := firstFree_append 0 xs (b :: c :: zs)
        simp only [firstFree, used, hc, if_true, Bool.false_eq_true, if_false, Nat.zero_add] at all
        have := (firstFree_bounds 0 xs).2
        rw [sane.lfree, all, beq_iff_eq]
        split <;> omega
      have sized : Sized (xs ++ ⟨newsize + sizeofStructMem, true⟩ ::
          ⟨b.size - (newsize + sizeofStructMem) + c.size, false⟩ :: zs) := by
        refine sized_append.mpr ⟨sx, sized_cons.mpr ⟨?_, sized_cons.mpr ⟨?_, sy.tail⟩⟩⟩ <;> dsimp only <;> omega
      have sep : Separated (⟨b.size - (newsize + sizeofStructMem) + c.size, false⟩ :: zs) :=
        (@Separated.right [b] _ sane.separated.right).head hc.symm
      have assert : (extent xs + b.size != memSizeAligned) = true := by
        simp only [bne_iff_ne]
        omega
      rw [if_pos behind, assert, lwipAssert_true, hy.1.next, shape]
      obtain ⟨done, keeps, failed⟩ := trim_sane sane used first hy.2 sep sized (by omega) (by omega) (by omega)
      exact ⟨_, rfl, done, keeps, by rw [failed, splitsLast, List.isEmpty_cons, Bool.false_and, Bool.or_false]⟩
    · -- Without a free block behind, the end becomes a block if it is large enough.
      have behind : h.used (extent xs + b.size) ≠ 0 := by
        cases ys with
        | nil =>
            simp only [extent, Nat.add_zero] at fits
            rw [show extent xs + b.size = memSizeAligned by omega, lk.endUsed]
            decide
        | cons c zs =>
            intro h0
            exact free ⟨c, zs, rfl, hy.1.used_eq_zero.mp h0⟩
      have head : ys.head?.all Block.used = true := by
        cases ys with
        | nil => rfl
        | cons c zs =>
            by_contra hc
            exact free ⟨c, zs, rfl, by simpa using hc⟩
      rw [if_neg behind]
      by_cases room : newsize + sizeofStructMem + minSizeAligned ≤ b.size - sizeofStructMem
      · have shape : trimmed newsize b ys =
            ⟨newsize + sizeofStructMem, true⟩ :: ⟨b.size - (newsize + sizeofStructMem), false⟩ :: ys := by
          rw [trimmed, if_neg (by simp only [not_or, not_and]; omega)]
          cases ys with
          | nil => rfl
          | cons c zs =>
              have : c.used = true := head
              simp [join, this]
        have sep : Separated (⟨b.size - (newsize + sizeofStructMem), false⟩ :: ys) := by
          refine Separated.cons_of_used (@Separated.right [b] _ sane.separated.right) head
        have sized : Sized (xs ++ ⟨newsize + sizeofStructMem, true⟩ ::
            ⟨b.size - (newsize + sizeofStructMem), false⟩ :: ys) := by
          refine sized_append.mpr ⟨sx, sized_cons.mpr ⟨?_, sized_cons.mpr ⟨?_, sy⟩⟩⟩ <;> dsimp only <;> omega
        let h₀ := h.lwipAssert (extent xs + b.size != memSizeAligned)
        have same₀ : ∀ lo hi, Same h h₀ lo hi := fun _ _ _ _ _ => rfl
        have sane₀ : Sane h₀ (xs ++ b :: ys) := sane.flag _
        have next₀ : h₀.next (extent xs) = extent xs + b.size := hb.next
        obtain ⟨done, keeps, failed⟩ := trim_sane sane₀ used (decide_eq_true_iff (p := _ < h₀.lfree))
          (hy.same sy (same₀ _ _)) sep sized (by omega) (m := extent xs + b.size) (by omega) fits
        rw [if_pos room, next₀, shape]
        refine ⟨_, rfl, done, keeps, failed.trans ?_⟩
        have last : splitsLast newsize b ys = !(extent xs + b.size != memSizeAligned) := by
          rw [splitsLast, decide_eq_true (by omega), Bool.and_true]
          cases ys with
          | nil =>
              simp only [extent, Nat.add_zero] at fits
              simp [fits, e]
          | cons c zs =>
              have := sy.head
              simp only [extent] at fits
              simp only [List.isEmpty_cons, Bool.false_eq, Bool.not_eq_false', bne_iff_ne]
              omega
        rw [last]
        rfl
      · have shape : trimmed newsize b ys = b :: ys := by
          rw [trimmed]
          exact if_pos (.inr ⟨by omega, head⟩)
        have whole : splitsLast newsize b ys = false := by
          rw [splitsLast, decide_eq_false (by omega), Bool.and_false]
        rw [if_neg room, shape]
        exact ⟨h, rfl, sane, .refl _ _, by rw [whole, Bool.or_false]⟩

theorem memTrim_grows (sane : Sane h (xs ++ b :: ys)) {newSize : UInt16} (adjust : adjustSize newSize = some newsize)
    (grows : b.size < newsize + sizeofStructMem) :
    h.memTrim ((extent xs + sizeofStructMem : Nat) : Int) newSize = (none, h.lwipAssert false) := by
  have e' : sizeofStructMem = 8 := rfl
  obtain ⟨-, -, -, -, sb, -, -⟩ := sane.linked.parts
  obtain ⟨inside, ptr, width, size⟩ := sane.linked.measures
  rw [memTrim, adjust]
  simp only
  rw [if_neg inside, ptr, width, size, if_pos (by omega), decide_eq_false (by omega)]

end Oinzen.MemHeap
