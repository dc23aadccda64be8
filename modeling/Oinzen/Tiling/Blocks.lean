import Mathlib.Data.List.Chain
import Mathlib.Algebra.GroupWithZero.Nat
import Mathlib.Logic.Function.Basic

/-!
# Blocks that tile a memory

The blocks of a memory are given from left to right by their sizes. `normalize` joins free blocks that
are neighbours. The bytes of the memory hold little-endian words of 16 bits.
-/

namespace Tiling

structure Block where
  size : Nat
  used : Bool
  deriving DecidableEq, Repr

def extent : List Block → Nat
  | [] => 0
  | b :: bs => b.size + extent bs

def places : Nat → List Block → List (Nat × Block)
  | _, [] => []
  | p, b :: bs => (p, b) :: places (p + b.size) bs

def taken (p : Nat) (bs : List Block) : List (Nat × Block) := (places p bs).filter (·.2.used)

def Separated (bs : List Block) : Prop := bs.IsChain fun a b => a.used = true ∨ b.used = true

def firstFree : Nat → List Block → Nat
  | p, [] => p
  | p, b :: bs => if b.used then firstFree (p + b.size) bs else p

def join (b : Block) : List Block → List Block
  | [] => [b]
  | c :: cs => if b.used || c.used then b :: c :: cs else ⟨b.size + c.size, false⟩ :: cs

def normalize (bs : List Block) : List Block := bs.foldr join []

/-! ## Places -/

@[simp]
theorem extent_append (xs ys : List Block) : extent (xs ++ ys) = extent xs + extent ys := by
  induction xs with
  | nil => simp [extent]
  | cons b bs ih => simp [extent, ih, Nat.add_assoc]

theorem places_append (p : Nat) (xs ys : List Block) :
    places p (xs ++ ys) = places p xs ++ places (p + extent xs) ys := by
  induction xs generalizing p with
  | nil => simp [places, extent]
  | cons b bs ih => simp [places, extent, ih, Nat.add_assoc]

theorem mem_places {p q : Nat} {b : Block} {bs : List Block} :
    (q, b) ∈ places p bs ↔ ∃ xs ys, bs = xs ++ b :: ys ∧ q = p + extent xs := by
  constructor
  · intro h
    induction bs generalizing p with
    | nil => cases h
    | cons c cs ih =>
        rcases List.mem_cons.mp h with e | h
        · cases e
          exact ⟨[], cs, rfl, rfl⟩
        · obtain ⟨xs, ys, rfl, rfl⟩ := ih h
          exact ⟨c :: xs, ys, rfl, by simp [extent, Nat.add_assoc]⟩
  · rintro ⟨xs, ys, rfl, rfl⟩
    simp [places_append, places]

theorem le_of_mem_places {p q : Nat} {b : Block} {bs : List Block} (h : (q, b) ∈ places p bs) :
    p ≤ q ∧ q + b.size ≤ p + extent bs := by
  obtain ⟨xs, ys, rfl, rfl⟩ := mem_places.mp h
  simp only [extent_append, extent]
  omega

theorem places_apart {p q r : Nat} {b c : Block} {bs : List Block} (hb : (q, b) ∈ places p bs)
    (hc : (r, c) ∈ places p bs) (ne : (q, b) ≠ (r, c)) : q + b.size ≤ r ∨ r + c.size ≤ q := by
  induction bs generalizing p with
  | nil => cases hb
  | cons d ds ih =>
      rcases List.mem_cons.mp hb with eb | hb <;> rcases List.mem_cons.mp hc with ec | hc
      · exact absurd (eb.trans ec.symm) ne
      · cases eb
        exact .inl (le_of_mem_places hc).1
      · cases ec
        exact .inr (le_of_mem_places hb).1
      · exact ih hb hc

@[simp]
theorem taken_append (p : Nat) (xs ys : List Block) :
    taken p (xs ++ ys) = taken p xs ++ taken (p + extent xs) ys := by
  simp [taken, places_append]

theorem taken_cons (p : Nat) (b : Block) (bs : List Block) :
    taken p (b :: bs) = if b.used then (p, b) :: taken (p + b.size) bs else taken (p + b.size) bs := by
  simp [taken, places, List.filter_cons]

@[simp]
theorem taken_nil (p : Nat) : taken p [] = [] := rfl

theorem taken_nodup {p : Nat} {bs : List Block} (pos : ∀ b ∈ bs, 0 < b.size) :
    ((taken p bs).map Prod.fst).Nodup := by
  induction bs generalizing p with
  | nil => simp
  | cons b bs ih =>
      have tail := ih (p := p + b.size) fun c hc => pos c (List.mem_cons_of_mem _ hc)
      rw [taken_cons]
      split
      · refine List.nodup_cons.mpr ⟨fun h => ?_, tail⟩
        obtain ⟨⟨q, c⟩, hc, rfl⟩ := List.mem_map.mp h
        have := (le_of_mem_places (List.mem_of_mem_filter hc)).1
        have := pos b List.mem_cons_self
        omega
      · exact tail

/-! ## The first free block -/

theorem firstFree_bounds (p : Nat) (bs : List Block) : p ≤ firstFree p bs ∧ firstFree p bs ≤ p + extent bs := by
  induction bs generalizing p with
  | nil => simp [firstFree, extent]
  | cons b bs ih =>
      have := ih (p + b.size)
      simp only [firstFree, extent]
      split <;> omega

theorem firstFree_cut (p : Nat) (bs : List Block) :
    ∃ us vs, bs = us ++ vs ∧ (∀ u ∈ us, u.used = true) ∧ firstFree p bs = p + extent us ∧
      ∀ v ∈ vs.head?, v.used = false := by
  induction bs generalizing p with
  | nil => exact ⟨[], [], rfl, by simp, rfl, by simp⟩
  | cons b bs ih =>
      cases hb : b.used with
      | false => exact ⟨[], b :: bs, rfl, by simp, by simp [firstFree, hb, extent], by simpa using hb⟩
      | true =>
          obtain ⟨us, vs, rfl, hus, hfirst, hvs⟩ := ih (p + b.size)
          refine ⟨b :: us, vs, rfl, ?_, ?_, hvs⟩
          · exact fun u hu => (List.mem_cons.mp hu).elim (fun e => e ▸ hb) (hus u)
          · simp [firstFree, hb, hfirst, extent, Nat.add_assoc]

theorem firstFree_of_used {xs : List Block} (h : ∀ x ∈ xs, x.used = true) (p : Nat) (ys : List Block) :
    firstFree p (xs ++ ys) = firstFree (p + extent xs) ys := by
  induction xs generalizing p with
  | nil => rfl
  | cons x xs ih =>
      simp only [List.cons_append, firstFree, h x List.mem_cons_self, if_true, extent]
      rw [ih (fun y hy => h y (List.mem_cons_of_mem _ hy)), Nat.add_assoc]

theorem firstFree_append (p : Nat) (xs ys : List Block) :
    firstFree p (xs ++ ys) = if xs.all Block.used then firstFree (p + extent xs) ys else firstFree p xs := by
  induction xs generalizing p with
  | nil => rfl
  | cons x xs ih =>
      simp only [List.cons_append, firstFree, List.all_cons, extent, ih]
      by_cases hx : x.used = true <;> simp [hx, Nat.add_assoc]

theorem firstFree_of_free {xs : List Block} {b b' : Block} (hb : b.used = false) (hb' : b'.used = false)
    (p : Nat) (ys ys' : List Block) : firstFree p (xs ++ b :: ys) = firstFree p (xs ++ b' :: ys') := by
  induction xs generalizing p with
  | nil => simp [firstFree, hb, hb']
  | cons x xs ih => simp only [List.cons_append, firstFree, ih]

theorem firstFree_release (p n : Nat) (xs ys : List Block) :
    firstFree p (xs ++ ⟨n, false⟩ :: ys) = min (firstFree p (xs ++ ⟨n, true⟩ :: ys)) (p + extent xs) := by
  induction xs generalizing p with
  | nil =>
      have := (firstFree_bounds (p + n) ys).1
      simp only [List.nil_append, firstFree, extent]
      simp
      omega
  | cons x xs ih =>
      simp only [List.cons_append, firstFree, extent]
      split
      · rw [ih, Nat.add_assoc]
      · omega

theorem firstFree_before {p : Nat} {xs ys : List Block} (h : firstFree p (xs ++ ys) < p + extent xs)
    (zs : List Block) : firstFree p (xs ++ zs) = firstFree p (xs ++ ys) := by
  induction xs generalizing p with
  | nil =>
      have := (firstFree_bounds p ys).1
      simp only [List.nil_append, extent] at h
      omega
  | cons x xs ih =>
      simp only [List.cons_append, firstFree, extent] at h ⊢
      split at h <;> rename_i hx <;> simp only [hx, if_true, Bool.false_eq_true, if_false]
      exact ih (by omega)

/-! ## Neighbours -/

theorem separated_cut {xs ys : List Block} {b : Block} :
    Separated (xs ++ b :: ys) ↔ Separated (xs ++ [b]) ∧ Separated (b :: ys) := List.isChain_split

theorem Separated.append_used {xs : List Block} (h : Separated xs) {b : Block} (hb : b.used = true) :
    Separated (xs ++ [b]) :=
  List.isChain_append.mpr ⟨h, .singleton b, fun _ _ c hc => .inr (by cases hc; exact hb)⟩

theorem Separated.left {xs ys : List Block} (h : Separated (xs ++ ys)) : Separated xs :=
  (List.isChain_append.mp h).1

theorem Separated.right {xs ys : List Block} (h : Separated (xs ++ ys)) : Separated ys :=
  (List.isChain_append.mp h).2.1

theorem Separated.cons_used {bs : List Block} (h : Separated bs) {b : Block} (hb : b.used = true) :
    Separated (b :: bs) := by
  cases bs with
  | nil => exact .singleton b
  | cons c cs => exact .cons_cons (.inl hb) h

theorem Separated.cons_of_used {bs : List Block} (h : Separated bs) {b : Block}
    (used : bs.head?.all Block.used = true) : Separated (b :: bs) := by
  cases bs with
  | nil => exact .singleton b
  | cons c cs => exact .cons_cons (.inr used) h

theorem Separated.head {bs : List Block} {b c : Block} (h : Separated (b :: bs)) (e : c.used = b.used) :
    Separated (c :: bs) := by
  cases bs with
  | nil => exact .singleton c
  | cons d ds =>
      obtain ⟨hd, hds⟩ := List.isChain_cons_cons.mp h
      exact .cons_cons (by rwa [e]) hds

/-! ## Normal form -/

theorem taken_join (p : Nat) (b : Block) (bs : List Block) : taken p (join b bs) = taken p (b :: bs) := by
  cases bs with
  | nil => rfl
  | cons c cs =>
      simp only [join]
      split
      · rfl
      · rename_i h
        obtain ⟨hb, hc⟩ : b.used = false ∧ c.used = false := by simpa using h
        simp [taken_cons, hb, hc, Nat.add_assoc]

theorem separated_join {b : Block} {bs : List Block} (h : Separated bs) : Separated (join b bs) := by
  cases bs with
  | nil => exact .singleton b
  | cons c cs =>
      simp only [join]
      split
      · rename_i hused
        exact .cons_cons (by simpa using hused) h
      · rename_i hfree
        obtain ⟨-, hc⟩ : b.used = false ∧ c.used = false := by simpa using hfree
        cases cs with
        | nil => exact .singleton _
        | cons d ds =>
            obtain ⟨hcd, hds⟩ := List.isChain_cons_cons.mp h
            exact .cons_cons (.inr (by simpa [hc] using hcd)) hds

theorem join_of_separated {b : Block} {bs : List Block} (h : Separated (b :: bs)) : join b bs = b :: bs := by
  cases bs with
  | nil => rfl
  | cons c cs =>
      have := (List.isChain_cons_cons.mp h).1
      simp only [join]
      rw [if_pos (by simpa using this)]

theorem normalize_cons (b : Block) (bs : List Block) : normalize (b :: bs) = join b (normalize bs) := rfl

theorem separated_normalize (bs : List Block) : Separated (normalize bs) := by
  induction bs with
  | nil => exact .nil
  | cons b bs ih => exact separated_join ih

@[simp]
theorem taken_normalize (p : Nat) (bs : List Block) : taken p (normalize bs) = taken p bs := by
  induction bs generalizing p with
  | nil => rfl
  | cons b bs ih => rw [normalize_cons, taken_join, taken_cons, taken_cons, ih]

theorem normalize_of_separated {bs : List Block} (h : Separated bs) : normalize bs = bs := by
  induction bs with
  | nil => rfl
  | cons b bs ih => rw [normalize_cons, ih h.tail, join_of_separated h]

theorem foldr_join_of_separated {xs ys : List Block} {b : Block} (h : Separated (xs ++ [b])) :
    xs.foldr join (b :: ys) = xs ++ b :: ys := by
  induction xs with
  | nil => rfl
  | cons x xs ih =>
      rw [List.foldr_cons, ih h.tail]
      cases xs with
      | nil =>
          have : x.used = true ∨ b.used = true := (List.isChain_cons_cons.mp h).1
          simp only [List.nil_append, join]
          rw [if_pos (by simpa using this)]
          rfl
      | cons y ys =>
          have : x.used = true ∨ y.used = true := (List.isChain_cons_cons.mp h).1
          simp only [List.cons_append, join]
          rw [if_pos (by simpa using this)]

theorem normalize_between {xs ys : List Block} {b : Block} (hys : Separated ys) :
    normalize (xs ++ b :: ys) = xs.foldr join (join b ys) := by
  rw [normalize, List.foldr_append, List.foldr_cons]
  change xs.foldr join (join b (normalize ys)) = _
  rw [normalize_of_separated hys]

theorem normal_of_taken_nil {p : Nat} {bs : List Block} (sep : Separated bs) (h : taken p bs = [])
    (ne : bs ≠ []) : bs = [⟨extent bs, false⟩] := by
  have free : ∀ b ∈ bs, b.used = false := by
    intro b hb
    obtain ⟨xs, ys, rfl⟩ := List.append_of_mem hb
    cases hused : b.used with
    | false => rfl
    | true => simp [taken_cons, hused] at h
  cases bs with
  | nil => exact absurd rfl ne
  | cons b bs =>
      have hb := free b List.mem_cons_self
      cases bs with
      | nil =>
          obtain ⟨n, u⟩ := b
          simp_all [extent]
      | cons c cs =>
          have hc := free c (List.mem_cons_of_mem _ List.mem_cons_self)
          have := (List.isChain_cons_cons.mp sep).1
          simp [hb, hc] at this

/-! ## Words -/

section

def word (ram : Nat → UInt8) (a : Nat) : Nat := (ram a).toNat + 256 * (ram (a + 1)).toNat

def setByte (ram : Nat → UInt8) (a : Nat) (v : UInt8) : Nat → UInt8 := Function.update ram a v

def setWord (ram : Nat → UInt8) (a v : Nat) : Nat → UInt8 :=
  setByte (setByte ram a (UInt8.ofNat v)) (a + 1) (UInt8.ofNat (v / 256))

variable {ram ram' : Nat → UInt8} {a b i v : Nat}

theorem word_congr (h : ram' a = ram a) (h' : ram' (a + 1) = ram (a + 1)) : word ram' a = word ram a := by
  rw [word, word, h, h']

@[simp]
theorem setByte_self (w : UInt8) : setByte ram a w a = w := Function.update_self ..

theorem setByte_of_ne (w : UInt8) (h : i ≠ a) : setByte ram a w i = ram i := Function.update_of_ne h ..

theorem word_setByte_apart (w : UInt8) (h : a < b ∨ b + 2 ≤ a) : word (setByte ram a w) b = word ram b :=
  word_congr (setByte_of_ne w (by omega)) (setByte_of_ne w (by omega))

theorem setWord_of_apart (h : i < a ∨ a + 2 ≤ i) : setWord ram a v i = ram i := by
  rw [setWord, setByte_of_ne _ (by omega), setByte_of_ne _ (by omega)]

theorem word_setWord_self (h : v < 65536) : word (setWord ram a v) a = v := by
  have low : setWord ram a v a = UInt8.ofNat v := by
    rw [setWord, setByte_of_ne _ (by omega), setByte_self]
  have high : setWord ram a v (a + 1) = UInt8.ofNat (v / 256) := setByte_self _
  rw [word, low, high, UInt8.toNat_ofNat', UInt8.toNat_ofNat']
  omega

theorem word_setWord_apart (h : a + 2 ≤ b ∨ b + 2 ≤ a) : word (setWord ram a v) b = word ram b :=
  word_congr (setWord_of_apart (by omega)) (setWord_of_apart (by omega))

end

end Tiling
