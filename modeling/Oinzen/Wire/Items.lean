import Mathlib.Data.List.ReduceOption
import Mathlib.Data.UInt
import Mathlib.Algebra.GroupWithZero.Nat

/-!
# Tagged items in a string of bytes

An item is a tag, a length and that many bytes. Two tags stand alone: one is padding, the other ends the
items. The items of a field also end where the field ends.
-/

namespace Wire

structure Format where
  pad : UInt8
  fin : UInt8
  distinct : pad ≠ fin

structure Item (F : Format) where
  tag : UInt8
  value : List UInt8
  fits : value.length < 256
  notPad : tag ≠ F.pad
  notFin : tag ≠ F.fin

variable {F : Format} {n : Nat} {tag len : UInt8} {bs : List UInt8}

def Item.encode (x : Item F) : List UInt8 := x.tag :: .ofNat x.value.length :: x.value

def Item.of (tag len : UInt8) (bs : List UInt8) (pad : tag ≠ F.pad) (fin : tag ≠ F.fin) : Item F where
  tag := tag
  value := bs.take len.toNat
  fits := Nat.lt_of_le_of_lt (List.length_take_le ..) len.toNat_lt
  notPad := pad
  notFin := fin

def encode : List (Option (Item F)) → List UInt8
  | [] => []
  | none :: xs => F.pad :: encode xs
  | some x :: xs => x.encode ++ encode xs

def readItems (F : Format) (n : Nat) : List UInt8 → Option (List (Item F))
  | [] => none
  | tag :: rest =>
      if n = 0 then some []
      else if fin : tag = F.fin then some []
      else if pad : tag = F.pad then readItems F (n - 1) rest
      else
        match rest with
        | [] => none
        | len :: rest =>
            (readItems F (n - (2 + len.toNat)) (rest.drop len.toNat)).map (Item.of tag len rest pad fin :: ·)
  termination_by bs => bs.length

theorem readItems_limit (b : UInt8) : readItems F 0 (b :: bs) = some [] := by rw [readItems, if_pos rfl]

theorem readItems_fin : readItems F n (F.fin :: bs) = some [] := by
  rw [readItems]
  by_cases h : n = 0
  · rw [if_pos h]
  · rw [if_neg h, dif_pos rfl]

theorem readItems_pad (h : n ≠ 0) : readItems F n (F.pad :: bs) = readItems F (n - 1) bs := by
  rw [readItems, if_neg h, dif_neg F.distinct, dif_pos rfl]

theorem readItems_cut (h : n ≠ 0) (fin : tag ≠ F.fin) : readItems F n [tag] = none := by
  rw [readItems, if_neg h, dif_neg fin]
  by_cases pad : tag = F.pad
  · rw [dif_pos pad, readItems]
  · rw [dif_neg pad]

theorem readItems_of (h : n ≠ 0) (pad : tag ≠ F.pad) (fin : tag ≠ F.fin) :
    readItems F n (tag :: len :: bs) =
      (readItems F (n - (2 + len.toNat)) (bs.drop len.toNat)).map (Item.of tag len bs pad fin :: ·) := by
  rw [readItems, if_neg h, dif_neg fin, dif_neg pad]

theorem length_encode (x : Item F) : x.encode.length = 2 + x.value.length := by
  simp only [Item.encode, List.length_cons]
  omega

theorem readItems_item (x : Item F) (h : n ≠ 0) :
    readItems F n (x.encode ++ bs) = (readItems F (n - x.encode.length) bs).map (x :: ·) := by
  have len : (UInt8.ofNat x.value.length).toNat = x.value.length := by
    rw [UInt8.toNat_ofNat']
    have := x.fits
    omega
  have same : Item.of x.tag (.ofNat x.value.length) (x.value ++ bs) x.notPad x.notFin = x := by
    rw [Item.of]
    simp only [len, List.take_left]
  rw [length_encode, Item.encode, List.cons_append, List.cons_append, readItems_of h x.notPad x.notFin, same, len,
    List.drop_left]

theorem encode_of (pad : tag ≠ F.pad) (fin : tag ≠ F.fin) (fits : len.toNat ≤ bs.length) :
    (Item.of tag len bs pad fin).encode = tag :: len :: bs.take len.toNat := by
  rw [Item.encode, Item.of, List.length_take, Nat.min_eq_left fits, UInt8.ofNat_toNat]

def Inside : Nat → List (Option (Item F)) → Prop
  | _, [] => True
  | n, none :: xs => n ≠ 0 ∧ Inside (n - 1) xs
  | n, some x :: xs => n ≠ 0 ∧ Inside (n - x.encode.length) xs

theorem inside_of_fits {xs : List (Option (Item F))} (fits : (encode xs).length ≤ n) : Inside n xs := by
  induction xs generalizing n with
  | nil => trivial
  | cons x xs ih =>
      cases x with
      | none =>
          rw [encode, List.length_cons] at fits
          exact ⟨by omega, ih (by omega)⟩
      | some x =>
          rw [encode, List.length_append, length_encode] at fits
          exact ⟨by omega, ih (by rw [length_encode]; omega)⟩

theorem encode_map_some (xs : List (Item F)) : encode (xs.map some) = xs.flatMap Item.encode := by
  induction xs with
  | nil => rfl
  | cons x xs ih => rw [List.map_cons, encode, ih, List.flatMap_cons]

theorem reduceOption_map_some {α : Type} (xs : List α) : (xs.map some).reduceOption = xs := by
  induction xs with
  | nil => rfl
  | cons x xs ih => rw [List.map_cons, List.reduceOption_cons_of_some, ih]

structure Layout (n : Nat) (bs : List UInt8) (xs : List (Option (Item F))) where
  tail : UInt8
  rest : List UInt8
  split : bs = encode xs ++ tail :: rest
  inside : Inside n xs
  ended : tail = F.fin ∨ n ≤ (encode xs).length

theorem Layout.read {xs : List (Option (Item F))} (l : Layout n bs xs) : readItems F n bs = some xs.reduceOption := by
  obtain ⟨tail, rest, rfl, inside, ended⟩ := l
  induction xs generalizing n with
  | nil =>
      rcases ended with rfl | done
      · exact readItems_fin
      · rw [Nat.le_zero.mp done]
        exact readItems_limit _
  | cons x xs ih =>
      cases x with
      | none =>
          have more := ih inside.2 (ended.imp_right fun h => by simp only [encode, List.length_cons] at h; omega)
          rw [encode, List.cons_append, readItems_pad inside.1, more, List.reduceOption_cons_of_none]
      | some x =>
          have more := ih inside.2 (ended.imp_right fun h => by simp only [encode, List.length_append] at h; omega)
          rw [encode, List.append_assoc, readItems_item x inside.1, more, List.reduceOption_cons_of_some]
          rfl

def Layout.of (xs : List (Item F)) (rest : List UInt8) (fits : (xs.flatMap Item.encode).length ≤ n) :
    Layout n (xs.flatMap Item.encode ++ F.fin :: rest) (xs.map some) where
  tail := F.fin
  rest := rest
  split := by rw [encode_map_some]
  inside := inside_of_fits (by rwa [encode_map_some])
  ended := Or.inl rfl

theorem exists_layout {items : List (Item F)} (h : readItems F n bs = some items) :
    ∃ xs, Nonempty (Layout n bs xs) ∧ items = xs.reduceOption := by
  fun_induction readItems F n bs generalizing items with
  | case1 => cases h
  | case2 tag rest =>
      cases h
      exact ⟨[], ⟨⟨tag, rest, rfl, trivial, Or.inr (Nat.zero_le _)⟩⟩, rfl⟩
  | case3 n rest limit =>
      cases h
      exact ⟨[], ⟨⟨F.fin, rest, rfl, trivial, Or.inl rfl⟩⟩, rfl⟩
  | case4 n rest limit fin ih =>
      obtain ⟨xs, ⟨⟨tail, rest, rfl, inside, ended⟩⟩, rfl⟩ := ih h
      refine ⟨none :: xs, ⟨⟨tail, rest, rfl, ⟨limit, inside⟩, ended.imp_right fun h => ?_⟩⟩, rfl⟩
      simp only [encode, List.length_cons]
      omega
  | case5 => cases h
  | case6 n tag limit fin pad len rest ih =>
      obtain ⟨items', read, rfl⟩ := Option.map_eq_some_iff.mp h
      obtain ⟨xs, ⟨⟨tail, more, split, inside, ended⟩⟩, rfl⟩ := ih read
      have fits : len.toNat ≤ rest.length := by
        have := congrArg List.length split
        rw [List.length_drop, List.length_append, List.length_cons] at this
        omega
      have bytes := encode_of pad fin fits
      have size : (Item.of tag len rest pad fin).encode.length = 2 + len.toNat := by
        rw [bytes, List.length_cons, List.length_cons, List.length_take, Nat.min_eq_left fits]
        omega
      refine ⟨some (Item.of tag len rest pad fin) :: xs,
        ⟨⟨tail, more, ?_, ⟨limit, ?_⟩, ended.imp_right fun h => ?_⟩⟩, rfl⟩
      · rw [encode, bytes, List.append_assoc, ← split, List.cons_append, List.cons_append, List.take_append_drop]
      · rw [size]
        exact inside
      · rw [encode, List.length_append, size]
        omega

theorem readItems_iff {items : List (Item F)} :
    readItems F n bs = some items ↔ ∃ xs, Nonempty (Layout n bs xs) ∧ items = xs.reduceOption := by
  constructor
  · exact exists_layout
  · rintro ⟨xs, ⟨l⟩, rfl⟩
    exact l.read

end Wire
