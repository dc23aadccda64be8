import Oinzen.External

/-!
# Reading and writing pbuf chains

The functions of `pbuf.c` that look at the data of a chain. They go from pbuf to pbuf; what they read
and write are the bytes of the chain as one string.
-/

namespace Oinzen

variable {p q : Pbuf} {ps qs : List Pbuf} {i n len offset start : Nat}

/-! ## The functions -/

/-- The bytes copied; their number is the value returned. -/
def pbufCopyPartial : List Pbuf → Nat → Nat → List UInt8
  | [], _, _ => []
  | p :: ps, len, offset =>
      if len = 0 then []
      else if offset ≠ 0 ∧ offset ≥ p.len then pbufCopyPartial ps len (offset - p.len)
      else
        let bufCopyLen := min (p.len - offset) len
        (List.range bufCopyLen).map (fun i => p.payload (offset + i)) ++ pbufCopyPartial ps (len - bufCopyLen) 0

/-- The pbuf that holds the byte at an offset, and the offset in it. -/
def pbufSkip : List Pbuf → Nat → List Pbuf × Nat
  | [], offset => ([], offset)
  | p :: ps, offset => if p.len ≤ offset then pbufSkip ps (offset - p.len) else (p :: ps, offset)

def pbufTryGetAt (ps : List Pbuf) (offset : Nat) : Option UInt8 :=
  match pbufSkip ps offset with
  | (q :: _, idx) => if q.len > idx then some (q.payload idx) else none
  | ([], _) => none

def pbufGetAt (ps : List Pbuf) (offset : Nat) : UInt8 := (pbufTryGetAt ps offset).getD 0

def memcmpLoop (q : List Pbuf) (start : Nat) : List UInt8 → Nat → Nat
  | [], _ => 0
  | b :: s2, i =>
      if pbufGetAt q ((start + i) % 65536) ≠ b then min (i + 1) 0xFFFF else memcmpLoop q start s2 (i + 1)

def pbufMemcmp (ps : List Pbuf) (offset : Nat) (s2 : List UInt8) : Nat :=
  if totLen ps < offset + s2.length then 0xFFFF
  else memcmpLoop (pbufSkip ps offset).1 (pbufSkip ps offset).2 s2 0

def memfindLoop (ps : List Pbuf) (mem : List UInt8) : Nat → Nat → Nat
  | 0, _ => 0xFFFF
  | n + 1, i => if pbufMemcmp ps i mem = 0 then i else memfindLoop ps mem n (i + 1)

def pbufMemfind (ps : List Pbuf) (mem : List UInt8) (startOffset : Nat) : Nat :=
  if totLen ps ≥ mem.length + startOffset then
    memfindLoop ps mem (totLen ps - mem.length + 1 - startOffset) startOffset
  else 0xFFFF

def Pbuf.write (p : Pbuf) (offset : Nat) (data : List UInt8) (n : Nat) : Pbuf :=
  { p with payload := memcpy p.payload offset (fun i => data.getD i 0) 0 n }

/-- A pbuf of the target after a piece of a source pbuf is copied in. -/
def Pbuf.filled (t f : Pbuf) (offsetTo offsetFrom n : Nat) : Pbuf :=
  { t with payload := memcpy t.payload offsetTo f.payload offsetFrom n }

theorem getElem?_bytes (row : Nat → UInt8) (n i : Nat) : (bytes row n)[i]? = if i < n then some (row i) else none := by
  by_cases h : i < n <;> simp [bytes, h]

theorem take_drop_bytes (row : Nat → UInt8) (h : offset + n ≤ len) :
    ((bytes row len).drop offset).take n = (List.range n).map fun i => row (offset + i) := by
  refine List.ext_getElem? fun i => ?_
  rw [List.getElem?_take]
  by_cases hi : i < n
  · rw [if_pos hi, List.getElem?_drop, getElem?_bytes, if_pos (by omega)]
    simp [hi]
  · rw [if_neg hi]
    simp [hi]

theorem drop_chainBytes_cons (h : p.len ≤ offset) :
    (chainBytes (p :: ps)).drop offset = (chainBytes ps).drop (offset - p.len) := by
  rw [chainBytes_cons, List.drop_append, length_bytes, List.drop_of_length_le (by simpa using h), List.nil_append]

/-! ## Reading -/

theorem pbufCopyPartial_eq (ps : List Pbuf) (len offset : Nat) :
    pbufCopyPartial ps len offset = ((chainBytes ps).drop offset).take len := by
  induction ps generalizing len offset with
  | nil => simp [pbufCopyPartial, chainBytes]
  | cons p ps ih =>
      rw [pbufCopyPartial]
      by_cases hlen : len = 0
      · simp [hlen]
      rw [if_neg hlen]
      by_cases skip : offset ≠ 0 ∧ offset ≥ p.len
      · rw [if_pos skip, ih, drop_chainBytes_cons skip.2]
      · have fits : offset ≤ p.len := by omega
        have piece := @take_drop_bytes (min (p.len - offset) len) p.len offset p.payload (by omega)
        rw [if_neg skip]
        dsimp only
        rw [ih, ← piece, chainBytes_cons, List.drop_append_of_le_length (by simpa using fits), List.take_append,
          List.length_drop, length_bytes, List.drop_zero]
        congr 1
        · by_cases less : p.len - offset ≤ len
          · rw [Nat.min_eq_left less, List.take_of_length_le (by simp), List.take_of_length_le (by simpa using less)]
          · rw [Nat.min_eq_right (by omega)]
        · by_cases less : p.len - offset ≤ len
          · rw [Nat.min_eq_left less]
          · rw [Nat.min_eq_right (by omega), show len - len = len - (p.len - offset) by omega]

theorem pbufSkip_drop (ps : List Pbuf) (offset : Nat) :
    (chainBytes (pbufSkip ps offset).1).drop (pbufSkip ps offset).2 = (chainBytes ps).drop offset := by
  induction ps generalizing offset with
  | nil => simp [pbufSkip, chainBytes]
  | cons p ps ih =>
      rw [pbufSkip]
      by_cases skip : p.len ≤ offset
      · rw [if_pos skip, drop_chainBytes_cons skip]
        exact ih _
      · rw [if_neg skip]

theorem pbufSkip_inside (ps : List Pbuf) (offset : Nat) :
    ∀ q ∈ (pbufSkip ps offset).1.head?, (pbufSkip ps offset).2 < q.len := by
  induction ps generalizing offset with
  | nil => simp [pbufSkip]
  | cons p ps ih =>
      rw [pbufSkip]
      by_cases skip : p.len ≤ offset
      · rw [if_pos skip]
        exact ih _
      · rw [if_neg skip]
        simpa using skip

theorem pbufSkip_prefix (ps : List Pbuf) (offset : Nat) :
    ∃ pre, ps = pre ++ (pbufSkip ps offset).1 ∧ offset = totLen pre + (pbufSkip ps offset).2 := by
  induction ps generalizing offset with
  | nil => exact ⟨[], rfl, by simp [pbufSkip, totLen]⟩
  | cons p ps ih =>
      rw [pbufSkip]
      by_cases skip : p.len ≤ offset
      · rw [if_pos skip]
        obtain ⟨pre, e, used⟩ := ih (offset - p.len)
        refine ⟨p :: pre, by rw [List.cons_append, ← e], ?_⟩
        rw [totLen_cons]
        omega
      · rw [if_neg skip]
        exact ⟨[], rfl, by simp [totLen]⟩

theorem pbufTryGetAt_eq (ps : List Pbuf) (offset : Nat) : pbufTryGetAt ps offset = (chainBytes ps)[offset]? := by
  have same := pbufSkip_drop ps offset
  have inside := pbufSkip_inside ps offset
  have first : (chainBytes ps)[offset]? = (chainBytes (pbufSkip ps offset).1)[(pbufSkip ps offset).2]? := by
    have := congrArg (·[0]?) same
    simpa [List.getElem?_drop] using this.symm
  rw [first, pbufTryGetAt]
  cases e : pbufSkip ps offset with
  | mk qs idx =>
      rw [e] at inside
      cases qs with
      | nil => simp [chainBytes]
      | cons q qs =>
          have : idx < q.len := inside q rfl
          simp only
          rw [if_pos this, chainBytes_cons, List.getElem?_append_left (by simpa using this), getElem?_bytes,
            if_pos this]

theorem memcmpLoop_eq_zero {q : List Pbuf} {s2 : List UInt8} (fits : start + i + s2.length ≤ totLen q)
    (small : totLen q < 65536) : memcmpLoop q start s2 i = 0 ↔
      ((chainBytes q).drop (start + i)).take s2.length = s2 := by
  induction s2 generalizing i with
  | nil => simp [memcmpLoop]
  | cons b s2 ih =>
      simp only [List.length_cons] at fits
      have inside : start + i < (chainBytes q).length := by
        rw [length_chainBytes]
        omega
      have here : pbufGetAt q ((start + i) % 65536) = (chainBytes q)[start + i] := by
        rw [pbufGetAt, pbufTryGetAt_eq, Nat.mod_eq_of_lt (by omega), List.getElem?_eq_getElem inside, Option.getD_some]
      rw [memcmpLoop, here, List.drop_eq_getElem_cons inside, List.length_cons, List.take_succ_cons, List.cons.injEq]
      by_cases equal : (chainBytes q)[start + i] = b
      · rw [if_neg (by simpa using equal), ih (i := i + 1) (by omega)]
        exact ⟨fun h => ⟨equal, h⟩, fun h => h.2⟩
      · rw [if_pos equal]
        exact ⟨fun h => by omega, fun h => absurd h.1 equal⟩

theorem pbufMemcmp_eq_zero (ps : List Pbuf) (offset : Nat) (s2 : List UInt8) (small : totLen ps < 65536) :
    pbufMemcmp ps offset s2 = 0 ↔ offset + s2.length ≤ totLen ps ∧
      ((chainBytes ps).drop offset).take s2.length = s2 := by
  obtain ⟨pre, whole, used⟩ := pbufSkip_prefix ps offset
  have same := pbufSkip_drop ps offset
  have lengths : totLen ps = totLen pre + totLen (pbufSkip ps offset).1 := by rw [← totLen_append, ← whole]
  rw [pbufMemcmp]
  by_cases short : totLen ps < offset + s2.length
  · rw [if_pos short]
    exact ⟨fun h => (by cases h), fun h => by omega⟩
  · rw [if_neg short, memcmpLoop_eq_zero (by omega) (by omega), Nat.add_zero, same]
    exact ⟨fun h => ⟨by omega, h⟩, fun h => h.2⟩

theorem memfindLoop_spec (ps : List Pbuf) (mem : List UInt8) (n i : Nat) :
    (∃ j, i ≤ j ∧ j < i + n ∧ memfindLoop ps mem n i = j ∧ pbufMemcmp ps j mem = 0 ∧
        ∀ k, i ≤ k → k < j → pbufMemcmp ps k mem ≠ 0) ∨
      memfindLoop ps mem n i = 0xFFFF ∧ ∀ k, i ≤ k → k < i + n → pbufMemcmp ps k mem ≠ 0 := by
  induction n generalizing i with
  | zero => exact .inr ⟨rfl, fun k hk hk' => by omega⟩
  | succ n ih =>
      rw [memfindLoop]
      by_cases found : pbufMemcmp ps i mem = 0
      · rw [if_pos found]
        exact .inl ⟨i, Nat.le_refl i, by omega, rfl, found, fun k hk hk' => by omega⟩
      · rw [if_neg found]
        have later : ∀ k, i ≤ k → (i + 1 ≤ k → pbufMemcmp ps k mem ≠ 0) → pbufMemcmp ps k mem ≠ 0 := by
          intro k hk h
          rcases Nat.eq_or_lt_of_le hk with rfl | lt
          · exact found
          · exact h lt
        rcases ih (i + 1) with ⟨j, hj, hj', e, hit, first⟩ | ⟨e, none⟩
        · exact .inl ⟨j, by omega, by omega, e, hit, fun k hk hk' => later k hk fun h => first k h hk'⟩
        · exact .inr ⟨e, fun k hk hk' => later k hk fun h => none k h (by omega)⟩

/-- The bytes `mem` stand in the chain from offset `j` on. -/
def Occurs (ps : List Pbuf) (mem : List UInt8) (j : Nat) : Prop :=
  j + mem.length ≤ totLen ps ∧ ((chainBytes ps).drop j).take mem.length = mem

theorem pbufMemcmp_occurs (small : totLen ps < 65536) (mem : List UInt8) (j : Nat) :
    pbufMemcmp ps j mem = 0 ↔ Occurs ps mem j := pbufMemcmp_eq_zero ps j mem small

/-- `pbuf_memfind` finds the first place where the bytes occur, wherever the pbufs are cut. -/
theorem pbufMemfind_spec (ps : List Pbuf) (mem : List UInt8) (start : Nat) (small : totLen ps ≤ 0xFFFF) :
    ((∃ j, start ≤ j ∧ Occurs ps mem j ∧ (∀ k, start ≤ k → k < j → ¬ Occurs ps mem k) ∧ pbufMemfind ps mem start = j) ∨
      (∀ k, start ≤ k → ¬ Occurs ps mem k) ∧ pbufMemfind ps mem start = 0xFFFF) ∧
    (totLen ps < 0xFFFF ∨ mem ≠ [] →
      (pbufMemfind ps mem start = 0xFFFF ↔ ∀ k, start ≤ k → ¬ Occurs ps mem k)) := by
  have compare := @pbufMemcmp_occurs ps (by omega) mem
  have found : (∃ j, start ≤ j ∧ Occurs ps mem j ∧ (∀ k, start ≤ k → k < j → ¬ Occurs ps mem k) ∧
      pbufMemfind ps mem start = j) ∨ (∀ k, start ≤ k → ¬ Occurs ps mem k) ∧ pbufMemfind ps mem start = 0xFFFF := by
    rw [pbufMemfind]
    by_cases room : totLen ps ≥ mem.length + start
    · rw [if_pos room]
      rcases memfindLoop_spec ps mem (totLen ps - mem.length + 1 - start) start with
        ⟨j, hj, -, e, hit, first⟩ | ⟨e, none⟩
      · exact .inl ⟨j, hj, (compare j).mp hit, fun k hk hk' h => first k hk hk' ((compare k).mpr h), e⟩
      · refine .inr ⟨fun k hk h => none k hk ?_ ((compare k).mpr h), e⟩
        have := h.1
        omega
    · rw [if_neg room]
      refine .inr ⟨fun k hk h => ?_, rfl⟩
      have := h.1
      omega
  refine ⟨found, fun less => ?_⟩
  rcases found with ⟨j, hj, occurs, -, e⟩ | ⟨none, e⟩
  · -- A place is no larger than the chain, and 0xFFFF is one only for no bytes at the end of the largest chain.
    have inside := occurs.1
    have : j ≠ 0xFFFF := by
      rintro rfl
      rcases less with less | nonempty
      · omega
      · have := List.length_pos_iff.mpr nonempty
        omega
    rw [e]
    exact ⟨fun h => absurd h this, fun h => absurd occurs (h j hj)⟩
  · exact ⟨fun _ => none, fun _ => e⟩

def straddling : List Pbuf := [⟨2, fun i => if i = 1 then 7 else 0⟩, ⟨2, fun i => if i = 0 then 8 else 0⟩]

theorem pbufMemfind_spec_straddling :
    ((∃ j, 0 ≤ j ∧ Occurs straddling [7, 8] j ∧ (∀ k, 0 ≤ k → k < j → ¬ Occurs straddling [7, 8] k) ∧
        pbufMemfind straddling [7, 8] 0 = j) ∨
      (∀ k, 0 ≤ k → ¬ Occurs straddling [7, 8] k) ∧ pbufMemfind straddling [7, 8] 0 = 0xFFFF) ∧
    (pbufMemfind straddling [7, 8] 0 = 0xFFFF ↔ ∀ k, 0 ≤ k → ¬ Occurs straddling [7, 8] k) := by
  obtain ⟨found, none⟩ := pbufMemfind_spec straddling [7, 8] 0 (by decide)
  exact ⟨found, none (.inl (by decide))⟩

/-! ## Writing -/

section

variable {t f : Pbuf} {ts fs r : List Pbuf} {n m offsetTo offsetFrom : Nat}

end

end Oinzen
