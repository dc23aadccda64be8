import Oinzen.Pbuf.Node
import Oinzen.Sharing.Moves
import Mathlib.Data.UInt
import Mathlib.Data.List.ReduceOption

/-!
# The loops over pbufs

What each loop does to the pbufs on a path, and that it ends.
-/

namespace Oinzen.PbufMem

open Sharing

variable {m : PbufMem} {p q t x l : Nat} {r : Option Nat} {xs as : List Nat} {fuel : Nat}

theorem update_self (p : Nat) (f : PbufNode → PbufNode) (m : PbufMem) : (m.update p f).node p = f (m.node p) :=
  Function.update_self ..

theorem update_of_ne (h : x ≠ p) (f : PbufNode → PbufNode) (m : PbufMem) : (m.update p f).node x = m.node x :=
  Function.update_of_ne h _ _

theorem next_update {f : PbufNode → PbufNode} (same : ∀ n, (f n).next = n.next) : (m.update p f).next = m.next := by
  funext x
  by_cases h : x = p
  · subst h
    rw [next, update_self, same, next]
  · rw [next, update_of_ne h, next]

theorem next_setNext (p : Nat) (q : Option Nat) (m : PbufMem) : (m.setNext p q).next = Function.update m.next p q := by
  funext x
  by_cases h : x = p
  · subst h
    rw [Function.update_self, next, setNext, update_self]
  · rw [Function.update_of_ne h, next, setNext, update_of_ne h, next]

section

variable {payload : Int} {totLen len : UInt16} {type : PbufType} {isCustom : Bool}

theorem init_self : (m.pbufInitAllocedPbuf p payload totLen len type isCustom).node p =
    ⟨none, payload, totLen, len, type, isCustom, 1⟩ :=
  Function.update_self ..

theorem init_of_ne (h : x ≠ p) : (m.pbufInitAllocedPbuf p payload totLen len type isCustom).node x = m.node x :=
  Function.update_of_ne h _ _

theorem init_path : Path (m.pbufInitAllocedPbuf p payload totLen len type isCustom).next (some p) [p] := by
  apply Path.cons
  rw [next, init_self]
  exact .nil

end

theorem lwipAssert_true {c : Bool} (h : c = true) (m : PbufMem) : m.lwipAssert c = m := by
  rw [lwipAssert, h]
  simp

/-! ## The memory of a pbuf -/

/-- A pbuf whose data lie behind its struct describes bytes of its own memory; `room` is that of a pbuf of the
heap. -/
structure Inside (room x : Nat) (n : PbufNode) : Prop where
  front : n.isCustom = false → n.type.contiguous = true → (x + sizeofStructPbuf : Nat) ≤ n.payload
  pool : n.isCustom = false → n.type = .pool →
    n.payload + n.len.toNat ≤ (x + sizeofStructPbuf + pbufPoolBufsizeAligned : Nat)
  heap : n.isCustom = false → n.type = .ram → n.payload + n.len.toNat ≤ (x + room : Nat) ∧ room < 65536

structure Within (n n' : PbufNode) : Prop where
  type : n'.type = n.type
  isCustom : n'.isCustom = n.isCustom
  payload : n'.payload = n.payload
  len : n'.len ≤ n.len

theorem Within.inside {n n' : PbufNode} {room : Nat} (w : Within n n') (i : Inside room x n) : Inside room x n' := by
  have len := UInt16.le_iff_toNat_le.mp w.len
  refine ⟨fun own contiguous => ?_, fun own pool => ?_, fun own ram => ?_⟩
  · rw [w.payload]
    exact i.front (w.isCustom ▸ own) (w.type ▸ contiguous)
  · have limit := i.pool (w.isCustom ▸ own) (w.type ▸ pool)
    rw [w.payload]
    omega
  · have limit := i.heap (w.isCustom ▸ own) (w.type ▸ ram)
    rw [w.payload]
    omega

def Safe (m m' : PbufMem) : Prop := ∀ x, Inside (m.heap x) x (m.node x) → Inside (m'.heap x) x (m'.node x)

theorem Safe.refl (m : PbufMem) : Safe m m := fun _ i => i

theorem Safe.trans {m' m'' : PbufMem} (a : Safe m m') (b : Safe m' m'') : Safe m m'' := fun x i => b x (a x i)

theorem safe_update {f : PbufNode → PbufNode}
    (inside : Inside (m.heap p) p (m.node p) → Inside (m.heap p) p (f (m.node p))) : Safe m (m.update p f) :=
      fun x i => by
  by_cases h : x = p
  · subst h
    rw [update_self]
    exact inside i
  · rw [update_of_ne h]
    exact i

theorem safe_within {f : PbufNode → PbufNode} (w : Within (m.node p) (f (m.node p))) : Safe m (m.update p f) :=
  safe_update w.inside

theorem safe_setNext : Safe m (m.setNext p r) := safe_within ⟨rfl, rfl, rfl, UInt16.le_refl _⟩
theorem safe_setTotLen {totLen : UInt16} : Safe m (m.setTotLen p totLen) :=
  safe_within ⟨rfl, rfl, rfl, UInt16.le_refl _⟩
theorem safe_setRef {ref : UInt8} : Safe m (m.setRef p ref) := safe_within ⟨rfl, rfl, rfl, UInt16.le_refl _⟩
theorem safe_assert {c : Bool} : Safe m (m.lwipAssert c) := .refl m

/-! ## Freeing -/

theorem freePass_spec {k : Nat} (refs : (m.node p).ref.toNat = k + 1) :
    ∃ m', freePass p m = (decide (k = 0), m') ∧ m'.next = m.next ∧ m'.failed = m.failed ∧
      m'.traffic = (if k = 0 then m.traffic ++ [.released p] else m.traffic) ∧
      m'.node p = { m.node p with ref := .ofNat k } ∧ ∀ x, x ≠ p → m'.node x = m.node x := by
  have positive : (m.node p).ref > 0 := by
    apply UInt8.lt_iff_toNat_lt.mpr
    rw [refs]
    exact Nat.succ_pos k
  have less : (m.node p).ref - 1 = .ofNat k := by
    apply UInt8.toNat_inj.mp
    have one : (1 : UInt8) ≤ (m.node p).ref := by
      apply UInt8.le_iff_toNat_le.mpr
      rw [refs]
      exact Nat.succ_le_succ (Nat.zero_le k)
    have small := (m.node p).ref.toNat_lt
    rw [UInt8.toNat_sub_of_le _ _ one, refs, UInt8.toNat_ofNat', Nat.mod_eq_of_lt (by omega)]
    rfl
  have links : (m.setRef p ((m.node p).ref - 1)).next = m.next := next_update fun _ => rfl
  have here : (m.setRef p ((m.node p).ref - 1)).node p = { m.node p with ref := .ofNat k } := by
    rw [setRef, update_self, less]
  have others : ∀ x, x ≠ p → (m.setRef p ((m.node p).ref - 1)).node x = m.node x := fun x hx => update_of_ne hx _ _
  have zero_iff : ((m.setRef p ((m.node p).ref - 1)).node p).ref = 0 ↔ k = 0 := by
    have small := (m.node p).ref.toNat_lt
    rw [here]
    simp only
    rw [← UInt8.toNat_inj, UInt8.toNat_ofNat', Nat.mod_eq_of_lt (by omega)]
    rfl
  rw [freePass, lwipAssert_true (by simpa using positive)]
  dsimp only
  by_cases zero : k = 0
  · rw [if_pos (zero_iff.mpr zero), decide_eq_true zero, if_pos zero]
    exact ⟨_, rfl, links, rfl, rfl, here, others⟩
  · rw [if_neg fun h => zero (zero_iff.mp h), decide_eq_false zero, if_neg zero]
    exact ⟨_, rfl, links, rfl, rfl, here, others⟩

theorem freeLoop_alone (path : Path m.next r xs) (once : ∀ x ∈ xs, (m.node x).ref = 1) (enough : xs.length ≤ fuel)
    (count : UInt8) :
    ∃ c m', freeLoop fuel r count m = some (c, m') ∧ m'.traffic = m.traffic ++ xs.map .released ∧ m'.failed = m.failed ∧
      ∀ x, x ∉ xs → m'.node x = m.node x := by
  induction xs generalizing fuel m r count with
  | nil =>
      cases path
      exact ⟨count, m, by cases fuel <;> rfl, (List.append_nil _).symm, rfl, fun _ _ => rfl⟩
  | cons y xs ih =>
      obtain ⟨fuel, rfl⟩ : ∃ n, fuel = n + 1 := ⟨fuel - 1, by rw [List.length_cons] at enough; omega⟩
      have apart := (List.nodup_cons.mp path.nodup).1
      cases path with
      | cons path =>
          obtain ⟨m₁, pass, links, failed₁, traffic₁, -, others₁⟩ :=
            @freePass_spec m y 0 (by rw [once y List.mem_cons_self]; rfl)
          have rest : ∀ x ∈ xs, (m₁.node x).ref = 1 := fun x hx => by
            rw [others₁ x (ne_of_mem_of_not_mem hx apart), once x (List.mem_cons_of_mem _ hx)]
          rw [← links] at path
          obtain ⟨c, m', e, traffic, failed, others⟩ := ih path rest (Nat.le_of_succ_le_succ enough) (count + 1)
          refine ⟨c, m', ?_, ?_, failed.trans failed₁, fun x hx => ?_⟩
          · rw [freeLoop, pass]
            exact e
          · rw [traffic, traffic₁, if_pos rfl, List.append_assoc]
            rfl
          · obtain ⟨other, hx⟩ := List.ne_and_not_mem_of_not_mem_cons hx
            rw [others x hx, others₁ x other]

def lens (m : PbufMem) (xs : List Nat) : Nat := (xs.map fun x => (m.node x).len.toNat).sum

/-! ## Allocation -/

/-- The total lengths along a chain that goes on for `rest` bytes. -/
def Totals (m : PbufMem) (rest : Nat) : List Nat → Prop
  | [] => True
  | x :: xs => (m.node x).totLen.toNat = m.lens (x :: xs) + rest ∧ Totals m rest xs

theorem lens_append (m : PbufMem) (xs ys : List Nat) : m.lens (xs ++ ys) = m.lens xs + m.lens ys := by
  rw [lens, List.map_append, List.sum_append, lens, lens]

theorem lens_congr {m' : PbufMem} (same : ∀ x ∈ xs, (m'.node x).len = (m.node x).len) : m'.lens xs = m.lens xs :=
  congrArg List.sum (List.map_congr_left fun x hx => congrArg UInt16.toNat (same x hx))

theorem Totals.congr {m' : PbufMem} {rest : Nat} (totals : Totals m rest xs)
    (same : ∀ x ∈ xs, (m'.node x).len = (m.node x).len ∧ (m'.node x).totLen = (m.node x).totLen) :
      Totals m' rest xs := by
  induction xs with
  | nil => trivial
  | cons x xs ih =>
      obtain ⟨here, totals⟩ := totals
      refine ⟨?_, ih totals fun y hy => same y (List.mem_cons_of_mem _ hy)⟩
      rw [(same x List.mem_cons_self).2, here, lens_congr fun y hy => (same y hy).1]

theorem Totals.snoc {rest : Nat} (totals : Totals m (m.node q).totLen.toNat xs)
    (part : (m.node q).totLen.toNat = (m.node q).len.toNat + rest) : Totals m rest (xs ++ [q]) := by
  induction xs with
  | nil => exact ⟨part, trivial⟩
  | cons x xs ih =>
      obtain ⟨here, totals⟩ := totals
      refine ⟨?_, ih totals⟩
      have bytes : m.lens ((x :: xs) ++ [q]) = m.lens (x :: xs) + (m.node q).len.toNat := lens_append m (x :: xs) [q]
      rw [here, part, ← Nat.add_assoc, ← bytes]
      rfl

theorem poolAppend_spec {remLen : UInt16} {offset : Nat} (path : Path m.next as.head? as) (fresh : q ∉ as) :
    let m' := poolAppend as.getLast? q remLen offset m
    Path m'.next (some (as.head?.getD q)) (as ++ [q]) ∧ (m'.node q).ref = 1 ∧ (m'.node q).totLen = remLen ∧
      (m'.node q).len = poolLen remLen offset ∧ m'.failed = m.failed ∧ m'.traffic = m.traffic ++ [.taken q] ∧
      (∀ x ∈ as, ∃ next, m'.node x = { m.node x with next := next }) ∧ ∀ x, x ∉ as → x ≠ q → m'.node x = m.node x := by
  intro m'
  generalize new : m.pbufInitAllocedPbuf q (lwipMemAlignSize (q + sizeofStructPbuf + offset)) remLen
    (poolLen remLen offset) .pool false = m₁
  have here : m₁.node q =
      ⟨none, lwipMemAlignSize (q + sizeofStructPbuf + offset), remLen, poolLen remLen offset, .pool, false, 1⟩ := by
    rw [← new]
    exact init_self
  have others : ∀ x, x ≠ q → m₁.node x = m.node x := fun x hx => by
    rw [← new]
    exact init_of_ne hx
  have alone : Path m₁.next (some q) [q] := new ▸ init_path
  have failed : m₁.failed = m.failed := new ▸ rfl
  have traffic : m₁.traffic = m.traffic ++ [.taken q] := new ▸ rfl
  rcases List.eq_nil_or_concat as with rfl | ⟨bs, l, rfl⟩
  · have same : m' = m₁ := new
    rw [same, here]
    exact ⟨alone, rfl, rfl, rfl, failed, traffic, fun x hx => (by cases hx), fun x _ hx => others x hx⟩
  · rw [List.concat_eq_append] at path fresh ⊢
    have cut : m' = m₁.setNext l (some q) := by
      rw [← new]
      simp [m', poolAppend]
    have hl : l ≠ q := fun h => fresh (by simp [h])
    have path₁ : Path m₁.next (bs ++ [l]).head? (bs ++ [l]) :=
      path.congr fun x hx => congrArg PbufNode.next (others x (ne_of_mem_of_not_mem hx fresh))
    have linked := path₁.extend path₁.last (by simp) alone (by simpa using hl)
    obtain ⟨h, head⟩ : ∃ h, (bs ++ [l]).head? = some h := by
      cases bs <;> exact ⟨_, rfl⟩
    have there : m'.node q = m₁.node q := by rw [cut, setNext, update_of_ne hl.symm]
    rw [there, here]
    refine ⟨?_, rfl, rfl, rfl, cut ▸ failed, cut ▸ traffic, fun x hx => ?_, fun x hx hxq => ?_⟩
    · rw [cut, next_setNext, head]
      rwa [head] at linked
    · by_cases final : x = l
      · subst final
        exact ⟨some q, by rw [cut, setNext, update_self, others x hl]⟩
      · exact ⟨(m.node x).next, by rw [cut, setNext, update_of_ne final, others x (ne_of_mem_of_not_mem hx fresh)]⟩
    · have other : x ≠ l := fun h => hx (by simp [h])
      rw [cut, setNext, update_of_ne other, others x hxq]

theorem poolLen_le (remLen : UInt16) (offset : Nat) : poolLen remLen offset ≤ remLen := by
  rw [poolLen]
  split
  · exact UInt16.le_refl _
  · exact UInt16.not_lt.mp ‹_›

structure Built (m : PbufMem) (p : Nat) (qs : List Nat) (length : Nat) : Prop where
  path : Path m.next (some p) qs
  once : ∀ x ∈ qs, (m.node x).ref = 1
  totals : Totals m 0 qs
  bytes : m.lens qs = length

theorem poolLoop_spec {gets : List (Option Nat)} {remLen : UInt16} {offset : Nat} {m' : PbufMem}
    (e : poolLoop fuel as.head? as.getLast? remLen offset m gets = some (r, m')) (path : Path m.next as.head? as)
    (once : ∀ x ∈ as, (m.node x).ref = 1) (totals : Totals m remLen.toNat as) (fresh : ∀ x, some x ∈ gets → x ∉ as)
    (distinct : gets.reduceOption.Nodup) (enough : as.length + gets.length ≤ fuel) :
    m'.failed = m.failed ∧ (∀ x, x ∉ as → some x ∉ gets → m'.node x = m.node x) ∧
      ∃ qs : List Nat, (∀ q ∈ qs, some q ∈ gets) ∧ qs.Nodup ∧
        (r = none → m'.traffic = m.traffic ++ qs.map .taken ++ (as ++ qs).map .released) ∧
        ∀ p, r = some p → m'.traffic = m.traffic ++ qs.map .taken ∧
          Built m' p (as ++ qs) (m.lens as + remLen.toNat) := by
  induction gets generalizing as remLen offset m with
  | nil => cases e
  | cons get gets ih =>
      cases get with
      | none =>
          rw [poolLoop] at e
          cases head : as.head? with
          | none =>
              rw [head, poolFails] at e
              cases e
              rw [List.head?_eq_none_iff.mp head]
              exact ⟨rfl, fun _ _ _ => rfl, [], fun q hq => (by cases hq), List.nodup_nil, fun _ => (by simp),
                fun p h => by cases h⟩
          | some p =>
              rw [head] at path
              obtain ⟨c, m₁, freed, traffic, failed, others⟩ :=
                freeLoop_alone path once ((Nat.le_add_right ..).trans enough) 0
              rw [head, poolFails] at e
              simp only [pbufFree, freed, Option.map_some, Option.some.injEq, Prod.mk.injEq] at e
              obtain ⟨rfl, rfl⟩ := e
              exact ⟨failed, fun x hx _ => others x hx, [], fun q hq => (by cases hq), List.nodup_nil,
                fun _ => (by simpa using traffic), fun p h => by cases h⟩
      | some q =>
          have hq : q ∉ as := fresh q List.mem_cons_self
          have distinct' : q ∉ gets.reduceOption ∧ gets.reduceOption.Nodup := by
            rwa [List.reduceOption_cons_of_some, List.nodup_cons] at distinct
          have later : some q ∉ gets := fun h => distinct'.1 (List.reduceOption_mem_iff.mpr h)
          obtain ⟨path₁, ref₁, total₁, len₁, failed₁, traffic₁, built₁, others₁⟩ :=
            @poolAppend_spec m q as remLen offset path hq
          rw [poolLoop] at e
          generalize poolAppend as.getLast? q remLen offset m = m₁ at e path₁ ref₁ total₁ len₁ failed₁ traffic₁ built₁ others₁
          have small := UInt16.le_iff_toNat_le.mp (poolLen_le remLen offset)
          have left : (remLen - poolLen remLen offset).toNat = remLen.toNat - (poolLen remLen offset).toNat :=
            UInt16.toNat_sub_of_le _ _ (poolLen_le remLen offset)
          have kept : ∀ x ∈ as, (m₁.node x).len = (m.node x).len ∧ (m₁.node x).totLen = (m.node x).totLen ∧
              (m₁.node x).ref = (m.node x).ref := fun x hx => by
            obtain ⟨next, same⟩ := built₁ x hx
            rw [same]
            exact ⟨rfl, rfl, rfl⟩
          have once₁ : ∀ x ∈ as ++ [q], (m₁.node x).ref = 1 := fun x hx => by
            rcases List.mem_append.mp hx with old | new
            · rw [(kept x old).2.2, once x old]
            · rw [List.mem_singleton.mp new, ref₁]
          have totals₁ : Totals m₁ (remLen - poolLen remLen offset).toNat (as ++ [q]) := by
            apply Totals.snoc
            · rw [total₁]
              exact totals.congr fun x hx => ⟨(kept x hx).1, (kept x hx).2.1⟩
            · rw [total₁, len₁, left]
              omega
          have bytes₁ : m₁.lens (as ++ [q]) = m.lens as + (poolLen remLen offset).toNat := by
            have alone : m₁.lens [q] = (poolLen remLen offset).toNat := by
              rw [lens, List.map_singleton, List.sum_singleton, len₁]
            rw [lens_append, lens_congr fun x hx => (kept x hx).1, alone]
          have head₁ : (as ++ [q]).head? = some (as.head?.getD q) := by
            cases as <;> rfl
          have last₁ : (as ++ [q]).getLast? = some q := by simp
          by_cases more : remLen - poolLen remLen offset > 0
          · rw [if_pos more, ← head₁, ← last₁] at e
            obtain ⟨failed, others, qs, used, nodup, fails, built⟩ := ih e (head₁ ▸ path₁) once₁ totals₁
              (fun x hx h => by
                rcases List.mem_append.mp h with old | new
                · exact fresh x (List.mem_cons_of_mem _ hx) old
                · exact later (List.mem_singleton.mp new ▸ hx))
              distinct'.2 (by simp only [List.length_append, List.length_cons, List.length_nil] at enough ⊢; omega)
            refine ⟨failed.trans failed₁, fun x hx hg => ?_, q :: qs, fun y hy => ?_, ?_, fun hr => ?_, fun p hp => ?_⟩
            · obtain ⟨hxq, hg⟩ := List.ne_and_not_mem_of_not_mem_cons hg
              have other : x ≠ q := fun h => hxq (congrArg some h)
              rw [others x (by simp [hx, other]) hg, others₁ x hx other]
            · rcases List.mem_cons.mp hy with rfl | hy
              · exact List.mem_cons_self
              · exact List.mem_cons_of_mem _ (used y hy)
            · exact List.nodup_cons.mpr ⟨fun h => later (used q h), nodup⟩
            · rw [fails hr, traffic₁]
              simp
            · obtain ⟨traffic, done⟩ := built p hp
              rw [bytes₁, left, List.append_assoc, Nat.add_assoc, Nat.add_sub_cancel' small] at done
              refine ⟨?_, done⟩
              rw [traffic, traffic₁]
              simp
          · have none_left : (remLen - poolLen remLen offset).toNat = 0 := by
              have := UInt16.not_lt.mp more
              exact Nat.le_zero.mp (UInt16.le_iff_toNat_le.mp this)
            rw [if_neg more] at e
            cases e
            refine ⟨failed₁, fun x hx hg => ?_, [q], fun y hy => ?_, List.nodup_singleton q, fun hr => ?_,
              fun p hp => ?_⟩
            · exact others₁ x hx fun h => hg (by simp [h])
            · rw [List.mem_singleton.mp hy]
              exact List.mem_cons_self
            · cases hr
            · cases hp
              refine ⟨traffic₁, path₁, once₁, none_left ▸ totals₁, ?_⟩
              rw [bytes₁]
              omega

/-! ## Linking -/

theorem catLoop_spec (path : Path m.next (some p) (as ++ [l])) (other : t ∉ as) (enough : as.length < fuel) :
    ∃ m', catLoop t fuel p m = some (l, m') ∧ m'.traffic = m.traffic ∧ m'.failed = m.failed ∧
      (∀ x ∈ as, m'.node x = { m.node x with totLen := (m.node x).totLen + (m.node t).totLen }) ∧
      ∀ x, x ∉ as → m'.node x = m.node x := by
  induction as generalizing fuel m p with
  | nil =>
      obtain ⟨fuel, rfl⟩ : ∃ n, fuel = n + 1 := ⟨fuel - 1, by rw [List.length_nil] at enough; omega⟩
      have last := path.last
      cases path with
      | cons path => exact ⟨m, by rw [catLoop, last], rfl, rfl, fun x hx => (by cases hx), fun _ _ => rfl⟩
  | cons y as ih =>
      obtain ⟨fuel, rfl⟩ : ∃ n, fuel = n + 1 := ⟨fuel - 1, by rw [List.length_cons] at enough; omega⟩
      have apart : y ∉ as := fun h => (List.nodup_cons.mp path.nodup).1 (List.mem_append_left _ h)
      obtain ⟨differs, other⟩ := List.ne_and_not_mem_of_not_mem_cons other
      cases path with
      | cons path =>
          cases link : m.next y with
          | none =>
              rw [link] at path
              cases as <;> cases path
          | some z =>
              have links : (m.setTotLen y ((m.node y).totLen + (m.node t).totLen)).next = m.next :=
                next_update fun _ => rfl
              obtain ⟨m', e, traffic, failed, raised, others⟩ := ih (links ▸ link ▸ path) other
                (Nat.lt_of_succ_lt_succ enough)
              have same : ∀ x, x ≠ y → (m.setTotLen y ((m.node y).totLen + (m.node t).totLen)).node x = m.node x :=
                fun x hx => update_of_ne hx _ _
              refine ⟨m', by rw [catLoop, link]; exact e, traffic, failed, fun x hx => ?_, fun x hx => ?_⟩
              · rcases List.mem_cons.mp hx with rfl | hx
                · rw [others x apart, setTotLen, update_self]
                · rw [raised x hx, same x (ne_of_mem_of_not_mem hx apart), same t differs]
              · obtain ⟨hxy, hx⟩ := List.ne_and_not_mem_of_not_mem_cons hx
                rw [others x hx, same x hxy]

theorem pbufCat_spec (path : Path m.next (some p) (as ++ [l])) (other : t ∉ as ++ [l])
    (equal : (m.node l).totLen = (m.node l).len) (enough : as.length < fuel) :
    ∃ m', pbufCat fuel p t m = some m' ∧ m'.traffic = m.traffic ∧ m'.failed = m.failed ∧
      m'.next = Function.update m.next l (some t) ∧
      (∀ x, (m'.node x).ref = (m.node x).ref ∧ (m'.node x).payload = (m.node x).payload ∧
        (m'.node x).len = (m.node x).len) ∧
      (∀ x ∈ as ++ [l], (m'.node x).totLen = (m.node x).totLen + (m.node t).totLen) ∧
      ∀ x, x ∉ as ++ [l] → m'.node x = m.node x := by
  have last := path.last
  have hl : l ∉ as := fun hx => (List.nodup_append.mp path.nodup).2.2 l hx l (by simp) rfl
  obtain ⟨m₁, loop, traffic, failed, raised, others⟩ := catLoop_spec path (fun hx => other (List.mem_append_left _ hx))
    enough
  have links₁ : m₁.next = m.next := by
    funext x
    by_cases hx : x ∈ as
    · rw [next, raised x hx, next]
    · rw [next, others x hx, next]
  have node_t : m₁.node t = m.node t := others t fun hx => other (List.mem_append_left _ hx)
  have equal₁ : decide ((m₁.node l).totLen = (m₁.node l).len) = true := by
    rw [others l hl, equal]
    exact decide_eq_true rfl
  have ending : (m₁.next l).isNone = true := by
    rw [links₁, last]
    rfl
  have e : pbufCat fuel p t m =
      some ((m₁.setTotLen l ((m₁.node l).totLen + (m₁.node t).totLen)).setNext l (some t)) := by
    rw [pbufCat, loop]
    simp only [Option.bind_eq_bind, Option.bind_some]
    rw [lwipAssert_true equal₁, lwipAssert_true ending]
    rfl
  generalize hm : (m₁.setTotLen l ((m₁.node l).totLen + (m₁.node t).totLen)).setNext l (some t) = m' at e
  have node_l : m'.node l = { m.node l with next := some t, totLen := (m.node l).totLen + (m.node t).totLen } := by
    rw [← hm, setNext, update_self, setTotLen, update_self, others l hl, node_t]
  have node_as : ∀ x ∈ as, m'.node x = { m.node x with totLen := (m.node x).totLen + (m.node t).totLen } :=
    fun x hx => by
    have differs : x ≠ l := ne_of_mem_of_not_mem hx hl
    rw [← hm, setNext, update_of_ne differs, setTotLen, update_of_ne differs, raised x hx]
  have node_x : ∀ x, x ∉ as ++ [l] → m'.node x = m.node x := fun x hx => by
    have differs : x ≠ l := fun e => hx (by simp [e])
    rw [← hm, setNext, update_of_ne differs, setTotLen, update_of_ne differs, others x fun h => hx (by simp [h])]
  refine ⟨m', e, ?_, ?_, ?_, fun x => ?_, fun x hx => ?_, node_x⟩
  · rw [← hm]
    exact traffic
  · rw [← hm]
    exact failed
  · have keeps : (m₁.setTotLen l ((m₁.node l).totLen + (m₁.node t).totLen)).next = m₁.next := next_update fun _ => rfl
    rw [← hm, next_setNext, keeps, links₁]
  · by_cases hx : x ∈ as ++ [l]
    · rcases List.mem_append.mp hx with hx | hx
      · rw [node_as x hx]
        exact ⟨rfl, rfl, rfl⟩
      · rw [List.mem_singleton.mp hx, node_l]
        exact ⟨rfl, rfl, rfl⟩
    · rw [node_x x hx]
      exact ⟨rfl, rfl, rfl⟩
  · rcases List.mem_append.mp hx with hx | hx
    · rw [node_as x hx]
    · rw [List.mem_singleton.mp hx, node_l]

/-! ## Cutting -/

theorem dechainCut_spec (link : m.next p = some q)
    (total : (m.node p).totLen.toNat = (m.node p).len.toNat + (m.node q).totLen.toNat) :
    ∃ m', dechainCut p m = (some q, m') ∧ m'.traffic = m.traffic ∧ m'.failed = m.failed ∧
      m'.next = Function.update m.next p none ∧
      m'.node p = { m.node p with next := none, totLen := (m.node p).len } ∧ ∀ x, x ≠ p → m'.node x = m.node x := by
  have less : (m.node p).len ≤ (m.node p).totLen := by
    apply UInt16.le_iff_toNat_le.mpr
    omega
  have same : (m.node p).totLen - (m.node p).len = (m.node q).totLen := by
    apply UInt16.toNat_inj.mp
    rw [UInt16.toNat_sub_of_le _ _ less]
    omega
  have equal : decide (((m.node q).totLen.toNat : Int) = (m.node p).totLen.toNat - (m.node p).len.toNat) = true := by
    rw [decide_eq_true_eq]
    omega
  rw [dechainCut, link]
  dsimp only
  rw [lwipAssert_true equal]
  have node_q : (m.setTotLen q ((m.node p).totLen - (m.node p).len)).node = m.node := by
    funext x
    by_cases h : x = q
    · rw [h, setTotLen, update_self, same]
    · rw [setTotLen, update_of_ne h]
  generalize hm : ((m.setTotLen q ((m.node p).totLen - (m.node p).len)).setNext p none).setTotLen p
    (((m.setTotLen q ((m.node p).totLen - (m.node p).len)).setNext p none).node p).len = m'
  refine ⟨m', rfl, ?_, ?_, ?_, ?_, fun x hx => ?_⟩
  · rw [← hm]
    rfl
  · rw [← hm]
    rfl
  · have keeps : ((m.setTotLen q ((m.node p).totLen - (m.node p).len)).setNext p none).next =
        Function.update m.next p none := by
      rw [next_setNext]
      have links : (m.setTotLen q ((m.node p).totLen - (m.node p).len)).next = m.next := next_update fun _ => rfl
      rw [links]
    rw [← hm, ← keeps]
    exact next_update fun _ => rfl
  · rw [← hm, setTotLen, update_self, setNext, update_self, node_q]
  · rw [← hm, setTotLen, update_of_ne hx, setNext, update_of_ne hx, node_q]

theorem reallocLoop_spec {shrink remLen : UInt16} (path : Path m.next (some q) xs) (fits : remLen.toNat ≤ m.lens xs)
    (enough : xs.length ≤ fuel) :
    ∃ as l bs k m', xs = as ++ l :: bs ∧ reallocLoop shrink fuel q remLen m = some (l, k, m') ∧
      m.lens as + k.toNat = remLen.toNat ∧ k ≤ (m.node l).len ∧ m'.traffic = m.traffic ∧ m'.failed = m.failed ∧
      m'.heap = m.heap ∧ (∀ x ∈ as, m'.node x = { m.node x with totLen := (m.node x).totLen - shrink }) ∧
      ∀ x, x ∉ as → m'.node x = m.node x := by
  induction xs generalizing fuel m q remLen with
  | nil => cases path
  | cons y xs ih =>
      obtain ⟨fuel, rfl⟩ : ∃ n, fuel = n + 1 := ⟨fuel - 1, by rw [List.length_cons] at enough; omega⟩
      have apart := (List.nodup_cons.mp path.nodup).1
      cases path with
      | cons path =>
          rw [lens, List.map_cons, List.sum_cons] at fits
          by_cases more : remLen > (m.node y).len
          · have more' := UInt16.lt_iff_toNat_lt.mp more
            have less : (remLen - (m.node y).len).toNat = remLen.toNat - (m.node y).len.toNat :=
              UInt16.toNat_sub_of_le _ _ (UInt16.le_of_lt more)
            cases link : m.next y with
            | none =>
                rw [link] at path
                cases path
                simp only [List.map_nil, List.sum_nil] at fits
                omega
            | some z =>
                have same : ∀ x, x ≠ y → (m.setTotLen y ((m.node y).totLen - shrink)).node x = m.node x :=
                  fun x hx => update_of_ne hx _ _
                have links : (m.setTotLen y ((m.node y).totLen - shrink)).next = m.next := next_update fun _ => rfl
                have bytes : ∀ ys, y ∉ ys → (m.setTotLen y ((m.node y).totLen - shrink)).lens ys = m.lens ys :=
                  fun ys hy => congrArg List.sum (List.map_congr_left fun x hx => by
                    rw [same x (ne_of_mem_of_not_mem hx hy)])
                have fits' : (remLen - (m.node y).len).toNat ≤
                    (m.setTotLen y ((m.node y).totLen - shrink)).lens xs := by
                  rw [bytes xs apart, less, lens]
                  omega
                obtain ⟨as, l, bs, k, m', rfl, e, sum, small, traffic, failed, heap, cut, others⟩ :=
                  ih (links ▸ link ▸ path) fits' (Nat.le_of_succ_le_succ enough)
                have hy : y ∉ as := fun h => apart (List.mem_append_left _ h)
                have hl : l ≠ y := fun h => apart (by simp [h])
                rw [bytes as hy, less] at sum
                rw [same l hl] at small
                refine ⟨y :: as, l, bs, k, m', rfl, ?_, ?_, small, traffic, failed, heap, fun x hx => ?_,
                  fun x hx => ?_⟩
                · rw [reallocLoop, if_pos more]
                  simp only [link]
                  exact e
                · rw [lens, List.map_cons, List.sum_cons, ← lens]
                  omega
                · rcases List.mem_cons.mp hx with rfl | hx
                  · rw [others x hy, setTotLen, update_self]
                  · rw [cut x hx, same x (ne_of_mem_of_not_mem hx hy)]
                · obtain ⟨hxy, hx⟩ := List.ne_and_not_mem_of_not_mem_cons hx
                  rw [others x hx, same x hxy]
          · refine ⟨[], y, xs, remLen, m, rfl, by rw [reallocLoop, if_neg more], ?_, ?_, rfl, rfl, rfl,
              fun x hx => (by cases hx), fun _ _ => rfl⟩
            · exact Nat.zero_add _
            · exact UInt16.not_lt.mp more

/-- What `mem_trim` returns for a pbuf of the heap, up to the size that the heap was last asked for. -/
def Trims (m : PbufMem) (trim : Nat → Nat → Option Nat) (q : Nat) : Prop :=
  (m.node q).type = .ram → (m.node q).isCustom = false → ∀ n, n ≤ m.heap q → trim q n = some q

theorem trimHeap_spec {trim : Nat → Nat → Option Nat} {k : UInt16} (inside : Inside (m.heap q) q (m.node q))
    (trims : Trims m trim q) (small : k ≤ (m.node q).len) :
    ∃ heap, trimHeap trim q k m = (some q, { m with heap := heap }) ∧ (∀ x, x ≠ q → heap x = m.heap x) ∧
      Inside (heap q) q { m.node q with len := k, totLen := k, next := none } := by
  have small := UInt16.le_iff_toNat_le.mp small
  rw [trimHeap]
  dsimp only
  by_cases own : (m.node q).type = .ram ∧ k ≠ (m.node q).len ∧ (m.node q).isCustom = false
  · have front := inside.front own.2.2 (by rw [own.1]; rfl)
    have limit := inside.heap own.2.2 own.1
    have size : (memSizeT ((m.node q).payload - q + k.toNat) : Int) = (m.node q).payload - q + k.toNat := by
      rw [memSizeT]
      omega
    have kept : trim q (memSizeT ((m.node q).payload - q + k.toNat)) = some q :=
      trims own.1 own.2.2 _ (by omega)
    rw [if_pos own, kept, lwipAssert_true (show (some q).isSome = true from rfl)]
    refine ⟨_, rfl, fun x hx => Function.update_of_ne hx _ _, fun _ contiguous => front, fun _ pool => ?_,
      fun _ _ => ?_⟩
    · rw [own.1] at pool
      cases pool
    · rw [Function.update_self]
      simp only
      omega
  · rw [if_neg own]
    exact ⟨m.heap, rfl, fun _ _ => rfl, Within.inside (n := m.node q) ⟨rfl, rfl, rfl,
      UInt16.le_iff_toNat_le.mpr small⟩ inside⟩

theorem reallocCut_spec {trim : Nat → Nat → Option Nat} {newLen : UInt16} (path : Path m.next (some p) xs)
    (inside : ∀ x ∈ xs, Inside (m.heap x) x (m.node x)) (trims : ∀ x ∈ xs, Trims m trim x)
    (total : (m.node p).totLen.toNat = m.lens xs) (shorter : newLen < (m.node p).totLen) (enough : xs.length ≤ fuel) :
    ∃ as l bs k m', xs = as ++ l :: bs ∧ reallocCut trim fuel p newLen m = some (m.next l, m') ∧
      m.lens as + k.toNat = newLen.toNat ∧ k ≤ (m.node l).len ∧ m'.traffic = m.traffic ∧ m'.failed = m.failed ∧
      m'.next = Function.update m.next l none ∧ Safe m m' ∧
      (∀ x ∈ as, m'.node x = { m.node x with totLen := (m.node x).totLen - ((m.node p).totLen - newLen) }) ∧
      m'.node l = { m.node l with next := none, len := k, totLen := k } ∧ ∀ x, x ∉ as ++ [l] →
        m'.node x = m.node x := by
  have fits : newLen.toNat ≤ m.lens xs := by
    have := UInt16.lt_iff_toNat_lt.mp shorter
    omega
  obtain ⟨as, l, bs, k, m₁, rfl, loop, sum, small, traffic, failed, heap, cut, others⟩ :=
    @reallocLoop_spec m p xs fuel ((m.node p).totLen - newLen) newLen path fits enough
  have hl : l ∉ as := fun h => (List.nodup_append.mp path.nodup).2.2 l h l (by simp) rfl
  have links₁ : m₁.next = m.next := by
    funext x
    by_cases hx : x ∈ as
    · rw [next, cut x hx, next]
    · rw [next, others x hx, next]
  have inside₁ : Inside (m₁.heap l) l (m₁.node l) := by
    rw [heap, others l hl]
    exact inside l (by simp)
  have trims₁ : Trims m₁ trim l := by
    rw [Trims, others l hl, heap]
    exact trims l (by simp)
  obtain ⟨room, trimmed, apart, inside_l⟩ := @trimHeap_spec m₁ l trim k inside₁ trims₁ (by rw [others l hl]; exact small)
  rw [others l hl] at inside_l
  have differs : ∀ x ∈ as, x ≠ l := fun x hx => ne_of_mem_of_not_mem hx hl
  have sure : ∀ m₂ : PbufMem, m₂.node = m₁.node →
      ((m₂.setLen l k).setTotLen l ((m₂.setLen l k).node l).len).next = m.next := fun m₂ same => by
    have keeps : ((m₂.setLen l k).setTotLen l ((m₂.setLen l k).node l).len).next = (m₂.setLen l k).next :=
      next_update fun _ => rfl
    have keeps₁ : (m₂.setLen l k).next = m₂.next := next_update fun _ => rfl
    rw [keeps, keeps₁, ← links₁]
    funext x
    rw [next, same, next]
  have e : reallocCut trim fuel p newLen m = some (m.next l,
      ((({ m₁ with heap := room }.setLen l k).setTotLen l
        (({ m₁ with heap := room }.setLen l k).node l).len).setNext l none)) := by
    rw [reallocCut, if_neg (UInt16.not_le.mpr shorter), loop]
    simp only [Option.bind_eq_bind, Option.bind_some, trimmed, sure { m₁ with heap := room } rfl]
    rfl
  generalize hm : ((({ m₁ with heap := room }.setLen l k).setTotLen l
    (({ m₁ with heap := room }.setLen l k).node l).len).setNext l none) = m' at e
  have links : m'.next = Function.update m.next l none := by
    rw [← hm, next_setNext, sure { m₁ with heap := room } rfl]
  have before : ∀ x ∈ as, m'.node x = { m.node x with totLen := (m.node x).totLen - ((m.node p).totLen - newLen) } := by
    intro x hx
    rw [← hm, setNext, update_of_ne (differs x hx), setTotLen, update_of_ne (differs x hx), setLen,
      update_of_ne (differs x hx), ← cut x hx]
  have here : m'.node l = { m.node l with next := none, len := k, totLen := k } := by
    rw [← hm, setNext, update_self, setTotLen, update_self, setLen, update_self]
    simp only [others l hl]
  have behind : ∀ x, x ∉ as ++ [l] → m'.node x = m.node x := by
    intro x hx
    have out : x ≠ l := fun h => hx (by simp [h])
    rw [← hm, setNext, update_of_ne out, setTotLen, update_of_ne out, setLen, update_of_ne out,
      ← others x fun h => hx (by simp [h])]
  have rooms : m'.heap = room := by
    rw [← hm]
    rfl
  refine ⟨as, l, bs, k, m', rfl, e, sum, small, ?_, ?_, links, fun x i => ?_, before, here, behind⟩
  · rw [← hm]
    exact traffic
  · rw [← hm]
    exact failed
  · rw [rooms]
    by_cases last : x = l
    · rw [last, here]
      exact inside_l
    · rw [apart x last, heap]
      by_cases hx : x ∈ as
      · rw [before x hx]
        exact Within.inside (n := m.node x) ⟨rfl, rfl, rfl, UInt16.le_refl _⟩ i
      · rw [behind x (by simpa [last] using hx)]
        exact i

end Oinzen.PbufMem
