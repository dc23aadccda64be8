import Mathlib.Data.Finset.Erase
import Mathlib.Data.Finset.Card
import Mathlib.Data.Multiset.Filter
import Mathlib.Logic.Function.Basic

/-!
# Shared lists

Nodes with a link to at most one other. A reference is held, or it is the link of a node in use; a node is in
use as long as there are references to it.
-/

namespace Sharing

variable {V : Type}

structure Links (V : Type) where
  live : Finset V
  next : V → Option V
  held : Multiset V

inductive Path (next : V → Option V) : Option V → List V → Prop
  | nil : Path next none []
  | cons {x xs} : Path next (next x) xs → Path next (some x) (x :: xs)

section Paths

variable {next next' : V → Option V} {r : Option V} {x y l t : V} {xs ys : List V}

theorem Path.unique (p : Path next r xs) (q : Path next r ys) : xs = ys := by
  induction p generalizing ys with
  | nil =>
      cases q
      rfl
  | cons _ ih =>
      cases q with
      | cons q => rw [ih q]

theorem Path.congr (p : Path next r xs) (same : ∀ x ∈ xs, next' x = next x) : Path next' r xs := by
  induction p with
  | nil => exact .nil
  | @cons x xs _ ih =>
      refine .cons ?_
      rw [same x List.mem_cons_self]
      exact ih fun y hy => same y (List.mem_cons_of_mem _ hy)

theorem Path.suffix (p : Path next r (xs ++ y :: ys)) : Path next (some y) (y :: ys) := by
  induction xs generalizing r with
  | nil =>
      cases p with
      | cons p => exact .cons p
  | cons x xs ih =>
      cases p with
      | cons p => exact ih p

theorem Path.last (p : Path next r (xs ++ [x])) : next x = none := by
  cases h : next x with
  | none => rfl
  | some y =>
      cases p.suffix with
      | cons p =>
          rw [h] at p
          cases p

theorem Path.nodup (p : Path next r xs) : xs.Nodup := by
  induction p with
  | nil => exact List.nodup_nil
  | @cons x xs p ih =>
      refine List.nodup_cons.mpr ⟨fun hx => ?_, ih⟩
      obtain ⟨as, bs, rfl⟩ := List.append_of_mem hx
      have shorter := congrArg List.length (p.suffix.unique (.cons p))
      simp only [List.length_cons, List.length_append] at shorter
      omega

theorem Path.link_mem (p : Path next r xs) (hx : x ∈ xs) (link : next x = some y) : y ∈ xs := by
  obtain ⟨as, bs, rfl⟩ := List.append_of_mem hx
  cases p.suffix with
  | cons q =>
      rw [link] at q
      cases q
      simp

theorem Path.next_mem (p : Path next r (xs ++ l :: ys)) (hx : x ∈ xs) : ∃ y ∈ xs ++ [l], next x = some y := by
  obtain ⟨as, bs, rfl⟩ := List.append_of_mem hx
  rw [List.append_assoc, List.cons_append] at p
  cases p.suffix with
  | cons q =>
      cases link : next x with
      | none =>
          rw [link] at q
          cases bs <;> cases q
      | some y =>
          rw [link] at q
          refine ⟨y, ?_, rfl⟩
          cases bs with
          | nil =>
              cases q
              simp
          | cons b bs =>
              cases q
              simp

theorem Path.extend [DecidableEq V] (p : Path next r xs) (last : next l = none) (hl : l ∈ xs)
    (q : Path next (some t) ys) (apart : l ∉ ys) : Path (Function.update next l (some t)) r (xs ++ ys) := by
  have q' : Path (Function.update next l (some t)) (some t) ys :=
    q.congr fun y hy => Function.update_of_ne (ne_of_mem_of_not_mem hy apart) _ _
  induction p with
  | nil => cases hl
  | @cons x xs p ih =>
      refine .cons ?_
      by_cases here : x = l
      · subst here
        rw [last] at p
        cases p
        rwa [Function.update_self]
      · rw [Function.update_of_ne here]
        exact ih ((List.mem_cons.mp hl).resolve_left fun e => here e.symm)

theorem Path.cut [DecidableEq V] (p : Path next r (xs ++ x :: ys)) :
    Path (Function.update next x none) r (xs ++ [x]) := by
  have nodup := p.nodup
  induction xs generalizing r with
  | nil =>
      cases p with
      | cons p =>
          refine .cons ?_
          rw [Function.update_self]
          exact .nil
  | cons y xs ih =>
      cases p with
      | cons p =>
          have other : y ≠ x := by
            rintro rfl
            exact (List.nodup_cons.mp nodup).1 (by simp)
          refine .cons ?_
          rw [Function.update_of_ne other]
          exact ih p (List.nodup_cons.mp nodup).2

def walk (next : V → Option V) : Nat → Option V → List V
  | n + 1, some x => x :: walk next n (next x)
  | _, _ => []

theorem Path.walk (p : Path next r xs) {n : Nat} (enough : xs.length ≤ n) : walk next n r = xs := by
  induction p generalizing n with
  | nil => cases n <;> rfl
  | cons _ ih =>
      cases n with
      | zero => cases enough
      | succ n => rw [Sharing.walk, ih (Nat.le_of_succ_le_succ enough)]

end Paths

namespace Links

variable {s : Links V} {p x y r : V} {rest : Multiset V} {xs ys zs : List V}

def refs (s : Links V) : Multiset V := s.held + s.live.val.filterMap s.next

theorem mem_refs : x ∈ s.refs ↔ x ∈ s.held ∨ ∃ y ∈ s.live, s.next y = some x := by
  rw [refs, Multiset.mem_add, Multiset.mem_filterMap]
  rfl

structure Sound (s : Links V) : Prop where
  closed : ∀ x ∈ s.refs, x ∈ s.live
  used : ∀ x ∈ s.live, x ∈ s.refs
  ends : ∀ x ∈ s.live, ∃ xs, Path s.next (some x) xs

theorem Sound.held (sound : s.Sound) (hx : x ∈ s.held) : x ∈ s.live := sound.closed x (mem_refs.mpr (Or.inl hx))

theorem Sound.link (sound : s.Sound) (hx : x ∈ s.live) (link : s.next x = some y) : y ∈ s.live :=
  sound.closed y (mem_refs.mpr (Or.inr ⟨x, hx, link⟩))

theorem Sound.path {r : Option V} (sound : s.Sound) (start : ∀ x, r = some x → x ∈ s.live) (p : Path s.next r xs) :
    ∀ x ∈ xs, x ∈ s.live := by
  induction p with
  | nil => exact fun x hx => by cases hx
  | @cons x xs _ ih =>
      have here := start x rfl
      intro y hy
      rcases List.mem_cons.mp hy with rfl | hy
      · exact here
      · exact ih (fun z hz => sound.link here hz) y hy

theorem Sound.length (sound : s.Sound) (start : x ∈ s.live) (p : Path s.next (some x) xs) :
    xs.length ≤ s.live.card := by
  have inside := sound.path (fun y e => by cases e; exact start) p
  classical
  rw [← List.toFinset_card_of_nodup p.nodup]
  exact Finset.card_le_card fun y hy => inside y (List.mem_toFinset.mp hy)

theorem Sound.reached (sound : s.Sound) : x ∈ s.live ↔ ∃ r ∈ s.held, ∃ xs, Path s.next (some r) xs ∧ x ∈ xs := by
  constructor
  · intro hx
    obtain ⟨xs, p⟩ := sound.ends x hx
    -- on the nodes that are left before the path to the end
    induction hn : s.live.card - xs.length generalizing x xs with
    | zero =>
        have full := sound.length hx p
        rcases mem_refs.mp (sound.used x hx) with held | ⟨y, hy, link⟩
        · exact ⟨x, held, xs, p, by cases p; exact List.mem_cons_self⟩
        · have more := sound.length hy (.cons (link ▸ p))
          rw [List.length_cons] at more
          omega
    | succ n ih =>
        rcases mem_refs.mp (sound.used x hx) with held | ⟨y, hy, link⟩
        · exact ⟨x, held, xs, p, by cases p; exact List.mem_cons_self⟩
        · obtain ⟨r, hr, ys, q, hy'⟩ := ih hy (y :: xs) (.cons (link ▸ p)) (by rw [List.length_cons]; omega)
          exact ⟨r, hr, ys, q, q.link_mem hy' link⟩
  · rintro ⟨r, hr, xs, p, hx⟩
    exact sound.path (fun y e => by cases e; exact sound.held hr) p x hx

/-! ## A part that one reference leads to -/

def outside [DecidableEq V] (s : Links V) (rest : Multiset V) (xs : List V) : Multiset V :=
  rest + (s.live \ xs.toFinset).val.filterMap s.next

theorem refs_outside [DecidableEq V] (held : s.held = p ::ₘ rest) (nodup : xs.Nodup) (inside : ∀ x ∈ xs, x ∈ s.live) :
    s.refs = (p ::ₘ (xs : Multiset V).filterMap s.next) + s.outside rest xs := by
  have part : s.live.val = (xs : Multiset V) + (s.live \ xs.toFinset).val := by
    have union : s.live = xs.toFinset.disjUnion (s.live \ xs.toFinset) Finset.disjoint_sdiff := by
      ext x
      by_cases hx : x ∈ xs
      · simp [hx, inside x hx]
      · simp [hx]
    conv_lhs => rw [union]
    rw [Finset.disjUnion_val, List.toFinset_val, nodup.dedup]
  rw [refs, held, part, Multiset.filterMap_add, outside, Multiset.cons_add, Multiset.cons_add]
  congr 1
  rw [← Multiset.add_assoc, Multiset.add_comm rest, Multiset.add_assoc]

structure Alone [DecidableEq V] (s : Links V) (p : V) (rest : Multiset V) (xs : List V) : Prop where
  held : s.held = p ::ₘ rest
  path : ∃ ys, Path s.next (some p) (xs ++ ys)
  once : ∀ x ∈ xs, s.refs.count x = 1

variable [DecidableEq V]

theorem Alone.inside (alone : s.Alone p rest xs) (sound : s.Sound) : ∀ x ∈ xs, x ∈ s.live := by
  obtain ⟨ys, path⟩ := alone.path
  have start : p ∈ s.live := sound.held (by simp [alone.held])
  exact fun x hx => sound.path (fun y e => by cases e; exact start) path x (List.mem_append_left _ hx)

theorem Alone.not_outside (alone : s.Alone p rest xs) (sound : s.Sound) (hx : x ∈ xs) : x ∉ s.outside rest xs := by
  obtain ⟨ys, path⟩ := alone.path
  have nodup : xs.Nodup := path.nodup.of_append_left
  have from_path : x ∈ p ::ₘ (xs : Multiset V).filterMap s.next := by
    obtain ⟨as, bs, rfl⟩ := List.append_of_mem hx
    rcases List.eq_nil_or_concat as with rfl | ⟨as, a, rfl⟩
    · cases path
      exact Multiset.mem_cons_self _ _
    · have link : s.next a = some x := by
        simp only [List.concat_eq_append, List.append_assoc, List.cons_append, List.nil_append] at path
        cases path.suffix with
        | cons path =>
            cases h : s.next a with
            | none =>
                rw [h] at path
                cases path
            | some y =>
                rw [h] at path
                cases path
                rfl
      exact Multiset.mem_cons_of_mem ((Multiset.mem_filterMap _ _).mpr ⟨a, by simp, link⟩)
  have once := alone.once x hx
  rw [refs_outside alone.held nodup (alone.inside sound), Multiset.count_add] at once
  intro out
  have one := Multiset.one_le_count_iff_mem.mpr from_path
  have two := Multiset.one_le_count_iff_mem.mpr out
  omega

theorem Alone.apart (alone : s.Alone p rest xs) (sound : s.Sound) {r : Option V}
    (start : ∀ x, r = some x → x ∈ s.live ∧ x ∉ xs) (path : Path s.next r zs) : ∀ z ∈ zs, z ∉ xs := by
  induction path with
  | nil => exact fun z hz => by cases hz
  | @cons x zs _ ih =>
      obtain ⟨live, out⟩ := start x rfl
      have next : ∀ y, s.next x = some y → y ∈ s.live ∧ y ∉ xs := fun y link => by
        refine ⟨sound.link live link, fun hy => alone.not_outside sound hy ?_⟩
        apply Multiset.mem_add.mpr
        have part : x ∈ s.live \ xs.toFinset := Finset.mem_sdiff.mpr ⟨live, fun h => out (List.mem_toFinset.mp h)⟩
        exact Or.inr ((Multiset.mem_filterMap _ _).mpr ⟨x, part, link⟩)
      intro z hz
      rcases List.mem_cons.mp hz with rfl | hz
      · exact out
      · exact ih next z hz

theorem Alone.elsewhere (alone : s.Alone p rest xs) (sound : s.Sound) (hr : r ∈ rest) : r ∈ s.live ∧ r ∉ xs := by
  refine ⟨sound.held (by simp [alone.held, hr]), fun hx => alone.not_outside sound hx ?_⟩
  exact Multiset.mem_add.mpr (Or.inl hr)

end Links

end Sharing
