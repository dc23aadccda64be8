import Oinzen.Interference.System

/-!
# A store of independent objects

What an allocator is for: the objects lie apart, and a request changes no object but its own.
-/

namespace Tiling

open Interference

structure Object (β : Type) where
  addr : Nat
  data : List β

inductive Request (β : Type)
  | alloc (size : Nat)
  | resize (addr size : Nat)
  | release (addr : Nat)
  | write (addr i : Nat) (v : β)

variable {β : Type}

def Object.stop (o : Object β) : Nat := o.addr + o.data.length

def Object.Apart (o p : Object β) : Prop := o.stop ≤ p.addr ∨ p.stop ≤ o.addr

def Object.Inside (align lo hi : Nat) (o : Object β) : Prop := o.addr % align = 0 ∧ lo ≤ o.addr ∧ o.stop ≤ hi

inductive Store.Step (align lo hi : Nat) : List (Object β) → Request β → List (Object β) → Prop
  | refused {os size} : Step align lo hi os (.alloc size) os
  | granted {os size} (o : Object β) : o.data.length = size → o.Inside align lo hi → (∀ p ∈ os, o.Apart p) →
      Step align lo hi os (.alloc size) (o :: os)
  | resized {xs o ys size} (p : Object β) : p.addr = o.addr → p.data.length = size →
      p.data.take o.data.length = o.data.take size → p.Inside align lo hi → (∀ q ∈ xs ++ ys, p.Apart q) →
      Step align lo hi (xs ++ o :: ys) (.resize o.addr size) (xs ++ p :: ys)
  | kept {xs o ys size} : Step align lo hi (xs ++ o :: ys) (.resize o.addr size) (xs ++ o :: ys)
  | released {xs o ys} : Step align lo hi (xs ++ o :: ys) (.release o.addr) (xs ++ ys)
  | written {xs o ys i v} : i < o.data.length →
      Step align lo hi (xs ++ o :: ys) (.write o.addr i v) (xs ++ ⟨o.addr, o.data.set i v⟩ :: ys)

/-- The store, empty at the start. -/
def store (β : Type) (align lo hi : Nat) : System (List (Object β)) (Request β) := ⟨(· = []), Store.Step align lo hi⟩

variable {align lo hi : Nat} {os os' : List (Object β)} {l : Request β}

theorem Object.Apart.symm {o p : Object β} (h : o.Apart p) : p.Apart o := Or.symm h

theorem apart_replace {xs ys : List (Object β)} {o p : Object β} (fresh : ∀ q ∈ xs ++ ys, p.Apart q)
    (h : (xs ++ o :: ys).Pairwise Object.Apart) : (xs ++ p :: ys).Pairwise Object.Apart := by
  rw [List.pairwise_middle Object.Apart.symm] at h ⊢
  exact List.pairwise_cons.mpr ⟨fresh, (List.pairwise_cons.mp h).2⟩

theorem inside_replace {xs ys : List (Object β)} {o p : Object β} (ok : p.Inside align lo hi)
    (h : ∀ q ∈ xs ++ o :: ys, q.Inside align lo hi) : ∀ q ∈ xs ++ p :: ys, q.Inside align lo hi := by
  intro q hq
  rcases List.mem_append.mp hq with hq | hq
  · exact h q (List.mem_append_left _ hq)
  · rcases List.mem_cons.mp hq with rfl | hq
    · exact ok
    · exact h q (by simp [hq])

theorem Store.Step.apart (step : Store.Step align lo hi os l os') (apart : os.Pairwise Object.Apart)
    (inside : ∀ o ∈ os, o.Inside align lo hi) :
    os'.Pairwise Object.Apart ∧ ∀ o ∈ os', o.Inside align lo hi := by
  cases step with
  | refused | kept => exact ⟨apart, inside⟩
  | granted o _ ok fresh => exact ⟨List.pairwise_cons.mpr ⟨fresh, apart⟩, List.forall_mem_cons.mpr ⟨ok, inside⟩⟩
  | resized p _ _ _ ok fresh => exact ⟨apart_replace fresh apart, inside_replace ok inside⟩
  | @released xs o ys =>
      have sub : (xs ++ ys).Sublist (xs ++ o :: ys) := List.Sublist.append_left (List.sublist_cons_self _ _) _
      exact ⟨apart.sublist sub, fun p hp => inside p (sub.subset hp)⟩
  | @written xs o ys i v _ =>
      have whole := (List.pairwise_cons.mp ((List.pairwise_middle Object.Apart.symm).mp apart)).1
      have same : (⟨o.addr, o.data.set i v⟩ : Object β).stop = o.stop := by simp [Object.stop]
      refine ⟨apart_replace (fun q hq => ?_) apart, inside_replace ?_ inside⟩
      · have := whole q hq
        rwa [Object.Apart, same]
      · have := inside o (by simp)
        rwa [Object.Inside, same]

theorem store_apart (r : (store β align lo hi).Run System.unrestricted os) :
    os.Pairwise Object.Apart ∧ ∀ o ∈ os, o.Inside align lo hi := by
  refine r.invariant (I := fun os => os.Pairwise Object.Apart ∧ ∀ o ∈ os, o.Inside align lo hi) ?_ ?_
  · rintro s rfl
    exact ⟨.nil, fun o ho => by cases ho⟩
  · exact fun s l t _ ih _ step => step.apart ih.1 ih.2

end Tiling
