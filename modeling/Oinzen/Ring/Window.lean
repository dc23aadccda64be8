import Mathlib.Algebra.GroupWithZero.Nat
import Mathlib.Data.Fin.Basic

/-!
# Windows on a ring

Two parties pass the cells of a ring to each other. Positions count the uses of the ring from the
start and never wrap, so that a window is an interval of positions; `slot` is the cell used.
-/

namespace Ring

variable {n : Nat} [NeZero n]

def slot (n : Nat) [NeZero n] (k : Nat) : Fin n := Fin.ofNat n k

theorem slot_inj (lo : Nat) {k l : Nat} (hk : lo ≤ k) (hk' : k < lo + n) (hl : lo ≤ l) (hl' : l < lo + n)
    (h : slot n k = slot n l) : k = l := by
  have hmod : k % n = l % n := Fin.val_eq_of_eq h
  rcases Nat.le_total k l with hkl | hkl
  · have hzero := Nat.sub_mod_eq_zero_of_mod_eq hmod.symm
    rw [Nat.mod_eq_of_lt (by omega)] at hzero
    omega
  · have hzero := Nat.sub_mod_eq_zero_of_mod_eq hmod
    rw [Nat.mod_eq_of_lt (by omega)] at hzero
    omega

theorem exists_slot (lo : Nat) (i : Fin n) : ∃ k, lo ≤ k ∧ k < lo + n ∧ slot n k = i := by
  have hn : 0 < n := Nat.pos_of_neZero n
  refine ⟨lo + (i.val + (n - lo % n)) % n, by omega, ?_, ?_⟩
  · have := Nat.mod_lt (i.val + (n - lo % n)) hn
    omega
  · have hlo := Nat.mod_lt lo hn
    apply Fin.ext
    change (lo + (i.val + (n - lo % n)) % n) % n = i.val
    calc (lo + (i.val + (n - lo % n)) % n) % n
        = (lo % n + (i.val + (n - lo % n))) % n := by simp only [Nat.add_mod, Nat.mod_mod]
      _ = (i.val + n) % n := by congr 1; omega
      _ = i.val := by rw [Nat.add_mod_right, Nat.mod_eq_of_lt i.isLt]

theorem slot_ne (b : Nat) {i j : Nat} (hi : i < n) (hj : j < n) (hij : i ≠ j) : slot n (b + i) ≠ slot n (b + j) := by
  intro he
  have := slot_inj b (Nat.le_add_right b i) (by omega) (Nat.le_add_right b j) (by omega) he
  omega

theorem slot_succ (k : Nat) : slot n k + 1 = slot n (k + 1) := by
  apply Fin.ext
  simp [slot, Fin.val_add]

theorem slot_add (k j : Nat) : slot n (k + j) = slot n k + Fin.ofNat n j := by
  apply Fin.ext
  simp [slot, Fin.val_add]

theorem slot_val (i : Fin n) : slot n i.val = i := Fin.ofNat_val_eq_self i

structure Claim {γ : Type} (free : γ → Prop) where
  holds : Nat → γ → Prop
  apart : ∀ k c, holds k c → ¬ free c

structure Window {γ : Type} {free : γ → Prop} (cell : Fin n → γ) (claim : Claim free) (lo hi : Nat) : Prop where
  le : lo ≤ hi
  fits : hi ≤ lo + n
  held : ∀ k, lo ≤ k → k < hi → claim.holds k (cell (slot n k))
  free : ∀ k, hi ≤ k → k < lo + n → free (cell (slot n k))

namespace Window

variable {γ : Type} {free : γ → Prop} {cell cell' : Fin n → γ} {claim claim' : Claim free} {lo hi : Nat}

theorem empty (lo : Nat) (h : ∀ i, free (cell i)) : Window cell claim lo lo :=
  ⟨Nat.le_refl _, Nat.le_add_right _ _, fun _ h h' => by omega, fun k _ _ => h (slot n k)⟩

theorem mono (w : Window cell claim lo hi)
    (h : ∀ k, lo ≤ k → k < hi → claim.holds k (cell (slot n k)) → claim'.holds k (cell (slot n k))) :
    Window cell claim' lo hi :=
  ⟨w.le, w.fits, fun k hk hk' => h k hk hk' (w.held k hk hk'), w.free⟩

theorem room (w : Window cell claim lo hi)
    (h : free (cell (slot n hi))) : hi < lo + n := by
  by_contra hfull
  have hn : 0 < n := Nat.pos_of_neZero n
  have hhi : hi = lo + n := by have := w.fits; omega
  have hslot : slot n hi = slot n lo := Fin.ext (by simp [slot, hhi])
  rw [hslot] at h
  exact claim.apart lo _ (w.held lo (Nat.le_refl _) (by omega)) h

theorem room_add (w : Window cell claim lo hi) {d : Nat}
    (hd : d < n) (before : hi + d ≤ lo + n) (h : free (cell (slot n (hi + d)))) : hi + d < lo + n := by
  by_contra hfull
  have hpos : hi + d = lo + n := by omega
  have hslot : slot n (hi + d) = slot n lo := Fin.ext (by simp [slot, hpos])
  rw [hslot] at h
  exact claim.apart lo _ (w.held lo (Nat.le_refl _) (by omega)) h

theorem nonempty (w : Window cell claim lo hi) (h : ¬ free (cell (slot n lo))) : lo < hi := by
  by_contra hempty
  have hn : 0 < n := Nat.pos_of_neZero n
  exact h (w.free lo (by omega) (by omega))

theorem push (w : Window cell claim lo hi) (room : hi < lo + n)
    (same : ∀ i, i ≠ slot n hi → cell' i = cell i) (h : claim.holds hi (cell' (slot n hi))) :
    Window cell' claim lo (hi + 1) := by
  refine ⟨by have := w.le; omega, by omega, fun k hk hk' => ?_, fun k hk hk' => ?_⟩
  · rcases Nat.lt_succ_iff_lt_or_eq.mp hk' with hlt | rfl
    · rw [same _ fun e => by have := slot_inj _ hk (by omega) w.le room e; omega]
      exact w.held k hk hlt
    · exact h
  · rw [same _ fun e => by have := slot_inj _ (by have := w.le; omega) hk' w.le room e; omega]
    exact w.free k (by omega) hk'

theorem pop (w : Window cell claim lo hi) (some : lo < hi)
    (same : ∀ i, i ≠ slot n lo → cell' i = cell i) (h : free (cell' (slot n lo))) :
    Window cell' claim (lo + 1) hi := by
  have hn : 0 < n := Nat.pos_of_neZero n
  have hfits := w.fits
  refine ⟨by omega, by omega, fun k hk hk' => ?_, fun k hk hk' => ?_⟩
  · rw [same _ fun e => by
      have := slot_inj lo (by omega) (by omega) (Nat.le_refl _) (by omega) e
      omega]
    exact w.held k (by omega) hk'
  · rcases Nat.lt_or_ge k (lo + n) with hlt | hge
    · rw [same _ fun e => by
        have := slot_inj lo (by omega) hlt (Nat.le_refl _) (by omega) e
        omega]
      exact w.free k (by omega) hlt
    · have hkn : k = lo + n := by omega
      have hslot : slot n k = slot n lo := Fin.ext (by simp [slot, hkn])
      rw [hslot]
      exact h

theorem congr (w : Window cell claim lo hi)
    (hheld : ∀ k, lo ≤ k → k < hi → claim.holds k (cell (slot n k)) → claim'.holds k (cell' (slot n k)))
    (hfree : ∀ i, free (cell i) → free (cell' i)) : Window cell' claim' lo hi :=
  ⟨w.le, w.fits, fun k hk hk' => hheld k hk hk' (w.held k hk hk'),
    fun k hk hk' => hfree _ (w.free k hk hk')⟩

theorem modify_free (w : Window cell claim lo hi)
    (same : ∀ i, ¬ free (cell i) → cell' i = cell i) (still : ∀ i, free (cell i) → free (cell' i)) :
    Window cell' claim lo hi :=
  w.congr (fun k _ _ h => by rw [same _ (claim.apart k _ h)]; exact h) still

theorem held_iff (w : Window cell claim lo hi) (i : Fin n) :
    ¬ free (cell i) ↔ ∃ k, lo ≤ k ∧ k < hi ∧ slot n k = i := by
  constructor
  · intro h
    obtain ⟨k, hk, hk', rfl⟩ := exists_slot lo i
    refine ⟨k, hk, ?_, rfl⟩
    by_contra hge
    exact h (w.free k (by omega) hk')
  · rintro ⟨k, hk, hk', rfl⟩
    exact claim.apart k _ (w.held k hk hk')

end Window

end Ring
