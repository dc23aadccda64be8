import Oinzen.Tiling.Objects
import Oinzen.Heap.Trim

/-!
# Runs of the heap

The callers of `mem.c` hold allocations. They write into them, trim them and free them, each at most
once; they pass no pointer that is not theirs.
-/

namespace Oinzen

open Tiling Interference

structure Alloc where
  ptr : Int
  len : Nat

def Alloc.mem (a : Alloc) : Nat := (a.ptr - sizeofStructMem).toNat

def Alloc.object (ram : Nat → UInt8) (a : Alloc) : Object UInt8 :=
  ⟨a.ptr.toNat, (List.range a.len).map fun i => ram (a.ptr.toNat + i)⟩

structure HeapUse where
  heap : MemHeap
  live : List Alloc

inductive MemCall
  | malloc (size : UInt16)
  | trim (ptr : Int) (size : UInt16)
  | free (ptr : Int)
  | write (ptr : Int) (i : Nat) (v : UInt8)

namespace HeapUse

open MemHeap

inductive Step : HeapUse → MemCall → HeapUse → Prop
  | refused {h h' live size} : h.memMalloc size = some (none, h') → Step ⟨h, live⟩ (.malloc size) ⟨h', live⟩
  | granted {h h' live size ptr} : h.memMalloc size = some (some ptr, h') →
      Step ⟨h, live⟩ (.malloc size) ⟨h', ⟨ptr, size.toNat⟩ :: live⟩
  | trimmed {h h' as a cs size ptr} : h.memTrim a.ptr size = (some ptr, h') →
      Step ⟨h, as ++ a :: cs⟩ (.trim a.ptr size) ⟨h', as ++ ⟨ptr, size.toNat⟩ :: cs⟩
  | untrimmed {h h' as a cs size} : h.memTrim a.ptr size = (none, h') →
      Step ⟨h, as ++ a :: cs⟩ (.trim a.ptr size) ⟨h', as ++ a :: cs⟩
  | freed {h as a cs} : Step ⟨h, as ++ a :: cs⟩ (.free a.ptr) ⟨h.memFree (some a.ptr), as ++ cs⟩
  | written {h as a cs i v} : i < a.len →
      Step ⟨h, as ++ a :: cs⟩ (.write a.ptr i v) ⟨{ h with ram := setByte h.ram (a.ptr.toNat + i) v }, as ++ a :: cs⟩

/-- The heap as `mem_init` leaves it, whatever the memory held before. -/
def system : System HeapUse MemCall := ⟨fun s => ∃ ram, s = ⟨memInit ram, []⟩, Step⟩

def Fits (a : Alloc) (b : Block) : Prop := a.ptr = a.mem + sizeofStructMem ∧ a.len + sizeofStructMem ≤ b.size

structure Owned (live : List Alloc) (bs : List Block) : Prop where
  perm : (live.map Alloc.mem).Perm ((taken 0 bs).map Prod.fst)
  fits : ∀ a ∈ live, ∃ b, (a.mem, b) ∈ taken 0 bs ∧ Fits a b

structure Inv (s : HeapUse) (bs : List Block) : Prop where
  sane : Sane s.heap bs
  owned : Owned s.live bs

variable {s s' : HeapUse} {h h' : MemHeap} {a : Alloc} {as cs live : List Alloc} {bs xs ys : List Block} {b : Block}

theorem Owned.block (own : Owned (as ++ a :: cs) bs) :
    ∃ xs b ys, bs = xs ++ b :: ys ∧ b.used = true ∧ a.mem = extent xs ∧ a.ptr = (extent xs + sizeofStructMem : Nat) ∧
      a.len + sizeofStructMem ≤ b.size := by
  obtain ⟨b, hb, ptr, len⟩ := own.fits a (by simp)
  obtain ⟨place, used⟩ := mem_taken.mp hb
  obtain ⟨xs, ys, rfl, mem⟩ := mem_places.mp place
  rw [Nat.zero_add] at mem
  exact ⟨xs, b, ys, rfl, used, mem, by rw [ptr, mem]; rfl, len⟩

theorem object_of_keeps {bs' : List Block} (keeps : Keeps h h' bs') (hb : (a.mem, b) ∈ taken 0 bs') (fits : Fits a b) :
    a.object h'.ram = a.object h.ram := by
  obtain ⟨ptr, len⟩ := fits
  have e : a.ptr.toNat = a.mem + sizeofStructMem := by omega
  rw [Alloc.object, Alloc.object]
  congr 1
  refine List.map_congr_left fun i hi => ?_
  have := List.mem_range.mp hi
  exact keeps _ _ hb _ (by omega) (by omega)

theorem taken_carved {size : Nat} (p : Nat) (b : Block) (fit : size + sizeofStructMem ≤ b.size) :
    ∃ c : Block, size + sizeofStructMem ≤ c.size ∧ taken p (carved size b) = [(p, c)] := by
  rw [carved]
  split
  · exact ⟨⟨size + sizeofStructMem, true⟩, le_rfl, by simp [taken_cons]⟩
  · exact ⟨⟨b.size, true⟩, fit, by simp [taken_cons]⟩

theorem taken_trimmed {newsize : Nat} (p : Nat) (used : b.used = true) (fit : newsize + sizeofStructMem ≤ b.size) :
    ∃ c : Block, newsize + sizeofStructMem ≤ c.size ∧
      taken p (trimmed newsize b ys) = (p, c) :: taken (p + b.size) ys := by
  rw [trimmed]
  split
  · exact ⟨b, fit, by rw [taken_cons, if_pos used]⟩
  · refine ⟨⟨newsize + sizeofStructMem, true⟩, le_rfl, ?_⟩
    rw [taken_cons, if_pos rfl, taken_join, taken_cons, if_neg (by simp)]
    simp only
    rw [show p + (newsize + sizeofStructMem) + (b.size - (newsize + sizeofStructMem)) = p + b.size by omega]

theorem taken_middle (used : b.used = true) :
    taken 0 (xs ++ b :: ys) = taken 0 xs ++ (extent xs, b) :: taken (extent xs + b.size) ys := by
  rw [taken_append, taken_cons, if_pos used, Nat.zero_add]

theorem taken_free (free : b.used = false) :
    taken 0 (xs ++ b :: ys) = taken 0 xs ++ taken (extent xs + b.size) ys := by
  rw [taken_append, taken_cons, if_neg (by simp [free]), Nat.zero_add]

theorem Inv.nodup (inv : Inv s bs) : (s.live.map Alloc.mem).Nodup := by
  refine inv.owned.perm.nodup_iff.mpr (taken_nodup fun b hb => ?_)
  have := (inv.sane.linked.sized b hb).1
  simp only [sizeofStructMem] at this
  omega

theorem Inv.others (inv : Inv ⟨h, as ++ a :: cs⟩ bs) {d : Alloc} (hd : d ∈ as ++ cs) : d.mem ≠ a.mem := by
  have nodup := inv.nodup
  have perm : ((as ++ a :: cs).map Alloc.mem).Perm (a.mem :: (as ++ cs).map Alloc.mem) := by
    simp
  have fresh := (List.nodup_cons.mp (perm.nodup_iff.mp nodup)).1
  exact fun e => fresh (e ▸ List.mem_map_of_mem hd)

def view (s : HeapUse) : List (Object UInt8) := s.live.map (Alloc.object s.heap.ram)

theorem view_keeps (own : Owned live bs) (keeps : Keeps h h' bs) :
    live.map (Alloc.object h'.ram) = live.map (Alloc.object h.ram) := by
  refine List.map_congr_left fun a ha => ?_
  obtain ⟨b, hb, fits⟩ := own.fits a ha
  exact object_of_keeps keeps hb fits

/-! ## The calls keep the invariant -/

theorem Inv.granted (inv : Inv ⟨h, live⟩ bs) {size : UInt16} {ptr : Int} (e : h.memMalloc size = some (some ptr, h')) :
    ∃ bs', Inv ⟨h', ⟨ptr, size.toNat⟩ :: live⟩ bs' ∧ Keeps h h' bs' := by
  rcases memMalloc_spec inv.sane size with ⟨-, e'⟩ | ⟨n, xs, b, ys, h'', adjust, -, rfl, free, fit, e', sane, keeps, -⟩
  · rw [e] at e'
    cases e'
  · rw [e] at e'
    cases e'
    obtain ⟨c, hc, parts⟩ := taken_carved (extent xs) b fit
    have after : taken 0 (xs ++ (carved n b ++ ys)) =
        taken 0 xs ++ (extent xs, c) :: taken (extent xs + b.size) ys := by
      rw [taken_append, taken_append, Nat.zero_add, parts, extent_carved]
      rfl
    have before := @taken_free xs ys _ free
    have mem : Alloc.mem ⟨((extent xs + sizeofStructMem : Nat) : Int), size.toNat⟩ = extent xs := by
      simp only [Alloc.mem]
      omega
    refine ⟨_, ⟨sane, ⟨?_, ?_⟩⟩, keeps⟩
    · have perm := inv.owned.perm
      rw [before, List.map_append] at perm
      rw [after, List.map_append, List.map_cons, List.map_cons, mem]
      exact (perm.cons _).trans List.perm_middle.symm
    · intro a ha
      rcases List.mem_cons.mp ha with rfl | ha
      · refine ⟨c, by rw [mem, after]; simp, by rw [mem]; push_cast; rfl, ?_⟩
        have := (adjustSize_some adjust).2.2.2
        simp only
        omega
      · obtain ⟨d, hd, fits⟩ := inv.owned.fits a ha
        refine ⟨d, ?_, fits⟩
        rw [before] at hd
        rw [after]
        rcases List.mem_append.mp hd with hd | hd
        · exact List.mem_append_left _ hd
        · exact List.mem_append_right _ (List.mem_cons_of_mem _ hd)

theorem Inv.freed (inv : Inv ⟨h, as ++ a :: cs⟩ bs) :
    ∃ bs', Inv ⟨h.memFree (some a.ptr), as ++ cs⟩ bs' ∧ Keeps h (h.memFree (some a.ptr)) bs' := by
  obtain ⟨xs, b, ys, rfl, used, mem, ptr, -⟩ := inv.owned.block
  have others := fun d => inv.others (d := d)
  obtain ⟨sane, keeps, -⟩ := memFree_spec inv.sane used
  have before := @taken_middle xs ys _ used
  have after : taken 0 (normalize (xs ++ ⟨b.size, false⟩ :: ys)) = taken 0 xs ++ taken (extent xs + b.size) ys := by
    rw [taken_normalize, taken_free rfl]
  rw [ptr]
  refine ⟨_, ⟨sane, ⟨?_, fun d hd => ?_⟩⟩, keeps⟩
  · have perm := inv.owned.perm
    rw [before, List.map_append, List.map_append, List.map_cons, List.map_cons, mem] at perm
    rw [after, List.map_append, List.map_append]
    exact (List.perm_middle.symm.trans (perm.trans List.perm_middle)).cons_inv
  · obtain ⟨c, hc, fits⟩ := inv.owned.fits d (by
      rcases List.mem_append.mp hd with hd | hd <;> simp [hd])
    refine ⟨c, ?_, fits⟩
    rw [before] at hc
    rw [after]
    rcases List.mem_append.mp hc with hc | hc
    · exact List.mem_append_left _ hc
    · rcases List.mem_cons.mp hc with e | hc
      · exact absurd ((congrArg Prod.fst e).trans mem.symm) (others d hd)
      · exact List.mem_append_right _ hc

theorem adjustSize_of_le {n : UInt16} {m : Nat} (le : n.toNat ≤ m) (min : 12 ≤ m) (aligned : m % 4 = 0)
    (max : m ≤ memSizeAligned) : ∃ size, adjustSize n = some size ∧ size ≤ m := by
  have e : memSizeAligned = 1600 := rfl
  have e' : minSizeAligned = 12 := rfl
  have cast : memSizeT (lwipMemAlignSize n.toNat) = (n.toNat + 3) / 4 * 4 := by
    refine memSizeT_of_lt ?_ (by omega)
    simp only [lwipMemAlignSize, memAlignment]
  rw [adjustSize]
  simp only [cast]
  generalize hnew : (if (n.toNat + 3) / 4 * 4 < minSizeAligned then minSizeAligned else (n.toNat + 3) / 4 * 4) = size
  have bound : size ≤ m ∧ n.toNat ≤ size := by split at hnew <;> omega
  exact ⟨size, if_neg (by omega), bound.1⟩

theorem Inv.memTrim_cases (inv : Inv ⟨h, as ++ a :: cs⟩ bs) (size : UInt16) :
    ∃ xs b ys, bs = xs ++ b :: ys ∧ b.used = true ∧ a.mem = extent xs ∧ a.ptr = (extent xs + sizeofStructMem : Nat) ∧
      a.len + sizeofStructMem ≤ b.size ∧
      ((adjustSize size = none ∧ h.memTrim a.ptr size = (none, h)) ∨
        (∃ newsize, adjustSize size = some newsize ∧ b.size < newsize + sizeofStructMem ∧
          h.memTrim a.ptr size = (none, h.lwipAssert false)) ∨
        ∃ newsize h', adjustSize size = some newsize ∧ newsize + sizeofStructMem ≤ b.size ∧
          h.memTrim a.ptr size = (some a.ptr, h') ∧ Sane h' (xs ++ trimmed newsize b ys) ∧
          Keeps h h' (xs ++ trimmed newsize b ys) ∧ h'.failed = (h.failed || splitsLast newsize b ys)) := by
  obtain ⟨xs, b, ys, rfl, used, mem, ptr, len⟩ := inv.owned.block
  refine ⟨xs, b, ys, rfl, used, mem, ptr, len, ?_⟩
  cases adjust : adjustSize size with
  | none => exact .inl ⟨rfl, by rw [memTrim, adjust]⟩
  | some newsize =>
      rw [ptr]
      by_cases fit : newsize + sizeofStructMem ≤ b.size
      · obtain ⟨h', e⟩ := memTrim_spec inv.sane used adjust fit
        exact .inr (.inr ⟨newsize, h', rfl, fit, e⟩)
      · exact .inr (.inl ⟨newsize, rfl, by omega, memTrim_grows inv.sane adjust (by omega)⟩)

theorem Inv.trim (inv : Inv ⟨h, as ++ a :: cs⟩ bs) {size : UInt16} {p : Int} (trim : h.memTrim a.ptr size = (some p, h')) :
    p = a.ptr ∧ ∃ bs', Inv ⟨h', as ++ ⟨a.ptr, size.toNat⟩ :: cs⟩ bs' ∧ Keeps h h' bs' := by
  have others := fun d => inv.others (d := d)
  obtain ⟨xs, b, ys, rfl, used, mem, ptr, len, none | ⟨_, -, -, none⟩ | ⟨newsize, h₁, adjust, fit, e, sane,
    keeps, -⟩⟩ :=
    inv.memTrim_cases size
  · rw [none.2] at trim
    cases trim
  · rw [none] at trim
    cases trim
  rw [e] at trim
  obtain ⟨rfl, rfl⟩ : a.ptr = p ∧ h₁ = h' := by simpa using trim
  refine ⟨rfl, ?_⟩
  have e' : sizeofStructMem = 8 := rfl
  obtain ⟨c, hc, rest⟩ := @taken_trimmed ys _ newsize (extent xs) used (by omega)
  have before := @taken_middle xs ys _ used
  have after : taken 0 (xs ++ trimmed newsize b ys) =
      taken 0 xs ++ (extent xs, c) :: taken (extent xs + b.size) ys := by
    rw [taken_append, Nat.zero_add, rest]
  have moved : ∀ q d, (q, d) ∈ taken 0 (xs ++ b :: ys) → q ≠ extent xs →
    (q, d) ∈ taken 0 (xs ++ trimmed newsize b ys) := by
    intro q d hq ne
    rw [before] at hq
    rw [after]
    rcases List.mem_append.mp hq with hq | hq
    · exact List.mem_append_left _ hq
    · rcases List.mem_cons.mp hq with e | hq
      · exact absurd (congrArg Prod.fst e) ne
      · exact List.mem_append_right _ (List.mem_cons_of_mem _ hq)
  rw [ptr]
  have mem' : Alloc.mem ⟨((extent xs + sizeofStructMem : Nat) : Int), size.toNat⟩ = extent xs := by
    simp only [Alloc.mem]
    omega
  refine ⟨_, ⟨sane, ⟨?_, fun d hd => ?_⟩⟩, keeps⟩
  · have perm := inv.owned.perm
    rw [before, List.map_append, List.map_cons, mem] at perm
    rw [after, List.map_append, List.map_cons, mem']
    simpa using perm
  · have sizes := (adjustSize_some adjust).2.2.2
    have old : d ∈ as ++ cs → ∃ b', (d.mem, b') ∈ taken 0 (xs ++ trimmed newsize b ys) ∧ Fits d b' := by
      intro hd
      obtain ⟨b', hb', fits⟩ := inv.owned.fits d (by rcases List.mem_append.mp hd with hd | hd <;> simp [hd])
      exact ⟨b', moved _ _ hb' (mem ▸ others d hd), fits⟩
    rcases List.mem_append.mp hd with hd | hd
    · exact old (List.mem_append_left _ hd)
    · rcases List.mem_cons.mp hd with rfl | hd
      · refine ⟨c, by rw [mem', after]; simp, by rw [mem']; push_cast; rfl, ?_⟩
        simp only
        omega
      · exact old (List.mem_append_right _ hd)

theorem Inv.untrimmed (inv : Inv ⟨h, as ++ a :: cs⟩ bs) {size : UInt16} (e : h.memTrim a.ptr size = (none, h')) :
    Inv ⟨h', as ++ a :: cs⟩ bs ∧ h'.ram = h.ram := by
  obtain ⟨xs, b, ys, -, -, -, -, -, ⟨-, none⟩ | ⟨_, -, -, none⟩ | ⟨_, _, -, -, some, -⟩⟩ := inv.memTrim_cases size
  · rw [none] at e
    cases e
    exact ⟨inv, rfl⟩
  · rw [none] at e
    cases e
    exact ⟨⟨inv.sane.flag _, inv.owned⟩, rfl⟩
  · rw [some] at e
    cases e

theorem Inv.written (inv : Inv ⟨h, as ++ a :: cs⟩ bs) {i : Nat} (v : UInt8) (inside : i < a.len) :
    Inv ⟨{ h with ram := setByte h.ram (a.ptr.toNat + i) v }, as ++ a :: cs⟩ bs ∧
      ∀ d b, d ∈ as ++ cs → (d.mem, b) ∈ taken 0 bs → Fits d b →
        d.object (setByte h.ram (a.ptr.toNat + i) v) = d.object h.ram := by
  have others := fun d => inv.others (d := d)
  obtain ⟨xs, b, ys, rfl, used, mem, ptr, len⟩ := inv.owned.block
  obtain ⟨hx, hb, hy, sx, sb, sy, fits⟩ := inv.sane.linked.parts
  have e' : sizeofStructMem = 8 := rfl
  have place : a.ptr.toNat + i = extent xs + 8 + i := by omega
  rw [place]
  have same : ∀ lo hi, (hi ≤ extent xs + 8 ∨ extent xs + b.size ≤ lo) →
      Same h { h with ram := setByte h.ram (extent xs + 8 + i) v } lo hi :=
    fun lo hi apart j _ _ => setByte_of_ne v (by omega)
  have linked : Linked { h with ram := setByte h.ram (extent xs + 8 + i) v } (xs ++ b :: ys) := by
    refine inv.sane.linked.replace ?_ inv.sane.linked.sized inv.sane.linked.whole
      (same _ _ (.inr (by simp only [memSizeAligned]; omega)))
    rw [segment_append, Nat.zero_add]
    exact ⟨hx.same sx (same _ _ (.inl (by omega))), hb.same (same _ _ (.inl (by omega))),
      hy.same sy (same _ _ (.inr (by omega)))⟩
  refine ⟨⟨⟨linked, inv.sane.separated, inv.sane.lfree⟩, inv.owned⟩, fun d c hd hc fits => ?_⟩
  have place : (extent xs, b) ∈ places 0 (xs ++ b :: ys) := mem_places.mpr ⟨xs, ys, rfl, by simp⟩
  have apart := places_apart (mem_taken.mp hc).1 place fun e => others d hd ((congrArg Prod.fst e).trans mem.symm)
  obtain ⟨ptr', len'⟩ := fits
  rw [Alloc.object, Alloc.object]
  congr 1
  refine List.map_congr_left fun j hj => ?_
  have := List.mem_range.mp hj
  exact setByte_of_ne v (by omega)

/-! ## Runs -/

def request : MemCall → Request UInt8
  | .malloc size => .alloc size.toNat
  | .trim ptr size => .resize ptr.toNat size.toNat
  | .free ptr => .release ptr.toNat
  | .write ptr i v => .write ptr.toNat i v

theorem Inv.start (ram : Nat → UInt8) : Inv ⟨memInit ram, []⟩ [⟨memSizeAligned, false⟩] := by
  refine ⟨⟨⟨⟨⟨?_, ?_, ?_⟩, trivial⟩, ?_, rfl, ?_, ?_, ?_⟩, .singleton _, rfl⟩, ⟨by simp [taken_cons], by simp⟩⟩
  all_goals
    first
    | rfl
    | simp [Sized, memSizeAligned, sizeofStructMem, minSizeAligned, memAlignment]

theorem Inv.apart (inv : Inv ⟨h, as ++ a :: cs⟩ bs) {d : Alloc} (hd : d ∈ as ++ cs) :
    (a.object h.ram).Apart (d.object h.ram) := by
  have ne : d.mem ≠ a.mem := inv.others hd
  obtain ⟨b, hb, ptr, len⟩ := inv.owned.fits a (by simp)
  obtain ⟨c, hc, ptr', len'⟩ := inv.owned.fits d (by rcases List.mem_append.mp hd with hd | hd <;> simp [hd])
  have := places_apart (mem_taken.mp hb).1 (mem_taken.mp hc).1 fun e => ne (congrArg Prod.fst e).symm
  simp only [Object.Apart, Object.stop, Alloc.object, List.length_map, List.length_range]
  omega

theorem Inv.inside (inv : Inv ⟨h, as ++ a :: cs⟩ bs) :
    (a.object h.ram).Inside memAlignment sizeofStructMem memSizeAligned := by
  obtain ⟨xs, b, ys, rfl, used, mem, ptr, len⟩ := inv.owned.block
  obtain ⟨-, -, -, sx, -, -, fits⟩ := inv.sane.linked.parts
  have := sx.extent_mod
  simp only [Object.Inside, Object.stop, Alloc.object, List.length_map, List.length_range, memAlignment,
    sizeofStructMem, memSizeAligned] at ptr len ⊢
  omega

theorem Step.refines {l : MemCall} (step : Step s l s') (inv : Inv s bs) :
    ∃ bs', Inv s' bs' ∧ Store.Step memAlignment sizeofStructMem memSizeAligned (view s) (request l) (view s') := by
  cases step with
  | @refused h h' live size e =>
      rcases memMalloc_spec inv.sane size with ⟨-, e'⟩ | ⟨_, _, _, _, _, -, -, -, -, -, e', -⟩
      · rw [e] at e'
        cases e'
        exact ⟨bs, inv, .refused⟩
      · rw [e] at e'
        cases e'
  | @granted h h' live size ptr e =>
      obtain ⟨bs', inv', keeps⟩ := inv.granted e
      refine ⟨bs', inv', ?_⟩
      have old : view ⟨h', ⟨ptr, size.toNat⟩ :: live⟩ =
          Alloc.object h'.ram ⟨ptr, size.toNat⟩ :: live.map (Alloc.object h'.ram) := rfl
      have own : ∀ d ∈ live, d.object h'.ram = d.object h.ram := fun d hd => by
        obtain ⟨b, hb, fits⟩ := inv'.owned.fits d (List.mem_cons_of_mem _ hd)
        exact object_of_keeps keeps hb fits
      have same : live.map (Alloc.object h'.ram) = live.map (Alloc.object h.ram) := List.map_congr_left own
      rw [old, same]
      have whole : Inv ⟨h', [] ++ ⟨ptr, size.toNat⟩ :: live⟩ bs' := inv'
      refine .granted _ (by simp [Alloc.object]) whole.inside fun p hp => ?_
      rw [view, ← same] at hp
      obtain ⟨d, hd, rfl⟩ := List.mem_map.mp hp
      exact whole.apart hd
  | @trimmed h h' as a cs size ptr e =>
      obtain ⟨rfl, bs', inv', keeps⟩ := inv.trim e
      refine ⟨bs', inv', ?_⟩
      have own : ∀ d ∈ as ++ ⟨a.ptr, size.toNat⟩ :: cs, d.object h'.ram = d.object h.ram := fun d hd => by
        obtain ⟨b, hb, fits⟩ := inv'.owned.fits d hd
        exact object_of_keeps keeps hb fits
      have view' : view ⟨h', as ++ ⟨a.ptr, size.toNat⟩ :: cs⟩ =
          as.map (Alloc.object h.ram) ++ Alloc.object h.ram ⟨a.ptr, size.toNat⟩ :: cs.map (Alloc.object h.ram) := by
        rw [view, List.map_congr_left own, List.map_append, List.map_cons]
      have new := own ⟨a.ptr, size.toNat⟩ (by simp)
      rw [view']
      simp only [view, List.map_append, List.map_cons]
      refine .resized _ rfl (by simp [Alloc.object]) ?_ (new ▸ inv'.inside) fun q hq => ?_
      · simp only [Alloc.object, List.length_map, List.length_range, ← List.map_take, List.take_range, Nat.min_comm]
      · rw [← List.map_append] at hq
        obtain ⟨d, hd, rfl⟩ := List.mem_map.mp hq
        have apart := inv'.apart hd
        rwa [new, own d (by rcases List.mem_append.mp hd with hd | hd <;> simp [hd])] at apart
  | @untrimmed h h' as a cs size e =>
      obtain ⟨inv', ram⟩ := inv.untrimmed e
      refine ⟨bs, inv', ?_⟩
      simp only [view, ram, List.map_append, List.map_cons]
      exact .kept
  | @freed h as a cs =>
      obtain ⟨bs', inv', keeps⟩ := inv.freed
      refine ⟨bs', inv', ?_⟩
      have view' : view ⟨h.memFree (some a.ptr), as ++ cs⟩ = as.map (Alloc.object h.ram) ++ cs.map (Alloc.object h.ram) := by
        rw [view, view_keeps inv'.owned keeps, List.map_append]
      rw [view']
      simp only [view, List.map_append, List.map_cons]
      exact .released
  | @written h as a cs i v inside =>
      obtain ⟨inv', others⟩ := inv.written v inside
      refine ⟨bs, inv', ?_⟩
      have own : ∀ d ∈ as ++ cs, d.object (setByte h.ram (a.ptr.toNat + i) v) = d.object h.ram := fun d hd => by
        obtain ⟨b, hb, fits⟩ := inv.owned.fits d (by rcases List.mem_append.mp hd with hd | hd <;> simp [hd])
        exact others d b hd hb fits
      have view' : view ⟨{ h with ram := setByte h.ram (a.ptr.toNat + i) v }, as ++ a :: cs⟩ =
          as.map (Alloc.object h.ram) ++ a.object (setByte h.ram (a.ptr.toNat + i) v) :: cs.map (Alloc.object h.ram) := by
        rw [view, List.map_append, List.map_cons]
        congr 1
        · exact List.map_congr_left fun d hd => own d (List.mem_append_left _ hd)
        · congr 1
          exact List.map_congr_left fun d hd => own d (List.mem_append_right _ hd)
      have set : a.object (setByte h.ram (a.ptr.toNat + i) v) = ⟨a.ptr.toNat, (a.object h.ram).data.set i v⟩ := by
        simp only [Alloc.object, Object.mk.injEq, true_and]
        refine List.ext_getElem (by simp) fun j hj hj' => ?_
        simp only [List.getElem_map, List.getElem_range, List.getElem_set]
        split
        · rename_i e
          rw [e, setByte_self]
        · exact setByte_of_ne v (by omega)
      rw [view', set]
      simp only [view, List.map_append, List.map_cons]
      exact .written (by simpa [Alloc.object] using inside)

theorem run_inv (r : system.Run System.unrestricted s) : ∃ bs, Inv s bs := by
  refine r.invariant (I := fun s => ∃ bs, Inv s bs) ?_ ?_
  · rintro s ⟨ram, rfl⟩
    exact ⟨_, .start ram⟩
  · rintro s l t - ⟨bs, inv⟩ - step
    obtain ⟨bs', inv', -⟩ := step.refines inv
    exact ⟨bs', inv'⟩

end HeapUse

end Oinzen
