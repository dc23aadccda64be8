import Oinzen.Heap.Sanity
import Oinzen.Pbuf.Kept

/-!
# Whole functions over pbufs

`pbuf_free` and the functions that call it, from any state that a run reaches: they end, give back what
nobody can reach any more, and leave what the other references lead to.
-/

namespace Oinzen.PbufUse

open Interference Sharing PbufMem Links

variable {s : PbufUse} {m' : PbufMem} {p : Nat} {r : Option Nat} {rest : Multiset Nat} {xs zs : List Nat} {fuel : Nat}

theorem run_freeLoop (run : system.Run Fits s) (held : s.held = single r + rest)
    (path : Path s.mem.next r zs) (enough : zs.length ≤ fuel) (count : UInt8) :
    ∃ xs m', freeLoop fuel r count s.mem = some (count + .ofNat xs.length, m') ∧ Alike s.mem m' ∧
      (∃ ys, zs = xs ++ ys) ∧
      m'.traffic = s.mem.traffic ++ xs.map .released ∧
      let t : PbufUse := ⟨m', s.live \ xs.toFinset, rest⟩
      system.Run Fits t ∧ ∀ h ∈ rest, t.chain h = s.chain h := by
  induction zs generalizing fuel s r count with
  | nil =>
      cases path
      have held' : s.held = rest := held.trans (Multiset.zero_add _)
      refine ⟨[], s.mem, by cases fuel <;> simp [freeLoop], ⟨rfl, fun _ => ⟨rfl, rfl, rfl⟩⟩, ⟨[], rfl⟩, by simp, ?_⟩
      rw [List.toFinset_nil, Finset.sdiff_empty, ← held']
      exact ⟨run, fun _ _ => rfl⟩
  | cons p zs ih =>
      obtain ⟨fuel, rfl⟩ : ∃ n, fuel = n + 1 := ⟨fuel - 1, by rw [List.length_cons] at enough; omega⟩
      cases path with
      | cons path =>
          have held' : s.held = p ::ₘ rest := held.trans (Multiset.singleton_add _ _)
          obtain ⟨mem, alike, -, ⟨pass, -, traffic, -, -, -, -, others⟩ | ⟨pass, -, traffic, -, others⟩⟩ :=
            (run_follows run).1.free held'
          · have next : system.Run Fits ⟨mem, s.live.erase p, single (mem.next p) + rest⟩ :=
              run.step (l := PbufCall.free p true) trivial (Step.gone held' pass)
            obtain ⟨xs, m', e, alike', ⟨ys, rfl⟩, traffic', run', others'⟩ :=
              ih next rfl (by rw [alike.next]; exact path)
              (Nat.le_of_succ_le_succ enough) (count + 1)
            have left : s.live \ (p :: xs).toFinset = s.live.erase p \ xs.toFinset := by
              ext x
              simp only [Finset.mem_sdiff, Finset.mem_erase, List.mem_toFinset, List.mem_cons]
              tauto
            refine ⟨p :: xs, m', ?_, alike.trans alike', ⟨ys, rfl⟩, ?_, ?_⟩
            · have more : UInt8.ofNat (xs.length + 1) = 1 + .ofNat xs.length := by
                rw [Nat.add_comm, UInt8.ofNat_add]
                rfl
              rw [freeLoop, pass]
              dsimp only
              rw [e, List.length_cons, more, UInt8.add_assoc]
            · rw [traffic', traffic, List.append_assoc]
              rfl
            · rw [left]
              exact ⟨run', fun h hh => (others' h hh).trans (others h hh)⟩
          · refine ⟨[], mem, ?_, alike, ⟨p :: zs, rfl⟩, ?_, ?_⟩
            · rw [freeLoop, pass]
              simp
            · rw [traffic, List.map_nil, List.append_nil]
            · rw [List.toFinset_nil, Finset.sdiff_empty]
              exact ⟨run.step (l := PbufCall.free p false) trivial (Step.stays held' pass), fun h _ => others h⟩

/-- A caller gives up a reference: what no other reference leads to goes back, once, and the rest stays. -/
theorem run_free (run : system.Run Fits s) (held : s.held = p ::ₘ rest) (enough : s.live.card ≤ fuel) :
    ∃ (xs : List Nat) (m' : PbufMem), pbufFree fuel (some p) s.mem = some (.ofNat xs.length, m') ∧
      m'.traffic = s.mem.traffic ++ xs.map .released ∧ xs.Nodup ∧
      (∀ x, x ∈ xs ↔ x ∈ s.live ∧ ¬ ∃ h ∈ rest, ∃ zs, Path s.mem.next (some h) zs ∧ x ∈ zs) ∧
      let t : PbufUse := ⟨m', s.live \ xs.toFinset, rest⟩
      system.Run Fits t ∧ ∀ h ∈ rest, t.chain h = s.chain h := by
  have c := (run_follows run).1
  have live : p ∈ s.live := c.sound.held (by simp [links, held])
  obtain ⟨zs, path⟩ := c.sound.ends p live
  obtain ⟨xs, m', e, alike, ⟨ys, rfl⟩, traffic, run', others⟩ := run_freeLoop run (r := some p)
    (held.trans (Multiset.singleton_add _ _).symm) path ((c.sound.length live path).trans enough) 0
  have inside := c.sound.path (fun y e => by cases e; exact live) path
  refine ⟨xs, m', ?_, traffic, path.nodup.of_append_left, fun x => ?_, run', others⟩
  · rw [pbufFree, e, UInt8.zero_add]
  · have left := (run_traffic run').2.1 x
    simp only [alike.next, Finset.mem_sdiff, List.mem_toFinset] at left
    rw [← left]
    constructor
    · exact fun hx => ⟨inside x (List.mem_append_left _ hx), fun h => h.2 hx⟩
    · rintro ⟨hx, gone⟩
      by_contra out
      exact gone ⟨hx, out⟩

theorem run_free_sent : ∃ (xs : List Nat) (m' : PbufMem),
    pbufFree 3 (some 4096) sent.mem = some (.ofNat xs.length, m') ∧
    1024 ∉ xs ∧ m'.traffic = sent.mem.traffic ++ xs.map .released := by
  obtain ⟨xs, m', e, traffic, -, gone, -⟩ := @run_free sent 4096 {64} 3 sent_run rfl (by decide)
  refine ⟨xs, m', e, fun h => ((gone 1024).mp h).2 ?_, traffic⟩
  exact ⟨64, by decide, [64, 1024], .cons (.cons .nil), by decide⟩

theorem Counted.path (c : s.Counted) (start : ∀ x, r = some x → x ∈ s.live) :
    ∃ zs, Path s.mem.next r zs ∧ zs.length ≤ s.live.card := by
  cases r with
  | none => exact ⟨[], .nil, Nat.zero_le _⟩
  | some x =>
      have live := start x rfl
      obtain ⟨zs, path⟩ := c.sound.ends x live
      exact ⟨zs, path, c.sound.length live path⟩

theorem Counted.single (c : s.Counted) (held : s.held = Links.single r + rest) : ∀ x, r = some x → x ∈ s.live :=
  fun x e => c.sound.held (by simp [links, held, e, Links.single])

/-- The first pbuf stands alone, and the rest goes back if nobody holds it. The count of what goes back has a
byte: if it wraps to zero the link is returned although the pbuf is gone. -/
theorem run_dechain (run : system.Run Fits s) (held : s.held = p ::ₘ rest) (once : (s.mem.node p).ref = 1)
    (enough : s.live.card ≤ fuel) :
    ∃ (xs : List Nat) (m' : PbufMem),
      pbufDechain fuel p s.mem = some (if 256 ∣ xs.length then s.mem.next p else none, m') ∧
      m'.traffic = s.mem.traffic ++ xs.map .released ∧ (m'.node p).totLen = (m'.node p).len ∧
      let t : PbufUse := ⟨m', s.live \ xs.toFinset, s.held⟩
      system.Run Fits t ∧ t.chain p = [piece s.mem p] ∧ ∀ h ∈ rest, t.chain h = s.chain h := by
  have c := (run_follows run).1
  have hp : p ∈ s.held := by simp [held]
  cases cut : dechainCut p s.mem with
  | mk r m₁ =>
      have run₁ := run.step (l := PbufCall.dechain p) trivial (Step.dechain hp once cut)
      obtain ⟨c₁, rfl, same₁, v, -, here, -, others⟩ := c.dechain held once cut
      have alone : m₁.next p = none := c₁.next_of_single (c.sound.held hp) here
      obtain ⟨zs, path, short⟩ := c₁.path (c₁.single rfl)
      obtain ⟨xs, m', e, alike, -, traffic, run', same⟩ := run_freeLoop run₁ rfl path (short.trans enough) 0
      have c' := (run_follows run').1
      have total : (m'.node p).totLen = (m'.node p).len := by
        have total := c'.totals p (c'.sound.held hp)
        simp only [alike.next, alone, after] at total
        exact UInt16.toNat_inj.mp total
      refine ⟨xs, m', ?_, traffic.trans (congrArg (· ++ _) same₁), total, run', (same p hp).trans here, fun h hh => ?_⟩
      · rw [pbufDechain, cut]
        cases link : s.mem.next p with
        | none =>
            rw [link] at e
            have ends : freeLoop fuel none 0 m₁ = some (0, m₁) := by cases fuel <;> rfl
            rw [ends, Option.some.injEq, Prod.mk.injEq] at e
            obtain ⟨-, rfl⟩ := e
            dsimp only
            rw [lwipAssert_true (decide_eq_true total), ite_self]
        | some q =>
            rw [link] at e
            have gone : (0 + UInt8.ofNat xs.length > 0) ↔ ¬ 256 ∣ xs.length := by
              rw [UInt8.zero_add, gt_iff_lt, UInt8.lt_iff_toNat_lt, UInt8.toNat_ofNat', Nat.dvd_iff_mod_eq_zero]
              exact Nat.pos_iff_ne_zero
            dsimp only
            rw [e]
            simp only [Option.bind_eq_bind, Option.bind_some, lwipAssert_true (decide_eq_true total), gone, ite_not]
            rfl
      · exact (same h (by simp [held, hh])).trans (others h hh)

theorem run_dechain_sent : ∃ (xs : List Nat) (m' : PbufMem),
    pbufDechain 3 4096 sent.mem = some (if 256 ∣ xs.length then some 64 else none, m') ∧
      (m'.node 4096).totLen = (m'.node 4096).len := by
  obtain ⟨xs, m', e, -, total, -⟩ := @run_dechain sent 4096 {64} 3 sent_run rfl (by decide) (by decide)
  exact ⟨xs, m', e, total⟩

theorem path_of_chain {t : PbufUse} {h x : Nat} (c : s.Counted) (c' : t.Counted) (hs : h ∈ s.live) (ht : h ∈ t.live)
    (same : t.chain h = s.chain h) :
    (∃ zs, Path t.mem.next (some h) zs ∧ x ∈ zs) ↔ ∃ zs, Path s.mem.next (some h) zs ∧ x ∈ zs := by
  obtain ⟨xs, path, value⟩ := c.chain_eq hs
  obtain ⟨ys, path', value'⟩ := c'.chain_eq ht
  have nodes := congrArg (List.map Piece.pbuf) (value'.symm.trans (same.trans value))
  have back : ∀ (m : PbufMem) (zs : List Nat), (zs.map (piece m)).map Piece.pbuf = zs := fun m zs => by
    rw [List.map_map]
    exact List.map_id zs
  rw [back, back] at nodes
  subst nodes
  constructor
  · rintro ⟨zs, other, hx⟩
    exact ⟨ys, path, path'.unique other ▸ hx⟩
  · rintro ⟨zs, other, hx⟩
    exact ⟨ys, path', path.unique other ▸ hx⟩

/-- A header is put in front of a chain, and given up: the chain is as it was. -/
theorem run_chain_free {h t : Nat} (run : system.Run Fits s) (held : s.held = h ::ₘ t ::ₘ rest)
    (own : s.Own h) (room : (s.mem.node h).totLen.toNat + (s.mem.node t).totLen.toNat < 65536)
    (less : (s.mem.node t).ref < 255) (enough : s.live.card ≤ fuel) :
    ∃ (xs : List Nat) (m₁ m₂ : PbufMem),
      pbufChain fuel h t s.mem = some m₁ ∧ chain ⟨m₁, s.live, s.held⟩ h = s.chain h ++ s.chain t ∧
      pbufFree fuel (some h) m₁ = some (.ofNat xs.length, m₂) ∧ m₂.traffic = s.mem.traffic ++ xs.map .released ∧
      (∀ x, x ∈ xs ↔ ∃ zs, Path s.mem.next (some h) zs ∧ x ∈ zs) ∧
      let u : PbufUse := ⟨m₂, s.live \ xs.toFinset, t ::ₘ rest⟩
      system.Run Fits u ∧ ∀ r ∈ t ::ₘ rest, u.chain r = s.chain r := by
  have c := (run_follows run).1
  obtain ⟨m₁, chained, traffic₁, c₁, joined, tail, others, live⟩ := c.chain held own room less enough
  have run₁ := run.step (l := PbufCall.chain h t) ⟨room, less⟩ (Step.chain held own enough chained)
  obtain ⟨xs, m₂, freed, traffic₂, -, gone, run₂, same⟩ := run_free run₁ held enough
  have kept : ∀ r ∈ t ::ₘ rest, chain ⟨m₁, s.live, s.held⟩ r = s.chain r := fun r hr => by
    rcases Multiset.mem_cons.mp hr with rfl | hr
    · exact tail
    · exact others r hr
  refine ⟨xs, m₁, m₂, chained, joined, freed, traffic₂.trans (congrArg (· ++ _) traffic₁), fun x => ?_, run₂,
    fun r hr => (same r hr).trans (kept r hr)⟩
  have alive : ∀ r ∈ t ::ₘ rest, r ∈ s.live := fun r hr => c.sound.held (by
    change r ∈ s.held
    rw [held]
    exact Multiset.mem_cons_of_mem hr)
  obtain ⟨zs, path⟩ := c.sound.ends h (c.sound.held (by simp [links, held]))
  rw [gone]
  constructor
  · rintro ⟨hx, out⟩
    obtain ⟨r, hr, ys, path', hy⟩ := c.sound.reached.mp hx
    have hr : r ∈ s.held := hr
    rw [held] at hr
    rcases Multiset.mem_cons.mp hr with rfl | hr
    · exact ⟨ys, path', hy⟩
    · exact absurd ⟨r, hr, (path_of_chain c c₁ (alive r hr) (alive r hr) (kept r hr)).mpr ⟨ys, path', hy⟩⟩ out
  · rintro ⟨ys, path', hx⟩
    obtain rfl := path.unique path'
    have whole : Path s.mem.next (some h) (zs ++ []) := by
      rw [List.append_nil]
      exact path
    have alone : s.links.Alone h (t ::ₘ rest) zs := c.alone held whole (own zs path)
    refine ⟨alone.inside c.sound x hx, ?_⟩
    rintro ⟨r, hr, other⟩
    obtain ⟨ws, from_r, hw⟩ := (path_of_chain c c₁ (alive r hr) (alive r hr) (kept r hr)).mp other
    obtain ⟨live_r, out⟩ := alone.elsewhere c.sound hr
    exact alone.apart c.sound (fun y e => by cases e; exact ⟨live_r, out⟩) from_r x hw hx

theorem run_chain_free_lent : ∃ (xs : List Nat) (m₁ m₂ : PbufMem), pbufChain 3 4096 64 headed = some m₁ ∧
    pbufFree 3 (some 4096) m₁ = some (.ofNat xs.length, m₂) ∧ 4096 ∈ xs := by
  have path : Path headed.next (some 4096) [4096] := .cons .nil
  obtain ⟨xs, m₁, m₂, chained, -, freed, -, gone, -⟩ :=
    @run_chain_free lent 0 3 4096 64 lent_run rfl lent_own (by decide)
    (by decide) (by decide)
  exact ⟨xs, m₁, m₂, chained, freed, (gone 4096).mpr ⟨[4096], path, by decide⟩⟩

/-! ## The bytes of a chain -/

def addresses (v : List Piece) : List Int := v.flatMap fun a => (List.range a.len.toNat).map fun i :
    Nat => a.payload + i

theorem addresses_cons (a : Piece) (v : List Piece) :
    addresses (a :: v) = ((List.range a.len.toNat).map fun i : Nat => a.payload + i) ++ addresses v := rfl

theorem addresses_drop {a : Piece} {v : List Piece} {p n : Nat} (enough : n ≤ a.len.toNat) :
    addresses (⟨p, a.payload + n, a.len - .ofNat n⟩ :: v) = (addresses (a :: v)).drop n := by
  have small := a.len.toNat_lt
  have magnitude : (UInt16.ofNat n).toNat = n := by
    rw [UInt16.toNat_ofNat']
    exact Nat.mod_eq_of_lt (by omega)
  have less : (a.len - .ofNat n).toNat = a.len.toNat - n := by
    rw [UInt16.toNat_sub_of_le, magnitude]
    rwa [UInt16.le_iff_toNat_le, magnitude]
  rw [addresses_cons, addresses_cons, List.drop_append_of_le_length (by simpa using enough), less]
  congr 1
  apply List.ext_getElem
  · simp
  · intro i hi hi'
    simp only [List.getElem_map, List.getElem_range, List.getElem_drop]
    push_cast
    exact Int.add_assoc ..

theorem addresses_skip {a : Piece} {v : List Piece} {n : Nat} (whole : a.len.toNat ≤ n) :
    (addresses (a :: v)).drop n = (addresses v).drop (n - a.len.toNat) := by
  have long : ((List.range a.len.toNat).map fun i : Nat => a.payload + i).length ≤ n := by simpa using whole
  rw [addresses_cons, List.drop_append, List.drop_eq_nil_of_le long, List.nil_append, List.length_map,
    List.length_range]

/-- The answers that `pbuf_realloc` relies on are those of `mem_trim`, over every run of the heap. -/
theorem trims_of_heap {h : HeapUse} (run : HeapUse.system.Run System.unrestricted h)
    (given : ∀ x ∈ s.live, (s.mem.node x).type = .ram → (s.mem.node x).isCustom = false →
      ∃ a ∈ h.live, a.ptr = x ∧ s.mem.heap x ≤ a.len ∧ s.mem.heap x < 65536) :
    ∀ x ∈ s.live, Trims s.mem (fun q n => (h.heap.memTrim q (.ofNat n)).1.map Int.toNat) x := by
  intro x hx ram own n less
  obtain ⟨a, ha, ptr, len, small⟩ := given x hx ram own
  have size : (UInt16.ofNat n).toNat = n := by
    rw [UInt16.toNat_ofNat']
    exact Nat.mod_eq_of_lt (by omega)
  have kept := HeapUse.run_trims run ha (.ofNat n) (by omega)
  simp only
  rw [← ptr, kept, Option.map_some, ptr, Int.toNat_natCast]

theorem arrived_own : arrived.Own 64 := fun xs path => by
  have two : Path arrived.mem.next (some 64) [64, 1024] := .cons (.cons .nil)
  rw [path.unique two]
  decide

def bytes (s : PbufUse) : Option Nat → List Int
  | none => []
  | some q => addresses (s.chain q)

theorem freeHeader_loop {n : Nat} {freeLeft : UInt16} (run : system.Run Fits s)
    (held : s.held = single r + rest) (path : Path s.mem.next r zs) (own : ∀ x ∈ zs, (s.mem.node x).ref = 1)
    (enough : s.live.card ≤ fuel) (steps : zs.length ≤ n) :
    ∃ q m' live', pbufFreeHeader fuel n r freeLeft s.mem = some (q, m') ∧
      let t : PbufUse := ⟨m', live', single q + rest⟩
      system.Run Fits t ∧ t.bytes q = (addresses (zs.map (piece s.mem))).drop freeLeft.toNat ∧
        ∀ h ∈ rest, t.chain h = s.chain h := by
  induction zs generalizing s r n freeLeft with
  | nil =>
      cases path
      obtain ⟨mem, live, _⟩ := s
      obtain rfl := held
      exact ⟨none, mem, live, by cases n <;> rfl, run, (List.drop_nil).symm, fun _ _ => rfl⟩
  | cons p zs ih =>
      obtain ⟨n, rfl⟩ : ∃ k, n = k + 1 := ⟨n - 1, by rw [List.length_cons] at steps; omega⟩
      have nodup := List.nodup_cons.mp path.nodup
      have once := own p List.mem_cons_self
      cases path with
      | cons path =>
          have c := (run_follows run).1
          have held' : s.held = p ::ₘ rest := held.trans (Multiset.singleton_add _ _)
          have live : p ∈ s.live := c.sound.held (by simp [links, held'])
          have value : s.chain p = (p :: zs).map (piece s.mem) := c.sound.value_eq live (.cons path)
          by_cases done : freeLeft = 0
          · obtain ⟨mem, nodes, _⟩ := s
            obtain rfl := held
            refine ⟨some p, mem, nodes, by rw [pbufFreeHeader, if_pos done], run, ?_, fun _ _ => rfl⟩
            rw [bytes, value, done]
            rfl
          · by_cases whole : freeLeft ≥ (s.mem.node p).len
            · obtain ⟨mem, e, untouched, -, v, -, -, others⟩ := c.popHeader held' once enough
              have run₁ := run.step (l := PbufCall.popHeader p) trivial (Step.popHeader held' once enough e)
              have same : ∀ x ∈ zs, mem.node x = s.mem.node x :=
                fun x hx => untouched x (ne_of_mem_of_not_mem hx nodup.1)
              have path₁ : Path mem.next (s.mem.next p) zs := path.congr fun x hx => congrArg PbufNode.next (same x hx)
              have own₁ : ∀ x ∈ zs, (mem.node x).ref = 1 := fun x hx => by
                rw [same x hx]
                exact own x (List.mem_cons_of_mem _ hx)
              have pieces : zs.map (piece mem) = zs.map (piece s.mem) := List.map_congr_left fun x hx => by
                rw [piece, piece, same x hx]
              obtain ⟨q, m', live', loop, run', left, others'⟩ :=
                @ih _ _ n (freeLeft - (s.mem.node p).len) run₁ rfl path₁ own₁
                ((Finset.card_le_card (Finset.erase_subset _ _)).trans enough) (Nat.le_of_succ_le_succ steps)
              refine ⟨q, m', live', ?_, run', left.trans ?_, fun h hh => (others' h hh).trans (others h hh)⟩
              · rw [pbufFreeHeader, if_neg done, if_pos whole, e]
                exact loop
              · have less : (freeLeft - (s.mem.node p).len).toNat = freeLeft.toNat - (s.mem.node p).len.toNat :=
                  UInt16.toNat_sub_of_le _ _ whole
                have whole' := UInt16.le_iff_toNat_le.mp whole
                rw [pieces, less]
                exact (addresses_skip (a := piece s.mem p) whole').symm
            · have short := UInt16.lt_iff_toNat_lt.mp (UInt16.not_le.mp whole)
              cases e : pbufRemoveHeader p freeLeft.toNat s.mem with
              | mk failed mem =>
                  have hp : p ∈ s.held := by simp [held']
                  have run₁ := run.step (l := PbufCall.removeHeader p freeLeft.toNat failed) trivial
                    (Step.removeHeader hp once e)
                  obtain ⟨-, a, v, -, before, ⟨-, small, -⟩ | ⟨-, fits, here, others⟩⟩ := c.removeHeader held' once e
                  · obtain ⟨rfl, -⟩ := List.cons.inj (value.symm.trans before)
                    exact absurd small (Nat.not_lt.mpr (Nat.le_of_lt short))
                  · refine ⟨some p, mem, s.live, ?_, ?_, ?_, others⟩
                    · rw [pbufFreeHeader, if_neg done, if_neg whole, e]
                    · rw [← held]
                      exact run₁
                    · rw [← value, before, ← addresses_drop fits]
                      exact congrArg addresses here

/-- The chain loses its first bytes, and nothing else sees it. -/
theorem run_freeHeader {size : UInt16} (run : system.Run Fits s) (held : s.held = p ::ₘ rest) (own : s.Own p)
    (enough : s.live.card ≤ fuel) :
    ∃ q m' live', pbufFreeHeader fuel fuel (some p) size s.mem = some (q, m') ∧
      let t : PbufUse := ⟨m', live', single q + rest⟩
      system.Run Fits t ∧ t.bytes q = (addresses (s.chain p)).drop size.toNat ∧
        ∀ h ∈ rest, t.chain h = s.chain h := by
  have c := (run_follows run).1
  have live : p ∈ s.live := c.sound.held (by simp [links, held])
  obtain ⟨zs, path⟩ := c.sound.ends p live
  have value : s.chain p = zs.map (piece s.mem) := c.sound.value_eq live path
  rw [value]
  exact freeHeader_loop run (r := some p) (held.trans (Multiset.singleton_add _ _).symm) path (own zs path) enough
    ((c.sound.length live path).trans enough)

theorem run_freeHeader_arrived : ∃ q m' live', pbufFreeHeader 2 2 (some 64) 600 received = some (q, m') ∧
    bytes ⟨m', live', single q + 0⟩ q = (addresses (arrived.chain 64)).drop 600 := by
  obtain ⟨q, m', live', e, -, left, -⟩ := @run_freeHeader arrived 64 0 2 600 arrived_run rfl arrived_own (by decide)
  exact ⟨q, m', live', e, left⟩

end Oinzen.PbufUse
