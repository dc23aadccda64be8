import Oinzen.Pbuf.Calls

/-!
# What callers of pbuf functions can rely on

A reference stands for a list of pieces. In every run a call changes the lists of the references that it is
given and no other; the counts are those of the references, so that a pbuf goes back when the last one is
given up.
-/

namespace Oinzen.PbufUse

open Interference Sharing PbufMem Links

variable {s s' : PbufUse} {call : PbufCall} {m' : PbufMem} {p x : Nat} {r : Option Nat} {rest : Multiset Nat}
  {xs zs : List Nat}

inductive ChainStep : Multiset (List Piece) → PbufCall → Multiset (List Piece) → Prop
  | allocated {vs v length p} : Begins p v → totLen v = length.toNat → (∀ a ∈ v, ∀ w ∈ vs, a.pbuf ∉ w.map Piece.pbuf) →
      ChainStep vs (.alloc length (some p)) (v ::ₘ vs)
  | allocFails {vs length} : ChainStep vs (.alloc length none) vs
  | ref {p v vs} : Begins p v → ChainStep (v ::ₘ vs) (.ref p) (v ::ₘ v ::ₘ vs)
  | gone {a v vs} : (∀ w ∈ vs, a.pbuf ∉ w.map Piece.pbuf) →
      ChainStep ((a :: v) ::ₘ vs) (.free a.pbuf true) (remains v + vs)
  | stays {p v vs} : Begins p v → (∃ w ∈ vs, p ∈ w.map Piece.pbuf) → ChainStep (v ::ₘ vs) (.free p false) vs
  | cat {h t v w vs} : Begins h v → Begins t w → ChainStep (v ::ₘ w ::ₘ vs) (.cat h t) ((v ++ w) ::ₘ vs)
  | chain {h t v w vs} : Begins h v → Begins t w → ChainStep (v ::ₘ w ::ₘ vs) (.chain h t) ((v ++ w) ::ₘ w ::ₘ vs)
  | dechain {a v vs} : ChainStep ((a :: v) ::ₘ vs) (.dechain a.pbuf) (remains v + [a] ::ₘ vs)
  | reallocKeeps {p v vs newLen} : Begins p v → totLen v ≤ newLen.toNat →
      ChainStep (v ::ₘ vs) (.realloc p newLen) (v ::ₘ vs)
  | realloc {p front a back k vs newLen} : Begins p (front ++ a :: back) → newLen.toNat < totLen (front ++ a :: back) →
      k ≤ a.len → totLen front + k.toNat = newLen.toNat →
      ChainStep ((front ++ a :: back) ::ₘ vs) (.realloc p newLen)
        (remains back + (front ++ [{ a with len := k }]) ::ₘ vs)
  | addHeader {a v vs size} : totLen (a :: v) + size < 65536 →
      ChainStep ((a :: v) ::ₘ vs) (.addHeader a.pbuf size false)
        ((⟨a.pbuf, a.payload - size, a.len + .ofNat size⟩ :: v) ::ₘ vs)
  | addHeaderFails {p vs size} : ChainStep vs (.addHeader p size true) vs
  | removeHeader {a v vs size} : size ≤ a.len.toNat →
      ChainStep ((a :: v) ::ₘ vs) (.removeHeader a.pbuf size false)
        ((⟨a.pbuf, a.payload + size, a.len - .ofNat size⟩ :: v) ::ₘ vs)
  | removeHeaderFails {a v vs size} : a.len.toNat < size →
      ChainStep ((a :: v) ::ₘ vs) (.removeHeader a.pbuf size true) ((a :: v) ::ₘ vs)
  | popHeader {a v vs} : ChainStep ((a :: v) ::ₘ vs) (.popHeader a.pbuf) (remains v + vs)

theorem Counted.chain_live {a : Piece} (c : s.Counted) (live : p ∈ s.live) (ha : a ∈ s.chain p) : a.pbuf ∈ s.live := by
  obtain ⟨xs, path, value⟩ := c.chain_eq live
  rw [value] at ha
  obtain ⟨x, hx, rfl⟩ := List.mem_map.mp ha
  exact c.sound.path (fun y e => by cases e; exact live) path x hx

theorem Counted.absent (c : s.Counted) (refs : ∀ r ∈ rest, r ∈ s.live) (out : x ∉ s.live) :
    ∀ w ∈ s.seen rest, x ∉ w.map Piece.pbuf := by
  intro w hw member
  obtain ⟨r, hr, rfl⟩ := Multiset.mem_map.mp hw
  obtain ⟨a, ha, rfl⟩ := List.mem_map.mp member
  exact out (c.chain_live (refs r hr) ha)

theorem Counted.present (c : s.Counted) (live : x ∈ s.live) : ∃ w ∈ s.view, x ∈ w.map Piece.pbuf := by
  obtain ⟨r, hr, xs, path, hx⟩ := c.sound.reached.mp live
  have value : s.chain r = xs.map (piece s.mem) := c.sound.value_eq (c.sound.held hr) path
  refine ⟨s.chain r, Multiset.mem_map_of_mem _ hr, ?_⟩
  rw [value, List.map_map]
  exact List.mem_map.mpr ⟨x, hx, rfl⟩

theorem Counted.step (c : s.Counted) (inside : s.AllInside) (fits : s.Fits call) (step : Step s call s') :
    s'.Counted ∧ ChainStep s.view call s'.view := by
  cases step with
  | @allocated _ gets p mem qs fresh distinct allocates path =>
      obtain ⟨qs, gives⟩ := allocates.gives distinct
      obtain ⟨traffic, built⟩ := gives.some _ rfl
      rw [path.unique built.path]
      obtain ⟨counted, bytes, others⟩ := c.allocated fresh gives
      have live : p ∈ s.live ∪ qs.toFinset := counted.sound.held (Multiset.mem_cons_self p s.held)
      have value := counted.sound.value_eq (f := piece mem) live built.path
      have new : ∀ a ∈ (PbufUse.mk mem (s.live ∪ qs.toFinset) (p ::ₘ s.held)).chain p, ∀ w ∈ s.view,
          a.pbuf ∉ w.map Piece.pbuf := by
        intro a ha
        rw [PbufUse.chain, value] at ha
        obtain ⟨x, hx, rfl⟩ := List.mem_map.mp ha
        exact c.absent (fun r hr => c.sound.held hr) (fresh x (gives.taken x hx))
      have begins := counted.begins live
      rw [view_cons, seen_same others]
      exact ⟨counted, .allocated begins bytes new⟩
  | allocFails fresh distinct allocates =>
      obtain ⟨qs, gives⟩ := allocates.gives distinct
      obtain ⟨counted, view'⟩ := c.allocFails fresh gives
      rw [view']
      exact ⟨counted, .allocFails⟩
  | @ref p hp =>
      obtain ⟨rest, held⟩ := Multiset.exists_cons_of_mem hp
      obtain ⟨counted, same⟩ := c.ref (c.sound.held hp) fits
      rw [view_cons, same, seen_same fun r _ => same r, ← view, view_held held]
      exact ⟨counted, .ref (c.begins (c.sound.held hp))⟩
  | @gone p rest mem held pass =>
      obtain ⟨mem, -, -, ⟨pass', -, -, counted, v, before, behind, others⟩ | ⟨pass', -⟩⟩ := c.free held
      · rw [pass'] at pass
        cases pass
        have last : ∀ w ∈ s.seen rest, p ∉ w.map Piece.pbuf := by
          rw [← seen_same others]
          refine counted.absent (fun r hr => counted.sound.held ?_) (Finset.notMem_erase p s.live)
          exact Multiset.mem_add.mpr (Or.inr hr)
        rw [view_held held, before, view_add rfl, behind, seen_same others]
        exact ⟨counted, .gone last⟩
      · rw [pass'] at pass
        cases pass
  | @stays p rest _ held pass =>
      have live : p ∈ s.live := c.sound.held (by simp [links, held])
      obtain ⟨mem, -, -, ⟨pass', -⟩ | ⟨pass', -, -, counted, before⟩⟩ := c.free held
      · rw [pass'] at pass
        cases pass
      · rw [pass'] at pass
        cases pass
        have other := counted.present live
        rw [view, seen_same fun r _ => before r] at other
        rw [view_held held, view, seen_same fun r _ => before r]
        exact ⟨counted, .stays (c.begins live) other⟩
  | @cat h _ _ _ _ held own enough e =>
      obtain ⟨mem, e', counted, -, -, joined, -, others, live⟩ := c.cat held own fits enough
      rw [e'] at e
      cases e
      have live_h : h ∈ s.live := c.sound.held (by simp [links, held])
      rw [view_held held, seen_of_cons rfl, view_cons, joined, seen_same others]
      exact ⟨counted, .cat (c.begins live_h) (c.begins live)⟩
  | @chain h _ _ _ _ held own enough e =>
      obtain ⟨mem, e', -, counted, joined, tail, others, live⟩ := c.chain held own fits.1 fits.2 enough
      obtain rfl := Option.some.inj (e'.symm.trans e)
      have live_h : h ∈ s.live := c.sound.held (by simp [links, held])
      rw [view_held held, seen_of_cons rfl, view_held (s := ⟨mem, s.live, s.held⟩) held, joined, seen_of_cons rfl, tail,
        seen_same others]
      exact ⟨counted, .chain (c.begins live_h) (c.begins live)⟩
  | dechain hp once e =>
      obtain ⟨rest, held⟩ := Multiset.exists_cons_of_mem hp
      obtain ⟨counted, -, -, v, before, here, left, others⟩ := c.dechain held once e
      rw [view_held held, before, view_add rfl, left, seen_of_cons held, here, seen_same others]
      exact ⟨counted, .dechain⟩
  | @realloc _ newLen _ _ _ _ hp own trims enough e =>
      obtain ⟨rest, held⟩ := Multiset.exists_cons_of_mem hp
      obtain ⟨r, mem, e', counted, -, -, ⟨longer, rfl, rfl⟩ | ⟨shorter, front, a, back, k, whole, small, sum, here,
        left, others⟩⟩ :=
        @Counted.realloc _ _ _ newLen _ _ c inside held own trims enough
      · rw [e'] at e
        cases e
        have same : view ⟨s.mem, s.live, single none + s.held⟩ = s.view :=
          (view_add rfl).trans (Multiset.zero_add _)
        rw [same, view_held held]
        exact ⟨counted, .reallocKeeps (c.begins (c.sound.held hp)) longer⟩
      · rw [e'] at e
        cases e
        have begin_p := c.begins (c.sound.held hp)
        rw [whole] at begin_p shorter
        rw [view_held held, whole, view_add rfl, left, seen_of_cons held, here, seen_same others]
        exact ⟨counted, .realloc begin_p shorter small sum⟩
  | @addHeader _ _ _ _ mem hp once e =>
      obtain ⟨rest, held⟩ := Multiset.exists_cons_of_mem hp
      obtain ⟨counted, ⟨rfl, rfl⟩ | ⟨rfl, room, a, v, rfl, before, here, others⟩⟩ := c.addHeader held once e
      · exact ⟨counted, .addHeaderFails⟩
      · rw [before] at room
        rw [view_held held, before, view_held (s := ⟨mem, s.live, s.held⟩) held, here, seen_same others]
        exact ⟨counted, .addHeader room⟩
  | @removeHeader _ _ _ mem hp once e =>
      obtain ⟨rest, held⟩ := Multiset.exists_cons_of_mem hp
      obtain ⟨counted, a, v, rfl, before, ⟨rfl, short, rfl⟩ | ⟨rfl, enough, here, others⟩⟩ := c.removeHeader held once e
      · refine ⟨counted, ?_⟩
        change ChainStep s.view _ s.view
        rw [view_held held, before]
        exact .removeHeaderFails short
      · rw [view_held held, before, view_held (s := ⟨mem, s.live, s.held⟩) held, here, seen_same others]
        exact ⟨counted, .removeHeader enough⟩
  | popHeader held once enough e =>
      obtain ⟨mem, e', -, counted, v, before, left, others⟩ := c.popHeader held once enough
      rw [e'] at e
      cases e
      rw [view_held held, before, view_add rfl, left, seen_same others]
      exact ⟨counted, .popHeader⟩

theorem AllInside.step (inside : s.AllInside) (c : s.Counted) (step : Step s call s') : s'.AllInside := by
  have safe : ∀ {mem : PbufMem} {live : Finset Nat} {held : Multiset Nat}, Safe s.mem mem → live ⊆ s.live →
      AllInside ⟨mem, live, held⟩ := fun safe sub x hx => safe x (inside x (sub hx))
  cases step with
  | allocated fresh distinct allocates path =>
      obtain ⟨qs, gives⟩ := allocates.gives distinct
      obtain ⟨traffic, built⟩ := gives.some _ rfl
      have takes := allocates.takes
      obtain ⟨qs', traffic', insides⟩ := takes.taken _ rfl
      obtain rfl := path.unique built.path
      have taken := List.append_cancel_left (traffic.symm.trans traffic')
      have same : qs' = _ := (List.map_injective_iff.mpr (fun _ _ => Traffic.taken.inj) taken).symm
      intro x hx
      rcases Finset.mem_union.mp hx with old | new
      · exact takes.others x (fun got => fresh x got old) (inside x old)
      · exact insides x (same ▸ List.mem_toFinset.mp new)
  | allocFails fresh distinct allocates =>
      exact fun x hx => allocates.takes.others x (fun got => fresh x got hx) (inside x hx)
  | ref => exact safe pbufRef_safe (Finset.Subset.refl _)
  | @gone p rest mem held pass =>
      have same : (freePass p s.mem).2 = mem := by rw [pass]
      exact safe (same ▸ freePass_safe) (Finset.erase_subset _ _)
  | @stays p rest mem held pass =>
      have same : (freePass p s.mem).2 = mem := by rw [pass]
      exact safe (same ▸ freePass_safe) (Finset.Subset.refl _)
  | cat _ _ _ e => exact safe (pbufCat_safe e) (Finset.Subset.refl _)
  | chain _ _ _ e => exact safe (pbufChain_safe e) (Finset.Subset.refl _)
  | dechain _ _ e => exact safe (dechainCut_safe e) (Finset.Subset.refl _)
  | realloc hp own trims enough e =>
      obtain ⟨rest, held⟩ := Multiset.exists_cons_of_mem hp
      obtain ⟨r, mem, e', -, kept, -⟩ := c.realloc inside held own trims enough
      rw [e'] at e
      cases e
      exact safe kept (Finset.Subset.refl _)
  | addHeader _ _ e => exact safe (pbufAddHeader_safe e) (Finset.Subset.refl _)
  | removeHeader _ _ e => exact safe (pbufRemoveHeader_safe e) (Finset.Subset.refl _)
  | popHeader _ _ _ e => exact safe (popHeader_safe e) (Finset.erase_subset _ _)

theorem start_inside (start : system.start s) : s.AllInside := fun x hx => by
  rw [start.1] at hx
  cases hx

theorem run_follows (r : system.Run Fits s) : s.Counted ∧ s.AllInside :=
  r.invariant (I := fun s => s.Counted ∧ s.AllInside) (fun _ start => ⟨start_counted start, start_inside start⟩)
    fun _ _ _ _ kept fits step => ⟨(kept.1.step kept.2 fits step).1, kept.2.step kept.1 step⟩

/-! ## A run -/

def blank : PbufMem := ⟨fun _ => ⟨none, 0, 0, 0, .ram, false, 0⟩, fun _ => 0, [], false⟩

def received : PbufMem := ((pbufAlloc 2 .raw 700 .pool [some 64, some 1024] blank).getD (none, blank)).2

def headed : PbufMem := ((pbufAlloc 1 .link 20 .ram [some 4096] received).getD (none, blank)).2

def arrived : PbufUse := ⟨received, {64, 1024}, {64}⟩

def lent : PbufUse := ⟨headed, {64, 1024} ∪ {4096}, {4096, 64}⟩

def sent : PbufUse := ⟨(pbufChain 3 4096 64 headed).getD blank, {64, 1024} ∪ {4096}, {4096, 64}⟩

theorem arrived_run : system.Run Fits arrived := by
  have pool : pbufAlloc 2 .raw 700 .pool [some 64, some 1024] blank = some (some 64, received) := rfl
  have path : Path received.next (some 64) [64, 1024] := .cons (.cons .nil)
  have start : system.Run Fits ⟨blank, ∅, 0⟩ := .start ⟨rfl, rfl, rfl, rfl⟩
  exact start.step (l := PbufCall.alloc 700 (some 64)) trivial
    (Step.allocated (by simp) (by decide) (.alloc (by simp; decide) (le_refl 2) pool) path)

theorem lent_run : system.Run Fits lent := by
  have ram : pbufAlloc 1 .link 20 .ram [some 4096] received = some (some 4096, headed) := rfl
  have path : Path headed.next (some 4096) [4096] := .cons .nil
  exact arrived_run.step (l := PbufCall.alloc 20 (some 4096)) trivial
    (Step.allocated (by simp [arrived]) (by decide) (.alloc (by simp; decide) (le_refl 1) ram) path)

theorem lent_own : lent.Own 4096 := fun xs other => by
  have path : Path headed.next (some 4096) [4096] := .cons .nil
  rw [other.unique path]
  decide

theorem lent_fits : lent.Fits (.chain 4096 64) := ⟨by decide, by decide⟩

theorem lent_sends : Step lent (.chain 4096 64) sent := by
  have chained : pbufChain 3 4096 64 headed = some sent.mem := rfl
  have held : lent.held = 4096 ::ₘ 64 ::ₘ 0 := rfl
  exact .chain held lent_own (by decide) chained

theorem sent_run : system.Run Fits sent := lent_run.step lent_fits lent_sends

theorem Counted.overflow (c : s.Counted) (inside : s.AllInside) (step : Step s call s') :
    s'.mem.failed = true ↔ ∃ p, call.counts = some p ∧ (s.mem.node p).ref = 255 := by
  have calm : s.Fits call → (∀ p, call.counts = some p → (s.mem.node p).ref ≠ 255) →
      (s'.mem.failed = true ↔ ∃ p, call.counts = some p ∧ (s.mem.node p).ref = 255) := fun fits less => by
    rw [(c.step inside fits step).1.failed]
    refine iff_of_false Bool.false_ne_true ?_
    rintro ⟨p, counts, full⟩
    exact less p counts full
  cases step with
  | @ref p hp =>
      rw [pbufRef_failed, c.failed, Bool.false_or, decide_eq_true_eq]
      refine ⟨fun full => ⟨p, rfl, full⟩, ?_⟩
      rintro ⟨_, same, full⟩
      exact Option.some.inj same ▸ full
  | cat held own enough e =>
      obtain ⟨mem, e', failed, -⟩ := c.cat_failed held own enough
      rw [e'] at e
      cases e
      simp only [failed]
      refine iff_of_false Bool.false_ne_true ?_
      rintro ⟨p, counts, _⟩
      cases counts
  | @chain h t rest fuel mem held own enough e =>
      obtain ⟨joined, e', failed, count⟩ := c.cat_failed held own enough
      rw [pbufChain, e', Option.map_some] at e
      cases e
      rw [pbufRef_failed, failed, Bool.false_or, decide_eq_true_eq, count]
      refine ⟨fun full => ⟨t, rfl, full⟩, ?_⟩
      rintro ⟨_, same, full⟩
      exact Option.some.inj same ▸ full
  | allocated | allocFails | gone | stays | dechain | realloc | addHeader | removeHeader | popHeader =>
      exact calm trivial fun p counts => (by cases counts)

/-- No pbuf is taken or released twice, and those are allocated that a caller can reach. -/
theorem run_traffic (r : system.Run Fits s) :
    replay ∅ s.mem.traffic = some s.live ∧
      (∀ x, x ∈ s.live ↔ ∃ h ∈ s.held, ∃ xs, Path s.mem.next (some h) xs ∧ x ∈ xs) ∧ (s.held = 0 → s.live = ∅) := by
  have c := (run_follows r).1
  have reached : ∀ x, x ∈ s.live ↔ ∃ h ∈ s.held, ∃ xs, Path s.mem.next (some h) xs ∧ x ∈ xs := fun x => c.sound.reached
  refine ⟨c.traffic, reached, fun none => Finset.eq_empty_of_forall_notMem fun x hx => ?_⟩
  obtain ⟨h, hh, -⟩ := (reached x).mp hx
  rw [none] at hh
  exact absurd hh (Multiset.notMem_zero h)

theorem run_traffic_sent : replay ∅ [.taken 64, .taken 1024, .taken 4096] = some sent.live ∧
    ∃ h ∈ sent.held, ∃ xs, Path sent.mem.next (some h) xs ∧ 1024 ∈ xs :=
  ⟨(run_traffic sent_run).1, ((run_traffic sent_run).2.1 1024).mp (by decide)⟩

/-- In every run the pbufs stay inside their memory. -/
theorem run_inside (r : system.Run Fits s) : ∀ x ∈ s.live, Inside (s.mem.heap x) x (s.mem.node x) := (run_follows r).2

theorem run_inside_sent : (1024 + sizeofStructPbuf : Nat) ≤ (sent.mem.node 1024).payload ∧
    (sent.mem.node 1024).payload + (sent.mem.node 1024).len.toNat ≤ (1024 + sizeofStructPbuf + pbufPoolBufsizeAligned : Nat) ∧
    (sent.mem.node 4096).payload + (sent.mem.node 4096).len.toNat ≤ (4096 + 52 : Nat) := by
  have pool := run_inside sent_run 1024 (by decide)
  have heap := run_inside sent_run 4096 (by decide)
  exact ⟨pool.front (by decide) (by decide), pool.pool (by decide) (by decide), (heap.heap (by decide) (by decide)).1⟩

end Oinzen.PbufUse
