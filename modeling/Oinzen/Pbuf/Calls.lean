import Oinzen.Pbuf.Bounds

/-!
# Calls that make and change chains

What a new chain, a shorter one and a moved header do to the counts, and to what the callers see.
-/

namespace Oinzen.PbufUse

open Sharing PbufMem Links

variable {s : PbufUse} {m m' : PbufMem} {p q x l : Nat} {r : Option Nat} {rest : Multiset Nat} {xs ys as bs qs : List Nat}

def totLen (v : List Piece) : Nat := (v.map fun a => a.len.toNat).sum

theorem totLen_piece (m : PbufMem) (xs : List Nat) : totLen (xs.map (piece m)) = m.lens xs := by
  rw [totLen, List.map_map, PbufMem.lens]
  rfl

/-! ## New chains -/

theorem replay_takes {live : Finset Nat} (nodup : xs.Nodup) (fresh : ∀ x ∈ xs, x ∉ live) :
    replay live (xs.map .taken) = some (live ∪ xs.toFinset) := by
  induction xs generalizing live with
  | nil => simp [replay]
  | cons x xs ih =>
      obtain ⟨hx, nodup⟩ := List.nodup_cons.mp nodup
      rw [List.map_cons, replay_taken (fresh x List.mem_cons_self), ih nodup fun y hy => ?_]
      · congr 1
        ext y
        simp only [Finset.mem_union, Finset.mem_insert, List.mem_toFinset, List.mem_cons]
        tauto
      · rw [Finset.mem_insert]
        rintro (rfl | old)
        · exact hx hy
        · exact fresh y (List.mem_cons_of_mem _ hy) old

theorem replay_releases {live : Finset Nat} (nodup : xs.Nodup) (used : ∀ x ∈ xs, x ∈ live) :
    replay live (xs.map .released) = some (live \ xs.toFinset) := by
  induction xs generalizing live with
  | nil => simp [replay]
  | cons x xs ih =>
      obtain ⟨hx, nodup⟩ := List.nodup_cons.mp nodup
      rw [List.map_cons, replay_released (used x List.mem_cons_self), ih nodup fun y hy => ?_]
      · congr 1
        ext y
        simp only [Finset.mem_sdiff, Finset.mem_erase, List.mem_toFinset, List.mem_cons]
        tauto
      · exact Finset.mem_erase.mpr ⟨ne_of_mem_of_not_mem hy hx, used y (List.mem_cons_of_mem _ hy)⟩

structure Gives (m : PbufMem) (length : UInt16) (gets : List (Option Nat)) (r : Option Nat) (m' : PbufMem)
    (qs : List Nat) : Prop where
  failed : m'.failed = m.failed
  others : ∀ x, some x ∉ gets → m'.node x = m.node x
  taken : ∀ q ∈ qs, some q ∈ gets
  nodup : qs.Nodup
  none : r = none → m'.traffic = m.traffic ++ (qs.map .taken ++ qs.map .released)
  some : ∀ p, r = some p → m'.traffic = m.traffic ++ qs.map .taken ∧ Built m' p qs length.toNat

theorem Gives.nothing {length : UInt16} {gets : List (Option Nat)} : Gives m length gets .none m [] where
  failed := rfl
  others _ _ := rfl
  taken _ hq := by cases hq
  nodup := List.nodup_nil
  none _ := (List.append_nil _).symm
  some _ h := by cases h

theorem Gives.one {payload : Int} {length : UInt16} {type : PbufType} {isCustom : Bool} {gets : List (Option Nat)}
    (got : .some p ∈ gets) :
    Gives m length gets (.some p) (m.pbufInitAllocedPbuf p payload length length type isCustom) [p] where
  failed := rfl
  others x hx := init_of_ne fun e => hx (e ▸ got)
  taken q hq := List.mem_singleton.mp hq ▸ got
  nodup := List.nodup_singleton p
  none h := by cases h
  some q h := by
    cases h
    have bytes : (m.pbufInitAllocedPbuf p payload length length type isCustom).lens [p] = length.toNat := by
      rw [lens, List.map_singleton, List.sum_singleton, init_self]
    refine ⟨rfl, init_path, fun x hx => ?_, ⟨?_, trivial⟩, bytes⟩
    · rw [List.mem_singleton.mp hx, init_self]
    · rw [bytes, init_self]
      rfl

theorem Gives.heap {heap : Nat → Nat} {length : UInt16} {gets : List (Option Nat)}
    (g : Gives { m with heap := heap } length gets r m' qs) : Gives m length gets r m' qs :=
  ⟨g.failed, g.others, g.taken, g.nodup, g.none, g.some⟩

theorem Gives.pool {fuel offset : Nat} {length : UInt16} {gets : List (Option Nat)}
    (e : poolLoop fuel .none .none length offset m gets = .some (r, m')) (distinct : gets.reduceOption.Nodup)
    (enough : gets.length ≤ fuel) : ∃ qs, Gives m length gets r m' qs := by
  obtain ⟨failed, others, qs, taken, nodup, none, some⟩ := @poolLoop_spec m r [] fuel gets length offset m' e .nil
    (fun x hx => by cases hx) trivial (fun x _ hx => by cases hx) distinct (by simpa using enough)
  refine ⟨qs, failed, fun x hx => others x (by simp) hx, taken, nodup, fun h => ?_, fun p h => ?_⟩
  · rw [none h, List.append_assoc]
    rfl
  · obtain ⟨traffic, built⟩ := some p h
    refine ⟨traffic, ?_⟩
    have bytes : m.lens [] + length.toNat = length.toNat := Nat.zero_add _
    rwa [List.nil_append, bytes] at built

theorem Allocates.gives {length : UInt16} {gets : List (Option Nat)} (a : Allocates m length gets r m')
    (distinct : gets.reduceOption.Nodup) : ∃ qs, Gives m length gets r m' qs := by
  have reference : ∀ {payload type gets r m'}, type = .ref ∨ type = .rom →
      pbufAllocReference payload length type m gets = some (r, m') → ∃ qs, Gives m length gets r m' qs :=
        fun {_ _ gets _ _} valid e => by
    rw [pbufAllocReference.eq_def, lwipAssert_true (by simpa using valid)] at e
    rcases gets with _ | ⟨_ | p, _⟩
    · cases e
    · cases e
      exact ⟨[], .nothing⟩
    · cases e
      exact ⟨[p], .one List.mem_cons_self⟩
  cases a with
  | reference valid e => exact reference valid e
  | @custom _ _ p _ _ _ _ e =>
      unfold pbufAllocedCustom at e
      split at e
      · cases e
        exact ⟨[], .nothing⟩
      · cases e
        exact ⟨[p], .one List.mem_cons_self⟩
  | @alloc _ layer type gets _ _ _ enough e =>
      cases type with
      | ref => exact reference (Or.inl rfl) e
      | rom => exact reference (Or.inr rfl) e
      | pool => exact Gives.pool e distinct enough
      | ram =>
          unfold pbufAlloc allocRam at e
          dsimp only at e
          split at e
          · cases e
            exact ⟨[], .nothing⟩
          · rcases gets with _ | ⟨_ | p, _⟩
            · cases e
            · cases e
              exact ⟨[], .nothing⟩
            · cases e
              exact ⟨[p], .heap (.one List.mem_cons_self)⟩

theorem totals_each {next : Nat → Option Nat} (path : Path next r xs) (totals : Totals m 0 xs) :
    after m r = m.lens xs ∧ ∀ x ∈ xs, (m.node x).totLen.toNat = (m.node x).len.toNat + after m (next x) := by
  induction path with
  | nil => exact ⟨rfl, fun x hx => by cases hx⟩
  | @cons x xs _ ih =>
      obtain ⟨here, totals⟩ := totals
      obtain ⟨behind, each⟩ := ih totals
      refine ⟨here, fun y hy => ?_⟩
      rcases List.mem_cons.mp hy with rfl | hy
      · rw [here, behind, PbufMem.lens, PbufMem.lens, List.map_cons, List.sum_cons]
        rfl
      · exact each y hy

theorem Counted.congr (c : s.Counted) (same : ∀ x ∈ s.live, m'.node x = s.mem.node x)
    (traffic : replay ∅ m'.traffic = some s.live) (failed : m'.failed = false) :
    Counted ⟨m', s.live, s.held⟩ ∧ ∀ r ∈ s.live, chain ⟨m', s.live, s.held⟩ r = s.chain r := by
  have next : ∀ x ∈ s.live, m'.next x = s.mem.next x := fun x hx => congrArg PbufNode.next (same x hx)
  obtain ⟨sound, refs⟩ := c.sound.congr (t := links ⟨m', s.live, s.held⟩) rfl rfl next
  refine ⟨⟨sound, fun x hx => ?_, fun x hx => ?_, traffic, failed⟩, fun r hr => ?_⟩
  · rw [refs, same x hx]
    exact c.refs x hx
  · exact total_congr (same x hx) (fun y link => same y (c.sound.link hx link)) (c.totals x hx)
  · refine c.sound.value_congr (t := links ⟨m', s.live, s.held⟩) rfl rfl (fun x hx => ⟨next x hx, ?_⟩) hr
    rw [piece, piece, same x hx]

theorem Counted.allocFails {length : UInt16} {gets : List (Option Nat)} (c : s.Counted)
    (fresh : ∀ x, some x ∈ gets → x ∉ s.live) (g : Gives s.mem length gets none m' qs) :
    Counted ⟨m', s.live, s.held⟩ ∧ view ⟨m', s.live, s.held⟩ = s.view := by
  have others : ∀ x ∈ s.live, m'.node x = s.mem.node x := fun x hx => g.others x fun got => fresh x got hx
  have new : ∀ q ∈ qs, q ∉ s.live := fun q hq => fresh q (g.taken q hq)
  suffices traffic : replay ∅ m'.traffic = some s.live by
    obtain ⟨counted, view'⟩ := c.congr others traffic (g.failed.trans c.failed)
    exact ⟨counted, seen_same fun r hr => view' r (c.sound.held hr)⟩
  rw [g.none rfl, replay_append c.traffic, replay_append (replay_takes g.nodup new),
    replay_releases g.nodup fun x hx => Finset.mem_union_right _ (List.mem_toFinset.mpr hx)]
  congr 1
  ext x
  simp only [Finset.mem_sdiff, Finset.mem_union, List.mem_toFinset]
  constructor
  · rintro ⟨old | new, out⟩
    · exact old
    · exact absurd new out
  · exact fun old => ⟨Or.inl old, fun hx => new x hx old⟩

theorem Counted.allocated {length : UInt16} {gets : List (Option Nat)} (c : s.Counted)
    (fresh : ∀ x, some x ∈ gets → x ∉ s.live) (g : Gives s.mem length gets (some p) m' qs) :
    Counted ⟨m', s.live ∪ qs.toFinset, p ::ₘ s.held⟩ ∧
      totLen (chain ⟨m', s.live ∪ qs.toFinset, p ::ₘ s.held⟩ p) = length.toNat ∧
      ∀ r ∈ s.held, chain ⟨m', s.live ∪ qs.toFinset, p ::ₘ s.held⟩ r = s.chain r := by
  have others : ∀ x ∈ s.live, m'.node x = s.mem.node x := fun x hx => g.others x fun got => fresh x got hx
  have new : ∀ q ∈ qs, q ∉ s.live := fun q hq => fresh q (g.taken q hq)
  obtain ⟨traffic, built⟩ := g.some p rfl
  have added : Added s.links (links ⟨m', s.live ∪ qs.toFinset, p ::ₘ s.held⟩) p qs :=
    ⟨rfl, rfl, built.path, new, fun x hx => congrArg PbufNode.next (others x hx)⟩
  have apart : ∀ x ∈ s.live, x ∉ qs := fun x hx hq => new x hq hx
  refine ⟨⟨added.sound c.sound, fun x hx => ?_, fun x hx => ?_, ?_, g.failed.trans c.failed⟩, ?_, fun r hr => ?_⟩
  · rw [added.refs, Multiset.count_add, Multiset.coe_count]
    rcases Finset.mem_union.mp hx with old | hq
    · rw [List.count_eq_zero_of_not_mem (apart x old), Nat.zero_add, ← c.refs x old, others x old]
    · have hq := List.mem_toFinset.mp hq
      have out : x ∉ s.links.refs := fun h => new x hq (c.sound.closed x h)
      rw [List.count_eq_one_of_mem g.nodup hq, Multiset.count_eq_zero_of_notMem out, built.once x hq]
      rfl
  · rcases Finset.mem_union.mp hx with old | hq
    · exact total_congr (others x old) (fun y link => others y (c.sound.link old link)) (c.totals x old)
    · exact (totals_each built.path built.totals).2 x (List.mem_toFinset.mp hq)
  · rw [traffic, replay_append c.traffic, replay_takes g.nodup new]
  · rw [chain, added.value c.sound, totLen_piece, built.bytes]
  · refine added.others c.sound (fun x hx => ?_) (c.sound.held hr)
    rw [piece, piece, others x hx]

/-! ## Chains -/

theorem Counted.chain {h t fuel : Nat} (c : s.Counted) (held : s.held = h ::ₘ t ::ₘ rest) (own : s.Own h)
    (room : (s.mem.node h).totLen.toNat + (s.mem.node t).totLen.toNat < 65536) (less : (s.mem.node t).ref < 255)
    (enough : s.live.card ≤ fuel) :
    ∃ mem, pbufChain fuel h t s.mem = some mem ∧ mem.traffic = s.mem.traffic ∧
      let u : PbufUse := ⟨mem, s.live, s.held⟩
      u.Counted ∧ u.chain h = s.chain h ++ s.chain t ∧ u.chain t = s.chain t ∧ (∀ r ∈ rest, u.chain r = s.chain r) ∧
        t ∈ s.live := by
  obtain ⟨mem, e, joined, traffic, refs, head, tail, others, live⟩ := c.cat held own room enough
  have less' : (mem.node t).ref < 255 := by
    rw [refs]
    exact less
  obtain ⟨counted, view'⟩ := joined.ref live less'
  have swap : t ::ₘ h ::ₘ rest = s.held := (Multiset.cons_swap ..).trans held.symm
  refine ⟨pbufRef t mem, by rw [pbufChain, e]; rfl, traffic, swap ▸ counted, ?_, ?_, fun r hr => ?_, live⟩
  · exact (view' h).trans head
  · exact (view' t).trans tail
  · exact (view' r).trans (others r hr)

theorem lens_cons : m.lens (x :: xs) = (m.node x).len.toNat + m.lens xs := by
  rw [PbufMem.lens, List.map_cons, List.sum_cons, PbufMem.lens]

theorem realloc_writes {newLen k : UInt16} (c : s.Counted) (live : p ∈ s.live)
    (path : Path s.mem.next (some p) (as ++ l :: bs)) (shorter : newLen ≤ (s.mem.node p).totLen)
    (sum : s.mem.lens as + k.toNat = newLen.toNat) (small : k ≤ (s.mem.node l).len)
    (next : m'.next = Function.update s.mem.next l none)
    (cut : ∀ x ∈ as, m'.node x =
      { s.mem.node x with totLen := (s.mem.node x).totLen - ((s.mem.node p).totLen - newLen) })
    (here : m'.node l = { s.mem.node l with next := none, len := k, totLen := k }) :
    ∀ x ∈ as ++ [l], (m'.node x).totLen.toNat = (m'.node x).len.toNat + after m' (m'.next x) := by
  have start : ∀ x, some p = some x → x ∈ s.live := fun x e => by cases e; exact live
  have hl : l ∉ as := fun h => (List.nodup_append.mp path.nodup).2.2 l h l (by simp) rfl
  have shrink : ((s.mem.node p).totLen - newLen).toNat = (s.mem.node p).totLen.toNat - newLen.toNat :=
    UInt16.toNat_sub_of_le _ _ shorter
  have small := UInt16.le_iff_toNat_le.mp small
  have live_l : l ∈ s.live := c.sound.path start path l (by simp)
  have total_l := c.total (fun y e => by cases e; exact live_l) path.suffix
  have total_p := c.total start path
  rw [after, lens_cons] at total_l
  rw [after, lens_append, lens_cons] at total_p
  -- what is cut off lies behind each of them
  have above : ∀ x ∈ as, (s.mem.node l).totLen.toNat ≤ (s.mem.node x).totLen.toNat := fun x hx => by
    obtain ⟨cs, ds, rfl⟩ := List.append_of_mem hx
    have live_x := c.sound.path start path x (by simp)
    rw [List.append_assoc, List.cons_append] at path
    exact after_le c (fun y e => by cases e; exact live_x) path.suffix (by simp)
  have less : ∀ x ∈ as ++ [l], (m'.node x).totLen.toNat =
      (s.mem.node x).totLen.toNat - ((s.mem.node p).totLen.toNat - newLen.toNat) := fun x hx => by
    rcases List.mem_append.mp hx with hx | hx
    · have enough := above x hx
      rw [cut x hx, UInt16.toNat_sub_of_le, shrink]
      rw [UInt16.le_iff_toNat_le, shrink]
      omega
    · rw [List.mem_singleton.mp hx, here]
      simp only
      omega
  intro x hx
  by_cases final : x = l
  · rw [final, next, Function.update_self, here]
    rfl
  · have inside : x ∈ as := (List.mem_append.mp hx).resolve_right fun h => final (List.mem_singleton.mp h)
    obtain ⟨y, hy, link⟩ := path.next_mem inside
    have part := c.totals x (c.sound.path start path x (by simp [inside]))
    have above_y : (s.mem.node l).totLen.toNat ≤ (s.mem.node y).totLen.toNat := by
      rcases List.mem_append.mp hy with hy | hy
      · exact above y hy
      · rw [List.mem_singleton.mp hy]
    rw [next, Function.update_of_ne final, link, after, less x hx, less y hy, cut x inside]
    rw [link, after] at part
    simp only
    omega

theorem Counted.realloc {newLen : UInt16} {trim : Nat → Nat → Option Nat} {fuel : Nat} (c : s.Counted)
    (inside : s.AllInside) (held : s.held = p ::ₘ rest) (own : s.Own p) (trims : ∀ x ∈ s.live, Trims s.mem trim x)
    (enough : s.live.card ≤ fuel) :
    ∃ r mem, reallocCut trim fuel p newLen s.mem = some (r, mem) ∧
      let t : PbufUse := ⟨mem, s.live, single r + s.held⟩
      t.Counted ∧ Safe s.mem mem ∧ mem.traffic = s.mem.traffic ∧
        (totLen (s.chain p) ≤ newLen.toNat ∧ r = none ∧ mem = s.mem ∨
        newLen.toNat < totLen (s.chain p) ∧ ∃ front a back k, s.chain p = front ++ a :: back ∧ k ≤ a.len ∧
          totLen front + k.toNat = newLen.toNat ∧ t.chain p = front ++ [{ a with len := k }] ∧
          t.seen (single r) = remains back ∧ ∀ r ∈ rest, t.chain r = s.chain r) := by
  have live : p ∈ s.live := c.sound.held (by simp [links, held])
  obtain ⟨xs, path⟩ := c.sound.ends p live
  have total : (s.mem.node p).totLen.toNat = s.mem.lens xs := c.total (fun x e => by cases e; exact live) path
  have value : s.chain p = xs.map (piece s.mem) := c.sound.value_eq live path
  have bytes : totLen (s.chain p) = (s.mem.node p).totLen.toNat := by rw [value, totLen_piece, total]
  by_cases longer : newLen ≥ (s.mem.node p).totLen
  · have unchanged : single none + s.held = s.held := Multiset.zero_add _
    refine ⟨none, s.mem, by rw [reallocCut, if_pos longer], ?_, .refl _, rfl, Or.inl ⟨?_, rfl, rfl⟩⟩
    · rwa [unchanged]
    · rw [bytes]
      exact UInt16.le_iff_toNat_le.mp longer
  · have shorter := UInt16.not_le.mp longer
    have inside' : ∀ x ∈ xs, Inside (s.mem.heap x) x (s.mem.node x) := fun x hx =>
      inside x (c.sound.path (fun y e => by cases e; exact live) path x hx)
    have trims' : ∀ x ∈ xs, Trims s.mem trim x := fun x hx =>
      trims x (c.sound.path (fun y e => by cases e; exact live) path x hx)
    obtain ⟨as, l, bs, k, mem, rfl, e, sum, small, traffic, failed, next, safe, cut, here, others⟩ :=
      reallocCut_spec path inside' trims' total shorter ((c.sound.length live path).trans enough)
    have whole : Path s.mem.next (some p) ((as ++ [l]) ++ bs) := by
      rw [List.append_assoc]
      exact path
    have alone : s.links.Alone p rest (as ++ [l]) := by
      refine c.alone held whole fun x hx => own _ path x ?_
      rcases List.mem_append.mp hx with hx | hx <;> simp_all
    have hl : l ∉ as := fun h => (List.nodup_append.mp path.nodup).2.2 l h l (by simp) rfl
    have w : Writes s.mem mem (as ++ [l]) := by
      refine ⟨fun x => ?_, realloc_writes c live path (UInt16.le_of_lt shorter) sum small next cut here, others,
        traffic,
        failed⟩
      by_cases hx : x ∈ as ++ [l]
      · rcases List.mem_append.mp hx with hx | hx
        · rw [cut x hx]
        · rw [List.mem_singleton.mp hx, here]
      · rw [others x hx]
    have pieces : (as ++ [l]).map (piece mem) = as.map (piece s.mem) ++ [{ piece s.mem l with len := k }] := by
      rw [List.map_append, List.map_singleton, piece, here]
      congr 1
      refine List.map_congr_left fun x hx => ?_
      rw [piece, piece, cut x hx]
    have cut_sum : totLen (as.map (piece s.mem)) + k.toNat = newLen.toNat := by rw [totLen_piece, sum]
    have more : newLen.toNat < totLen (s.chain p) := by
      rw [bytes]
      exact UInt16.lt_iff_toNat_lt.mp shorter
    obtain ⟨counted, here, left, others⟩ := c.cut alone path next w
    rw [pieces] at here
    refine ⟨s.mem.next l, mem, e, counted, safe, traffic,
      Or.inr ⟨more, as.map (piece s.mem), piece s.mem l, bs.map (piece s.mem), k, ?_,
      small, cut_sum, here, left, others⟩⟩
    rw [value, List.map_append, List.map_cons]

/-! ## Headers -/

theorem Counted.change {f : PbufNode → PbufNode} (c : s.Counted) (held : s.held = p ::ₘ rest) (once : (s.mem.node p).ref = 1)
    (next : ∀ n, (f n).next = n.next) (ref : ∀ n, (f n).ref = n.ref)
    (total : (f (s.mem.node p)).totLen.toNat = (f (s.mem.node p)).len.toNat + after s.mem (s.mem.next p)) :
    let t : PbufUse := ⟨s.mem.update p f, s.live, s.held⟩
    t.Counted ∧ ∃ v, s.chain p = piece s.mem p :: v ∧ t.chain p = piece t.mem p :: v ∧
      (∀ r ∈ rest, t.chain r = s.chain r) ∧ totLen (s.chain p) = (s.mem.node p).totLen.toNat := by
  have live : p ∈ s.live := c.sound.held (by simp [links, held])
  obtain ⟨_, path⟩ := c.sound.ends p live
  cases path with
  | @cons _ ys behind =>
      have whole : Path s.mem.next (some p) ([p] ++ ys) := .cons behind
      have alone : s.links.Alone p rest [p] := c.alone held whole fun x hx => List.mem_singleton.mp hx ▸ once
      have links' : (s.mem.update p f).next = s.mem.next := next_update next
      have w : Writes s.mem (s.mem.update p f) [p] := by
        refine ⟨fun x => ?_, fun x hx => ?_, fun x hx => update_of_ne (fun h => hx (by simp [h])) _ _, rfl, rfl⟩
        · by_cases h : x = p
          · rw [h, update_self, ref]
          · rw [update_of_ne h]
        · rw [List.mem_singleton.mp hx, links', update_self, total]
          cases link : s.mem.next p with
          | none => rfl
          | some q =>
              have other : q ≠ p := by
                rintro rfl
                have behind' : Path s.mem.next (s.mem.next q) ys := behind
                rw [link] at behind'
                cases behind'
                exact (List.nodup_cons.mp whole.nodup).1 List.mem_cons_self
              rw [after, after, update_of_ne other]
      obtain ⟨counted, here, others⟩ := c.write alone whole links' w
      have value : s.chain p = (p :: ys).map (piece s.mem) := c.sound.value_eq live whole
      have total := c.total (fun x e => by cases e; exact live) whole
      refine ⟨counted, _, value, here, others, ?_⟩
      rw [value, totLen_piece]
      exact total.symm

theorem add_of_not_less {a b : UInt16} (h : ¬ a + b < a) : a.toNat + b.toNat < 65536 := by
  have h := UInt16.le_iff_toNat_le.mp (UInt16.not_lt.mp h)
  rw [UInt16.toNat_add] at h
  have := a.toNat_lt
  have := b.toNat_lt
  omega

theorem Counted.addHeader {size : Nat} {force failed : Bool} (c : s.Counted) (held : s.held = p ::ₘ rest)
    (once : (s.mem.node p).ref = 1) (e : pbufAddHeaderImpl p size force s.mem = (failed, m')) :
    let t : PbufUse := ⟨m', s.live, s.held⟩
    t.Counted ∧ (failed = true ∧ m' = s.mem ∨
      failed = false ∧ totLen (s.chain p) + size < 65536 ∧ ∃ a v, a.pbuf = p ∧ s.chain p = a :: v ∧
        t.chain p = ⟨p, a.payload - size, a.len + .ofNat size⟩ :: v ∧
          ∀ r ∈ rest, t.chain r = s.chain r) := by
  have live : p ∈ s.live := c.sound.held (by simp [links, held])
  have total := c.totals p live
  unfold pbufAddHeaderImpl at e
  dsimp only at e
  split at e
  · cases e
    exact ⟨c, Or.inl ⟨rfl, rfl⟩⟩
  rename_i fits
  split at e
  · rename_i zero
    cases e
    obtain ⟨-, v, before, -, -, whole⟩ := c.change (f := id) held once (fun _ => rfl) (fun _ => rfl) total
    refine ⟨c, Or.inr ⟨rfl, ?_, _, v, rfl, before, before.trans ?_, fun _ _ => rfl⟩⟩
    · rw [whole, zero]
      exact (s.mem.node p).totLen.toNat_lt
    · rw [zero]
      simp [piece]
  split at e
  · cases e
    exact ⟨c, Or.inl ⟨rfl, rfl⟩⟩
  rename_i room
  split at e
  · cases e
    exact ⟨c, Or.inl ⟨rfl, rfl⟩⟩
  split at e
  · cases e
    exact ⟨c, Or.inl ⟨rfl, rfl⟩⟩
  cases e
  have magnitude : (UInt16.ofNat size).toNat = size := by
    rw [UInt16.toNat_ofNat']
    exact Nat.mod_eq_of_lt (by omega)
  have sum := add_of_not_less room
  rw [magnitude] at sum
  obtain ⟨counted, v, before, here, others, whole⟩ := c.change held once (fun _ => rfl) (fun _ => rfl) (f := fun n =>
      { n with
        payload := n.payload - size
        len := n.len + .ofNat size
        totLen := n.totLen + .ofNat size }) (by
    simp only [UInt16.toNat_add, magnitude]
    omega)
  refine ⟨counted, Or.inr ⟨rfl, ?_, _, v, rfl, before, here.trans ?_, others⟩⟩
  · rw [whole]
    omega
  · rw [piece, update_self]
    rfl

theorem Counted.removeHeader {size : Nat} {failed : Bool} (c : s.Counted) (held : s.held = p ::ₘ rest)
    (once : (s.mem.node p).ref = 1) (e : pbufRemoveHeader p size s.mem = (failed, m')) :
    let t : PbufUse := ⟨m', s.live, s.held⟩
    t.Counted ∧ ∃ a v, a.pbuf = p ∧ s.chain p = a :: v ∧ (failed = true ∧ a.len.toNat < size ∧ m' = s.mem ∨
      failed = false ∧ size ≤ a.len.toNat ∧ t.chain p = ⟨p, a.payload + size, a.len - .ofNat size⟩ :: v ∧
        ∀ r ∈ rest, t.chain r = s.chain r) := by
  have live : p ∈ s.live := c.sound.held (by simp [links, held])
  have total := c.totals p live
  obtain ⟨-, v, before, -, -, whole⟩ := c.change (f := id) held once (fun _ => rfl) (fun _ => rfl) total
  have limit := (s.mem.node p).len.toNat_lt
  unfold pbufRemoveHeader at e
  dsimp only at e
  split at e
  · cases e
    exact ⟨c, _, v, rfl, before, Or.inl ⟨rfl, Nat.lt_of_lt_of_le limit (by omega), rfl⟩⟩
  rename_i fits
  split at e
  · rename_i zero
    cases e
    refine ⟨c, _, v, rfl, before, Or.inr ⟨rfl, zero ▸ Nat.zero_le _, before.trans ?_, fun _ _ => rfl⟩⟩
    rw [zero]
    simp [piece]
  have magnitude : (UInt16.ofNat size).toNat = size := by
    rw [UInt16.toNat_ofNat']
    exact Nat.mod_eq_of_lt (by omega)
  split at e
  · rename_i short
    cases e
    have short := UInt16.lt_iff_toNat_lt.mp short
    rw [magnitude] at short
    exact ⟨c, _, v, rfl, before, Or.inl ⟨rfl, short, rfl⟩⟩
  rename_i enough
  cases e
  have enough := UInt16.not_lt.mp enough
  have enough' := UInt16.le_iff_toNat_le.mp enough
  rw [magnitude] at enough'
  obtain ⟨counted, w, before', here, others, -⟩ := c.change held once (fun _ => rfl) (fun _ => rfl) (f := fun n =>
      { n with
        payload := n.payload + size
        len := n.len - .ofNat size
        totLen := n.totLen - .ofNat size }) (by
    have less : UInt16.ofNat size ≤ (s.mem.node p).totLen := by
      rw [UInt16.le_iff_toNat_le, magnitude]
      omega
    rw [UInt16.toNat_sub_of_le _ _ less, UInt16.toNat_sub_of_le _ _ enough, magnitude]
    omega)
  refine ⟨counted, _, w, rfl, before', Or.inr ⟨rfl, enough', here.trans ?_, others⟩⟩
  rw [piece, update_self]
  rfl

theorem Counted.popHeader {fuel : Nat} (c : s.Counted) (held : s.held = p ::ₘ rest) (once : (s.mem.node p).ref = 1)
    (enough : s.live.card ≤ fuel) :
    ∃ mem, popHeader fuel p s.mem = some (s.mem.next p, mem) ∧ (∀ x, x ≠ p → mem.node x = s.mem.node x) ∧
      let t : PbufUse := ⟨mem, s.live.erase p, single (s.mem.next p) + rest⟩
      t.Counted ∧ ∃ v, s.chain p = piece s.mem p :: v ∧ t.seen (single (s.mem.next p)) = remains v ∧
        ∀ r ∈ rest, t.chain r = s.chain r := by
  have live : p ∈ s.live := c.sound.held (by simp [links, held])
  obtain ⟨n, rfl⟩ : ∃ n, fuel = n + 1 := ⟨fuel - 1, by have := Finset.card_pos.mpr ⟨p, live⟩; omega⟩
  obtain ⟨mem, alike, others, ⟨-, -, traffic, counted, v, before, behind, rest_same⟩ | ⟨-, shared, -⟩⟩ := c.free held
  · -- the pass sees the pbuf with the link that is cut
    have cut : ((s.mem.setNext p none).node p).ref.toNat = 0 + 1 := by
      rw [setNext, update_self]
      exact congrArg UInt8.toNat once
    obtain ⟨mem', pass, next', failed', traffic', -, others'⟩ := freePass_spec cut
    have ending : mem'.next p = none := by
      rw [next', next_setNext, Function.update_self]
    have e : PbufMem.popHeader (n + 1) p s.mem = some (s.mem.next p, mem') := by
      rw [PbufMem.popHeader, freeLoop, pass]
      simp only [decide_true, ending, freeLoop, Option.map_some]
    have untouched : ∀ x, x ≠ p → mem'.node x = s.mem.node x := fun x other => by
      rw [others' x other, setNext, update_of_ne other]
    have same : ∀ x ∈ s.live.erase p, mem'.node x = mem.node x := fun x hx => by
      have other := Finset.ne_of_mem_erase hx
      rw [untouched x other, others x other]
    have books : mem'.traffic = mem.traffic := traffic'.trans traffic.symm
    obtain ⟨counted', view'⟩ := counted.congr same (books ▸ counted.traffic) (failed'.trans c.failed)
    have used : ∀ r ∈ single (mem.next p) + rest, r ∈ s.live.erase p := fun r hr => counted.sound.held hr
    rw [alike.next] at counted' view' behind rest_same used
    refine ⟨mem', e, untouched, counted', v, before, (seen_same fun r hr => view' r ?_).trans behind, fun r hr => ?_⟩
    · exact used r (Multiset.mem_add.mpr (Or.inl hr))
    · exact (view' r (used r (Multiset.mem_add.mpr (Or.inr hr)))).trans (rest_same r hr)
  · exact absurd once shared

end Oinzen.PbufUse
