import Oinzen.Interference.System
import Oinzen.Pbuf.Loops

/-!
# Callers of pbuf functions

Each reference is held by a caller or is the link of a pbuf. A caller uses only references that it holds, and
writes only to pbufs with no other reference. The allocators give pbufs that are not in use, and `mem_trim`
returns the same pbuf for a size up to the one that it had. Callers may come between the passes of
`pbuf_free`: a pass hands the reference that it follows on to the next.
-/

namespace Oinzen

open Interference Sharing

def Traffic.after (live : Finset Nat) : Traffic → Option (Finset Nat)
  | taken p => if p ∈ live then none else some (insert p live)
  | released p => if p ∈ live then some (live.erase p) else none

def replay (live : Finset Nat) (traffic : List Traffic) : Option (Finset Nat) := traffic.foldlM Traffic.after live

structure PbufUse where
  mem : PbufMem
  live : Finset Nat
  held : Multiset Nat

/-- The calls, with what they are given and whether they fail; `free` is a pass of `pbuf_free`, and whether the
pbuf is gone. -/
inductive PbufCall
  | alloc (length : UInt16) (r : Option Nat)
  | ref (p : Nat)
  | free (p : Nat) (gone : Bool)
  | cat (h t : Nat)
  | chain (h t : Nat)
  | dechain (p : Nat)
  | realloc (p : Nat) (newLen : UInt16)
  | addHeader (p size : Nat) (failed : Bool)
  | removeHeader (p size : Nat) (failed : Bool)
  | popHeader (p : Nat)

def PbufCall.counts : PbufCall → Option Nat
  | .ref p => some p
  | .chain _ t => some t
  | _ => none

namespace PbufUse

open PbufMem Links

def links (s : PbufUse) : Links Nat := ⟨s.live, s.mem.next, s.held⟩

def Own (s : PbufUse) (p : Nat) : Prop := ∀ xs, Path s.mem.next (some p) xs → ∀ x ∈ xs, (s.mem.node x).ref = 1

/-- The functions that give a new chain, with what they are given: what `memp_malloc` and `mem_malloc` give is
aligned. -/
inductive Allocates (m : PbufMem) (length : UInt16) : List (Option Nat) → Option Nat → PbufMem → Prop
  | alloc {fuel layer type gets r m'} : (∀ x, some x ∈ gets → lwipMemAlignSize x = x) → gets.length ≤ fuel →
      pbufAlloc fuel layer length type gets m = some (r, m') → Allocates m length gets r m'
  | reference {payload type gets r m'} : type = .ref ∨ type = .rom →
      pbufAllocReference payload length type m gets = some (r, m') →
      Allocates m length gets r m'
  | custom {l type p payloadMem payloadMemLen r m'} :
      pbufAllocedCustom l length type p payloadMem payloadMemLen m = (r, m') → Allocates m length [some p] r m'

inductive Step : PbufUse → PbufCall → PbufUse → Prop
  | allocated {s length gets p mem qs} : (∀ x, some x ∈ gets → x ∉ s.live) → gets.reduceOption.Nodup →
      Allocates s.mem length gets (some p) mem → Path mem.next (some p) qs →
      Step s (.alloc length (some p)) ⟨mem, s.live ∪ qs.toFinset, p ::ₘ s.held⟩
  | allocFails {s length gets mem} : (∀ x, some x ∈ gets → x ∉ s.live) → gets.reduceOption.Nodup →
      Allocates s.mem length gets none mem → Step s (.alloc length none) ⟨mem, s.live, s.held⟩
  | ref {s p} : p ∈ s.held → Step s (.ref p) ⟨pbufRef p s.mem, s.live, p ::ₘ s.held⟩
  | gone {s p rest mem} : s.held = p ::ₘ rest → freePass p s.mem = (true, mem) →
      Step s (.free p true) ⟨mem, s.live.erase p, single (mem.next p) + rest⟩
  | stays {s p rest mem} : s.held = p ::ₘ rest → freePass p s.mem = (false, mem) →
      Step s (.free p false) ⟨mem, s.live, rest⟩
  | cat {s h t rest fuel mem} : s.held = h ::ₘ t ::ₘ rest → s.Own h → s.live.card ≤ fuel →
      pbufCat fuel h t s.mem = some mem → Step s (.cat h t) ⟨mem, s.live, h ::ₘ rest⟩
  | chain {s h t rest fuel mem} : s.held = h ::ₘ t ::ₘ rest → s.Own h → s.live.card ≤ fuel →
      pbufChain fuel h t s.mem = some mem → Step s (.chain h t) ⟨mem, s.live, s.held⟩
  | dechain {s p r mem} : p ∈ s.held → (s.mem.node p).ref = 1 → dechainCut p s.mem = (r, mem) →
      Step s (.dechain p) ⟨mem, s.live, single r + s.held⟩
  | realloc {s p newLen trim fuel r mem} : p ∈ s.held → s.Own p → (∀ x ∈ s.live, Trims s.mem trim x) →
      s.live.card ≤ fuel →
      reallocCut trim fuel p newLen s.mem = some (r, mem) → Step s (.realloc p newLen) ⟨mem, s.live, single r + s.held⟩
  | addHeader {s p size force failed mem} : p ∈ s.held → (s.mem.node p).ref = 1 →
      pbufAddHeaderImpl p size force s.mem = (failed, mem) → Step s (.addHeader p size failed) ⟨mem, s.live, s.held⟩
  | removeHeader {s p size failed mem} : p ∈ s.held → (s.mem.node p).ref = 1 →
      pbufRemoveHeader p size s.mem = (failed, mem) → Step s (.removeHeader p size failed) ⟨mem, s.live, s.held⟩
  | popHeader {s p rest fuel r mem} : s.held = p ::ₘ rest → (s.mem.node p).ref = 1 → s.live.card ≤ fuel →
      popHeader fuel p s.mem = some (r, mem) → Step s (.popHeader p) ⟨mem, s.live.erase p, single r + rest⟩

/-- No pbuf is allocated at the start. -/
def system : System PbufUse PbufCall :=
  ⟨fun s => s.live = ∅ ∧ s.held = 0 ∧ s.mem.traffic = [] ∧ s.mem.failed = false, Step⟩

def Fits (s : PbufUse) : PbufCall → Prop
  | .ref p => (s.mem.node p).ref < 255
  | .cat h t => (s.mem.node h).totLen.toNat + (s.mem.node t).totLen.toNat < 65536
  | .chain h t => (s.mem.node h).totLen.toNat + (s.mem.node t).totLen.toNat < 65536 ∧ (s.mem.node t).ref < 255
  | _ => True

def after (m : PbufMem) : Option Nat → Nat
  | none => 0
  | some q => (m.node q).totLen.toNat

structure Counted (s : PbufUse) : Prop where
  sound : s.links.Sound
  refs : ∀ x ∈ s.live, (s.mem.node x).ref.toNat = s.links.refs.count x
  totals : ∀ x ∈ s.live, (s.mem.node x).totLen.toNat = (s.mem.node x).len.toNat + after s.mem (s.mem.next x)
  traffic : replay ∅ s.mem.traffic = some s.live
  failed : s.mem.failed = false

def AllInside (s : PbufUse) : Prop := ∀ x ∈ s.live, Inside (s.mem.heap x) x (s.mem.node x)

structure Piece where
  pbuf : Nat
  payload : Int
  len : UInt16

def piece (m : PbufMem) (x : Nat) : Piece := ⟨x, (m.node x).payload, (m.node x).len⟩

def Begins (p : Nat) (v : List Piece) : Prop := v.head?.map Piece.pbuf = some p

def chain (s : PbufUse) (p : Nat) : List Piece := s.links.value (piece s.mem) p

def seen (s : PbufUse) (refs : Multiset Nat) : Multiset (List Piece) := s.links.seen (piece s.mem) refs

def view (s : PbufUse) : Multiset (List Piece) := s.seen s.held

variable {s : PbufUse} {m m' : PbufMem} {p q x : Nat} {rest : Multiset Nat} {xs ys : List Nat}

theorem replay_append {live mid : Finset Nat} {before more : List Traffic} (h : replay live before = some mid) :
    replay live (before ++ more) = replay mid more := by
  have h' : before.foldlM Traffic.after live = some mid := h
  rw [replay, List.foldlM_append, h']
  rfl

theorem replay_taken {live : Finset Nat} {more : List Traffic} (fresh : p ∉ live) :
    replay live (.taken p :: more) = replay (insert p live) more := by
  have h : (Traffic.taken p).after live = some (insert p live) := if_neg fresh
  rw [replay, List.foldlM_cons, h]
  rfl

theorem replay_released {live : Finset Nat} {more : List Traffic} (used : p ∈ live) :
    replay live (.released p :: more) = replay (live.erase p) more := by
  have h : (Traffic.released p).after live = some (live.erase p) := if_pos used
  rw [replay, List.foldlM_cons, h]
  rfl

theorem start_counted (start : system.start s) : s.Counted := by
  obtain ⟨live, held, traffic, failed⟩ := start
  refine ⟨⟨fun x hx => ?_, fun x hx => ?_, fun x hx => ?_⟩, fun x hx => ?_, fun x hx => ?_, ?_, failed⟩
  · simp [links, Links.refs, live, held] at hx
  · simp [links, live] at hx
  · simp [links, live] at hx
  · simp [live] at hx
  · simp [live] at hx
  · rw [traffic, live]
    rfl

theorem Counted.total (c : s.Counted) {r : Option Nat} (start : ∀ x, r = some x → x ∈ s.live)
    (path : Path s.mem.next r xs) : after s.mem r = s.mem.lens xs := by
  induction path with
  | nil => rfl
  | @cons x xs _ ih =>
      have live := start x rfl
      have rest := ih fun y link => c.sound.link live link
      rw [after, c.totals x live, rest, PbufMem.lens, PbufMem.lens, List.map_cons, List.sum_cons]

theorem begins_path {next : Nat → Option Nat} (path : Path next (some p) xs) : Begins p (xs.map (piece m)) := by
  cases path
  rfl

theorem Counted.chain_eq (c : s.Counted) (live : p ∈ s.live) : ∃ xs, Path s.mem.next (some p) xs ∧
    s.chain p = xs.map (piece s.mem) := by
  obtain ⟨xs, path⟩ := c.sound.ends p live
  exact ⟨xs, path, c.sound.value_eq live path⟩

theorem Counted.begins (c : s.Counted) (live : p ∈ s.live) : Begins p (s.chain p) := by
  obtain ⟨xs, path, value⟩ := c.chain_eq live
  rw [value]
  exact begins_path path

theorem Counted.next_of_single {a : Piece} (c : s.Counted) (live : p ∈ s.live) (single : s.chain p = [a]) :
    s.mem.next p = none := by
  obtain ⟨xs, path, value⟩ := c.chain_eq live
  have one := congrArg List.length (single.symm.trans value)
  cases path with
  | @cons _ xs path =>
      cases xs with
      | nil =>
          cases link : s.mem.next p with
          | none => rfl
          | some q =>
              rw [link] at path
              cases path
      | cons _ _ => simp at one

theorem seen_of_cons {refs : Multiset Nat} (parts : refs = p ::ₘ rest) : s.seen refs = s.chain p ::ₘ s.seen rest := by
  rw [parts]
  exact seen_cons

theorem view_held (held : s.held = p ::ₘ rest) : s.view = s.chain p ::ₘ s.seen rest :=
  seen_of_cons held

theorem view_cons {live : Finset Nat} :
    view ⟨m, live, p ::ₘ rest⟩ = chain ⟨m, live, p ::ₘ rest⟩ p ::ₘ seen ⟨m, live, p ::ₘ rest⟩ rest :=
  seen_of_cons rfl

theorem seen_same {t : PbufUse} {refs : Multiset Nat} (same : ∀ r ∈ refs, t.chain r = s.chain r) :
    t.seen refs = s.seen refs :=
  Multiset.map_congr rfl same

theorem view_add {first : Multiset Nat} (held : s.held = first + rest) : s.view = s.seen first + s.seen rest := by
  rw [view, held]
  exact seen_add

theorem Counted.alone (c : s.Counted) (held : s.held = p ::ₘ rest) (path : Path s.mem.next (some p) (xs ++ ys))
    (once : ∀ x ∈ xs, (s.mem.node x).ref = 1) : s.links.Alone p rest xs := by
  refine ⟨held, ⟨ys, path⟩, fun x hx => ?_⟩
  have start : p ∈ s.live := c.sound.held (by simp [links, held])
  have live := c.sound.path (fun y e => by cases e; exact start) path x (List.mem_append_left _ hx)
  rw [← c.refs x live, once x hx]
  rfl

/-! ## References -/

structure Alike (m m' : PbufMem) : Prop where
  next : m'.next = m.next
  data : ∀ x, (m'.node x).payload = (m.node x).payload ∧ (m'.node x).len = (m.node x).len ∧
    (m'.node x).totLen = (m.node x).totLen

theorem Alike.of_ref {ref : UInt8} (next : m'.next = m.next) (here : m'.node p = { m.node p with ref := ref })
    (others : ∀ x, x ≠ p → m'.node x = m.node x) : Alike m m' := by
  refine ⟨next, fun x => ?_⟩
  by_cases h : x = p
  · subst h
    rw [here]
    exact ⟨rfl, rfl, rfl⟩
  · rw [others x h]
    exact ⟨rfl, rfl, rfl⟩

theorem Alike.trans {m'' : PbufMem} (a : Alike m m') (b : Alike m' m'') : Alike m m'' := by
  refine ⟨b.next.trans a.next, fun x => ?_⟩
  obtain ⟨payload, len, totLen⟩ := a.data x
  obtain ⟨payload', len', totLen'⟩ := b.data x
  exact ⟨payload'.trans payload, len'.trans len, totLen'.trans totLen⟩

theorem Alike.after (a : Alike m m') (r : Option Nat) : after m' r = PbufUse.after m r := by
  cases r with
  | none => rfl
  | some y => rw [PbufUse.after, PbufUse.after, (a.data y).2.2]

theorem Alike.piece (a : Alike m m') : piece m' = PbufUse.piece m := by
  funext x
  rw [PbufUse.piece, PbufUse.piece, (a.data x).1, (a.data x).2.1]

theorem Alike.total (a : Alike m m') (total : (m.node x).totLen.toNat = (m.node x).len.toNat + PbufUse.after m (m.next x)) :
    (m'.node x).totLen.toNat = (m'.node x).len.toNat + PbufUse.after m' (m'.next x) := by
  rw [a.next, a.after, (a.data x).2.1, (a.data x).2.2]
  exact total

theorem pbufRef_spec (less : (m.node p).ref < 255) :
    ∃ m', pbufRef p m = m' ∧ m'.traffic = m.traffic ∧ m'.failed = m.failed ∧ Alike m m' ∧
      (m'.node p).ref.toNat = (m.node p).ref.toNat + 1 ∧ ∀ x, x ≠ p → m'.node x = m.node x := by
  have less' := UInt8.lt_iff_toNat_lt.mp less
  have limit : (255 : UInt8).toNat = 255 := rfl
  have more : ((m.node p).ref + 1).toNat = (m.node p).ref.toNat + 1 := by
    have one : (1 : UInt8).toNat = 1 := rfl
    rw [UInt8.toNat_add, one]
    omega
  have here : (m.setRef p ((m.node p).ref + 1)).node p = { m.node p with ref := (m.node p).ref + 1 } := update_self ..
  have others : ∀ x, x ≠ p → (m.setRef p ((m.node p).ref + 1)).node x = m.node x := fun x hx => update_of_ne hx _ _
  have positive : decide (((m.setRef p ((m.node p).ref + 1)).node p).ref > 0) = true := by
    rw [here, decide_eq_true_eq]
    apply UInt8.lt_iff_toNat_lt.mpr
    simp only [more]
    exact Nat.succ_pos _
  rw [pbufRef, lwipAssert_true positive]
  exact ⟨_, rfl, rfl, rfl, .of_ref (next_update fun _ => rfl) here others, by rw [here]; exact more, others⟩

theorem pbufRef_failed : (pbufRef p m).failed = (m.failed || decide ((m.node p).ref = 255)) := by
  have here : (m.setRef p ((m.node p).ref + 1)).node p = { m.node p with ref := (m.node p).ref + 1 } := update_self ..
  have overflow : (0 : UInt8) < (m.node p).ref + 1 ↔ (m.node p).ref ≠ 255 := by
    have small := (m.node p).ref.toNat_lt
    have one : (1 : UInt8).toNat = 1 := rfl
    have zero : (0 : UInt8).toNat = 0 := rfl
    have limit : (255 : UInt8).toNat = 255 := rfl
    rw [UInt8.lt_iff_toNat_lt, UInt8.toNat_add, one, zero, ne_eq, ← UInt8.toNat_inj, limit]
    omega
  have kept : (m.setRef p ((m.node p).ref + 1)).failed = m.failed := rfl
  rw [pbufRef]
  simp only [PbufMem.lwipAssert, here, kept, gt_iff_lt, overflow, decide_not, Bool.not_not]

theorem Counted.ref (c : s.Counted) (live : p ∈ s.live) (less : (s.mem.node p).ref < 255) :
    Counted ⟨pbufRef p s.mem, s.live, p ::ₘ s.held⟩ ∧
      ∀ r, chain ⟨pbufRef p s.mem, s.live, p ::ₘ s.held⟩ r = s.chain r := by
  obtain ⟨m', e, traffic, failed, alike, more, others⟩ := pbufRef_spec less
  rw [e]
  have same : links ⟨m', s.live, p ::ₘ s.held⟩ = { s.links with held := p ::ₘ s.links.held } := by
    rw [links, alike.next]
    rfl
  refine ⟨⟨same ▸ c.sound.copy live, fun x hx => ?_, fun x hx => alike.total (c.totals x hx), traffic ▸ c.traffic,
    failed.trans c.failed⟩, fun r => ?_⟩
  · have refs : ({ s.links with held := p ::ₘ s.links.held } : Links Nat).refs = p ::ₘ s.links.refs := refs_cons rfl
    rw [same, refs]
    by_cases h : x = p
    · subst h
      rw [Multiset.count_cons_self, ← c.refs x hx]
      exact more
    · rw [Multiset.count_cons_of_ne h, ← c.refs x hx]
      exact congrArg (fun n => n.ref.toNat) (others x h)
  · rw [chain, same, alike.piece]
    rfl

theorem Counted.free (c : s.Counted) (held : s.held = p ::ₘ rest) :
    ∃ mem, Alike s.mem mem ∧ (∀ x, x ≠ p → mem.node x = s.mem.node x) ∧
      (freePass p s.mem = (true, mem) ∧ (s.mem.node p).ref = 1 ∧ mem.traffic = s.mem.traffic ++ [.released p] ∧
          Counted ⟨mem, s.live.erase p, single (mem.next p) + rest⟩ ∧
          (∃ v, s.chain p = piece s.mem p :: v ∧
            seen ⟨mem, s.live.erase p, single (mem.next p) + rest⟩ (single (mem.next p)) = remains v ∧
            ∀ r ∈ rest, chain ⟨mem, s.live.erase p, single (mem.next p) + rest⟩ r = s.chain r) ∨
        freePass p s.mem = (false, mem) ∧ (s.mem.node p).ref ≠ 1 ∧ mem.traffic = s.mem.traffic ∧
          Counted ⟨mem, s.live, rest⟩ ∧ ∀ r, chain ⟨mem, s.live, rest⟩ r = s.chain r) := by
  have live : p ∈ s.live := c.sound.held (by simp [links, held])
  have refs : s.links.refs = p ::ₘ ({ s.links with held := rest } : Links Nat).refs := refs_cons held
  have count := c.refs p live
  rw [refs, Multiset.count_cons_self] at count
  obtain ⟨mem, pass, next, failed, traffic, here, others⟩ := freePass_spec count
  have alike : Alike s.mem mem := .of_ref next here others
  have counts : ∀ x, x ≠ p → x ∈ s.live → (mem.node x).ref.toNat = ({ s.links with held :=
    rest } : Links Nat).refs.count x :=
    fun x other hx => by
      rw [others x other, c.refs x hx, refs, Multiset.count_cons_of_ne other]
  refine ⟨mem, alike, others, ?_⟩
  by_cases zero : ({ s.links with held := rest } : Links Nat).refs.count p = 0
  · rw [decide_eq_true zero] at pass
    rw [if_pos zero] at traffic
    rw [zero] at count
    have gone := Multiset.count_eq_zero.mp zero
    have same : links ⟨mem, s.live.erase p, single (mem.next p) + rest⟩ = s.links.freed p rest := by
      rw [links, next]
      rfl
    obtain ⟨v, before, behind, others'⟩ := seen_free (f := piece s.mem) c.sound held gone
    refine Or.inl ⟨pass, UInt8.toNat_inj.mp count, traffic,
      ⟨same ▸ c.sound.free held gone, fun x hx => ?_, fun x hx => ?_, ?_, ?_⟩, v, before, ?_, ?_⟩
    · obtain ⟨other, hx⟩ := Finset.mem_erase.mp hx
      rw [same, refs_freed live]
      exact counts x other hx
    · exact alike.total (c.totals x (Finset.mem_of_mem_erase hx))
    · rw [traffic, replay_append c.traffic, replay_released live]
      rfl
    · exact failed.trans c.failed
    · rw [seen, same, alike.piece, alike.next]
      exact behind
    · intro r hr
      rw [chain, same, alike.piece]
      exact others' r hr
  · rw [decide_eq_false zero] at pass
    rw [if_neg zero] at traffic
    have still := Multiset.count_pos.mp (Nat.pos_of_ne_zero zero)
    have same : links ⟨mem, s.live, rest⟩ = { s.links with held := rest } := by
      rw [links, next]
      rfl
    have shared : (s.mem.node p).ref ≠ 1 := fun h => zero (Nat.succ.inj (count.symm.trans (congrArg UInt8.toNat h)))
    refine Or.inr ⟨pass, shared, traffic, ⟨same ▸ c.sound.keep held still, fun x hx => ?_, fun x hx => ?_, ?_, ?_⟩, ?_⟩
    · rw [same]
      by_cases h : x = p
      · have small := (s.mem.node p).ref.toNat_lt
        rw [h, here]
        exact Nat.mod_eq_of_lt (by omega)
      · exact counts x h hx
    · exact alike.total (c.totals x hx)
    · exact traffic ▸ c.traffic
    · exact failed.trans c.failed
    · intro r
      rw [chain, same, alike.piece]
      rfl

/-! ## Links -/

theorem after_le (c : s.Counted) {r : Option Nat} (start : ∀ x, r = some x → x ∈ s.live) (path : Path s.mem.next r xs)
    (hx : x ∈ xs) : (s.mem.node x).totLen.toNat ≤ after s.mem r := by
  obtain ⟨as, bs, rfl⟩ := List.append_of_mem hx
  have live := c.sound.path start path x hx
  have whole := c.total start path
  have part := c.total (fun y e => by cases e; exact live) path.suffix
  rw [lens_append] at whole
  rw [whole, ← part]
  exact Nat.le_add_left ..

theorem last_of_path {next : Nat → Option Nat} (path : Path next (some p) xs) : ∃ as l, xs = as ++ [l] := by
  cases path with
  | @cons _ xs _ =>
      rcases List.eq_nil_or_concat (p :: xs) with nil | ⟨as, l, e⟩
      · cases nil
      · exact ⟨as, l, e.trans (List.concat_eq_append ..)⟩

theorem total_congr (here : m'.node x = m.node x) (behind : ∀ y, m.next x = some y → m'.node y = m.node y)
    (total : (m.node x).totLen.toNat = (m.node x).len.toNat + after m (m.next x)) :
    (m'.node x).totLen.toNat = (m'.node x).len.toNat + after m' (m'.next x) := by
  have next : m'.next x = m.next x := by rw [PbufMem.next, here, PbufMem.next]
  rw [next, here, total]
  cases link : m.next x with
  | none => rfl
  | some y => rw [after, after, behind y link]

theorem Alone.link_apart {rest : Multiset Nat} (alone : s.links.Alone p rest xs) (c : s.Counted) (hx : x ∈ s.live)
    (out : x ∉ xs) (link : s.mem.next x = some q) : q ∉ xs := by
  obtain ⟨zs, path⟩ := c.sound.ends x hx
  have apart := alone.apart c.sound (fun z e => by cases e; exact ⟨hx, out⟩) path
  exact apart q (path.link_mem (by cases path; exact List.mem_cons_self) link)

theorem Counted.front {h t : Nat} (c : s.Counted) (held : s.held = h ::ₘ t ::ₘ rest) (own : s.Own h) :
    ∃ as l, Path s.mem.next (some h) (as ++ [l]) ∧ s.links.Alone h (t ::ₘ rest) (as ++ [l]) ∧ t ∉ as ++ [l] ∧
      (s.mem.node l).totLen = (s.mem.node l).len ∧ as.length < s.live.card := by
  have live : h ∈ s.live := c.sound.held (by simp [links, held])
  obtain ⟨_, whole⟩ := c.sound.ends h live
  obtain ⟨as, l, rfl⟩ := last_of_path whole
  have path : Path s.mem.next (some h) ((as ++ [l]) ++ []) := by
    rw [List.append_nil]
    exact whole
  have alone : s.links.Alone h (t ::ₘ rest) (as ++ [l]) := c.alone held path (own _ whole)
  have last : s.mem.next l = none := whole.last
  have long : (as ++ [l]).length ≤ s.live.card := c.sound.length live whole
  rw [List.length_append, List.length_singleton] at long
  have equal : (s.mem.node l).totLen = (s.mem.node l).len := by
    apply UInt16.toNat_inj.mp
    have total := c.totals l (alone.inside c.sound l (by simp))
    rwa [last] at total
  exact ⟨as, l, whole, alone, (alone.elsewhere c.sound (by simp)).2, equal, long⟩

theorem Counted.cat_failed {h t fuel : Nat} (c : s.Counted) (held : s.held = h ::ₘ t ::ₘ rest) (own : s.Own h)
    (enough : s.live.card ≤ fuel) :
    ∃ mem, pbufCat fuel h t s.mem = some mem ∧ mem.failed = false ∧ (mem.node t).ref = (s.mem.node t).ref := by
  obtain ⟨as, l, whole, -, ht, equal, long⟩ := c.front held own
  obtain ⟨mem, e, -, failed, -, data, -⟩ := pbufCat_spec whole ht equal (Nat.lt_of_lt_of_le long enough)
  exact ⟨mem, e, failed.trans c.failed, (data t).1⟩

theorem Counted.cat {h t fuel : Nat} (c : s.Counted) (held : s.held = h ::ₘ t ::ₘ rest) (own : s.Own h)
    (room : (s.mem.node h).totLen.toNat + (s.mem.node t).totLen.toNat < 65536) (enough : s.live.card ≤ fuel) :
    ∃ mem, pbufCat fuel h t s.mem = some mem ∧ Counted ⟨mem, s.live, h ::ₘ rest⟩ ∧
      mem.traffic = s.mem.traffic ∧ (∀ x, (mem.node x).ref = (s.mem.node x).ref) ∧
      let u : PbufUse := ⟨mem, s.live, h ::ₘ rest⟩
      u.chain h = s.chain h ++ s.chain t ∧ u.chain t = s.chain t ∧ (∀ r ∈ rest, u.chain r = s.chain r) ∧
        t ∈ s.live := by
  have live : h ∈ s.live := c.sound.held (by simp [links, held])
  obtain ⟨as, l, whole, alone, ht, equal, long⟩ := c.front held own
  have last : s.mem.next l = none := whole.last
  obtain ⟨mem, e, traffic, failed, next, data, raised, others⟩ := pbufCat_spec whole ht equal
    (Nat.lt_of_lt_of_le long enough)
  have raised' : ∀ x ∈ as ++ [l], (mem.node x).totLen.toNat =
      (s.mem.node x).totLen.toNat + (s.mem.node t).totLen.toNat := fun x hx => by
    have below := after_le c (fun y e => by cases e; exact live) whole hx
    rw [raised x hx, UInt16.toNat_add]
    exact Nat.mod_eq_of_lt (Nat.lt_of_le_of_lt (Nat.add_le_add_right below _) room)
  have pieces : piece mem = piece s.mem := by
    funext x
    rw [piece, piece, (data x).2.1, (data x).2.2]
  obtain ⟨sound, refs, joined, rest_same⟩ := alone.linked (f := piece s.mem) c.sound whole fun _ _ _ => rfl
  have same : links ⟨mem, s.live, h ::ₘ rest⟩ =
      { s.links with next := Function.update s.links.next l (some t), held := h ::ₘ rest } := by
    rw [links, next]
    rfl
  refine ⟨mem, e, ⟨same ▸ sound, fun x hx => ?_, fun x hx => ?_, traffic ▸ c.traffic, failed.trans c.failed⟩,
    traffic, fun x => (data x).1, ?_, ?_, ?_, (alone.elsewhere c.sound (by simp)).1⟩
  · rw [same, refs, ← c.refs x hx, (data x).1]
  · by_cases hx' : x ∈ as ++ [l]
    · simp only [next, (data x).2.2]
      rw [raised' x hx', c.totals x hx]
      by_cases final : x = l
      · rw [final, last, Function.update_self, after, after, others t ht]
        rfl
      · have inside : x ∈ as := (List.mem_append.mp hx').resolve_right fun h => final (List.mem_singleton.mp h)
        obtain ⟨y, hy, link⟩ := whole.next_mem inside
        have link' : s.mem.next x = some y := link
        rw [Function.update_of_ne final, link', after, after, raised' y hy]
        exact Nat.add_assoc ..
    · exact total_congr (others x hx') (fun y link => others y (Alone.link_apart alone c hx hx' link)) (c.totals x hx)
  · rw [chain, chain, chain, same, pieces, joined, c.sound.value_eq live whole]
  · rw [chain, same, pieces]
    exact rest_same t (Multiset.mem_cons_self ..)
  · intro r hr
    rw [chain, same, pieces]
    exact rest_same r (Multiset.mem_cons_of_mem hr)

/-! ## Changes to own pbufs -/

structure Writes (m mem : PbufMem) (xs : List Nat) : Prop where
  refs : ∀ x, (mem.node x).ref = (m.node x).ref
  totals : ∀ x ∈ xs, (mem.node x).totLen.toNat = (mem.node x).len.toNat + after mem (mem.next x)
  others : ∀ x, x ∉ xs → mem.node x = m.node x
  traffic : mem.traffic = m.traffic
  failed : mem.failed = m.failed

theorem Writes.total (w : Writes s.mem m' xs) (c : s.Counted) (alone : s.links.Alone p rest xs) (hx : x ∈ s.live) :
    (m'.node x).totLen.toNat = (m'.node x).len.toNat + after m' (m'.next x) := by
  by_cases inside : x ∈ xs
  · exact w.totals x inside
  · exact total_congr (w.others x inside)
      (fun y link => w.others y (Alone.link_apart alone c hx inside link)) (c.totals x hx)

theorem Writes.piece (w : Writes m m' xs) (out : x ∉ xs) : piece m' x = PbufUse.piece m x := by
  rw [PbufUse.piece, PbufUse.piece, w.others x out]

theorem Counted.write (c : s.Counted) (alone : s.links.Alone p rest xs) (path : Path s.mem.next (some p) (xs ++ ys))
    (next : m'.next = s.mem.next) (w : Writes s.mem m' xs) :
    let t : PbufUse := ⟨m', s.live, s.held⟩
    t.Counted ∧ t.chain p = xs.map (piece m') ++ ys.map (piece s.mem) ∧ ∀ r ∈ rest, t.chain r = s.chain r := by
  have live : p ∈ s.live := c.sound.held (by simp [alone.held])
  have same : links ⟨m', s.live, s.held⟩ = s.links := by
    rw [links, next]
    rfl
  have value : s.links.value (piece m') p = xs.map (piece m') ++ ys.map (piece s.mem) := by
    rw [c.sound.value_eq live path, List.map_append]
    congr 1
    refine List.map_congr_left fun y hy => w.piece fun h => ?_
    exact (List.nodup_append.mp path.nodup).2.2 y h y hy rfl
  refine ⟨⟨same ▸ c.sound, fun x hx => ?_, fun x hx => w.total c alone hx, w.traffic ▸ c.traffic,
    w.failed.trans c.failed⟩, ?_, ?_⟩
  · rw [same, ← c.refs x hx, w.refs x]
  · rw [chain, same, value]
  · intro r hr
    rw [chain, same]
    obtain ⟨hr, out⟩ := alone.elsewhere c.sound hr
    exact alone.others c.sound c.sound (fun x _ hx => ⟨rfl, w.piece hx⟩) hr out hr

theorem Counted.cut {as : List Nat} {l : Nat} (c : s.Counted) (alone : s.links.Alone p rest (as ++ [l]))
    (path : Path s.mem.next (some p) (as ++ l :: ys)) (next : m'.next = Function.update s.mem.next l none)
    (w : Writes s.mem m' (as ++ [l])) :
    let t : PbufUse := ⟨m', s.live, single (s.mem.next l) + s.held⟩
    t.Counted ∧ t.chain p = (as ++ [l]).map (piece m') ∧
      t.seen (single (s.mem.next l)) = remains (ys.map (piece s.mem)) ∧
      ∀ r ∈ rest, t.chain r = s.chain r := by
  have behind : Path s.mem.next (s.mem.next l) ys := by
    cases path.suffix with
    | cons behind => exact behind
  cases link : s.mem.next l with
  | none =>
      rw [link] at behind
      cases behind
      have same : m'.next = s.mem.next := by rw [next, ← link, Function.update_eq_self]
      have path' : Path s.mem.next (some p) ((as ++ [l]) ++ []) := by
        rw [List.append_nil]
        exact path
      have unchanged : single none + s.held = s.held := Multiset.zero_add _
      obtain ⟨counted, here, others⟩ := c.write alone path' same w
      rw [List.map_nil, List.append_nil] at here
      rw [unchanged]
      exact ⟨counted, here, rfl, others⟩
  | some q =>
      rw [link] at behind
      obtain ⟨sound, refs, -, here, value, others⟩ := alone.unlinked (f := piece s.mem) (g := piece m') c.sound link
        fun x _ out => w.piece out
      have unheld : single (some q) + s.held = q ::ₘ s.held := Multiset.singleton_add _ _
      have same : links ⟨m', s.live, q ::ₘ s.held⟩ =
          { s.links with next := Function.update s.links.next l none, held := q ::ₘ s.links.held } := by
        rw [links, next]
        rfl
      have live_q : q ∈ s.live := c.sound.link (alone.inside c.sound l (by simp)) link
      have some_left : ys.map (piece s.mem) ≠ [] := by
        cases behind
        exact List.cons_ne_nil _ _
      rw [unheld]
      refine ⟨⟨same ▸ sound, fun x hx => ?_, fun x hx => w.total c alone hx, w.traffic ▸ c.traffic,
        w.failed.trans c.failed⟩, ?_, ?_, ?_⟩
      · rw [same, refs, ← c.refs x hx, w.refs x]
      · rw [chain, same, here]
      · rw [seen, same, Links.seen, single, Multiset.map_singleton, value, c.sound.value_eq live_q behind, remains,
          if_neg some_left]
      · intro r hr
        rw [chain, same]
        exact others r hr

theorem Counted.dechain {r : Option Nat} (c : s.Counted) (held : s.held = p ::ₘ rest) (once : (s.mem.node p).ref = 1)
    (e : dechainCut p s.mem = (r, m')) :
    let t : PbufUse := ⟨m', s.live, single r + s.held⟩
    t.Counted ∧ r = s.mem.next p ∧ m'.traffic = s.mem.traffic ∧ ∃ v, s.chain p = piece s.mem p :: v ∧
      t.chain p = [piece s.mem p] ∧
      t.seen (single r) = remains v ∧ ∀ r ∈ rest, t.chain r = s.chain r := by
  have live : p ∈ s.live := c.sound.held (by simp [links, held])
  obtain ⟨_, path⟩ := c.sound.ends p live
  cases path with
  | @cons _ ys behind =>
      have alone : s.links.Alone p rest ([] ++ [p]) := by
        refine c.alone held (.cons behind) fun x hx => ?_
        rw [List.mem_singleton.mp hx, once]
      have total := c.totals p live
      have cut : r = s.mem.next p ∧ m'.next = Function.update s.mem.next p none ∧ Writes s.mem m' ([] ++ [p]) ∧
          piece m' p = piece s.mem p := by
        cases link : s.mem.next p with
        | none =>
            have same : dechainCut p s.mem = (none, s.mem) := by rw [dechainCut, link]
            rw [same] at e
            cases e
            refine ⟨rfl, by rw [← link, Function.update_eq_self], ⟨fun _ => rfl, fun x hx => ?_, fun _ _ => rfl, rfl, rfl⟩, rfl⟩
            rw [List.mem_singleton.mp hx]
            exact total
        | some q =>
            rw [link] at total
            obtain ⟨mem, cut, traffic, failed, next, here, others⟩ := dechainCut_spec link total
            rw [cut] at e
            cases e
            refine ⟨rfl, next, ⟨fun x => ?_, fun x hx => ?_, fun x hx => others x fun h => hx (by simp [h]), traffic,
              failed⟩,
              by rw [piece, piece, here]⟩
            · by_cases h : x = p
              · rw [h, here]
              · rw [others x h]
            · rw [List.mem_singleton.mp hx, next, Function.update_self, here]
              rfl
      obtain ⟨rfl, next, w, same⟩ := cut
      obtain ⟨counted, here, left, others⟩ := c.cut alone (.cons behind) next w
      rw [List.nil_append, List.map_singleton, same] at here
      exact ⟨counted, rfl, w.traffic, _, c.sound.value_eq live (.cons behind), here, left, others⟩

end PbufUse

end Oinzen
