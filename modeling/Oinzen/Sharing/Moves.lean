import Oinzen.Sharing.Links

/-!
# What can be done with shared lists

A reference is copied or given up, a list is linked to another or cut, a node is added. What the other
references lead to stays.
-/

namespace Sharing.Links

variable {V A : Type} {s t : Links V} {p q r l x y : V} {rest : Multiset V} {xs ys as : List V} {f g : V → A}

theorem filterMap_congr {W : Type} {m : Multiset V} {f g : V → Option W} (same : ∀ x ∈ m, f x = g x) :
    m.filterMap f = m.filterMap g := by
  induction m using Quotient.inductionOn with
  | h xs => exact congrArg _ (List.filterMap_congr same)

def single : Option V → Multiset V
  | none => 0
  | some x => {x}

theorem filterMap_path {next : V → Option V} {r : Option V} (path : Path next r xs) :
    single r + (xs : Multiset V).filterMap next = xs := by
  induction path with
  | nil => rfl
  | @cons x xs _ ih =>
      rw [← Multiset.cons_coe]
      conv_rhs => rw [← ih]
      cases link : next x with
      | none => rw [Multiset.filterMap_cons_none _ _ link, single, single, Multiset.singleton_add, Multiset.zero_add]
      | some y =>
          rw [Multiset.filterMap_cons_some _ _ _ link, single, single, Multiset.singleton_add, Multiset.singleton_add]

def value (s : Links V) (f : V → A) (r : V) : List A := (walk s.next s.live.card (some r)).map f

def seen (s : Links V) (f : V → A) (refs : Multiset V) : Multiset (List A) := refs.map (s.value f)

def remains (v : List A) : Multiset (List A) := if v = [] then 0 else {v}

theorem Sound.value_eq (sound : s.Sound) (hr : r ∈ s.live) (path : Path s.next (some r) xs) :
    s.value f r = xs.map f := by
  rw [value, path.walk (sound.length hr path)]

theorem Sound.value_same (sound : s.Sound) (sound' : t.Sound) (hr : r ∈ s.live) (hr' : r ∈ t.live)
    (path : Path s.next (some r) xs) (same : ∀ x ∈ xs, t.next x = s.next x ∧ g x = f x) :
      t.value g r = s.value f r := by
  rw [sound.value_eq hr path, sound'.value_eq hr' (path.congr fun x hx => (same x hx).1)]
  exact List.map_congr_left fun x hx => (same x hx).2

theorem refs_cons (held : s.held = p ::ₘ rest) : s.refs = p ::ₘ ({ s with held := rest } : Links V).refs := by
  rw [refs, refs, held, Multiset.cons_add]

theorem Sound.congr (sound : s.Sound) (live : t.live = s.live) (held : t.held = s.held)
    (same : ∀ x ∈ s.live, t.next x = s.next x) : t.Sound ∧ t.refs = s.refs := by
  have refs : t.refs = s.refs := by rw [refs, refs, live, held, filterMap_congr same]
  refine ⟨⟨fun x hx => ?_, fun x hx => ?_, fun x hx => ?_⟩, refs⟩
  · exact live ▸ sound.closed x (refs ▸ hx)
  · exact refs ▸ sound.used x (live ▸ hx)
  · have hx' : x ∈ s.live := live ▸ hx
    obtain ⟨xs, path⟩ := sound.ends x hx'
    have inside := sound.path (fun z e => by cases e; exact hx') path
    exact ⟨xs, path.congr fun z hz => same z (inside z hz)⟩

theorem Sound.value_congr (sound : s.Sound) (live : t.live = s.live) (held : t.held = s.held)
    (same : ∀ x ∈ s.live, t.next x = s.next x ∧ g x = f x) (hr : r ∈ s.live) : t.value g r = s.value f r := by
  have sound' := (sound.congr live held fun x hx => (same x hx).1).1
  obtain ⟨xs, path⟩ := sound.ends r hr
  have inside := sound.path (fun z e => by cases e; exact hr) path
  exact sound.value_same sound' hr (live ▸ hr) path fun z hz => same z (inside z hz)

/-! ## References -/

theorem Sound.copy (sound : s.Sound) (hp : p ∈ s.live) : ({ s with held := p ::ₘ s.held } : Links V).Sound := by
  have more : ({ s with held := p ::ₘ s.held } : Links V).refs = p ::ₘ s.refs := refs_cons rfl
  refine ⟨fun x hx => ?_, fun x hx => ?_, sound.ends⟩
  · rw [more] at hx
    rcases Multiset.mem_cons.mp hx with rfl | hx
    · exact hp
    · exact sound.closed x hx
  · rw [more]
    exact Multiset.mem_cons_of_mem (sound.used x hx)

theorem Sound.keep (sound : s.Sound) (held : s.held = p ::ₘ rest) (still : p ∈ ({ s with held :=
  rest } : Links V).refs) :
    ({ s with held := rest } : Links V).Sound := by
  have less := refs_cons held
  refine ⟨fun x hx => ?_, fun x hx => ?_, sound.ends⟩
  · apply sound.closed
    rw [less]
    exact Multiset.mem_cons_of_mem hx
  · have used := sound.used x hx
    rw [less] at used
    rcases Multiset.mem_cons.mp used with rfl | used
    · exact still
    · exact used

theorem seen_cons : s.seen f (p ::ₘ rest) = s.value f p ::ₘ s.seen f rest := Multiset.map_cons ..

theorem seen_add {more : Multiset V} : s.seen f (rest + more) = s.seen f rest + s.seen f more := Multiset.map_add ..

variable [DecidableEq V]

def freed (s : Links V) (p : V) (rest : Multiset V) : Links V where
  live := s.live.erase p
  next := s.next
  held := single (s.next p) + rest

theorem refs_freed (hp : p ∈ s.live) : (s.freed p rest).refs = ({ s with held := rest } : Links V).refs := by
  have part : s.live.val = p ::ₘ (s.live.erase p).val := (Multiset.cons_erase hp).symm
  rw [refs, refs, freed]
  simp only
  conv_rhs => rw [part]
  cases link : s.next p with
  | none =>
      rw [Multiset.filterMap_cons_none _ _ link, single, Multiset.zero_add]
  | some q =>
      rw [Multiset.filterMap_cons_some _ _ _ link]
      simp only [single, Multiset.singleton_add, Multiset.cons_add, Multiset.add_cons]

theorem Sound.free (sound : s.Sound) (held : s.held = p ::ₘ rest) (gone : p ∉ ({ s with held :=
  rest } : Links V).refs) :
    (s.freed p rest).Sound := by
  have hp : p ∈ s.live := sound.held (by simp [held])
  have less := refs_cons held
  have refs := @refs_freed _ s p rest _ hp
  refine ⟨fun x hx => ?_, fun x hx => ?_, fun x hx => sound.ends x (Finset.mem_of_mem_erase hx)⟩
  · rw [refs] at hx
    apply Finset.mem_erase.mpr
    constructor
    · rintro rfl
      exact gone hx
    · apply sound.closed
      rw [less]
      exact Multiset.mem_cons_of_mem hx
  · obtain ⟨other, live⟩ := Finset.mem_erase.mp hx
    have used := sound.used x live
    rw [less] at used
    rw [refs]
    exact (Multiset.mem_cons.mp used).resolve_left other

theorem seen_free (sound : s.Sound) (held : s.held = p ::ₘ rest) (gone : p ∉ ({ s with held := rest } : Links V).refs) :
    ∃ v, s.value f p = f p :: v ∧ (s.freed p rest).seen f (single (s.next p)) = remains v ∧
      ∀ r ∈ rest, (s.freed p rest).value f r = s.value f r := by
  have hp : p ∈ s.live := sound.held (by simp [held])
  have sound' := sound.free held gone
  obtain ⟨zs, path⟩ := sound.ends p hp
  cases path with
  | @cons _ xs path =>
      have same : ∀ r ∈ (s.freed p rest).held, (s.freed p rest).value f r = s.value f r := fun r hr => by
        have live := sound'.held hr
        obtain ⟨ys, path'⟩ := sound.ends r (Finset.mem_of_mem_erase live)
        exact sound.value_same sound' (Finset.mem_of_mem_erase live) live path' fun _ _ => ⟨rfl, rfl⟩
      refine ⟨xs.map f, sound.value_eq hp (.cons path), ?_, fun r hr => same r ?_⟩
      · cases link : s.next p with
        | none =>
            rw [link] at path
            cases path
            rfl
        | some q =>
            have path' := link ▸ path
            have hq : q ∈ (s.freed p rest).held := by simp [freed, link, single]
            rw [seen, single, Multiset.map_singleton, same q hq, sound.value_eq (sound.link hp link) path']
            cases path'
            rw [remains, if_neg (by simp)]
      · exact Multiset.mem_add.mpr (Or.inr hr)

/-! ## Links -/

theorem refs_link (last : s.next l = none) (hl : l ∈ s.live) (held : s.held = y ::ₘ rest) :
    ({ s with next := Function.update s.next l (some y), held := rest } : Links V).refs = s.refs := by
  have part : s.live.val = l ::ₘ (s.live.erase l).val := (Multiset.cons_erase hl).symm
  have others : (s.live.erase l).val.filterMap (Function.update s.next l (some y)) =
      (s.live.erase l).val.filterMap s.next :=
    filterMap_congr fun x hx => Function.update_of_ne (Finset.ne_of_mem_erase hx) _ _
  rw [refs, refs, held, part]
  simp only
  rw [Multiset.filterMap_cons_none _ _ last, Multiset.filterMap_cons_some _ _ _ (Function.update_self ..), others,
    Multiset.cons_add, Multiset.add_cons]

theorem Sound.linked (sound : s.Sound) (hl : l ∈ s.live) (last : s.next l = none) (held : s.held = y ::ₘ rest)
    (apart : ∀ ys, Path s.next (some y) ys → l ∉ ys) :
    ({ s with next := Function.update s.next l (some y), held := rest } : Links V).Sound := by
  have refs := refs_link last hl held
  have hy : y ∈ s.live := sound.held (by simp [held])
  obtain ⟨ys, path'⟩ := sound.ends y hy
  refine ⟨fun x hx => sound.closed x (refs ▸ hx), fun x hx => refs ▸ sound.used x hx, fun x hx => ?_⟩
  obtain ⟨xs, path⟩ := sound.ends x hx
  by_cases here : l ∈ xs
  · exact ⟨_, path.extend last here path' (apart ys path')⟩
  · exact ⟨xs, path.congr fun z hz => Function.update_of_ne (ne_of_mem_of_not_mem hz here) _ _⟩

theorem refs_unlink (link : s.next p = some q) (hp : p ∈ s.live) :
    ({ s with next := Function.update s.next p none, held := q ::ₘ s.held } : Links V).refs = s.refs := by
  have part : s.live.val = p ::ₘ (s.live.erase p).val := (Multiset.cons_erase hp).symm
  have others : (s.live.erase p).val.filterMap (Function.update s.next p none) =
      (s.live.erase p).val.filterMap s.next :=
    filterMap_congr fun x hx => Function.update_of_ne (Finset.ne_of_mem_erase hx) _ _
  rw [refs, refs, part]
  simp only
  rw [Multiset.filterMap_cons_none _ _ (Function.update_self ..), Multiset.filterMap_cons_some _ _ _ link, others,
    Multiset.cons_add, Multiset.add_cons]

theorem Sound.unlinked (sound : s.Sound) (hp : p ∈ s.live) (link : s.next p = some q) :
    ({ s with next := Function.update s.next p none, held := q ::ₘ s.held } : Links V).Sound := by
  have refs := refs_unlink link hp
  refine ⟨fun x hx => sound.closed x (refs ▸ hx), fun x hx => refs ▸ sound.used x hx, fun x hx => ?_⟩
  obtain ⟨xs, path⟩ := sound.ends x hx
  by_cases here : p ∈ xs
  · obtain ⟨as, bs, rfl⟩ := List.append_of_mem here
    exact ⟨_, path.cut⟩
  · exact ⟨xs, path.congr fun z hz => Function.update_of_ne (ne_of_mem_of_not_mem hz here) _ _⟩

/-! ## Nodes -/

structure Added (s t : Links V) (p : V) (xs : List V) : Prop where
  live : t.live = s.live ∪ xs.toFinset
  held : t.held = p ::ₘ s.held
  path : Path t.next (some p) xs
  fresh : ∀ x ∈ xs, x ∉ s.live
  same : ∀ x ∈ s.live, t.next x = s.next x

theorem Added.refs (added : Added s t p xs) : t.refs = xs + s.refs := by
  have disjoint : Disjoint s.live xs.toFinset :=
    Finset.disjoint_right.mpr fun x hx => added.fresh x (List.mem_toFinset.mp hx)
  have nodes : t.live.val = s.live.val + xs := by
    rw [added.live, ← Finset.disjUnion_eq_union _ _ disjoint, Finset.disjUnion_val, List.toFinset_val,
      added.path.nodup.dedup]
  rw [Links.refs, Links.refs, nodes, added.held, Multiset.filterMap_add, filterMap_congr added.same]
  conv_rhs => rw [← filterMap_path added.path]
  simp only [single, Multiset.singleton_add, Multiset.cons_add]
  congr 1
  rw [← Multiset.add_assoc, Multiset.add_comm]

theorem Added.sound (added : Added s t p xs) (sound : s.Sound) : t.Sound := by
  refine ⟨fun x hx => ?_, fun x hx => ?_, fun x hx => ?_⟩
  · rw [added.refs] at hx
    rw [added.live]
    apply Finset.mem_union.mpr
    rcases Multiset.mem_add.mp hx with new | old
    · exact Or.inr (List.mem_toFinset.mpr new)
    · exact Or.inl (sound.closed x old)
  · rw [added.live] at hx
    rw [added.refs]
    apply Multiset.mem_add.mpr
    rcases Finset.mem_union.mp hx with old | new
    · exact Or.inr (sound.used x old)
    · exact Or.inl (List.mem_toFinset.mp new)
  · rw [added.live] at hx
    rcases Finset.mem_union.mp hx with old | new
    · obtain ⟨ys, path⟩ := sound.ends x old
      have inside := sound.path (fun z e => by cases e; exact old) path
      exact ⟨ys, path.congr fun z hz => added.same z (inside z hz)⟩
    · obtain ⟨as, bs, rfl⟩ := List.append_of_mem (List.mem_toFinset.mp new)
      exact ⟨_, added.path.suffix⟩

theorem Added.value (added : Added s t p xs) (sound : s.Sound) : t.value g p = xs.map g := by
  have sound' := added.sound sound
  exact sound'.value_eq (sound'.held (by simp [added.held])) added.path

theorem Added.others (added : Added s t p xs) (sound : s.Sound) (same : ∀ x ∈ s.live, g x = f x) (hr : r ∈ s.live) :
    t.value g r = s.value f r := by
  have hr' : r ∈ t.live := by
    rw [added.live]
    exact Finset.mem_union_left _ hr
  obtain ⟨zs, path⟩ := sound.ends r hr
  have inside := sound.path (fun z e => by cases e; exact hr) path
  exact sound.value_same (added.sound sound) hr hr' path fun z hz => ⟨added.same z (inside z hz), same z (inside z hz)⟩

/-! ## Other references -/

theorem Alone.others (alone : s.Alone p rest xs) (sound : s.Sound) (sound' : t.Sound)
    (same : ∀ x ∈ s.live, x ∉ xs → t.next x = s.next x ∧
      g x = f x) (hr : r ∈ s.live) (out : r ∉ xs) (hr' : r ∈ t.live) :
    t.value g r = s.value f r := by
  obtain ⟨zs, path⟩ := sound.ends r hr
  have apart := alone.apart sound (fun x e => by cases e; exact ⟨hr, out⟩) path
  have inside := sound.path (fun x e => by cases e; exact hr) path
  exact sound.value_same sound' hr hr' path fun x hx => same x (inside x hx) (apart x hx)

theorem Alone.linked (alone : s.Alone p (y ::ₘ rest) (as ++ [l])) (sound : s.Sound)
    (whole : Path s.next (some p) (as ++ [l])) (same : ∀ x ∈ s.live, x ∉ as ++ [l] → g x = f x) :
    let t : Links V := { s with next := Function.update s.next l (some y), held := p ::ₘ rest }
    t.Sound ∧ t.refs = s.refs ∧ t.value g p = (as ++ [l]).map g ++ s.value f y ∧
      ∀ r ∈ y ::ₘ rest, t.value g r = s.value f r := by
  intro t
  have last := whole.last
  have hl : l ∈ s.live := alone.inside sound l (by simp)
  have held : s.held = y ::ₘ p ::ₘ rest := alone.held.trans (Multiset.cons_swap ..)
  obtain ⟨hy, out⟩ := alone.elsewhere sound (r := y) (by simp)
  have apart : ∀ ys, Path s.next (some y) ys → ∀ z ∈ ys, z ∉ as ++ [l] := fun ys path =>
    alone.apart sound (fun x e => by cases e; exact ⟨hy, out⟩) path
  have sound' : t.Sound := sound.linked hl last held fun ys path h => apart ys path l h (by simp)
  have live : p ∈ s.live := sound.held (by simp [alone.held])
  refine ⟨sound', refs_link last hl held, ?_, fun r hr => ?_⟩
  · obtain ⟨ys, path⟩ := sound.ends y hy
    have inside := sound.path (fun x e => by cases e; exact hy) path
    rw [sound'.value_eq live (whole.extend last (by simp) path fun h => apart ys path l h (by simp)),
      sound.value_eq hy path,
      List.map_append]
    congr 1
    exact List.map_congr_left fun z hz => same z (inside z hz) (apart ys path z hz)
  · obtain ⟨hr', out'⟩ := alone.elsewhere sound hr
    refine alone.others sound sound' (fun x hx hx' => ⟨?_, same x hx hx'⟩) hr' out' hr'
    exact Function.update_of_ne (fun e => hx' (by simp [e])) _ _

theorem Alone.unlinked (alone : s.Alone p rest (as ++ [l])) (sound : s.Sound) (link : s.next l = some y)
    (same : ∀ x ∈ s.live, x ∉ as ++ [l] → g x = f x) :
    let t : Links V := { s with next := Function.update s.next l none, held := y ::ₘ s.held }
    t.Sound ∧ t.refs = s.refs ∧ s.value f p = (as ++ [l]).map f ++ s.value f y ∧ t.value g p = (as ++ [l]).map g ∧
      t.value g y = s.value f y ∧ ∀ r ∈ rest, t.value g r = s.value f r := by
  intro t
  have hl : l ∈ s.live := alone.inside sound l (by simp)
  have live : p ∈ s.live := sound.held (by simp [alone.held])
  have sound' : t.Sound := sound.unlinked hl link
  have hy : y ∈ s.live := sound.link hl link
  have untouched : ∀ x ∈ s.live, x ∉ as ++ [l] → t.next x = s.next x ∧ g x = f x := fun x hx hx' =>
    ⟨Function.update_of_ne (fun e => hx' (by simp [e])) _ _, same x hx hx'⟩
  obtain ⟨ys, path⟩ := alone.path
  rw [List.append_assoc] at path
  have behind : Path s.next (some y) ys := by
    cases path.suffix with
    | cons path => exact link ▸ path
  have out : y ∉ as ++ [l] := fun h => by
    have nodup := path.nodup
    cases behind
    rw [← List.append_assoc] at nodup
    exact (List.nodup_append.mp nodup).2.2 y h y (by simp) rfl
  refine ⟨sound', refs_unlink link hl, ?_, ?_, ?_, fun r hr => ?_⟩
  · rw [sound.value_eq live path, sound.value_eq hy behind]
    simp
  · exact sound'.value_eq live path.cut
  · exact alone.others sound sound' untouched hy out hy
  · obtain ⟨hr', out'⟩ := alone.elsewhere sound hr
    exact alone.others sound sound' untouched hr' out' hr'

end Sharing.Links
