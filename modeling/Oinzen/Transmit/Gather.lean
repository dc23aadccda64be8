import Oinzen.Transmit.Ring
import Oinzen.Interference.Rely
import Oinzen.Driver.Ethernetif

/-!
# The copy of a chain to the transmit buffers

`low_level_output` looks at the OWN bit of each descriptor before it uses its buffer. What the copy leaves
in the buffers does not depend on what else goes on, as long as a free descriptor stays free.
-/

namespace Oinzen.Transmit

open Ring Interference Prog

def needed (p : List Pbuf) : Nat := max 1 ((totLen p + ethTxBufSize - 1) / ethTxBufSize)

/-- The buffer of a descriptor is its own, and the descriptors are in a circle. -/
structure Linked (s : Eth) : Prop where
  next : ∀ i, (s.dmaTxDscrTab i).buffer2NextDescAddr = i + 1
  buffer : ∀ i, (s.dmaTxDscrTab i).buffer1Addr = i

theorem Linked.congr {s t : Eth} (h : Linked s) (e : t.dmaTxDscrTab = s.dmaTxDscrTab) : Linked t :=
  ⟨by rw [e]; exact h.next, by rw [e]; exact h.buffer⟩

/-- The `memcpy` stays inside the pbuf and the buffer, and the buffer is the CPU's. -/
structure Inside (e : Memcpy ethTxBufNb) : Prop where
  own : e.own e.buffer = false
  buffer : e.bufferoffset + e.n ≤ ethTxBufSize
  payload : e.payloadoffset + e.n ≤ e.len

def Copied (b : Nat) (p : List Pbuf) (m : Nat) (s : Eth) : Prop :=
  ∀ k, k < m → (chainBytes p)[k]? = some (s.txBuff (slot ethTxBufNb (b + k / ethTxBufSize)) (k % ethTxBufSize))

structure Passed (b k : Nat) (reads : List (TxPtr × Bool)) : Prop where
  only : ∀ r ∈ reads, ∃ j, j < k ∧ r = (slot ethTxBufNb (b + j), false)
  all : ∀ j, j < k → (slot ethTxBufNb (b + j), false) ∈ reads

structure Stopped (b : Nat) (p : List Pbuf) (reads : List (TxPtr × Bool)) : Prop where
  only : ∀ r ∈ reads, ∃ j, j < needed p ∧ r.1 = slot ethTxBufNb (b + j)
  found : ∃ j, j < needed p ∧ (slot ethTxBufNb (b + j), true) ∈ reads

structure Stands (b d m : Nat) (c : CopyOut) : Prop where
  desc : c.dmaTxDesc = slot ethTxBufNb (b + d)
  buffer : c.buffer = slot ethTxBufNb (b + d)
  framelength : c.framelength = m
  offset : m = d * ethTxBufSize + c.bufferoffset
  fits : c.bufferoffset ≤ ethTxBufSize

structure At (b : Nat) (p : List Pbuf) (d m : Nat) (c : CopyOut) : Prop extends Stands b d m c where
  within : d < needed p

/-! ## Bytes and counts -/

section

variable {b k d : Nat} {p : List Pbuf} {reads : List (TxPtr × Bool)}

theorem chainBytes_at (pre post : List Pbuf) (q : Pbuf) {i : Nat} (hi : i < q.len) :
    (chainBytes (pre ++ q :: post))[totLen pre + i]? = some (q.payload i) := by
  rw [← length_chainBytes pre, chainBytes, List.flatMap_append, ← chainBytes,
    List.getElem?_append_right (Nat.le_add_right _ _), Nat.add_sub_cancel_left, List.flatMap_cons,
    List.getElem?_append_left (by rw [length_bytes]; exact hi)]
  simp [bytes, hi]

theorem bufcountOf_eq (p : List Pbuf) : bufcountOf (totLen p) = needed p := by
  unfold bufcountOf needed ethTxBufSize
  split
  · split <;> omega
  · omega

theorem needed_pos (p : List Pbuf) : 0 < needed p := Nat.lt_of_lt_of_le Nat.one_pos (Nat.le_max_left _ _)

theorem lt_needed (hpos : 1 ≤ totLen p) : d < needed p ↔ d * ethTxBufSize < totLen p := by
  unfold needed ethTxBufSize
  omega

theorem needed_le (hmax : totLen p ≤ ethTxBufNb * ethTxBufSize) : needed p ≤ ethTxBufNb := by
  unfold needed ethTxBufSize ethTxBufNb at *
  omega

theorem Stands.next {m room : Nat} {c : CopyOut} (h : Stands b d m c) (hroom : c.bufferoffset + room = ethTxBufSize) :
    Stands b (d + 1) (m + room)
      ⟨slot ethTxBufNb (b + d + 1), slot ethTxBufNb (b + d + 1), 0, c.framelength + room⟩ := by
  refine ⟨rfl, rfl, by rw [h.framelength], ?_, Nat.zero_le ethTxBufSize⟩
  rw [h.offset, Nat.add_assoc, hroom, Nat.add_one_mul, Nat.add_zero]

theorem Stands.stay {m n : Nat} {c : CopyOut} (h : Stands b d m c) (hfits : c.bufferoffset + n ≤ ethTxBufSize) :
    Stands b d (m + n) { c with bufferoffset := c.bufferoffset + n, framelength := c.framelength + n } :=
  ⟨h.desc, h.buffer, by rw [h.framelength], by rw [h.offset, Nat.add_assoc], hfits⟩

theorem passed_zero : Passed b 0 [] := ⟨nofun, nofun⟩

theorem Passed.see (h : Passed b k reads) (hd : d = k ∨ d + 1 = k) :
    Passed b (max k (d + 1)) (reads ++ [(slot ethTxBufNb (b + d), false)]) := by
  refine ⟨fun r hr => ?_, fun j hj => ?_⟩
  · rcases List.mem_append.mp hr with hr | hr
    · obtain ⟨j, hj, he⟩ := h.only r hr
      exact ⟨j, by omega, he⟩
    · exact ⟨d, by omega, List.mem_singleton.mp hr⟩
  · rcases Nat.lt_or_ge j k with hlt | hge
    · exact List.mem_append_left _ (h.all j hlt)
    · obtain rfl : j = d := by omega
      exact List.mem_append_right _ (List.mem_singleton_self _)

theorem Passed.stop (h : Passed b k reads) (hk : k ≤ d + 1) (hd : d < needed p) :
    Stopped b p (reads ++ [(slot ethTxBufNb (b + d), true)]) := by
  refine ⟨fun r hr => ?_, d, hd, List.mem_append_right _ (List.mem_singleton_self _)⟩
  rcases List.mem_append.mp hr with hr | hr
  · obtain ⟨j, hj, rfl⟩ := h.only r hr
    exact ⟨j, by omega, rfl⟩
  · obtain rfl := List.mem_singleton.mp hr
    exact ⟨d, hd, rfl⟩

end

/-! ## The copy -/

/-- What else goes on while `p` is copied to the buffers from `b` on. `E` holds throughout, the environment
leaves the buffers and the free descriptors alone, and the copy does what it has to guarantee. -/
structure Surroundings (w : Setting Eth) (b : Nat) (p : List Pbuf) (E : Eth → Prop) : Prop where
  stable : Stable w.rely E
  buff : ∀ {s t}, w.rely s t → t.txBuff = s.txBuff
  ownReads : ∀ {s t}, w.rely s t → t.ownReads = s.ownReads
  free : ∀ {s t i}, w.rely s t → (s.dmaTxDscrTab i).own = false → (t.dmaTxDscrTab i).own = false
  linked : ∀ {s}, E s → Linked s
  quiet : ∀ {s}, E s → w.guar s s
  see : ∀ {s} log, E s → E { s with ownReads := log } ∧ w.guar s { s with ownReads := log }
  copy : ∀ {s d} row e, E s → d < needed p → (s.dmaTxDscrTab (slot ethTxBufNb (b + d))).own = false → Inside e →
    E { s with
      txBuff := Function.update s.txBuff (slot ethTxBufNb (b + d)) row, copiedOut := s.copiedOut ++ [e] } ∧
    w.guar s { s with
      txBuff := Function.update s.txBuff (slot ethTxBufNb (b + d)) row, copiedOut := s.copiedOut ++ [e] }

structure Filling (E : Eth → Prop) (b : Nat) (p : List Pbuf) (reads : List (TxPtr × Bool)) (seen m : Nat)
    (s : Eth) : Prop where
  rest : E s
  ownReads : s.ownReads = reads
  free : ∀ d, d < seen → (s.dmaTxDscrTab (slot ethTxBufNb (b + d))).own = false
  copied : totLen p ≤ ethTxBufNb * ethTxBufSize → Copied b p m s

def Met (E : Eth → Prop) (b : Nat) (p : List Pbuf) : Prop :=
  ∃ s j, E s ∧ j < needed p ∧ (s.dmaTxDscrTab (slot ethTxBufNb (b + j))).own = true

def Gathered (E : Eth → Prop) (b : Nat) (p : List Pbuf) (m : Nat) : Option CopyOut → Eth → Prop
  | some c, s => ∃ d reads, Filling E b p reads (d + 1) m s ∧ Passed b (d + 1) reads ∧ At b p d m c
  | none, s => ∃ reads seen m, Filling E b p reads seen m s ∧ Stopped b p reads ∧ Met E b p

section

variable {w : Setting Eth} {b : Nat} {p : List Pbuf} {E : Eth → Prop} {reads : List (TxPtr × Bool)}
  {seen m : Nat} {s : Eth}

theorem filling_stable (sur : Surroundings w b p E) : Stable w.rely (Filling E b p reads seen m) :=
  fun _ _ r h =>
    { rest := sur.stable r h.rest
      ownReads := (sur.ownReads r).trans h.ownReads
      free := fun d hd => sur.free r (h.free d hd)
      copied := fun hmax => by rw [Copied, sur.buff r]; exact h.copied hmax }

theorem gathered_stable (sur : Surroundings w b p E) (r : Option CopyOut) :
    Stable w.rely (Gathered E b p m r) := by
  cases r with
  | some c => exact fun _ _ r ⟨d, reads, h, hrest⟩ => ⟨d, reads, filling_stable sur r h, hrest⟩
  | none => exact fun _ _ r ⟨reads, seen, m, h, hrest⟩ => ⟨reads, seen, m, filling_stable sur r h, hrest⟩

theorem isBufferAvailable_safe (sur : Surroundings w b p E) (h : Filling E b p reads seen m s) {d : Nat}
    (hd : d < needed p) (hle : d ≤ seen) : (isBufferAvailable (slot ethTxBufNb (b + d))).Safe w
      (fun free t => Filling E b p (reads ++ [(slot ethTxBufNb (b + d), !free)])
        (if free then max seen (d + 1) else seen) m t ∧ (free = false → Met E b p)) s := by
  have hlog : ∀ {t} r seen, Filling E b p reads seen m t →
      Filling E b p (reads ++ [r]) seen m { t with ownReads := t.ownReads ++ [r] } := fun r seen ht =>
    { rest := (sur.see _ ht.rest).1, ownReads := by rw [ht.ownReads], free := ht.free, copied := ht.copied }
  refine safe_get (filling_stable sur) h (fun t ht => sur.quiet ht.rest) fun t ht => ?_
  cases hown : (t.dmaTxDscrTab (slot ethTxBufNb (b + d))).own with
  | true =>
      refine safe_modify (filling_stable sur) ht (fun u hu => (sur.see _ hu.rest).2) fun u hu _ => ?_
      exact safe_ret ((filling_stable sur).and (.const _)) ⟨hlog _ _ hu, fun _ => ⟨t, d, ht.rest, hd, hown⟩⟩
  | false =>
      have hseen : Filling E b p reads (max seen (d + 1)) m t := by
        refine { ht with free := fun j hj => ?_ }
        rcases Nat.lt_or_ge j seen with hlt | hge
        · exact ht.free j hlt
        · rwa [show j = d by omega]
      refine safe_modify (filling_stable sur) hseen (fun u hu => (sur.see _ hu.rest).2) fun u hu _ => ?_
      exact safe_ret ((filling_stable sur).and (.const _)) ⟨hlog _ _ hu, nofun⟩

theorem Filling.copy (sur : Surroundings w b p E) (h : Filling E b p reads seen m s) {d o n po : Nat}
    {q : Pbuf} {e : Memcpy ethTxBufNb} (hd : d < seen) (hin : d < needed p)
    (hm : m = d * ethTxBufSize + o) (hfit : o + n ≤ ethTxBufSize)
    (src : ∀ i, i < n → (chainBytes p)[m + i]? = some (q.payload (po + i))) (inside : Inside e) :
    Filling E b p reads seen (m + n)
      { s with
        txBuff := Function.update s.txBuff (slot ethTxBufNb (b + d))
          (memcpy (s.txBuff (slot ethTxBufNb (b + d))) o q.payload po n)
        copiedOut := s.copiedOut ++ [e] } where
  rest := (sur.copy _ e h.rest hin (h.free d hd) inside).1
  ownReads := h.ownReads
  free := h.free
  copied hmax k hk := by
    have hcopied := h.copied hmax k
    have hneeded := needed_le hmax
    unfold ethTxBufSize ethTxBufNb at *
    by_cases hcur : k / 2016 = d
    · simp only [hcur, Function.update_self, memcpy]
      by_cases hnew : m ≤ k
      · have hsrc := src (k - m) (by omega)
        rw [show m + (k - m) = k by omega] at hsrc
        rw [if_pos (by omega), hsrc, show k - m = k % 2016 - o by omega]
      · rw [if_neg (by omega), hcopied (by omega), hcur]
    · have hslot : slot 4 (b + k / 2016) ≠ slot 4 (b + d) := slot_ne b (by omega) (by omega) (by omega)
      simp only [Function.update_of_ne hslot]
      exact hcopied (by omega)

theorem copyToBuffer_safe (sur : Surroundings w b p E) {α : Type} {k : Unit → Code Eth α}
    {Q : α → Eth → Prop} (h : Filling E b p reads seen m s) {d n po : Nat} {q : Pbuf} {c : CopyOut}
    (hc : At b p d m c) (hd : d < seen) (hfit : c.bufferoffset + n ≤ ethTxBufSize) (hlen : po + n ≤ q.len)
    (src : ∀ i, i < n → (chainBytes p)[m + i]? = some (q.payload (po + i)))
    (next : ∀ t, Filling E b p reads seen (m + n) t → (k ()).Safe w Q t) :
    (copyToBuffer q c po n >>= k).Safe w Q s := by
  have hinside : ∀ t, Filling E b p reads seen m t →
      Inside ⟨slot ethTxBufNb (b + d), c.bufferoffset, q.len, po, n, fun i => (t.dmaTxDscrTab i).own⟩ :=
    fun t ht => ⟨ht.free d hd, hfit, hlen⟩
  unfold copyToBuffer
  rw [hc.buffer]
  refine safe_modify (filling_stable sur) h (fun t ht => ?_) fun t ht _ => ?_
  · exact (sur.copy _ _ ht.rest hc.within (ht.free d hd) (hinside t ht)).2
  · exact next _ (ht.copy sur hd hc.within hc.offset hfit src (hinside t ht))

theorem copyPbuf_safe (sur : Surroundings w b p E) {pre post : List Pbuf} {q : Pbuf}
    (hp : p = pre ++ q :: post) (c : CopyOut) (po left : Nat) {d : Nat} {reads : List (TxPtr × Bool)}
    (h : Filling E b p reads (d + 1) (totLen pre + po) s) (passed : Passed b (d + 1) reads)
    (hleft : po + left = q.len) (hc : At b p d (totLen pre + po) c) :
    (copyPbuf q c po left).Safe w (Gathered E b p (totLen pre + q.len)) s := by
  have hlen : totLen pre + q.len ≤ totLen p := by
    rw [hp, totLen_append]
    simp [totLen]
  have src : ∀ {po n}, po + n ≤ q.len → ∀ i, i < n →
      (chainBytes p)[totLen pre + po + i]? = some (q.payload (po + i)) := by
    intro po n hn i hi
    rw [hp, Nat.add_assoc]
    exact chainBytes_at pre post q (by omega)
  induction c, po, left using copyPbuf.induct generalizing s d reads with
  | case1 c po left hmore room =>
      rename_i ih
      have hroom : room = ethTxBufSize - c.bufferoffset := rfl
      have hoffset := hc.offset
      have hfits := hc.fits
      have hsucc := Nat.add_one_mul d ethTxBufSize
      have hwithin : (d + 1) * ethTxBufSize < totLen p := by omega
      have hd : d + 1 < needed p := (lt_needed (by omega)).mpr hwithin
      have hfilled : totLen pre + (po + room) = (d + 1) * ethTxBufSize := by omega
      rw [copyPbuf, dif_pos hmore]
      refine copyToBuffer_safe sur h hc (Nat.lt_succ_self d) (by omega) (by omega) (src (by omega)) fun t ht => ?_
      refine safe_get (filling_stable sur) ht (fun t ht => sur.quiet ht.rest) fun t ht => ?_
      rw [(sur.linked ht.rest).next, hc.desc, slot_succ]
      refine .seq _ (isBufferAvailable_safe sur ht hd (Nat.le_refl _)) fun free t ⟨ht, hmet⟩ => ?_
      cases free with
      | false =>
          exact safe_ret (gathered_stable sur none) ⟨_, _, _, ht, passed.stop (by omega) hd, hmet rfl⟩
      | true =>
          have hpassed := passed.see (.inl rfl)
          rw [if_pos rfl] at ht ⊢
          rw [Nat.max_eq_right (Nat.le_succ _)] at ht hpassed
          refine safe_get (filling_stable sur) ht (fun t ht => sur.quiet ht.rest) fun t ht => ?_
          rw [(sur.linked ht.rest).buffer]
          rw [Nat.add_assoc] at ht
          have hnext := hc.toStands.next (show c.bufferoffset + room = ethTxBufSize by omega)
          rw [Nat.add_assoc] at hnext
          exact ih _ _ ht hpassed (by omega) ⟨hnext, hd⟩
  | case2 c po left hlast =>
      rw [copyPbuf, dif_neg hlast]
      refine copyToBuffer_safe sur h hc (Nat.lt_succ_self d) (by omega) (by omega) (src (by omega)) fun t ht => ?_
      rw [show totLen pre + po + left = totLen pre + q.len by omega] at ht
      refine safe_ret (gathered_stable sur (some _)) ⟨d, reads, ht, passed, ?_, hc.within⟩
      have hstays := hc.toStands.stay (n := left) (by omega)
      rwa [show totLen pre + po + left = totLen pre + q.len by omega] at hstays

theorem copyChain_safe (sur : Surroundings w b p E) (pre : List Pbuf) {rest : List Pbuf}
    (hp : p = pre ++ rest) (c : CopyOut) {d : Nat}
    (h : Filling E b p reads seen (totLen pre) s) (passed : Passed b seen reads)
    (hseen : d + 1 = seen ∨ d = seen ∧ rest ≠ []) (hc : At b p d (totLen pre) c) :
    (copyChain rest c).Safe w (Gathered E b p (totLen p)) s := by
  induction rest generalizing pre c d seen reads s with
  | nil =>
      obtain rfl : d + 1 = seen := hseen.resolve_right fun hne => hne.2 rfl
      rw [List.append_nil] at hp
      rw [← hp] at h hc
      exact safe_ret (gathered_stable sur (some c)) ⟨d, reads, h, passed, hc⟩
  | cons q rest ih =>
      rw [copyChain, hc.desc]
      refine .seq _ (isBufferAvailable_safe sur h hc.within (by omega)) fun free t ⟨ht, hmet⟩ => ?_
      cases free with
      | false =>
          exact safe_ret (gathered_stable sur none) ⟨_, _, _, ht, passed.stop (by omega) hc.within, hmet rfl⟩
      | true =>
          have hpassed := passed.see (d := d) (by omega)
          rw [if_pos rfl] at ht ⊢
          rw [show max seen (d + 1) = d + 1 by omega] at ht hpassed
          refine .seq _ (copyPbuf_safe sur hp c 0 q.len ht hpassed (Nat.zero_add _) hc) fun r t hr => ?_
          cases r with
          | none => exact safe_ret (gathered_stable sur none) hr
          | some c =>
              obtain ⟨d, reads, ht, hpassed, hc⟩ := hr
              have hpre : totLen pre + q.len = totLen (pre ++ [q]) := by rw [totLen_append]; simp [totLen]
              rw [hpre] at ht hc
              exact ih (pre ++ [q]) (by simp [hp]) c ht hpassed (.inl rfl) hc

theorem copyChain_gathered (sur : Surroundings w b p E) (h : E s) (reads : s.ownReads = []) (hnil : p ≠ []) :
    (copyChain p ⟨slot ethTxBufNb b, slot ethTxBufNb b, 0, 0⟩).Safe w (Gathered E b p (totLen p)) s := by
  have hstart : At b p 0 (totLen []) ⟨slot ethTxBufNb b, slot ethTxBufNb b, 0, 0⟩ :=
    ⟨⟨rfl, rfl, rfl, by simp [totLen], Nat.zero_le ethTxBufSize⟩, needed_pos p⟩
  have hfilling : Filling E b p [] 0 (totLen []) s :=
    ⟨h, reads, nofun, fun _ _ hk => absurd hk (Nat.not_lt_zero _)⟩
  exact copyChain_safe sur [] rfl _ hfilling passed_zero (.inr ⟨rfl, hnil⟩) hstart

end

end Oinzen.Transmit
