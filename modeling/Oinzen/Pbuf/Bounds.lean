import Oinzen.Pbuf.Use

/-!
# The memory of a pbuf

A pbuf whose data lie behind its struct describes bytes behind the struct only, and one of the pool no byte
behind its buffer.
-/

namespace Oinzen.PbufMem

variable {m m' : PbufMem} {p q : Nat} {r : Option Nat} {fuel : Nat}

theorem pbufRef_safe : Safe m (pbufRef p m) := safe_setRef

theorem freePass_safe : Safe m (freePass p m).2 := by
  unfold freePass
  dsimp only
  split <;> exact safe_assert.trans safe_setRef

theorem freeLoop_safe {count c : UInt8} (e : freeLoop fuel r count m = some (c, m')) : Safe m m' := by
  induction fuel generalizing r count m with
  | zero =>
      cases r with
      | none =>
          cases e
          exact .refl _
      | some p => cases e
  | succ fuel ih =>
      cases r with
      | none =>
          cases e
          exact .refl _
      | some p =>
          have pass := @freePass_safe m p
          rw [freeLoop] at e
          cases step : freePass p m with
          | mk gone m₁ =>
              rw [step] at e pass
              cases gone with
              | true => exact pass.trans (ih e)
              | false =>
                  cases e
                  exact pass

theorem catLoop_safe {t l : Nat} (e : catLoop t fuel p m = some (l, m')) : Safe m m' := by
  induction fuel generalizing p m with
  | zero => cases e
  | succ fuel ih =>
      rw [catLoop] at e
      cases link : m.next p with
      | none =>
          rw [link] at e
          cases e
          exact .refl _
      | some q =>
          rw [link] at e
          exact safe_setTotLen.trans (ih e)

theorem pbufCat_safe {h t : Nat} (e : pbufCat fuel h t m = some m') : Safe m m' := by
  rw [pbufCat] at e
  cases loop : catLoop t fuel h m with
  | none =>
      rw [loop] at e
      cases e
  | some last =>
      rw [loop] at e
      cases e
      exact (catLoop_safe loop).trans (safe_setTotLen.trans safe_setNext)

theorem pbufChain_safe {h t : Nat} (e : pbufChain fuel h t m = some m') : Safe m m' := by
  rw [pbufChain] at e
  cases joined : pbufCat fuel h t m with
  | none =>
      rw [joined] at e
      cases e
  | some m₁ =>
      rw [joined] at e
      cases e
      exact (pbufCat_safe joined).trans pbufRef_safe

theorem dechainCut_safe (e : dechainCut p m = (r, m')) : Safe m m' := by
  unfold dechainCut at e
  cases link : m.next p with
  | none =>
      rw [link] at e
      cases e
      exact .refl _
  | some q =>
      rw [link] at e
      cases e
      exact safe_setTotLen.trans (safe_setNext.trans safe_setTotLen)

theorem popHeader_safe (e : popHeader fuel p m = some (r, m')) : Safe m m' := by
  unfold popHeader at e
  cases loop : freeLoop fuel (some p) 0 (m.setNext p none) with
  | none =>
      rw [loop] at e
      cases e
  | some last =>
      rw [loop] at e
      cases e
      exact safe_setNext.trans (freeLoop_safe loop)

/-! ## Headers -/

theorem pbufAddHeader_safe {size : Nat} {force failed : Bool} (e : pbufAddHeaderImpl p size force m = (failed, m')) :
    Safe m m' := by
  unfold pbufAddHeaderImpl at e
  dsimp only at e
  split at e
  · cases e
    exact .refl _
  split at e
  · cases e
    exact .refl _
  split at e
  · cases e
    exact .refl _
  split at e
  · cases e
    exact .refl _
  rename_i fits
  split at e
  · cases e
    exact .refl _
  cases e
  have size_le : (UInt16.ofNat size).toNat ≤ size := by
    rw [UInt16.toNat_ofNat']
    exact Nat.mod_le _ _
  have sum : ((m.node p).len + .ofNat size).toNat ≤ (m.node p).len.toNat + size := by
    rw [UInt16.toNat_add]
    exact (Nat.mod_le _ _).trans (Nat.add_le_add_left size_le _)
  refine safe_update fun i => ⟨fun own contiguous => ?_, fun own pool => ?_, fun own ram => ?_⟩
  · have contiguous : (m.node p).type.contiguous = true := contiguous
    simpa [contiguous] using fits
  · have limit := i.pool own pool
    simp only
    omega
  · have limit := i.heap own ram
    simp only
    omega

theorem pbufRemoveHeader_safe {size : Nat} {failed : Bool} (e : pbufRemoveHeader p size m = (failed, m')) :
    Safe m m' := by
  unfold pbufRemoveHeader at e
  dsimp only at e
  split at e
  · cases e
    exact .refl _
  split at e
  · cases e
    exact .refl _
  split at e
  · cases e
    exact .refl _
  rename_i enough
  cases e
  have enough := UInt16.not_lt.mp enough
  have enough' := UInt16.le_iff_toNat_le.mp enough
  have size_eq : (UInt16.ofNat size).toNat = size := by
    rw [UInt16.toNat_ofNat']
    exact Nat.mod_eq_of_lt (by omega)
  have less := UInt16.toNat_sub_of_le _ _ enough
  refine safe_update fun i => ⟨fun own contiguous => ?_, fun own pool => ?_, fun own ram => ?_⟩
  · have front := i.front own contiguous
    simp only
    omega
  · have limit := i.pool own pool
    simp only
    omega
  · have limit := i.heap own ram
    simp only
    omega

/-! ## Allocation -/

theorem align_le (n : Nat) : n ≤ lwipMemAlignSize n := by
  simp only [lwipMemAlignSize, memAlignment]
  omega

theorem align_front {offset : Nat} (aligned : lwipMemAlignSize p = p) :
    lwipMemAlignSize (p + sizeofStructPbuf + offset) = p + sizeofStructPbuf + lwipMemAlignSize offset := by
  simp only [lwipMemAlignSize, memAlignment, sizeofStructPbuf] at aligned ⊢
  omega

theorem poolLen_room {remLen : UInt16} {offset : Nat} :
    (poolLen remLen offset).toNat ≤ pbufPoolBufsizeAligned - lwipMemAlignSize offset := by
  have room : (UInt16.ofNat (pbufPoolBufsizeAligned - lwipMemAlignSize offset)).toNat ≤
      pbufPoolBufsizeAligned - lwipMemAlignSize offset := by
    rw [UInt16.toNat_ofNat']
    exact Nat.mod_le _ _
  unfold poolLen
  dsimp only
  split
  · rename_i less
    exact (Nat.le_of_lt (UInt16.lt_iff_toNat_lt.mp less)).trans room
  · exact room

theorem ram_room {offset : Nat} {length : UInt16} (small : offset < 1024)
    (room : ¬ ((memSizeT (lwipMemAlignSize offset + lwipMemAlignSize length.toNat) < lwipMemAlignSize length.toNat ||
      memSizeT (lwipMemAlignSize sizeofStructPbuf + memSizeT (lwipMemAlignSize offset + lwipMemAlignSize length.toNat)) <
        lwipMemAlignSize length.toNat) = true)) :
    sizeofStructPbuf + lwipMemAlignSize offset + length.toNat ≤
        memSizeT (lwipMemAlignSize sizeofStructPbuf + memSizeT (lwipMemAlignSize offset + lwipMemAlignSize length.toNat)) ∧
      memSizeT (lwipMemAlignSize sizeofStructPbuf + memSizeT (lwipMemAlignSize offset + lwipMemAlignSize length.toNat)) <
        65536 := by
  have long := align_le length.toNat
  simp only [Bool.or_eq_true, decide_eq_true_eq, not_or] at room
  simp only [memSizeT, lwipMemAlignSize, memAlignment, sizeofStructPbuf] at *
  omega

theorem init_safe {payload : Int} {totLen len : UInt16} {type : PbufType} {isCustom : Bool}
    (inside : Inside (m.heap p) p ⟨none, payload, totLen, len, type, isCustom, 1⟩) :
    Safe m (m.pbufInitAllocedPbuf p payload totLen len type isCustom) := fun x i => by
  by_cases h : x = p
  · subst h
    rw [init_self]
    exact inside
  · rw [init_of_ne h]
    exact i

structure Takes (m : PbufMem) (gets : List (Option Nat)) (r : Option Nat) (m' : PbufMem) : Prop where
  others : ∀ x, some x ∉ gets → Inside (m.heap x) x (m.node x) → Inside (m'.heap x) x (m'.node x)
  taken : ∀ p, r = some p →
    ∃ qs : List Nat, m'.traffic = m.traffic ++ qs.map .taken ∧ ∀ q ∈ qs, Inside (m'.heap q) q (m'.node q)

theorem Takes.nothing {gets : List (Option Nat)} : Takes m gets none m := ⟨fun _ _ i => i, fun _ h => (by cases h)⟩

theorem Takes.one {gets : List (Option Nat)} {heap : Nat → Nat} {payload : Int} {length : UInt16} {type : PbufType}
    {isCustom : Bool} (same : ∀ x, x ≠ p → heap x = m.heap x)
    (inside : Inside (heap p) p ⟨none, payload, length, length, type, isCustom, 1⟩) :
    Takes m (some p :: gets) (some p)
      ({ m with heap := heap }.pbufInitAllocedPbuf p payload length length type isCustom) := by
  constructor
  · intro x hx i
    have other : x ≠ p := fun e => hx (e ▸ List.mem_cons_self)
    rw [init_of_ne other]
    simp only [PbufMem.pbufInitAllocedPbuf, PbufMem.update, same x other]
    exact i
  · rintro _ ⟨⟩
    refine ⟨[p], rfl, fun q hq => ?_⟩
    rw [List.mem_singleton.mp hq, init_self]
    exact inside

theorem poolLoop_inside {last : Option Nat} {first : Option Nat} {remLen : UInt16} {offset : Nat} {gets : List (Option Nat)}
    (e : poolLoop fuel first last remLen offset m gets = some (r, m'))
    (aligned : ∀ q, some q ∈ gets → lwipMemAlignSize q = q) (small : lwipMemAlignSize offset ≤ pbufPoolBufsizeAligned) :
    Safe m m' ∧ ∀ p, r = some p →
      ∃ qs : List Nat, m'.traffic = m.traffic ++ qs.map .taken ∧ ∀ q ∈ qs, Inside (m'.heap q) q (m'.node q) := by
  induction gets generalizing m first last remLen offset with
  | nil => cases e
  | cons get gets ih =>
      cases get with
      | none =>
          rw [poolLoop] at e
          cases first with
          | none =>
              cases e
              exact ⟨.refl _, fun p none_some => (by cases none_some)⟩
          | some h =>
              rw [poolFails] at e
              cases freed : pbufFree fuel (some h) m with
              | none =>
                  rw [freed] at e
                  cases e
              | some left =>
                  obtain ⟨count, m₁⟩ := left
                  rw [freed] at e
                  cases e
                  rw [pbufFree] at freed
                  exact ⟨freeLoop_safe freed, fun p none_some => (by cases none_some)⟩
      | some q =>
          have at_q := @align_front q offset (aligned q List.mem_cons_self)
          have room := @poolLen_room remLen offset
          have inside : ∀ totLen, Inside (m.heap q) q ⟨none, lwipMemAlignSize (q + sizeofStructPbuf + offset), totLen,
              poolLen remLen offset, .pool, false, 1⟩ := fun totLen => by
            rw [at_q]
            refine ⟨fun _ _ => ?_, fun _ _ => ?_, fun _ ram => (by cases ram)⟩
            · simp only
              omega
            · simp only
              omega
          have safe : Safe m (poolAppend last q remLen offset m) := by
            cases last with
            | none => exact init_safe (inside remLen)
            | some l => exact (init_safe (inside remLen)).trans safe_setNext
          have here : Inside ((poolAppend last q remLen offset m).heap q) q ((poolAppend last q remLen offset m).node q) := by
            cases last with
            | none =>
                rw [poolAppend, init_self]
                exact inside remLen
            | some l =>
                refine safe_setNext q ?_
                rw [init_self]
                exact inside remLen
          have traffic : (poolAppend last q remLen offset m).traffic = m.traffic ++ [.taken q] := by
            cases last <;> rfl
          rw [poolLoop] at e
          split at e
          · obtain ⟨safe', insides⟩ := ih e (fun x hx => aligned x (List.mem_cons_of_mem _ hx)) (by decide)
            refine ⟨safe.trans safe', fun p got => ?_⟩
            obtain ⟨qs, traffic', insides⟩ := insides p got
            refine ⟨q :: qs, ?_, fun x hx => ?_⟩
            · rw [traffic', traffic, List.append_assoc]
              rfl
            · rcases List.mem_cons.mp hx with rfl | hx
              · exact safe' x here
              · exact insides x hx
          · cases e
            refine ⟨safe, fun p _ => ⟨[q], traffic, fun x hx => ?_⟩⟩
            rw [List.mem_singleton.mp hx]
            exact here

end Oinzen.PbufMem

namespace Oinzen.PbufUse

open Interference Sharing PbufMem

variable {s : PbufUse} {m m' : PbufMem} {p : Nat} {r : Option Nat}

theorem Allocates.takes {length : UInt16} {gets : List (Option Nat)} (a : Allocates m length gets r m') :
    Takes m gets r m' := by
  have reference : ∀ {payload type gets}, type = .ref ∨ type = .rom →
      pbufAllocReference payload length type m gets = some (r, m') → Takes m gets r m' :=
        fun {_ type gets} valid e => by
    rw [pbufAllocReference.eq_def, lwipAssert_true (by simpa using valid)] at e
    rcases gets with _ | ⟨_ | _, _⟩
    · cases e
    · cases e
      exact .nothing
    · cases e
      refine .one (fun _ _ => rfl) ?_
      rcases valid with rfl | rfl
      · exact ⟨fun _ contiguous => (by cases contiguous), fun _ pool => (by cases pool), fun _ ram => (by cases ram)⟩
      · exact ⟨fun _ contiguous => (by cases contiguous), fun _ pool => (by cases pool), fun _ ram => (by cases ram)⟩
  cases a with
  | reference valid e => exact reference valid e
  | custom e =>
      unfold pbufAllocedCustom at e
      split at e
      · cases e
        exact .nothing
      · cases e
        exact .one (fun _ _ => rfl)
          ⟨fun own => (by cases own), fun own => (by cases own), fun own => (by cases own)⟩
  | @alloc _ layer type gets _ _ aligned _ e =>
      cases type with
      | ref => exact reference (Or.inl rfl) e
      | rom => exact reference (Or.inr rfl) e
      | pool =>
          obtain ⟨safe, taken⟩ := poolLoop_inside e aligned (by cases layer <;> decide)
          exact ⟨fun x _ i => safe x i, taken⟩
      | ram =>
          unfold pbufAlloc allocRam at e
          dsimp only at e
          split at e
          · cases e
            exact .nothing
          · rename_i room
            rcases gets with _ | ⟨_ | p, _⟩
            · cases e
            · cases e
              exact .nothing
            · cases e
              have at_p := @align_front p layer.offset (aligned p List.mem_cons_self)
              obtain ⟨enough, short⟩ := ram_room (by cases layer <;> decide) room
              refine .one (fun x other => Function.update_of_ne other _ _) ⟨fun _ _ => ?_,
                fun _ pool => (by cases pool),
                fun _ _ => ⟨?_, ?_⟩⟩
              · rw [at_p]
                simp only
                omega
              · rw [at_p]
                simp only [Function.update_self]
                omega
              · simp only [Function.update_self]
                exact short

end Oinzen.PbufUse
