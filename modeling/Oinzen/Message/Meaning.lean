import Oinzen.Message.Parse
import Oinzen.Wire.Items

/-!
# What a DHCP message means

A message is a string of bytes with options in one field, and in two more when the options say so. The
parser finds in a chain of large pbufs what the string means, wherever the string is cut.
-/

namespace Oinzen

open Wire

def optionFormat : Format := ⟨dhcpOptionPad, dhcpOptionEnd, by decide⟩

abbrev DhcpOption := Item optionFormat

variable {p : List Pbuf} {q : Pbuf} {qs next : List Pbuf} {o : DhcpOption} {os : List DhcpOption}
variable {rx rx' : RxOptions} {idx : DhcpOptionIdx} {offset offsetMax optionsIdx : Nat}

namespace DhcpOption

def len (o : DhcpOption) : UInt8 := .ofNat o.value.length

def Admissible (optionsIdx : Nat) (o : DhcpOption) : Prop :=
  ∀ idx, decodeIdx o.tag = some idx → idx.valid optionsIdx o.len = true

instance : Decidable (Admissible optionsIdx o) :=
  decidable_of_iff ((decodeIdx o.tag).all fun idx => idx.valid optionsIdx o.len) (by
    cases h : decodeIdx o.tag <;> simp [Admissible, h])

def given (idx : DhcpOptionIdx) (o : DhcpOption) : Option UInt32 :=
  if decodeIdx o.tag = some idx then some (ntohl (o.value.take idx.decodeLen)) else none

end DhcpOption

def meaning (os : List DhcpOption) : RxOptions := fun idx => os.findSome? (DhcpOption.given idx)

def fieldOptions (bs : List UInt8) (ofs n : Nat) : Option (List DhcpOption) :=
  (readItems optionFormat n (bs.drop ofs)).filter fun os => ∀ o ∈ os, o.Admissible ofs

def optionsWhen (c : Bool) (bs : List UInt8) (ofs n : Nat) : Option (List DhcpOption) :=
  if c then fieldOptions bs ofs n else some []

def overloadedOptions (bs : List UInt8) (file sname : Bool) : Option (List DhcpOption) := do
  let fileOptions ← optionsWhen file bs dhcpFileOfs dhcpFileLen
  let snameOptions ← optionsWhen sname bs dhcpSnameOfs dhcpSnameLen
  some (fileOptions ++ snameOptions)

def overloads (os : List DhcpOption) (v : UInt32) : Bool :=
  meaning os .overload = some v || meaning os .overload = some dhcpOverloadSnameFile

def messageOptions (bs : List UInt8) : Option (List DhcpOption) := do
  let options ← fieldOptions bs dhcpOptionsOfs (bs.length - dhcpOptionsOfs)
  let more ← overloadedOptions bs (overloads options dhcpOverloadFile) (overloads options dhcpOverloadSname)
  some (options ++ more)

def parseMessage (bs : List UInt8) : Option RxOptions :=
  (messageOptions bs).map fun os => Function.update (meaning os) .overload none

/-! ## Options one after the other -/

def give (optionsIdx : Nat) (rx : RxOptions) (o : DhcpOption) : Option RxOptions :=
  if o.Admissible optionsIdx then some fun idx => (rx idx).or (o.given idx) else none

def given (rx : RxOptions) (os : List DhcpOption) : RxOptions := fun idx => (rx idx).or (meaning os idx)

theorem given_nil (rx : RxOptions) : given rx [] = rx := by
  funext idx
  rw [given, meaning, List.findSome?_nil, Option.or_none]

theorem foldlM_give (os : List DhcpOption) (rx : RxOptions) :
    os.foldlM (give optionsIdx) rx = if ∀ o ∈ os, o.Admissible optionsIdx then some (given rx os) else none := by
  induction os generalizing rx with
  | nil =>
      rw [if_pos (by simp), given_nil]
      rfl
  | cons o os ih =>
      rw [List.foldlM_cons, give]
      by_cases admissible : o.Admissible optionsIdx
      · rw [if_pos admissible]
        simp only [Option.bind_eq_bind, Option.bind_some, ih, List.forall_mem_cons, admissible, true_and]
        congr 2
        funext idx
        cases h : rx idx <;> cases g : o.given idx <;> simp [given, meaning, h, g]
      · rw [if_neg admissible, if_neg fun all => admissible (all o List.mem_cons_self)]
        rfl

theorem or_given_of_none (decoded : decodeIdx o.tag = none) : (fun idx => (rx idx).or (o.given idx)) = rx := by
  funext idx
  rw [DhcpOption.given, decoded, if_neg (by simp), Option.or_none]

theorem or_given_of_some (decoded : decodeIdx o.tag = some idx) :
    (fun i => (rx i).or (o.given i)) =
      if (rx idx).isSome then rx else Function.update rx idx (some (ntohl (o.value.take idx.decodeLen))) := by
  funext i
  by_cases same : i = idx
  · subst same
    rw [DhcpOption.given, if_pos decoded]
    cases h : rx i with
    | none => rw [if_neg (by simp), Option.none_or, Function.update_self]
    | some v => rw [if_pos (by simp), Option.some_or, h]
  · rw [DhcpOption.given, decoded, if_neg (by simpa using fun e => same e.symm), Option.or_none]
    by_cases h : (rx idx).isSome = true
    · rw [if_pos h]
    · rw [if_neg h, Function.update_of_ne same]

theorem valid_decodeLen {len : UInt8} (valid : idx.valid optionsIdx len = true) : idx.decodeLen ≤ len.toNat := by
  cases idx
  case overload =>
    simp only [DhcpOptionIdx.valid, Bool.and_eq_true, decide_eq_true_eq] at valid
    rw [valid.1]
    decide
  case router =>
    simp only [DhcpOptionIdx.valid, decide_eq_true_eq, ge_iff_le, UInt8.le_iff_toNat_le] at valid
    exact valid
  all_goals
    simp only [DhcpOptionIdx.valid, decide_eq_true_eq] at valid
    rw [valid]
    decide

theorem map_cons_bind (os : Option (List DhcpOption)) :
    (os.map (o :: ·)).bind (fun os => os.foldlM (give optionsIdx) rx) =
      os.bind fun os => (give optionsIdx rx o).bind fun rx => os.foldlM (give optionsIdx) rx := by
  cases os with
  | none => rfl
  | some os => rfl

/-! ## Chains cut into large pbufs -/

/-- A chain of a packet: each pbuf but the last is longer than an option that begins in the fields before
the options. -/
structure Cut (p : List Pbuf) : Prop where
  large : ∀ q ∈ p.dropLast, dhcpMsgLen + 257 ≤ q.len
  small : totLen p < 65536

theorem Cut.tail (cut : Cut (q :: qs)) : Cut qs := by
  refine ⟨fun r hr => cut.large r ?_, ?_⟩
  · cases qs with
    | nil => cases hr
    | cons a as => exact List.mem_cons_of_mem _ hr
  · have := cut.small
    rw [totLen_cons] at this
    omega

theorem Cut.one (small : q.len < 65536) : Cut [q] :=
  ⟨fun _ h => (List.not_mem_nil h).elim, by simpa [totLen] using small⟩

theorem Cut.head (cut : Cut (q :: qs)) (more : qs ≠ []) : dhcpMsgLen + 257 ≤ q.len := by
  obtain ⟨a, as, rfl⟩ := List.exists_cons_of_ne_nil more
  exact cut.large q List.mem_cons_self

theorem drop_chain_cons (h : offset < q.len) :
    (chainBytes (q :: next)).drop offset = q.payload offset :: (chainBytes (q :: next)).drop (offset + 1) := by
  have byte : (chainBytes (q :: next))[offset]? = some (q.payload offset) := by
    rw [chainBytes_cons, List.getElem?_append_left (by simpa using h), getElem?_bytes, if_pos h]
  obtain ⟨inside, same⟩ := List.getElem?_eq_some_iff.mp byte
  rw [← same]
  exact List.drop_eq_getElem_cons inside

theorem drop_chain_len (cut : Cut (q :: next)) (h : offset < q.len) (more : offset + 1 < totLen (q :: next)) :
    (chainBytes (q :: next)).drop (offset + 1) =
      optionLen q next offset :: (chainBytes (q :: next)).drop (offset + 2) := by
  by_cases same : offset + 1 < q.len
  · rw [optionLen, if_pos same]
    exact drop_chain_cons same
  rw [totLen_cons] at more
  obtain ⟨r, rs, rfl⟩ := List.exists_cons_of_ne_nil (l := next) (by
    rintro rfl
    simp [totLen] at more
    omega)
  have room : 0 < r.len := by
    by_cases last : rs = []
    · subst last
      rw [totLen_cons] at more
      simp [totLen] at more
      omega
    · have := cut.tail.head last
      omega
  have first := @drop_chain_cons r rs 0 room
  rw [optionLen, if_neg same, firstByte, @drop_chainBytes_cons q _ (offset + 1) (by omega),
    @drop_chainBytes_cons q _ (offset + 2) (by omega), show offset + 1 - q.len = 0 by omega,
    show offset + 2 - q.len = 0 + 1 by omega]
  exact first

/-! ## The loop -/

def Field (p : List Pbuf) (offsetMax : Nat) : Prop := offsetMax = totLen p ∨ offsetMax ≤ dhcpMsgLen

theorem nextPbuf_inside (cut : Cut (q :: next)) (place : offset < q.len) (limit : offset < offsetMax)
    (field : Field (q :: next) offsetMax) {after : Nat} (forward : offset < after) (near : after ≤ offset + 257)
    (more : after < totLen (q :: next)) :
    ∃ r rs o m, nextPbuf q next after offsetMax = .ok (r :: rs, o, m) ∧ Cut (r :: rs) ∧ o < r.len ∧
      Field (r :: rs) m ∧ m - o = offsetMax - after ∧
      (chainBytes (r :: rs)).drop o = (chainBytes (q :: next)).drop after ∧
      totLen (r :: rs) - o = totLen (q :: next) - after := by
  have e : dhcpMsgLen = 236 := rfl
  have small := cut.small
  rw [totLen_cons] at more small
  by_cases same : after < q.len
  · refine ⟨q, next, after, offsetMax, ?_, cut, same, field, rfl, rfl, rfl⟩
    rw [nextPbuf, if_neg (by omega)]
  obtain ⟨r, rs, rfl⟩ := List.exists_cons_of_ne_nil (l := next) (by
    rintro rfl
    simp [totLen] at more
    omega)
  have large := cut.head (List.cons_ne_nil r rs)
  have whole : offsetMax = q.len + totLen (r :: rs) := by
    rcases field with h | h
    · rw [h, totLen_cons]
    · omega
  have inside : after - q.len < r.len := by
    by_cases last : rs = []
    · subst last
      rw [totLen_cons] at more
      simp [totLen] at more
      omega
    · have := cut.tail.head last
      omega
  have limit' : (offsetMax + 65536 - q.len) % 65536 = totLen (r :: rs) := by omega
  refine ⟨r, rs, after - q.len, totLen (r :: rs), ?_, cut.tail, inside, Or.inl rfl, by omega, ?_, ?_⟩
  · rw [nextPbuf, if_pos (by omega)]
    simp only [limit', List.cons_ne_nil, if_false]
    rw [if_pos (by omega)]
  · exact (drop_chainBytes_cons (by omega)).symm
  · rw [totLen_cons q]
    omega

theorem nextPbuf_outside (cut : Cut (q :: next)) (place : offset < q.len) (limit : offset < offsetMax)
    (field : Field (q :: next) offsetMax) {after : Nat} (near : after ≤ offset + 257)
    (done : totLen (q :: next) ≤ after) : ∃ e, nextPbuf q next after offsetMax = .error e := by
  have e : dhcpMsgLen = 236 := rfl
  have small := cut.small
  rw [totLen_cons] at done small
  rw [nextPbuf, if_pos (by omega)]
  dsimp only
  by_cases last : next = []
  · subst last
    by_cases wrapped : after - q.len < (offsetMax + 65536 - q.len) % 65536
    · rw [if_pos wrapped, if_pos rfl]
      exact ⟨_, rfl⟩
    · rw [if_neg wrapped]
      exact ⟨_, rfl⟩
  · have large := cut.head last
    have whole : offsetMax = q.len + totLen next := by
      rcases field with h | h
      · rw [h, totLen_cons]
      · omega
    rw [if_neg (by omega)]
    exact ⟨_, rfl⟩

theorem parseOption_pad (small : offset + 2 < 65536) (pad : q.payload offset = dhcpOptionPad) :
    parseOption optionsIdx q next offset rx = .ok (offset + 1, rx) := by
  rw [parseOption]
  dsimp only
  rw [Nat.mod_eq_of_lt small, if_neg (by omega), if_pos pad]

theorem parseOption_forward (pad : q.payload offset ≠ dhcpOptionPad) {after : Nat}
    (h : parseOption optionsIdx q next offset rx = .ok (after, rx')) :
    after = offset + (optionLen q next offset).toNat + 2 := by
  rw [parseOption] at h
  dsimp only at h
  split at h
  · cases h
  cases decoded : decodeIdx (q.payload offset) with
  | none =>
      simp only [decoded] at h
      split at h
      · cases h
      · cases h
        rfl
  | some idx =>
      simp only [decoded] at h
      split at h
      · cases h
      split at h
      · cases h
      split at h
      · cases h
        rfl
      · cases value : decodeOption idx (q :: next) ((offset + 2) % 65536) rx with
        | error e =>
            rw [value] at h
            cases h
        | ok rx'' =>
            rw [value] at h
            cases h
            rfl

theorem parseOption_inside (cut : Cut (q :: next))
    (pad : q.payload offset ≠ optionFormat.pad) (fin : q.payload offset ≠ optionFormat.fin)
    (inside : offset + (optionLen q next offset).toNat + 2 < totLen (q :: next)) :
    (parseOption optionsIdx q next offset rx).toOption =
      (give optionsIdx rx (Item.of (q.payload offset) (optionLen q next offset)
        ((chainBytes (q :: next)).drop (offset + 2)) pad fin)).map
        (offset + (optionLen q next offset).toNat + 2, ·) := by
  have small := cut.small
  generalize hlen : optionLen q next offset = len at inside ⊢
  have room : len.toNat ≤ ((chainBytes (q :: next)).drop (offset + 2)).length := by
    rw [List.length_drop, length_chainBytes]
    omega
  generalize hx : Item.of (q.payload offset) len ((chainBytes (q :: next)).drop (offset + 2)) pad fin = x
  have tag : x.tag = q.payload offset := by rw [← hx, Item.of]
  have value : x.value = ((chainBytes (q :: next)).drop (offset + 2)).take len.toNat := by rw [← hx, Item.of]
  have xlen : DhcpOption.len x = len := by
    rw [DhcpOption.len, value, List.length_take, Nat.min_eq_left room, UInt8.ofNat_toNat]
  have pad' : q.payload offset ≠ dhcpOptionPad := pad
  rw [parseOption]
  dsimp only
  rw [Nat.mod_eq_of_lt (by omega), if_neg (by omega), if_neg pad', hlen]
  cases decoded : decodeIdx (q.payload offset) with
  | none =>
      have admissible : DhcpOption.Admissible optionsIdx x := fun idx h => by
        rw [tag, decoded] at h
        cases h
      rw [give, if_pos admissible, or_given_of_none (by rw [tag, decoded])]
      simp only
      rw [if_neg (by omega)]
      rfl
  | some idx =>
      have admissible : DhcpOption.Admissible optionsIdx x ↔ idx.valid optionsIdx len = true := by
        simp [DhcpOption.Admissible, tag, decoded, xlen]
      simp only
      by_cases valid : idx.valid optionsIdx len = true
      · have enough := valid_decodeLen valid
        have read : pbufCopyPartial (q :: next) idx.decodeLen (offset + 2) = x.value.take idx.decodeLen := by
          rw [pbufCopyPartial_eq, value, List.take_take, Nat.min_eq_left enough]
        have size : (x.value.take idx.decodeLen).length = idx.decodeLen := by
          rw [value, List.take_take, Nat.min_eq_left enough, List.length_take]
          omega
        rw [give, if_pos (admissible.mpr valid), or_given_of_some (by rw [tag, decoded]), valid, Bool.not_true,
          if_neg (by decide), if_neg (by omega)]
        by_cases already : (rx idx).isSome = true
        · rw [if_pos already, if_pos already]
          rfl
        · rw [if_neg already, if_neg already, decodeOption, read, if_neg (not_not_intro size)]
          rfl
      · rw [give, if_neg fun h => valid (admissible.mp h), Bool.not_eq_true _ |>.mp valid]
        rfl

theorem parseOption_overflow (large : 65536 ≤ offset + 2) (h : offset < 65536) :
    parseOption optionsIdx q next offset rx = .error .buf := by
  rw [parseOption]
  dsimp only
  rw [if_pos (by omega)]

theorem toOption_eq_none {ε α : Type} {r : Except ε α} (h : r.toOption = none) : ∃ e, r = .error e := by
  cases r with
  | error e => exact ⟨e, rfl⟩
  | ok a => cases h

theorem toOption_eq_some {ε α : Type} {r : Except ε α} {a : α} (h : r.toOption = some a) : r = .ok a := by
  cases r with
  | error e => cases h
  | ok b => exact congrArg Except.ok (Option.some.inj h)

def goOn (optionsIdx fuel : Nat) (q : Pbuf) (next : List Pbuf) (offsetMax : Nat) (r : Except DhcpParseError (Nat × RxOptions)) :
    Option (Except DhcpParseError RxOptions) :=
  match r with
  | .error e => some (.error e)
  | .ok (after, rx) =>
      match nextPbuf q next after offsetMax with
      | .error e => some (.error e)
      | .ok (qs, offset, offsetMax) => parseLoop optionsIdx fuel qs offset offsetMax rx

theorem goOn_outside (cut : Cut (q :: next)) (place : offset < q.len) (limit : offset < offsetMax)
    (field : Field (q :: next) offsetMax) (pad : q.payload offset ≠ dhcpOptionPad)
    (outside : totLen (q :: next) ≤ offset + (optionLen q next offset).toNat + 2) (fuel : Nat) :
    ∃ e, goOn optionsIdx fuel q next offsetMax (parseOption optionsIdx q next offset rx) = some (.error e) := by
  cases parsed : parseOption optionsIdx q next offset rx with
  | error e => exact ⟨e, rfl⟩
  | ok r =>
      obtain ⟨after, rx'⟩ := r
      have forward := parseOption_forward pad parsed
      have short := (optionLen q next offset).toNat_lt
      obtain ⟨e, stop⟩ := @nextPbuf_outside q next offset offsetMax cut place limit field after (by omega) (by omega)
      refine ⟨e, ?_⟩
      rw [goOn, stop]

theorem parseLoop_spec (fuel : Nat) (cut : Cut (q :: next)) (place : offset < q.len)
    (field : Field (q :: next) offsetMax) (enough : totLen (q :: next) - offset < fuel) :
    ∃ r, parseLoop optionsIdx fuel (q :: next) offset offsetMax rx = some r ∧
      r.toOption = (readItems optionFormat (offsetMax - offset) ((chainBytes (q :: next)).drop offset)).bind
        fun os => os.foldlM (give optionsIdx) rx := by
  induction fuel generalizing q next offset offsetMax rx with
  | zero => omega
  | succ fuel ih =>
      have small := cut.small
      have total : q.len ≤ totLen (q :: next) := by
        rw [totLen_cons]
        omega
      have nothing : ∀ after, totLen (q :: next) ≤ after → (chainBytes (q :: next)).drop after = [] := fun after h =>
        List.drop_of_length_le (by simpa using h)
      rw [parseLoop, drop_chain_cons place]
      by_cases limit : offset < offsetMax
      swap
      · have none_left : offsetMax - offset = 0 := by omega
        rw [if_neg fun h => limit h.1, none_left, readItems_limit]
        exact ⟨_, rfl, rfl⟩
      have some_left : offsetMax - offset ≠ 0 := by omega
      by_cases fin : q.payload offset = optionFormat.fin
      · have ended : ¬ (offset < offsetMax ∧ q.payload offset ≠ dhcpOptionEnd) := fun h => h.2 fin
        rw [if_neg ended, fin, readItems_fin]
        exact ⟨_, rfl, rfl⟩
      have goes : offset < offsetMax ∧ q.payload offset ≠ dhcpOptionEnd := ⟨limit, fin⟩
      rw [if_pos goes]
      change ∃ r, goOn optionsIdx fuel q next offsetMax (parseOption optionsIdx q next offset rx) = some r ∧ _
      have resume : ∀ after rx', offset < after → after ≤ offset + 257 →
          ∃ r, goOn optionsIdx fuel q next offsetMax (.ok (after, rx')) = some r ∧
            r.toOption = (readItems optionFormat (offsetMax - after) ((chainBytes (q :: next)).drop after)).bind
              fun os => os.foldlM (give optionsIdx) rx' := by
        intro after rx' forward near
        by_cases more : after < totLen (q :: next)
        · obtain ⟨r, rs, o, m, resumed, cut', place', field', left, same, size⟩ :=
            nextPbuf_inside cut place limit field forward near more
          rw [goOn, resumed, ← left, ← same]
          exact ih cut' place' field' (by omega)
        · obtain ⟨e, stop⟩ := nextPbuf_outside cut place limit field near (not_lt.mp more)
          rw [goOn, stop, nothing _ (not_lt.mp more), readItems]
          exact ⟨_, rfl, rfl⟩
      by_cases large : 65536 ≤ offset + 2
      · rw [parseOption_overflow large (by omega), nothing _ (by omega), readItems_cut some_left fin]
        exact ⟨_, rfl, rfl⟩
      by_cases pad : q.payload offset = optionFormat.pad
      · rw [parseOption_pad (by omega) pad, pad, readItems_pad some_left, Nat.sub_sub]
        exact resume _ _ (by omega) (by omega)
      have short := (optionLen q next offset).toNat_lt
      by_cases inside : offset + (optionLen q next offset).toNat + 2 < totLen (q :: next)
      · have taken := @parseOption_inside q next rx offset optionsIdx cut pad fin inside
        rw [drop_chain_len cut place (by omega), readItems_of some_left pad fin, List.drop_drop, Nat.sub_sub]
        cases given : give optionsIdx rx (Item.of (q.payload offset) (optionLen q next offset)
            ((chainBytes (q :: next)).drop (offset + 2)) pad fin) with
        | none =>
            rw [given] at taken
            obtain ⟨e, failed⟩ := toOption_eq_none taken
            refine ⟨.error e, by rw [failed, goOn], ?_⟩
            rw [map_cons_bind, given]
            simp only [Option.bind_none, Option.bind_fun_none]
            rfl
        | some rx' =>
            rw [given] at taken
            rw [toOption_eq_some taken, map_cons_bind, given, Nat.add_right_comm, show offset + 2 +
              (optionLen q next offset).toNat = offset + (2 + (optionLen q next offset).toNat) by omega]
            exact resume _ _ (by omega) (by omega)
      · obtain ⟨e, failed⟩ := @goOn_outside q next rx offset offsetMax optionsIdx cut place limit field pad (by omega) fuel
        refine ⟨.error e, failed, ?_⟩
        by_cases more : offset + 1 < totLen (q :: next)
        · rw [drop_chain_len cut place more, readItems_of some_left pad fin, List.drop_drop,
            nothing (offset + 2 + (optionLen q next offset).toNat) (by omega), readItems]
          rfl
        · rw [nothing _ (not_lt.mp more), readItems_cut some_left fin]
          rfl

/-! ## Fields and messages -/

theorem findOptions_here (h : offset < q.len) :
    findOptions (q :: next) offset offsetMax = (q :: next, offset, offsetMax) := by
  rw [findOptions, if_neg (by omega)]

theorem parseField_spec (cut : Cut p) (early : offset ≤ dhcpOptionsOfs) (field : Field p offsetMax) :
    ∃ r, parseField p offset offsetMax rx = some r ∧
      r.toOption = (fieldOptions (chainBytes p) offset (offsetMax - offset)).map (given rx) := by
  have e : dhcpOptionsOfs = 240 := rfl
  have e' : dhcpMsgLen = 236 := rfl
  have folded : ∀ items : Option (List DhcpOption),
      (items.filter fun os => ∀ o ∈ os, o.Admissible offset).map (given rx) =
        items.bind fun os => os.foldlM (give offset) rx := by
    intro items
    cases items with
    | none => rfl
    | some os =>
        rw [Option.bind_some, foldlM_give, Option.filter_some]
        by_cases all : ∀ o ∈ os, DhcpOption.Admissible offset o
        · rw [if_pos (by simpa using all), if_pos all]
          rfl
        · rw [if_neg (by simpa using all), if_neg all]
          rfl
  rw [fieldOptions, folded]
  cases p with
  | nil => exact ⟨_, rfl, by simp [chainBytes, readItems, Except.toOption]⟩
  | cons q next =>
      by_cases here : offset < q.len
      · rw [parseField, findOptions_here here]
        exact parseLoop_spec _ cut here field (by rw [totLen_cons]; omega)
      · have last : next = [] := by
          by_contra more
          have := cut.head more
          omega
        subst last
        have nothing : (chainBytes [q]).drop offset = [] := List.drop_of_length_le (by
          rw [length_chainBytes]
          simp [totLen]
          omega)
        have skipped : findOptions [q] offset offsetMax =
            ([], offset - q.len, (offsetMax + 65536 - q.len) % 65536) := by
          rw [findOptions, if_pos (by omega), findOptions]
        rw [parseField, skipped, nothing, readItems]
        exact ⟨_, rfl, rfl⟩

theorem meaning_append (os os' : List DhcpOption) (idx : DhcpOptionIdx) :
    meaning (os ++ os') idx = (meaning os idx).or (meaning os' idx) := List.findSome?_append ..

theorem given_given (os os' : List DhcpOption) : given (given rx os) os' = given rx (os ++ os') := by
  funext idx
  rw [given, given, given, meaning_append, Option.or_assoc]

theorem meaning_overload (other : offset ≠ dhcpOptionsOfs) (all : ∀ o ∈ os, o.Admissible offset) :
    meaning os .overload = none := by
  refine List.findSome?_eq_none_iff.mpr fun o ho => ?_
  rw [DhcpOption.given, if_neg fun h => ?_]
  have valid := all o ho _ h
  simp [DhcpOptionIdx.valid, other] at valid

theorem fieldOptions_admissible {bs : List UInt8} {n : Nat} (h : fieldOptions bs offset n = some os) :
    ∀ o ∈ os, o.Admissible offset := by
  simpa using (Option.filter_eq_some_iff.mp h).2

theorem parseFields_last (cut : Cut p) (other : offset ≠ dhcpOptionsOfs) (early : offset ≤ dhcpOptionsOfs)
    (field : Field p offsetMax) (absent : rx .overload = none) (passes : Nat) :
    ∃ r, parseFields p (passes + 1) offset offsetMax false false rx = some r ∧
      r.toOption = (fieldOptions (chainBytes p) offset (offsetMax - offset)).map
        fun os => Function.update (given rx os) .overload none := by
  obtain ⟨r, parsed, means⟩ := @parseField_spec p rx offset offsetMax cut early field
  cases read : fieldOptions (chainBytes p) offset (offsetMax - offset) with
  | none =>
      rw [read] at means
      obtain ⟨e, rfl⟩ := toOption_eq_none means
      exact ⟨.error e, by rw [parseFields, parsed], rfl⟩
  | some os =>
      rw [read] at means
      have overload : given rx os .overload = none := by
        rw [given, absent, meaning_overload other (fieldOptions_admissible read)]
        rfl
      refine ⟨.ok (Function.update (given rx os) .overload none), ?_, rfl⟩
      rw [parseFields, parsed, toOption_eq_some means]
      simp [overload]

theorem given_update (h : rx .overload = none) : Function.update rx .overload none = rx := by
  rw [← h, Function.update_eq_self]

theorem parseFields_overloaded (cut : Cut p) (absent : rx .overload = none) (file sname : Bool) :
    ∃ r,
      (if file then parseFields p 2 dhcpFileOfs (dhcpFileOfs + dhcpFileLen) false sname rx
        else if sname then parseFields p 2 dhcpSnameOfs (dhcpSnameOfs + dhcpSnameLen) file false rx
        else some (.ok rx)) = some r ∧
      r.toOption = (overloadedOptions (chainBytes p) file sname).map
        fun os => Function.update (given rx os) .overload none := by
  have alone : Function.update (given rx []) .overload none = rx := by
    rw [given_nil, given_update absent]
  cases file with
  | false =>
      cases sname with
      | false => exact ⟨.ok rx, rfl, by simp [overloadedOptions, optionsWhen, alone, Except.toOption]⟩
      | true =>
          obtain ⟨r, parsed, means⟩ := @parseFields_last p rx dhcpSnameOfs (dhcpSnameOfs + dhcpSnameLen) cut (by decide)
            (by decide) (Or.inr (by decide)) absent 1
          refine ⟨r, parsed, ?_⟩
          rw [means, Nat.add_sub_cancel_left]
          simp [overloadedOptions, optionsWhen]
  | true =>
      cases sname with
      | false =>
          obtain ⟨r, parsed, means⟩ := @parseFields_last p rx dhcpFileOfs (dhcpFileOfs + dhcpFileLen) cut (by decide)
            (by decide) (Or.inr (by decide)) absent 1
          refine ⟨r, parsed, ?_⟩
          rw [means, Nat.add_sub_cancel_left]
          cases h : fieldOptions (chainBytes p) dhcpFileOfs dhcpFileLen <;> simp [overloadedOptions, optionsWhen, h]
      | true =>
          obtain ⟨r, parsed, means⟩ := @parseField_spec p rx dhcpFileOfs (dhcpFileOfs + dhcpFileLen) cut (by decide)
            (Or.inr (by decide))
          rw [Nat.add_sub_cancel_left] at means
          cases read : fieldOptions (chainBytes p) dhcpFileOfs dhcpFileLen with
          | none =>
              rw [read] at means
              obtain ⟨e, rfl⟩ := toOption_eq_none means
              exact ⟨.error e, by rw [if_pos rfl, parseFields, parsed],
                by simp [overloadedOptions, optionsWhen, read, Except.toOption]⟩
          | some os =>
              rw [read] at means
              have overload : given rx os .overload = none := by
                rw [given, absent, meaning_overload (by decide) (fieldOptions_admissible read)]
                rfl
              obtain ⟨r', parsed', means'⟩ := @parseFields_last p (given rx os) dhcpSnameOfs
                (dhcpSnameOfs + dhcpSnameLen) cut (by decide) (by decide) (Or.inr (by decide)) overload 0
              refine ⟨r', ?_, ?_⟩
              · rw [if_pos rfl, parseFields, parsed, toOption_eq_some means]
                simpa [overload, given_update overload] using parsed'
              · rw [means', Nat.add_sub_cancel_left]
                cases h : fieldOptions (chainBytes p) dhcpSnameOfs dhcpSnameLen <;>
                  simp [overloadedOptions, optionsWhen, read, h, given_given]

theorem update_given_update (os os' : List DhcpOption) :
    Function.update (given (Function.update (meaning os) .overload none) os') .overload none =
      Function.update (meaning (os ++ os')) .overload none := by
  funext idx
  by_cases same : idx = .overload
  · rw [same, Function.update_self, Function.update_self]
  · rw [Function.update_of_ne same, Function.update_of_ne same, given, Function.update_of_ne same, meaning_append]

theorem parseMessage_short (cut : Cut p) (short : p.head?.elim 0 Pbuf.len < dhcpSnameOfs) :
    parseMessage (chainBytes p) = none := by
  have e : dhcpOptionsOfs = 240 := rfl
  have e' : dhcpMsgLen = 236 := rfl
  have e'' : dhcpSnameOfs = 44 := rfl
  have nothing : (chainBytes p).drop dhcpOptionsOfs = [] := by
    refine List.drop_of_length_le ?_
    rw [length_chainBytes]
    cases p with
    | nil => simp [totLen]
    | cons q next =>
        rw [List.head?_cons, Option.elim_some] at short
        have last : next = [] := by
          by_contra more
          have := cut.head more
          omega
        subst last
        simp [totLen]
        omega
  rw [parseMessage, messageOptions, fieldOptions, nothing, readItems]
  rfl

theorem dhcpParseReply_spec (cut : Cut p) :
    ∃ r, dhcpParseReply p = some r ∧ r.toOption = parseMessage (chainBytes p) := by
  rw [dhcpParseReply]
  by_cases short : p.head?.elim 0 Pbuf.len < dhcpSnameOfs
  · rw [if_pos short, parseMessage_short cut short]
    exact ⟨_, rfl, rfl⟩
  rw [if_neg short]
  obtain ⟨r, parsed, means⟩ := @parseField_spec p dhcpClearAllOptions dhcpOptionsOfs (totLen p) cut le_rfl (Or.inl rfl)
  rw [← length_chainBytes] at means
  rw [parseMessage, messageOptions]
  cases read : fieldOptions (chainBytes p) dhcpOptionsOfs ((chainBytes p).length - dhcpOptionsOfs) with
  | none =>
      rw [read] at means
      obtain ⟨e, rfl⟩ := toOption_eq_none means
      exact ⟨.error e, by rw [parseFields, parsed], rfl⟩
  | some os =>
      rw [read] at means
      have start : given dhcpClearAllOptions os = meaning os := by
        funext idx
        rw [given, dhcpClearAllOptions, Option.none_or]
      obtain ⟨r', parsed', means'⟩ := @parseFields_overloaded p (Function.update (meaning os) .overload none) cut
        (Function.update_self ..) (overloads os dhcpOverloadFile) (overloads os dhcpOverloadSname)
      refine ⟨r', ?_, ?_⟩
      · rw [parseFields, parsed, toOption_eq_some means, start]
        exact parsed'
      · rw [means']
        simp only [update_given_update, Option.bind_eq_bind, Option.bind_some]
        generalize overloadedOptions _ _ _ = more
        cases more <;> rfl

end Oinzen
