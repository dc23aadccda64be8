import Oinzen.Message.Meaning

/-!
# The messages that the client accepts

What `dhcp_recv` sees of a packet is a matter of its bytes, and it sees options exactly when these are
well formed.
-/

namespace Oinzen

open Wire

variable {p : List Pbuf} {q : Pbuf} {next : List Pbuf} {bs : List UInt8} {os : List DhcpOption} {ofs n : Nat}

structure HoldsOptions (bs : List UInt8) (ofs n : Nat) (os : List DhcpOption) : Prop where
  layout : ∃ xs, Nonempty (Layout n (bs.drop ofs) xs) ∧ os = xs.reduceOption
  admissible : ∀ o ∈ os, o.Admissible ofs

def HoldsWhen (c : Bool) (bs : List UInt8) (ofs n : Nat) (os : List DhcpOption) : Prop :=
  if c then HoldsOptions bs ofs n os else os = []

structure WellFormed (bs : List UInt8) where
  options : List DhcpOption
  file : List DhcpOption
  sname : List DhcpOption
  inOptions : HoldsOptions bs dhcpOptionsOfs (bs.length - dhcpOptionsOfs) options
  inFile : HoldsWhen (overloads options dhcpOverloadFile) bs dhcpFileOfs dhcpFileLen file
  inSname : HoldsWhen (overloads options dhcpOverloadSname) bs dhcpSnameOfs dhcpSnameLen sname

def WellFormed.all (w : WellFormed bs) : List DhcpOption := w.options ++ (w.file ++ w.sname)

theorem fieldOptions_iff : fieldOptions bs ofs n = some os ↔ HoldsOptions bs ofs n os := by
  rw [fieldOptions, Option.filter_eq_some_iff, readItems_iff, decide_eq_true_eq]
  exact ⟨fun h => ⟨h.1, h.2⟩, fun h => ⟨h.1, h.2⟩⟩

theorem optionsWhen_iff {c : Bool} : optionsWhen c bs ofs n = some os ↔ HoldsWhen c bs ofs n os := by
  rw [optionsWhen]
  cases c with
  | false =>
      rw [if_neg (by decide), Option.some.injEq, HoldsWhen, if_neg (by decide)]
      exact eq_comm
  | true =>
      rw [if_pos rfl, fieldOptions_iff, HoldsWhen, if_pos rfl]

theorem overloadedOptions_iff {file sname : Bool} :
    overloadedOptions bs file sname = some os ↔
      ∃ fs ss, HoldsWhen file bs dhcpFileOfs dhcpFileLen fs ∧ HoldsWhen sname bs dhcpSnameOfs dhcpSnameLen ss ∧
        os = fs ++ ss := by
  simp only [overloadedOptions, Option.bind_eq_bind, Option.bind_eq_some_iff, optionsWhen_iff, Option.some.injEq]
  constructor
  · rintro ⟨fs, hf, ss, hs, rfl⟩
    exact ⟨fs, ss, hf, hs, rfl⟩
  · rintro ⟨fs, ss, hf, hs, rfl⟩
    exact ⟨fs, hf, ss, hs, rfl⟩

theorem messageOptions_iff : messageOptions bs = some os ↔ ∃ w : WellFormed bs, os = w.all := by
  simp only [messageOptions, Option.bind_eq_bind, Option.bind_eq_some_iff, fieldOptions_iff, overloadedOptions_iff,
    Option.some.injEq]
  constructor
  · rintro ⟨options, ho, more, ⟨file, sname, hf, hs, rfl⟩, rfl⟩
    exact ⟨⟨options, file, sname, ho, hf, hs⟩, rfl⟩
  · rintro ⟨w, rfl⟩
    exact ⟨w.options, w.inOptions, _, ⟨w.file, w.sname, w.inFile, w.inSname, rfl⟩, rfl⟩

def messagePacket (len : Nat) (bs : List UInt8) : DhcpPacket where
  len := len
  op := bs.getD 0 0
  chaddr := (bs.drop 28).take 6
  xid := ntohl ((bs.drop 4).take 4)
  yiaddr := ntohl ((bs.drop 16).take 4)
  options := (parseMessage bs).map RxOptions.options

theorem take_drop_chain {i n : Nat} (h : i + n ≤ q.len) :
    ((chainBytes (q :: next)).drop i).take n = (List.range n).map fun j => q.payload (i + j) := by
  rw [chainBytes_cons, List.drop_append_of_le_length (by rw [length_bytes]; omega),
    List.take_append_of_le_length (by rw [List.length_drop, length_bytes]; omega)]
  exact take_drop_bytes q.payload h

theorem dhcpPacket_eq (cut : Cut (q :: next)) (large : dhcpMinReplyLen ≤ q.len) :
    dhcpPacket q next = some (messagePacket q.len (chainBytes (q :: next))) := by
  have e : dhcpMinReplyLen = 44 := rfl
  obtain ⟨r, parsed, means⟩ := dhcpParseReply_spec cut
  have op : (chainBytes (q :: next)).getD 0 0 = q.payload 0 := by
    have first := @drop_chain_cons q next 0 (by omega)
    rw [List.drop_zero] at first
    rw [first]
    rfl
  rw [dhcpPacket, parsed, messagePacket, op, take_drop_chain (by omega), take_drop_chain (by omega),
    take_drop_chain (by omega), ← means]
  rfl

theorem findOptions_next {r : Pbuf} {offset offsetMax : Nat} (behind : q.len ≤ offset) (here : offset - q.len < r.len) :
    findOptions (q :: r :: next) offset offsetMax =
      (r :: next, offset - q.len, (offsetMax + 65536 - q.len) % 65536) := by
  rw [findOptions, if_pos behind, findOptions_here here]

theorem parseOption_overload {offset optionsIdx : Nat} {rx : RxOptions} (small : offset + 2 < 65536)
    (other : optionsIdx ≠ dhcpOptionsOfs) (overload : q.payload offset = dhcpOptionOverload) :
    parseOption optionsIdx q next offset rx = .error .val := by
  have decoded : decodeIdx dhcpOptionOverload = some .overload := rfl
  have invalid : DhcpOptionIdx.overload.valid optionsIdx (optionLen q next offset) = false := by
    rw [DhcpOptionIdx.valid, decide_eq_false other, Bool.and_false]
  rw [parseOption]
  dsimp only
  rw [Nat.mod_eq_of_lt small, if_neg (by omega), overload, if_neg (by decide), decoded]
  simp only [invalid]
  rfl

/-- Where the first pbuf ends before the options, an overload option at their start loses all of them. -/
theorem dhcpPacket_early {r : Pbuf} (large : dhcpMinReplyLen ≤ q.len) (early : q.len ≤ dhcpOptionsOfs)
    (here : dhcpOptionsOfs < q.len + r.len) (small : totLen (q :: r :: next) < 65536)
    (overload : r.payload (dhcpOptionsOfs - q.len) = dhcpOptionOverload) :
    ∃ packet, dhcpPacket q (r :: next) = some packet ∧ packet.options = none := by
  have e : dhcpMinReplyLen = 44 := rfl
  have e' : dhcpSnameOfs = 44 := rfl
  have e'' : dhcpOptionsOfs = 240 := rfl
  have total : totLen (q :: r :: next) = q.len + (r.len + totLen next) := by rw [totLen_cons, totLen_cons]
  have limit : (totLen (q :: r :: next) + 65536 - q.len) % 65536 = r.len + totLen next := by omega
  have goes : dhcpOptionsOfs - q.len < r.len + totLen next ∧ r.payload (dhcpOptionsOfs - q.len) ≠ dhcpOptionEnd := by
    refine ⟨by omega, ?_⟩
    rw [overload]
    decide
  have field : parseField (q :: r :: next) dhcpOptionsOfs (totLen (q :: r :: next)) dhcpClearAllOptions =
      some (.error .val) := by
    rw [parseField, findOptions_next early (by omega)]
    dsimp only
    rw [limit, parseLoop, if_pos goes, parseOption_overload (by omega) (by omega) overload]
  have parsed : dhcpParseReply (q :: r :: next) = some (.error .val) := by
    rw [dhcpParseReply, List.head?_cons, Option.elim_some, if_neg (by omega), parseFields, field]
  rw [dhcpPacket, parsed]
  exact ⟨_, rfl, rfl⟩

end Oinzen
