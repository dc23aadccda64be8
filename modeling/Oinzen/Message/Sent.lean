import Oinzen.Message.Create
import Oinzen.Driver.Start
import Mathlib.Data.List.GetD

/-!
# Reading what the client sends

The options of a request fit in its message, and the message reads as these options.
-/

namespace Oinzen

open Wire

variable {h : Nat → UInt8} {bs xs ys : List UInt8} {f g : MsgOut → Option MsgOut}

/-! ## Numbers -/

theorem masked_byte (n k : Nat) : (n &&& 255 <<< k) >>> k % 256 = n / 2 ^ k % 256 := by
  have mask : n >>> k &&& 255 = n >>> k % 256 := Nat.and_two_pow_sub_one_eq_mod (n >>> k) 8
  rw [Nat.shiftRight_and_distrib, Nat.shiftLeft_shiftRight, mask, Nat.mod_mod, Nat.shiftRight_eq_div_pow]

theorem ntohl_htonl (v : UInt32) : ntohl (htonl v) = v := by
  have b₀ : ((v &&& 0xff000000) >>> 24).toUInt8.toNat = v.toNat / 2 ^ 24 % 256 := masked_byte v.toNat 24
  have b₁ : ((v &&& 0x00ff0000) >>> 16).toUInt8.toNat = v.toNat / 2 ^ 16 % 256 := masked_byte v.toNat 16
  have b₂ : ((v &&& 0x0000ff00) >>> 8).toUInt8.toNat = v.toNat / 2 ^ 8 % 256 := masked_byte v.toNat 8
  have b₃ : (v &&& 0x000000ff).toUInt8.toNat = v.toNat / 2 ^ 0 % 256 := masked_byte v.toNat 0
  have lt := v.toNat_lt
  apply UInt32.toNat_inj.mp
  simp only [ntohl, htonl, List.foldl_cons, List.foldl_nil, b₀, b₁, b₂, b₃, UInt32.toNat_ofNat']
  omega

/-! ## Appending -/

def made (h : Nat → UInt8) (bs : List UInt8) : MsgOut := MsgOut.pushAll ⟨h, 0⟩ bs

theorem made_pushAll (h : Nat → UInt8) (bs ys : List UInt8) : (made h bs).pushAll ys = made h (bs ++ ys) :=
  List.foldl_append.symm

theorem made_push (h : Nat → UInt8) (bs : List UInt8) (b : UInt8) : (made h bs).push b = made h (bs ++ [b]) :=
  made_pushAll h bs [b]

theorem pushAll_len (m : MsgOut) (bs : List UInt8) : (m.pushAll bs).optionsOutLen = m.optionsOutLen + bs.length := by
  induction bs generalizing m with
  | nil => rfl
  | cons b bs ih =>
      change ((m.push b).pushAll bs).optionsOutLen = _
      rw [ih, List.length_cons]
      simp only [MsgOut.push]
      omega

@[simp]
theorem made_len (h : Nat → UInt8) (bs : List UInt8) : (made h bs).optionsOutLen = bs.length := by
  rw [made, pushAll_len, Nat.zero_add]

theorem stored_at (h : Nat → UInt8) (ofs : Nat) (bs : List UInt8) (i : Nat) :
    stored h ofs bs i = if ofs ≤ i ∧ i < ofs + bs.length then bs.getD (i - ofs) 0 else h i := by
  rw [stored, memcpy]
  simp only [Nat.zero_add]

theorem push_payload (m : MsgOut) (b : UInt8) :
    (m.push b).payload = Function.update m.payload (dhcpOptionsOfs + m.optionsOutLen) b := rfl

theorem made_payload (h : Nat → UInt8) (bs : List UInt8) : (made h bs).payload = stored h dhcpOptionsOfs bs := by
  induction bs using List.reverseRecOn with
  | nil =>
      funext i
      rw [stored_at, if_neg (by simp)]
      rfl
  | append_singleton bs b ih =>
      funext i
      have len := made_len h bs
      rw [← made_push, push_payload, ih, len, stored_at, List.length_append, List.length_singleton]
      by_cases last : i = dhcpOptionsOfs + bs.length
      · subst last
        rw [Function.update_self, if_pos (by omega), Nat.add_sub_cancel_left]
        simp
      · rw [Function.update_of_ne last, stored_at]
        by_cases inside : dhcpOptionsOfs ≤ i ∧ i < dhcpOptionsOfs + bs.length
        · rw [if_pos inside, if_pos (by omega), List.getD_append _ _ _ _ (by omega)]
        · rw [if_neg inside, if_neg (by omega)]

def Appends (f : MsgOut → Option MsgOut) (ys : List UInt8) : Prop :=
  ∀ h bs, bs.length + ys.length ≤ dhcpOptionsLen → f (made h bs) = some (made h (bs ++ ys))

theorem Appends.andThen (hf : Appends f xs) (hg : Appends g ys) : Appends (fun m => f m >>= g) (xs ++ ys) := by
  intro h bs fits
  rw [List.length_append] at fits
  have first := hf h bs (by omega)
  have second := hg h (bs ++ xs) (by rw [List.length_append]; omega)
  rw [← List.append_assoc, ← second]
  simp only [first, Option.bind_eq_bind, Option.bind_some]

theorem appends_byte (b : UInt8) : Appends (dhcpOptionByte b) [b] := by
  intro h bs fits
  rw [List.length_singleton] at fits
  rw [dhcpOptionByte, made_len, if_pos (by omega), made_push]

theorem appends_short (v : UInt16) : Appends (dhcpOptionShort v) (htons v) := by
  intro h bs fits
  have two : (htons v).length = 2 := rfl
  rw [dhcpOptionShort, made_len, if_pos (by omega), made_pushAll]

theorem appends_long (v : UInt32) : Appends (dhcpOptionLong v) (htonl v) := by
  intro h bs fits
  have four : (htonl v).length = 4 := rfl
  rw [dhcpOptionLong, made_len, if_pos (by omega), made_pushAll]

theorem Appends.option (t l : UInt8) (hg : Appends g ys) (len : ys.length = l.toNat) :
    Appends (fun m => dhcpOption t l m >>= g) (t :: l :: ys) := by
  intro h bs fits
  rw [List.length_cons, List.length_cons] at fits
  have value := hg h (bs ++ [t, l]) (by rw [List.length_append]; simp only [List.length_cons, List.length_nil]; omega)
  rw [List.append_assoc] at value
  simp only [dhcpOption, made_len]
  rw [if_pos (by omega), made_push, made_push, List.append_assoc]
  exact value

theorem appends_list (ys : List UInt8) : Appends (fun m => ys.foldlM (fun m b => dhcpOptionByte b m) m) ys := by
  induction ys with
  | nil =>
      intro h bs _
      rw [List.append_nil]
      rfl
  | cons b ys ih => exact Appends.andThen (appends_byte b) ih

/-! ## The options of a request -/

def messageTypeItem (t : DhcpMessageType) : DhcpOption :=
  ⟨dhcpOptionMessageType, [t.code], by simp, by decide, by decide⟩

def maxMsgSizeItem (mtu : UInt16) : DhcpOption :=
  ⟨dhcpOptionMaxMsgSize, htons mtu, by simp [htons], by decide, by decide⟩

def requestedIpItem (addr : IpAddr) : DhcpOption :=
  ⟨dhcpOptionRequestedIp, htonl addr, by simp [htonl], by decide, by decide⟩

def serverIdItem (addr : IpAddr) : DhcpOption := ⟨dhcpOptionServerId, htonl addr, by simp [htonl], by decide, by decide⟩

def requestListItem : DhcpOption :=
  ⟨dhcpOptionParameterRequestList, dhcpDiscoverRequestOptions, by decide, by decide, by decide⟩

namespace Request

def appended (s : Core) (server : IpAddr) : Request → List DhcpOption
  | discover | renew | rebind => [maxMsgSizeItem s.netif.mtu, requestListItem]
  | select =>
      [maxMsgSizeItem s.netif.mtu, requestedIpItem s.dhcp.offeredIpAddr, serverIdItem s.dhcp.serverIpAddr,
        requestListItem]
  | decline => [requestedIpItem s.dhcp.offeredIpAddr]
  | reboot => [maxMsgSizeItem dhcpMaxMsgLenMinRequired, requestedIpItem s.dhcp.offeredIpAddr, requestListItem]
  | release => [serverIdItem server]
  | inform => [maxMsgSizeItem s.netif.mtu]

def options (s : Core) (server : IpAddr) (r : Request) : List DhcpOption :=
  messageTypeItem r.messageType :: r.appended s server

theorem appends_messageType (t : DhcpMessageType) :
    Appends (fun m => dhcpOption dhcpOptionMessageType 1 m >>= dhcpOptionByte t.code) (messageTypeItem t).encode :=
  Appends.option dhcpOptionMessageType 1 (appends_byte t.code) rfl

theorem appends_maxMsgSize (mtu : UInt16) : Appends (maxMsgSizeOption mtu) (maxMsgSizeItem mtu).encode :=
  Appends.option dhcpOptionMaxMsgSize 2 (appends_short mtu) rfl

theorem appends_requestedIp (addr : IpAddr) :
    Appends (addressOption dhcpOptionRequestedIp addr) (requestedIpItem addr).encode :=
  Appends.option dhcpOptionRequestedIp 4 (appends_long addr) rfl

theorem appends_serverId (addr : IpAddr) : Appends (addressOption dhcpOptionServerId addr) (serverIdItem addr).encode :=
  Appends.option dhcpOptionServerId 4 (appends_long addr) rfl

theorem appends_requestList : Appends requestListOption requestListItem.encode :=
  Appends.option dhcpOptionParameterRequestList 3 (appends_list dhcpDiscoverRequestOptions) rfl

theorem appends_append (s : Core) (server : IpAddr) (r : Request) :
    Appends (fun m => r.append s server m) ((r.appended s server).flatMap Item.encode) := by
  have size := appends_maxMsgSize s.netif.mtu
  have offered := appends_requestedIp s.dhcp.offeredIpAddr
  cases r
  case select =>
    exact size.andThen (offered.andThen ((appends_serverId s.dhcp.serverIpAddr).andThen appends_requestList))
  case reboot => exact (appends_maxMsgSize dhcpMaxMsgLenMinRequired).andThen (offered.andThen appends_requestList)
  case decline => exact offered
  case release => exact appends_serverId server
  case inform => exact size
  all_goals exact size.andThen appends_requestList

end Request

/-! ## The whole message -/

theorem padOptions_made (n : Nat) (short : bs.length ≤ dhcpOptionsLen) (enough : dhcpOptionsLen ≤ bs.length + n) :
    padOptions n (made h bs) = made h (bs ++ List.replicate (dhcpOptionsLen - bs.length) 0) := by
  have e : dhcpOptionsLen = 68 := rfl
  have e' : dhcpMinOptionsLen = 68 := rfl
  induction n generalizing bs with
  | zero =>
      have none_left : dhcpOptionsLen - bs.length = 0 := by omega
      rw [padOptions, none_left, List.replicate_zero, List.append_nil]
  | succ n ih =>
      rw [padOptions, made_len]
      by_cases full : bs.length = dhcpOptionsLen
      · rw [if_neg (by omega), full, Nat.sub_self, List.replicate_zero, List.append_nil]
      · have more : dhcpOptionsLen - bs.length = dhcpOptionsLen - (bs ++ [0]).length + 1 := by
          rw [List.length_append, List.length_singleton]
          omega
        rw [if_pos (by omega), made_push, ih (by rw [List.length_append, List.length_singleton]; omega)
          (by rw [List.length_append, List.length_singleton]; omega), more, List.replicate_succ, List.append_assoc]
        rfl

def trailer (bs : List UInt8) : List UInt8 := dhcpOptionEnd :: List.replicate (dhcpOptionsLen - (bs.length + 1)) 0

theorem dhcpOptionTrailer_made (short : bs.length < dhcpOptionsLen) :
    dhcpOptionTrailer (made h bs) = ⟨dhcpOptionsOfs + dhcpOptionsLen, stored h dhcpOptionsOfs (bs ++ trailer bs)⟩ := by
  have padded := @padOptions_made h (bs ++ [dhcpOptionEnd]) dhcpOptionsLen
    (by rw [List.length_append, List.length_singleton]; omega)
    (by omega)
  rw [List.append_assoc, List.length_append, List.length_singleton] at padded
  rw [dhcpOptionTrailer, made_push, padded, made_len, made_payload, trailer]
  congr 2
  simp
  omega

theorem drop_bytes_stored (long : bs.length = dhcpOptionsLen) :
    (bytes (stored h dhcpOptionsOfs bs) (dhcpOptionsOfs + dhcpOptionsLen)).drop dhcpOptionsOfs = bs := by
  refine List.ext_getElem? fun i => ?_
  rw [List.getElem?_drop, getElem?_bytes]
  by_cases hi : i < bs.length
  · rw [if_pos (by omega), stored_at, if_pos (by omega), Nat.add_sub_cancel_left, List.getD_eq_getElem _ _ hi,
      List.getElem?_eq_getElem hi]
  · rw [if_neg (by omega), List.getElem?_eq_none (by omega)]

namespace Request

variable (s : Core) (server : IpAddr) (r : Request)

def sent : Pbuf :=
  let bs := (r.options s server).flatMap Item.encode
  ⟨dhcpOptionsOfs + dhcpOptionsLen, stored (msgHeader s r.messageType) dhcpOptionsOfs (bs ++ trailer bs)⟩

theorem options_fit : ((r.options s server).flatMap Item.encode).length < dhcpOptionsLen := by
  cases r <;> exact Nat.le_of_ble_eq_true rfl

theorem message_eq : r.message s server = some (r.sent s server) := by
  have fit := r.options_fit s server
  have out := ((appends_messageType r.messageType).andThen (r.appends_append s server)) (msgHeader s r.messageType) []
    (by rw [List.length_nil, Nat.zero_add]; exact Nat.le_of_lt fit)
  have last := @dhcpOptionTrailer_made (msgHeader s r.messageType) _ fit
  have made_all : (msgOut s r.messageType).bind (fun m => r.append s server m) =
      some (made (msgHeader s r.messageType) ((r.options s server).flatMap Item.encode)) := out
  rw [message]
  simp only [Option.bind_eq_bind]
  rw [← Option.bind_assoc, made_all, Option.bind_some, last]
  rfl

theorem admissible_of_none {o : DhcpOption} (h : decodeIdx o.tag = none) : o.Admissible dhcpOptionsOfs :=
  fun idx g => by
  rw [h] at g
  cases g

theorem admissible_of_valid {o : DhcpOption} {idx : DhcpOptionIdx} (h : decodeIdx o.tag = some idx)
    (valid : idx.valid dhcpOptionsOfs o.len = true) : o.Admissible dhcpOptionsOfs := fun i g => by
  rw [h] at g
  cases g
  exact valid

theorem options_admissible : ∀ o ∈ r.options s server, o.Admissible dhcpOptionsOfs := by
  have type : (messageTypeItem r.messageType).Admissible dhcpOptionsOfs := admissible_of_valid rfl rfl
  have size : ∀ mtu, (maxMsgSizeItem mtu).Admissible dhcpOptionsOfs := fun mtu => admissible_of_none rfl
  have address : ∀ addr, (requestedIpItem addr).Admissible dhcpOptionsOfs := fun addr => admissible_of_none rfl
  have id : ∀ addr, (serverIdItem addr).Admissible dhcpOptionsOfs := fun addr => admissible_of_valid rfl rfl
  have list : DhcpOption.Admissible dhcpOptionsOfs requestListItem := admissible_of_none rfl
  rw [options, List.forall_mem_cons]
  refine ⟨type, ?_⟩
  cases r <;> simp [appended, size, address, id, list]

theorem sent_holds : HoldsOptions (chainBytes [r.sent s server]) dhcpOptionsOfs dhcpOptionsLen (r.options s server) := by
  have fit := r.options_fit s server
  have field : (chainBytes [r.sent s server]).drop dhcpOptionsOfs =
      (r.options s server).flatMap Item.encode ++ trailer ((r.options s server).flatMap Item.encode) := by
    rw [chainBytes_cons, sent]
    simp only [chainBytes, List.flatMap_nil, List.append_nil]
    refine drop_bytes_stored ?_
    simp only [trailer, List.length_append, List.length_cons, List.length_replicate]
    omega
  refine ⟨⟨(r.options s server).map some, ⟨?_⟩, (reduceOption_map_some _).symm⟩, r.options_admissible s server⟩
  rw [field]
  exact Layout.of _ _ (Nat.le_of_lt fit)

def serverId : Request → Option IpAddr
  | select => some s.dhcp.serverIpAddr
  | release => some server
  | _ => none

theorem options_meaning : (meaning (r.options s server)).options =
    { msgType := some r.messageType.code
      serverId := r.serverId s server
      leaseTime := none
      t1 := none
      t2 := none
      subnetMask := none
      router := none } := by
  have addr : ∀ v, some (ntohl ((htonl v).take 4)) = some v := fun v => congrArg some (ntohl_htonl v)
  cases r
  case select => exact congrArg (fun v => DhcpOptions.mk (some 3) v none none none none none) (addr _)
  case release => exact congrArg (fun v => DhcpOptions.mk (some 7) v none none none none none) (addr _)
  all_goals rfl

theorem sent_payload {i : Nat} (hi : i < dhcpOptionsOfs) :
    (r.sent s server).payload i = msgHeader s r.messageType i := by
  change stored _ dhcpOptionsOfs _ i = _
  rw [stored_at, if_neg (by omega)]

theorem header_xid : (List.range 4).map (fun i => msgHeader s r.messageType (4 + i)) = htonl s.dhcp.xid := by
  have range : List.range 4 = [0, 1, 2, 3] := rfl
  rw [range]
  cases hc : sendsCiaddr r.messageType s.dhcp.state <;>
    simp [msgHeader, stored_at, hc, htonl, dhcpMsgLen, dhcpChaddrOfs]

theorem header_yiaddr : (List.range 4).map (fun i => msgHeader s r.messageType (16 + i)) = [0, 0, 0, 0] := by
  have range : List.range 4 = [0, 1, 2, 3] := rfl
  rw [range]
  cases hc : sendsCiaddr r.messageType s.dhcp.state <;>
    simp [msgHeader, stored_at, hc, htonl, dhcpMsgLen, dhcpChaddrOfs]

theorem header_chaddr (six : s.netif.hwaddr.length = 6) :
    (List.range 6).map (fun i => msgHeader s r.messageType (28 + i)) = s.netif.hwaddr := by
  refine List.ext_getElem (by simp [six]) fun i h₁ h₂ => ?_
  have hi : i < 6 := by simpa using h₁
  rw [List.getElem_map, List.getElem_range, msgHeader]
  simp only [stored_at, dhcpMsgLen, dhcpChaddrOfs]
  rw [if_neg (by omega), if_pos (by rw [List.length_take, six]; omega), Nat.add_sub_cancel_left,
    List.take_of_length_le (by omega), List.getD_eq_getElem _ _ h₂]

theorem header_op : msgHeader s r.messageType 0 = dhcpBootrequest := by
  cases hc : sendsCiaddr r.messageType s.dhcp.state <;>
    simp [msgHeader, stored_at, hc, htonl, dhcpMsgLen, dhcpChaddrOfs]

theorem no_overload : meaning (r.options s server) .overload = none := by cases r <;> rfl

def wellFormed : WellFormed (chainBytes [r.sent s server]) where
  options := r.options s server
  file := []
  sname := []
  inOptions := by
    have size : (chainBytes [r.sent s server]).length = dhcpOptionsOfs + dhcpOptionsLen := by
      rw [length_chainBytes]
      rfl
    rw [size, Nat.add_sub_cancel_left]
    exact r.sent_holds s server
  inFile := by
    rw [overloads, no_overload]
    rfl
  inSname := by
    rw [overloads, no_overload]
    rfl

theorem sent_packet (six : s.netif.hwaddr.length = 6) (len : Nat) :
    messagePacket len (chainBytes [r.sent s server]) =
      { len := len
        op := dhcpBootrequest
        chaddr := s.netif.hwaddr
        xid := s.dhcp.xid
        yiaddr := 0
        options := some (meaning (r.options s server)).options } := by
  have field : ∀ i n, i + n ≤ dhcpOptionsOfs → ((chainBytes [r.sent s server]).drop i).take n =
      (List.range n).map fun j => msgHeader s r.messageType (i + j) := by
    intro i n early
    rw [take_drop_chain (show i + n ≤ dhcpOptionsOfs + dhcpOptionsLen by omega)]
    refine List.map_congr_left fun j hj => ?_
    have := List.mem_range.mp hj
    exact r.sent_payload s server (by omega)
  have first : (chainBytes [r.sent s server]).getD 0 0 = msgHeader s r.messageType 0 :=
    r.sent_payload s server (by decide)
  have all : (r.wellFormed s server).all = r.options s server := List.append_nil _
  have means : (parseMessage (chainBytes [r.sent s server])).map RxOptions.options =
      some (meaning (r.options s server)).options := by
    rw [parseMessage, messageOptions_iff.mpr ⟨r.wellFormed s server, all.symm⟩]
    rfl
  rw [messagePacket, first, field 28 6 (by decide), field 4 4 (by decide), field 16 4 (by decide), means, header_op,
    header_chaddr s r six, header_xid, header_yiaddr, ntohl_htonl]
  rfl

/-- The assertions hold while a request makes its message, the message is one of 308 bytes, and a pbuf with its
bytes reads as what the client is, asks and addresses. -/
theorem message_read (six : s.netif.hwaddr.length = 6) :
    ∃ p, r.message s server = some p ∧ p.len = 308 ∧
      (∃ w : WellFormed (chainBytes [p]), w.all = r.options s server) ∧
      ∀ q, chainBytes [q] = chainBytes [p] →
        dhcpPacket q [] = some
          { len := 308
            op := dhcpBootrequest
            chaddr := s.netif.hwaddr
            xid := s.dhcp.xid
            yiaddr := 0
            options := some
              { msgType := some r.messageType.code
                serverId := r.serverId s server
                leaseTime := none
                t1 := none
                t2 := none
                subnetMask := none
                router := none } } := by
  refine ⟨_, r.message_eq s server, rfl, ⟨r.wellFormed s server, List.append_nil _⟩, fun q same => ?_⟩
  have len : q.len = 308 := by
    have := congrArg List.length same
    rwa [length_chainBytes, length_chainBytes, totLen_cons, totLen_cons] at this
  have large : dhcpMinReplyLen ≤ q.len := by
    rw [len]
    decide
  rw [dhcpPacket_eq (Cut.one (by omega)) large, same, len, sent_packet s server r six, options_meaning]

theorem message_read_select :
    let s : Core := { Core.boot cleared with netif.hwaddr := [2, 0, 0, 0, 0, 1] }
    ∃ p, select.message s 0 = some p ∧ p.len = 308 ∧
      (∃ w : WellFormed (chainBytes [p]), w.all = select.options s 0) ∧
      ∀ q, chainBytes [q] = chainBytes [p] →
        dhcpPacket q [] = some
          { len := 308
            op := dhcpBootrequest
            chaddr := [2, 0, 0, 0, 0, 1]
            xid := s.dhcp.xid
            yiaddr := 0
            options := some
              { msgType := some 3
                serverId := some s.dhcp.serverIpAddr
                leaseTime := none
                t1 := none
                t2 := none
                subnetMask := none
                router := none } } :=
  message_read { Core.boot cleared with netif.hwaddr := [2, 0, 0, 0, 0, 1] } 0 select rfl

end Request

end Oinzen
