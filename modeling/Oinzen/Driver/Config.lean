import Oinzen.Interference.Twin
import Oinzen.Driver.Start

/-!
# Speed and duplex mode after a link-up

`ethernetif_update_config` asks the PHY for the mode that was negotiated, or forces one, and sets the MAC to
it. The other threads change the state of the handle meanwhile, but find no reason to lock it.
-/

namespace Oinzen

open Interference Relation

def srMode (sr : UInt32) : UInt32 :=
  (if sr &&& phySpeedStatus = 0 then ethSpeed100M else 0) |||
    (if sr &&& phyDuplexStatus ≠ 0 then ethModeFullDuplex else 0)

def bcrMode (bcr : UInt32) : UInt32 :=
  (if bcr &&& 0x2000 ≠ 0 then ethSpeed100M else 0) ||| (if bcr &&& 0x0100 ≠ 0 then ethModeFullDuplex else 0)

namespace PhyAccess

def status : PhyAccess → HalStatus
  | read _ status _ => status
  | write _ status _ => status

def Settles : PhyAccess → Prop
  | read phyReg _ _ => phyReg = phySr
  | write phyReg _ regValue => phyReg = phyBcr ∧ regValue &&& phyAutonegotiation = 0

end PhyAccess

namespace Config

open Prog

/-- The mode of `MACCR` was read from `PHY_SR` after the negotiation was complete, or it was forced. -/
def Agrees (accesses : List PhyAccess) (maccr : UInt32) : Prop :=
  (∃ before after bsr sr, accesses = before ++ .read phyBsr .ok bsr :: after ∧
    bsr &&& phyAutonegoComplete = phyAutonegoComplete ∧ .read phySr .ok sr ∈ after ∧ maccr &&& 0x4800 = srMode sr) ∨
  ∃ bcr, .write phyBcr .ok bcr ∈ accesses ∧ bcr &&& phyAutonegotiation = 0 ∧ maccr &&& 0x4800 = bcrMode bcr

structure Aloof (s t : Eth) : Prop where
  phy : t.phy = s.phy
  init : t.heth.init = s.heth.init
  maccr : t.maccr = s.maccr
  lock : t.heth.lock = true → s.heth.lock = true

structure Has (log : List PhyAccess) (init : EthInit) (mode : UInt32 → Prop) (s : Eth) : Prop where
  phy : s.phy = log
  init : s.heth.init = init
  maccr : mode s.maccr

structure Open (log : List PhyAccess) (init : EthInit) (mode : UInt32 → Prop) (s : Eth) : Prop
    extends Has log init mode s where
  lock : s.heth.lock = false

inductive Settled (new : List PhyAccess) (init : EthInit) : Prop
  | negotiated {polls bsr status sr} (before : ∀ e ∈ polls, ¬ e.Settles)
      (complete : bsr &&& phyAutonegoComplete = phyAutonegoComplete)
      (accesses : new = polls ++ [.read phyBsr .ok bsr, .read phySr status sr])
      (mode : init.speed ||| init.duplexMode = srMode sr)
  | forced {polls status} (before : ∀ e ∈ polls, ¬ e.Settles)
      (accesses : new = polls ++ [.write phyBcr status (fixedMode init)])

/-! ## Modes -/

section

variable {new : List PhyAccess} {init : EthInit} {maccr : UInt32}

theorem or_and {m k x : UInt32} (h : x &&& k = 0) : (m ||| x) &&& k = m &&& k := by
  have hbits := congrArg UInt32.toBitVec h
  apply UInt32.toBitVec_inj.1
  ext i hi
  have hbit := congrArg (fun b => b.getLsbD i) hbits
  simp only [UInt32.toBitVec_and, BitVec.getLsbD_and, UInt32.toBitVec_ofNat, BitVec.getLsbD_zero] at hbit
  simp only [UInt32.toBitVec_and, UInt32.toBitVec_or, BitVec.getElem_and, BitVec.getElem_or, Bool.and_or_distrib_right]
  rw [← BitVec.getLsbD_eq_getElem (x := x.toBitVec), ← BitVec.getLsbD_eq_getElem (x := k.toBitVec), hbit, Bool.or_false]

theorem clear_or_and {m k x : UInt32} : ((m &&& ~~~k) ||| x) &&& k = x &&& k := by
  apply UInt32.toBitVec_inj.1
  ext i hi
  simp only [UInt32.toBitVec_and, UInt32.toBitVec_or, UInt32.toBitVec_not, BitVec.getElem_and, BitVec.getElem_or,
    BitVec.getElem_not]
  cases k.toBitVec[i] <;> simp

theorem mode_and (init : EthInit) :
    (init.speed ||| init.duplexMode) &&& 0x4800 = init.speed ||| init.duplexMode := by
  unfold EthInit.speed EthInit.duplexMode
  generalize init.speed100M = speed100M
  generalize init.fullDuplex = fullDuplex
  revert speed100M fullDuplex
  decide

theorem bcrMode_fixedMode (init : EthInit) : bcrMode (fixedMode init) = init.speed ||| init.duplexMode := by
  unfold bcrMode fixedMode EthInit.speed EthInit.duplexMode
  generalize init.speed100M = speed100M
  generalize init.fullDuplex = fullDuplex
  revert speed100M fullDuplex
  decide

theorem fixedMode_and (init : EthInit) : fixedMode init &&& phyAutonegotiation = 0 := by
  unfold fixedMode
  generalize init.speed100M = speed100M
  generalize init.fullDuplex = fullDuplex
  revert speed100M fullDuplex
  decide

theorem Settled.last (h : Settled new init) (mode : maccr &&& 0x4800 = init.speed ||| init.duplexMode) :
    ∃ last ∈ new, last.Settles ∧ (∀ e ∈ new, e.Settles → e = last) ∧ (last.status = .ok → Agrees new maccr) := by
  cases h with
  | @negotiated polls bsr status sr before complete accesses shown =>
      subst accesses
      refine ⟨.read phySr status sr, by simp, rfl, fun e he hsettles => ?_, fun hok => ?_⟩
      · simp only [List.mem_append, List.mem_cons, List.not_mem_nil, or_false] at he
        rcases he with he | rfl | rfl
        · exact absurd hsettles (before e he)
        · exact absurd hsettles (show ¬ phyBsr = phySr by decide)
        · rfl
      · obtain rfl : status = .ok := hok
        exact .inl ⟨polls, [.read phySr .ok sr], bsr, sr, rfl, complete, List.mem_singleton_self _, mode.trans shown⟩
  | @forced polls status before accesses =>
      subst accesses
      refine ⟨.write phyBcr status (fixedMode init), by simp, ⟨rfl, fixedMode_and init⟩, fun e he hsettles => ?_,
        fun hok => ?_⟩
      · rcases List.mem_append.mp he with he | he
        · exact absurd hsettles (before e he)
        · exact List.mem_singleton.mp he
      · obtain rfl : status = .ok := hok
        exact .inr ⟨fixedMode init, by simp, fixedMode_and init, mode.trans (bcrMode_fixedMode init).symm⟩

theorem Settled.agrees_iff (h : Settled new init) (mode : maccr &&& 0x4800 = init.speed ||| init.duplexMode) :
    Agrees new maccr ↔ ∀ e ∈ new, e.Settles → e.status = .ok := by
  obtain ⟨last, hmem, hlast, honly, hagrees⟩ := h.last mode
  refine ⟨fun hmode e he hsettles => ?_, fun hok => hagrees (hok last hmem hlast)⟩
  obtain rfl := honly e he hsettles
  rcases hmode with ⟨polls, after, bsr, sr, rfl, -, hread, -⟩ | ⟨bcr, hwrite, hmanual, -⟩
  · rw [← honly (.read phySr .ok sr) (by simp [hread]) rfl]
    rfl
  · rw [← honly _ hwrite ⟨rfl, hmanual⟩]
    rfl

end

/-! ## The functions of the HAL -/

section

variable {log : List PhyAccess} {init : EthInit} {mode mode' : UInt32 → Prop} {s : Eth}

theorem has_stable : Stable (beside Aloof).rely (Has log init mode) :=
  fun _ _ (r : Aloof _ _) h => ⟨r.phy.trans h.phy, r.init.trans h.init, by rw [r.maccr]; exact h.maccr⟩

theorem open_stable : Stable (beside Aloof).rely (Open log init mode) := by
  intro s t r h
  refine ⟨has_stable r h.toHas, Bool.eq_false_iff.mpr fun hlock => ?_⟩
  exact Bool.false_ne_true (h.lock.symm.trans (Aloof.lock r hlock))

theorem Open.setState (h : Open log init mode s) (x : HalEthState) : Open log init mode (s.setState x) :=
  ⟨⟨h.phy, h.init, h.maccr⟩, h.lock⟩

theorem Open.unlock (h : Open log init mode s) : Open log init mode (s.setLock false) :=
  ⟨⟨h.phy, h.init, h.maccr⟩, rfl⟩

theorem Open.phyReturn (h : Open log init mode s) (access : PhyAccess) :
    Open (log ++ [access]) init mode (s.phyReturn access) :=
  ⟨⟨congrArg (· ++ [access]) h.phy, h.init, h.maccr⟩, h.lock⟩

theorem Open.setInit (h : Open log init mode s) (f : EthInit → EthInit) :
    Open log (f init) mode { s with heth.init := f s.heth.init } :=
  ⟨⟨h.phy, congrArg f h.init, h.maccr⟩, h.lock⟩

theorem updateMaccr_safe {f : UInt32 → UInt32} (h : Has log init mode s) (sets : ∀ m, mode m → mode' (f m)) :
    (updateMaccr f).Safe (beside Aloof) (fun _ => Has log init mode') s := by
  refine beside_modify has_stable h fun t ht => ?_
  have ht : Has log init mode' { t with maccr := f t.maccr } := ⟨ht.phy, ht.init, sets _ ht.maccr⟩
  refine beside_get has_stable ht fun t ht => ?_
  have hmaccr := ht.maccr
  exact beside_modify (k := ret) has_stable ht fun u hu =>
    safe_ret has_stable ⟨hu.phy, hu.init, hmaccr⟩

theorem halEthReconfigure_safe {registers : Code Eth Unit} (h : Open log init mode s)
    (body : ∀ t, Has log init mode t → registers.Safe (beside Aloof) (fun _ => Has log init mode') t) :
    (halEthReconfigure registers).Safe (beside Aloof) (fun _ => Open log init mode') s := by
  refine beside_get open_stable h fun t ht => ?_
  rw [ht.lock, if_neg Bool.false_ne_true]
  refine beside_modify has_stable ht.toHas fun t ht => ?_
  have ht : Has log init mode (t.setLock true) := ⟨ht.phy, ht.init, ht.maccr⟩
  refine beside_modify has_stable ht fun t ht => ?_
  refine .seq _ (body _ ⟨ht.phy, ht.init, ht.maccr⟩) fun _ t ht => ?_
  refine beside_modify has_stable ht fun t ht => ?_
  have ht : Has log init mode' (t.setState .ready) := ⟨ht.phy, ht.init, ht.maccr⟩
  refine beside_modify has_stable ht fun t ht => ?_
  exact safe_ret open_stable ⟨⟨ht.phy, ht.init, ht.maccr⟩, rfl⟩

theorem halEthStop_safe (h : Open log init (fun _ => True) s) :
    halEthStop.Safe (beside Aloof) (fun _ => Open log init fun _ => True) s := by
  refine halEthReconfigure_safe h fun t ht => ?_
  refine .seq (fun _ => Has log init fun _ => True) (updateMaccr_safe ht fun _ _ => trivial) fun _ t ht => ?_
  exact updateMaccr_safe ht fun _ _ => trivial

theorem halEthConfigMac_safe (h : Open log init (fun _ => True) s) : halEthConfigMac.Safe (beside Aloof)
    (fun _ => Open log init fun m => m &&& 0x4800 = init.speed ||| init.duplexMode) s := by
  refine halEthReconfigure_safe h fun t ht => ?_
  refine beside_get has_stable ht fun t ht => ?_
  rw [ht.init]
  exact updateMaccr_safe ht fun m _ => clear_or_and.trans (mode_and init)

theorem halEthStart_safe {bits : UInt32} (h : Open log init (fun m => m &&& 0x4800 = bits) s) :
    halEthStart.Safe (beside Aloof) (fun _ => Open log init fun m => m &&& 0x4800 = bits) s := by
  have hte : ∀ m : UInt32, m &&& 0x4800 = bits → (m ||| maccrTe) &&& 0x4800 = bits :=
    fun m hm => (or_and (by decide)).trans hm
  have hre : ∀ m : UInt32, m &&& 0x4800 = bits → (m ||| maccrRe) &&& 0x4800 = bits :=
    fun m hm => (or_and (by decide)).trans hm
  refine halEthReconfigure_safe h fun t ht => ?_
  exact .seq _ (updateMaccr_safe ht hte) fun _ t ht => updateMaccr_safe ht hre

theorem halEthReadPhyRegister_safe (phyReg : UInt16) (regValue : UInt32) (h : Open log init mode s) :
    (halEthReadPhyRegister phyReg regValue).Safe (beside Aloof) (fun x t =>
      Open (log ++ [.read phyReg x.1 x.2]) init mode t ∧ (x.1 = .ok ∨ x.2 = regValue)) s := by
  refine beside_get open_stable h fun t ht => ?_
  split
  · refine beside_modify open_stable ht fun t ht => ?_
    exact safe_ret (open_stable.and (.const _)) ⟨ht.phyReturn _, .inr rfl⟩
  refine beside_modify open_stable ht fun t ht => ?_
  refine safe_call open_stable (ht.setState _) fun t answer ht => ?_
  cases answer with
  | none =>
      refine beside_modify open_stable ht fun t ht => ?_
      refine beside_modify open_stable (ht.setState _) fun t ht => ?_
      exact safe_ret (open_stable.and (.const _)) ⟨ht.unlock.phyReturn _, .inr rfl⟩
  | some v =>
      refine beside_modify open_stable ht fun t ht => ?_
      exact safe_ret (open_stable.and (.const _)) ⟨(ht.setState _).phyReturn _, .inl rfl⟩

theorem halEthWritePhyRegister_safe (phyReg : UInt16) (regValue : UInt32) (h : Open log init mode s) :
    (halEthWritePhyRegister phyReg regValue).Safe (beside Aloof)
      (fun status => Open (log ++ [.write phyReg status regValue]) init mode) s := by
  refine beside_get open_stable h fun t ht => ?_
  split
  · refine beside_modify open_stable ht fun t ht => ?_
    exact safe_ret open_stable (ht.phyReturn _)
  refine beside_modify open_stable ht fun t ht => ?_
  refine safe_call open_stable (ht.setState _) fun t done ht => ?_
  split
  · refine beside_modify open_stable ht fun t ht => ?_
    exact safe_ret open_stable ((ht.setState _).phyReturn _)
  · refine beside_modify open_stable ht fun t ht => ?_
    refine beside_modify open_stable (ht.setState _) fun t ht => ?_
    exact safe_ret open_stable (ht.unlock.phyReturn _)

end

/-! ## The callback -/

structure Polls (new : List PhyAccess) (done : Bool) (regvalue : UInt32) : Prop where
  before : ∀ e ∈ new, ¬ e.Settles
  complete : done = true → regvalue &&& phyAutonegoComplete = phyAutonegoComplete ∧
    ∃ polls, new = polls ++ [.read phyBsr .ok regvalue]

def Waited (log : List PhyAccess) (init : EthInit) (mode : UInt32 → Prop) (x : Bool × UInt32) (t : Eth) : Prop :=
  ∃ new, Open (log ++ new) init mode t ∧ Polls new x.1 x.2

section

variable {log : List PhyAccess} {init : EthInit} {mode : UInt32 → Prop} {s : Eth}

theorem waited_stable (x : Bool × UInt32) : Stable (beside Aloof).rely (Waited log init mode x) :=
  .exists_ fun _ => open_stable.and (.const _)

theorem not_settles_poll {status : HalStatus} {v : UInt32} : ¬ (PhyAccess.read phyBsr status v).Settles :=
  show ¬ phyBsr = phySr by decide

theorem waitAutonegotiation_safe (tickstart : UInt32) (ticks : List UInt32) (regvalue : UInt32)
    (pending : regvalue &&& phyAutonegoComplete ≠ phyAutonegoComplete) (h : Open log init mode s) :
    (waitAutonegotiation tickstart ticks regvalue).Safe (beside Aloof) (Waited log init mode) s := by
  induction ticks generalizing regvalue log s with
  | nil => exact safe_ret (waited_stable _) ⟨[], by rwa [List.append_nil], nofun, nofun⟩
  | cons tick ticks ih =>
      refine .seq _ (halEthReadPhyRegister_safe phyBsr regvalue h) fun x t hx => ?_
      obtain ⟨status, v⟩ := x
      obtain ⟨ht, hvalue⟩ := hx
      have hpoll : ∀ e ∈ [PhyAccess.read phyBsr status v], ¬ e.Settles :=
        List.forall_mem_singleton.mpr not_settles_poll
      dsimp only at ht hvalue ⊢
      split
      · exact safe_ret (waited_stable (false, v)) ⟨_, ht, hpoll, nofun⟩
      split
      · rename_i hcomplete
        have hok : status = .ok := hvalue.resolve_right fun hold => pending (hold ▸ hcomplete)
        exact safe_ret (waited_stable (true, v)) ⟨_, ht, hpoll, fun _ => ⟨hcomplete, [], by rw [hok]; rfl⟩⟩
      · rename_i hpending
        refine (ih v hpending ht).mono fun x t hx => ?_
        obtain ⟨new, ht, hnew⟩ := hx
        refine ⟨.read phyBsr status v :: new, by rwa [List.append_assoc] at ht, ?_, fun hdone => ?_⟩
        · exact List.forall_mem_cons.mpr ⟨not_settles_poll, hnew.before⟩
        · obtain ⟨hcomplete, polls, rfl⟩ := hnew.complete hdone
          exact ⟨hcomplete, _ :: polls, rfl⟩

def Negotiated (log : List PhyAccess) (init : EthInit) (mode : UInt32 → Prop) : Bool → Eth → Prop
  | true, t => ∃ new init', Open (log ++ new) init' mode t ∧ Settled new init'
  | false, t => ∃ new, Open (log ++ new) init mode t ∧ ∀ e ∈ new, ¬ e.Settles

theorem negotiated_stable (done : Bool) : Stable (beside Aloof).rely (Negotiated log init mode done) := by
  cases done with
  | true => exact .exists_ fun _ => .exists_ fun _ => open_stable.and (.const _)
  | false => exact .exists_ fun _ => open_stable.and (.const _)

theorem autonegotiate_safe (h : Open log init mode s) :
    autonegotiate.Safe (beside Aloof) (Negotiated log init mode) s := by
  refine .seq _ (halEthWritePhyRegister_safe phyBcr phyAutonegotiation h) fun status t ht => ?_
  have hrestart : ¬ (PhyAccess.write phyBcr status phyAutonegotiation).Settles :=
    fun hsettles => absurd hsettles.2 (by decide)
  refine safe_call open_stable ht fun t tickstart ht => ?_
  refine safe_call open_stable ht fun t ticks ht => ?_
  refine .seq _ (waitAutonegotiation_safe tickstart ticks.val 0 (by decide) ht) fun x t hx => ?_
  obtain ⟨done, bsr⟩ := x
  obtain ⟨new, ht, hpolls⟩ := hx
  rw [List.append_assoc] at ht
  have hbefore : ∀ e ∈ [PhyAccess.write phyBcr status phyAutonegotiation] ++ new, ¬ e.Settles :=
    List.forall_mem_append.mpr ⟨List.forall_mem_singleton.mpr hrestart, hpolls.before⟩
  cases done with
  | false => exact safe_ret (negotiated_stable false) ⟨_, ht, hbefore⟩
  | true =>
      obtain ⟨hcomplete, polls, rfl⟩ := hpolls.complete rfl
      simp only [when_true, bind_assoc]
      refine .seq _ (halEthReadPhyRegister_safe phySr bsr ht) fun x t hx => ?_
      obtain ⟨status', sr⟩ := x
      obtain ⟨ht, -⟩ := hx
      refine beside_modify open_stable ht fun t ht => ?_
      have ht := ht.setInit fun init => { init with fullDuplex := decide (sr &&& phyDuplexStatus ≠ 0) }
      refine beside_modify open_stable ht fun t ht => ?_
      have ht := ht.setInit fun init => { init with speed100M := decide (sr &&& phySpeedStatus = 0) }
      rw [List.append_assoc] at ht
      refine safe_ret (negotiated_stable true) ⟨_, _, ht, ?_⟩
      refine @Settled.negotiated _ _ (.write phyBcr status phyAutonegotiation :: polls) bsr status' sr
        (fun e he => ?_) hcomplete (by simp) ?_
      · refine hbefore e ?_
        rw [← List.append_assoc]
        exact List.mem_append_left _ he
      · simp [EthInit.speed, EthInit.duplexMode, srMode]

def Configured (log : List PhyAccess) (t : Eth) : Prop :=
  ∃ new init, Open (log ++ new) init (fun m => m &&& 0x4800 = init.speed ||| init.duplexMode) t ∧ Settled new init

theorem configure_safe {negotiated : Bool} (h : Negotiated log init (fun _ => True) negotiated s) :
    Safe (beside Aloof) (do
      when (!negotiated) do
        let init ← Prog.get fun s => s.heth.init
        let _ ← halEthWritePhyRegister phyBcr (fixedMode init)
      let _ ← halEthConfigMac
      let _ ← halEthStart) (fun _ => Configured log) s := by
  refine .seq (fun _ => Negotiated log init (fun _ => True) true) ?_ fun _ t ht => ?_
  · cases negotiated with
    | true => exact safe_ret (negotiated_stable true) h
    | false =>
        obtain ⟨new, h, hbefore⟩ := h
        refine beside_get open_stable h fun t ht => ?_
        refine .seq _ (halEthWritePhyRegister_safe phyBcr (fixedMode t.heth.init) ht) fun status u hu => ?_
        rw [ht.init, List.append_assoc] at hu
        exact safe_ret (negotiated_stable true) ⟨_, _, hu, .forced hbefore rfl⟩
  obtain ⟨new, init, ht, hsettled⟩ := ht
  refine .seq _ (halEthConfigMac_safe ht) fun _ t ht => ?_
  refine .seq _ (halEthStart_safe ht) fun _ t ht => ?_
  have hstable : Stable (beside Aloof).rely (Configured log) :=
    .exists_ fun _ => .exists_ fun _ => open_stable.and (.const _)
  exact safe_ret hstable ⟨new, init, ht, hsettled⟩

theorem ethernetifUpdateConfig_safe (unlocked : s.heth.lock = false) :
    (ethernetifUpdateConfig true).Safe (beside Aloof) (fun _ => Configured s.phy) s := by
  have hstart : Open s.phy s.heth.init (fun _ => True) s := ⟨⟨rfl, rfl, trivial⟩, unlocked⟩
  refine .seq _ (halEthStop_safe hstart) fun _ t ht => ?_
  rw [when_true]
  refine beside_get open_stable ht fun t ht => ?_
  split
  · exact .seq _ (autonegotiate_safe ht) fun _ t ht => configure_safe ht
  · have hnothing : Negotiated s.phy s.heth.init (fun _ => True) false t := ⟨[], by rwa [List.append_nil], nofun⟩
    exact configure_safe hnothing

end

end Config

/-! ## Results -/

open Config

/-- The MAC agrees with the PHY just when reading the result of the negotiation, or forcing a mode, does not fail. -/
theorem update_config_agrees_iff (s t : Eth) (unlocked : s.heth.lock = false)
    (run : Prog.Runs Aloof (ethernetifUpdateConfig true) s () t) :
    ∃ new, t.phy = s.phy ++ new ∧ (Agrees new t.maccr ↔ ∀ e ∈ new, e.Settles → e.status = .ok) := by
  obtain ⟨new, init, ht, hsettled⟩ := (ethernetifUpdateConfig_safe unlocked).runs run
  exact ⟨new, ht.phy, hsettled.agrees_iff ht.maccr⟩

def negotiates (sr : Option UInt16) : ∀ i, Call.Answer i
  | .macmiidr phyReg => if phyReg = phySr then sr else some 0x782D
  | .halGetTicks tickstart => ⟨[tickstart, 1001 + tickstart], by simp⟩
  | i => Call.granted true i

def linkedUp (sr : Option UInt16) : Eth :=
  (Prog.run (fun _ => negotiates sr) 0 (ethernetifUpdateConfig true) cleared).2

theorem linkedUp_runs (sr : Option UInt16) :
    Prog.Runs Aloof (ethernetifUpdateConfig true) cleared () (linkedUp sr) :=
  Prog.runs_run (fun _ => negotiates sr) 0 _ _

theorem update_config_agrees_iff_linked :
    (linkedUp (some 0x0018)).maccr &&& 0x4800 = srMode 0x0018 ∧
    ∃ new, (linkedUp (some 0x0018)).phy = cleared.phy ++ new ∧
      (Agrees new (linkedUp (some 0x0018)).maccr ↔ ∀ e ∈ new, e.Settles → e.status = .ok) :=
  ⟨by decide +kernel, update_config_agrees_iff cleared _ (by decide) (linkedUp_runs _)⟩

/-- The read of `PHY_SR` times out, and the mode is taken from the bits of `PHY_BSR`. -/
theorem update_config_disagrees : ¬ ∀ s t : Eth, s.heth.lock = false →
    Prog.Runs Aloof (ethernetifUpdateConfig true) s () t →
      ∃ new, t.phy = s.phy ++ new ∧ Agrees new t.maccr := by
  intro h
  obtain ⟨new, hnew, hagrees⟩ := h cleared _ (by decide) (linkedUp_runs none)
  have hphy : (linkedUp none).phy = cleared.phy ++ [.write phyBcr .ok phyAutonegotiation,
      .read phyBsr .ok 0x782D, .read phySr .timeout 0x782D] := by decide +kernel
  obtain rfl := List.append_cancel_left (hnew.symm.trans hphy)
  rcases hagrees with ⟨before, after, bsr, sr, heq, -, hread, -⟩ | ⟨bcr, hwrite, hmanual, -⟩
  · have hmem : PhyAccess.read phySr .ok sr ∈ before ++ .read phyBsr .ok bsr :: after := by simp [hread]
    rw [← heq] at hmem
    simp [phySr, phyBsr] at hmem
  · obtain rfl : bcr = phyAutonegotiation := by simpa using hwrite
    exact absurd hmanual (by decide)

end Oinzen
