import Chainsql.Evm.Revert

/-!
# Creations at the address of an account

`createContractAccount` does not ask whether the account it is given has code already, and `go` clears the code
of the account before the init code runs. Only a creation whose endowment cannot be paid leaves the account alone.
-/

namespace Chainsql.Evm

open Nested SleOps

variable {σ : Type} {env : Env σ} {ext : Ext} {w w' : World σ} {a sender origin : AccountID} {e : Executive}
  {sle root : AccountRoot} {sub : SubState} {depth : Nat} {endowment gasPrice : Word} {gas : Int} {code : Bytes}

/-! ## Creations -/

def Untouched (sle : AccountRoot) (w : World σ) (a : AccountID) : Prop :=
  ∃ sle', getSle w a = some sle' ∧ sle'.contractCode = sle.contractCode ∧
    sle'.storageOverlay = sle.storageOverlay ∧ sle'.balance = sle.balance

/-- Whatever the init code does, if there is any to be run, the computation ends in such a result. -/
def Whatever {α : Type} (x : Frames σ (Except Crash α)) (q : α → Prop) : Prop :=
  x.wp (fun _ => True) (fun _ _ => True) fun r => ∀ result, r = .ok result → q result

theorem executeCreate_refused (hsle : getSle w a = some sle) (hpay : ¬CanPay env w sender a endowment) :
    ∃ e, Executive.executeCreate env w depth a sender endowment gasPrice gas code origin = (w, e) ∧ e.ext = none ∧
      e.excepted ≠ tesSUCCESS := by
  rw [← transferBalance_success] at hpay
  rcases htransfer : transferBalance env w sender a endowment with ⟨ret, w₁⟩
  rw [htransfer] at hpay
  have hsame : w₁ = w := (transferBalance_cases htransfer).resolve_right fun ⟨_, _, _, hok, _⟩ => hpay hok
  rw [Executive.executeCreate, createContractAccount, hsle]
  dsimp only
  rw [htransfer, hsame]
  dsimp only
  rw [if_pos hpay]
  exact ⟨_, rfl, rfl, hpay⟩

theorem executeCreate_goes_ahead (hsle : getSle w a = some sle) (hpay : CanPay env w sender a endowment) :
    ∃ w' e, Executive.executeCreate env w depth a sender endowment gasPrice gas code origin = (w', e) ∧
      e.isCreation = true ∧ e.excepted = tesSUCCESS := by
  rw [← transferBalance_success] at hpay
  rcases htransfer : transferBalance env w sender a endowment with ⟨ret, w₁⟩
  rw [htransfer] at hpay
  rw [Executive.executeCreate, createContractAccount, hsle]
  dsimp only
  rw [htransfer]
  dsimp only
  rw [if_neg (not_not.mpr hpay)]
  split
  · exact ⟨_, _, rfl, rfl, rfl⟩
  · exact ⟨_, _, rfl, rfl, rfl⟩

def stopped (w : World σ) : Ended σ := ⟨w, .start, ⟨.EVMC_SUCCESS, 0, []⟩⟩

theorem goEnd_stopped (inner : Ext) (hcreation : e.isCreation = true) (hexcepted : e.excepted = tesSUCCESS) :
    ∃ w' e', e.goEnd inner (stopped w) = .ok (w', .start, e') ∧ e'.excepted = tesSUCCESS := by
  rw [Executive.goEnd, hcreation]
  exact ⟨_, _, rfl, hexcepted⟩

/-- `x` runs the frame of a creation at the address of an account, if one is prepared, and `q` says that the creation is
refused and the account left alone. -/
theorem creation_at_account {α : Type} {x : Frames σ (Except Crash α)} {q : α → Prop} (hsle : getSle w a = some sle)
    (hcreate : Executive.executeCreate env w depth a sender endowment gasPrice gas code origin = (w', e))
    (hnone : e.ext = none → ∃ r, x = .ret (.ok r) ∧ (q r ↔ e.excepted ≠ tesSUCCESS ∧ Untouched sle w' a))
    (hsome : ∀ inner, e.ext = some inner → ∃ f, x = (e.go w' inner).map f ∧
      ∀ w e, e.excepted = tesSUCCESS → ∃ r, f (.ok (w, .start, e)) = .ok r ∧ ¬q r) :
    Whatever x q ↔ ¬CanPay env w sender a endowment := by
  refine ⟨fun h hpay => ?_, fun hpay => ?_⟩
  · obtain ⟨_, _, hahead, hcreation, hexcepted⟩ := executeCreate_goes_ahead hsle hpay
    cases hcreate.symm.trans hahead
    cases hext : e.ext with
    | none =>
      obtain ⟨r, rfl, hq⟩ := hnone hext
      exact (hq.mp (h r rfl)).1 hexcepted
    | some inner =>
      obtain ⟨f, rfl, hf⟩ := hsome inner hext
      obtain ⟨w₂, e', hend, hexcepted'⟩ := goEnd_stopped (w := w') inner hcreation hexcepted
      obtain ⟨r, hr, hnot⟩ := hf w₂ e' hexcepted'
      rw [← hend] at hr
      exact hnot (h.2 (.ok (stopped w')) trivial r hr)
  · obtain ⟨_, hrefused, hext, hexcepted⟩ := executeCreate_refused hsle hpay
    cases hcreate.symm.trans hrefused
    obtain ⟨r, rfl, hq⟩ := hnone hext
    rintro _ ⟨⟩
    exact hq.mpr ⟨hexcepted, sle, hsle, rfl, rfl, rfl⟩

theorem create2_refused_iff {msg : Message} (hkind : msg.kind ≠ .EVMC_CREATE)
    (ha : Executive.create2Address env ext.myAddress msg.inputData msg.create2Salt = a) (hsle : getSle w a = some sle) :
    Whatever (EvmCHost.create env ext w sub msg)
        (fun r => r.2.2.statusCode ≠ .EVMC_SUCCESS ∧ Untouched sle r.1 a) ↔
      ¬CanPay env w ext.myAddress a msg.value := by
  have hstatus : ∀ e, (EvmCHost.createResult e).statusCode = .EVMC_SUCCESS ↔ e.excepted = tesSUCCESS :=
    fun e => terToEvmcStatusCode_success
  rw [EvmCHost.create, if_neg hkind, Executive.create2Opcode, ha]
  generalize hcreate : Executive.executeCreate env w _ a _ _ _ _ _ _ = created
  obtain ⟨w', e⟩ := created
  refine creation_at_account hsle hcreate (fun hext => ?_) fun inner hext => ?_
  · simp only [hostFrame, runFrame, hext]
    exact ⟨_, rfl, and_congr_left' (hstatus _).not⟩
  · simp only [hostFrame, runFrame, hext]
    refine ⟨fun r => hostResult EvmCHost.createResult (r.map fun x => (x.1, sub.add x.2.1, x.2.2)), rfl, ?_⟩
    intro w e hexcepted
    exact ⟨_, rfl, fun hq => hq.1 ((hstatus e).mpr hexcepted)⟩

def charged (env : Env σ) (root : AccountRoot) : AccountRoot :=
  { root with balance := .of (root.balance.val - (Executive.gasCost env : Int)).toNat }

theorem canPay_charged {value : Nat} (hvalue : value < 2 ^ 63) (hne : a ≠ sender)
    (hcost : Executive.gasCost env ≤ root.balance.val) :
    CanPay env (update w sender (charged env root)) sender a (.ofNat 256 value) ↔
      value = 0 ∨ Authorised env w sender a root ∧ Funded env root (Executive.gasCost env + value) := by
  have hword : (BitVec.ofNat 256 value).toNat = value := by rw [BitVec.toNat_ofNat]; omega
  have hdrops : Word.toDrops (.ofNat 256 value) = value := by rw [Word.toDrops, hword, toInt64_of_lt hvalue]
  have hzero : (BitVec.ofNat 256 value : Word) = 0 ↔ value = 0 := by
    rw [← BitVec.toNat_inj, hword]
    rfl
  have hbalance : ((charged env root).balance.val : Int) = root.balance.val - Executive.gasCost env := by
    have := root.balance.isLt
    rw [charged, Drops.val_of (by omega)]
    omega
  have hauth : Authorised env (update w sender (charged env root)) sender a (charged env root) ↔
      Authorised env w sender a root := by
    rw [Authorised, Authorised, getSle_update_ne hne]
    rfl
  rw [CanPay, getSle_update_self, hzero, hdrops]
  simp only [Option.some.injEq, exists_eq_left', hauth, Funded, hbalance]
  refine or_congr_right (and_congr_right fun _ => ?_)
  show _ + ((if root.contractCode.isSome then 0 else accountReserve env root.ownerCount false : Nat) : Int) ≤ _ ↔ _
  omega

theorem tx_creation_refused_iff (hcreation : env.tx.contractOpType = .ContractCreation)
    (ha : env.calcNewAddress env.tx.account env.tx.sequence = a) (hsle : getSle w a = some sle)
    (hsender : getSle w env.tx.account = some root) (hne : a ≠ env.tx.account) :
    Whatever (doApply env w) (fun r => r.1 ≠ tesSUCCESS ∧ Untouched sle r.2 a) ↔
      ¬(0 ≤ Executive.frameGas env ∧ Funded env root (Executive.gasCost env + env.tx.contractValue) ∧
        (env.tx.contractValue = 0 ∨ Authorised env w env.tx.account a root)) := by
  have hunchanged : Untouched sle w a := ⟨sle, hsle, rfl, rfl, rfl⟩
  have hfunded : (subBalance env w env.tx.account (Executive.gasCost env) false).1 = tesSUCCESS ↔ _ :=
    subBalance_success hsender (by simp)
  have hmore : Funded env root (Executive.gasCost env + env.tx.contractValue) → Funded env root (Executive.gasCost env) := by
    rw [Funded, Funded]
    omega
  rcases hsub : subBalance env w env.tx.account (Executive.gasCost env) false with ⟨ter, w₁⟩
  rw [hsub] at hfunded
  rw [doApply, Executive.execute, hsub]
  dsimp only
  rcases subBalance_cases hsub with ⟨hnone, -, -⟩ | ⟨hter, rfl⟩ | ⟨root', hroot', hle, rfl, hw₁⟩
  · rw [hnone] at hsender
    cases hsender
  · rw [if_pos hter]
    refine iff_of_true ?_ fun h => hter (hfunded.mpr (hmore h.2.1))
    rintro _ ⟨⟩
    exact ⟨hter, hunchanged⟩
  obtain rfl : root = root' := Option.some.inj (hsender.symm.trans hroot')
  have hsle₁ : getSle w₁ a = some sle := by rw [hw₁, getSle_update_ne hne, hsle]
  have hcan := canPay_charged (w := w) env.tx.contractValue_lt hne (Int.ofNat_le.mp hle)
  rw [show update w env.tx.account (charged env root) = w₁ from hw₁.symm] at hcan
  rw [if_neg (not_not.mpr rfl)]
  by_cases hgas : Executive.frameGas env < 0
  · rw [if_pos hgas]
    refine iff_of_true ?_ fun h => absurd h.1 (by omega)
    rintro _ ⟨⟩
    exact ⟨(by decide : tefGAS_INSUFFICIENT ≠ tesSUCCESS), sle, hsle₁, rfl, rfl, rfl⟩
  rw [if_neg hgas, if_pos hcreation, Executive.createOpcode, if_pos rfl, ha]
  dsimp only
  generalize hcreate : Executive.executeCreate env w₁ _ a _ _ _ _ _ _ = created
  obtain ⟨w', e⟩ := created
  dsimp only
  refine (creation_at_account hsle₁ hcreate (fun hext => ?_) fun inner hext => ?_).trans
    (not_congr ⟨fun hpay => ?_, fun h => ?_⟩)
  · rw [hext]
    exact ⟨_, rfl, Iff.rfl⟩
  · rw [hext]
    exact ⟨_, rfl, fun w e hexcepted => ⟨_, rfl, fun hq => hq.1 hexcepted⟩⟩
  · refine ⟨by omega, ?_, (hcan.mp hpay).imp_right And.left⟩
    rcases hcan.mp hpay with hzero | ⟨-, hboth⟩
    · rw [hzero, Int.natCast_zero, Int.add_zero]
      exact hfunded.mp rfl
    · exact hboth
  · exact hcan.mpr (h.2.2.imp_right fun hauth => ⟨hauth, h.2.1⟩)

/-- The nested `CREATE` takes an address that no account has. At the address of an account, `CREATE2` and the creation
of a transaction are refused and leave the account as it is, whatever the init code does, only if the endowment,
or the gas, cannot be paid. -/
theorem creation_refused_iff (env : Env σ) (w : World σ) :
    (∀ depth sender endowment gasPrice gas code origin w' e, depth ≠ 1 →
      Executive.createOpcode env w depth sender endowment gasPrice gas code origin = .ok (w', e) →
      getSle w e.newAddress = none) ∧
    (∀ ext sub msg a sle, msg.kind ≠ .EVMC_CREATE →
      Executive.create2Address env ext.myAddress msg.inputData msg.create2Salt = a → getSle w a = some sle →
      (Whatever (EvmCHost.create env ext w sub msg)
          (fun r => r.2.2.statusCode ≠ .EVMC_SUCCESS ∧ Untouched sle r.1 a) ↔
        ¬CanPay env w ext.myAddress a msg.value)) ∧
    ∀ a sle root, env.tx.contractOpType = .ContractCreation →
      env.calcNewAddress env.tx.account env.tx.sequence = a → a ≠ env.tx.account → getSle w a = some sle →
      getSle w env.tx.account = some root →
      (Whatever (doApply env w) (fun r => r.1 ≠ tesSUCCESS ∧ Untouched sle r.2 a) ↔
        ¬(0 ≤ Executive.frameGas env ∧ Funded env root (Executive.gasCost env + env.tx.contractValue) ∧
          (env.tx.contractValue = 0 ∨ Authorised env w env.tx.account a root))) := by
  refine ⟨fun depth sender endowment gasPrice gas code origin w' e hdepth h => ?_,
    fun ext sub msg a sle hkind ha hsle => create2_refused_iff hkind ha hsle,
    fun a sle root hcreation ha hne hsle hsender => tx_creation_refused_iff hcreation ha hsle hsender hne⟩
  obtain ⟨newAddress, hfree, hcreate⟩ := createOpcode_ok h
  rw [Executive.executeCreate] at hcreate
  dsimp only at hcreate
  split_ifs at hcreate <;> cases hcreate <;> exact hfree hdepth

/-- Contract 100 and, at the address of its next creation, a contract whose code is one `INVALID`. -/
def takenLedger : World Unit := ledgerOf [(100, plainRoot 5 (some [])), (0, plainRoot 9 (some [0xfe]))]

def creates (value : Word) : Frames Unit (Except Crash (World Unit × SubState × EvmcResult)) :=
  EvmCHost.create plainCall ⟨100, 7, 7, 0, 1, [], [], 1, false, false⟩ takenLedger .start
    ⟨.EVMC_CREATE2, false, 5000, 0, 100, [0x00], value, 0⟩

theorem creation_refused_unfunded :
    Whatever (creates 6) fun r => r.2.2.statusCode ≠ .EVMC_SUCCESS ∧ Untouched (plainRoot 9 (some [0xfe])) r.1 0 := by
  refine ((creation_refused_iff plainCall takenLedger).2.1 _ _ _ 0 _ (by decide) rfl rfl).mpr ?_
  rintro (hzero | ⟨root, hroot, -, hfunded⟩)
  · cases hzero
  · obtain rfl : plainRoot 5 (some []) = root := Option.some.inj hroot
    exact absurd (show (6 : Int) + 0 ≤ 5 from hfunded) (by decide)

def codeAfter : Except Crash (World Unit × SubState × EvmcResult) → Option (StatusCode × Option Bytes)
  | .ok (w, _, result) => (getSle w 0).map fun sle => (result.statusCode, sle.contractCode)
  | .error _ => none

/-- The creation goes ahead, and the code of the account is gone. -/
theorem creation_overwrites :
    (getSle takenLedger 0).map AccountRoot.contractCode = some (some [0xfe]) ∧
      Gives (Config.step plainCall) ((creates 0).map codeAfter) (some (.EVMC_SUCCESS, some [])) :=
  ⟨by decide, 20, by decide +kernel⟩

end Chainsql.Evm
