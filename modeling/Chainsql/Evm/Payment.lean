import Chainsql.Evm.Gas
import Mathlib.Tactic.Ring

/-!
# What a transaction moves and what it pays

The drops that an inner call or creation moves for a word on its stack, and the gas that the sender of a
transaction pays for.
-/

namespace Chainsql.Evm

open Nested

variable {σ : Type} {env : Env σ} {ext : Ext} {w w' : World σ} {op : Instruction} {vm vm' : VM}

/-! ## Values -/

def valueSlot (op : Instruction) : Nat := if hasValueArg op then 2 else 0

/-- The value that the host transfers for a call or creation. -/
def dropsMoved (env : Env σ) (ext : Ext) (op : Instruction) (vm : VM) : Word :=
  if hasValueArg op then (EvmCHost.callParameters ext (callMessage env ext op vm)).valueTransfer
  else (createMessage ext op vm).value

/-- The drops of the value of an Ethereum transaction, from `STETx::makeWithDecoded`. -/
def dropsOfWei (value : Word) : Word := value / 10 ^ 12

theorem toNat_dropsOfWei (v : Word) : (dropsOfWei v).toNat = v.toNat / 10 ^ 12 := BitVec.toNat_udiv

theorem dropsMoved_call (heth : env.tx.ethTx = true) (hop : op = .CALL ∨ op = .CALLCODE) :
    dropsMoved env ext op vm = if 10 ^ 12 < vm.SP (valueSlot op) then dropsOfWei (vm.SP (valueSlot op))
      else vm.SP (valueSlot op) := by
  rcases hop with rfl | rfl <;>
    simp [dropsMoved, valueSlot, hasValueArg, EvmCHost.callParameters, callMessage, heth, dropsOfWei]

/-- Only calls are scaled, and only above the factor: what is moved is monotone and within the scaled value
for values that are scaled, and for those that are small enough without. -/
theorem moved_monotone_iff (heth : env.tx.ethTx = true) (hop : op = .CALL ∨ op = .CALLCODE ∨ op = .CREATE)
    (hle : vm.SP (valueSlot op) ≤ vm'.SP (valueSlot op)) :
    dropsMoved env ext op vm ≤ dropsMoved env ext op vm' ∧
        dropsMoved env ext op vm ≤ dropsOfWei (vm'.SP (valueSlot op)) ↔
      vm.SP (valueSlot op) ≤ dropsOfWei (vm'.SP (valueSlot op)) ∨
        op ≠ .CREATE ∧ 10 ^ 12 < vm.SP (valueSlot op) := by
  have hfactor : (10 ^ 12 : Word).toNat = 10 ^ 12 := by decide
  rcases or_assoc.mpr hop with hcall | rfl
  · have hne : op ≠ .CREATE := by rcases hcall with rfl | rfl <;> decide
    rw [dropsMoved_call heth hcall, dropsMoved_call heth hcall]
    simp only [BitVec.le_def, BitVec.lt_def, hfactor] at hle ⊢
    split_ifs <;> simp only [toNat_dropsOfWei, hne, ne_eq, not_false_eq_true, true_and] <;> omega
  · have hmoved : ∀ vm : VM, dropsMoved env ext .CREATE vm = vm.SP (valueSlot .CREATE) := fun _ => rfl
    simp only [hmoved, hle, true_and, ne_eq, not_true_eq_false, false_and, or_false]

def ethCall : Env Unit := bareEnv { callOf [] 100000 with ethTx := true }

def stackWith (v : Word) : VM := { VM.start 0 with sp := [0, 101, v] }

def contractFrame : Ext where
  myAddress := 100
  caller := 7
  origin := 7
  value := 0
  gasPrice := 1
  data := []
  code := []
  depth := 1
  isCreate := false
  staticCall := false

theorem moved_monotone_scaled : ethCall.tx.ethTx = true ∧
    dropsMoved ethCall contractFrame .CALL (stackWith 3000000000000) ≤
      dropsMoved ethCall contractFrame .CALL (stackWith 5000000000000) ∧
    dropsMoved ethCall contractFrame .CALL (stackWith 3000000000000) ≤ dropsOfWei 5000000000000 :=
  ⟨rfl, (moved_monotone_iff rfl (.inl rfl) (by decide)).mpr (.inr ⟨by decide, by decide⟩)⟩

/-- One wei more than the factor moves one drop, and the factor itself as many drops as it has wei. A creation
is never scaled. -/
theorem wei_moved_as_drops :
    dropsMoved ethCall contractFrame .CALL (stackWith 1000000000001) = 1 ∧
      dropsMoved ethCall contractFrame .CALL (stackWith 1000000000000) = 1000000000000 ∧
      dropsOfWei 1000000000001 = 1 ∧
      dropsMoved ethCall contractFrame .CREATE { VM.start 0 with sp := [5000000000000] } = 5000000000000 := by
  decide

/-! ## Gas -/

namespace Executive

/-- Code is run: that of a creation or that of a contract. -/
def runsCode (env : Env σ) (w : World σ) : Bool :=
  if env.tx.contractOpType = .ContractCreation then env.tx.contractData ≠ []
  else !isPrecompiledOrigin env.tx.contractAddress && !isPrecompiledDiy env.tx.contractAddress &&
    SleOps.addressHasCode w env.tx.contractAddress

def precompiledCost (env : Env σ) : Int :=
  if env.tx.contractOpType = .ContractCreation then 0
  else if isPrecompiledOrigin env.tx.contractAddress then
    costOfPrecompiled env env.tx.contractAddress env.tx.contractData
  else if env.tx.contractAddress = TABLE_OPERATION_ADDR then
    toInt64 (env.dropsPerByte * (env.decodeTableCall env.tx.contractData).raw.length)
  else 0

/-- How a transaction is applied: its result, the gas left, the refund, and what `subBalance` takes from the
sender for gas less what `addBalance` gives back. -/
inductive Applied (env : Env σ) (w : World σ) : TER → World σ → Int → Int → Int → Prop
  | unrun {w' e} : execute env w = .ok (w', e) → e.ext = none →
    Applied env w e.excepted w' e.gas 0 (gasCost env)
  | run {w₁ w₂ w' e e' ext sub ter} : execute env w = .ok (w₁, e) → e.ext = some ext →
    Gives (Config.step env) (e.go w₁ ext) (.ok (w₂, sub, e')) →
    e'.finalize env (if env.tx.contractOpType = .ContractCreation then w₂
      else SleOps.updateContractCount env w₂ .CONTRACT_CALL) sub = .ok (ter, w') →
    Applied env w ter w' e'.gas (refunded env e' sub)
      (gasCost env - max 0 (givenBack env e' sub))

variable {ter : TER} {depth : Nat} {e : Executive} {gasPrice : Word} {origin : AccountID} {p : CallParameters}

theorem gives_doApply : Gives (Config.step env) (doApply env w) (.ok (ter, w')) ↔
    ∃ left refund paid, Applied env w ter w' left refund paid := by
  rw [doApply]
  constructor
  · intro h
    split at h
    · cases gives_ret.mp h
    next w₁ e hexecute =>
      split at h
      next hext =>
        cases gives_ret.mp h
        exact ⟨_, _, _, .unrun hexecute hext⟩
      next ext hext =>
        obtain ⟨r, hr, hfinal⟩ := gives_map.mp h
        rcases r with crash | ⟨w₂, sub, e'⟩
        · cases hfinal
        · exact ⟨_, _, _, .run hexecute hext hr hfinal⟩
  · rintro ⟨_, _, _, h⟩
    cases h with
    | unrun hexecute hext => simp [hexecute, hext]
    | run hexecute hext hr hfinal =>
      simp only [hexecute, hext]
      exact gives_map.mpr ⟨_, hr, hfinal⟩

theorem addressHasCode_subBalance {a b : AccountID} {amount : Int} {isContract : Bool}
    (h : SleOps.subBalance env w a amount isContract = (ter, w')) :
    SleOps.addressHasCode w' b = SleOps.addressHasCode w b := by
  rcases SleOps.subBalance_cases h with ⟨-, -, rfl⟩ | ⟨-, rfl⟩ | ⟨sle, hsle, -, -, rfl⟩
  · rfl
  · rfl
  · rw [SleOps.addressHasCode, SleOps.addressHasCode]
    by_cases hb : b = a
    · rw [hb, SleOps.getSle_update_self, hsle]
    · rw [SleOps.getSle_update_ne hb]

/-- What an `Executive` has become once its call or creation is prepared: it has failed, or it has kept what
was not spent on a precompiled contract, or it is to run code. -/
inductive Begun (gas cost : Int) (runs : Bool) (e : Executive) : Prop
  | failed : e.ext = none → e.excepted ≠ tesSUCCESS → Begun gas cost runs e
  | done : e.ext = none → runs = false → e.gas = gas - cost → Begun gas cost runs e
  | running (ext : Ext) : e.ext = some ext → runs = true → e.gas = gas → Begun gas cost runs e

theorem executeCreate_begun {newAddress sender : AccountID} {endowment : Word} {gas : Int} {code : Bytes}
    (h : executeCreate env w depth newAddress sender endowment gasPrice gas code origin = (w', e)) :
    Begun gas 0 (code ≠ []) e := by
  rw [executeCreate] at h
  dsimp only at h
  split_ifs at h with hret hcode
  · cases h
    exact .failed rfl hret
  · cases h
    exact .done rfl (by simp [hcode]) (Int.sub_zero gas).symm
  · cases h
    exact .running _ rfl (by simp [hcode]) rfl

theorem transferValue_begun {e' : Executive} {runs : Bool} (h : transferValue env w p e = (w', e'))
    (he : Begun p.gas 0 runs e) : Begun p.gas 0 runs e' := by
  rcases transferValue_cases h with ⟨-, -, rfl⟩ | ⟨-, ret, -, ⟨-, rfl⟩ | ⟨hret, rfl⟩⟩
  · exact he
  · exact he
  · exact .failed rfl hret

theorem callContract_begun (h : callContract env w depth p gasPrice origin = (w', e)) :
    Begun p.gas 0 (SleOps.addressHasCode w p.codeAddress) e := by
  rw [callContract] at h
  dsimp only at h
  split_ifs at h with hcode hempty hoff
  · cases h
    exact .failed rfl (by decide : tefCONTRACT_NOT_EXIST ≠ tesSUCCESS)
  · exact transferValue_begun h (.running _ rfl hcode rfl)
  · cases h
    exact .failed rfl (by decide : tefCONTRACT_NOT_EXIST ≠ tesSUCCESS)
  · exact transferValue_begun h (.done rfl (Bool.eq_false_iff.mpr hcode) (Int.sub_zero _).symm)

theorem callPrecompiled_begun (h : callPrecompiled env depth p = .ok e) :
    Begun p.gas (costOfPrecompiled env p.codeAddress p.data) false e := by
  rw [callPrecompiled] at h
  split_ifs at h
  · cases h
    exact .failed rfl (by decide : tefGAS_INSUFFICIENT ≠ tesSUCCESS)
  · split at h
    · cases h
    · split_ifs at h
      · cases h
        exact .done rfl rfl rfl
      · cases h
        exact .failed rfl (by decide : tefGAS_INSUFFICIENT ≠ tesSUCCESS)

theorem callPreDiy_begun (h : callPreDiy env w depth p origin = .ok (w', e)) :
    Begun p.gas (if p.codeAddress = TABLE_OPERATION_ADDR then
      toInt64 (env.dropsPerByte * (env.decodeTableCall p.data).raw.length) else 0) false e := by
  obtain ⟨ret, hret, h⟩ := Except.bind_eq_ok.mp h
  have hcost : ret.ter = tesSUCCESS → ret.cost = if p.codeAddress = TABLE_OPERATION_ADDR then
      toInt64 (env.dropsPerByte * (env.decodeTableCall p.data).raw.length) else 0 := by
    rw [executePreDiy] at hret
    split at hret
    · cases hret
    · cases hret
      dsimp only
      split_ifs with htable
      · exact fun h => absurd h (by decide)
      · exact fun _ => rfl
    · split_ifs at hret with htable
      · cases hret
        rw [if_pos htable]
        exact fun _ => rfl
      · rw [if_neg htable]
        split at hret
        · cases hret
        · cases hret
          exact fun _ => rfl
  split_ifs at h with hter
  · cases h
    exact .failed rfl hter
  · cases h
    rw [← hcost (not_not.mp hter)]
    exact .done rfl rfl rfl

theorem execute_begun (h : execute env w = .ok (w', e)) :
    Begun (frameGas env) (precompiledCost env) (runsCode env w) e ∧
      (frameGas env < 0 → e.ext = none ∧ e.excepted ≠ tesSUCCESS) := by
  rw [execute] at h
  dsimp only at h
  rcases hsub : SleOps.subBalance env w env.tx.account (gasCost env) false with ⟨ter, w₁⟩
  rw [hsub] at h
  have hcode := addressHasCode_subBalance (b := env.tx.contractAddress) hsub
  rw [runsCode, precompiledCost]
  split_ifs at h with hter hgas hcreate
  · cases h
    exact ⟨.failed rfl hter, fun _ => ⟨rfl, hter⟩⟩
  · cases h
    exact ⟨.failed rfl (by decide), fun _ => ⟨rfl, by decide⟩⟩
  · refine ⟨?_, fun hneg => absurd hneg hgas⟩
    rw [if_pos hcreate, if_pos hcreate]
    exact executeCreate_begun (Except.ok.inj h)
  · refine ⟨?_, fun hneg => absurd hneg hgas⟩
    rw [if_neg hcreate, if_neg hcreate, ← hcode]
    rw [call] at h
    split_ifs at h with horigin hdiy
    · obtain ⟨e', he', h⟩ := Except.bind_eq_ok.mp h
      cases h
      simp only [show isPrecompiledOrigin env.tx.contractAddress = true from horigin, Bool.not_true, Bool.false_and,
        if_true]
      exact callPrecompiled_begun he'
    · simp only [show isPrecompiledOrigin env.tx.contractAddress = false from Bool.eq_false_iff.mpr horigin,
        show isPrecompiledDiy env.tx.contractAddress = true from hdiy, Bool.not_true, Bool.and_false, Bool.false_and,
        Bool.false_eq_true, if_false]
      exact callPreDiy_begun h
    · have htable : env.tx.contractAddress ≠ TABLE_OPERATION_ADDR := by
        intro htable
        exact hdiy (by rw [isPrecompiledDiy]; exact decide_eq_true (.inl htable))
      simp only [show isPrecompiledOrigin env.tx.contractAddress = false from Bool.eq_false_iff.mpr horigin,
        show isPrecompiledDiy env.tx.contractAddress = false from Bool.eq_false_iff.mpr hdiy, Bool.not_false,
        Bool.true_and, Bool.false_eq_true, if_false, if_neg htable]
      exact callContract_begun (Except.ok.inj h)

theorem gasCost_eq (hgas : 0 ≤ frameGas env) (hprice : 0 < env.gasPrice)
    (hexact : env.tx.gas.toNat * env.gasPrice ≤ 2 ^ 53) :
    (gasCost env : Int) = env.tx.gas.toNat * env.gasPrice := by
  have hbase := le_baseGasRequired (env.tx.contractOpType = .ContractCreation) env.tx.contractData
  rw [frameGas] at hgas
  have hpos : 0 < env.tx.gas.toNat * env.gasPrice := Nat.mul_pos (by omega) hprice
  rw [gasCost, Double.round_of_le hexact, Nat.max_eq_right hpos, Nat.cast_mul]

def plainLedger : World Unit := ledgerOf [(7, plainRoot 1000000 none), (100, plainRoot 0 none)]

end Executive

end Chainsql.Evm
