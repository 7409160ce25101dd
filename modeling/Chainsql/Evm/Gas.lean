import Chainsql.Evm.Keeps
import Mathlib.Tactic.Positivity

/-!
# Gas

No instruction gives a frame more gas than it had, and no frame returns more than it was given, as long
as the precompiled contracts that are called cost neither less than nothing nor more than they are
given.
-/

namespace Chainsql.Evm

open Exec Executive

variable {σ : Type} {env : Env σ} {ext : Ext} {w : World σ} {op : Instruction} {vm : VM}

namespace Exec

variable {s t : VM} {n m : Nat}

theorem updateMem_ok (h : (updateMem n).run s = .ok ((), t)) (hrun : s.runGas < 2 ^ 63)
    (hcopy : s.copyMemSize = 0) : t.ioGas = s.ioGas ∧ s.runGas ≤ t.runGas := by
  obtain ⟨_, s₁, hset, h₁⟩ := run_bind_ok.mp h
  cases hset
  obtain ⟨_, s₂, hgas, h₂⟩ := run_bind_ok.mp h₁
  cases h₂
  obtain ⟨_, s₃, hget, h₃⟩ := run_bind_ok.mp hgas
  cases hget
  obtain ⟨_, s₄, hmem, h₄⟩ := run_bind_ok.mp h₃
  obtain ⟨_, s₅, hadd, h₅⟩ := run_bind_ok.mp h₄
  cases hadd
  obtain rfl := checkGas_ok h₅
  rcases onlyIf_ok.mp hmem with ⟨-, hmem⟩ | ⟨-, rfl⟩
  · obtain ⟨k, hk, rfl⟩ := addMemGas_ok hmem
    refine ⟨rfl, ?_⟩
    simp only [hcopy, u64]
    omega
  · refine ⟨rfl, ?_⟩
    simp only [hcopy, u64]
    omega

end Exec

variable {s t : VM} {budget : Nat} {action : Action}

theorem meterCall_ok (h : (meterCall w op vm).run s = .ok ((), t)) (hrun : s.runGas = 700) (hcopy : s.copyMemSize = 0) :
    t.ioGas + t.runGas + (if hasValueArg op ∧ vm.SP 2 ≠ 0 then 9000 else 0) ≤ s.ioGas := by
  obtain ⟨_, s₁, hnew, h₁⟩ := run_bind_ok.mp h
  obtain ⟨_, s₂, hvalue, h₂⟩ := run_bind_ok.mp h₁
  obtain ⟨_, s₃, hin, h₃⟩ := run_bind_ok.mp h₂
  obtain ⟨-, -, rfl⟩ := toInt63_ok.mp hin
  obtain ⟨_, s₄, hout, h₄⟩ := run_bind_ok.mp h₃
  obtain ⟨-, -, rfl⟩ := toInt63_ok.mp hout
  obtain ⟨_, s₅, hmem, h₅⟩ := run_bind_ok.mp h₄
  obtain ⟨_, s₆, hio, h₆⟩ := run_bind_ok.mp h₅
  obtain ⟨_, s₇, hget, h₇⟩ := run_bind_ok.mp h₆
  cases hget
  obtain ⟨_, s₈, hpass, h₈⟩ := run_bind_ok.mp h₇
  obtain ⟨hlt, rfl, rfl⟩ := toInt63_ok.mp hpass
  obtain ⟨_, s₉, hset, h₉⟩ := run_bind_ok.mp h₈
  cases hset
  have hfirst : s₁.ioGas = s.ioGas ∧ s₁.copyMemSize = 0 ∧ 700 ≤ s₁.runGas ∧ s₁.runGas ≤ 25700 := by
    rcases onlyIf_ok.mp hnew with ⟨-, hnew⟩ | ⟨-, rfl⟩
    · cases hnew
      simp [hrun, hcopy, u64]
    · simp [hrun, hcopy]
  have hsecond : s₄.ioGas = s.ioGas ∧ s₄.copyMemSize = 0 ∧ s₄.runGas ≤ 34700 ∧
      (if hasValueArg op ∧ vm.SP 2 ≠ 0 then 9000 else 0) ≤ s₄.runGas := by
    rcases onlyIf_ok.mp hvalue with ⟨hv, hvalue⟩ | ⟨hv, rfl⟩
    · cases hvalue
      rw [if_pos hv]
      simp only [u64]
      omega
    · rw [if_neg hv]
      omega
  obtain ⟨hmemGas, hmemRun⟩ := updateMem_ok hmem (by omega) hsecond.2.1
  obtain ⟨hle, rfl⟩ := updateIOGas_ok hio
  obtain ⟨hle', rfl⟩ := updateIOGas_ok h₉
  simp only [u64] at hle' ⊢
  omega

/-- The gas of the frame and the gas that an action passes on come out of `budget`. -/
def Action.GasWithin (budget : Nat) (vm : VM) : Action → Prop
  | .call msg _ _ => 0 ≤ msg.gas ∧ vm.ioGas + msg.gas ≤ budget
  | .create msg => 0 ≤ msg.gas ∧ msg.gas ≤ vm.ioGas ∧ vm.ioGas ≤ budget
  | _ => vm.ioGas ≤ budget

theorem callMessage_gas (env : Env σ) (ext : Ext) (hbudget : budget < 2 ^ 63)
    (h : vm.ioGas + vm.runGas + (if hasValueArg op ∧ vm.SP 2 ≠ 0 then 9000 else 0) ≤ budget) :
    0 ≤ (callMessage env ext op vm).gas ∧ vm.ioGas + (callMessage env ext op vm).gas ≤ budget := by
  have hgas : (callMessage env ext op vm).gas =
      toInt64 (if hasValueArg op ∧ vm.SP 2 ≠ 0 then vm.runGas + 2300 else vm.runGas) := rfl
  rw [hgas]
  split at h
  next hvalue =>
    rw [if_pos hvalue, toInt64_of_lt (by omega)]
    omega
  next hvalue =>
    rw [if_neg hvalue, toInt64_of_lt (by omega)]
    omega

theorem effectCall_gas (hbudget : budget < 2 ^ 63)
    (h : vm.ioGas + vm.runGas + (if hasValueArg op ∧ vm.SP 2 ≠ 0 then 9000 else 0) ≤ budget) :
    (effectCall env ext w op vm).1.GasWithin budget (effectCall env ext w op vm).2 := by
  obtain ⟨hpos, hle⟩ := callMessage_gas env ext hbudget h
  rw [effectCall]
  split
  · exact ⟨hpos, hle⟩
  · have hback : ofInt64 (callMessage env ext op vm).gas = (callMessage env ext op vm).gas.toNat :=
      ofInt64_of_nonneg hpos (by omega)
    have hsum : u64 (vm.ioGas + ofInt64 (callMessage env ext op vm).gas) ≤ budget := by
      rw [u64]
      omega
    split
    · exact hsum
    · exact hsum

theorem effectCreate_gas (hbudget : budget < 2 ^ 63) (h : vm.ioGas ≤ budget) :
    (effectCreate ext w op vm).1.GasWithin budget (effectCreate ext w op vm).2 := by
  rw [effectCreate]
  split
  · have hgas : (createMessage ext op vm).gas = vm.ioGas - (vm.ioGas : Int).tdiv 64 := by
      rw [createMessage, toInt64_of_lt (by omega)]
    have hdiv : (vm.ioGas : Int).tdiv 64 = (vm.ioGas / 64 : Nat) := rfl
    show 0 ≤ (createMessage ext op vm).gas ∧ (createMessage ext op vm).gas ≤ vm.ioGas ∧ vm.ioGas ≤ budget
    omega
  · exact h

theorem Group.Does.gasWithin {g : Group} {vm vm' : VM} (h : g.Does vm vm' action) (hcall : g ≠ .call)
    (hcreate : g ≠ .create) (hle : vm.ioGas ≤ budget) : action.GasWithin budget vm' := by
  cases g
  case call => exact absurd rfl hcall
  case create => exact absurd rfl hcreate
  case plain | invalid =>
    obtain ⟨rfl, hgas, -⟩ := h
    exact hgas.trans_le hle
  case control =>
    obtain ⟨rfl, hgas⟩ := h
    exact hgas.trans_le hle
  case halt =>
    obtain ⟨⟨_, rfl⟩, rfl⟩ := h
    exact hle
  case revert =>
    obtain ⟨⟨_, rfl | rfl⟩, rfl⟩ := h
    · exact hle
    · exact hle
  case store | destroy =>
    obtain ⟨rfl, rfl⟩ := h
    exact hle
  all_goals
    obtain ⟨_, rfl, -, hgas, -⟩ := h
    exact hgas.trans_le hle

theorem meter_call_ok (hop : op.group = .call) (hrun : s.runGas = op.metrics.gasCost) (hcopy : s.copyMemSize = 0)
    (h : (meter env ext w op vm).run s = .ok ((), t)) :
    t.ioGas + t.runGas + (if hasValueArg op ∧ vm.SP 2 ≠ 0 then 9000 else 0) ≤ s.ioGas := by
  cases op
  case CALL =>
    obtain ⟨_, s', hstatic, hcall⟩ := run_bind_ok.mp h
    obtain ⟨-, rfl⟩ := throwIf_ok.mp hstatic
    exact meterCall_ok hcall hrun hcopy
  case CALLCODE | DELEGATECALL | STATICCALL => exact meterCall_ok h hrun hcopy
  all_goals cases hop

theorem interpret_gas (h : (interpretCases env ext w).run s = .ok (action, vm)) (hs : s.ioGas < 2 ^ 63) :
    action.GasWithin s.ioGas vm := by
  obtain ⟨op, vm₁, vm₂, hfetch, hmeter, heffect⟩ := interpret_ok.mp h
  obtain ⟨-, -, hvm₁⟩ := fetch_ok hfetch
  have hgas₁ : vm₁.ioGas = s.ioGas := by rw [hvm₁]
  have hmetered := meter_ok hmeter
  have hgas₂ : vm₂.ioGas ≤ s.ioGas := hgas₁ ▸ hmetered.ioGas_le
  have hdoes : op.group.Does vm₂ (effect env ext w op vm₂).2 (effect env ext w op vm₂).1 := effect_does op vm₂
  by_cases hcall : op.group = .call
  · have hpaid := meter_call_ok hcall (by rw [hvm₁]) (by rw [hvm₁]) hmeter
    have hsp : vm₁.SP 2 = vm₂.SP 2 := by rw [VM.SP, VM.SP, hmetered.sp_eq]
    rw [hgas₁, hsp] at hpaid
    have hwithin : (effectCall env ext w op vm₂).1.GasWithin s.ioGas (effectCall env ext w op vm₂).2 :=
      effectCall_gas hs hpaid
    rwa [← effect_call hcall, heffect] at hwithin
  · by_cases hcreate : op.group = .create
    · have hwithin : (effectCreate ext w op vm₂).1.GasWithin s.ioGas (effectCreate ext w op vm₂).2 :=
        effectCreate_gas hs hgas₂
      rwa [← effect_create hcreate, heffect] at hwithin
    · rw [heffect] at hdoes
      exact hdoes.gasWithin hcall hcreate hgas₂

/-- What a precompiled contract costs is not negative, and the table contract is given what it costs. -/
def FairCall (env : Env σ) (p : CallParameters) : Prop :=
  (p.codeAddress = 5 → 0 ≤ env.modexpCost p.data) ∧
    (p.codeAddress = TABLE_OPERATION_ADDR →
      env.dropsPerByte * (env.decodeTableCall p.data).raw.length ≤ p.gas)

instance (p : CallParameters) : Decidable (FairCall env p) := inferInstanceAs (Decidable (_ ∧ _))

def Fair (env : Env σ) (c : Config σ) : Prop := ∀ p ∈ c.nextCall env, FairCall env p

instance (c : Config σ) : Decidable (Fair env c) :=
  inferInstanceAs (Decidable (∀ p ∈ c.nextCall env, FairCall env p))

theorem costOfPrecompiled_nonneg {a : AccountID} {data : Bytes} (h : a = 5 → 0 ≤ env.modexpCost data) :
    0 ≤ costOfPrecompiled env a data := by
  have linear : ∀ base word, 0 ≤ linearPricer base word data := by
    intro base word
    rw [linearPricer]
    positivity
  rw [costOfPrecompiled]
  split_ifs with h1 h2 h3 h4 h5 h6 h7 h8
  · positivity
  · exact linear _ _
  · exact linear _ _
  · exact linear _ _
  · exact h h5
  · positivity
  · positivity
  · positivity
  · exact linear _ _

/-- The gas that is left after `VMC::exec`. An exception of the interpreter leaves none. -/
def VmcResult.gas : VmcResult → Int
  | .returns gas _ | .RevertInstruction gas _ | .RevertDiyInstruction gas _ => gas
  | .throws _ | .InternalVMError => 0

theorem VMC.exec_gas (r : Halt) : (VMC.exec r).gas = r.gasLeft ∨ (VMC.exec r).gas = 0 := by
  rw [VMC.exec]
  split <;> simp [VmcResult.gas]

namespace Executive

variable {e e' : Executive} {p : CallParameters} {depth : Nat} {gasPrice : Word} {origin : AccountID}
  {w' : World σ}

theorem transferValue_gas (h : transferValue env w p e = (w', e')) : e'.gas = e.gas := by
  rcases transferValue_cases h with ⟨-, -, rfl⟩ | ⟨-, _, -, ⟨-, rfl⟩ | ⟨-, rfl⟩⟩
  · rfl
  · rfl
  · rfl

theorem callPrecompiled_gas (h : callPrecompiled env depth p = .ok e) (h0 : 0 ≤ p.gas)
    (hfair : FairCall env p) : 0 ≤ e.gas ∧ e.gas ≤ p.gas := by
  have hcost := costOfPrecompiled_nonneg hfair.1
  rw [callPrecompiled] at h
  split_ifs at h with hgas
  · cases h
    exact ⟨le_refl _, h0⟩
  · split at h
    · cases h
    · split_ifs at h
      · cases h
        show 0 ≤ p.gas - costOfPrecompiled env p.codeAddress p.data ∧
          p.gas - costOfPrecompiled env p.codeAddress p.data ≤ p.gas
        omega
      · cases h
        exact ⟨le_refl _, h0⟩

theorem executePreDiy_cost {ret : PreDiyResult σ}
    (h : executePreDiy env w p.codeAddress p.data p.senderAddress origin = .ok ret) (h0 : 0 ≤ p.gas)
    (h63 : p.gas < 2 ^ 63) (hfair : FairCall env p) : 0 ≤ ret.cost ∧ ret.cost ≤ p.gas := by
  rw [executePreDiy] at h
  split at h
  · cases h
  · cases h
    exact ⟨le_refl _, h0⟩
  · split_ifs at h with htable
    · cases h
      have hle := hfair.2 htable
      rw [TableOpPrecompiled.execute]
      dsimp only
      rw [toInt64_of_lt (by omega)]
      omega
    · split at h
      · cases h
      · cases h
        exact ⟨le_refl _, h0⟩

theorem call_gas (h : call env w depth p gasPrice origin = .ok (w', e)) (h0 : 0 ≤ p.gas)
    (h63 : p.gas < 2 ^ 63) (hfair : FairCall env p) : 0 ≤ e.gas ∧ e.gas ≤ p.gas := by
  rcases call_cases h with ⟨hpre, -⟩ | ⟨ret, hpre, -, rfl⟩ | hcall
  · exact callPrecompiled_gas hpre h0 hfair
  · have hcost := executePreDiy_cost hpre h0 h63 hfair
    have hle : 0 ≤ p.gas - ret.cost ∧ p.gas - ret.cost ≤ p.gas := by omega
    split
    · exact hle
    · exact hle
  · obtain ⟨w₁, e₁, -, -, hgas, ⟨-, rfl, -⟩ | htransfer⟩ := callContract_cases hcall
    · omega
    · have := transferValue_gas htransfer
      omega

theorem executeCreate_gas {newAddress sender : AccountID} {endowment : Word} {gas : Int} {code : Bytes}
    (h : executeCreate env w depth newAddress sender endowment gasPrice gas code origin = (w', e)) :
    e.gas = gas := by
  rw [executeCreate] at h
  dsimp only at h
  split_ifs at h <;> cases h <;> rfl

theorem catchResult_gas {result : VmcResult} (h : e.catchResult result = .ok e') : e'.gas = result.gas := by
  cases result with
  | returns gas output | RevertDiyInstruction gas output | throws exception =>
    cases h
    rfl
  | RevertInstruction gas output =>
    rw [catchResult] at h
    split_ifs at h
    · split at h
      · cases h
      · cases h
        rfl
    · cases h
      rfl
  | InternalVMError => cases h

theorem goEnd_gas {ended : Ended σ} {sub : SubState} (h : e.goEnd ext ended = .ok (w, sub, e'))
    (h0 : 0 ≤ ended.halt.gasLeft) (h63 : ended.halt.gasLeft < 2 ^ 63) :
    0 ≤ e'.gas ∧ e'.gas ≤ ended.halt.gasLeft := by
  obtain ⟨-, ⟨gas, out, -, hexec, hdeposit⟩ | ⟨-, hcatch⟩⟩ := goEnd_ok h
  · have hgas : gas = (VMC.exec ended.halt).gas := by rw [hexec, VmcResult.gas]
    have hleft := VMC.exec_gas ended.halt
    rw [depositCode] at hdeposit
    split_ifs at hdeposit with hle
    · cases hdeposit
      rw [ofInt64_of_nonneg (by omega) (by omega)] at hle
      dsimp only
      omega
    · cases hdeposit
      exact ⟨le_refl _, h0⟩
  · have hgas := catchResult_gas hcatch
    have hleft := VMC.exec_gas ended.halt
    omega

end Executive

/-- The gas that a frame ends with comes out of what it has. -/
def Config.GasKept (c : Config σ) (ended : Ended σ) : Prop :=
  0 ≤ ended.halt.gasLeft ∧ ended.halt.gasLeft ≤ c.vm.ioGas

theorem runFrame_gas (w : World σ) (sub : SubState) {e : Executive} (h0 : 0 ≤ e.gas) (h63 : e.gas < 2 ^ 63) :
    (runFrame w sub e).wp (fun c => c.vm.ioGas < 2 ^ 63) (fun c => OnOk c.GasKept)
      (OnOk fun (_, _, e') => 0 ≤ e'.gas ∧ e'.gas ≤ e.gas) := by
  have hstart : ofInt64 e.gas = e.gas.toNat := ofInt64_of_nonneg h0 (by omega)
  refine runFrame_wp (fun _ => OnOk.ok.mpr ⟨h0, le_refl _⟩) fun inner _ => ⟨?_, fun r hr => ?_⟩
  · show ofInt64 e.gas < 2 ^ 63
    omega
  · refine OnOk.map (OnOk.bind (hr.imp fun ended hkept => ?_))
    rintro ⟨w', sub', e'⟩ hend
    have hle : ended.halt.gasLeft ≤ (ofInt64 e.gas : Nat) := hkept.2
    have := goEnd_gas hend hkept.1 (by omega)
    omega

theorem resumeCall_gas (outOffset outSize : Nat) {e : Executive} {gas : Int} (h : 0 ≤ e.gas ∧ e.gas ≤ gas)
    (hle : vm.ioGas + gas ≤ budget) (hbudget : budget < 2 ^ 63) :
    (vm.resumeCall outOffset outSize (EvmCHost.callResult e)).ioGas ≤ budget := by
  show u64 (vm.ioGas + ofInt64 e.gas) ≤ budget
  rw [ofInt64_of_nonneg h.1 (by omega), u64]
  omega

theorem resumeCreate_gas {e : Executive} {msg : Message} (h : 0 ≤ e.gas ∧ e.gas ≤ msg.gas)
    (hle : msg.gas ≤ vm.ioGas) (hvm : vm.ioGas < 2 ^ 63) :
    (vm.resumeCreate msg (EvmCHost.createResult e)).ioGas ≤ vm.ioGas := by
  show ofInt64 (vm.ioGas - (msg.gas - e.gas)) ≤ vm.ioGas
  rw [ofInt64_of_nonneg (by omega) (by omega)]
  omega

theorem resume_gas (reply : Reply) : (vm.resume reply).ioGas = vm.ioGas := by
  cases reply <;> rfl

variable {c : Config σ}

theorem throw_gas (fault : Fault) :
    (Sum.elim (fun c' => c'.vm.ioGas ≤ c.vm.ioGas) (OnOk c.GasKept) : Config σ ⊕ Outcome σ → Prop)
      (c.throw fault) := by
  rw [Config.throw]
  split
  · exact OnOk.error
  · exact OnOk.ok.mpr ⟨le_refl _, Int.natCast_nonneg _⟩

theorem setStorage_gas {key value : Word} (hle : vm.ioGas ≤ c.vm.ioGas) :
    (Sum.elim (fun c' => c'.vm.ioGas ≤ c.vm.ioGas) (OnOk c.GasKept) : Config σ ⊕ Outcome σ → Prop)
      (c.setStorage env vm key value) := by
  rw [Config.setStorage]
  split
  · exact OnOk.error
  next world sub _ =>
    split
    next fault _ => exact throw_gas (c := { c with world, sub }) fault
    next hcharge =>
      obtain ⟨_, _, hset, hio⟩ := run_bind_ok.mp hcharge
      cases hset
      obtain ⟨-, rfl⟩ := updateIOGas_ok hio
      exact (Nat.sub_le _ _).trans hle

theorem step_gas (hfair : Fair env c) (hc : c.vm.ioGas < 2 ^ 63) :
    (c.step env).wp (fun c => c.vm.ioGas < 2 ^ 63) (fun c => OnOk c.GasKept)
      (Sum.elim (fun c' => c'.vm.ioGas ≤ c.vm.ioGas) (OnOk c.GasKept)) := by
  refine step_wp (fun fault _ => throw_gas fault) fun action vm hrun => ?_
  have hgas := interpret_gas hrun hc
  have ends : vm.ioGas ≤ c.vm.ioGas → 0 ≤ toInt64 vm.ioGas ∧ toInt64 vm.ioGas ≤ c.vm.ioGas := by
    intro hle
    rw [toInt64_of_lt (by omega)]
    omega
  cases action with
  | next | jump => exact hgas
  | halt output | revert output | revertDiy output => exact OnOk.ok.mpr (ends hgas)
  | selfdestruct beneficiary =>
    show Sum.elim _ _ (c.selfdestruct vm beneficiary)
    rw [Config.selfdestruct]
    split
    · exact OnOk.error
    · exact OnOk.ok.mpr (ends hgas)
  | setStorage key value => exact setStorage_gas hgas
  | host call =>
    show Sum.elim _ _ (c.host env vm call)
    rw [Config.host]
    split
    · exact OnOk.error
    next reply world _ => exact (resume_gas reply).trans_le hgas
  | call msg outOffset outSize =>
    obtain ⟨h0, hle⟩ := hgas
    refine act_call_wp (fun _ => OnOk.error) fun w e he => ?_
    have hp : (EvmCHost.callParameters c.ext msg).gas = msg.gas := rfl
    have hcall := call_gas he h0 (by omega) (hfair _ (Config.nextCall_eq hrun))
    refine (runFrame_gas w c.sub hcall.1 (by omega)).imp (fun _ h => h) fun r hr => hr.imp ?_
    rintro ⟨w', sub, e'⟩ ⟨hpos, hle'⟩
    exact resumeCall_gas outOffset outSize ⟨hpos, hle'.trans hcall.2⟩ hle hc
  | create msg =>
    obtain ⟨h0, hle, hvm⟩ := hgas
    refine act_create_wp (fun _ => OnOk.error) fun newAddress w e _ he => ?_
    have hcreate := executeCreate_gas he
    refine (runFrame_gas w c.sub (by omega) (by omega)).imp (fun _ h => h) fun r hr => hr.imp ?_
    rintro ⟨w', sub, e'⟩ ⟨hpos, hle'⟩
    exact (resumeCreate_gas ⟨hpos, hcreate ▸ hle'⟩ hle (by omega)).trans hvm

theorem step_gas_run (c : Config σ) (hfair : Fair env c) (hc : c.vm.ioGas < 2 ^ 63) :
    (c.step env).wp (fun c => c.vm.ioGas < 2 ^ 63) (fun c => OnOk c.GasKept)
      (Sum.elim (fun c' => c'.vm.ioGas < 2 ^ 63 ∧ ∀ r : Outcome σ, OnOk c'.GasKept r → OnOk c.GasKept r)
        (OnOk c.GasKept)) := by
  refine (step_gas hfair hc).imp (fun _ h => h) fun a ha => ?_
  rcases a with c' | r
  · have hle : c'.vm.ioGas ≤ c.vm.ioGas := ha
    refine ⟨by omega, fun r hr => hr.imp fun ended hkept => ⟨hkept.1, ?_⟩⟩
    exact hkept.2.trans (Int.ofNat_le.mpr hle)
  · exact ha

/-- An `Executive` that was given `gas`, after its `call` or `create`. The outermost one is given `sfGas`. -/
inductive Prepared (env : Env σ) : Int → World σ → Executive → Prop
  | call {w depth p gasPrice origin w' e} : FairCall env p →
    Executive.call env w depth p gasPrice origin = .ok (w', e) → Prepared env p.gas w' e
  | create {w depth sender endowment gasPrice gas code origin w' e} :
    Executive.createOpcode env w depth sender endowment gasPrice gas code origin = .ok (w', e) →
      Prepared env gas w' e
  | create2 {w depth sender endowment gasPrice gas code origin salt w' e} :
    Executive.create2Opcode env w depth sender endowment gasPrice gas code origin salt = (w', e) →
      Prepared env gas w' e
  | execute {w w' e} :
    (env.tx.contractOpType ≠ .ContractCreation → FairCall env (Executive.txParameters env)) →
      Executive.execute env w = .ok (w', e) → Prepared env env.tx.gas.toNat w' e

theorem le_baseGasRequired (isCreation : Bool) (data : Bytes) :
    21000 ≤ Executive.baseGasRequired isCreation data := by
  have grows : ∀ (data : Bytes) (base : Int), 21000 ≤ base →
      21000 ≤ data.foldl (fun gas b => gas + if b ≠ 0 then 16 else 4) base := by
    intro data
    induction data with
    | nil => exact fun _ h => h
    | cons b data ih =>
      intro base h
      refine ih _ ?_
      dsimp only
      split <;> omega
  exact grows data _ (by split <;> omega)

theorem execute_gas {e : Executive} {w' : World σ}
    (hfair : env.tx.contractOpType ≠ .ContractCreation → FairCall env (Executive.txParameters env))
    (h : Executive.execute env w = .ok (w', e)) : 0 ≤ e.gas ∧ e.gas ≤ env.tx.gas.toNat := by
  have hbase := le_baseGasRequired (env.tx.contractOpType = .ContractCreation) env.tx.contractData
  have hframe : frameGas env = env.tx.gas.toNat - baseGasRequired
      (env.tx.contractOpType = .ContractCreation) env.tx.contractData := rfl
  have hlt := env.tx.gas.toNat_lt
  rw [execute] at h
  dsimp only at h
  split_ifs at h with hter hgas hcreate
  · cases h
    exact ⟨le_refl _, Int.natCast_nonneg _⟩
  · cases h
    exact ⟨le_refl _, Int.natCast_nonneg _⟩
  · obtain ⟨_, -, h⟩ := createOpcode_ok h
    have := executeCreate_gas h
    omega
  · have hp : (txParameters env).gas = frameGas env := rfl
    have := call_gas h (by omega) (by omega) (hfair hcreate)
    omega

/-- The gas that the sender gets back is within the limit, so that it is a double. -/
theorem givenBack_eq {e : Executive} (sub : SubState) (h0 : 0 ≤ e.gas) (hle : e.gas ≤ env.tx.gas.toNat) :
    ∃ n ≤ env.tx.gas.toNat, e.gas + Executive.refunded env e sub = n ∧
      Executive.givenBack env e sub = Double.round (n * env.gasPrice) := by
  have hlt := env.tx.gas.toNat_lt
  have hhalf : ((env.tx.gas.toNat : Int) - e.gas).tdiv 2 = (env.tx.gas.toNat - e.gas) / 2 :=
    Int.tdiv_eq_ediv_of_nonneg (by omega)
  have hbounds : 0 ≤ e.gas + refunded env e sub ∧ e.gas + refunded env e sub ≤ env.tx.gas.toNat := by
    rw [refunded, ofInt64_of_nonneg (by omega) (by omega)]
    split <;> omega
  obtain ⟨n, hn⟩ := Int.eq_ofNat_of_zero_le hbounds.1
  exact ⟨n, by omega, hn, by rw [givenBack, hn, Double.mul_of_le (by omega)]⟩

theorem Prepared.gas_bounds {gas : Int} {e : Executive} (h : Prepared env gas w e) (h0 : 0 ≤ gas)
    (h63 : gas < 2 ^ 63) : 0 ≤ e.gas ∧ e.gas ≤ gas := by
  cases h with
  | call hfair hcall => exact call_gas hcall h0 h63 hfair
  | create hcreate =>
    obtain ⟨_, -, hcreate⟩ := createOpcode_ok hcreate
    have := executeCreate_gas hcreate
    omega
  | create2 hcreate =>
    have := executeCreate_gas hcreate
    omega
  | execute hfair hexecute => exact execute_gas hfair hexecute

open Nested

theorem returns_gas {r : Outcome σ} (hc : c.vm.ioGas < 2 ^ 63)
    (hfair : ∀ d, Visits (Config.step env) c d → Fair env d) (hr : Returns (Config.step env) c r) :
    OnOk c.GasKept r :=
  hr.of_wp hfair hc step_gas_run

theorem runFrame_gas_le {e e' : Executive} {w' : World σ} {sub sub' : SubState} (h0 : 0 ≤ e.gas)
    (h63 : e.gas < 2 ^ 63) (hfair : Throughout (Config.step env) (Fair env) (runFrame w sub e))
    (h : Gives (Config.step env) (runFrame w sub e) (.ok (w', sub', e'))) : 0 ≤ e'.gas ∧ e'.gas ≤ e.gas :=
  h.of_wp (runFrame_gas w sub h0 h63) hfair (fun _ _ => returns_gas) _ rfl

theorem go_gas_le {e e' : Executive} {inner : Ext} {w' : World σ} {sub : SubState} (hext : e.ext = some inner)
    (h0 : 0 ≤ e.gas) (h63 : e.gas < 2 ^ 63) (hfair : Throughout (Config.step env) (Fair env) (e.go w inner))
    (h : Gives (Config.step env) (e.go w inner) (.ok (w', sub, e'))) : 0 ≤ e'.gas ∧ e'.gas ≤ e.gas := by
  have hframe : runFrame w .start e =
      (e.go w inner).map fun r => r.map fun (w, innerSub, e) => (w, SubState.start.add innerSub, e) := by
    rw [runFrame, hext]
  have hgives : Gives (Config.step env) (runFrame w .start e) (.ok (w', SubState.start.add sub, e')) := by
    rw [hframe]
    exact gives_map.mpr ⟨_, h, rfl⟩
  refine runFrame_gas_le h0 h63 ?_ hgives
  rw [hframe]
  exact throughout_map.mpr hfair

/-- Gas never grows: what an `Executive` reports is between zero and what it was given, and no
instruction of a frame below it leaves more gas than there was, as long as all calls are fair. -/
theorem gas_never_grows {gas : Int} {e : Executive} {sub : SubState} (hprep : Prepared env gas w e)
    (h0 : 0 ≤ gas) (h63 : gas < 2 ^ 63)
    (hfair : Throughout (Config.step env) (Fair env) (runFrame w sub e)) :
    (0 ≤ e.gas ∧ e.gas ≤ gas) ∧
    (∀ w' sub' e', Gives (Config.step env) (runFrame w sub e) (.ok (w', sub', e')) →
      0 ≤ e'.gas ∧ e'.gas ≤ gas) ∧
    Throughout (Config.step env) (fun c =>
      (∀ c', Next (Config.step env) c c' → c'.vm.ioGas ≤ c.vm.ioGas) ∧
      ∀ ended, Gives (Config.step env) (c.step env) (.inr (.ok ended)) → c.GasKept ended)
      (runFrame w sub e) := by
  have he := hprep.gas_bounds h0 h63
  refine ⟨he, fun w' sub' e' hgives => ?_, ?_⟩
  · have := runFrame_gas_le he.1 (by omega) hfair hgives
    omega
  · refine (hfair.invariant (runFrame_gas w sub he.1 (by omega)) step_gas_run).imp fun c hc => ?_
    have hstep := step_gas (hc.2 c (.refl c)) hc.1
    constructor
    · intro c' hnext
      exact hnext.of_wp hstep (throughout_step hc.2) fun _ _ => returns_gas
    · intro ended hends
      exact hends.of_wp hstep (throughout_step hc.2) (fun _ _ => returns_gas) _ rfl

def txFrame (env : Env σ) (w : World σ) : Frames σ (Except Crash (World σ × SubState × Executive)) :=
  match Executive.execute env w with
  | .error crash => .ret (.error crash)
  | .ok (w, e) => runFrame w .start e

def reportedGas : Except Crash (World σ × SubState × Executive) → Option Int
  | .ok (_, _, e) => some e.gas
  | .error _ => none

/-- The input of `insert(address,string,string)` for the table `t` of account 7 and the text `[]`. -/
def insertCall : Bytes :=
  [0x6c, 0x02, 0xd6, 0x92] ++ Word.toBytes 7 ++ Word.toBytes 96 ++ Word.toBytes 160 ++
    Word.toBytes 1 ++ ofAscii "t" ++ zeros 31 ++ Word.toBytes 2 ++ ofAscii "[]" ++ zeros 30

def insertEnv (gas : UInt32) : Env Unit :=
  { bareEnv (callOf insertCall gas) with
    decodeTableCall := fun _ =>
      { method := some .insert, byContract := false, owner := 7, destAddr := 0, tableName := ofAscii "t",
        tableNewName := [], raw := ofAscii "[]", rawUpdate := [], rawGet := [], autoFillField := [] } }

def insertLedger (hi lo : UInt8) : World Unit :=
  ledgerOf [(7, plainRoot 1000000 none), (100, plainRoot 0 (some
    [0x36, 0x60, 0, 0x60, 0, 0x37, 0x60, 0, 0x60, 0, 0x36, 0x60, 0, 0x60, 0, 0x61, 0x10, 0x01, 0x61, hi, lo,
      0xf1, 0x00]))]

theorem gas_never_grows_insert : ∃ w sub e,
    Gives (Config.step (insertEnv 100000)) (txFrame (insertEnv 100000) (insertLedger 7 0xd0))
      (.ok (w, sub, e)) ∧ 0 ≤ e.gas ∧ e.gas ≤ 100000 := by
  have hrun : ((txFrame (insertEnv 100000) (insertLedger 7 0xd0)).eval
      (run (Config.step (insertEnv 100000)) 20)).bind reportedGas = some 75165 := by decide +kernel
  obtain ⟨r, hr, hgas⟩ := Option.bind_eq_some_iff.mp hrun
  rcases r with crash | ⟨w, sub, e⟩
  · cases hgas
  refine ⟨w, sub, e, ⟨20, hr⟩, ?_⟩
  have hfair : Throughout (Config.step (insertEnv 100000)) (Fair (insertEnv 100000))
      (txFrame (insertEnv 100000) (insertLedger 7 0xd0)) := by
    refine Throughout.of_passed (n := 20) ?_ ?_
    · rw [hr]
      rfl
    · decide +kernel
  cases hexecute : execute (insertEnv 100000) (insertLedger 7 0xd0) with
  | error crash =>
    rw [txFrame, hexecute] at hr
    cases hr
  | ok r =>
    have hframe : txFrame (insertEnv 100000) (insertLedger 7 0xd0) = runFrame r.1 .start r.2 := by
      rw [txFrame, hexecute]
    rw [hframe] at hfair hr
    exact (gas_never_grows (.execute (by decide) hexecute) (by decide) (by decide) hfair).2.1 w sub e ⟨20, hr⟩

/-- The table contract costs 2000 and is given nothing: the frame, which has less than that left, goes on
with almost `2 ^ 64`, and a transaction with a gas limit of 23500 reports a negative amount. -/
theorem table_call_overdraws :
    Gives (Config.step (insertEnv 23500))
      ((txFrame (insertEnv 23500) (insertLedger 0 0)).map reportedGas) (some (-1335)) ∧
    (passed (Config.step (insertEnv 23500)) 20 (txFrame (insertEnv 23500) (insertLedger 0 0))).map
      (fun c => c.vm.ioGas) = [1444, 1442, 1439, 1436, 1385, 1382, 1379, 1377, 1374, 1371, 1368, 1365,
        18446744073709550281] :=
  ⟨⟨20, by decide +kernel⟩, by decide +kernel⟩

end Chainsql.Evm
