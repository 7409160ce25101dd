import Chainsql.Evm.Executive
import Chainsql.Lib.Effects

/-!
# What one instruction can do

`group` sorts the instructions by what they need: `Group.Does` is all that an instruction of a group can
do once it is paid for, and `Metered` all that its checks and charges can do before. `interpret_ok` and
`interpret_error` take a round of the interpreter apart into these.
-/

namespace Chainsql.Evm

inductive Group where
  | plain | control | halt | revert | store | log | destroy | query | session | change | create | call
  | invalid
deriving DecidableEq

/-- A `query` of the host reads, a `session` concerns open SQL transactions and records only, and a
`change` may write to the ledger. -/
def Instruction.group : Instruction → Group
  | .STOP | .RETURN => .halt
  | .REVERT | .REVERTDIY => .revert
  | .JUMP | .JUMPI | .PUSH _ => .control
  | .SSTORE => .store
  | .LOG _ => .log
  | .SELFDESTRUCT => .destroy
  | .SLOAD | .EXTCODESIZE | .EXTCODECOPY | .EXTCODEHASH | .EXSELECTSQL | .EXGETROWSIZE | .EXGETCOLSIZE
  | .EXGETVALUEBYKEY | .EXGETVALUEBYINDEX | .EXGETLENBYKEY | .EXGETLENBYINDEX | .EXTRUSTLIMIT
  | .EXGATEWAYBALANCE => .query
  | .EXTRANSBEGIN | .EXEXITFUNC => .session
  | .CREATETABLE | .EXDROPTABLE | .EXRENAMETABLE | .EXINSERTSQL | .EXDELETESQL | .EXUPDATESQL
  | .EXGRANTSQL | .EXTRANSCOMMIT | .EXACCOUNTSET | .EXTRANSFERFEESET | .EXTRUSTSET | .EXPAY => .change
  | .CREATE | .CREATE2 => .create
  | .CALL | .CALLCODE | .DELEGATECALL | .STATICCALL => .call
  | .INVALID | .UNDEFINED => .invalid
  | _ => .plain

def HostCall.group : HostCall → Group
  | .emit_log .. => .log
  | .db_trans_begin | .release_resource => .session
  | .get_storage _ | .get_code_size _ | .get_code_hash _ | .copy_code .. | .table_get_handle ..
  | .table_get_lines _ | .table_get_columns _ | .get_column_by_name .. | .get_column_by_index ..
  | .get_column_len_by_name .. | .get_column_len_by_index .. | .trust_limit .. | .gateway_balance .. =>
    .query
  | .table_create .. | .table_rename .. | .table_insert .. | .table_delete .. | .table_drop ..
  | .table_update .. | .table_grant .. | .db_trans_submit | .account_set .. | .transfer_fee_set ..
  | .trust_set .. | .pay .. => .change

def Group.Does (vm vm' : VM) : Group → Action → Prop
  | .plain, action | .invalid, action => action = .next ∧ vm'.ioGas = vm.ioGas ∧ vm'.pc = vm.pc
  | .control, action => action = .jump ∧ vm'.ioGas = vm.ioGas
  | .halt, action => (∃ output, action = .halt output) ∧ vm' = vm
  | .revert, action => (∃ output, action = .revert output ∨ action = .revertDiy output) ∧ vm' = vm
  | .store, action => action = .setStorage (vm.SP 0) (vm.SP 1) ∧ vm' = vm
  | .destroy, action => action = .selfdestruct (vm.address 0) ∧ vm' = vm
  | .create, action => action = .next ∨ ∃ msg, action = .create msg
  | .call, action => action = .next ∨ ∃ msg outOffset outSize, action = .call msg outOffset outSize
  | group, action =>
    ∃ call, action = .host call ∧ call.group = group ∧ vm'.ioGas = vm.ioGas ∧ vm'.pc = vm.pc

/-- The stack, the memory and the return data are as the instruction expects them. -/
def Instruction.Defined (op : Instruction) (vm : VM) : Prop :=
  match op with
  | .RETURNDATACOPY => (vm.SP 1).toNat + (vm.SP 2).toNat ≤ vm.returnData.length
  | .REVERTDIY => 2 ≤ vm.sp.length
  | .EXGETROWSIZE | .EXGETCOLSIZE => 1 ≤ vm.sp.length
  | .EXRENAMETABLE => (vm.SP 3).toSize + (vm.SP 4).toSize ≤ vm.mem.length
  | .EXGETVALUEBYKEY => 32 ≤ (vm.SP 5).toSize
  | .EXGETVALUEBYINDEX => 32 ≤ (vm.SP 4).toSize
  | _ => True

/-- A fault that `VMC::exec` turns into an exception of its own. -/
def Fault.Mild (fault : Fault) : Prop := fault ≠ .BufferOverrun ∧ fault ≠ .undefined

/-- Only gas and memory change, and gas does not grow. -/
structure Metered (s t : VM) : Prop where
  ioGas_le : t.ioGas ≤ s.ioGas
  mem_le : s.mem.length ≤ t.mem.length
  pc_eq : t.pc = s.pc
  sp_eq : t.sp = s.sp
  spp_eq : t.spp = s.spp
  exception_eq : t.exception = s.exception
  returnData_eq : t.returnData = s.returnData

theorem Metered.refl (s : VM) : Metered s s := ⟨le_refl _, le_refl _, rfl, rfl, rfl, rfl, rfl⟩

variable {s t : VM} {p : Prop} {fault : Fault}

theorem Metered.trans {u : VM} (h : Metered s t) (h' : Metered t u) : Metered s u where
  ioGas_le := h'.ioGas_le.trans h.ioGas_le
  mem_le := h.mem_le.trans h'.mem_le
  pc_eq := h'.pc_eq.trans h.pc_eq
  sp_eq := h'.sp_eq.trans h.sp_eq
  spp_eq := h'.spp_eq.trans h.spp_eq
  exception_eq := h'.exception_eq.trans h.exception_eq
  returnData_eq := h'.returnData_eq.trans h.returnData_eq

/-- Faults are mild if `p` holds. -/
def metered (p : Prop) : Effect VM Fault where
  rel := Metered
  err fault := p → fault.Mild
  refl := Metered.refl
  trans _ _ _ := Metered.trans

namespace Exec

variable {p : Prop}

variable {fault : Fault} {q : Prop} {s : VM}

theorem throwIf_ok [Decidable q] {t : VM} : (throwIf q fault).run s = .ok ((), t) ↔ ¬q ∧ t = s := by
  rw [throwIf, run_guard_ok]
  simp only [true_and]

theorem throwIf_error [Decidable q] {fault' : Fault} :
    (throwIf q fault).run s = .error fault' ↔ q ∧ fault' = fault := by
  rw [throwIf]
  split
  next h =>
    constructor
    · intro h'
      cases h'
      exact ⟨h, rfl⟩
    · rintro ⟨-, rfl⟩
      rfl
  next h =>
    constructor
    · intro h'
      cases h'
    · rintro ⟨h', -⟩
      exact absurd h' h

section Ok

variable {s t : VM} {n m : Nat}

theorem toInt63_ok : (toInt63 n).run s = .ok (m, t) ↔ n < 2 ^ 63 ∧ m = n ∧ t = s := by
  rw [toInt63, run_guard_ok, Nat.not_lt]
  exact and_congr_left' Nat.lt_succ_iff.symm

theorem addMemGas_ok {old new : Nat} (h : (addMemGas old new).run s = .ok ((), t)) :
    ∃ n < 2 ^ 63, t = { s with runGas := u64 (s.runGas + n) } := by
  obtain ⟨_, s₁, hnew, h₁⟩ := run_bind_ok.mp h
  obtain ⟨-, -, rfl⟩ := toInt63_ok.mp hnew
  obtain ⟨_, s₂, hold, h₂⟩ := run_bind_ok.mp h₁
  obtain ⟨-, -, rfl⟩ := toInt63_ok.mp hold
  obtain ⟨n, s₃, hdiff, h₃⟩ := run_bind_ok.mp h₂
  obtain ⟨hn, rfl, rfl⟩ := toInt63_ok.mp hdiff
  cases h₃
  exact ⟨_, hn, rfl⟩

theorem onlyIf_ok {q : Prop} [Decidable q] {x : Exec Unit} :
    (onlyIf q x).run s = .ok ((), t) ↔ q ∧ x.run s = .ok ((), t) ∨ ¬q ∧ t = s := by
  rw [onlyIf]
  split
  next h => simp [h]
  next h =>
    constructor
    · intro h'
      cases h'
      exact .inr ⟨h, rfl⟩
    · rintro (⟨h', -⟩ | ⟨-, rfl⟩)
      · exact absurd h' h
      · rfl

theorem checkGas_ok (h : checkGas.run s = .ok ((), t)) : t = s := by
  obtain ⟨_, s₁, hget, h₁⟩ := run_bind_ok.mp h
  cases hget
  exact (throwIf_ok.mp h₁).2

theorem updateIOGas_ok (h : updateIOGas.run s = .ok ((), t)) :
    s.runGas ≤ s.ioGas ∧ t = { s with ioGas := s.ioGas - s.runGas } := by
  obtain ⟨_, s', hcheck, hset⟩ := run_bind_ok.mp h
  obtain ⟨vm, s'', hget, hthrow⟩ := run_bind_ok.mp hcheck
  cases hget
  obtain ⟨hle, rfl⟩ := throwIf_ok.mp hthrow
  cases hset
  exact ⟨Nat.le_of_not_lt hle, rfl⟩

end Ok

theorem ensures_throwIf [Decidable q] (h : q → p → fault.Mild) : Ensures (metered p) (throwIf q fault) :=
  .ite (fun hq => .throw (h hq)) fun _ => .pure ()

theorem ensures_onlyIf [Decidable q] {m : Exec Unit} (h : Ensures (metered p) m) :
    Ensures (metered p) (onlyIf q m) :=
  .ite (fun _ => h) fun _ => .pure ()

theorem mild_outOfGas : Fault.OutOfGas.Mild := ⟨by decide, by decide⟩

theorem ensures_toInt63 (n : Nat) : Ensures (metered p) (toInt63 n) :=
  .ite (fun _ => .throw fun _ => mild_outOfGas) fun _ => .pure n

theorem ensures_setRunGas (n : Nat) : Ensures (metered p) (setRunGas n) :=
  .modify fun _ => ⟨le_refl _, le_refl _, rfl, rfl, rfl, rfl, rfl⟩

theorem ensures_addRunGas (n : Nat) : Ensures (metered p) (addRunGas n) :=
  .modify fun _ => ⟨le_refl _, le_refl _, rfl, rfl, rfl, rfl, rfl⟩

theorem ensures_checkGas : Ensures (metered p) checkGas :=
  .bind .get fun _ => ensures_throwIf fun _ _ => mild_outOfGas

theorem ensures_updateIOGas : Ensures (metered p) updateIOGas :=
  .bind ensures_checkGas fun _ => .modify fun _ => ⟨Nat.sub_le _ _, le_refl _, rfl, rfl, rfl, rfl, rfl⟩

theorem ensures_addMemGas (old new : Nat) : Ensures (metered p) (addMemGas old new) := by
  refine .bind (ensures_toInt63 _) fun _ => .bind (ensures_toInt63 _) fun _ => ?_
  exact .bind (ensures_toInt63 _) fun _ => ensures_addRunGas _

theorem ensures_updateGas : Ensures (metered p) updateGas := by
  refine .bind .get fun vm => .bind (ensures_onlyIf (ensures_addMemGas _ _)) fun _ => ?_
  exact .bind (ensures_addRunGas _) fun _ => ensures_checkGas

theorem ensures_updateMem (newMem : Nat) : Ensures (metered p) (updateMem newMem) := by
  refine .bind (.modify fun _ => ⟨le_refl _, le_refl _, rfl, rfl, rfl, rfl, rfl⟩) fun _ => ?_
  refine .bind ensures_updateGas fun _ => .modify fun s => ?_
  exact ⟨le_refl _, by simp, rfl, rfl, rfl, rfl, rfl⟩

theorem ensures_needMem (offset size : Word) : Ensures (metered p) (needMem offset size) :=
  .bind (ensures_toInt63 _) fun _ => ensures_updateMem _

theorem ensures_setCopyMemSize (size : Word) : Ensures (metered p) (setCopyMemSize size) :=
  .bind (ensures_toInt63 _) fun _ => .modify fun _ => ⟨le_refl _, le_refl _, rfl, rfl, rfl, rfl, rfl⟩

theorem ensures_tableGasMem (dropsPerByte : Nat) (memBegin byteLens : Word) :
    Ensures (metered p) (tableGasMem dropsPerByte memBegin byteLens) :=
  .bind (ensures_toInt63 _) fun _ => .bind (ensures_setRunGas _) fun _ => ensures_needMem _ _

theorem ensures_needMem_updateIOGas (offset size : Word) :
    Ensures (metered p) (do needMem offset size; updateIOGas) :=
  .bind (ensures_needMem _ _) fun _ => ensures_updateIOGas

end Exec

variable {σ : Type} {env : Env σ} {ext : Ext} {w : World σ} {op : Instruction} {vm : VM}

open Exec

theorem ensures_throwIfStatic : Ensures (metered p) (throwIfStatic ext) :=
  ensures_throwIf fun _ _ => ⟨by decide, by decide⟩

theorem ensures_meterCall : Ensures (metered p) (meterCall w op vm) := by
  refine .bind (ensures_onlyIf (ensures_addRunGas _)) fun _ => ?_
  refine .bind (ensures_onlyIf (ensures_addRunGas _)) fun _ => ?_
  refine .bind (ensures_toInt63 _) fun _ => .bind (ensures_toInt63 _) fun _ => ?_
  refine .bind (ensures_updateMem _) fun _ => .bind ensures_updateIOGas fun _ => .bind .get fun _ => ?_
  exact .bind (ensures_toInt63 _) fun _ => .bind (ensures_setRunGas _) fun _ => ensures_updateIOGas

/-- Whether `EXRENAMETABLE` is defined depends on the memory at the time, see `meter_mild`. -/
theorem ensures_meter (hp : p → op.Defined vm ∧ op ≠ .EXRENAMETABLE) :
    Ensures (metered p) (meter env ext w op vm) := by
  cases op
  case CREATE =>
    exact .bind ensures_throwIfStatic fun _ => .bind (ensures_setRunGas _) fun _ =>
      ensures_needMem_updateIOGas _ _
  case CREATE2 =>
    exact .bind ensures_throwIfStatic fun _ => .bind (ensures_setRunGas _) fun _ =>
      .bind (ensures_toInt63 _) fun _ => .bind (ensures_addRunGas _) fun _ => ensures_needMem_updateIOGas _ _
  case CALL => exact .bind (ensures_throwIf fun _ _ => ⟨by decide, by decide⟩) fun _ => ensures_meterCall
  case CALLCODE | DELEGATECALL | STATICCALL => exact ensures_meterCall
  case RETURN | REVERT => exact ensures_needMem_updateIOGas _ _
  case REVERTDIY =>
    refine .bind (ensures_throwIf fun h hp' => ?_) fun _ => ensures_needMem_updateIOGas _ _
    exact absurd (hp hp').1 (Nat.not_le_of_lt h)
  case SELFDESTRUCT =>
    refine .bind ensures_throwIfStatic fun _ => .bind ensures_updateIOGas fun _ => ?_
    exact ensures_onlyIf (.bind (ensures_setRunGas _) fun _ => ensures_updateIOGas)
  case MLOAD | MSTORE | MSTORE8 =>
    exact .bind (ensures_toInt63 _) fun _ => .bind (ensures_updateMem _) fun _ => ensures_updateIOGas
  case SHA3 =>
    exact .bind (ensures_toInt63 _) fun _ => .bind (ensures_setRunGas _) fun _ =>
      ensures_needMem_updateIOGas _ _
  case LOG =>
    exact .bind ensures_throwIfStatic fun _ => .bind (ensures_toInt63 _) fun _ =>
      .bind (ensures_setRunGas _) fun _ => ensures_needMem_updateIOGas _ _
  case EXP =>
    exact .bind (ensures_toInt63 _) fun _ => .bind (ensures_setRunGas _) fun _ => ensures_updateIOGas
  case CALLDATACOPY | CODECOPY | EXTCODECOPY =>
    exact .bind (ensures_setCopyMemSize _) fun _ => ensures_needMem_updateIOGas _ _
  case RETURNDATACOPY =>
    refine .bind (ensures_throwIf fun h hp' => ?_) fun _ =>
      .bind (ensures_setCopyMemSize _) fun _ => ensures_needMem_updateIOGas _ _
    exact absurd (hp hp').1 (Nat.not_le_of_lt h)
  case BLOCKHASH | JUMPDEST => exact .bind (ensures_setRunGas _) fun _ => ensures_updateIOGas
  case JUMP | JUMPI =>
    exact .bind ensures_updateIOGas fun _ => ensures_throwIf fun _ _ => ⟨by decide, by decide⟩
  case SSTORE =>
    exact .bind ensures_throwIfStatic fun _ => .bind .get fun _ => ensures_throwIf fun _ _ => mild_outOfGas
  case CREATETABLE | EXINSERTSQL | EXDELETESQL | EXSELECTSQL | EXGRANTSQL =>
    exact .bind (ensures_needMem _ _) fun _ => .bind (ensures_tableGasMem _ _ _) fun _ => ensures_updateIOGas
  case EXUPDATESQL =>
    exact .bind (ensures_needMem _ _) fun _ => .bind (ensures_tableGasMem _ _ _) fun _ =>
      .bind ensures_updateIOGas fun _ => .bind (ensures_tableGasMem _ _ _) fun _ => ensures_updateIOGas
  case EXDROPTABLE | EXTRUSTLIMIT | EXGATEWAYBALANCE | EXGETLENBYKEY => exact ensures_needMem _ _
  case EXRENAMETABLE =>
    exact .bind (ensures_needMem _ _) fun _ => .bind .get fun _ =>
      ensures_throwIf fun _ hp' => absurd rfl (hp hp').2
  case EXTRANSBEGIN | EXTRANSCOMMIT | EXEXITFUNC | EXGETLENBYINDEX | EXACCOUNTSET => exact .pure ()
  case EXGETROWSIZE | EXGETCOLSIZE =>
    exact ensures_throwIf fun h hp' => absurd (hp hp').1 (Nat.not_le_of_lt h)
  case EXGETVALUEBYKEY =>
    refine .bind (ensures_needMem _ _) fun _ => .bind (ensures_needMem _ _) fun _ => ?_
    exact ensures_throwIf fun h hp' => absurd (hp hp').1 (Nat.not_le_of_lt h)
  case EXGETVALUEBYINDEX =>
    refine .bind (ensures_needMem _ _) fun _ => ?_
    exact ensures_throwIf fun h hp' => absurd (hp hp').1 (Nat.not_le_of_lt h)
  case EXTRANSFERFEESET | EXPAY =>
    exact .bind (ensures_needMem _ _) fun _ => .bind (ensures_needMem _ _) fun _ => ensures_needMem _ _
  case EXTRUSTSET => exact .bind (ensures_needMem _ _) fun _ => ensures_needMem _ _
  case INVALID | UNDEFINED => exact .throw fun _ => ⟨by decide, by decide⟩
  all_goals exact ensures_updateIOGas

theorem meter_ok (h : (meter env ext w op vm).run s = .ok ((), t)) : Metered s t :=
  (ensures_meter (p := False) False.elim).rel h

theorem meter_mild (hop : op.Defined vm) (h : (meter env ext w op vm).run vm = .error fault) : fault.Mild := by
  by_cases hrename : op = .EXRENAMETABLE
  · subst hrename
    rcases run_bind_error.mp h with h | ⟨_, s, hs, h⟩
    · exact (ensures_needMem (p := True) _ _).err h trivial
    · have hle := ((ensures_needMem (p := True) _ _).rel hs).mem_le
      have hop : (vm.SP 3).toSize + (vm.SP 4).toSize ≤ vm.mem.length := hop
      rcases run_bind_error.mp h with h | ⟨_, _, hget, h⟩
      · cases h
      · cases hget
        have := (throwIf_error.mp h).1
        omega
  · exact (ensures_meter (p := True) fun _ => ⟨hop, hrename⟩).err h trivial

theorem fetch_ok (h : (fetchInstruction ext).run s = .ok (op, vm)) :
    op = Instruction.ofOpcode (ext.code.getD s.pc 0).toNat ∧
      op.metrics.stackHeightRequired ≤ s.spp.length ∧
      vm = { s with
        sp := s.spp
        spp := List.replicate op.metrics.stackHeightChange.toNat 0 ++
          s.spp.drop (-op.metrics.stackHeightChange).toNat
        runGas := op.metrics.gasCost
        newMemSize := s.mem.length
        copyMemSize := 0 } := by
  obtain ⟨_, _, hget, h⟩ := run_bind_ok.mp h
  cases hget
  obtain ⟨_, s', hadjust, h⟩ := run_bind_ok.mp h
  obtain ⟨_, _, hget, hadjust⟩ := run_bind_ok.mp hadjust
  cases hget
  obtain ⟨_, _, hunder, hadjust⟩ := run_bind_ok.mp hadjust
  obtain ⟨_, _, hover, hadjust⟩ := run_bind_ok.mp hadjust
  obtain ⟨hunder, rfl⟩ := throwIf_ok.mp hunder
  cases hadjust
  cases h
  exact ⟨rfl, Nat.le_of_not_lt hunder, rfl⟩

theorem fetch_mild (h : (fetchInstruction ext).run s = .error fault) : fault.Mild := by
  rcases run_bind_error.mp h with h | ⟨_, _, hget, h⟩
  · cases h
  cases hget
  rcases run_bind_error.mp h with h | ⟨_, _, -, h⟩
  · rcases run_bind_error.mp h with h | ⟨_, _, hget, h⟩
    · cases h
    rcases run_bind_error.mp h with h | ⟨_, _, -, h⟩
    · rw [(throwIf_error.mp h).2]
      exact ⟨by decide, by decide⟩
    · rcases run_bind_error.mp h with h | ⟨_, _, -, h⟩
      · rw [(throwIf_error.mp h).2]
        exact ⟨by decide, by decide⟩
      · cases h
  · rcases run_bind_error.mp h with h | ⟨_, _, -, h⟩
    · cases h
    · cases h

theorem interpret_ok {action : Action} :
    (interpretCases env ext w).run s = .ok (action, vm) ↔ ∃ op vm₁ vm₂,
      (fetchInstruction ext).run s = .ok (op, vm₁) ∧ (meter env ext w op vm₁).run vm₁ = .ok ((), vm₂) ∧
        effect env ext w op vm₂ = (action, vm) := by
  constructor
  · intro h
    obtain ⟨op, vm₁, hfetch, h⟩ := run_bind_ok.mp h
    obtain ⟨_, _, hget, h⟩ := run_bind_ok.mp h
    cases hget
    obtain ⟨_, vm₂, hmeter, h⟩ := run_bind_ok.mp h
    exact ⟨op, vm₁, vm₂, hfetch, hmeter, Except.ok.inj h⟩
  · rintro ⟨op, vm₁, vm₂, hfetch, hmeter, heffect⟩
    refine run_bind_ok.mpr ⟨op, vm₁, hfetch, run_bind_ok.mpr ⟨vm₁, vm₁, rfl, ?_⟩⟩
    exact run_bind_ok.mpr ⟨(), vm₂, hmeter, congrArg Except.ok heffect⟩

theorem interpret_error (h : (interpretCases env ext w).run s = .error fault) :
    (fetchInstruction ext).run s = .error fault ∨ ∃ op vm₁,
      (fetchInstruction ext).run s = .ok (op, vm₁) ∧ (meter env ext w op vm₁).run vm₁ = .error fault := by
  rcases run_bind_error.mp h with h | ⟨op, vm₁, hfetch, h⟩
  · exact .inl h
  · refine .inr ⟨op, vm₁, hfetch, ?_⟩
    rcases run_bind_error.mp h with h | ⟨_, _, hget, h⟩
    · cases h
    · cases hget
      rcases run_bind_error.mp h with h | ⟨_, _, -, h⟩
      · exact h
      · cases h

theorem effect_does (op : Instruction) (vm : VM) :
    op.group.Does vm (effect env ext w op vm).2 (effect env ext w op vm).1 := by
  cases op
  case STOP | RETURN => exact ⟨⟨_, rfl⟩, rfl⟩
  case REVERT =>
    rw [effect, effectRevert]
    split
    · exact ⟨⟨_, .inr rfl⟩, rfl⟩
    · exact ⟨⟨_, .inl rfl⟩, rfl⟩
  case REVERTDIY => exact ⟨⟨_, .inr rfl⟩, rfl⟩
  case JUMP | JUMPI | PUSH | SSTORE | SELFDESTRUCT => exact ⟨rfl, rfl⟩
  case CREATE | CREATE2 =>
    rw [effect, effectCreate]
    split
    · exact .inr ⟨_, rfl⟩
    · exact .inl rfl
  case CALL | CALLCODE | DELEGATECALL | STATICCALL =>
    rw [effect, effectCall]
    split
    · exact .inr ⟨_, _, _, rfl⟩
    · exact .inl rfl
  case LOG | SLOAD | EXTCODESIZE | EXTCODECOPY | EXTCODEHASH | EXSELECTSQL | EXGETROWSIZE | EXGETCOLSIZE
    | EXGETVALUEBYKEY | EXGETVALUEBYINDEX | EXGETLENBYKEY | EXGETLENBYINDEX | EXTRUSTLIMIT
    | EXGATEWAYBALANCE | EXTRANSBEGIN | EXEXITFUNC | CREATETABLE | EXDROPTABLE | EXRENAMETABLE
    | EXINSERTSQL | EXDELETESQL | EXUPDATESQL | EXGRANTSQL | EXTRANSCOMMIT | EXACCOUNTSET
    | EXTRANSFERFEESET | EXTRUSTSET | EXPAY => exact ⟨_, rfl, rfl, rfl, rfl⟩
  all_goals exact ⟨rfl, rfl, rfl⟩

theorem effect_call (hop : op.group = .call) : effect env ext w op vm = effectCall env ext w op vm := by
  cases op
  case CALL | CALLCODE | DELEGATECALL | STATICCALL => rfl
  all_goals cases hop

theorem effect_create (hop : op.group = .create) : effect env ext w op vm = effectCreate ext w op vm := by
  cases op
  case CREATE | CREATE2 => rfl
  all_goals cases hop

/-- The instructions that an action can come from. A call may fail before it is made, and then the frame
just goes on. -/
def Action.group : Action → Option Group
  | .next => none
  | .jump => some .control
  | .halt _ => some .halt
  | .revert _ | .revertDiy _ => some .revert
  | .selfdestruct _ => some .destroy
  | .setStorage .. => some .store
  | .host hostCall => some hostCall.group
  | .call _ _ _ => some .call
  | .create _ => some .create

theorem Group.Does.group_eq {g g' : Group} {vm vm' : VM} {action : Action} (h : g.Does vm vm' action)
    (hg : action.group = some g') : g = g' := by
  cases g
  case plain | invalid =>
    rw [h.1] at hg
    cases hg
  case control | store | destroy =>
    rw [h.1] at hg
    exact Option.some.inj hg
  case halt =>
    obtain ⟨⟨_, rfl⟩, -⟩ := h
    exact Option.some.inj hg
  case revert =>
    obtain ⟨⟨_, rfl | rfl⟩, -⟩ := h
    · exact Option.some.inj hg
    · exact Option.some.inj hg
  case create =>
    rcases h with rfl | ⟨_, rfl⟩
    · cases hg
    · exact Option.some.inj hg
  case call =>
    rcases h with rfl | ⟨_, _, _, rfl⟩
    · cases hg
    · exact Option.some.inj hg
  all_goals
    obtain ⟨call, rfl, hcall, -⟩ := h
    rw [Action.group, hcall] at hg
    exact Option.some.inj hg

def Config.opcode (c : Config σ) : Instruction := .ofOpcode (c.ext.code.getD c.vm.pc 0).toNat

section Inversion

variable {c : Config σ} {action : Action}

variable {g : Group}

theorem interpret_group (h : (interpretCases env c.ext c.world).run c.vm = .ok (action, vm))
    (hg : action.group = some g) : c.opcode.group = g := by
  obtain ⟨op, vm₁, vm₂, hfetch, -, heffect⟩ := interpret_ok.mp h
  have hop : op = c.opcode := (fetch_ok hfetch).1
  have hdoes : op.group.Does vm₂ (effect env c.ext c.world op vm₂).2 (effect env c.ext c.world op vm₂).1 :=
    effect_does op vm₂
  rw [heffect] at hdoes
  rw [← hop]
  exact hdoes.group_eq hg

/-- Storing, logging, creating and destroying start with the check of the static flag. -/
theorem meter_not_static {s t : VM} (hop : op.group = g) (hg : g ∈ [Group.store, .log, .destroy, .create])
    (h : (meter env ext w op vm).run s = .ok ((), t)) : ext.staticCall = false := by
  have check : ∀ m : Exec Unit, (do throwIfStatic ext; m : Exec Unit).run s = .ok ((), t) →
      ext.staticCall = false := by
    intro m hm
    obtain ⟨_, _, hthrow, -⟩ := run_bind_ok.mp hm
    exact Bool.not_eq_true _ ▸ (throwIf_ok.mp hthrow).1
  subst hop
  cases op
  case SSTORE | LOG | SELFDESTRUCT | CREATE | CREATE2 => exact check _ h
  all_goals simp [Instruction.group] at hg

theorem interpret_not_static (h : (interpretCases env c.ext c.world).run c.vm = .ok (action, vm))
    (hg : action.group = some g) (hmem : g ∈ [Group.store, .log, .destroy, .create]) : c.ext.staticCall = false := by
  have hgroup := interpret_group h hg
  obtain ⟨op, vm₁, vm₂, hfetch, hmeter, -⟩ := interpret_ok.mp h
  have hop : op = c.opcode := (fetch_ok hfetch).1
  exact meter_not_static (hop ▸ hgroup) hmem hmeter

theorem interpret_call {msg : Message} {outOffset outSize : Nat}
    (h : (interpretCases env c.ext c.world).run c.vm = .ok (.call msg outOffset outSize, vm)) :
    ∃ vm₂, msg = callMessage env c.ext c.opcode vm₂ ∧ c.opcode.group = .call ∧ c.ext.depth < 1024 ∧
      (hasValueArg c.opcode → msg.value.toNat ≤ SleOps.balance c.world c.ext.myAddress) ∧
      (c.opcode = .CALL → c.ext.staticCall → vm₂.SP 2 = 0) := by
  have hgroup : c.opcode.group = .call := interpret_group h rfl
  obtain ⟨op, vm₁, vm₂, hfetch, hmeter, heffect⟩ := interpret_ok.mp h
  have hop : op = c.opcode := (fetch_ok hfetch).1
  subst hop
  rw [effect_call hgroup, effectCall] at heffect
  split at heffect
  next hok =>
    cases heffect
    refine ⟨vm₂, rfl, hgroup, hok.2, fun hvalue => ?_, fun hcall hstatic => ?_⟩
    · simpa [hvalue] using hok.1
    · rw [hcall] at hmeter
      obtain ⟨_, _, hthrow, -⟩ := run_bind_ok.mp hmeter
      have hsp : vm₂.SP 2 = vm₁.SP 2 := by rw [VM.SP, VM.SP, (meter_ok hmeter).sp_eq]
      have hzero := (throwIf_ok.mp hthrow).1
      rw [hsp]
      exact not_not.mp fun hne => hzero ⟨hstatic, hne⟩
  next => cases heffect

theorem interpret_create {msg : Message}
    (h : (interpretCases env c.ext c.world).run c.vm = .ok (.create msg, vm)) :
    c.opcode.group = .create ∧ c.ext.depth < 1024 ∧
      msg.value.toNat ≤ SleOps.balance c.world c.ext.myAddress := by
  have hgroup : c.opcode.group = .create := interpret_group h rfl
  obtain ⟨op, vm₁, vm₂, hfetch, -, heffect⟩ := interpret_ok.mp h
  have hop : op = c.opcode := (fetch_ok hfetch).1
  subst hop
  rw [effect_create hgroup, effectCreate] at heffect
  split at heffect
  next hok =>
    cases heffect
    exact ⟨hgroup, hok.2, hok.1⟩
  next => cases heffect

end Inversion

/-- What the next instruction needs, if it can be paid for. -/
def Config.action (env : Env σ) (c : Config σ) : Option Action :=
  match (interpretCases env c.ext c.world).run c.vm with
  | .ok (action, _) => some action
  | .error _ => none

theorem Config.action_eq {c : Config σ} {action : Action}
    (h : (interpretCases env c.ext c.world).run c.vm = .ok (action, vm)) : c.action env = some action := by
  rw [Config.action, h]

theorem Config.action_run {c : Config σ} {action : Action} (h : c.action env = some action) :
    ∃ vm, (interpretCases env c.ext c.world).run c.vm = .ok (action, vm) := by
  rw [Config.action] at h
  split at h
  next action' vm hrun =>
    cases h
    exact ⟨vm, hrun⟩
  next => cases h

def Config.nextCall (env : Env σ) (c : Config σ) : Option CallParameters :=
  match (interpretCases env c.ext c.world).run c.vm with
  | .ok (.call msg _ _, _) => some (EvmCHost.callParameters c.ext msg)
  | _ => none

theorem Config.nextCall_eq {c : Config σ} {msg : Message} {outOffset outSize : Nat}
    (h : (interpretCases env c.ext c.world).run c.vm = .ok (.call msg outOffset outSize, vm)) :
    c.nextCall env = some (EvmCHost.callParameters c.ext msg) := by
  rw [Config.nextCall, h]

section Rules

variable {pre : Config σ → Prop} {post : Config σ → Outcome σ → Prop} {c : Config σ} {sub : SubState}
  {Q : Config σ ⊕ Outcome σ → Prop}

theorem step_wp
    (hthrow : ∀ fault, (interpretCases env c.ext c.world).run c.vm = .error fault → Q (c.throw fault))
    (hact : ∀ action vm, (interpretCases env c.ext c.world).run c.vm = .ok (action, vm) →
      (c.act env vm action).wp pre post Q) : (c.step env).wp pre post Q := by
  rw [Config.step]
  split
  next fault h => exact hthrow fault h
  next action vm h => exact hact action vm h

variable {e e' : Executive} {q : Except Crash (World σ × SubState × Executive) → Prop} {w' : World σ}

theorem runFrame_wp (hnone : e.ext = none → q (.ok (w, sub, e)))
    (hsome : ∀ inner, e.ext = some inner → pre (.start inner e.gas (e.goWorld w inner)) ∧
      ∀ r, post (.start inner e.gas (e.goWorld w inner)) r →
        q ((r.bind (e.goEnd inner)).map fun (w, innerSub, e) => (w, sub.add innerSub, e))) :
    (runFrame w sub e).wp pre post q := by
  rw [runFrame]
  split
  next h => exact hnone h
  next inner h => exact hsome inner h

theorem runFrame_wp_none (he : e.ext = none) (h : q (.ok (w, sub, e))) : (runFrame w sub e).wp pre post q := by
  rw [runFrame, he]
  exact h

theorem hostFrame_onOk {result : Executive → EvmcResult} {prepared : Except Crash (World σ × Executive)}
    {q : World σ × SubState × EvmcResult → Prop}
    (h : ∀ w e, prepared = .ok (w, e) →
      (runFrame w sub e).wp pre post (OnOk fun (w, sub, e) => q (w, sub, result e))) :
    (hostFrame sub result prepared).wp pre post (OnOk q) := by
  rcases prepared with crash | ⟨w, e⟩
  · intro a ha
    cases crash <;> cases ha
  · refine Ask.wp_map.mpr ((h w e rfl).imp (fun _ hc => hc) fun r hr => ?_)
    rcases r with crash | ⟨w, sub, e⟩
    · intro a ha
      cases crash <;> cases ha
    · intro a ha
      cases ha
      exact hr _ rfl

theorem resume_wp {vm : EvmcResult → VM} {x : Frames σ (Except Crash (World σ × SubState × EvmcResult))}
    (hcrash : ∀ crash, Q (.inr (.error crash)))
    (h : x.wp pre post (OnOk fun (w, sub, result) =>
      Q (.inl (({ c with sub, world := w } : Config σ).next (vm result))))) :
    (x.map (c.resume vm)).wp pre post Q := by
  refine Ask.wp_map.mpr (h.imp (fun _ hc => hc) fun r hr => ?_)
  rcases r with crash | ⟨w, sub, result⟩
  · exact hcrash crash
  · exact hr _ rfl

theorem act_call_wp {msg : Message} {outOffset outSize : Nat} (hcrash : ∀ crash, Q (.inr (.error crash)))
    (h : ∀ w e, Executive.call env c.world (c.ext.depth + 1) (EvmCHost.callParameters c.ext msg)
        c.ext.gasPrice c.ext.origin = .ok (w, e) →
      (runFrame w c.sub e).wp pre post (OnOk fun (w, sub, e) =>
        Q (.inl (({ c with sub, world := w } : Config σ).next
          (vm.resumeCall outOffset outSize (EvmCHost.callResult e)))))) :
    (c.act env vm (.call msg outOffset outSize)).wp pre post Q :=
  resume_wp hcrash (hostFrame_onOk h)

theorem freeAddress_free {sender a : AccountID} {tries : Nat} {sequence : UInt32}
    (h : Executive.freeAddress env w sender tries sequence = some a) : SleOps.getSle w a = none := by
  induction tries generalizing sequence with
  | zero => cases h
  | succ tries ih =>
    rw [Executive.freeAddress] at h
    split at h
    next hfree =>
      cases h
      exact Option.isNone_iff_eq_none.mp hfree
    next => exact ih h

theorem createOpcode_ok {depth : Nat} {sender origin : AccountID} {endowment gasPrice : Word} {gas : Int} {code : Bytes}
    (h : Executive.createOpcode env w depth sender endowment gasPrice gas code origin = .ok (w', e)) :
    ∃ newAddress, (depth ≠ 1 → SleOps.getSle w newAddress = none) ∧
      Executive.executeCreate env w depth newAddress sender endowment gasPrice gas code origin = (w', e) := by
  rw [Executive.createOpcode] at h
  split at h
  next hdepth => exact ⟨_, fun hne => absurd hdepth hne, Except.ok.inj h⟩
  · split at h
    · cases h
    next hfree => exact ⟨_, fun _ => freeAddress_free hfree, Except.ok.inj h⟩

/-- Whatever the instruction, a creation is prepared by `executeCreate`. The address that `CREATE` uses
is free. -/
theorem act_create_wp {msg : Message} (hcrash : ∀ crash, Q (.inr (.error crash)))
    (h : ∀ newAddress w e, (msg.kind = .EVMC_CREATE → c.ext.depth ≠ 0 →
        SleOps.getSle c.world newAddress = none) ∧ (msg.kind ≠ .EVMC_CREATE →
        newAddress = Executive.create2Address env c.ext.myAddress msg.inputData msg.create2Salt) →
      Executive.executeCreate env c.world (c.ext.depth + 1) newAddress c.ext.myAddress
        msg.value c.ext.gasPrice msg.gas msg.inputData c.ext.origin = (w, e) →
      (runFrame w c.sub e).wp pre post (OnOk fun (w, sub, e) =>
        Q (.inl (({ c with sub, world := w } : Config σ).next
          (vm.resumeCreate msg (EvmCHost.createResult e)))))) :
    (c.act env vm (.create msg)).wp pre post Q := by
  refine resume_wp hcrash (hostFrame_onOk fun w e he => ?_)
  split at he
  next hkind =>
    obtain ⟨newAddress, hfree, he⟩ := createOpcode_ok he
    exact h newAddress w e ⟨fun _ hne => hfree (by omega), fun hne => absurd hkind hne⟩ he
  next hkind => exact h _ w e ⟨fun hcreate => absurd hcreate hkind, fun _ => rfl⟩ (Except.ok.inj he)

theorem depositCode_world {gas : Int} {out : Bytes} (h : Executive.depositCode w ext e gas out = (w', e')) :
    w' = SleOps.setCode w ext.myAddress out ∨ w' = w := by
  rw [Executive.depositCode] at h
  split at h
  · cases h
    exact .inl rfl
  · cases h
    exact .inr rfl

theorem goEnd_ok {ended : Ended σ} (h : e.goEnd ext ended = .ok (w, sub, e')) :
    sub = ended.sub ∧ ((∃ gas out, e.isCreation = true ∧ VMC.exec ended.halt = .returns gas out ∧
        Executive.depositCode ended.world ext e gas out = (w, e')) ∨
      w = ended.world ∧ e.catchResult (VMC.exec ended.halt) = .ok e') := by
  rw [Executive.goEnd] at h
  split at h
  next gas out hcreate hexec =>
    cases h
    exact ⟨rfl, .inl ⟨gas, out, hcreate, hexec, rfl⟩⟩
  next =>
    obtain ⟨e'', hcatch, h⟩ := Except.bind_eq_ok.mp h
    cases h
    exact ⟨rfl, .inr ⟨rfl, hcatch⟩⟩

theorem transferValue_cases {p : CallParameters} (h : Executive.transferValue env w p e = (w', e')) :
    (p.valueTransfer = 0 ∧ w' = w ∧ e' = e) ∨ p.valueTransfer ≠ 0 ∧ ∃ ret,
      (SleOps.doPayment env w p.senderAddress p.receiveAddress p.valueTransfer = (ret, w') ∧
          p.staticCall = false ∧ SleOps.getSle w p.receiveAddress = none ∨
        SleOps.transferBalance env w p.senderAddress p.receiveAddress p.valueTransfer = (ret, w')) ∧
      (ret = tesSUCCESS ∧ e' = e ∨
        ret ≠ tesSUCCESS ∧ e' = { e.fail ret with output := env.transHuman ret }) := by
  rw [Executive.transferValue] at h
  split at h
  next hzero =>
    cases h
    exact .inl ⟨hzero, rfl, rfl⟩
  next hzero =>
    refine .inr ⟨hzero, ?_⟩
    have finish : ∀ r : TER × World σ,
        (if r.1 ≠ tesSUCCESS then (r.2, { e.fail r.1 with output := env.transHuman r.1 }) else (r.2, e)) =
          (w', e') → r = (r.1, w') ∧ (r.1 = tesSUCCESS ∧ e' = e ∨
            r.1 ≠ tesSUCCESS ∧ e' = { e.fail r.1 with output := env.transHuman r.1 }) := by
      intro r hr
      split at hr
      next hret =>
        cases hr
        exact ⟨rfl, .inr ⟨hret, rfl⟩⟩
      next hret =>
        cases hr
        exact ⟨rfl, .inl ⟨not_not.mp hret, rfl⟩⟩
    by_cases hpay : !p.staticCall ∧ (SleOps.getSle w p.receiveAddress).isNone ∧
        !isPrecompiledOrigin p.receiveAddress ∧ !isPrecompiledDiy p.receiveAddress
    · simp only [if_pos hpay] at h
      obtain ⟨hret, he⟩ := finish _ h
      exact ⟨_, .inl ⟨hret, by simpa using hpay.1, Option.isNone_iff_eq_none.mp hpay.2.1⟩, he⟩
    · simp only [if_neg hpay] at h
      obtain ⟨hret, he⟩ := finish _ h
      exact ⟨_, .inr hret, he⟩

end Rules

end Chainsql.Evm
