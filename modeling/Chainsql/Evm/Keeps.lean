import Chainsql.Evm.Step

/-!
# What is left as it is

`Keeps` says that a world differs from another at most in caches: queries of the host and calls without
value keep the world in this sense. `returns_kept` lifts a relation between the states before and after a
step to whole frames, with all frames that they call.
-/

namespace Chainsql.Evm

open Nested SleOps

variable {σ : Type} {env : Env σ} {ext : Ext} {w w' w'' : World σ}

/-- Only the code that was read and the records of open queries may differ. -/
structure Keeps (w w' : World σ) : Prop where
  view : w'.view = w.view
  other : w'.other = w.other
  dirty : w'.dirty = w.dirty
  logs : w'.logs = w.logs
  subTxs : w'.subTxs = w.subTxs
  bTransaction : w'.bTransaction = w.bTransaction
  sqlTxsNameInDB : w'.sqlTxsNameInDB = w.sqlTxsNameInDB
  sqlTxsStatements : w'.sqlTxsStatements = w.sqlTxsStatements

namespace Keeps

theorem refl (w : World σ) : Keeps w w := ⟨rfl, rfl, rfl, rfl, rfl, rfl, rfl, rfl⟩

end Keeps

theorem code_keeps (w : World σ) (a : AccountID) : Keeps w (code w a).2 := by
  rw [code]
  split
  · exact .refl w
  · split
    · exact .refl w
    · exact ⟨rfl, rfl, rfl, rfl, rfl, rfl, rfl, rfl⟩

theorem getDataHandle_keeps (account owner : AccountID) (tableName raw : Bytes) :
    Keeps w (getDataHandle env w account owner tableName raw).2 := by
  rw [getDataHandle]
  split
  · exact .refl w
  · exact ⟨rfl, rfl, rfl, rfl, rfl, rfl, rfl, rfl⟩

def HostCall.lookedUp : HostCall → Option AccountID
  | .get_code_size addr | .get_code_hash addr | .copy_code addr _ _ _ => some addr
  | _ => none

namespace EvmCHost

theorem withRecord_world {handle : Word} {reply : Records → Reply} {r : Reply}
    (h : withRecord w handle reply = .ok (r, w')) : w' = w := by
  rw [withRecord] at h
  split at h
  · cases h
  · cases h
    rfl

theorem perform_query {call : HostCall} {reply : Reply} (hcall : call.group = .query)
    (h : perform env ext w call = .ok (reply, w')) : Keeps w w' := by
  cases call
  case get_code_size addr =>
    cases h
    show Keeps w (ExtVM.codeSizeAt w addr).2
    rw [ExtVM.codeSizeAt]
    split
    · exact .refl w
    · exact code_keeps w addr
  case get_code_hash addr | copy_code addr _ _ _ =>
    cases h
    exact code_keeps w addr
  case table_get_handle address name raw =>
    cases h
    exact getDataHandle_keeps _ _ _ _
  case table_get_lines | table_get_columns | get_column_by_name | get_column_by_index
    | get_column_len_by_name | get_column_len_by_index =>
    obtain rfl := withRecord_world h
    exact .refl _
  case get_storage | trust_limit | gateway_balance =>
    obtain ⟨_, -, h⟩ := Except.bind_eq_ok.mp h
    cases h
    exact .refl w
  all_goals cases hcall

end EvmCHost

namespace Executive

variable {depth : Nat} {p : CallParameters} {gasPrice : Word} {origin : AccountID} {e : Executive}

/-- The frame of a call, as far as the caller decides about it. -/
structure CallFrame (depth : Nat) (p : CallParameters) (e : Executive) : Prop where
  isCreation_eq : e.isCreation = false
  depth_eq : e.depth = depth
  ext_eq : ∀ inner, e.ext = some inner → inner.myAddress = p.receiveAddress ∧
    inner.staticCall = p.staticCall ∧ inner.depth = depth

theorem ext_of_none {q : Ext → Prop} (h : e.ext = none) (inner : Ext) (hinner : e.ext = some inner) :
    q inner := by
  rw [h] at hinner
  cases hinner

theorem CallFrame.of_none (hcreate : e.isCreation = false) (hdepth : e.depth = depth) (hext : e.ext = none) :
    CallFrame depth p e :=
  ⟨hcreate, hdepth, ext_of_none hext⟩

theorem CallFrame.transferValue {e' : Executive} (he : CallFrame depth p e)
    (h : Executive.transferValue env w p e = (w', e')) : CallFrame depth p e' := by
  rcases transferValue_cases h with ⟨-, -, rfl⟩ | ⟨-, _, -, ⟨-, rfl⟩ | ⟨-, rfl⟩⟩
  · exact he
  · exact he
  · exact .of_none he.isCreation_eq he.depth_eq rfl

/-- The value is transferred after the code has been read, unless there is no contract. -/
theorem callContract_cases (h : callContract env w depth p gasPrice origin = (w', e)) :
    ∃ w₁ e₁, Keeps w w₁ ∧ CallFrame depth p e₁ ∧ e₁.gas = p.gas ∧
      (w' = w₁ ∧ e = e₁ ∧ e.ext = none ∨ Executive.transferValue env w₁ p e₁ = (w', e)) := by
  rw [callContract] at h
  dsimp only at h
  split at h
  · split at h
    · cases h
      exact ⟨_, _, code_keeps w p.codeAddress, .of_none rfl rfl rfl, rfl, .inl ⟨rfl, rfl, rfl⟩⟩
    · refine ⟨_, _, code_keeps w p.codeAddress, ⟨rfl, rfl, fun inner hinner => ?_⟩, rfl, .inr h⟩
      cases hinner
      exact ⟨rfl, rfl, rfl⟩
  · split at h
    · cases h
      exact ⟨_, _, .refl w, .of_none rfl rfl rfl, rfl, .inl ⟨rfl, rfl, rfl⟩⟩
    · exact ⟨_, _, .refl w, .of_none rfl rfl rfl, rfl, .inr h⟩

theorem call_cases (h : call env w depth p gasPrice origin = .ok (w', e)) :
    (callPrecompiled env depth p = .ok e ∧ w' = w) ∨
    (∃ ret, executePreDiy env w p.codeAddress p.data p.senderAddress origin = .ok ret ∧ w' = ret.world ∧
      e = if ret.ter ≠ tesSUCCESS then ({ start depth with gas := p.gas - ret.cost } : Executive).fail ret.ter
        else { start depth with gas := p.gas - ret.cost, output := ret.output }) ∨
    callContract env w depth p gasPrice origin = (w', e) := by
  rw [call] at h
  split_ifs at h
  · obtain ⟨e', hpre, h⟩ := Except.bind_eq_ok.mp h
    cases h
    exact .inl ⟨hpre, rfl⟩
  · obtain ⟨ret, hpre, h⟩ := Except.bind_eq_ok.mp h
    refine .inr (.inl ⟨ret, hpre, ?_⟩)
    split_ifs at h with hter
    · cases h
      exact ⟨rfl, (if_pos hter).symm⟩
    · cases h
      exact ⟨rfl, (if_neg hter).symm⟩
  · exact .inr (.inr (Except.ok.inj h))

theorem callPrecompiled_frame (h : callPrecompiled env depth p = .ok e) :
    CallFrame depth p e ∧ e.ext = none := by
  rw [callPrecompiled] at h
  split_ifs at h
  · cases h
    exact ⟨.of_none rfl rfl rfl, rfl⟩
  · split at h
    · cases h
    · split_ifs at h
      · cases h
        exact ⟨.of_none rfl rfl rfl, rfl⟩
      · cases h
        exact ⟨.of_none rfl rfl rfl, rfl⟩

theorem call_frame (h : call env w depth p gasPrice origin = .ok (w', e)) : CallFrame depth p e := by
  rcases call_cases h with ⟨hpre, -⟩ | ⟨ret, -, -, rfl⟩ | hcall
  · exact (callPrecompiled_frame hpre).1
  · split
    · exact .of_none rfl rfl rfl
    · exact .of_none rfl rfl rfl
  · obtain ⟨w₁, e₁, -, he₁, -, ⟨-, rfl, -⟩ | htransfer⟩ := callContract_cases hcall
    · exact he₁
    · exact he₁.transferValue htransfer

theorem executeCreate_frame {newAddress sender : AccountID} {endowment : Word} {gas : Int} {code : Bytes}
    (h : executeCreate env w depth newAddress sender endowment gasPrice gas code origin = (w', e)) :
    e.depth = depth ∧ ∀ inner, e.ext = some inner → inner.depth = depth := by
  rw [executeCreate] at h
  dsimp only at h
  split_ifs at h
  · cases h
    exact ⟨rfl, ext_of_none rfl⟩
  · cases h
    exact ⟨rfl, ext_of_none rfl⟩
  · cases h
    refine ⟨rfl, fun inner hinner => ?_⟩
    cases hinner
    rfl

/-- Of the precompiled contracts only that of tables works on the world. -/
theorem executePreDiy_world {a caller : AccountID} {data : Bytes} {ret : PreDiyResult σ}
    (ha : a ≠ TABLE_OPERATION_ADDR) (h : executePreDiy env w a data caller origin = .ok ret) :
    ret.world = w := by
  rw [executePreDiy] at h
  split at h
  · cases h
  · cases h
    rfl
  · rw [if_neg ha] at h
    split at h
    · cases h
    · cases h
      rfl

theorem call_keeps (h : call env w depth p gasPrice origin = .ok (w', e))
    (htable : p.codeAddress ≠ TABLE_OPERATION_ADDR) :
    Keeps w w' ∨ ∃ w₁ e₁, Keeps w w₁ ∧ Executive.transferValue env w₁ p e₁ = (w', e) := by
  rcases call_cases h with ⟨-, rfl⟩ | ⟨ret, hpre, rfl, -⟩ | hcall
  · exact .inl (.refl _)
  · rw [executePreDiy_world htable hpre]
    exact .inl (.refl _)
  · obtain ⟨w₁, e₁, hkeeps, -, -, ⟨rfl, -, -⟩ | htransfer⟩ := callContract_cases hcall
    · exact .inl hkeeps
    · exact .inr ⟨w₁, e₁, hkeeps, htransfer⟩

end Executive

/-- A relation between worlds that holds between those before and after whatever the host does to the
ledger, which is by sub-transactions and writes to storage. -/
structure HostRel (env : Env σ) (R : World σ → World σ → Prop) : Prop where
  same : ∀ {w w'}, w'.view = w.view → w'.contractCacheCode = w.contractCacheCode → R w w'
  trans : ∀ {w w' w''}, R w w' → R w' w'' → R w w''
  direct : ∀ w tx, R w (applyDirect env w tx).2
  overlay : ∀ {w a sle} m, getSle w a = some sle → R w (update w a { sle with storageOverlay := m })

namespace HostRel

variable {R : World σ → World σ → Prop} (hR : HostRel env R)
include hR

theorem refl (w : World σ) : R w w := hR.same rfl rfl

theorem addSubTx (tx : SubTx) : R w (SleOps.addSubTx env w tx) := by
  rw [SleOps.addSubTx]
  split <;> exact hR.same rfl rfl

theorem disposeTableTx (tx : TableTx) (newNameInDB : Bool) : R w (disposeTableTx env w tx newNameInDB).2 := by
  have hgen : R w (genTableFields env w (tx.owner.getD tx.account) tx.tableName newNameInDB).2 := by
    rw [genTableFields]
    split
    · split <;> exact hR.same rfl rfl
    · rw [apply_ite Prod.snd, ite_self]
      exact hR.refl w
  rw [SleOps.disposeTableTx]
  split
  next w₁ heq =>
    rw [heq] at hgen
    exact hgen
  next nameInDB w₁ heq =>
    rw [heq] at hgen
    split
    · exact hR.trans hgen (hR.same rfl rfl)
    · exact hR.trans hgen (hR.trans (hR.direct w₁ _) (hR.addSubTx _))

theorem getDataHandle (account owner : AccountID) (tableName raw : Bytes) :
    R w (getDataHandle env w account owner tableName raw).2 := by
  rw [SleOps.getDataHandle]
  split
  · exact hR.refl w
  · exact hR.same rfl rfl

theorem checked {address : AccountID} {operation : Int × World σ} (h : R w operation.2) :
    R w (ExtVM.checked env w address operation).2 := by
  rw [ExtVM.checked]
  split
  · exact hR.refl w
  · exact h

theorem trustSet {account issuer : AccountID} {value currency : Bytes} {result : Int × World σ}
    (h : trustSet env w account value currency issuer = some result) : R w result.2 := by
  rw [SleOps.trustSet] at h
  split_ifs at h
  · cases h
    exact hR.refl w
  · cases h
    exact hR.direct w _

theorem perform {call : HostCall} {reply : Reply} (h : EvmCHost.perform env ext w call = .ok (reply, w'))
    (hcode : call.lookedUp = none) : R w w' := by
  cases call
  case get_code_size | get_code_hash | copy_code => cases hcode
  case emit_log data topics =>
    cases h
    show R w (ExtVM.log env ext w topics data)
    rw [ExtVM.log]
    split <;> exact hR.same rfl rfl
  case db_trans_begin | release_resource =>
    cases h
    exact hR.same rfl rfl
  case table_create | table_rename | table_drop | table_grant =>
    cases h
    exact hR.checked (hR.disposeTableTx _ _)
  case table_insert | table_delete | table_update =>
    cases h
    exact hR.disposeTableTx _ _
  case table_get_handle =>
    cases h
    exact hR.getDataHandle _ _ _ _
  case table_get_lines | table_get_columns | get_column_by_name | get_column_by_index
    | get_column_len_by_name | get_column_len_by_index =>
    obtain rfl := EvmCHost.withRecord_world h
    exact hR.refl _
  case get_storage | trust_limit | gateway_balance =>
    obtain ⟨_, -, h⟩ := Except.bind_eq_ok.mp h
    cases h
    exact hR.refl w
  case db_trans_submit =>
    cases h
    show R w (transactionCommit env w ext.caller).2
    rw [transactionCommit]
    split
    · exact hR.refl w
    · exact hR.trans (hR.direct w _) (hR.trans (hR.addSubTx _) (hR.same rfl rfl))
  case account_set =>
    cases h
    exact hR.checked (hR.direct w _)
  case transfer_fee_set =>
    cases h
    refine hR.checked ?_
    rw [setTransferFee]
    split
    · exact hR.refl w
    · exact hR.direct w _
  case trust_set =>
    rw [EvmCHost.perform] at h
    split at h
    · cases h
      exact hR.refl w
    · obtain ⟨result, hset, h⟩ := Except.bind_eq_ok.mp h
      unfold EvmCHost.noexcept at hset
      split at hset
      · cases hset
      next hresult =>
        cases hset
        cases h
        exact hR.trustSet hresult
  case pay =>
    cases h
    refine hR.checked ?_
    show R w (doGatewayPayment env w _ _ _ _ _ _).2
    rw [doGatewayPayment]
    split_ifs
    · exact hR.refl w
    · exact hR.direct w _
    · exact hR.refl w

theorem setStorage {key value : Word} {status : StorageStatus} {sub sub' : SubState}
    (h : EvmCHost.set_storage env ext w key value sub = .ok (status, w', sub')) :
    R w w' ∧ sub'.selfdestruct = sub.selfdestruct := by
  obtain ⟨old, -, h⟩ := Except.bind_eq_ok.mp h
  split at h
  · cases h
    exact ⟨hR.refl w, rfl⟩
  obtain ⟨w₁, hset, h⟩ := Except.bind_eq_ok.mp h
  have hw₁ : R w w₁ := by
    rw [ExtVM.setStore] at hset
    split at hset
    · cases hset
    next hsle =>
      dsimp only at hset
      split at hset
      · cases hset
        exact hR.same rfl rfl
      · cases hset
        exact hR.overlay _ hsle
  split_ifs at h <;> cases h <;> exact ⟨hw₁, rfl⟩

theorem executePreDiy {a caller origin : AccountID} {data : Bytes} {ret : PreDiyResult σ}
    (h : executePreDiy env w a data caller origin = .ok ret) : R w ret.world := by
  have htable : ∀ (call : TableCall) account, R w (call.perform env w account).2.2 := by
    intro call account
    rw [TableCall.perform]
    split
    · exact hR.refl w
    case h_16 => exact hR.getDataHandle _ _ _ _
    all_goals exact hR.disposeTableTx _ _
  by_cases ha : a = TABLE_OPERATION_ADDR
  · rw [Evm.executePreDiy] at h
    split at h
    · cases h
    · cases h
      exact hR.refl w
    · rw [if_pos ha] at h
      cases h
      exact htable _ _
  · rw [Executive.executePreDiy_world ha h]
    exact hR.refl w

end HostRel

section Runs

variable {R : World σ × SubState → World σ × SubState → Prop} {inv p : Config σ → Prop}

def Kept (R : World σ × SubState → World σ × SubState → Prop) (c : Config σ) : Outcome σ → Prop :=
  OnOk fun ended => R (c.world, c.sub) (ended.world, ended.sub)

def StepKeeps (env : Env σ) (R : World σ × SubState → World σ × SubState → Prop) (inv : Config σ → Prop)
    (c : Config σ) : Prop :=
  (c.step env).wp inv (Kept R)
    (Sum.elim (fun c' => inv c' ∧ R (c.world, c.sub) (c'.world, c'.sub)) (Kept R c))

theorem returns_kept (trans : ∀ s t u, R s t → R t u → R s u)
    (hstep : ∀ c, p c → inv c → StepKeeps env R inv c) {c : Config σ} {r : Outcome σ} (hc : inv c)
    (hp : ∀ d, Visits (Config.step env) c d → p d) (hr : Returns (Config.step env) c r) : Kept R c r := by
  refine hr.of_wp hp hc fun c hpc hinv => (hstep c hpc hinv).imp (fun _ h => h) fun a ha => ?_
  rcases a with c' | r
  · exact ⟨ha.1, fun r hr => hr.imp fun ended hended => trans _ _ _ ha.2 hended⟩
  · exact ha

/-- The frame of a call leaves to its caller the world it ends in and the refunds. -/
theorem runFrame_kept {sub : SubState} {e : Executive} (hcreate : e.isCreation = false)
    (hinv : ∀ inner, e.ext = some inner → inv (.start inner e.gas w)) :
    (runFrame w sub e).wp inv (Kept R) (OnOk fun (w', sub', _) =>
      w' = w ∧ sub' = sub ∨ ∃ s, sub' = sub.add s ∧ R (w, .start) (w', s)) := by
  refine runFrame_wp (fun _ => OnOk.ok.mpr (.inl ⟨rfl, rfl⟩)) fun inner hinner => ?_
  have hworld : e.goWorld w inner = w := by rw [Executive.goWorld, hcreate, if_neg Bool.false_ne_true]
  rw [hworld]
  refine ⟨hinv inner hinner, fun r hr => OnOk.map (OnOk.bind (hr.imp fun ended hended => ?_))⟩
  rintro ⟨w', sub', e'⟩ hend
  obtain ⟨rfl, ⟨_, _, htrue, -⟩ | ⟨rfl, -⟩⟩ := goEnd_ok hend
  · rw [hcreate] at htrue
    cases htrue
  · exact .inr ⟨_, rfl, hended⟩

end Runs

/-- Both worlds show the same ledger: a root is looked up as contracts do. -/
structure SameLedger (w w' : World σ) : Prop where
  roots : ∀ a, getSle w' a = getSle w a
  other : w'.other = w.other
  dirty : w'.dirty = w.dirty
  logs : w'.logs = w.logs

namespace SameLedger

theorem refl (w : World σ) : SameLedger w w := ⟨fun _ => rfl, rfl, rfl, rfl⟩

theorem trans (h : SameLedger w w') (h' : SameLedger w' w'') : SameLedger w w'' where
  roots a := (h'.roots a).trans (h.roots a)
  other := h'.other.trans h.other
  dirty := h'.dirty.trans h.dirty
  logs := h'.logs.trans h.logs

theorem of_keeps (h : Keeps w w') : SameLedger w w' :=
  ⟨fun a => by rw [getSle, getSle, h.view], h.other, h.dirty, h.logs⟩

end SameLedger

theorem transferBalance_self {a : AccountID} {value : Word} {ter : TER} (hle : value.toNat ≤ balance w a)
    (h : transferBalance env w a a value = (ter, w')) : SameLedger w w' := by
  rcases transferBalance_cases h with rfl | ⟨sle, hsle, -, -, rfl⟩
  · exact .refl w'
  have hbalance : balance w a = sle.balance.val := by rw [balance, hsle]
  have hdrops : value.toDrops = value.toNat := toInt64_of_lt (by omega)
  have hrest : ((sle.balance.val : Int) - value.toDrops).toNat = sle.balance.val - value.toNat := by omega
  rw [addBalance, getSle_update_self]
  dsimp only
  rw [hrest]
  split
  · have hback : Drops.of ((Drops.of (sle.balance.val - value.toNat)).val + value.toDrops.toNat) = sle.balance := by
      rw [Drops.val_of (by omega), hdrops, Int.toNat_natCast, Nat.sub_add_cancel (by omega), Drops.of_val]
    refine ⟨fun b => ?_, rfl, rfl, rfl⟩
    rw [hback]
    by_cases hb : b = a
    · rw [hb, getSle_update_self, hsle]
    · rw [getSle_update_ne hb, getSle_update_ne hb]
  · have hback : Drops.of (sle.balance.val - value.toNat) = sle.balance := by
      rw [show sle.balance.val - value.toNat = sle.balance.val by omega, Drops.of_val]
    refine ⟨fun b => ?_, rfl, rfl, rfl⟩
    rw [hback]
    by_cases hb : b = a
    · rw [hb, getSle_update_self, hsle]
    · rw [getSle_update_ne hb]

theorem perform_session {call : HostCall} {reply : Reply} {ext : Ext} (hcall : call.group = .session)
    (h : EvmCHost.perform env ext w call = .ok (reply, w')) : SameLedger w w' := by
  cases call
  case db_trans_begin | release_resource =>
    cases h
    exact ⟨fun _ => rfl, rfl, rfl, rfl⟩
  all_goals cases hcall

/-- The action leaves the ledger as it is. A call may only move value back to where it comes from. -/
def Action.Quiet (ext : Ext) : Action → Prop
  | .next | .jump | .halt _ | .revert _ | .revertDiy _ => True
  | .selfdestruct _ | .setStorage _ _ | .create _ => False
  | .host hostCall => hostCall.group = .query ∨ hostCall.group = .session
  | .call msg _ _ =>
    (EvmCHost.callParameters ext msg).codeAddress ≠ TABLE_OPERATION_ADDR ∧
      ((EvmCHost.callParameters ext msg).valueTransfer = 0 ∨
        (EvmCHost.callParameters ext msg).senderAddress = (EvmCHost.callParameters ext msg).receiveAddress)

instance (ext : Ext) : (action : Action) → Decidable (action.Quiet ext)
  | .next | .jump | .halt _ | .revert _ | .revertDiy _ => .isTrue trivial
  | .selfdestruct _ | .setStorage _ _ | .create _ => .isFalse id
  | .host hostCall => inferInstanceAs (Decidable (hostCall.group = .query ∨ hostCall.group = .session))
  | .call _ _ _ => inferInstanceAs (Decidable (_ ∧ _))

def Quiet (env : Env σ) (c : Config σ) : Prop := ∀ action ∈ c.action env, action.Quiet c.ext

instance (c : Config σ) : Decidable (Quiet env c) :=
  inferInstanceAs (Decidable (∀ action ∈ c.action env, action.Quiet c.ext))

/-- The states of a frame before and after, with the ledger and the sub-state as they were. -/
def Unchanged (s t : World σ × SubState) : Prop := SameLedger s.1 t.1 ∧ t.2 = s.2

theorem Unchanged.trans (s t u : World σ × SubState) (h : Unchanged s t) (h' : Unchanged t u) :
    Unchanged s u :=
  ⟨h.1.trans h'.1, h'.2.trans h.2⟩

variable {c : Config σ}

variable {msg : Message} {outOffset outSize : Nat} {vm : VM}

/-- A call that transfers value takes it from the contract, which has it. -/
theorem call_value (h : (interpretCases env c.ext c.world).run c.vm = .ok (.call msg outOffset outSize, vm))
    (hne : (EvmCHost.callParameters c.ext msg).valueTransfer ≠ 0) :
    (EvmCHost.callParameters c.ext msg).senderAddress = c.ext.myAddress ∧
      (EvmCHost.callParameters c.ext msg).valueTransfer.toNat ≤ balance c.world c.ext.myAddress := by
  obtain ⟨vm₂, rfl, hgroup, -, hvalue, -⟩ := interpret_call h
  generalize c.opcode = op at hgroup hvalue hne
  cases op
  case CALL | CALLCODE => exact ⟨rfl, hvalue rfl⟩
  case DELEGATECALL | STATICCALL => exact absurd rfl hne
  all_goals cases hgroup

theorem call_quiet {e : Executive}
    (h : (interpretCases env c.ext c.world).run c.vm = .ok (.call msg outOffset outSize, vm))
    (hquiet : (Action.call msg outOffset outSize).Quiet c.ext)
    (he : Executive.call env c.world (c.ext.depth + 1) (EvmCHost.callParameters c.ext msg) c.ext.gasPrice c.ext.origin
      = .ok (w, e)) :
    SameLedger c.world w := by
  rcases Executive.call_keeps he hquiet.1 with hkeeps | ⟨w₁, e₁, hkeeps, htransfer⟩
  · exact .of_keeps hkeeps
  refine (SameLedger.of_keeps hkeeps).trans ?_
  rcases transferValue_cases htransfer with ⟨-, rfl, -⟩ | ⟨hne, ret, hpay, -⟩
  · exact .refl _
  obtain ⟨hsender, hle⟩ := call_value h hne
  have hself := hquiet.2.resolve_left hne
  have hbalance : balance w₁ c.ext.myAddress = balance c.world c.ext.myAddress := by
    rw [balance, balance, getSle, getSle, hkeeps.view]
  rw [← hself, hsender] at hpay
  rcases hpay with ⟨-, -, hnone⟩ | hpay
  · -- the account that pays exists, since it has what it pays
    have hzero : balance w₁ c.ext.myAddress = 0 := by rw [balance, hnone]
    have hvalue := Nat.eq_zero_of_le_zero (hzero ▸ hbalance ▸ hle)
    exact absurd (BitVec.eq_of_toNat_eq hvalue) hne
  · exact transferBalance_self (by omega) hpay

/-- A quiet step keeps the ledger and the sub-state if all frames that it calls do. -/
theorem step_quiet (inv : Ext → Prop) (hquiet : Quiet env c) (hc : inv c.ext)
    (hcall : ∀ {msg outOffset outSize vm},
      (interpretCases env c.ext c.world).run c.vm = .ok (.call msg outOffset outSize, vm) →
        ∀ inner : Ext, inner.staticCall = (EvmCHost.callParameters c.ext msg).staticCall → inv inner) :
    StepKeeps env Unchanged (fun c => inv c.ext) c := by
  refine step_wp (fun fault _ => ?_) fun action vm hrun => ?_
  · rw [Config.throw]
    split
    · exact OnOk.error
    · exact OnOk.ok.mpr ⟨.refl _, rfl⟩
  have haction := hquiet action (Config.action_eq hrun)
  cases action with
  | next | jump => exact ⟨hc, .refl _, rfl⟩
  | halt output | revert output | revertDiy output => exact OnOk.ok.mpr ⟨.refl _, rfl⟩
  | selfdestruct beneficiary | setStorage key value | create msg => exact haction.elim
  | host hostCall =>
    show Sum.elim _ _ (c.host env vm hostCall)
    rw [Config.host]
    split
    · exact OnOk.error
    next reply world hperform =>
      refine ⟨hc, ?_, rfl⟩
      rcases haction with hgroup | hgroup
      · exact .of_keeps (EvmCHost.perform_query hgroup hperform)
      · exact perform_session hgroup hperform
  | call msg outOffset outSize =>
    refine act_call_wp (fun _ => OnOk.error) fun w e he => ?_
    have hframe := Executive.call_frame he
    have hsame := call_quiet hrun haction he
    have hinner : ∀ inner, e.ext = some inner → inv (Config.start inner e.gas w).ext :=
      fun inner hinner => hcall hrun inner (hframe.ext_eq inner hinner).2.1
    refine (runFrame_kept hframe.isCreation_eq hinner).imp (fun _ h => h) fun r hr => hr.imp ?_
    rintro ⟨w', sub, e'⟩ (⟨rfl, rfl⟩ | ⟨s, rfl, hrel, rfl⟩)
    · exact ⟨hc, hsame, rfl⟩
    · exact ⟨hc, hsame.trans hrel, c.sub.add_start⟩

end Chainsql.Evm
