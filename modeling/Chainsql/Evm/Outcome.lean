import Chainsql.Evm.Gas

/-!
# Every run ends in a result

The status codes that `VMC::exec` passes on as an internal error, and the functions of the host that throw
or read what is not there, end the process. `Safe` excludes them instruction by instruction. A run that is
safe ends, since gas falls or the frame moves on in its code, and `go` has a result for each of its ends.
-/

namespace Chainsql.Evm

open Nested SleOps Exec Executive

variable {σ : Type} {env : Env σ} {ext : Ext} {w w' : World σ}

/-- What a function of the host reads is there, and what it calls returns. -/
def HostCall.Served (env : Env σ) (ext : Ext) (w : World σ) : HostCall → Prop
  | .get_storage _ => (getSle w ext.myAddress).isSome
  | .table_get_lines handle | .table_get_columns handle | .get_column_by_name handle _ _ _ _
  | .get_column_by_index handle _ _ _ _ | .get_column_len_by_name handle _ _
  | .get_column_len_by_index handle _ _ => (getRecord w handle).isSome
  | .trust_set _ value currency _ => env.toCurrency currency → env.amountFromString currency value
  | .trust_limit address currency power gateWay => (env.trustLimit address gateWay currency power).isSome
  | .gateway_balance address currency power gateWay =>
    (env.gatewayBalance address gateWay currency power).isSome
  | _ => True

/-- The precompiled contract that is called, if it is one, returns. -/
def CallServed (env : Env σ) (p : CallParameters) : Prop :=
  (isPrecompiledOrigin p.codeAddress → p.gas < costOfPrecompiled env p.codeAddress p.data ∨
      (env.executePrecompiled p.codeAddress p.data).isSome) ∧
    (isPrecompiledDiy p.codeAddress → 4 ≤ p.data.length) ∧
    (p.codeAddress = TOOLS_PRE_ADDR → getParamFunc p.data = some 0 ∨ (env.executeTools p.data).isSome)

def Action.Safe (env : Env σ) (c : Config σ) : Action → Prop
  | .revert output => c.ext.depth = 1 → (Executive.formatOutput output).isSome
  | .selfdestruct beneficiary =>
    (getSle c.world c.ext.myAddress).isSome ∧ (getSle c.world beneficiary).isSome
  | .setStorage _ _ => (getSle c.world c.ext.myAddress).isSome
  | .host hostCall => hostCall.Served env c.ext c.world
  | .call msg _ _ => CallServed env (EvmCHost.callParameters c.ext msg)
  | .create msg => msg.kind = .EVMC_CREATE → c.ext.depth ≠ 0 →
    (Executive.freeAddress env c.world c.ext.myAddress (2 ^ 32) (getSequence c.world c.ext.myAddress)).isSome
  | _ => True

/-- The next instruction is defined where the frame is, and what it needs from the host is there. -/
def Safe (env : Env σ) (c : Config σ) : Prop :=
  c.opcode.Defined { c.vm with sp := c.vm.spp } ∧ ∀ action ∈ c.action env, action.Safe env c

/-- The frame has ended in a way for which `go` has a result. -/
def Halt.Proper (depth : Nat) (halt : Halt) : Prop :=
  halt.statusCode ≠ .EVMC_INVALID_MEMORY_ACCESS ∧ halt.statusCode ≠ .EVMC_INTERNAL_ERROR ∧
    (halt.statusCode = .EVMC_REVERT → depth = 1 → (Executive.formatOutput halt.output).isSome)

theorem Halt.proper_of_status {depth : Nat} {status : StatusCode} {gas : Int} {output : Bytes}
    (h : status ∉ [StatusCode.EVMC_INVALID_MEMORY_ACCESS, .EVMC_INTERNAL_ERROR, .EVMC_REVERT]) :
    (⟨status, gas, output⟩ : Halt).Proper depth := by
  simp only [List.mem_cons, List.not_mem_nil, or_false, not_or] at h
  exact ⟨h.1, h.2.1, fun hrevert => absurd hrevert h.2.2⟩

/-- The frame does not crash, and if it has destroyed its contract then that is still there. -/
def Config.Ends (c : Config σ) (r : Outcome σ) : Prop :=
  ∃ ended, r = .ok ended ∧ ended.halt.Proper c.ext.depth ∧
    (ended.sub.selfdestruct = [] ∨ ∃ a, ended.sub.selfdestruct = [a] ∧ (getSle ended.world a).isSome)

section Host

theorem perform_served {call : HostCall} (h : call.Served env ext w) :
    ∃ reply w', EvmCHost.perform env ext w call = .ok (reply, w') := by
  cases call
  case get_storage key =>
    obtain ⟨sle, hsle⟩ := Option.isSome_iff_exists.mp h
    refine ⟨.word (ExtVM.slot env w ext.myAddress sle key), w, ?_⟩
    rw [EvmCHost.perform, ExtVM.store, hsle]
    rfl
  case table_get_lines handle | table_get_columns handle | get_column_by_name handle _ _ _ _
    | get_column_by_index handle _ _ _ _ | get_column_len_by_name handle _ _
    | get_column_len_by_index handle _ _ =>
    obtain ⟨records, hrecords⟩ := Option.isSome_iff_exists.mp h
    rw [EvmCHost.perform, EvmCHost.withRecord, hrecords]
    exact ⟨_, _, rfl⟩
  case trust_set address value currency gateWay =>
    rw [EvmCHost.perform]
    split
    · exact ⟨_, _, rfl⟩
    · rw [trustSet]
      split
      · exact ⟨_, _, rfl⟩
      next hcurrency =>
        have hamount := h (by simpa using hcurrency)
        rw [if_neg (by simpa using hamount)]
        exact ⟨_, _, rfl⟩
  case trust_limit address currency power gateWay =>
    obtain ⟨limit, hlimit⟩ := Option.isSome_iff_exists.mp h
    rw [EvmCHost.perform, hlimit]
    exact ⟨_, _, rfl⟩
  case gateway_balance address currency power gateWay =>
    obtain ⟨balance, hbalance⟩ := Option.isSome_iff_exists.mp h
    rw [EvmCHost.perform, hbalance]
    exact ⟨_, _, rfl⟩
  all_goals exact ⟨_, _, rfl⟩

theorem set_storage_served (env : Env σ) (key value : Word) (sub : SubState)
    (h : (getSle w ext.myAddress).isSome) :
    ∃ status w' sub', EvmCHost.set_storage env ext w key value sub = .ok (status, w', sub') ∧
      sub'.selfdestruct = sub.selfdestruct := by
  obtain ⟨sle, hsle⟩ := Option.isSome_iff_exists.mp h
  obtain ⟨w₁, hset⟩ : ∃ w₁, ExtVM.setStore env ext w key value = .ok w₁ := by
    rw [ExtVM.setStore, hsle]
    dsimp only
    split
    · exact ⟨_, rfl⟩
    · exact ⟨_, rfl⟩
  have hstore : ExtVM.store env ext w key = .ok (ExtVM.slot env w ext.myAddress sle key) := by
    rw [ExtVM.store, hsle]
  rw [EvmCHost.set_storage, hstore, hset]
  simp only [bind, Except.bind, pure, Except.pure]
  split_ifs
  all_goals exact ⟨_, _, _, rfl, rfl⟩

variable {origin : AccountID}

theorem executePreDiy_served {a caller : AccountID} {data : Bytes} (hdata : 4 ≤ data.length)
    (htools : a = TOOLS_PRE_ADDR → getParamFunc data = some 0 ∨ (env.executeTools data).isSome)
    (ha : isPrecompiledDiy a = true) : ∃ ret, executePreDiy env w a data caller origin = .ok ret := by
  have hselector : getParamFunc data = some (Word.ofBytes (data.take 4)).toNat := by
    rw [getParamFunc, if_neg (by omega)]
  rw [executePreDiy]
  split
  next hnone =>
    rw [hselector] at hnone
    cases hnone
  · exact ⟨_, rfl⟩
  next n hn hne =>
    split
    · exact ⟨_, rfl⟩
    next htable =>
      have haddr : a = TOOLS_PRE_ADDR := (of_decide_eq_true ha).resolve_left htable
      have hreturns := (htools haddr).resolve_left fun h0 => by
        rw [hne] at h0
        exact hn (Option.some.inj h0)
      obtain ⟨output, houtput⟩ := Option.isSome_iff_exists.mp hreturns
      rw [houtput]
      exact ⟨_, rfl⟩

theorem call_served {depth : Nat} {p : CallParameters} {gasPrice : Word} (h : CallServed env p) :
    ∃ w' e, Executive.call env w depth p gasPrice origin = .ok (w', e) := by
  obtain ⟨horigin, hdiy, htools⟩ := h
  rw [call]
  split
  next hpre =>
    rw [callPrecompiled]
    split
    · exact ⟨_, _, rfl⟩
    next hgas =>
      obtain ⟨r, hr⟩ := Option.isSome_iff_exists.mp ((horigin hpre).resolve_left hgas)
      rw [hr]
      dsimp only
      split
      · exact ⟨_, _, rfl⟩
      · exact ⟨_, _, rfl⟩
  next =>
    split
    next hpre =>
      obtain ⟨ret, hret⟩ := executePreDiy_served (w := w) (hdiy hpre) htools hpre
      rw [callPreDiy, hret]
      simp only [bind, Except.bind, pure, Except.pure]
      split
      · exact ⟨_, _, rfl⟩
      · exact ⟨_, _, rfl⟩
    next => exact ⟨_, _, rfl⟩

end Host

section Frames

variable {e : Executive} {a b : AccountID} {vm : VM} {fault : Fault}

theorem goEnd_returns (ext : Ext) {ended : Ended σ} (h : ended.halt.Proper e.depth) :
    ∃ w' e', e.goEnd ext ended = .ok (w', ended.sub, e') ∧
      (w' = ended.world ∨ ∃ out, w' = setCode ended.world ext.myAddress out) := by
  obtain ⟨hmemory, hinternal, hrevert⟩ := h
  obtain ⟨w₁, sub, halt⟩ := ended
  obtain ⟨status, gas, output⟩ := halt
  obtain ⟨e', he'⟩ : ∃ e', e.catchResult (VMC.exec ⟨status, gas, output⟩) = .ok e' := by
    cases status
    case EVMC_REVERT =>
      show ∃ e', e.catchResult (.RevertInstruction gas output) = .ok e'
      rw [catchResult]
      split
      next hdepth =>
        obtain ⟨text, htext : formatOutput output = some text⟩ :=
          Option.isSome_iff_exists.mp (hrevert rfl hdepth)
        rw [htext]
        exact ⟨_, rfl⟩
      · exact ⟨_, rfl⟩
    case EVMC_INVALID_MEMORY_ACCESS => exact absurd rfl hmemory
    case EVMC_INTERNAL_ERROR => exact absurd rfl hinternal
    all_goals exact ⟨_, rfl⟩
  rw [goEnd]
  split
  next left out _ hexec =>
    rcases hdeposit : depositCode w₁ ext e left out with ⟨w₂, e₂⟩
    refine ⟨w₂, e₂, rfl, ?_⟩
    exact (depositCode_world hdeposit).symm.imp_right fun hcode => ⟨out, hcode⟩
  next =>
    refine ⟨w₁, e', ?_, .inl rfl⟩
    show (do return (w₁, sub, ← e.catchResult (VMC.exec ⟨status, gas, output⟩)) : Except Crash _) = _
    rw [he']
    rfl

theorem peek_isSome {v : View} : (v.peek b).isSome ↔ b ∈ v.cached ∨ b ∈ v.roots := by
  rw [View.peek, Option.isSome_or, Bool.or_eq_true, AList.lookup_isSome, AList.lookup_isSome]

theorem poke_isSome {v : View} {sle : AccountRoot} (h : (v.peek b).isSome) : ((v.poke a sle).peek b).isSome := by
  rw [peek_isSome] at h ⊢
  rw [View.poke]
  split
  · exact h.imp_right fun hroot => (AList.mem_insert _).mpr (.inr hroot)
  · exact h.imp_left fun hcached => (AList.mem_insert _).mpr (.inr hcached)

theorem setCode_isSome {code : Bytes} (h : (getSle w b).isSome) : (getSle (setCode w a code) b).isSome := by
  rw [setCode]
  split
  · exact poke_isSome h
  · exact h

/-- The code runs at the depth of its `Executive`. -/
def Executive.Level (e : Executive) : Prop := ∀ inner, e.ext = some inner → e.depth = inner.depth

theorem Executive.CallFrame.level {depth : Nat} {p : CallParameters} (h : CallFrame depth p e) : e.Level :=
  fun inner hinner => h.depth_eq.trans (h.ext_eq inner hinner).2.2.symm

theorem executeCreate_level {depth : Nat} {newAddress sender origin : AccountID} {endowment gasPrice : Word}
    {gas : Int} {code : Bytes} (w : World σ) :
    (Executive.executeCreate env w depth newAddress sender endowment gasPrice gas code origin).2.Level := by
  have hframe := executeCreate_frame (e := (executeCreate env w depth newAddress sender
    endowment gasPrice gas code origin).2) rfl
  exact fun inner hinner => hframe.1.trans (hframe.2 inner hinner).symm

theorem runFrame_returns {sub : SubState} (hdepth : e.Level) :
    (runFrame w sub e).wp (fun c => c.sub.selfdestruct = []) Config.Ends fun r =>
      ∃ w' sub' e', r = .ok (w', sub', e') ∧ sub'.selfdestruct = sub.selfdestruct := by
  refine runFrame_wp (fun _ => ⟨_, _, _, rfl, rfl⟩) fun inner hinner => ⟨rfl, ?_⟩
  rintro r ⟨ended, rfl, hproper, -⟩
  have hproper : ended.halt.Proper e.depth := (hdepth inner hinner).symm ▸ hproper
  obtain ⟨w', e', hend, -⟩ := goEnd_returns inner hproper
  refine ⟨w', sub.add ended.sub, e', ?_, rfl⟩
  show (e.goEnd inner ended).map _ = _
  rw [hend]
  rfl

variable {c : Config σ}

theorem create_served {msg : Message} (h : (Action.create msg).Safe env c) : ∃ w e,
    (if msg.kind = .EVMC_CREATE then
        Executive.createOpcode env c.world (c.ext.depth + 1) c.ext.myAddress msg.value c.ext.gasPrice msg.gas
          msg.inputData c.ext.origin
      else
        .ok (Executive.create2Opcode env c.world (c.ext.depth + 1) c.ext.myAddress msg.value c.ext.gasPrice
          msg.gas msg.inputData c.ext.origin msg.create2Salt)) = .ok (w, e) ∧
      e.Level := by
  split
  next hkind =>
    rw [createOpcode]
    split
    next hone => exact ⟨_, _, rfl, executeCreate_level c.world⟩
    next hone =>
      obtain ⟨newAddress, hfree⟩ := Option.isSome_iff_exists.mp (h hkind (by omega))
      rw [hfree]
      exact ⟨_, _, rfl, executeCreate_level c.world⟩
  next => exact ⟨_, _, rfl, executeCreate_level c.world⟩

theorem defined_fetched {op : Instruction} (hfetch : (fetchInstruction c.ext).run c.vm = .ok (op, vm))
    (h : c.opcode.Defined { c.vm with sp := c.vm.spp }) : op.Defined vm := by
  obtain ⟨hop, -, rfl⟩ := fetch_ok hfetch
  have hop : c.opcode = op := hop.symm
  rw [hop] at h
  cases op <;> exact h

theorem interpret_mild (h : c.opcode.Defined { c.vm with sp := c.vm.spp })
    (hrun : (interpretCases env c.ext c.world).run c.vm = .error fault) : fault.Mild := by
  rcases interpret_error hrun with hfetch | ⟨op, vm₁, hfetch, hmeter⟩
  · exact fetch_mild hfetch
  · exact meter_mild (defined_fetched hfetch h) hmeter

variable (hsub : c.sub.selfdestruct = [])
include hsub

theorem throw_ends (h : fault.Mild) : ∃ r, c.throw fault = .inr r ∧ c.Ends r := by
  obtain ⟨hoverrun, hundefined⟩ := h
  refine ⟨_, by rw [Config.throw, if_neg hundefined]; rfl, _, rfl, ?_, .inl hsub⟩
  cases fault
  case BufferOverrun => exact absurd rfl hoverrun
  case undefined => exact absurd rfl hundefined
  all_goals exact Halt.proper_of_status (by decide)

theorem selfdestruct_ends (vm : VM) {beneficiary : AccountID} (h : (Action.selfdestruct beneficiary).Safe env c) :
    ∃ r, c.selfdestruct vm beneficiary = .inr r ∧ c.Ends r := by
  obtain ⟨sle, hsle⟩ := Option.isSome_iff_exists.mp h.1
  obtain ⟨sleTo, hto⟩ := Option.isSome_iff_exists.mp h.2
  rw [Config.selfdestruct, ExtVM.selfdestruct, hsle, hto]
  refine ⟨_, rfl, _, rfl, Halt.proper_of_status (by decide), .inr ⟨c.ext.myAddress, ?_, poke_isSome h.1⟩⟩
  show c.sub.selfdestruct.insert c.ext.myAddress = [c.ext.myAddress]
  rw [hsub]
  rfl

theorem setStorage_ends {key value : Word} (h : (getSle c.world c.ext.myAddress).isSome) :
    Sum.elim (fun c' => c'.sub.selfdestruct = [] ∧ c'.ext = c.ext) c.Ends (c.setStorage env vm key value) := by
  obtain ⟨status, world, sub, hset, hsame⟩ := set_storage_served env key value c.sub h
  rw [Config.setStorage, hset]
  dsimp only
  split
  next fault hcharge =>
    have hmild : fault.Mild :=
      (Ensures.bind (ensures_setRunGas _) fun _ => ensures_updateIOGas).err hcharge trivial
    obtain ⟨r, hr, hends⟩ := throw_ends (c := { c with world, sub }) (hsame.trans hsub) hmild
    rw [hr]
    exact hends
  next => exact ⟨hsame.trans hsub, rfl⟩

theorem hostFrame_ends {result : Executive → EvmcResult} {vm : EvmcResult → VM}
    (hdepth : e.Level) :
    ((hostFrame c.sub result (.ok (w, e))).map (c.resume vm)).wp (fun c => c.sub.selfdestruct = [])
      Config.Ends (Sum.elim (fun c' => c'.sub.selfdestruct = [] ∧ c'.ext = c.ext) c.Ends) := by
  refine Ask.wp_map.mpr (Ask.wp_map.mpr ((runFrame_returns hdepth).imp (fun _ h => h) ?_))
  rintro _ ⟨w', sub', e', rfl, hsame⟩
  exact ⟨hsame.trans hsub, rfl⟩

theorem step_ends (hsafe : Safe env c) :
    (c.step env).wp (fun c => c.sub.selfdestruct = []) Config.Ends
      (Sum.elim (fun c' => c'.sub.selfdestruct = [] ∧ c'.ext = c.ext) c.Ends) := by
  have stops : ∀ halt : Halt, halt.Proper c.ext.depth → c.Ends (.ok ⟨c.world, c.sub, halt⟩) :=
    fun halt hproper => ⟨_, rfl, hproper, .inl hsub⟩
  refine step_wp (fun fault hrun => ?_) fun action vm hrun => ?_
  · obtain ⟨r, hr, hends⟩ := throw_ends hsub (interpret_mild hsafe.1 hrun)
    rw [hr]
    exact hends
  have haction := hsafe.2 action (Config.action_eq hrun)
  cases action with
  | next | jump => exact ⟨hsub, rfl⟩
  | halt output | revertDiy output => exact stops _ (Halt.proper_of_status (by decide))
  | revert output => exact stops _ ⟨by rintro ⟨⟩, by rintro ⟨⟩, fun _ => haction⟩
  | selfdestruct beneficiary =>
    obtain ⟨r, hr, hends⟩ := selfdestruct_ends hsub vm haction
    show Sum.elim _ _ (c.selfdestruct vm beneficiary)
    rw [hr]
    exact hends
  | setStorage key value => exact setStorage_ends hsub haction
  | host hostCall =>
    obtain ⟨reply, world, hperform⟩ := perform_served haction
    show Sum.elim _ _ (c.host env vm hostCall)
    rw [Config.host, hperform]
    exact ⟨hsub, rfl⟩
  | call msg outOffset outSize =>
    obtain ⟨w, e, he⟩ := call_served haction
    show ((hostFrame c.sub EvmCHost.callResult (call env c.world (c.ext.depth + 1)
      (EvmCHost.callParameters c.ext msg) c.ext.gasPrice c.ext.origin)).map _).wp _ _ _
    rw [he]
    exact hostFrame_ends hsub (call_frame he).level
  | create msg =>
    obtain ⟨w, e, he, hdepth⟩ := create_served haction
    show ((hostFrame c.sub EvmCHost.createResult _).map _).wp _ _ _
    rw [he]
    exact hostFrame_ends hsub hdepth

end Frames

section Termination

variable {c : Config σ}

variable {op : Instruction} {vm : VM}

theorem effect_pc (h : (effect env ext w op vm).1 ≠ .jump) : (effect env ext w op vm).2.pc = vm.pc := by
  cases op
  case JUMP | JUMPI | PUSH => exact absurd rfl h
  case CREATE | CREATE2 =>
    rw [effect, effectCreate]
    split <;> rfl
  case CALL | CALLCODE | DELEGATECALL | STATICCALL =>
    rw [effect, effectCall]
    split
    · rfl
    · split <;> rfl
  all_goals rfl

/-- A jump costs gas, and a push goes on after its data. -/
theorem effect_jump {s vm' : VM} (hrun : s.runGas = op.metrics.gasCost)
    (hmeter : (meter env ext w op s).run s = .ok ((), vm)) (h : effect env ext w op vm = (.jump, vm')) :
    s.pc < vm'.pc ∨ vm'.ioGas < s.ioGas := by
  have paid : ∀ {m : Exec Unit}, 0 < s.runGas → (do updateIOGas; m : Exec Unit).run s = .ok ((), vm) →
      (∀ {s' t : VM}, m.run s' = .ok ((), t) → t = s') → vm.ioGas < s.ioGas := by
    intro m hpos hm hkeep
    obtain ⟨_, s', hio, hrest⟩ := run_bind_ok.mp hm
    obtain ⟨hle, rfl⟩ := updateIOGas_ok hio
    rw [hkeep hrest]
    show s.ioGas - s.runGas < s.ioGas
    omega
  have hdoes : op.group.Does vm (effect env ext w op vm).2 (effect env ext w op vm).1 := effect_does op vm
  have hgroup : op.group = .control := by
    rw [h] at hdoes
    exact hdoes.group_eq rfl
  cases op
  case JUMP | JUMPI =>
    right
    have hgas : vm'.ioGas = vm.ioGas := by
      rw [h] at hdoes
      exact hdoes.2
    rw [hgas]
    exact paid (by rw [hrun]; decide) hmeter fun hthrow => (throwIf_ok.mp hthrow).2
  case PUSH bytes =>
    left
    cases h
    rw [← (meter_ok hmeter).pc_eq]
    show vm.pc < vm.pc + bytes + 1
    omega
  all_goals cases hgroup

theorem opcode_of_le (h : c.ext.code.length ≤ c.vm.pc) : c.opcode = .STOP := by
  rw [Config.opcode, List.getD_eq_getElem?_getD, List.getElem?_eq_none h]
  rfl

/-- The frame goes on with the instruction behind, if it goes on. -/
def Action.Onward : Action → Prop
  | .jump | .halt _ => False
  | _ => True

theorem interpret_moves {action : Action} (h : (interpretCases env c.ext c.world).run c.vm = .ok (action, vm)) :
    (action = .jump → c.vm.pc < c.ext.code.length ∧ (c.vm.pc < vm.pc ∨ vm.ioGas < c.vm.ioGas)) ∧
      (action.Onward → c.vm.pc < c.ext.code.length ∧ vm.pc = c.vm.pc) := by
  obtain ⟨op, vm₁, vm₂, hfetch, hmeter, heffect⟩ := interpret_ok.mp h
  obtain ⟨hop, -, hvm₁⟩ := fetch_ok hfetch
  have hpc₁ : vm₁.pc = c.vm.pc := by rw [hvm₁]
  have hgas₁ : vm₁.ioGas = c.vm.ioGas := by rw [hvm₁]
  have hlen : (∀ output, action ≠ .halt output) → c.vm.pc < c.ext.code.length := by
    intro hhalt
    by_contra hlen
    have hstop : op = .STOP := hop.trans (opcode_of_le (Nat.le_of_not_lt hlen))
    rw [hstop] at heffect
    cases heffect
    exact hhalt [] rfl
  constructor
  · rintro rfl
    refine ⟨hlen (by rintro _ ⟨⟩), ?_⟩
    have hmoves := effect_jump (by rw [hvm₁]) hmeter heffect
    rwa [hpc₁, hgas₁] at hmoves
  · intro honward
    have hpc : (effect env c.ext c.world op vm₂).2.pc = vm₂.pc := by
      refine effect_pc ?_
      rw [heffect]
      rintro rfl
      exact honward
    rw [heffect] at hpc
    refine ⟨hlen ?_, by rw [hpc, (meter_ok hmeter).pc_eq, hpc₁]⟩
    rintro _ rfl
    exact honward

/-- The frame goes on in its code, or it has spent gas. -/
def Config.Moves (c c' : Config σ) : Prop :=
  c'.ext = c.ext ∧ c.vm.pc < c.ext.code.length ∧ (c.vm.pc < c'.vm.pc ∨ c'.vm.ioGas < c.vm.ioGas)

theorem resume_pc (vm : VM) (reply : Reply) : (vm.resume reply).pc = vm.pc := by
  cases reply <;> rfl

theorem step_moves (c : Config σ) :
    (c.step env).wp (fun _ => True) (fun _ _ => True) (Sum.elim c.Moves fun _ => True) := by
  refine step_wp (fun fault _ => ?_) fun action vm hrun => ?_
  · rw [Config.throw]
    split <;> trivial
  obtain ⟨hjump, honward⟩ := interpret_moves hrun
  -- the frame goes on after an instruction that has not jumped
  have goes : ∀ {c' : Config σ}, action.Onward → c'.ext = c.ext → c'.vm.pc = vm.pc + 1 → c.Moves c' := by
    intro c' haction hext hpc'
    obtain ⟨hlen, hpc⟩ := honward haction
    refine ⟨hext, hlen, .inl ?_⟩
    rw [hpc', hpc]
    exact Nat.lt_succ_self _
  cases action with
  | next => exact goes trivial rfl rfl
  | jump => exact ⟨rfl, hjump rfl⟩
  | halt output | revert output | revertDiy output => trivial
  | selfdestruct beneficiary =>
    show Sum.elim _ _ (c.selfdestruct vm beneficiary)
    rw [Config.selfdestruct]
    split <;> trivial
  | setStorage key value =>
    show Sum.elim _ _ (c.setStorage env vm key value)
    rw [Config.setStorage]
    split
    · trivial
    · split
      · rw [Config.throw]
        split <;> trivial
      next hcharge =>
        obtain ⟨_, _, hset, hio⟩ := run_bind_ok.mp hcharge
        cases hset
        obtain ⟨-, rfl⟩ := updateIOGas_ok hio
        exact goes trivial rfl rfl
  | host hostCall =>
    show Sum.elim _ _ (c.host env vm hostCall)
    rw [Config.host]
    split
    · trivial
    next reply world _ => exact goes trivial rfl (congrArg (· + 1) (resume_pc vm reply))
  | call msg outOffset outSize =>
    refine act_call_wp (fun _ => trivial) fun w e _ => ?_
    refine runFrame_wp (fun _ => OnOk.ok.mpr (goes trivial rfl rfl)) fun _ _ => ⟨trivial, fun r _ => ?_⟩
    rintro ⟨w', sub', e'⟩ -
    exact goes trivial rfl rfl
  | create msg =>
    refine act_create_wp (fun _ => trivial) fun _ w e _ _ => ?_
    refine runFrame_wp (fun _ => OnOk.ok.mpr (goes trivial rfl rfl)) fun _ _ => ⟨trivial, fun r _ => ?_⟩
    rintro ⟨w', sub', e'⟩ -
    exact goes trivial rfl rfl

/-- An inner frame has no more gas than the frame that calls it, and is deeper. -/
def Config.Below (c inner : Config σ) : Prop :=
  inner.vm.ioGas ≤ c.vm.ioGas ∧ inner.ext.depth = c.ext.depth + 1 ∧ c.ext.depth < 1024

theorem step_enters (hfair : Fair env c) (hc : c.vm.ioGas < 2 ^ 63) :
    (c.step env).wp c.Below (fun _ _ => False) fun _ => True := by
  refine step_wp (fun _ _ => trivial) fun action vm hrun => ?_
  have hgas := interpret_gas hrun hc
  have starts : ∀ {e : Executive} {w : World σ} {inner : Ext}, 0 ≤ e.gas → e.gas ≤ c.vm.ioGas →
      inner.depth = c.ext.depth + 1 → c.ext.depth < 1024 →
      c.Below (.start inner e.gas w) := by
    intro e w inner h0 hle hdepth hlt
    refine ⟨?_, hdepth, hlt⟩
    show ofInt64 e.gas ≤ c.vm.ioGas
    rw [ofInt64_of_nonneg h0 (by omega)]
    omega
  cases action with
  | call msg outOffset outSize =>
    obtain ⟨h0, hle⟩ := hgas
    refine act_call_wp (fun _ => trivial) fun w e he => ?_
    have hp : (EvmCHost.callParameters c.ext msg).gas = msg.gas := rfl
    have hcall := call_gas he h0 (by omega) (hfair _ (Config.nextCall_eq hrun))
    obtain ⟨_, -, -, hlt, -, -⟩ := interpret_call hrun
    refine runFrame_wp (fun _ _ _ => trivial) fun inner hinner => ⟨?_, fun _ h => h.elim⟩
    exact starts hcall.1 (by omega) ((call_frame he).ext_eq inner hinner).2.2 hlt
  | create msg =>
    obtain ⟨h0, hle, hvm⟩ := hgas
    refine act_create_wp (fun _ => trivial) fun newAddress w e _ he => ?_
    have hcreate := executeCreate_gas he
    refine runFrame_wp (fun _ _ _ => trivial) fun inner hinner => ⟨?_, fun _ h => h.elim⟩
    exact starts (by omega) (by omega) ((executeCreate_frame he).2 inner hinner)
      (interpret_create hrun).2.1
  | _ => trivial

/-- The measure that falls with every instruction and every call. -/
def Config.measure (c : Config σ) : Nat × Nat × Nat :=
  (c.vm.ioGas, 1025 - c.ext.depth, c.ext.code.length - c.vm.pc)

theorem run_terminates (hfair : ∀ d, Visits (Config.step env) c d → Fair env d) (hc : c.vm.ioGas < 2 ^ 63) :
    ∃ r, Returns (Config.step env) c r := by
  have hall : ∀ d, Visits (Config.step env) c d → Fair env d ∧ d.vm.ioGas < 2 ^ 63 :=
    fun d hd => ⟨hfair d hd, hd.invariant hfair hc step_gas_run⟩
  have wf : WellFounded (Prod.Lex (· < ·) (Prod.Lex (· < ·) (· < ·)) : Nat × Nat × Nat → _ → Prop) :=
    WellFounded.prod_lex wellFounded_lt (WellFounded.prod_lex wellFounded_lt wellFounded_lt)
  refine exists_returns wf Config.measure hall ?_ ?_
  · intro c c' hp hnext
    obtain ⟨hfair, hc⟩ := hp c (.refl c)
    have hle : c'.vm.ioGas ≤ c.vm.ioGas := hnext.of_wp (step_gas hfair hc)
      (throughout_step fun d hd => (hp d hd).1) fun _ _ => returns_gas
    obtain ⟨hext, hlen, hmoves⟩ : c.Moves c' := hnext.of_wp (step_moves c)
      (throughout_step (p := fun _ => True) fun _ _ => trivial) fun _ _ _ _ _ => trivial
    rcases Nat.lt_or_eq_of_le hle with hlt | heq
    · exact .left _ _ hlt
    · rw [Config.measure, heq, hext]
      refine .right _ (.right _ ?_)
      show c.ext.code.length - c'.vm.pc < c.ext.code.length - c.vm.pc
      omega
  · intro c inner k hp hstep
    have hwp := step_enters hp.1 hp.2
    rw [hstep] at hwp
    obtain ⟨hle, hdepth, hlt⟩ := hwp.1
    rcases Nat.lt_or_eq_of_le hle with hlt' | heq
    · exact .left _ _ hlt'
    · rw [Config.measure, heq]
      refine .right _ (.left _ _ ?_)
      omega

end Termination

section Transaction

variable {c : Config σ}

theorem step_ends_run (c : Config σ) (hsafe : Safe env c) (hsub : c.sub.selfdestruct = []) :
    (c.step env).wp (fun c => c.sub.selfdestruct = []) Config.Ends
      (Sum.elim (fun c' => c'.sub.selfdestruct = [] ∧ ∀ r, c'.Ends r → c.Ends r) c.Ends) := by
  refine (step_ends hsub hsafe).imp (fun _ h => h) fun a ha => ?_
  rcases a with c' | r
  · obtain ⟨hsub', hext⟩ := ha
    refine ⟨hsub', ?_⟩
    rintro r ⟨ended, rfl, hproper, hdestroyed⟩
    exact ⟨ended, rfl, hext ▸ hproper, hdestroyed⟩
  · exact ha

theorem frame_ends (hrun : ∀ d, Visits (Config.step env) c d → Fair env d ∧ Safe env d)
    (hc : c.vm.ioGas < 2 ^ 63) (hsub : c.sub.selfdestruct = []) :
    ∃ r, Returns (Config.step env) c r ∧ c.Ends r := by
  obtain ⟨r, hr⟩ := run_terminates (fun d hd => (hrun d hd).1) hc
  exact ⟨r, hr, hr.of_wp (fun d hd => (hrun d hd).2) hsub step_ends_run⟩

theorem addBalance_isSome {a b : AccountID} {amount : Int} (h : (getSle w b).isSome) :
    (getSle (addBalance w a amount) b).isSome := by
  rw [addBalance]
  split
  · split
    · by_cases hab : b = a
      · rw [hab, getSle_update_self]
        rfl
      · rwa [getSle_update_ne hab]
    · exact h
  · exact h

theorem finalize_returns (env : Env σ) (e : Executive) {sub : SubState}
    (h : sub.selfdestruct = [] ∨ ∃ a, sub.selfdestruct = [a] ∧ (getSle w a).isSome) :
    ∃ ter w', e.finalize env w sub = .ok (ter, w') := by
  rw [finalize]
  rcases h with hnone | ⟨a, hone, ha⟩
  · rw [hnone]
    exact ⟨_, _, rfl⟩
  · rw [hone, removeAll, if_neg]
    · dsimp only
      split
      · exact ⟨_, _, rfl⟩
      · exact ⟨_, _, rfl⟩
    · rw [Option.isNone_iff_eq_none]
      exact Option.isSome_iff_ne_none.mp (addBalance_isSome ha)

theorem execute_returns (h : env.tx.contractOpType ≠ .ContractCreation →
    CallServed env (Executive.txParameters env)) : ∃ w' e, Executive.execute env w = .ok (w', e) ∧ e.Level := by
  rw [execute]
  dsimp only
  split_ifs with hter hgas hcreate
  · exact ⟨_, _, rfl, ext_of_none rfl⟩
  · exact ⟨_, _, rfl, ext_of_none rfl⟩
  · exact ⟨_, _, rfl, executeCreate_level _⟩
  · obtain ⟨w', e, he⟩ := call_served (h hcreate)
    exact ⟨w', e, he, (call_frame he).level⟩

/-- Contract execution ends in a result code: every frame that a transaction runs ends, in a way for which
`go` has a result, and so does the transaction, as long as every instruction is safe and all calls are
fair. -/
theorem contract_ends_in_result
    (htx : env.tx.contractOpType ≠ .ContractCreation →
      FairCall env (Executive.txParameters env) ∧ CallServed env (Executive.txParameters env))
    (hrun : Throughout (Config.step env) (fun c => Fair env c ∧ Safe env c) (doApply env w)) :
    (∃ ter w', Gives (Config.step env) (doApply env w) (.ok (ter, w'))) ∧
      Throughout (Config.step env) (fun c => ∃ ended, Returns (Config.step env) c (.ok ended) ∧
        ended.halt.Proper c.ext.depth) (doApply env w) := by
  obtain ⟨w₁, e, hexecute, hdepth⟩ := execute_returns (w := w) fun hcreate => (htx hcreate).2
  have hgas := execute_gas (fun hcreate => (htx hcreate).1) hexecute
  have hlt := env.tx.gas.toNat_lt
  have hstart : ofInt64 e.gas = e.gas.toNat := ofInt64_of_nonneg hgas.1 (by omega)
  rw [doApply, hexecute] at hrun ⊢
  dsimp only at hrun ⊢
  cases hext : e.ext with
  | none => exact ⟨⟨_, _, gives_ret.mpr rfl⟩, by rintro _ _ ⟨⟩⟩
  | some inner =>
    rw [hext] at hrun
    have hrun := throughout_map.mp hrun _ _ rfl
    have hc : (Config.start inner e.gas (e.goWorld w₁ inner)).vm.ioGas < 2 ^ 63 := by
      show ofInt64 e.gas < 2 ^ 63
      omega
    constructor
    · obtain ⟨r, hr, ended, rfl, hproper, hdestroyed⟩ := frame_ends hrun hc rfl
      have hproper : ended.halt.Proper e.depth := (hdepth inner hext).symm ▸ hproper
      obtain ⟨w₂, e', hend, hworld⟩ := goEnd_returns inner hproper
      have hdestroyed' : ended.sub.selfdestruct = [] ∨
          ∃ a, ended.sub.selfdestruct = [a] ∧ (getSle w₂ a).isSome := by
        refine hdestroyed.imp_right ?_
        rintro ⟨a, hone, ha⟩
        refine ⟨a, hone, ?_⟩
        rcases hworld with rfl | ⟨out, rfl⟩
        · exact ha
        · exact setCode_isSome ha
      obtain ⟨ter, w', hfinal⟩ := finalize_returns env e'
        (w := if env.tx.contractOpType = .ContractCreation then w₂
          else updateContractCount env w₂ .CONTRACT_CALL) (by split <;> exact hdestroyed')
      refine ⟨ter, w', gives_map.mpr ⟨.ok (w₂, ended.sub, e'), gives_call.mpr ⟨_, hr, hend⟩, hfinal⟩⟩
    · refine throughout_map.mpr ?_
      rintro start resume hstart d hd
      obtain ⟨rfl, -⟩ := Ask.call.inj hstart
      have hd' : ∀ d', Visits (Config.step env) d d' → Fair env d' ∧ Safe env d' :=
        fun d' hd' => hrun d' (hd.trans hd')
      have hgas' := hd.invariant (fun d hd => (hrun d hd).1) hc step_gas_run
      have hsub : (Config.start inner e.gas (e.goWorld w₁ inner)).sub.selfdestruct = [] := rfl
      have hsub' := hd.invariant (fun d hd => (hrun d hd).2) hsub step_ends_run
      obtain ⟨_, hr, ended, rfl, hproper, -⟩ := frame_ends hd' hgas' hsub'
      exact ⟨ended, hr, hproper⟩

end Transaction

section Examples

theorem defined_iff {op : Instruction} {vm : VM} :
    ((op = .RETURNDATACOPY → (vm.SP 1).toNat + (vm.SP 2).toNat ≤ vm.returnData.length) ∧
      (op = .REVERTDIY → 2 ≤ vm.sp.length) ∧ (op = .EXGETROWSIZE ∨ op = .EXGETCOLSIZE → 1 ≤ vm.sp.length) ∧
      (op = .EXRENAMETABLE → (vm.SP 3).toSize + (vm.SP 4).toSize ≤ vm.mem.length) ∧
      (op = .EXGETVALUEBYKEY → 32 ≤ (vm.SP 5).toSize) ∧
      (op = .EXGETVALUEBYINDEX → 32 ≤ (vm.SP 4).toSize)) ↔ op.Defined vm := by
  cases op <;> simp [Instruction.Defined]

instance (op : Instruction) (vm : VM) : Decidable (op.Defined vm) := decidable_of_iff _ defined_iff

instance (p : CallParameters) : Decidable (CallServed env p) := inferInstanceAs (Decidable (_ ∧ _))

instance : (hostCall : HostCall) → Decidable (hostCall.Served env ext w)
  | .get_storage _ | .table_get_lines _ | .table_get_columns _ | .get_column_by_name .. | .get_column_by_index ..
  | .get_column_len_by_name .. | .get_column_len_by_index .. | .trust_limit .. | .gateway_balance .. =>
    inferInstanceAs (Decidable (Option.isSome _ = true))
  | .trust_set .. => inferInstanceAs (Decidable (_ = true → _ = true))
  | .get_code_size _ | .get_code_hash _ | .copy_code .. | .emit_log .. | .table_create .. | .table_rename ..
  | .table_insert .. | .table_delete .. | .table_drop .. | .table_update .. | .table_grant ..
  | .table_get_handle .. | .db_trans_begin | .db_trans_submit | .release_resource | .account_set ..
  | .transfer_fee_set .. | .pay .. => .isTrue trivial

instance (c : Config σ) : (action : Action) → Decidable (action.Safe env c)
  | .revert _ | .create _ => inferInstanceAs (Decidable (_ → _))
  | .selfdestruct _ => inferInstanceAs (Decidable (_ ∧ _))
  | .setStorage _ _ => inferInstanceAs (Decidable (Option.isSome _ = true))
  | .host hostCall => inferInstanceAs (Decidable (hostCall.Served env c.ext c.world))
  | .call _ _ _ => inferInstanceAs (Decidable (CallServed env _))
  | .next | .jump | .halt _ | .revertDiy _ => .isTrue trivial

instance (c : Config σ) : Decidable (Safe env c) := inferInstanceAs (Decidable (_ ∧ ∀ action ∈ c.action env, _))

/-- Contract 101 jumps to where there is no destination. -/
theorem contract_ends_in_result_bad_jump : ∃ ter w',
    Gives (Config.step plainCall) (doApply plainCall (callChain [0x60, 1, 0x56] 0)) (.ok (ter, w')) := by
  have hrun : Throughout (Config.step plainCall) (fun c => Fair plainCall c ∧ Safe plainCall c)
      (doApply plainCall (callChain [0x60, 1, 0x56] 0)) :=
    Throughout.of_passed (n := 20) (by decide +kernel) (by decide +kernel)
  exact (contract_ends_in_result (fun _ => by decide +kernel) hrun).1

/-- Contract 101 copies a byte of return data where there is none, and the process ends. -/
theorem returndatacopy_terminates :
    Gives (Config.step plainCall)
      ((doApply plainCall (callChain [0x60, 1, 0x60, 0, 0x60, 0, 0x3e] 0)).map fun r =>
        r.map fun _ => ()) (.error .terminate) :=
  ⟨20, by decide +kernel⟩

end Examples

end Chainsql.Evm
