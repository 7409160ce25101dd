import Chainsql.Evm.Keeps

/-!
# Static calls

A frame with the static flag, and every frame below it, leaves the ledger as it is: account roots, the
other objects, storage and logs. The instructions that work on tables, trust lines and account settings
and the table contract do not look at the flag, so that this holds only as long as they are not used.
-/

namespace Chainsql.Evm

open Nested SleOps

variable {σ : Type} {env : Env σ} {c : Config σ}

/-- The next instruction is none of those that change the ledger without a look at the static flag. -/
def Harmless (env : Env σ) (c : Config σ) : Prop :=
  c.opcode.group ≠ .change ∧ ∀ p ∈ c.nextCall env, p.codeAddress ≠ TABLE_OPERATION_ADDR

instance : Decidable (Harmless env c) := inferInstanceAs (Decidable (_ ∧ _))

theorem static_call {vm : VM} {msg : Message} {outOffset outSize : Nat} (hc : c.ext.staticCall = true)
    (h : (interpretCases env c.ext c.world).run c.vm = .ok (.call msg outOffset outSize, vm)) :
    (EvmCHost.callParameters c.ext msg).staticCall = true ∧
      ((EvmCHost.callParameters c.ext msg).valueTransfer = 0 ∨
        (EvmCHost.callParameters c.ext msg).senderAddress = c.ext.myAddress ∧
        (EvmCHost.callParameters c.ext msg).receiveAddress = c.ext.myAddress) := by
  obtain ⟨vm₂, rfl, hgroup, -, -, hzero⟩ := interpret_call h
  refine ⟨by simp [EvmCHost.callParameters, callMessage, hc], ?_⟩
  generalize c.opcode = op at hgroup hzero
  cases op
  case CALL =>
    left
    have h0 := hzero rfl hc
    simp [EvmCHost.callParameters, callMessage, hasValueArg, h0]
  case CALLCODE =>
    right
    exact ⟨rfl, rfl⟩
  case DELEGATECALL | STATICCALL =>
    left
    rfl
  all_goals cases hgroup

theorem Harmless.quiet (hc : c.ext.staticCall = true) (h : Harmless env c) : Quiet env c := by
  intro action haction
  obtain ⟨vm, hrun⟩ := Config.action_run haction
  have changes : ∀ g, action.group = some g → g ∈ [Group.store, .log, .destroy, .create] → False := by
    intro g hg hmem
    rw [interpret_not_static hrun hg hmem] at hc
    cases hc
  cases action with
  | next | jump | halt output | revert output | revertDiy output => trivial
  | selfdestruct beneficiary => exact changes .destroy rfl (by decide)
  | setStorage key value => exact changes .store rfl (by decide)
  | create msg => exact changes .create rfl (by decide)
  | host call =>
    show call.group = .query ∨ call.group = .session
    cases hgroup : call.group
    case query => exact .inl rfl
    case session => exact .inr rfl
    case log => exact (changes .log (by rw [Action.group, hgroup]) (by decide)).elim
    case change => exact absurd (interpret_group hrun (by rw [Action.group, hgroup])) h.1
    all_goals cases call <;> cases hgroup
  | call msg outOffset outSize =>
    refine ⟨h.2 _ (Config.nextCall_eq hrun), (static_call hc hrun).2.imp_right fun hself => ?_⟩
    exact hself.1.trans hself.2.symm

theorem step_static (c : Config σ) (hharmless : Harmless env c) (hc : c.ext.staticCall = true) :
    StepKeeps env Unchanged (fun c => c.ext.staticCall = true) c :=
  step_quiet (fun ext => ext.staticCall = true) (hharmless.quiet hc) hc
    fun hrun _ hinner => hinner.trans (static_call hc hrun).1

/-- Static calls change nothing: whatever a static frame and the frames below it run, the ledger is the
same after the frame as before, as long as none of them uses the instructions and the contract that
disregard the flag. -/
theorem static_frame_changes_nothing (c : Config σ) (hc : c.ext.staticCall = true)
    (hharmless : ∀ d, Visits (Config.step env) c d → Harmless env d) (ended : Ended σ)
    (h : Returns (Config.step env) c (.ok ended)) : SameLedger c.world ended.world :=
  (returns_kept Unchanged.trans step_static hc hharmless h ended rfl).1

def staticFrame (w : World Unit) (code : Bytes) : Config Unit :=
  .start
    { myAddress := 101, caller := 100, origin := 7, value := 0, gasPrice := 1, data := [], code, depth := 2,
      isCreate := false, staticCall := true } 50000 w

def selfPayingFrame : Config Unit :=
  staticFrame (ledgerOf [(101, plainRoot 5 none), (102, plainRoot 0 (some [0x00]))])
    [0x60, 0, 0x60, 0, 0x60, 0, 0x60, 0, 0x60, 1, 0x60, 102, 0x61, 0x27, 0x10, 0xf2, 0x00]

theorem static_frame_changes_nothing_callcode : ∃ ended,
    Returns (Config.step plainCall) selfPayingFrame (.ok ended) ∧
      SameLedger selfPayingFrame.world ended.world := by
  have hrun : ((run (Config.step plainCall) 20 selfPayingFrame).map
      fun r => r.toOption.isSome) = some true := by decide +kernel
  obtain ⟨r, hr, hok⟩ := Option.map_eq_some_iff.mp hrun
  rcases r with crash | ended
  · cases hok
  refine ⟨ended, ⟨20, hr⟩, static_frame_changes_nothing _ rfl (fun d hd => ?_) ended ⟨20, hr⟩⟩
  have hall : ∀ d ∈ trace (Config.step plainCall) 20 selfPayingFrame,
      Harmless plainCall d := by decide +kernel
  exact hall d (hd.mem_trace hr)

/-- What the transactor does if the flag `asfRequireDest` is set. -/
def applyRequireDest (tx : SubTx) (v : View) (s : Unit) : Option (TER × View × Unit) :=
  match tx with
  | .accountSet a 1 true => (v.roots.lookup a).map fun sle =>
    (tesSUCCESS, { v.update a { sle with flags := sle.flags ||| 0x20000 } with cached := ∅ }, s)
  | _ => none

theorem applyRequireDest_ok {tx : SubTx} {v v' : View} {s s' : Unit} {ter : TER}
    (h : applyRequireDest tx v s = some (ter, v', s')) : v'.cached = ∅ ∧ v'.total ≤ v.total := by
  unfold applyRequireDest at h
  split at h
  next a =>
    obtain ⟨sle, hsle, heq⟩ := Option.map_eq_some_iff.mp h
    cases heq
    have htotal : (v.update a { sle with flags := sle.flags ||| 0x20000 }).total + sle.balance.val =
        v.total + sle.balance.val := View.total_update hsle
    exact ⟨rfl, Nat.le_of_add_le_add_right htotal.le⟩
  next => cases h

def requireDestEnv : Env Unit :=
  { bareEnv (callOf [] 100000) with
    transactors :=
      { preclaim := fun _ _ _ => tesSUCCESS
        apply := applyRequireDest
        apply_cached := fun _ _ _ _ _ _ h => (applyRequireDest_ok h).1
        apply_total := fun _ _ _ _ _ _ h => (applyRequireDest_ok h).2 } }

def flagFrame : Config Unit :=
  staticFrame (ledgerOf [(7, plainRoot 5 none), (101, plainRoot 0 none)]) [0x60, 1, 0x60, 1, 0x60, 7, 0xd2, 0x00]

/-- `EXACCOUNTSET` changes an account root in a static frame. -/
theorem static_frame_sets_flag : ∃ ended,
    Returns (Config.step requireDestEnv) flagFrame (.ok ended) ∧ flagFrame.ext.staticCall = true ∧
      (getSle flagFrame.world 7).map AccountRoot.flags = some 0 ∧
      (getSle ended.world 7).map AccountRoot.flags = some 0x20000 := by
  have hrun : ((run (Config.step requireDestEnv) 10 flagFrame).bind fun r => r.toOption).bind
      (fun ended => (getSle ended.world 7).map AccountRoot.flags) = some 0x20000 := by decide +kernel
  obtain ⟨ended, hended, hflags⟩ := Option.bind_eq_some_iff.mp hrun
  obtain ⟨r, hr, hok⟩ := Option.bind_eq_some_iff.mp hended
  rcases r with crash | ended
  · cases hok
  cases hok
  exact ⟨ended, ⟨10, hr⟩, rfl, by decide +kernel, hflags⟩

end Chainsql.Evm
