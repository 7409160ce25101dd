import Chainsql.Evm.Keeps

/-!
# Failed inner calls

Nothing is undone when a frame fails: the caller goes on in the state the frame has left. So a failed
call leaves no trace only if the frame, with those below it, was quiet, and if the call itself had moved
no value and created no account before.
-/

namespace Chainsql.Evm

open Nested SleOps

variable {σ : Type} {env : Env σ} {w w' : World σ} {c c' : Config σ}

/-- If the call fails before its frame runs then it has not changed anything. A call with a value goes back to
the sender, or to an account that has no code or cannot be paid. A creation finds the contract directory full,
so that no account is added, and one that is there has no code to run. -/
def Action.Clean (env : Env σ) (c : Config σ) : Action → Prop
  | .call msg _ _ =>
    let p := EvmCHost.callParameters c.ext msg
    p.codeAddress ≠ TABLE_OPERATION_ADDR ∧ (p.valueTransfer = 0 ∨ p.senderAddress = p.receiveAddress ∨
      getSle c.world p.receiveAddress ≠ none ∧ (addressHasCode c.world p.codeAddress = false ∨
        ¬CanPay env c.world p.senderAddress p.receiveAddress p.valueTransfer))
  | .create msg =>
    (∀ a, env.objects.dirAdd a c.world.other = none) ∧
      (msg.kind = .EVMC_CREATE ∧ c.ext.depth ≠ 0 ∨ msg.inputData = [])
  | _ => False

variable {depth : Nat} {e : Executive} {gasPrice : Word} {origin : AccountID}

theorem call_codeless {p : CallParameters} (h : Executive.call env w depth p gasPrice origin = .ok (w', e))
    (htable : p.codeAddress ≠ TABLE_OPERATION_ADDR) (hcode : addressHasCode w p.codeAddress = false)
    (hexists : getSle w p.receiveAddress ≠ none) : e.ext = none ∧ (e.excepted ≠ tesSUCCESS → w' = w) := by
  rcases Executive.call_cases h with ⟨hpre, rfl⟩ | ⟨ret, hpre, rfl, rfl⟩ | hcall
  · exact ⟨(Executive.callPrecompiled_frame hpre).2, fun _ => rfl⟩
  · refine ⟨?_, fun _ => Executive.executePreDiy_world htable hpre⟩
    split
    · rfl
    · rfl
  · rw [Executive.callContract, hcode] at hcall
    rw [if_neg Bool.false_ne_true] at hcall
    split at hcall
    · cases hcall
      exact ⟨rfl, fun _ => rfl⟩
    · rcases transferValue_cases hcall with ⟨-, rfl, rfl⟩ | ⟨-, ret, ⟨-, -, hnone⟩ | hpay, he⟩
      · exact ⟨rfl, fun _ => rfl⟩
      · exact absurd hnone hexists
      · rcases he with ⟨-, rfl⟩ | ⟨hret, rfl⟩
        · exact ⟨rfl, fun hne => absurd rfl hne⟩
        · refine ⟨rfl, fun _ => ?_⟩
          rcases transferBalance_cases hpay with rfl | ⟨_, -, -, hsuccess, -⟩
          · rfl
          · exact absurd hsuccess hret

theorem call_unpaid {p : CallParameters} (h : Executive.call env w depth p gasPrice origin = .ok (w', e))
    (htable : p.codeAddress ≠ TABLE_OPERATION_ADDR) (hexists : getSle w p.receiveAddress ≠ none)
    (hpay : ¬CanPay env w p.senderAddress p.receiveAddress p.valueTransfer) : SameLedger w w' := by
  rcases Executive.call_keeps h htable with hkeeps | ⟨w₁, e₁, hkeeps, htransfer⟩
  · exact .of_keeps hkeeps
  have hsame : ∀ a, getSle w₁ a = getSle w a := (SameLedger.of_keeps hkeeps).roots
  refine (SameLedger.of_keeps hkeeps).trans ?_
  rcases transferValue_cases htransfer with ⟨-, rfl, -⟩ | ⟨-, ret, ⟨-, -, hnone⟩ | htransfer, -⟩
  · exact .refl _
  · exact absurd ((hsame _).symm.trans hnone) hexists
  · rcases transferBalance_cases htransfer with rfl | ⟨_, -, -, hret, -⟩
    · exact .refl _
    · have hpaid := transferBalance_success.mp ((congrArg Prod.fst htransfer).trans hret)
      simp only [CanPay, Authorised, hsame] at hpaid
      exact absurd hpaid hpay

theorem executeCreate_full {newAddress sender : AccountID} {endowment : Word} {gas : Int} {code : Bytes}
    (h : Executive.executeCreate env w depth newAddress sender endowment gasPrice gas code origin = (w', e))
    (hfull : ∀ a, env.objects.dirAdd a w.other = none) (hcode : getSle w newAddress = none ∨ code = []) :
    e.ext = none ∧ (e.excepted ≠ tesSUCCESS → w' = w) := by
  rw [Executive.executeCreate] at h
  rcases hcreate : createContractAccount env w sender newAddress endowment with ⟨ret, w₁⟩
  rw [hcreate] at h
  dsimp only at h
  have hrefused : ret ≠ tesSUCCESS → w₁ = w := by
    intro hret
    rw [createContractAccount] at hcreate
    split at hcreate
    · rcases transferBalance_cases hcreate with rfl | ⟨_, -, -, hsuccess, -⟩
      · rfl
      · exact absurd hsuccess hret
    · rw [hfull newAddress] at hcreate
      cases hcreate
      rfl
  split at h
  next hret =>
    cases h
    exact ⟨rfl, fun _ => hrefused hret⟩
  next hret =>
    -- the account was there before, since none can be added
    have hempty : code = [] := by
      refine hcode.resolve_left fun hnone => hret ?_
      rw [createContractAccount, hnone] at hcreate
      rw [hfull newAddress] at hcreate
      cases hcreate
      decide
    rw [if_pos hempty] at h
    cases h
    exact ⟨rfl, fun hne => absurd rfl hne⟩

theorem excepted_of_code (h : e.excepted.code ≠ 0) : e.excepted ≠ tesSUCCESS :=
  fun heq => h (congrArg TER.code heq)

theorem step_clean {action : Action} (haction : c.action env = some action) (hclean : action.Clean env c) :
    (c.step env).wp (fun _ => True) (Kept Unchanged)
      (Sum.elim (fun c' => c'.vm.exception ≠ 0 → SameLedger c.world c'.world ∧ c'.sub = c.sub)
        fun _ => True) := by
  obtain ⟨vm, hrun⟩ := Config.action_run haction
  rw [Config.step, hrun]
  cases action with
  | call msg outOffset outSize =>
    obtain ⟨htable, hvalue⟩ := hclean
    refine act_call_wp (fun _ => trivial) fun w e he => ?_
    have hcases : SameLedger c.world w ∨ e.ext = none ∧ (e.excepted ≠ tesSUCCESS → w = c.world) := by
      rcases hvalue with hzero | hself | ⟨hexists, hcodeless | hunpaid⟩
      · exact .inl (call_quiet hrun ⟨htable, .inl hzero⟩ he)
      · exact .inl (call_quiet hrun ⟨htable, .inr hself⟩ he)
      · exact .inr (call_codeless he htable hcodeless hexists)
      · exact .inl (call_unpaid he htable hexists hunpaid)
    rcases hcases with hsame | ⟨hext, hworld⟩
    · refine (runFrame_kept (Executive.call_frame he).isCreation_eq fun _ _ => trivial).imp
        (fun _ h => h) fun r hr => hr.imp ?_
      rintro ⟨w', sub, e'⟩ (⟨rfl, rfl⟩ | ⟨s, rfl, hrel, rfl⟩) _
      · exact ⟨hsame, rfl⟩
      · exact ⟨hsame.trans hrel, c.sub.add_start⟩
    · refine runFrame_wp_none hext (OnOk.ok.mpr fun hfail => ?_)
      obtain rfl := hworld (excepted_of_code hfail)
      exact ⟨.refl _, rfl⟩
  | create msg =>
    obtain ⟨hfull, hcode⟩ := hclean
    refine act_create_wp (fun _ => trivial) fun newAddress w e hfree he => ?_
    have hcode : getSle c.world newAddress = none ∨ msg.inputData = [] :=
      hcode.imp_left fun h => hfree.1 h.1 h.2
    obtain ⟨hext, hworld⟩ := executeCreate_full he hfull hcode
    refine runFrame_wp_none hext (OnOk.ok.mpr fun hfail => ?_)
    obtain rfl := hworld (excepted_of_code hfail)
    exact ⟨.refl _, rfl⟩
  | _ => exact hclean.elim

theorem quiet_returns {r : Outcome σ} (hquiet : ∀ d, Visits (Config.step env) c d → Quiet env d)
    (hr : Returns (Config.step env) c r) : Kept Unchanged c r := by
  have hstep : ∀ c : Config σ, Quiet env c → True → StepKeeps env Unchanged (fun _ => True) c :=
    fun c hc _ => step_quiet (fun _ => True) hc trivial fun _ _ _ => trivial
  exact returns_kept Unchanged.trans hstep trivial hquiet hr

/-- Failed inner calls leave no trace: if the frame of a clean call ends with an exception, and all
instructions that it and the frames below it execute are quiet, then the caller goes on in the state in
which it made the call. -/
theorem failed_call_leaves_no_trace {action : Action} (haction : c.action env = some action)
    (hclean : action.Clean env c) (hquiet : Throughout (Config.step env) (Quiet env) (c.step env))
    (hnext : Next (Config.step env) c c') (hfail : c'.vm.exception ≠ 0) :
    SameLedger c.world c'.world ∧ c'.sub = c.sub :=
  hnext.of_wp (step_clean haction hclean) hquiet (fun _ _ _ hp hr => quiet_returns hp hr) hfail

def callingFrame (code : Bytes) : Config Unit where
  ext :=
    { myAddress := 100, caller := 7, origin := 7, value := 0, gasPrice := 1, data := [], code := [0xf1, 0x00],
      depth := 1, isCreate := false, staticCall := false }
  vm := { VM.start 50000 with spp := [30000, 101, 0, 0, 0, 0, 0] }
  sub := .start
  world := ledgerOf [(100, plainRoot 0 none), (101, plainRoot 0 (some code))]

/-- The slot 1 of contract 101 and the exception of the frame, after one instruction. -/
def slotAndException : Config Unit ⊕ Outcome Unit → Option (Option Word × Int32)
  | .inl c => (getSle c.world 101).map fun sle => (sle.storageOverlay.values.lookup 1, c.vm.exception)
  | .inr _ => none

def revertingCall : Config Unit := callingFrame [0x60, 0, 0x60, 0, 0xfd]

theorem failed_call_leaves_no_trace_revert : ∃ c', Next (Config.step plainCall) revertingCall c' ∧
    c'.vm.exception = 325 ∧ SameLedger revertingCall.world c'.world ∧ c'.sub = revertingCall.sub := by
  have hrun : (((revertingCall.step plainCall).eval (run (Config.step plainCall) 10)).bind Sum.getLeft?).map
      (fun c => c.vm.exception) = some 325 := by decide +kernel
  obtain ⟨c', hc', hfail⟩ := Option.map_eq_some_iff.mp hrun
  obtain ⟨a, ha, hleft⟩ := Option.bind_eq_some_iff.mp hc'
  obtain rfl := Sum.getLeft?_eq_some_iff.mp hleft
  have hquiet : Throughout (Config.step plainCall) (Quiet plainCall) (revertingCall.step plainCall) :=
    Throughout.of_passed (n := 10) (Option.isSome_of_eq_some ha) (by decide +kernel)
  have haction : revertingCall.action plainCall = some (.call _ _ _) := rfl
  refine ⟨c', ⟨10, ha⟩, hfail, failed_call_leaves_no_trace haction ⟨by decide +kernel, .inl rfl⟩ hquiet ⟨10, ha⟩ ?_⟩
  rw [hfail]
  decide

/-- The call reverts after it has stored a value, and the caller goes on with that value. -/
theorem reverted_store_stays :
    Gives (Config.step plainCall)
      (((callingFrame [0x60, 2, 0x60, 1, 0x55, 0x60, 0, 0x60, 0, 0xfd]).step plainCall).map slotAndException)
      (some (some 2, 325)) ∧
    slotAndException (.inl (callingFrame [0x60, 2, 0x60, 1, 0x55, 0x60, 0, 0x60, 0, 0xfd])) = some (none, 0) :=
  ⟨⟨10, by decide +kernel⟩, by decide +kernel⟩

end Chainsql.Evm
