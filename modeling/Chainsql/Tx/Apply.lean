import Chainsql.Tx.FeeOnly
import Chainsql.Tx.CheckSign

/-!
# From a transaction to the ledger

`applyTransaction` with `preflight`, `preclaim` and `doApply`. The result of `preflight` and `preclaim` is
only handed on: `doApply` calls `operator()` for any of them.
-/

namespace Chainsql.Tx

open Evm (Crash TER tesSUCCESS tefEXCEPTION AccountID Word LogEntry)

def temBAD_FEE : TER := ⟨204⟩
def temBAD_SIGNATURE : TER := ⟨217⟩
def temBAD_SRC_ACCOUNT : TER := ⟨218⟩
def temINVALID : TER := ⟨222⟩
def tefALREADY : TER := ⟨301⟩
def tefWRONG_PRIOR : TER := ⟨310⟩
def tefMAX_LEDGER : TER := ⟨312⟩

def isTelLocal (ter : TER) : Bool := 400 ≤ ter.code ∧ ter.code < 65535
def isTemMalformed (ter : TER) : Bool := 200 ≤ ter.code ∧ ter.code < 300
def isTefFailure (ter : TER) : Bool := 300 ≤ ter.code ∧ ter.code < 400

inductive Validity where
  | SigBad | SigGoodOnly | Valid
deriving DecidableEq

/-- The flags of the hash router that concern a transaction. -/
structure RouterFlags where
  SIGBAD : Bool
  SIGGOOD : Bool
  LOCALBAD : Bool
  LOCALGOOD : Bool
deriving DecidableEq

/-- How a node calls `applyTransaction`. -/
structure Caller where
  flags : Word → RouterFlags
  tapNO_CHECK_SIGN : Bool
  passesLocalChecks : STTx → Bool

def andThen (first second : Except Crash TER) : Except Crash TER := do
  let ret ← first
  if ret = tesSUCCESS then second else .ok ret

variable {σ : Type} (c : Checks σ) (caller : Caller) (tx : STTx)

def checkValidity : Validity :=
  let flags := caller.flags tx.id
  if flags.SIGBAD then .SigBad
  else if !flags.SIGGOOD && !(tx.checkSign c.crypto c.featureRequireFullyCanonicalSig).1 then .SigBad
  else if flags.LOCALBAD then .SigGoodOnly
  else if flags.LOCALGOOD then .Valid
  else if caller.passesLocalChecks tx then .Valid
  else .SigGoodOnly

def preflight0 : TER := if tx.id = 0 then temINVALID else tesSUCCESS

def preflight1 : TER :=
  if preflight0 tx ≠ tesSUCCESS then preflight0 tx
  else if tx.account = 0 then temBAD_SRC_ACCOUNT
  else if tx.fee.all fun fee => fee < 0 ∨ INITIAL_ZXC < fee then temBAD_FEE
  else if tx.type ≠ .ttETH_TX ∧ !tx.signingPubKey.isEmpty ∧ !c.crypto.publicKeyType tx.signingPubKey then
    temBAD_SIGNATURE
  else tesSUCCESS

def preflight2 : TER :=
  if caller.tapNO_CHECK_SIGN then tesSUCCESS
  else if checkValidity c caller tx = .SigBad then temINVALID
  else tesSUCCESS

def FreezeAccount.preflight : Except Crash TER := .ok tesSUCCESS

/-- Transactions of the system itself are not signed. -/
def Change.preflight : Except Crash TER := andThen (.ok (preflight0 tx)) (c.between tx).1

/-- `preflight` of every other class. Only that of `EscrowFinish` has checks after `preflight2`. -/
def ownPreflight : Except Crash TER :=
  andThen (c.before tx).1 (andThen (.ok (preflight1 c tx)) (andThen (c.between tx).1
    (andThen (.ok (preflight2 c caller tx)) (if tx.type = .ttESCROW_FINISH then (c.after tx).1 else .ok tesSUCCESS))))

def invoke_preflight : Except Crash TER :=
  match tx.type with
  | .ttFREEZE_ACCOUNT => FreezeAccount.preflight
  | .ttAMENDMENT | .ttFEE | .ttUNL_MODIFY => Change.preflight c tx
  | _ => ownPreflight c caller tx

def guarded (result : Except Crash TER) : Except Crash TER :=
  match result with
  | .error .exception => .ok tefEXCEPTION
  | result => result

def preflight : Except Crash TER := guarded (invoke_preflight c caller tx)

variable (base : OpenView σ)

def checkSeq : TER :=
  if tx.lastLedgerSequence.any fun last => last < base.seq then tefMAX_LEDGER
  else
    match c.root base tx.account with
    | none => terNO_ACCOUNT
    | some root =>
      if tx.sequence ≠ root.sequence then
        if root.sequence < tx.sequence then terPRE_SEQ
        else if (base.txs.lookup tx.id).isSome then tefALREADY
        else tefPAST_SEQ
      else if tx.accountTxnID.any fun id => root.accountTxnID.getD 0 ≠ id then tefWRONG_PRIOR
      else tesSUCCESS

def invoke_preclaim : Except Crash TER :=
  if tx.account ≠ 0 then
    andThen (.ok (checkSeq c tx base)) (andThen (c.checkFee tx base).1 (andThen (checkSign c base tx)
      (c.preclaim tx base).1))
  else (c.preclaim tx base).1

def preclaim (preflightResult : TER) : Except Crash TER :=
  if preflightResult ≠ tesSUCCESS then .ok preflightResult else guarded (invoke_preclaim c tx base)

variable [DecidableEq σ]

/-- An exception leaves the ledger as it was. -/
def doApply (preclaimResult : TER) (bloomLogs : List (AccountID × List LogEntry)) : Except Crash (Effect σ) :=
  match run c.toTransactor tx base preclaimResult bloomLogs with
  | .error .exception => .ok ⟨tefEXCEPTION, false, base, bloomLogs⟩
  | result => result

inductive ApplyResult where
  | Success | Fail | Retry
deriving DecidableEq

def checksResult : Except Crash TER := do preclaim c tx base (← preflight c caller tx)

def applyTransaction (bloomLogs : List (AccountID × List LogEntry)) : Except Crash (ApplyResult × Effect σ) := do
  let pcresult ← checksResult c caller tx base
  let effect ← doApply c tx base pcresult bloomLogs
  let result : ApplyResult :=
    if isTefFailure effect.result || isTemMalformed effect.result || isTelLocal effect.result then .Fail
    else if effect.isApplied then .Success
    else .Retry
  return (result, effect)

/-! ## Transactions that are not signed -/

section

variable (c : Checks σ) (caller : Caller) (tx : STTx) (base : OpenView σ)

def Signed : Prop := (tx.checkSign c.crypto c.featureRequireFullyCanonicalSig).1 = true

def isPseudoTx : Bool := tx.type = .ttAMENDMENT ∨ tx.type = .ttFEE ∨ tx.type = .ttUNL_MODIFY

/-- The checks come to the sequence number, and it does not fit. -/
def OutOfSequence : Prop :=
  preflight c caller tx = .ok tesSUCCESS ∧ tx.account ≠ 0 ∧
    SeqFailure (checkSeq c tx base)

end

variable {c caller tx base} {bloomLogs : List (AccountID × List LogEntry)} {effect : Effect σ}

variable {first second : Except Crash TER} {ter pcresult : TER}

theorem andThen_eq_ok (h : andThen first second = .ok ter) :
    first = .ok tesSUCCESS ∧ second = .ok ter ∨ first = .ok ter ∧ ter ≠ tesSUCCESS := by
  obtain ⟨ret, hfirst, h⟩ := Except.bind_eq_ok.mp h
  split at h
  next hret => exact .inl ⟨hret ▸ hfirst, h⟩
  next hret =>
    cases h
    exact .inr ⟨hfirst, hret⟩

theorem andThen_seqFree (h₁ : SeqFree first) (h₂ : SeqFree second) : SeqFree (andThen first second) := by
  intro ter h
  rcases andThen_eq_ok h with ⟨-, hsecond⟩ | ⟨hfirst, -⟩
  · exact h₂ ter hsecond
  · exact h₁ ter hfirst

theorem guarded_eq_ok {result : Except Crash TER} (h : guarded result = .ok ter) :
    result = .ok ter ∨ ter = tefEXCEPTION := by
  unfold guarded at h
  split at h
  · cases h
    exact .inr rfl
  · exact .inl h

theorem guarded_seqFree {result : Except Crash TER} (h : SeqFree result) : SeqFree (guarded result) := by
  intro ter hter
  rcases guarded_eq_ok hter with hresult | rfl
  · exact h ter hresult
  · decide

omit [DecidableEq σ] in
theorem preflight_seqFree : SeqFree (preflight c caller tx) := by
  have h0 : SeqFree (.ok (preflight0 tx)) := by
    unfold preflight0
    split <;> exact seqFree_ok (by decide)
  have h1 : SeqFree (.ok (preflight1 c tx)) := by
    unfold preflight1 preflight0
    repeat' split
    all_goals exact seqFree_ok (by decide)
  have h2 : SeqFree (.ok (preflight2 c caller tx)) := by
    unfold preflight2
    repeat' split
    all_goals exact seqFree_ok (by decide)
  refine guarded_seqFree ?_
  unfold invoke_preflight
  split
  · exact seqFree_ok (by decide)
  · exact andThen_seqFree h0 (c.between tx).2
  · exact andThen_seqFree h0 (c.between tx).2
  · exact andThen_seqFree h0 (c.between tx).2
  · refine andThen_seqFree (c.before tx).2 (andThen_seqFree h1 (andThen_seqFree (c.between tx).2
      (andThen_seqFree h2 ?_)))
    split
    · exact (c.after tx).2
    · exact seqFree_ok (by decide)

omit [DecidableEq σ] in
theorem checksResult_seqFailure (h : checksResult c caller tx base = .ok ter) :
    SeqFailure ter ↔ OutOfSequence c caller tx base := by
  obtain ⟨pf, hpf, h⟩ := Except.bind_eq_ok.mp h
  unfold preclaim at h
  split at h
  next hfail =>
    cases h
    refine ⟨fun hseq => absurd hseq (preflight_seqFree _ hpf), fun hout => ?_⟩
    exact absurd (Except.ok.inj (hpf.symm.trans hout.1)) hfail
  next hsuccess =>
    rw [not_not] at hsuccess
    subst hsuccess
    constructor
    · intro hseq
      rcases guarded_eq_ok h with hpreclaim | rfl
      · unfold invoke_preclaim at hpreclaim
        split at hpreclaim
        next haccount =>
          refine ⟨hpf, haccount, ?_⟩
          rcases andThen_eq_ok hpreclaim with ⟨-, hrest⟩ | ⟨hcheck, -⟩
          · exact absurd hseq (andThen_seqFree (c.checkFee tx base).2
              (andThen_seqFree checkSign_seqFree (c.preclaim tx base).2) ter hrest)
          · rw [Except.ok.inj hcheck]
            exact hseq
        · exact absurd hseq ((c.preclaim tx base).2 ter hpreclaim)
      · exact absurd hseq (by decide)
    · rintro ⟨-, haccount, hseq⟩
      have hne : checkSeq c tx base ≠ tesSUCCESS := by
        intro heq
        rw [heq] at hseq
        exact absurd hseq (by decide)
      have hvalue : guarded (invoke_preclaim c tx base) = .ok (checkSeq c tx base) := by
        rw [invoke_preclaim, if_pos haccount]
        show guarded (if checkSeq c tx base = tesSUCCESS then _ else _) = _
        rw [if_neg hne]
        rfl
      rw [h] at hvalue
      rw [Except.ok.inj hvalue]
      exact hseq

theorem applied_view_ne {data : TxMeta} {view : ApplyView σ} {base' : OpenView σ} {fmt : LedgerFormat σ} {id : Word}
    {destroyed : Int} (h : view.apply fmt base id data destroyed = .ok base') : base' ≠ base := by
  obtain ⟨hnew, hframe⟩ := ApplyView.apply_frame h
  rintro rfl
  have hrecorded := congrArg (fun v : OpenView σ => v.txs.lookup id) hframe
  simp [hnew] at hrecorded

theorem run_view_ne (h : run c.toTransactor tx base pcresult bloomLogs = .ok effect) :
    effect.view = base ↔ SeqFailure pcresult := by
  rcases run_eq_ok h with ⟨hseq, rfl⟩ | ⟨_, _, _, _, _, _, _, _, _, _, hcommit⟩
  · exact ⟨fun _ => hseq, fun _ => rfl⟩
  · obtain ⟨-, -, -, happly, -⟩ := commit_eq_ok hcommit
    refine ⟨fun heq => absurd heq (applied_view_ne happly), fun hseq => ?_⟩
    rw [run, if_pos (id hseq : _ ∨ _)] at h
    cases h
    rfl

theorem applyTransaction_eq_ok {result : ApplyResult}
    (h : applyTransaction c caller tx base bloomLogs = .ok (result, effect)) :
    ∃ pcresult, checksResult c caller tx base = .ok pcresult ∧ doApply c tx base pcresult bloomLogs = .ok effect := by
  obtain ⟨pcresult, hchecks, h⟩ := Except.bind_eq_ok.mp h
  obtain ⟨effect', happly, h⟩ := Except.bind_eq_ok.mp h
  cases h
  exact ⟨pcresult, hchecks, happly⟩

theorem doApply_eq_ok (h : doApply c tx base pcresult bloomLogs = .ok effect) :
    run c.toTransactor tx base pcresult bloomLogs = .error .exception ∧
        effect = ⟨tefEXCEPTION, false, base, bloomLogs⟩ ∨
      run c.toTransactor tx base pcresult bloomLogs = .ok effect := by
  unfold doApply at h
  split at h
  next hrun =>
    cases h
    exact .inl ⟨hrun, rfl⟩
  · exact .inr h

theorem andThen_eq_success (h : andThen first second = .ok tesSUCCESS) :
    first = .ok tesSUCCESS ∧ second = .ok tesSUCCESS := by
  rcases andThen_eq_ok h with hboth | ⟨-, hne⟩
  · exact hboth
  · exact absurd rfl hne

/-- The node is to check signatures, and has no result for this transaction yet. -/
def Caller.Unchecked (caller : Caller) (tx : STTx) : Prop :=
  caller.tapNO_CHECK_SIGN = false ∧ (caller.flags tx.id).SIGBAD = false ∧ (caller.flags tx.id).SIGGOOD = false

omit [DecidableEq σ] in
theorem preflight2_eq_success (hcaller : caller.Unchecked tx) (h : preflight2 c caller tx = tesSUCCESS) :
    Signed c tx := by
  obtain ⟨hcheck, hbad, hgood⟩ := hcaller
  by_contra hsigned
  rw [Signed] at hsigned
  simp [preflight2, hcheck, checkValidity, hbad, hgood, hsigned] at h
  cases h

omit [DecidableEq σ] in
/-- What the checks are for: they succeed for a transaction that is signed with a key of its account. The
types left out are those that are not signed, the one whose class does not check and the one whose keys
are not looked at. -/
theorem checksResult_eq_success (hpseudo : isPseudoTx tx = false) (hfreeze : tx.type ≠ .ttFREEZE_ACCOUNT)
    (heth : tx.type ≠ .ttETH_TX) (hcaller : caller.Unchecked tx)
    (h : checksResult c caller tx base = .ok tesSUCCESS) : Signed c tx ∧ Authorised c base tx := by
  obtain ⟨pf, hpf, hpc⟩ := Except.bind_eq_ok.mp h
  unfold preclaim at hpc
  split at hpc
  next hfail => exact absurd (Except.ok.inj hpc) hfail
  next hsuccess =>
    rw [not_not] at hsuccess
    subst hsuccess
    have hpreflight : ownPreflight c caller tx = .ok tesSUCCESS := by
      rcases guarded_eq_ok hpf with hinvoke | hexception
      · unfold invoke_preflight at hinvoke
        split at hinvoke
        · contradiction
        all_goals first | exact hinvoke | simp_all [isPseudoTx]
      · cases hexception
    have hpreclaim : invoke_preclaim c tx base = .ok tesSUCCESS := by
      rcases guarded_eq_ok hpc with hinvoke | hexception
      · exact hinvoke
      · cases hexception
    obtain ⟨-, hrest⟩ := andThen_eq_success hpreflight
    obtain ⟨h1, hrest⟩ := andThen_eq_success hrest
    obtain ⟨-, hrest⟩ := andThen_eq_success hrest
    obtain ⟨h2, -⟩ := andThen_eq_success hrest
    refine ⟨preflight2_eq_success hcaller (Except.ok.inj h2), ?_⟩
    have haccount : tx.account ≠ 0 := by
      intro hzero
      have h1 := Except.ok.inj h1
      unfold preflight1 at h1
      split at h1
      next hfail => exact absurd h1 hfail
      · cases h1
    rw [invoke_preclaim, if_pos haccount] at hpreclaim
    obtain ⟨-, hrest⟩ := andThen_eq_success hpreclaim
    obtain ⟨-, hrest⟩ := andThen_eq_success hrest
    exact checkSign_eq_success heth (andThen_eq_success hrest).1

theorem run_eq_success (h : run c.toTransactor tx base pcresult bloomLogs = .ok effect)
    (hsuccess : effect.result = tesSUCCESS) : pcresult = tesSUCCESS := by
  rcases run_eq_ok h with ⟨-, rfl⟩ | ⟨result, view, logs, fee, result', view', fee', happly, -, hsettle, hcommit⟩
  · exact hsuccess
  · by_contra hne
    rw [attempt, if_neg hne] at happly
    cases happly
    rw [decide_eq_false hne, settle] at hsettle
    cases hsettle
    obtain ⟨-, hresult, -⟩ := commit_eq_ok hcommit
    exact hne (hresult.symm.trans hsuccess)

/-- A transaction of the types that are checked succeeds only if it is signed with a key of its account. -/
theorem success_only_if_authorised {result : ApplyResult} (hpseudo : isPseudoTx tx = false)
    (hfreeze : tx.type ≠ .ttFREEZE_ACCOUNT) (heth : tx.type ≠ .ttETH_TX) (hcaller : caller.Unchecked tx)
    (h : applyTransaction c caller tx base bloomLogs = .ok (result, effect)) (hsuccess : effect.result = tesSUCCESS) :
    Signed c tx ∧ Authorised c base tx := by
  obtain ⟨pcresult, hchecks, happly⟩ := applyTransaction_eq_ok h
  rcases doApply_eq_ok happly with ⟨-, rfl⟩ | hrun
  · cases hsuccess
  · rw [run_eq_success hrun hsuccess] at hchecks
    exact checksResult_eq_success hpseudo hfreeze heth hcaller hchecks

/-- The checks cannot keep a transaction out of the ledger. Unless `operator()` throws, the ledger changes if
and only if the checks do not come to a sequence number that does not fit. So an effect means a signature
and a key of the account only for a transaction that has them, or that is out of sequence. -/
theorem effect_only_if_signed_iff {result : ApplyResult} {pcresult : TER}
    (hchecks : checksResult c caller tx base = .ok pcresult)
    (h : applyTransaction c caller tx base bloomLogs = .ok (result, effect)) :
    (run c.toTransactor tx base pcresult bloomLogs = .error .exception → effect.view = base) ∧
      (run c.toTransactor tx base pcresult bloomLogs ≠ .error .exception →
        ((effect.view ≠ base → Signed c tx ∧ Authorised c base tx) ↔
          Signed c tx ∧ Authorised c base tx ∨ OutOfSequence c caller tx base)) := by
  obtain ⟨pcresult', hchecks', happly⟩ := applyTransaction_eq_ok h
  cases Except.ok.inj (hchecks.symm.trans hchecks')
  rcases doApply_eq_ok happly with ⟨hthrown, rfl⟩ | hrun
  · exact ⟨fun _ => rfl, fun hne => absurd hthrown hne⟩
  · refine ⟨fun hthrown => ?_, fun _ => ?_⟩
    · rw [hrun] at hthrown
      cases hthrown
    · rw [← checksResult_seqFailure hchecks, ← run_view_ne hrun]
      constructor
      · intro hsigned
        by_cases hview : effect.view = base
        · exact .inr hview
        · exact .inl (hsigned hview)
      · rintro (hboth | hview) hne
        · exact hboth
        · exact absurd hview hne

def frozen (accounts : List AccountID) : SLE (List AccountID) := ⟨.other, none, accounts⟩

def notFrozen : OpenView (List AccountID) := { twoAccounts with entries := twoAccounts.entries.insert 9 (frozen []) }

/-- Keys of one byte, that of the account with the same number. A signature is the byte of the key. -/
def byteKeys : Crypto where
  publicKeyType key := key.length = 1
  calcAccountID key := .ofNat 160 (key.headD 0).toNat
  toBase58 _ := ""
  verify key _ signature _ := key = signature
  signingData _ := []
  multiSigningData _ _ := []

def content (changes : List (Word × SLE (List AccountID))) : Checks (List AccountID) where
  toTransactor := scripted tesSUCCESS changes
  crypto := byteKeys
  signers a := a.setWidth 256 + 100
  fixMasterKeyAsRegularKey := true
  featureRequireFullyCanonicalSig := true
  before _ := ⟨.ok tesSUCCESS, seqFree_ok (of_decide_eq_true rfl)⟩
  between _ := ⟨.ok tesSUCCESS, seqFree_ok (of_decide_eq_true rfl)⟩
  after _ := ⟨.ok tesSUCCESS, seqFree_ok (of_decide_eq_true rfl)⟩
  checkFee _ _ := ⟨.ok tesSUCCESS, seqFree_ok (of_decide_eq_true rfl)⟩
  preclaim _ _ := ⟨.ok tesSUCCESS, seqFree_ok (of_decide_eq_true rfl)⟩

def firstSeen : Caller := ⟨fun _ => ⟨false, false, false, false⟩, false, fun _ => true⟩

def signedPayment : STTx := { payment with txnSignature := some [7] }

def paying : Checks (List AccountID) := content [(7, rootOf 890 4), (8, rootOf 600 1)]

theorem effect_only_if_signed_iff_payment :
    ∃ effect, applyTransaction paying firstSeen signedPayment notFrozen [] = .ok (.Success, effect) ∧
      effect.view ≠ notFrozen ∧ Signed paying signedPayment ∧ Authorised paying notFrozen signedPayment := by
  obtain ⟨effect, happly, hread⟩ : ∃ effect,
      applyTransaction paying firstSeen signedPayment notFrozen [] = .ok (.Success, effect) ∧
        effect.view.read 8 ≠ notFrozen.read 8 := ⟨_, rfl, by decide⟩
  have hview : effect.view ≠ notFrozen := fun h => hread (congrArg (OpenView.read · 8) h)
  have hreturns : run paying.toTransactor signedPayment notFrozen tesSUCCESS [] ≠ .error .exception := fun h =>
    absurd (congrArg Except.isOk h) (by decide)
  have hauthorised : Authorised paying notFrozen signedPayment :=
    checkSign_eq_success (by decide) rfl
  obtain ⟨-, hiff⟩ := effect_only_if_signed_iff rfl happly
  exact ⟨effect, happly, hview, (hiff hreturns).mpr (.inl ⟨rfl, hauthorised⟩) hview⟩

theorem success_only_if_authorised_payment :
    Signed paying signedPayment ∧ Authorised paying notFrozen signedPayment :=
  success_only_if_authorised rfl (by decide) (by decide) ⟨rfl, rfl, rfl⟩
    (rfl : applyTransaction paying firstSeen signedPayment notFrozen [] = .ok (.Success, _)) rfl

def freezing : Checks (List AccountID) := content [(9, frozen [8])]

/-- Account 7 is the administrator. Only its key is in the transaction, not its signature. -/
def forgedFreeze : STTx := { payment with type := .ttFREEZE_ACCOUNT, isSTETx_type := Bool.noConfusion }

/-- Account 8 is frozen by a transaction that nobody has signed. -/
theorem forged_freeze_applied :
    ∃ effect, applyTransaction freezing firstSeen forgedFreeze notFrozen [] = .ok (.Success, effect) ∧
      effect.result = tesSUCCESS ∧ notFrozen.read 9 = some (frozen []) ∧
      effect.view.read 9 = some (frozen [8]) ∧ ¬Signed freezing forgedFreeze := by
  refine ⟨_, rfl, rfl, rfl, rfl, ?_⟩
  unfold Signed
  decide

end Chainsql.Tx
