import Chainsql.Tx.View

/-!
# Application of a transaction

`Transactor::operator()` with `apply`, `reset` and the invariant checks. What the class of a transaction
type does in `preChainsql` and `doApply` is a parameter. On any result but success the changes are
discarded and only the fee is taken, and in contrast to where this code comes from that is always
written to the ledger.
-/

namespace Chainsql.Tx

open Evm (Crash TER tesSUCCESS AccountID Word LogEntry Bytes)

def terPRE_SEQ : TER := ⟨8⟩
def tecOVERSIZE : TER := ⟨145⟩
def tecINVARIANT_FAILED : TER := ⟨147⟩
def tecKILLED : TER := ⟨150⟩
def tefPAST_SEQ : TER := ⟨309⟩
def tefINVARIANT_FAILED : TER := ⟨317⟩

inductive TxType where
  | ttPAYMENT | ttESCROW_CREATE | ttESCROW_FINISH | ttACCOUNT_SET | ttESCROW_CANCEL | ttREGULAR_KEY_SET
  | ttOFFER_CREATE | ttOFFER_CANCEL | ttTICKET_CREATE | ttTICKET_CANCEL | ttSIGNER_LIST_SET
  | ttPAYCHAN_CREATE | ttPAYCHAN_FUND | ttPAYCHAN_CLAIM | ttCHECK_CREATE | ttCHECK_CASH | ttCHECK_CANCEL
  | ttDEPOSIT_PREAUTH | ttTRUST_SET | ttTABLELISTSET | ttSQLSTATEMENT | ttSQLTRANSACTION | ttCONTRACT
  | ttSCHEMA_CREATE | ttSCHEMA_MODIFY | ttFREEZE_ACCOUNT | ttSCHEMA_DELETE | ttAUTHORIZE | ttETH_TX
  | ttACCOUNT_DELETE | ttAMENDMENT | ttFEE | ttUNL_MODIFY
deriving DecidableEq

structure Signer where
  account : AccountID
  signingPubKey : Bytes
  txnSignature : Bytes

/-- The fields of a transaction that the engine itself reads. The fee is in drops, unless it is an
amount of an issued currency. `logs` is what contracts have logged into it already. -/
structure STTx where
  id : Word
  type : TxType
  /-- Whether it is an `STETx`: it was read from a transaction of Ethereum, and `account` was computed from
  the signature. -/
  isSTETx : Bool
  isSTETx_type : isSTETx = true → type = .ttETH_TX
  account : AccountID
  sequence : UInt32
  fee : Option Int
  lastLedgerSequence : Option UInt32
  accountTxnID : Option Word
  signingPubKey : Bytes
  txnSignature : Option Bytes
  signers : Option (List Signer)
  fullyCanonicalSig : Bool
  contractAddress : Option AccountID
  logs : List LogEntry

def STTx.zxc (tx : STTx) : Except Crash Int :=
  match tx.fee with
  | some fee => .ok fee
  | none => .error .exception

variable {σ : Type}

/-- The members of the class of a transaction type, and the parts of the engine that are not modelled. -/
structure Transactor (σ : Type) where
  fmt : LedgerFormat σ
  account : AccountID → Word
  preChainsql : STTx → OpenView σ → ApplyView σ → Except Crash (TER × ApplyView σ)
  doApply : STTx → OpenView σ → ApplyView σ → Except Crash (TER × ApplyView σ × List LogEntry)
  /-- `removeUnfundedOffers` for the offers that the first view removes. -/
  removeUnfundedOffers : OpenView σ → ApplyView σ → ApplyView σ → ApplyView σ
  /-- Offers hold no ZXC. -/
  removeUnfundedOffers_net : ∀ base removed view, (removeUnfundedOffers base removed view).net base = view.net base
  /-- The invariants that are not about ZXC. -/
  otherInvariants : STTx → TER → OpenView σ → ApplyView σ → Except Crash Bool
  featureBloomFilter : Bool

section

variable (t : Transactor σ) (tx : STTx) (base : OpenView σ)

def sender : Option (SLE σ × AccountRoot) :=
  match base.read (t.account tx.account) with
  | some sle =>
    match sle.entry with
    | .accountRoot root => some (sle, root)
    | _ => none
  | none => none

def SLE.withRoot (sle : SLE σ) (root : AccountRoot) : SLE σ := { sle with entry := .accountRoot root }

def payFee (sle : SLE σ) (root : AccountRoot) (fee : Int) : ApplyView σ :=
  ApplyView.start.update (t.account tx.account)
    (sle.withRoot { root with
      balance := root.balance - fee
      sequence := tx.sequence + 1
      accountTxnID := root.accountTxnID.map fun _ => tx.id })

def tefTABLE_STORAGENORMALERROR : TER := ⟨335⟩

def apply : Except Crash (TER × ApplyView σ × List LogEntry) := do
  let view ←
    match sender t tx base with
    | some (sle, root) => tx.zxc.map (payFee t tx sle root)
    | none => .ok .start
  let (res, view) ← t.preChainsql tx base view
  if res ≠ tesSUCCESS ∧ res ≠ tefTABLE_STORAGENORMALERROR then .ok (res, view, tx.logs)
  else do
    let (res, view, logs) ← t.doApply tx base view
    return (res, view, tx.logs ++ logs)

/-- The transaction is applied only if preclaim succeeded. -/
def attempt (preclaimResult : TER) : Except Crash (TER × ApplyView σ × List LogEntry) :=
  if preclaimResult = tesSUCCESS then apply t tx base else .ok (preclaimResult, .start, tx.logs)

def charged (root : AccountRoot) (fee : Int) : AccountRoot :=
  { root with
    balance := root.balance - fee
    sequence := if root.sequence = tx.sequence then tx.sequence + 1 else root.sequence }

/-- Everything is discarded, and the fee that can be paid is taken. -/
def reset (fee : Int) : Int × ApplyView σ :=
  match sender t tx base with
  | none => (0, .start)
  | some (sle, root) =>
    let fee := if root.balance < fee then root.balance else fee
    (fee, ApplyView.start.update (t.account tx.account) (sle.withRoot (charged tx root fee)))

def INITIAL_ZXC : Int := 100000000000000000

/-- A sum of `int64`. -/
def addDrops (a b : Int) : Except Crash Int :=
  if -2 ^ 63 ≤ a + b ∧ a + b < 2 ^ 63 then .ok (a + b) else .error .undefined

namespace ZXCNotCreated

/-- The ZXC of an entry that is looked at, if it counts. -/
def counted (isDelete : Bool) : Entry → Int
  | .accountRoot root => root.balance
  | .payChan amount balance => if isDelete then 0 else amount - balance
  | .escrow amount isZXC => if isDelete then 0 else if isZXC then amount else 0
  | .signerList _ _ => 0
  | .other => 0

def visitEntry (drops : Int) (isDelete : Bool) (before : Option (SLE σ)) (after : SLE σ) : Except Crash Int := do
  let drops ← addDrops drops (-before.elim 0 fun sle => counted false sle.entry)
  addDrops drops (counted isDelete after.entry)

def visitItem (drops : Int) (k : Word) (item : Item σ) : Except Crash Int :=
  match item.action with
  | .cache => .ok drops
  | .erase => visitEntry drops true (base.read k) item.sle
  | .insert => visitEntry drops false none item.sle
  | .modify => visitEntry drops false (base.read k) item.sle

def visit (drops : Int) : List (Sigma fun _ : Word => Item σ) → Except Crash Int
  | [] => .ok drops
  | e :: es => do visit (← visitItem base drops e.1 e.2) es

def finalize (fee drops : Int) : Bool :=
  if tx.type = .ttCONTRACT ∨ tx.type = .ttETH_TX then true
  else if 0 < drops then false
  else -drops = fee

end ZXCNotCreated

def TransactionFeeCheck (fee : Int) : Except Crash Bool :=
  if fee < 0 then .ok false
  else if INITIAL_ZXC ≤ fee then .ok false
  else do return !(decide ((← tx.zxc) < fee))

namespace ZXCBalanceChecks

def isBad (sle : SLE σ) : Bool :=
  match sle.entry with
  | .accountRoot root => INITIAL_ZXC < root.balance ∨ root.balance < 0
  | _ => false

def bad (view : ApplyView σ) : Bool :=
  view.items.entries.any fun e =>
    match e.2.action with
    | .cache => false
    | .insert => isBad e.2.sle
    | _ => (base.read e.1).any isBad || isBad e.2.sle

end ZXCBalanceChecks

def failInvariantCheck (result : TER) : TER :=
  if result = tecINVARIANT_FAILED ∨ result = tefINVARIANT_FAILED then tefINVARIANT_FAILED
  else tecINVARIANT_FAILED

/-- An exception of a check is a failure of it. -/
def checkInvariants (view : ApplyView σ) (result : TER) (fee : Int) : Except Crash TER := do
  let drops ← ZXCNotCreated.visit base 0 view.items.entries
  match TransactionFeeCheck tx fee, t.otherInvariants tx result base view with
  | .ok feeCheck, .ok others =>
    if feeCheck && others && !ZXCBalanceChecks.bad base view && ZXCNotCreated.finalize tx fee drops then .ok result
    else .ok (failInvariantCheck result)
  | .error .exception, _ => .ok (failInvariantCheck result)
  | .error crash, _ => .error crash
  | _, .error .exception => .ok (failInvariantCheck result)
  | _, .error crash => .error crash

def oversizeMetaDataCap : Nat := 5200

def claimFee (result : TER) (view : ApplyView σ) (fee : Int) : Int × ApplyView σ :=
  if result = tesSUCCESS then (fee, view)
  else
    let (fee, fresh) := reset t tx base fee
    if result = tecOVERSIZE ∨ result = tecKILLED then
      (fee, t.removeUnfundedOffers base (if result = tecOVERSIZE then view else .start) fresh)
    else (fee, fresh)

/-- The invariants are checked if there was success before the size of the changes was looked at. -/
def settle (applied : Bool) (result : TER) (view : ApplyView σ) (fee : Int) :
    Except Crash (TER × ApplyView σ × Int) :=
  if applied then do
    let result ← checkInvariants t tx base view result fee
    if result = tecINVARIANT_FAILED then do
      let (fee, view) := reset t tx base fee
      return (← checkInvariants t tx base view result fee, view, fee)
    else return (result, view, fee)
  else .ok (result, view, fee)

/-- What is left of a transaction in the program: the view, and the logs that are collected for the bloom
filter of the ledger. -/
structure Effect (σ : Type) where
  result : TER
  isApplied : Bool
  view : OpenView σ
  bloomLogs : List (AccountID × List LogEntry)

def isContract (tx : STTx) : Bool := tx.type = .ttCONTRACT ∨ tx.type = .ttETH_TX

variable [DecidableEq σ]

/-- The last part of `operator()`: the result is written to the view. -/
def commit (bloomLogs : List (AccountID × List LogEntry)) (result : TER) (view : ApplyView σ) (fee : Int)
    (logs : List LogEntry) : Except Crash (Effect σ) :=
  if fee < 0 then .error .exception
  else do
    let destroyed := if base.isOpen then 0 else fee
    let view ← view.apply t.fmt base tx.id ⟨result, if isContract tx then logs else []⟩ destroyed
    if result = tesSUCCESS ∧ t.featureBloomFilter ∧ logs ≠ [] then
      match tx.contractAddress with
      | some address => .ok ⟨result, true, view, bloomLogs ++ [(address, logs)]⟩
      | none => .error .undefined
    else .ok ⟨result, true, view, bloomLogs⟩

/-- `operator()`, for the result of preclaim. -/
def run (preclaimResult : TER) (bloomLogs : List (AccountID × List LogEntry)) : Except Crash (Effect σ) :=
  if preclaimResult = terPRE_SEQ ∨ preclaimResult = tefPAST_SEQ then
    .ok ⟨preclaimResult, false, base, bloomLogs⟩
  else do
    let (result, view, logs) ← attempt t tx base preclaimResult
    let applied : Bool := result = tesSUCCESS
    let fee ← tx.zxc
    let result := if oversizeMetaDataCap < view.size then tecOVERSIZE else result
    let (fee, view) := claimFee t tx base result view fee
    let (result, view, fee) ← settle t tx base applied result view fee
    commit t tx base bloomLogs result view fee logs

end

end Chainsql.Tx
