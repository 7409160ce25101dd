import Chainsql.Storage.Refines

/-!
# Building a ledger on a node

A transaction is a program over the view of the ledger that is built. Besides the contract storage and the
statistics of the ledger, it can ask the node itself: its SQL database, clock, ledgers, load and configuration.
The statistics entry is made from an object of the node when the ledger has none.
-/

namespace Chainsql.Build

open Evm (AccountID Word Bytes)
open Storage (Hashes OpenView Accounts ContractHelper)
open ShaMap (SHAMap)

abbrev TxID := ℕ

/-! ## The statistics entry -/

inductive CountField where
  | sfTxSuccessCountField | sfTxFailureCountField | sfContractCallCountField | sfContractCreateCountField
  | sfAccountCountField
deriving DecidableEq

/-- The fields of an entry that are present. -/
abbrev Statis := CountField → Option UInt32

inductive ContractState where
  | CONTRACT_CREATE | CONTRACT_CALL | CONTRACT_DESTORY

namespace Statis

variable (sle : Statis)

def getFieldU32 (field : CountField) : UInt32 := (sle field).getD 0

def setFieldU32 (field : CountField) (count : UInt32) : Statis := Function.update sle field (some count)

def add (field : CountField) (n : ℕ) : Statis := sle.setFieldU32 field (sle.getFieldU32 field + UInt32.ofNat n)

def isCompleteReadData : Bool :=
  (sle .sfTxSuccessCountField).isSome && (sle .sfTxFailureCountField).isSome &&
    (sle .sfContractCallCountField).isSome && (sle .sfContractCreateCountField).isSome &&
    (sle .sfAccountCountField).isSome

def changeContract : ContractState → Statis
  | .CONTRACT_CREATE => sle.add .sfContractCreateCountField 1
  | .CONTRACT_CALL => sle.add .sfContractCallCountField 1
  | .CONTRACT_DESTORY =>
    let count := sle.getFieldU32 .sfContractCreateCountField
    if count = 0 then sle else sle.setFieldU32 .sfContractCreateCountField (count - 1)

/-- The object of the node after `updateContractCount`, when the ledger has no entry. -/
def newContract : ContractState → Statis
  | .CONTRACT_CREATE => sle.add .sfContractCreateCountField 1
  | .CONTRACT_CALL => sle.add .sfContractCallCountField 1
  | .CONTRACT_DESTORY => sle

def addTx (successCount failCount : ℕ) : Statis :=
  (sle.add .sfTxSuccessCountField successCount).add .sfTxFailureCountField failCount

def addAccount (accountCount : ℕ) : Statis := sle.add .sfAccountCountField accountCount

end Statis

/-- The entry in the view of a transaction. One that the transaction has inserted is the object of the node. -/
inductive Entry where
  | absent
  | copy (sle : Statis)
  | prometh

namespace Entry

def peek : Option Statis → Entry
  | some sle => copy sle
  | none => absent

def value (promethSle : Statis) : Entry → Option Statis
  | absent => none
  | copy sle => some sle
  | prometh => some promethSle

theorem value_peek (statis : Option Statis) (promethSle : Statis) : (peek statis).value promethSle = statis := by
  cases statis with
  | none => rfl
  | some sle => rfl

/-- The entry and the object of the node after `LedgerAdjust::updateContractCount`. -/
def updateContractCount (state : ContractState) (promethSle : Statis) : Entry → Entry × Statis
  | copy sle => (copy (sle.changeContract state), promethSle)
  | prometh => (prometh, promethSle.changeContract state)
  | absent => if promethSle.isCompleteReadData then (prometh, promethSle.newContract state) else (absent, promethSle)

end Entry

/-! ## Nodes -/

/-- The queries that `LedgerAdjust::createSle` makes to the tables of the node. -/
inductive CountQuery where
  | getTxSucessCount | getTxFailCount | getContractCallCount | getContractCreateCount | getAccountCount

/-- What a transaction asks the node. -/
inductive Question where
  -- the SQL database
  | checkGlobalConnection
  | isHaveTx (txid : TxID)
  | dispose (txid : TxID)
  | countRows (nameInDB : ℕ) (account : AccountID)
  | getRecord2D (sql : Bytes)
  -- `EnvInfoImpl::block_timestamp`, which is the wall clock, and `ExtVM::blockHash`
  | time
  | getLedgerBySeq (seq : ℕ)
  | getLedgerByHash (hash : HashValue)
  | getValidatedLedger
  | getLastConsensusTime
  | getMasterTransaction (txid : TxID)
  -- the load, by which the gas price is scaled, and the open ledger, which has the chain id
  | getFeeTrack
  | openLedger
  | getAccountCheckSeq (account : AccountID)
  | getHashRouter (txid : TxID)
  | config
  | userCertList

structure Node where
  useTxTables : Bool
  useTraceTable : Bool
  txnDB : CountQuery → ℕ
  /-- The answers, by the number of questions asked before; `none` stands for an error. -/
  answer : ℕ → Question → Option ℕ
  promethSle : Statis
  helper : ContractHelper

namespace Node

variable (node : Node)

/-- The job that is started when the node has a port for its statistics. -/
def createSle : Node :=
  if !node.useTxTables || !node.useTraceTable then node
  else
    let contractCount := node.txnDB .getContractCreateCount
    let accountCount := if node.txnDB .getAccountCount = 0 then 1 else node.txnDB .getAccountCount
    let accountCount := if 1 < accountCount then accountCount - contractCount else accountCount
    { node with
      promethSle := ((((node.promethSle.setFieldU32 .sfTxSuccessCountField (.ofNat (node.txnDB .getTxSucessCount))
        ).setFieldU32 .sfTxFailureCountField (.ofNat (node.txnDB .getTxFailCount))
        ).setFieldU32 .sfContractCallCountField (.ofNat (node.txnDB .getContractCallCount))
        ).setFieldU32 .sfContractCreateCountField (.ofNat contractCount)
        ).setFieldU32 .sfAccountCountField (.ofNat accountCount) }

end Node

/-! ## Transactions -/

/-- The state of the ledger besides the storage of contracts and the statistics: an amendment, the rows that
accounts have inserted into tables with a limit, and everything else. -/
structure State (σ : Type) where
  featurePromethSLEHideInMeta : Bool
  insertCountMap : AccountID → Option (AList fun _ : ℕ => ℕ)
  other : σ

inductive ApplyResult where
  | Success | Fail | Retry

inductive Prog (σ : Type) where
  | done (result : ApplyResult) (metadata : Bytes)
  | read (next : State σ → Prog σ)
  | write (state : State σ) (next : Prog σ)
  | updateContractCount (state : ContractState) (next : Prog σ)
  | createContractAccount (contract : AccountID) (next : Prog σ)
  | store (contract : AccountID) (key : Word) (next : Word → Prog σ)
  | setStore (contract : AccountID) (key value : Word) (next : Prog σ)
  | discard (next : Prog σ)
  | ask (question : Question) (next : Option ℕ → Prog σ)

/-- The program asks the node no other questions. -/
def Prog.AsksOnly {σ : Type} (Q : Set Question) : Prog σ → Prop
  | .done _ _ => True
  | .read next => ∀ state, (next state).AsksOnly Q
  | .write _ next => next.AsksOnly Q
  | .updateContractCount _ next => next.AsksOnly Q
  | .createContractAccount _ next => next.AsksOnly Q
  | .store _ _ next => ∀ value, (next value).AsksOnly Q
  | .setStore _ _ _ next => next.AsksOnly Q
  | .discard next => next.AsksOnly Q
  | .ask question next => question ∈ Q ∧ ∀ answer, (next answer).AsksOnly Q

/-- A transaction, with the program for a pass in which it can be retried and for the last one. -/
structure Tx (σ : Type) where
  txid : TxID
  prog : Bool → Prog σ

/-- What the transaction map keeps. The metadata show the statistics entry if the amendment does not hide it. -/
structure TxRecord where
  txid : TxID
  metadata : Bytes
  statis : Option Statis

/-- The view of the build, with the object of the node. -/
structure Accum (σ : Type) where
  state : State σ
  statis : Option Statis
  txs : List TxRecord
  storage : OpenView
  promethSle : Statis
  asked : ℕ

structure Running (σ : Type) where
  state : State σ
  entry : Entry
  storage : OpenView
  promethSle : Statis
  asked : ℕ

section Apply

variable {σ : Type} (H : Hashes) (answer : ℕ → Question → Option ℕ)

def Accum.begin (a : Accum σ) : Running σ := ⟨a.state, .peek a.statis, a.storage.begin false, a.promethSle, a.asked⟩

/-- The changes of the transaction are dropped, those to the object of the node are not. -/
def Running.discard (a : Accum σ) (r : Running σ) : Running σ :=
  ⟨a.state, .peek a.statis, r.storage.discard, r.promethSle, r.asked⟩

/-- A contract without account ends the transaction with an exception. -/
def Prog.run (a : Accum σ) : Prog σ → Running σ → ApplyResult × Bytes × Running σ
  | .done result metadata, r => (result, metadata, r)
  | .read next, r => (next r.state).run a r
  | .write state next, r => next.run a { r with state }
  | .updateContractCount state next, r =>
    let (entry, promethSle) := r.entry.updateContractCount state r.promethSle
    next.run a { r with entry, promethSle }
  | .createContractAccount contract next, r =>
    if (r.storage.ctx.view contract).isSome then next.run a r
    else next.run a { r with storage := r.storage.createContractAccount contract }
  | .store contract key next, r =>
    if (r.storage.ctx.view contract).isSome then
      let (value, storage) := r.storage.store H contract key
      (next value).run a { r with storage }
    else (.Fail, [], r)
  | .setStore contract key value next, r =>
    if (r.storage.ctx.view contract).isSome then
      next.run a { r with storage := r.storage.setStore H contract key value }
    else (.Fail, [], r)
  | .discard next, r => next.run a (r.discard a)
  | .ask question next, r => (next (answer r.asked question)).run a { r with asked := r.asked + 1 }

def Running.commit (a : Accum σ) (txid : TxID) (metadata : Bytes) (r : Running σ) : Accum σ where
  state := r.state
  statis := r.entry.value r.promethSle
  txs := a.txs ++ [⟨txid, metadata, if r.state.featurePromethSLEHideInMeta then none else r.entry.value r.promethSle⟩]
  storage := r.storage.commit
  promethSle := r.promethSle
  asked := r.asked

def Running.drop (a : Accum σ) (r : Running σ) : Accum σ :=
  { a with storage := r.storage.discard, promethSle := r.promethSle, asked := r.asked }

def applyTransaction (a : Accum σ) (tx : Tx σ) (retryAssured : Bool) : ApplyResult × Accum σ :=
  match (tx.prog retryAssured).run H answer a a.begin with
  | (.Success, metadata, r) => (.Success, r.commit a tx.txid metadata)
  | (result, _, r) => (result, r.drop a)

/-! ## The passes -/

structure Pass (σ : Type) where
  left : List (Tx σ)
  failed : List TxID
  changes : ℕ
  accum : Accum σ

/-- One transaction of a pass. None is in the map of the new ledger, which is filled at the end of the build. -/
def Pass.step (certainRetry : Bool) (p : Pass σ) (tx : Tx σ) : Pass σ :=
  match applyTransaction H answer p.accum tx certainRetry with
  | (.Success, accum) => { p with changes := p.changes + 1, accum }
  | (.Fail, accum) => { p with failed := p.failed.insert tx.txid, accum }
  | (.Retry, accum) => { p with left := p.left ++ [tx], accum }

def applyPass (certainRetry : Bool) (txns : List (Tx σ)) (failed : List TxID) (a : Accum σ) : Pass σ :=
  txns.foldl (Pass.step H answer certainRetry) ⟨[], failed, 0, a⟩

/-- The passes from number `pass` on, with the transactions applied so far. -/
def applyPasses : ℕ → ℕ → Bool → List (Tx σ) → List TxID → ℕ → Accum σ → ℕ × List TxID × Accum σ
  | 0, _, _, _, failed, count, a => (count, failed, a)
  | passes + 1, pass, certainRetry, txns, failed, count, a =>
    let p := applyPass H answer certainRetry txns failed a
    if p.changes = 0 ∧ certainRetry = false then (count, p.failed, p.accum)
    else
      let certainRetry := certainRetry && !(p.changes == 0 || decide (1 ≤ pass))
      applyPasses passes (pass + 1) certainRetry p.left p.failed (count + p.changes) p.accum

/-- The entry of the ledger is changed, or made from the object of the node. -/
def Accum.updateCount (change : Statis → Statis) (a : Accum σ) : Accum σ :=
  match a.statis with
  | some sle => { a with statis := some (change sle) }
  | none =>
    if a.promethSle.isCompleteReadData then
      { a with statis := some (change a.promethSle), promethSle := change a.promethSle }
    else a

def Accum.updateTxCount (successCount failCount : ℕ) : Accum σ → Accum σ := .updateCount (·.addTx successCount failCount)

def Accum.updateAccountCount (accountCount : ℕ) : Accum σ → Accum σ := .updateCount (·.addAccount accountCount)

def applyTransactions (txns : List (Tx σ)) (a : Accum σ) : Accum σ :=
  let (count, failed, a) := applyPasses H answer 3 0 true txns [] 0 a
  a.updateTxCount count failed.length

/-! ## Ledgers -/

structure CloseData where
  closeTime : ℕ
  closeTimeCorrect : Bool
  closeResolution : ℕ

/-- A ledger: its state map with the storage roots and the statistics entry, its transaction map, and the close
data. Its hash is computed from these. -/
structure Ledger (σ : Type) where
  state : State σ
  statis : Option Statis
  accounts : Accounts
  txs : List TxRecord
  close : CloseData

/-- The steps of a build that read nothing but the ledger: the new ledger on the parent, the new accounts among
the changes, and the skip list. -/
structure Chain (σ : Type) where
  newLedger : State σ → CloseData → State σ
  newAccountCount : State σ → State σ → ℕ
  updateSkipList : State σ → State σ

variable (chain : Chain σ)

/-- The view of the new ledger. Its trees are loaded anew, whatever is left of earlier builds. -/
def Accum.start (node : Node) (parent : Ledger σ) (close : CloseData) : Accum σ :=
  ⟨chain.newLedger parent.state close, parent.statis, [], .start parent.accounts node.helper.nodes, node.promethSle, 0⟩

/-- The ledger, and the node after the build. -/
def buildLedger (node : Node) (parent : Ledger σ) (close : CloseData) (txns : List (Tx σ)) : Ledger σ × Node :=
  let a := applyTransactions H node.answer txns (.start chain node parent close)
  let a := a.updateAccountCount (chain.newAccountCount (chain.newLedger parent.state close) a.state)
  let storage := a.storage.applyContracts H
  (⟨chain.updateSkipList a.state, a.statis, storage.accounts, a.txs, close⟩,
    { node with promethSle := a.promethSle, helper := storage.helper })

end Apply

/-! ## Statements on tables with rules -/

inductive TableOpType where
  | R_INSERT | R_UPDATE | R_DELETE

/-- A statement, with what its table says. -/
structure Statement (σ : Type) where
  txid : TxID
  account : AccountID
  opType : TableOpType
  nameInDB : ℕ
  rows : ℕ
  hasOperationRule : σ → Bool
  insertLimit : σ → ℕ
  applyHandler : State σ → Option (State σ)

section Statements

variable {σ : Type} (tx : Statement σ)

def failedTx : Prog σ := .done .Fail []

def State.setCount (s : State σ) (account : AccountID) (map : AList fun _ : ℕ => ℕ) : State σ :=
  { s with insertCountMap := Function.update s.insertCountMap account (some map) }

/-- `OperationRule::adjustInsertCount`. -/
def adjustInsertCount (next : Prog σ) : Prog σ :=
  .read fun s =>
    if tx.insertLimit s.other = 0 then next
    else
      match tx.opType with
      | .R_INSERT =>
        let map := (s.insertCountMap tx.account).getD ∅
        .write (s.setCount tx.account (map.insert tx.nameInDB ((map.lookup tx.nameInDB).getD 0 + tx.rows))) next
      | .R_UPDATE => next
      | .R_DELETE =>
        .ask (.countRows tx.nameInDB tx.account) fun
          | none => failedTx
          | some count =>
            match s.insertCountMap tx.account with
            | none => next
            | some map =>
              if (map.lookup tx.nameInDB).isSome then .write (s.setCount tx.account (map.insert tx.nameInDB count)) next
              else next

/-- `SqlStatement::preApplyForOperationRule`. -/
def preApplyForOperationRule (next : Prog σ) : Prog σ :=
  .read fun s =>
    if tx.hasOperationRule s.other then
      .ask .checkGlobalConnection fun
        | none => failedTx
        | some _ =>
          .ask (.isHaveTx tx.txid) fun
            | some _ => adjustInsertCount tx next
            | none =>
              .ask (.dispose tx.txid) fun
                | none => failedTx
                | some _ => adjustInsertCount tx next
    else next

/-- `SqlStatement::doApply`. -/
def sqlStatement (metadata : Bytes) : Tx σ where
  txid := tx.txid
  prog _ := preApplyForOperationRule tx (.read fun s =>
    match tx.applyHandler s with
    | none => failedTx
    | some s => .write s (.done .Success metadata))

end Statements

end Chainsql.Build
