import Chainsql.TableSync.SyncQueue

/-!
# Ledgers into the database

`DealWithEveryLedgerData` applies the transactions of the ledgers in `aWholeData` to the node's SQL
database. The transactions of a ledger are cut into slices, each of which runs in a database
transaction of its own. The id of the last transaction of the last slice that was done is kept in the
status table of the same database, where it is part of that database transaction, and in memory.

What the SQL of a statement does to the data is a parameter. A connection can be lost at any point
where the database is used; the loss of a connection while a transaction is committed, or while a
statement outside of a transaction is executed, leaves open whether it has taken effect.
-/

namespace Chainsql.TableSync

variable {α δ : Type}

inductive OpType
  | create
  | drop
  | other
deriving DecidableEq, Repr

structure Statement (α : Type) where
  opType : OpType
  body : α

/-- A transaction as far as it is about the table: `getTxs` selects the statements by the table's name in
the database, and takes all of them when that is empty. -/
structure Tx (α : Type) where
  id : HashValue
  -- Whether it is a `ttSQLTRANSACTION` or a `ttCONTRACT`.
  atomic : Bool
  statements : List (Statement α)
  allStatements : List (Statement α) := statements

def Tx.getTxs (tx : Tx α) (named : Bool) : List (Statement α) :=
  if named then tx.statements else tx.allStatements

abbrev LedgerData (α : Type) := TableData (Tx α)

structure Store (α δ : Type) where
  dispose : Statement α → δ → Option δ
  dropTable : δ → δ

/-! ## Conditions -/

inductive SyncCondType
  | noCondition
  | prior
  | after
  | jump
deriving DecidableEq, Repr

structure SyncCond where
  eSyncType : SyncCondType := .noCondition
  uledgerIndex : Nat := 0
  utime : Nat := 0
  stxid : Option HashValue := none

inductive CheckConditionState
  | advanced
  | reject
  | jump
deriving DecidableEq, Repr

namespace SyncCond

def isJumpThisTx (cond : SyncCond) (txid : HashValue) : Bool :=
  cond.eSyncType == .jump && cond.stxid == some txid

def condFilter (cond : SyncCond) (time ledgerIndex : Nat) (txid : HashValue) : CheckConditionState :=
  match cond.eSyncType with
  | .prior =>
    if cond.uledgerIndex > 0 ∧ cond.uledgerIndex < ledgerIndex then .reject
    else if time > 0 ∧ cond.utime > 0 ∧ cond.utime < time then .reject
    else .advanced
  | .jump =>
    if cond.stxid = some txid then .jump
    else if cond.uledgerIndex > 0 ∧ cond.uledgerIndex = ledgerIndex then .jump
    else .advanced
  | _ => .advanced

def filterLedger (cond : SyncCond) (data : LedgerData α) : CheckConditionState :=
  cond.condFilter data.closeTime data.ledgerSeq zeroHash

end SyncCond

/-! ## Slices -/

/-- The loop of `fetchLedgerTxSlices`, with the slice that is being filled. -/
def cutSlices (txSlice : List (Tx α)) : List (Tx α) → List (List (Tx α))
  | [] => if txSlice.isEmpty then [] else [txSlice]
  | tx :: rest =>
    if tx.atomic then
      if txSlice.isEmpty then [tx] :: cutSlices [] rest else txSlice :: [tx] :: cutSlices [] rest
    else cutSlices (txSlice ++ [tx]) rest

def fetchLedgerTxSlices (data : LedgerData α) : List (List (Tx α)) := cutSlices [] data.txNodes

def lastTxHash (slice : List (Tx α)) : HashValue := (slice.getLast?.map Tx.id).getD zeroHash

/-! ## The database and the item -/

/-- The data and the row of the table in the status table. -/
structure Database (δ : Type) where
  data : δ
  txnUpdateHash : HashValue := zeroHash
  ledgerSeq : Nat := 0
  recorded : Bool := true

structure Item (δ : Type) where
  db : Database δ
  uTxDBUpdateHash : HashValue := zeroHash
  -- Whether `sTableNameInDB_` is not empty.
  named : Bool := true
  -- `SYNC_STOP`
  stopped : Bool := false

/-- The item of a node that has been started on the database. -/
def Item.reload (db : Database δ) : Item δ := { db := db, uTxDBUpdateHash := db.txnUpdateHash }

def Item.reSetContexAfterDrop (item : Item δ) : Item δ :=
  { item with named := false, uTxDBUpdateHash := zeroHash }

/-- The row is found by the name of the table. -/
def Database.updateSyncDB (db : Database δ) (named isLastOne : Bool) (updateHash : HashValue) (ledgerSeq : Nat) :
    Database δ :=
  if named && db.recorded then
    if isLastOne then { db with ledgerSeq := ledgerSeq, txnUpdateHash := zeroHash }
    else { db with txnUpdateHash := updateHash }
  else db

/-- A slice at work: the item, with the committed database, and the database as the open transaction
sees it. -/
structure Work (δ : Type) where
  item : Item δ
  tran : Database δ

/-- `DeleteTable` uses another connection and is not part of the transaction. -/
def Work.deleteTable (store : Store α δ) (w : Work δ) : Work δ :=
  { item := { w.item with db := { w.item.db with data := store.dropTable w.item.db.data } }
    tran := { w.tran with data := store.dropTable w.tran.data } }

def dealTranCommonTx (store : Store α δ) (w : Work δ) (stmt : Statement α) : Work δ × Bool :=
  match store.dispose stmt w.tran.data with
  | some data =>
    let w := { w with tran := { w.tran with data := data } }
    (if stmt.opType = .drop then { w with item := w.item.reSetContexAfterDrop } else w, true)
  | none =>
    (if stmt.opType = .create then
      { item := w.item.reSetContexAfterDrop, tran := { w.tran with recorded := false } } else w, false)

inductive TxResult
  | done (ok : Bool)
  | lost

/-- The statements up to the first one that fails, or to the one at which the connection is lost. -/
def dealWithTx (store : Store α δ) : Option Nat → List (Statement α) → Work δ → Work δ × TxResult
  | _, [], w => (w, .done true)
  | some 0, _ :: _, w => (w, .lost)
  | lost, stmt :: rest, w =>
    match dealTranCommonTx store w stmt with
    | (w, true) => dealWithTx store (lost.map Nat.pred) rest w
    | (w, false) => (w, .done false)

structure TxOutcome (δ : Type) where
  work : Work δ
  rollback : Bool
  connectionErr : Bool

def dealWithEveryTx (store : Store α δ) (lost : Option Nat) (tx : Tx α) (w : Work δ) : TxOutcome δ :=
  let vecTxs := tx.getTxs w.item.named
  let w := vecTxs.foldl (fun w stmt => if stmt.opType = .create then w.deleteTable store else w) w
  match dealWithTx store lost vecTxs w with
  | (w, .lost) => ⟨w, false, true⟩
  | (w, .done ok) => ⟨w, !ok && tx.atomic, false⟩

/-! ## The loops -/

/-- Where a connection is lost while a slice is processed. -/
inductive Point
  | opening
  -- At a statement of the transaction at some place of the slice.
  | statement (tx stmt : Nat)
  | rollback
  | update (landed : Bool)
  | commit (landed : Bool)
deriving DecidableEq, Repr

structure Scan (δ : Type) where
  work : Work δ
  bFoundLastSuccessTx : Bool
  rollback : Bool

def lostAt (point : Option Point) (j : Nat) : Option Nat :=
  match point with
  | some (.statement tx stmt) => if tx = j then some stmt else none
  | _ => none

/-- The loop over the transactions of a slice. The flag of the result says whether it was left because
of a connection error. -/
def scanSlice (store : Store α δ) (cond : SyncCond) (point : Option Point) :
    Nat → List (Tx α) → Scan δ → Scan δ × Bool
  | _, [], s => (s, false)
  | j, tx :: rest, s =>
    if s.bFoundLastSuccessTx = false then
      scanSlice store cond point (j + 1) rest
        { s with bFoundLastSuccessTx := decide (tx.id = s.work.item.uTxDBUpdateHash) }
    else if cond.isJumpThisTx tx.id then scanSlice store cond point (j + 1) rest s
    else
      let outcome := dealWithEveryTx store (lostAt point j) tx s.work
      let s := { s with work := outcome.work, rollback := outcome.rollback }
      if outcome.connectionErr then (s, true) else scanSlice store cond point (j + 1) rest s

structure Loop (δ : Type) where
  item : Item δ
  bFoundLastSuccessTx : Bool
  rollback : Bool

def Item.setUpdateHash (item : Item δ) (isLastOne : Bool) (updateHash : HashValue) : Item δ :=
  { item with uTxDBUpdateHash := if isLastOne then zeroHash else updateHash }

/-- After the rollback of a transaction that has failed the status is updated without a transaction. -/
def finishRollback (point : Option Point) (isLastOne : Bool) (updateHash : HashValue) (ledgerSeq : Nat)
    (w : Work δ) : Item δ × Bool :=
  let updated := w.item.db.updateSyncDB w.item.named isLastOne updateHash ledgerSeq
  match point with
  | some .rollback => (w.item, true)
  | some (.update landed) => (if landed then { w.item with db := updated } else w.item, true)
  | _ => ({ w.item with db := updated }.setUpdateHash isLastOne updateHash, false)

/-- The hash in memory is set before the transaction is committed. -/
def finishCommit (point : Option Point) (isLastOne : Bool) (updateHash : HashValue) (ledgerSeq : Nat)
    (w : Work δ) : Item δ × Bool :=
  let updated := w.tran.updateSyncDB w.item.named isLastOne updateHash ledgerSeq
  match point with
  | some (.update _) => (w.item, true)
  | some (.commit landed) =>
    ({ w.item with db := if landed then updated else w.item.db }.setUpdateHash isLastOne updateHash, true)
  | _ => ({ w.item with db := updated }.setUpdateHash isLastOne updateHash, false)

/-- One slice. The flag of the result says whether the loop over the slices is left. -/
def runSlice (store : Store α δ) (cond : SyncCond) (ledgerSeq : Nat) (isLastOne : Bool) (point : Option Point)
    (slice : List (Tx α)) (l : Loop δ) : Loop δ × Bool :=
  if point = some .opening then (l, true)
  else
    let (s, connectionErr) := scanSlice store cond point 0 slice
      ⟨⟨l.item, l.item.db⟩, l.bFoundLastSuccessTx, l.rollback⟩
    if s.bFoundLastSuccessTx = false then (⟨s.work.item, false, s.rollback⟩, false)
    else if connectionErr then (⟨s.work.item, true, s.rollback⟩, true)
    else
      let finish := if s.rollback then finishRollback else finishCommit
      let (item, left) := finish point isLastOne (lastTxHash slice) ledgerSeq s.work
      (⟨item, true, s.rollback⟩, left)

structure Fault where
  slice : Nat
  point : Point
  -- The node goes down.
  crash : Bool := false
deriving DecidableEq, Repr

def pointAt (fault : Option Fault) (i : Nat) : Option Point :=
  match fault with
  | some fault => if fault.slice = i then some fault.point else none
  | none => none

/-- The loop over the slices. The flag of the result says whether all were processed. -/
def runSlices (store : Store α δ) (cond : SyncCond) (ledgerSeq : Nat) (fault : Option Fault) :
    Nat → List (List (Tx α)) → Loop δ → Item δ × Bool
  | _, [], l => (l.item, true)
  | i, slice :: rest, l =>
    match runSlice store cond ledgerSeq rest.isEmpty (pointAt fault i) slice l with
    | (l, true) => (l.item, false)
    | (l, false) => runSlices store cond ledgerSeq fault (i + 1) rest l

/-- The retry loop, with the number of tries that are left and the faults of the tries to come. -/
def tryLedger (store : Store α δ) (cond : SyncCond) (data : LedgerData α) :
    Nat → List (Option Fault) → Item δ → Item δ
  | 0, _, item => { item with stopped := true }
  | tries + 1, faults, item =>
    let fault := faults.head?.join
    match runSlices store cond data.ledgerSeq fault 0 (fetchLedgerTxSlices data)
        ⟨item, item.uTxDBUpdateHash == zeroHash, false⟩ with
    | (item, true) => item
    | (item, false) =>
      if fault.any Fault.crash then { item with stopped := true }
      else tryLedger store cond data tries faults.tail item

def maxConnRetryCount : Nat := 3

/-- What goes wrong while a ledger is processed: the faults of the tries, and, for a ledger without
transactions, the loss of the connection at the update of the status. -/
structure Trouble where
  faults : List (Option Fault) := []
  update : Option Bool := none

def dealWithLedger (store : Store α δ) (cond : SyncCond) (data : LedgerData α) (trouble : Trouble) (item : Item δ) :
    Item δ :=
  match cond.filterLedger data with
  | .jump => item
  | .reject => { item with stopped := true }
  | .advanced =>
    if data.txNodes.isEmpty then
      let db := if item.named && item.db.recorded then { item.db with ledgerSeq := data.ledgerSeq } else item.db
      match trouble.update with
      | none => { item with db := db }
      | some landed => { item with db := if landed then db else item.db, stopped := true }
    else tryLedger store cond data (maxConnRetryCount + 1) trouble.faults item

def dealWithEveryLedgerData (store : Store α δ) (cond : SyncCond) :
    List (LedgerData α × Trouble) → Item δ → Item δ
  | [], item => item
  | (data, trouble) :: rest, item =>
    let item := dealWithLedger store cond data trouble item
    if item.stopped then item else dealWithEveryLedgerData store cond rest item

/-! ## Runs -/

/-- The item and the ledgers that have been collected for it and not yet handed over. -/
structure Sync (α δ : Type) where
  item : Item δ
  pending : List (LedgerData α)

inductive SyncEvent
  -- As many ledgers are handed over as there are entries.
  | deal (troubles : List Trouble)
  | restart

def ledgersAfter (chain : List (LedgerData α)) (seq : Nat) : List (LedgerData α) :=
  chain.filter fun data => seq < data.ledgerSeq

def Sync.handle (store : Store α δ) (cond : SyncCond) (chain : List (LedgerData α)) (s : Sync α δ) :
    SyncEvent → Sync α δ
  | .deal troubles =>
    if s.item.stopped then s
    else
      { item := dealWithEveryLedgerData store cond (s.pending.zip troubles) s.item
        pending := s.pending.drop troubles.length }
  | .restart =>
    { item := .reload s.item.db
      pending := ledgersAfter chain s.item.db.ledgerSeq }

end Chainsql.TableSync
