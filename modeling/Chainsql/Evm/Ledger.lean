import Chainsql.Evm.Instruction
import Chainsql.Lib.Assoc

/-!
# The ledger as a contract transaction sees it

`View` is the part of an `ApplyView` that holds account roots. Every other ledger object (tables,
grants, trust lines, directories, statistics) is part of a state `σ`, and the transactors that contracts
reach through sub-transactions are a parameter that acts on both. `Env` collects what is fixed while one
contract transaction is applied. The functions are those of `SleOps`.
-/

namespace Chainsql.Evm

/-- A map field of an account root. `rootHash` is set once its values have moved to a tree of their
own. -/
structure STMap256 where
  rootHash : Option Word
  values : AList fun _ : Word => Word

def STMap256.isDefault (m : STMap256) : Bool := m.values.entries.isEmpty && m.rootHash.isNone

/-- A balance in drops. The total of all balances is below `2 ^ 63`, so that sums of them do not
overflow. -/
abbrev Drops := Fin (2 ^ 63)

def Drops.of (n : Nat) : Drops := Fin.ofNat _ n

theorem Drops.val_of {n : Nat} (h : n < 2 ^ 63) : (Drops.of n).val = n := Nat.mod_eq_of_lt h

theorem Drops.of_val (d : Drops) : Drops.of d.val = d := Fin.ext (Drops.val_of d.isLt)

structure AccountRoot where
  balance : Drops
  sequence : UInt32
  ownerCount : Nat
  flags : Nat
  contractCode : Option Bytes
  storageOverlay : STMap256

/-- Account roots of an `ApplyView`. A root that was looked up and then changed without a call of
`update` is only `cached`: later lookups see the change, but it is not written to the ledger. -/
structure View where
  roots : AList fun _ : AccountID => AccountRoot
  written : List AccountID
  cached : AList fun _ : AccountID => AccountRoot

namespace View

def peek (v : View) (a : AccountID) : Option AccountRoot := (v.cached.lookup a).or (v.roots.lookup a)

def update (v : View) (a : AccountID) (sle : AccountRoot) : View where
  roots := v.roots.insert a sle
  written := a :: v.written
  cached := v.cached.erase a

def poke (v : View) (a : AccountID) (sle : AccountRoot) : View :=
  if a ∈ v.written then { v with roots := v.roots.insert a sle }
  else { v with cached := v.cached.insert a sle }

def erase (v : View) (a : AccountID) : View where
  roots := v.roots.erase a
  written := v.written.filter (· ≠ a)
  cached := v.cached.erase a

/-- What another view gets when the changes of this one are applied to it. -/
def settle (v : View) : View := { v with cached := ∅ }

def total (v : View) : Nat := (v.roots.values.map fun sle => sle.balance.val).sum

variable {a : AccountID} {sle : AccountRoot} {v : View}

theorem total_update {old : AccountRoot} (h : v.roots.lookup a = some old) :
    (v.update a sle).total + old.balance.val = v.total + sle.balance.val := by
  rw [total, total, update, AList.values_insert, AList.values_of_lookup h, Multiset.map_cons,
    Multiset.map_cons, Multiset.sum_cons, Multiset.sum_cons]
  omega

theorem peek_update_self (v : View) (a : AccountID) (sle : AccountRoot) : (v.update a sle).peek a = some sle := by
  rw [peek, update, AList.lookup_erase, AList.lookup_insert, Option.none_or]

theorem peek_update_ne {b : AccountID} (h : b ≠ a) : (v.update a sle).peek b = v.peek b := by
  rw [peek, update, AList.lookup_erase_ne h, AList.lookup_insert_ne h, peek]

end View

inductive TableOpType where
  | T_CREATE | T_DROP | T_RENAME | T_GRANT | R_INSERT | R_UPDATE | R_DELETE
  | T_ADD_FIELDS | T_DELETE_FIELDS | T_MODIFY_FIELDS | T_CREATE_INDEX | T_DELETE_INDEX
deriving DecidableEq

structure TableTx where
  opType : TableOpType
  account : AccountID
  owner : Option AccountID
  user : Option AccountID
  raw : Bytes
  autoFillField : Bytes
  tableName : Bytes
  tableNewName : Bytes
  nameInDB : BitVec 160
deriving DecidableEq

/-- The transactions that a contract can have applied inside of its own. -/
inductive SubTx where
  | payment (source destination : AccountID) (drops : Int)
  | gatewayPayment (source destination issuer : AccountID) (value sendMax currency : Bytes)
  | accountSet (account : AccountID) (flag : Nat) (set : Bool)
  | transferFee (account : AccountID) (rate : Nat) (min max : Bytes)
  | trustSet (account issuer : AccountID) (value currency : Bytes)
  | table (tx : TableTx)
  | sqlTransaction (account : AccountID) (statements : List TableTx) (needVerify : Bool)
deriving DecidableEq

/-- The transactors that `applyDirect` can invoke. They write what they change, and none of them creates
ZXC. -/
structure Transactors (σ : Type) where
  preclaim : SubTx → View → σ → TER
  /-- The result of the transactor, unless it throws. -/
  apply : SubTx → View → σ → Option (TER × View × σ)
  apply_cached : ∀ tx v s ter v' s', apply tx v s = some (ter, v', s') → v'.cached = ∅
  apply_total : ∀ tx v s ter v' s', apply tx v s = some (ter, v', s') → v'.total ≤ v.total

inductive ContractState where
  | CONTRACT_CREATE | CONTRACT_CALL | CONTRACT_DESTORY
deriving DecidableEq

/-- The other ledger objects that the contract engine itself reads and writes. -/
structure Objects (σ : Type) where
  /-- A new entry of the contract directory, unless the directory is full. -/
  dirAdd : AccountID → σ → Option σ
  cleanUpDirOnDeleteAccount : AccountID → σ → TER × σ
  updateContractCount : ContractState → σ → σ
  /-- The name of a table of an account. -/
  nameInDB : AccountID → Bytes → σ → Option (BitVec 160)

structure ContractValue where
  value : Word
  existInDB : Bool
deriving DecidableEq

/-- Rows of columns, a column with the text of each of its keys. -/
abbrev Records := List (List (List (Bytes × Bytes)))

structure LogEntry where
  account : AccountID
  topics : List Word
  data : Bytes
deriving DecidableEq

/-- What a contract transaction changes: the view and its dirty storage, the logs and sub-transactions
that the transaction collects, and the members of `SleOps`. -/
structure World (σ : Type) where
  view : View
  other : σ
  dirty : AList fun _ : AccountID × Word => ContractValue
  logs : List LogEntry
  subTxs : List SubTx
  contractCacheCode : AList fun _ : AccountID => Bytes
  bTransaction : Bool
  sqlTxsNameInDB : AList fun _ : Bytes => BitVec 160
  sqlTxsStatements : List TableTx
  records : AList fun _ : Word => Records
  handleList : List Word

inductive ContractOpType where
  | ContractCreation | MessageCall | QueryCall
deriving DecidableEq

/-- A contract transaction. Preflight rejects a negative value. -/
structure ContractTx where
  account : AccountID
  sequence : UInt32
  contractOpType : ContractOpType
  contractAddress : AccountID
  contractData : Bytes
  contractValue : Nat
  gas : UInt32
  ethTx : Bool
  contractValue_lt : contractValue < 2 ^ 63

inductive TableMethod where
  | createTable | dropTable | grant | renameTable | insert | insertWithHash | updateGetRaw | update
  | deleteData | addFields | deleteFields | modifyFields | createIndex | deleteIndex | getDataHandle
deriving DecidableEq

/-- A call of the table contract: the method that the first four bytes select, if any, with the
arguments decoded from the rest. -/
structure TableCall where
  method : Option TableMethod
  byContract : Bool
  owner : AccountID
  destAddr : AccountID
  tableName : Bytes
  tableNewName : Bytes
  raw : Bytes
  rawUpdate : Bytes
  rawGet : Bytes
  autoFillField : Bytes

structure Env (σ : Type) where
  tx : ContractTx
  gasPrice : Nat
  reserve : Nat
  increment : Nat
  dropsPerByte : Nat
  blockNumber : Nat
  blockTimestamp : Nat
  chainID : Nat
  blockHash : Nat → Word
  /-- `tapForConsensus`. -/
  forConsensus : Bool
  featureContractStorage : Bool
  admin : Option AccountID
  realNameAuthorityEnabled : Bool
  defaultAuthorityEnabled : Bool
  keccak : Bytes → Word
  sha512Half : Bytes → Word
  calcNewAddress : AccountID → UInt32 → AccountID
  generateNameInDB : AccountID → Bytes → BitVec 160
  fetchFromStateCache : AccountID → Word → Option ContractValue
  peekItem : AccountID → Word → Word → Option Word
  transactors : Transactors σ
  objects : Objects σ
  doGetRecord2D : AccountID → AccountID → Bytes → Bytes → Option Records
  genRandomUniqueHandle : (AList fun _ : Word => Records) → Word
  /-- `trustLimit` and `gatewayBalance` read a validated ledger. They may throw. -/
  trustLimit : AccountID → AccountID → Bytes → Nat → Option Int
  gatewayBalance : AccountID → AccountID → Bytes → Nat → Option Int
  toCurrency : Bytes → Bool
  /-- Whether `amountFromString` returns, given a currency and a text. -/
  amountFromString : Bytes → Bytes → Bool
  /-- Whether the rate of the text is zero or from 1.0 to 2.0. -/
  rateInRange : Bytes → Bool
  modexpCost : Bytes → Int
  /-- The executor of a precompiled contract. It may throw. -/
  executePrecompiled : AccountID → Bytes → Option (Bool × Bytes)
  decodeTableCall : Bytes → TableCall
  transHuman : TER → Bytes
  /-- The output of the tools contract for a selector that is not zero. It may throw. -/
  executeTools : Bytes → Option Bytes

def lsfPaymentAuth : Nat := 0x1

def lsfRealNameAuth : Nat := 0x20

namespace SleOps

variable {σ : Type} (env : Env σ) (w : World σ)

def getSle (a : AccountID) : Option AccountRoot := w.view.peek a

def update (a : AccountID) (sle : AccountRoot) : World σ := { w with view := w.view.update a sle }

def getSequence (a : AccountID) : UInt32 :=
  match getSle w a with
  | some sle => sle.sequence
  | none => 0

def addressHasCode (a : AccountID) : Bool :=
  match getSle w a with
  | some sle => sle.contractCode.isSome
  | none => false

def setCode (a : AccountID) (code : Bytes) : World σ :=
  match getSle w a with
  | some sle => { w with view := w.view.poke a { sle with contractCode := some code } }
  | none => w

/-- Code that was read once is read from the cache from then on. -/
def code (a : AccountID) : Bytes × World σ :=
  match w.contractCacheCode.lookup a with
  | some code => (code, w)
  | none =>
    match getSle w a with
    | none => ([], w)
    | some sle =>
      let code := sle.contractCode.getD []
      (code, { w with contractCacheCode := w.contractCacheCode.insert a code })

def balance (a : AccountID) : Nat :=
  match getSle w a with
  | some sle => sle.balance.val
  | none => 0

def addBalance (a : AccountID) (amount : Int) : World σ :=
  match getSle w a with
  | some sle =>
    if 0 < amount then update w a { sle with balance := .of (sle.balance.val + amount.toNat) } else w
  | none => w

def accountReserve (ownerCount : Nat) (isContract : Bool) : Nat :=
  (if isContract then 0 else env.reserve) + ownerCount * env.increment

def subBalance (a : AccountID) (amount : Int) (isContract : Bool) : TER × World σ :=
  match getSle w a with
  | some sle =>
    let finalBalance : Int := sle.balance.val - amount
    if accountReserve env sle.ownerCount isContract ≤ finalBalance ∨
        (sle.contractCode.isSome ∧ 0 ≤ finalBalance) then
      (tesSUCCESS, update w a { sle with balance := .of finalBalance.toNat })
    else (tecUNFUNDED_PAYMENT, w)
  | none => (tesSUCCESS, w)

def hasFlag (sle : AccountRoot) (flag : Nat) : Bool := sle.flags &&& flag ≠ 0

def checkAuthority (account : AccountID) (flag : Nat) (dst : AccountID) : TER :=
  match getSle w account with
  | none => tefINTERNAL
  | some sle =>
    if env.admin = some account then tesSUCCESS
    else if env.admin = some dst then tesSUCCESS
    else if flag = lsfRealNameAuth then
      if env.realNameAuthorityEnabled then
        if !hasFlag sle flag then tecNO_PERMISSION
        else match getSle w dst with
          | none => tefINTERNAL
          | some dstSle => if hasFlag dstSle flag then tesSUCCESS else tecNO_PERMISSION
      else tesSUCCESS
    else if env.defaultAuthorityEnabled then
      if hasFlag sle flag then tesSUCCESS else tecNO_PERMISSION
    else if hasFlag sle flag then tecNO_PERMISSION else tesSUCCESS

def transferBalance (source destination : AccountID) (value : Word) : TER × World σ :=
  if value = 0 then (tesSUCCESS, w)
  else if checkAuthority env w source lsfPaymentAuth destination ≠ tesSUCCESS then
    (checkAuthority env w source lsfPaymentAuth destination, w)
  else if checkAuthority env w source lsfRealNameAuth destination ≠ tesSUCCESS then
    (checkAuthority env w source lsfRealNameAuth destination, w)
  else
    let (ret, w) := subBalance env w source value.toDrops (addressHasCode w source)
    (ret, if ret = tesSUCCESS then addBalance w destination value.toDrops else w)

/-- A sub-transaction works on the written changes, and what it leaves replaces them, whatever its
result. -/
def applyDirect (tx : SubTx) : TER × World σ :=
  let ter := env.transactors.preclaim tx w.view.settle w.other
  if ter ≠ tesSUCCESS then (ter, w)
  else match env.transactors.apply tx w.view.settle w.other with
    | none => (tefEXCEPTION, w)
    | some (ter, view, other) => (ter, { w with view, other })

/-- A payment that activates its destination. -/
def doPayment (source destination : AccountID) (value : Word) : TER × World σ :=
  applyDirect env w (.payment source destination value.toDrops)

def checkAddress (account : AccountID) : TER :=
  if addressHasCode w account then
    if account ≠ env.tx.contractAddress then tefMISMATCH_CONTRACT_ADDRESS else tesSUCCESS
  else if account ≠ env.tx.account then tefMISMATCH_TRANSACTION_ADDRESS else tesSUCCESS

/-- A payment in the currency of a gateway. -/
def doGatewayPayment (source destination : AccountID) (value sendMax currency : Bytes)
    (issuer : AccountID) : TER × World σ :=
  if checkAddress env w source ≠ tesSUCCESS then (checkAddress env w source, w)
  else if env.amountFromString currency sendMax && env.amountFromString currency value then
    applyDirect env w (.gatewayPayment source destination issuer value sendMax currency)
  else (tefEXCEPTION, w)

/-- The source takes the number of the page out of the result of `dirAdd` before it asks whether there is one. That
this does nothing where the directory is full is an assumption. -/
def createContractAccount (source destination : AccountID) (value : Word) : TER × World σ :=
  match getSle w destination with
  | some _ => transferBalance env w source destination value
  | none =>
    match env.objects.dirAdd destination w.other with
    | none => (tecDIR_FULL, w)
    | some other =>
      let sle : AccountRoot :=
        { balance := 0, sequence := 1, ownerCount := 0, flags := 0, contractCode := none,
          storageOverlay := ⟨none, ∅⟩ }
      transferBalance env { update w destination sle with other } source destination value

/-- Only the code of the contract is removed. -/
def clearStorage (a : AccountID) : World σ :=
  match getSle w a with
  | some sle => update w a { sle with contractCode := none }
  | none => w

def pubContractEvents (account : AccountID) (topics : List Word) (data : Bytes) : World σ :=
  { w with logs := w.logs ++ [⟨account, topics, data⟩] }

def kill (a : AccountID) : World σ :=
  match getSle w a with
  | some _ => { w with view := w.view.erase a }
  | none => w

def updateContractCount (state : ContractState) : World σ :=
  { w with other := env.objects.updateContractCount state w.other }

/-- The name of the table and the world with the name of a new table remembered for the transaction. -/
def genTableFields (owner : AccountID) (tableName : Bytes) (newNameInDB : Bool) :
    Option (BitVec 160) × World σ :=
  if newNameInDB then
    let nameInDB := env.generateNameInDB owner tableName
    (some nameInDB,
      if w.bTransaction then { w with sqlTxsNameInDB := w.sqlTxsNameInDB.emplace tableName nameInDB }
      else w)
  else
    let remembered := if w.bTransaction then (w.sqlTxsNameInDB.lookup tableName).getD 0 else 0
    if remembered ≠ 0 then (some remembered, w)
    else (env.objects.nameInDB owner tableName w.other, w)

def addSubTx (tx : SubTx) : World σ :=
  if env.forConsensus then { w with subTxs := w.subTxs ++ [tx] } else w

/-- The statements of a transaction are only collected. -/
def disposeTableTx (tx : TableTx) (newNameInDB : Bool) : Int × World σ :=
  match genTableFields env w (tx.owner.getD tx.account) tx.tableName newNameInDB with
  | (none, w) => (TERtoInt tefTABLE_NOTEXIST, w)
  | (some nameInDB, w) =>
    let tx := { tx with nameInDB }
    if w.bTransaction then
      (TERtoInt tesSUCCESS, { w with sqlTxsStatements := w.sqlTxsStatements ++ [tx] })
    else
      let (ret, w) := applyDirect env w (.table tx)
      (TERtoInt ret, addSubTx env w (.table tx))

def tableTx (opType : TableOpType) (account : AccountID) (tableName raw : Bytes) : TableTx :=
  { opType, account, owner := none, user := none, raw, autoFillField := [], tableName,
    tableNewName := [], nameInDB := 0 }

def createTable (account : AccountID) (tableName raw : Bytes) : Int × World σ :=
  disposeTableTx env w (tableTx .T_CREATE account tableName raw) true

def dropTable (account : AccountID) (tableName : Bytes) : Int × World σ :=
  disposeTableTx env w (tableTx .T_DROP account tableName []) false

def renameTable (account : AccountID) (tableName tableNewName : Bytes) : Int × World σ :=
  disposeTableTx env w { tableTx .T_RENAME account tableName [] with tableNewName } false

def bracketed (raw : Bytes) : Bytes := if raw.head? = some 91 then raw else 91 :: raw ++ [93]

def grantTable (account user : AccountID) (tableName raw : Bytes) : Int × World σ :=
  disposeTableTx env w { tableTx .T_GRANT account tableName (bracketed raw) with user := some user } false

def updateFieldsTable (account : AccountID) (opType : TableOpType) (tableName raw : Bytes) :
    Int × World σ :=
  disposeTableTx env w (tableTx opType account tableName raw) false

def insertData (account owner : AccountID) (tableName raw autoFillField : Bytes) : Int × World σ :=
  disposeTableTx env w
    { tableTx .R_INSERT account tableName raw with owner := some owner, autoFillField } false

def deleteData (account owner : AccountID) (tableName raw : Bytes) : Int × World σ :=
  disposeTableTx env w { tableTx .R_DELETE account tableName (bracketed raw) with owner := some owner } false

/-- An update with the condition `getRaw`. -/
def updateDataGetRaw (account owner : AccountID) (tableName getRaw updateRaw : Bytes) : Int × World σ :=
  let raw := if getRaw = [] then 91 :: updateRaw ++ [93] else 91 :: updateRaw ++ 44 :: getRaw ++ [93]
  disposeTableTx env w { tableTx .R_UPDATE account tableName raw with owner := some owner } false

def updateData (account owner : AccountID) (tableName raw : Bytes) : Int × World σ :=
  disposeTableTx env w { tableTx .R_UPDATE account tableName raw with owner := some owner } false

def getDataHandle (account owner : AccountID) (tableName raw : Bytes) : Word × World σ :=
  match env.doGetRecord2D account owner tableName raw with
  | none => (0, w)
  | some result =>
    let handle := env.genRandomUniqueHandle w.records
    (handle, { w with
      records := w.records.insert handle result
      handleList := w.handleList ++ [handle] })

/-- `getRecord` of an unknown handle returns a reference to an object that no longer exists. -/
def getRecord (handle : Word) : Option Records := w.records.lookup handle

def dataRowCount (records : Records) : Nat := records.length

def dataColumnCount (records : Records) : Nat := (records.head?.map List.length).getD 0

def getByKey (records : Records) (row : Nat) (key : Bytes) : Bytes :=
  match records[row]? with
  | none => []
  | some columns => (columns.findSome? fun column => column.lookup key).getD []

def getByIndex (records : Records) (row column : Nat) : Bytes :=
  match records[row]?.bind (·[column]?) with
  | none => []
  | some values => (values.head?.map Prod.snd).getD []

def resetTransactionCache : World σ :=
  { w with bTransaction := false, sqlTxsNameInDB := ∅, sqlTxsStatements := [] }

def releaseResource : World σ :=
  let w := resetTransactionCache w
  { w with records := w.handleList.foldl (fun records handle => records.erase handle) w.records }

def transactionBegin : World σ := { resetTransactionCache w with bTransaction := true }

def transactionCommit (account : AccountID) : Int × World σ :=
  if !w.bTransaction then (0, w)
  else
    let tx := .sqlTransaction account w.sqlTxsStatements true
    let (ret, w) := applyDirect env w tx
    (TERtoInt ret, resetTransactionCache (addSubTx env w tx))

def accountSet (account : AccountID) (flag : Nat) (set : Bool) : Int × World σ :=
  let (ret, w) := applyDirect env w (.accountSet account flag set)
  (TERtoInt ret, w)

/-- The rate without its point, filled up to ten digits. -/
def transferRate (feeRate : Bytes) : Nat :=
  let digits := feeRate.filter (· ≠ 46)
  (atoi (digits ++ List.replicate (10 - digits.length) 48) % 2 ^ 32).toNat

def setTransferFee (gateWay : AccountID) (feeRate minFee maxFee : Bytes) : Int × World σ :=
  if !env.rateInRange feeRate then (TERtoInt temBAD_TRANSFER_RATE, w)
  else
    let (ret, w) := applyDirect env w (.transferFee gateWay (transferRate feeRate) minFee maxFee)
    (TERtoInt ret, w)

/-- Nothing is returned if the amount makes `amountFromString` throw. -/
def trustSet (account : AccountID) (value currency : Bytes) (issuer : AccountID) :
    Option (Int × World σ) :=
  if !env.toCurrency currency then some (TERtoInt tefINVALID_CURRENY, w)
  else if !env.amountFromString currency value then none
  else
    let (ret, w) := applyDirect env w (.trustSet account issuer value currency)
    some (TERtoInt ret, w)

variable {env : Env σ} {w w' : World σ}

theorem getSle_update_self (a : AccountID) (sle : AccountRoot) : getSle (update w a sle) a = some sle :=
  View.peek_update_self w.view a sle

variable {a : AccountID} {ter : TER}

theorem getSle_update_ne {b : AccountID} {sle : AccountRoot} (h : b ≠ a) : getSle (update w a sle) b = getSle w b :=
  View.peek_update_ne h

theorem subBalance_cases {amount : Int} {isContract : Bool} (h : subBalance env w a amount isContract = (ter, w')) :
    (getSle w a = none ∧ ter = tesSUCCESS ∧ w' = w) ∨ (ter ≠ tesSUCCESS ∧ w' = w) ∨
      ∃ sle, getSle w a = some sle ∧ amount ≤ sle.balance.val ∧ ter = tesSUCCESS ∧
        w' = update w a { sle with balance := .of (sle.balance.val - amount).toNat } := by
  rw [subBalance] at h
  split at h
  next sle hsle =>
    dsimp only at h
    split at h
    next hpays =>
      cases h
      exact .inr (.inr ⟨sle, hsle, by omega, rfl, rfl⟩)
    next =>
      cases h
      exact .inr (.inl ⟨by decide, rfl⟩)
  next hnone =>
    cases h
    exact .inl ⟨hnone, rfl, rfl⟩

/-- A transfer needs the root of its source, so that nothing is added that was not taken away. -/
theorem transferBalance_cases {source destination : AccountID} {value : Word}
    (h : transferBalance env w source destination value = (ter, w')) :
    w' = w ∨ ∃ sle, getSle w source = some sle ∧ value.toDrops ≤ sle.balance.val ∧ ter = tesSUCCESS ∧
      w' = addBalance (update w source { sle with balance := .of (sle.balance.val - value.toDrops).toNat })
        destination value.toDrops := by
  rw [transferBalance] at h
  split at h
  · cases h
    exact .inl rfl
  split at h
  · cases h
    exact .inl rfl
  next hauth =>
    split at h
    · cases h
      exact .inl rfl
    · rcases hsub : subBalance env w source value.toDrops (addressHasCode w source) with ⟨ret, w₁⟩
      rw [hsub] at h
      dsimp only at h
      rcases subBalance_cases hsub with ⟨hnone, -, -⟩ | ⟨hret, rfl⟩ | ⟨sle, hsle, hle, rfl, rfl⟩
      · -- without a root there is no authority to pay
        rw [checkAuthority, hnone] at hauth
        exact absurd (by decide : tefINTERNAL ≠ tesSUCCESS) hauth
      · rw [if_neg hret] at h
        cases h
        exact .inl rfl
      · cases h
        exact .inr ⟨sle, hsle, hle, rfl, rfl⟩

/-! ## Transfers that are possible -/

variable {source destination : AccountID} {root : AccountRoot} {value : Word}

def Authorised (env : Env σ) (w : World σ) (source destination : AccountID) (root : AccountRoot) : Prop :=
  env.admin = some source ∨ env.admin = some destination ∨
    hasFlag root lsfPaymentAuth = env.defaultAuthorityEnabled ∧
      (env.realNameAuthorityEnabled = true → hasFlag root lsfRealNameAuth = true ∧
        ∃ sle, getSle w destination = some sle ∧ hasFlag sle lsfRealNameAuth = true)

/-- The balance is enough, above the reserve unless the account is a contract. -/
def Funded (env : Env σ) (root : AccountRoot) (amount : Int) : Prop :=
  amount + (if root.contractCode.isSome then 0 else accountReserve env root.ownerCount false : Nat) ≤ root.balance.val

/-- The source is able to pay the value to the account. -/
def CanPay (env : Env σ) (w : World σ) (source destination : AccountID) (value : Word) : Prop :=
  value = 0 ∨ ∃ root, getSle w source = some root ∧ Authorised env w source destination root ∧
    Funded env root value.toDrops

theorem checkAuthority_success (hroot : getSle w source = some root) :
    checkAuthority env w source lsfPaymentAuth destination = tesSUCCESS ∧ checkAuthority env w source lsfRealNameAuth destination = tesSUCCESS ↔
      Authorised env w source destination root := by
  have hfail : tecNO_PERMISSION ≠ tesSUCCESS ∧ tefINTERNAL ≠ tesSUCCESS := by decide
  have hflag : lsfPaymentAuth ≠ lsfRealNameAuth := by decide
  rw [Authorised, checkAuthority, checkAuthority, hroot]
  cases hdst : getSle w destination <;> grind

theorem subBalance_success {amount : Int} {isContract : Bool} (hroot : getSle w source = some root)
    (hcontract : isContract = true → root.contractCode.isSome = true) :
    (subBalance env w source amount isContract).1 = tesSUCCESS ↔ Funded env root amount := by
  have hfail : tecUNFUNDED_PAYMENT ≠ tesSUCCESS := by decide
  rw [subBalance, hroot, Funded]
  dsimp only
  cases hcode : root.contractCode.isSome with
  | false =>
    have hno : isContract = false := Bool.eq_false_iff.mpr fun h => by simp [hcontract h] at hcode
    split <;> (simp_all; try omega)
  | true => split <;> (simp_all; try omega)

theorem transferBalance_success :
    (transferBalance env w source destination value).1 = tesSUCCESS ↔ CanPay env w source destination value := by
  rw [transferBalance, CanPay]
  split
  next hzero => simp [hzero]
  next hzero =>
    rw [or_iff_right hzero]
    cases hroot : getSle w source with
    | none =>
      have hfail : checkAuthority env w source lsfPaymentAuth destination = tefINTERNAL := by rw [checkAuthority, hroot]
      rw [hfail, if_pos (by decide)]
      exact iff_of_false (by decide : tefINTERNAL ≠ tesSUCCESS) fun ⟨_, h, _⟩ => by cases h
    | some root =>
      have hauth : _ ↔ Authorised env w source destination root := checkAuthority_success hroot
      have hsub : (subBalance env w source value.toDrops (addressHasCode w source)).1 = tesSUCCESS ↔ _ :=
        subBalance_success hroot (by simp [addressHasCode, hroot])
      simp only [Option.some.injEq, exists_eq_left', ← hauth, ← hsub]
      split_ifs with hpay hname
      · simp [hpay]
      · simp [hname]
      all_goals simp [not_not.mp hpay, not_not.mp hname]

end SleOps

end Chainsql.Evm
