import Chainsql.Evm.Machine

/-!
# The host of a frame

The functions of `EvmCHost` and `ExtVM` that the interpreter calls directly. They work on the one state
that all frames of a transaction share. `SubState` belongs to a frame.
-/

namespace Chainsql.Evm

structure SubState where
  selfdestruct : List AccountID
  refunds : UInt64
deriving DecidableEq

namespace SubState

def start : SubState := ⟨[], 0⟩

/-- `operator+=`. Its loop runs over the accounts of the receiver, so that those of the argument are not
added. -/
def add (sub arg : SubState) : SubState := { sub with refunds := sub.refunds + arg.refunds }

theorem add_start (sub : SubState) : sub.add start = sub := by
  rw [add, start, UInt64.add_zero]

end SubState

variable {σ : Type} (env : Env σ) (ext : Ext) (w : World σ)

def TABLE_OPERATION_ADDR : AccountID := 0x1001

def TOOLS_PRE_ADDR : AccountID := 0x1002

def SM3_ADDR : AccountID := 0x4000

def EN_BASE58_ADDR : AccountID := 0x4001

def DE_BASE58_ADDR : AccountID := 0x4002

def isPrecompiledOrigin (a : AccountID) : Bool :=
  (1 ≤ a ∧ a ≤ 8) ∨ a = SM3_ADDR ∨ a = EN_BASE58_ADDR ∨ a = DE_BASE58_ADDR

def isPrecompiledDiy (a : AccountID) : Bool := a = TABLE_OPERATION_ADDR ∨ a = TOOLS_PRE_ADDR

namespace ContractHelper

def fetchFromCache (contract : AccountID) (key : Word) (query : Bool) : Option Word :=
  match w.dirty.lookup (contract, key) with
  | some value => some value.value
  | none => if query then none else (env.fetchFromStateCache contract key).map ContractValue.value

def fetchFromDB (contract : AccountID) (root : Option Word) (key : Word) : Option Word :=
  match root with
  | none => none
  | some root => if root = 0 then none else env.peekItem contract root key

def fetchValue (contract : AccountID) (root : Option Word) (key : Word) (query : Bool) : Option Word :=
  (fetchFromCache env w contract key query).or (fetchFromDB env contract root key)

def setStorage (contract : AccountID) (root : Option Word) (key value : Word) : World σ :=
  let existInDB :=
    match w.dirty.lookup (contract, key) with
    | some old => old.existInDB
    | none =>
      match env.fetchFromStateCache contract key with
      | some data => data.existInDB
      | none => (fetchFromDB env contract root key).isSome
  { w with dirty := w.dirty.insert (contract, key) ⟨value, existInDB⟩ }

end ContractHelper

namespace ExtVM

open SleOps

def useNewStorage (mapStore : STMap256) : Bool :=
  mapStore.rootHash.isSome || (mapStore.isDefault && env.featureContractStorage)

def slot (contract : AccountID) (sle : AccountRoot) (key : Word) : Word :=
  if useNewStorage env sle.storageOverlay then
    (ContractHelper.fetchValue env w contract sle.storageOverlay.rootHash key
      (env.tx.contractOpType = .QueryCall)).getD 0
  else (sle.storageOverlay.values.lookup key).getD 0

/-- The root of the contract is used without a check that there is one. -/
def store (key : Word) : Except Crash Word :=
  match getSle w ext.myAddress with
  | none => .error .undefined
  | some sle => .ok (slot env w ext.myAddress sle key)

def setStore (key value : Word) : Except Crash (World σ) :=
  match getSle w ext.myAddress with
  | none => .error .undefined
  | some sle =>
    let mapStore := sle.storageOverlay
    if useNewStorage env mapStore then
      .ok (ContractHelper.setStorage env w ext.myAddress mapStore.rootHash key value)
    else
      let values := if value = 0 then mapStore.values.erase key else mapStore.values.insert key value
      .ok (update w ext.myAddress { sle with storageOverlay := { mapStore with values } })

def codeSizeAt (a : AccountID) : Nat × World σ :=
  if isPrecompiledDiy a then (1, w)
  else
    let (code, w) := code w a
    (code.length, w)

def codeHashAt (a : AccountID) : Word × World σ :=
  let (code, w) := code w a
  (env.sha512Half code, w)

/-- The balance is added to that of the beneficiary in place, and stays where it was. -/
def selfdestruct (beneficiary : AccountID) (sub : SubState) : Except Crash (World σ × SubState) :=
  match getSle w ext.myAddress, getSle w beneficiary with
  | some sleContract, some sleTo =>
    let sleTo := { sleTo with balance := .of (sleContract.balance.val + sleTo.balance.val) }
    .ok ({ w with view := w.view.poke beneficiary sleTo },
      { sub with selfdestruct := sub.selfdestruct.insert ext.myAddress })
  | _, _ => .error .undefined

def log (topics : List Word) (data : Bytes) : World σ :=
  if env.forConsensus then pubContractEvents w ext.myAddress topics data else w

/-- The operation, if the address may be used. -/
def checked (address : AccountID) (operation : Int × World σ) : Int × World σ :=
  if checkAddress env w address ≠ tesSUCCESS then (TERtoInt (checkAddress env w address), w) else operation

end ExtVM

namespace EvmCHost

open SleOps ExtVM

def set_storage (key value : Word) (sub : SubState) : Except Crash (StorageStatus × World σ × SubState) := do
  let old ← store env ext w key
  if value = old then return (.EVMC_STORAGE_UNCHANGED, w, sub)
  let w ← setStore env ext w key value
  if old = 0 then return (.EVMC_STORAGE_ADDED, w, sub)
  else if value = 0 then
    return (.EVMC_STORAGE_DELETED, w, { sub with refunds := sub.refunds + 15000 })
  else return (.EVMC_STORAGE_MODIFIED, w, sub)

/-- `size` bytes of code from `codeOffset` on, filled with zeros. -/
def copy_code (addr : AccountID) (codeOffset size : Nat) : Bytes × World σ :=
  let (code, w) := code w addr
  let copied := slice code codeOffset size
  (copied ++ zeros (size - copied.length), w)

/-- The size of a text and the text, cut or filled to `outSize`. -/
def columnBuffer (value : Bytes) (outSize : Nat) : Bytes :=
  let copied := value.take (outSize - 32)
  Word.toBytes (.ofNat 256 copied.length) ++ copied ++ zeros (outSize - 32 - copied.length)

/-- A result of the host that depends on the records of a handle. -/
def withRecord (handle : Word) (reply : Records → Reply) : Except Crash (Reply × World σ) :=
  match getRecord w handle with
  | none => .error .undefined
  | some records => .ok (reply records, w)

/-- A function that is `noexcept` and may throw. -/
def noexcept {α : Type} : Option α → Except Crash α
  | none => .error .terminate
  | some a => .ok a

def ter (result : Int × World σ) : Except Crash (Reply × World σ) := .ok (.ter result.1, result.2)

/-- The functions of the host by name. -/
def perform : HostCall → Except Crash (Reply × World σ)
  | .get_storage key => return (.word (← store env ext w key), w)
  | .get_code_size addr =>
    let (size, w) := codeSizeAt w addr
    .ok (.word (.ofNat 256 size), w)
  | .get_code_hash addr =>
    let (hash, w) := codeHashAt env w addr
    .ok (.word hash, w)
  | .copy_code addr codeOffset memOffset size =>
    let (bs, w) := copy_code w addr codeOffset size
    .ok (.buffer memOffset bs, w)
  | .emit_log data topics => .ok (.done, log env ext w topics data)
  | .table_create address name raw => ter (checked env w address (createTable env w address name raw))
  | .table_rename address name raw => ter (checked env w address (renameTable env w address name raw))
  | .table_insert address name raw => ter (insertData env w ext.caller address name raw [])
  | .table_delete address name raw => ter (deleteData env w ext.caller address name raw)
  | .table_drop address name => ter (checked env w address (dropTable env w address name))
  | .table_update address name rawUpdate rawCondition =>
    ter (updateDataGetRaw env w ext.caller address name rawCondition rawUpdate)
  | .table_grant address1 address2 name raw =>
    ter (checked env w address1 (grantTable env w address1 address2 name raw))
  | .table_get_handle address name raw =>
    let (handle, w) := getDataHandle env w ext.caller address name raw
    .ok (.word handle, w)
  | .table_get_lines handle => withRecord w handle fun records => .word (.ofNat 256 (dataRowCount records))
  | .table_get_columns handle =>
    withRecord w handle fun records => .word (.ofNat 256 (dataColumnCount records))
  | .get_column_by_name handle row column outOffset outSize =>
    withRecord w handle fun records => .buffer outOffset (columnBuffer (getByKey records row column) outSize)
  | .get_column_by_index handle row column outOffset outSize =>
    withRecord w handle fun records =>
      .buffer outOffset (columnBuffer (getByIndex records row column) outSize)
  | .db_trans_begin => .ok (.done, transactionBegin w)
  | .db_trans_submit => ter (transactionCommit env w ext.caller)
  | .release_resource => .ok (.done, releaseResource w)
  | .get_column_len_by_name handle row column =>
    withRecord w handle fun records => .word (.ofNat 256 ((getByKey records row column).length + 1))
  | .get_column_len_by_index handle row column =>
    withRecord w handle fun records => .word (.ofNat 256 ((getByIndex records row column).length + 1))
  | .account_set address flag set => ter (checked env w address (accountSet env w address flag set))
  | .transfer_fee_set address rate min max =>
    ter (checked env w address (setTransferFee env w address rate min max))
  | .trust_set address value currency gateWay =>
    if checkAddress env w address ≠ tesSUCCESS then ter (TERtoInt (checkAddress env w address), w)
    else do ter (← noexcept (trustSet env w address value currency gateWay))
  | .trust_limit address currency power gateWay =>
    return (.int64 (← noexcept (env.trustLimit address gateWay currency power)), w)
  | .gateway_balance address currency power gateWay =>
    return (.int64 (← noexcept (env.gatewayBalance address gateWay currency power)), w)
  | .pay address receiver value sendMax currency gateWay =>
    let (ret, w') := doGatewayPayment env w address receiver value sendMax currency gateWay
    ter (checked env w address (TERtoInt ret, w'))

end EvmCHost

end Chainsql.Evm
