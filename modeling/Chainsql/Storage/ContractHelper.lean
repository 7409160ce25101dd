import Chainsql.Lib.Assoc
import Chainsql.ShaMap.Content

/-!
# The storage of contracts during a ledger build

A value is looked up in the dirty cache of the running transaction, then in the state cache of the view that
is built, then in the tree under the storage root of the contract. The trees are loaded once, and changed when
all transactions have been applied.
-/

namespace Chainsql.Storage

open Evm (AccountID Word)
open ShaMap (SHAMap SHAMapItem SHAMapTreeNode NodeHasher)

/-- The hash functions: no node hashes to zero, and `sha512Half(contract, key)` tells the keys apart. -/
structure Hashes extends NodeHasher where
  ne_zero : ∀ p, hash p ≠ zeroHash
  realKey : AccountID → Word → Word
  realKey_inj : ∀ contract, Function.Injective (realKey contract)

/-! ## Values -/

structure ContractValueType where
  value : Word
  existInDB : Bool
deriving DecidableEq

/-- `std::map<AccountID, map256Contract>`. -/
abbrev Slots := AList fun _ : AccountID => AList fun _ : Word => ContractValueType

namespace Slots

def of (m : Slots) (contract : AccountID) : AList fun _ : Word => ContractValueType := (m.lookup contract).getD ∅

def find (m : Slots) (contract : AccountID) (key : Word) : Option ContractValueType := (m.of contract).lookup key

def set (m : Slots) (contract : AccountID) (key : Word) (value : ContractValueType) : Slots :=
  m.insert contract ((m.of contract).insert key value)

def slot (m : Slots) (contract : AccountID) (key : Word) : ContractValueType :=
  (m.find contract key).getD ⟨0, false⟩

end Slots

/-- Whether an account exists, with the storage root if it has one. -/
abbrev Accounts := AccountID → Option (Option HashValue)

/-- What is kept of one transaction: its accounts, the dirty cache, and whether it is a `QueryCall`. -/
structure ApplyContext where
  view : Accounts
  mDirtyCache : Slots
  isQuery : Bool

/-- `mShaMapCache`, in which a tree that could not be loaded is a null pointer, and the node store. -/
structure ContractHelper where
  mShaMapCache : AccountID → Option (Option SHAMap)
  nodes : HashValue → Option SHAMap

/-- The view that is built, with the running transaction. -/
structure OpenView where
  accounts : Accounts
  mStateCache : Slots
  ctx : ApplyContext
  helper : ContractHelper

namespace ApplyContext

def fetchFromDirty (ctx : ApplyContext) (contract : AccountID) (key : Word) : Option Word :=
  (ctx.mDirtyCache.find contract key).map (·.value)

def setDirtyValue (ctx : ApplyContext) (contract : AccountID) (key value : Word) : ApplyContext :=
  { ctx with mDirtyCache := ctx.mDirtyCache.set contract key { ctx.mDirtyCache.slot contract key with value } }

def setDirtyExistInDB (ctx : ApplyContext) (contract : AccountID) (key : Word) (existInDB : Bool) : ApplyContext :=
  { ctx with mDirtyCache := ctx.mDirtyCache.set contract key { ctx.mDirtyCache.slot contract key with existInDB } }

end ApplyContext

/-! ## Reads and writes -/

namespace ContractHelper

variable (H : Hashes) (helper : ContractHelper)

/-- A new tree, with the root that is fetched. Nothing is fetched for the root of the empty tree. -/
def makeShamap (root : Option HashValue) : Option SHAMap :=
  match root with
  | none => some .empty
  | some root => if root = ShaMap.getNodeHash H.toNodeHasher SHAMap.empty.root then some .empty else helper.nodes root

def getSHAMap (contract : AccountID) (root : Option HashValue) (bQuery : Bool) : Option SHAMap × ContractHelper :=
  if bQuery then (helper.makeShamap H root, helper)
  else
    match helper.mShaMapCache contract with
    | some mapPtr => (mapPtr, helper)
    | none =>
      let mapPtr := helper.makeShamap H root
      (mapPtr, { helper with mShaMapCache := Function.update helper.mShaMapCache contract (some mapPtr) })

def fetchFromDB (contract : AccountID) (root : Option HashValue) (key : Word) (bQuery : Bool) :
    Option Word × ContractHelper :=
  if root = none ∨ root = some zeroHash then (none, helper)
  else
    let (mapPtr, helper) := helper.getSHAMap H contract root bQuery
    let item := mapPtr.bind fun m => ShaMap.findKey m (H.realKey contract key)
    (item.map fun leaf => Evm.Word.ofBytes leaf.item.data, helper)

end ContractHelper

namespace OpenView

variable (H : Hashes) (v : OpenView)

def fetchFromStateCache (contract : AccountID) (key : Word) : Option ContractValueType := v.mStateCache.find contract key

def fetchFromCache (contract : AccountID) (key : Word) (bQuery : Bool) : Option Word :=
  match v.ctx.fetchFromDirty contract key with
  | some value => some value
  | none => if bQuery then none else (v.fetchFromStateCache contract key).map (·.value)

def fetchValue (contract : AccountID) (root : Option HashValue) (key : Word) (bQuery : Bool) : Option Word × OpenView :=
  match v.fetchFromCache contract key bQuery with
  | some value => (some value, v)
  | none =>
    let (value, helper) := v.helper.fetchFromDB H contract root key bQuery
    (value, { v with helper })

def setStorage (contract : AccountID) (root : Option HashValue) (key value : Word) : OpenView :=
  if (v.ctx.fetchFromDirty contract key).isSome then { v with ctx := v.ctx.setDirtyValue contract key value }
  else
    match v.fetchFromStateCache contract key with
    | some data =>
      { v with ctx := (v.ctx.setDirtyValue contract key value).setDirtyExistInDB contract key data.existInDB }
    | none =>
      let (old, helper) := v.helper.fetchFromDB H contract root key false
      { v with helper, ctx := (v.ctx.setDirtyValue contract key value).setDirtyExistInDB contract key old.isSome }

/-- `mapStore.rootHash()` of the account. -/
def rootHash (contract : AccountID) : Option HashValue := (v.ctx.view contract).join

/-- `ExtVM::store`, of a contract with the new storage. -/
def store (contract : AccountID) (key : Word) : Word × OpenView :=
  let (value, v') := v.fetchValue H contract (v.rootHash contract) key v.ctx.isQuery
  (value.getD 0, v')

/-- `ExtVM::setStore`, of a contract with the new storage. -/
def setStore (contract : AccountID) (key value : Word) : OpenView :=
  v.setStorage H contract (v.rootHash contract) key value

/-! ## Transactions -/

def begin (isQuery : Bool) : OpenView := { v with ctx := ⟨v.accounts, ∅, isQuery⟩ }

/-- The account of a new contract. -/
def createContractAccount (contract : AccountID) : OpenView :=
  { v with ctx := { v.ctx with view := Function.update v.ctx.view contract (some none) } }

def setStateCache (contract : AccountID) (key : Word) (value : ContractValueType) : OpenView :=
  { v with mStateCache := v.mStateCache.set contract key value }

def applyDirty : OpenView :=
  v.ctx.mDirtyCache.entries.foldl
    (fun v e => e.2.entries.foldl (fun v e' => v.setStateCache e.1 e'.1 e'.2) v) v

/-- `ApplyViewImpl::apply`. -/
def commit : OpenView := { v with accounts := v.ctx.view }.applyDirty.begin false

def discard : OpenView := v.begin v.ctx.isQuery

end OpenView

/-! ## The end of the build -/

inductive ValueOpType where
  | invalid | insert | modify | erase

def getOpType (value : ContractValueType) : ValueOpType :=
  if value.value = 0 then if value.existInDB then .erase else .invalid
  else if value.existInDB then .modify else .insert

def makeSHAMapItem (key value : Word) : SHAMapItem := ⟨key, Evm.Word.toBytes value⟩

/-- What is done to the tree of a contract for one value. -/
def modifyMap (H : Hashes) (contract : AccountID) (m : SHAMap) (key : Word) (value : ContractValueType) : SHAMap :=
  let item := makeSHAMapItem (H.realKey contract key) value.value
  match getOpType value with
  | .insert => ShaMap.step H.toNodeHasher m (.addGiveItem item false false none)
  | .modify => ShaMap.step H.toNodeHasher m (.updateGiveItem item false false none)
  | .erase => ShaMap.step H.toNodeHasher m (.delItem (H.realKey contract key))
  | .invalid => m

/-- The hashes of all nodes are computed, and the nodes are written to the store. -/
def flushDirty (H : Hashes) (m : SHAMap) : SHAMap := ⟨ShaMap.walkSubTree H.toNodeHasher m.root⟩

namespace OpenView

def applyContract (H : Hashes) (v : OpenView) (contract : AccountID) (values : AList fun _ : Word => ContractValueType) :
    OpenView :=
  match v.accounts contract with
  | none => v
  | some root =>
    match v.helper.getSHAMap H contract root false with
    | (none, helper) => { v with helper }
    | (some m, helper) =>
      let m := flushDirty H (values.entries.foldl (fun m e => modifyMap H contract m e.1 e.2) m)
      let hash := (ShaMap.getHash H.toNodeHasher m).1
      { v with
        accounts := Function.update v.accounts contract (some (some hash))
        helper :=
          { mShaMapCache := Function.update helper.mShaMapCache contract (some (some m))
            nodes := Function.update helper.nodes hash (some m) } }

/-- `ContractHelper::apply`. -/
def applyContracts (H : Hashes) (v : OpenView) : OpenView :=
  v.mStateCache.entries.foldl (fun v e => v.applyContract H e.1 e.2) v

def start (accounts : Accounts) (nodes : HashValue → Option SHAMap) : OpenView :=
  ⟨accounts, ∅, ⟨accounts, ∅, false⟩, ⟨fun _ => none, nodes⟩⟩

end OpenView

/-! ## Runs -/

inductive Action where
  | begin (isQuery : Bool)
  | createContractAccount (contract : AccountID)
  | store (contract : AccountID) (key : Word)
  | setStore (contract : AccountID) (key value : Word)
  | commit
  | discard

def OpenView.step (H : Hashes) (v : OpenView) : Action → OpenView
  | .begin isQuery => v.begin isQuery
  | .createContractAccount contract => v.createContractAccount contract
  | .store contract key => (v.store H contract key).2
  | .setStore contract key value => v.setStore H contract key value
  | .commit => v.commit
  | .discard => v.discard

/-- Contracts that run have an account, and an account is created where there is none. -/
def OpenView.Legal (v : OpenView) : Action → Prop
  | .createContractAccount contract => v.ctx.view contract = none
  | .store contract _ => v.ctx.view contract ≠ none
  | .setStore contract _ _ => v.ctx.view contract ≠ none
  | _ => True

/-- What the caches stand for: the values after the committed transactions, and after the running one. -/
structure Plain where
  committed : AccountID → Word → Word
  running : AccountID → Word → Word

def Plain.step (p : Plain) : Action → Plain
  | .begin _ => ⟨p.committed, p.committed⟩
  | .setStore contract key value =>
    ⟨p.committed, Function.update p.running contract (Function.update (p.running contract) key value)⟩
  | .commit => ⟨p.running, p.running⟩
  | .discard => ⟨p.committed, p.committed⟩
  | _ => p

def slotLeaf (H : Hashes) (contract : AccountID) (key value : Word) : SHAMapTreeNode :=
  ShaMap.makeLeaf (makeSHAMapItem (H.realKey contract key) value) false false none

/-- The tree holds the values that are not zero, and nothing else. -/
structure Holds (H : Hashes) (contract : AccountID) (values : Word → Word) (m : SHAMap) : Prop where
  valid : m.Valid H.toNodeHasher
  content : ∀ id leaf, ShaMap.findKey m id = some leaf ↔
    ∃ key, id = H.realKey contract key ∧ values key ≠ 0 ∧ leaf = slotLeaf H contract key (values key)

/-- The trees under the storage roots are in the node store, and hold the values. -/
structure Intact (H : Hashes) (accounts : Accounts) (helper : ContractHelper) (values : AccountID → Word → Word) :
    Prop where
  holds : ∀ contract, ∃ m, helper.makeShamap H (accounts contract).join = some m ∧
    Holds H contract (values contract) m
  hash : ∀ root m, helper.nodes root = some m → (ShaMap.getHash H.toNodeHasher m).1 = root

end Chainsql.Storage
