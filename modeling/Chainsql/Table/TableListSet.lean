import Chainsql.Evm.Word
import Chainsql.Lib.Assoc
import Chainsql.Lib.Run

/-!
# Tables and rights

The tables of an owner are entries of one list (`ltTABLELIST`) or, with `featureTableSleChange`, have
entries of their own (`ltTABLE`). The rights on a table are part of its entry (`sfUsers`) or, with
`featureTableGrant`, entries of their own (`ltTABLEGRANT`): their key is made of the name of the table and
the user, and when the table is dropped or renamed they are found by the `sfNameInDB` in them.

The directory of the owner is left out, except that it can be full.
-/

namespace Chainsql.Table

open Evm (AccountID)

abbrev Blob := List UInt8

abbrev TableName := Blob

abbrev NameInDB := BitVec 160

abbrev Flags := BitVec 32

/-- The account that stands for everyone. -/
def noAccount : AccountID := 1

def lsfNone : Flags := 0
def lsfSelect : Flags := 0x00010000
def lsfInsert : Flags := 0x00020000
def lsfUpdate : Flags := 0x00040000
def lsfDelete : Flags := 0x00080000
def lsfExecute : Flags := 0x00100000
def lsfAll : Flags := lsfSelect ||| lsfInsert ||| lsfUpdate ||| lsfDelete ||| lsfExecute

def getOptypeFromString (sOpType : String) : Flags :=
  if sOpType = "select" then lsfSelect
  else if sOpType = "insert" then lsfInsert
  else if sOpType = "update" then lsfUpdate
  else if sOpType = "delete" then lsfDelete
  else lsfNone

/-! ## Entries -/

structure TableUser where
  user : AccountID
  flags : Flags
  token : Option Blob
deriving DecidableEq

/-- A table's entry. The fields about ledgers, the check hash and the operation rules are left out. -/
structure TableEntry where
  tableName : TableName
  nameInDB : NameInDB
  users : Option (List TableUser)
deriving DecidableEq

structure TableGrant where
  user : AccountID
  flags : Flags
  nameInDB : NameInDB
  token : Option Blob
deriving DecidableEq

structure OwnerTables where
  tableList : Option (List TableEntry) := none
  tables : AList fun _ : TableName => TableEntry := ∅
  -- By the name of the table and the user in their keys.
  grants : AList fun _ : TableName × AccountID => TableGrant := ∅

inductive Place
  | own
  | list
deriving DecidableEq

def OwnerTables.tableEntries (s : OwnerTables) : List TableEntry := s.tableList.getD []

def OwnerTables.getTableEntry (s : OwnerTables) (name : TableName) : Option (Place × TableEntry) :=
  match s.tables.lookup name with
  | some entry => some (.own, entry)
  | none => (s.tableEntries.find? fun entry => entry.tableName == name).map fun entry => (.list, entry)

/-! ## Transactions -/

inductive OpType
  | create
  | drop
  | rename
  | assign
  | cancelAssign
  | grant
  -- `T_RECREATE`, `T_REPORT` and those about fields and indices.
  | other
deriving DecidableEq, Repr

/-- `sfRaw` of a `T_GRANT`: the members of the objects in its array, with their values as `asBool` reads
them. -/
abbrev GrantRaw := List (List (String × Bool))

structure Tx where
  opType : OpType
  tableName : TableName
  nameInDB : NameInDB
  tableNewName : Option TableName := none
  user : Option AccountID := none
  -- `none` where it is absent or not an array.
  raw : Option GrantRaw := none
  flags : Option Flags := none
  token : Option Blob := none
  isCrossChainUpload : Bool := false

structure Env where
  featureTableGrant : Bool := true
  featureTableSleChange : Bool := true
  reserveMet : Bool := true
  dirFull : Bool := false
  accountExists : AccountID → Bool := fun _ => true
  -- What is read of the last entry of a list after it has been erased.
  erased : TableEntry := ⟨[], 0, none⟩

inductive TER
  | tesSUCCESS
  | temINVALID
  | temMALFORMED
  | tefTABLE_COUNTFULL
  | tefTABLE_EXISTANDNOTDEL
  | tefINSU_RESERVE_TABLE
  | tefTABLE_NOTEXIST
  | tefTABLE_SAMENAME
  | tefBAD_AUTH
  | tefBAD_AUTH_NO
  | tefBAD_AUTH_EXIST
  | tefBAD_USER
  | tefTABLE_GRANTFULL
  | tecDIR_FULL
deriving DecidableEq, Repr

/-- `uAdd` and `uCancel`, as they are when `getGrantFlag` returns. -/
def Tx.grantFlags (tx : Tx) : Flags × Flags :=
  match tx.opType, tx.raw with
  | .grant, some raw =>
    raw.flatten.foldl (fun (uAdd, uCancel) (sKey, value) =>
      if value then (uAdd ||| getOptypeFromString sKey, uCancel) else (uAdd, uCancel ||| getOptypeFromString sKey))
      (0, 0)
  | _, _ => (0, 0)

def Tx.getGrantFlag (tx : Tx) : Bool := tx.grantFlags.1 ||| tx.grantFlags.2 != lsfNone

def Tx.getFinalFlag (tx : Tx) (old : Option Flags) : Flags :=
  match old, tx.opType with
  | some flags, .assign => flags ||| tx.flags.getD 0
  | some flags, .cancelAssign => flags &&& ~~~(tx.flags.getD 0)
  | some flags, _ => (flags ||| tx.grantFlags.1) &&& ~~~tx.grantFlags.2
  | none, .assign => tx.flags.getD 0
  | none, .cancelAssign => lsfNone
  | none, _ => tx.grantFlags.1 &&& ~~~tx.grantFlags.2

def hasToken (token : Option Blob) : Bool := token.any fun blob => !blob.isEmpty

def ACCOUNT_OWN_TABLE_COUNT : Nat := 100
def TABLE_GRANT_COUNT : Nat := 256

section Preclaim

variable (env : Env) (owner : AccountID) (s : OwnerTables) (tx : Tx)

def preclaimCreate : TER :=
  if !env.featureTableSleChange && (s.tables.lookup tx.tableName).isNone
      && ACCOUNT_OWN_TABLE_COUNT ≤ s.tableEntries.length then .tefTABLE_COUNTFULL
  else if !env.reserveMet then .tefINSU_RESERVE_TABLE
  else if (s.getTableEntry tx.tableName).isSome then .tefTABLE_EXISTANDNOTDEL
  else .tesSUCCESS

def preclaimRename : TER :=
  if tx.tableName = tx.tableNewName.getD [] then .tefTABLE_SAMENAME
  else if (s.getTableEntry (tx.tableNewName.getD [])).isSome then .tefTABLE_EXISTANDNOTDEL
  else .tesSUCCESS

/-- `T_ASSIGN` and `T_CANCELASSIGN`. -/
def preclaimAssign (entry : TableEntry) : TER :=
  match entry.users with
  | none => if tx.opType = .assign then .tesSUCCESS else .tefBAD_USER
  | some users =>
    match tx.user with
    | none => .tefBAD_USER
    | some addUserID =>
      if !env.accountExists addUserID then .tefBAD_AUTH
      else
        match (users.filter fun user => user.user == addUserID).getLast? with
        | some user =>
          if tx.opType = .cancelAssign then
            if user.flags &&& tx.flags.getD 0 = 0 then .tefBAD_AUTH_NO else .tesSUCCESS
          else if ~~~user.flags &&& tx.flags.getD 0 = 0 then .tefBAD_AUTH_EXIST
          else .tesSUCCESS
        | none =>
          if tx.opType = .cancelAssign then .tefBAD_AUTH_NO
          else if (users.head?.bind TableUser.token).isSome && (addUserID == noAccount || !hasToken tx.token) then
            .temINVALID
          else .tesSUCCESS

def preclaimGrant (entry : TableEntry) : TER :=
  if tx.isCrossChainUpload then .tesSUCCESS
  else
    match tx.user with
    | none => .tefBAD_USER
    | some addUserID =>
      if addUserID ≠ noAccount ∧ !env.accountExists addUserID then .tefBAD_USER
      else if !tx.getGrantFlag then .temMALFORMED
      else
        match entry.users with
        | some users =>
          -- the size is unsigned
          if (users.all fun user => user.user != addUserID)
              && (users.isEmpty || TABLE_GRANT_COUNT ≤ users.length - 1) then .tefTABLE_GRANTFULL
          else if (users.head?.bind TableUser.token).isSome && (addUserID == noAccount || !hasToken tx.token) then
            .temINVALID
          else .tesSUCCESS
        | none =>
          if ((s.grants.lookup (tx.tableName, owner)).any fun grant => hasToken grant.token)
              && (addUserID == noAccount || !hasToken tx.token) then .temINVALID
          else .tesSUCCESS

def preclaimHandler : TER :=
  match tx.opType, s.getTableEntry tx.tableName with
  | .create, _ => preclaimCreate env s tx
  | _, none => .tefTABLE_NOTEXIST
  | .rename, some _ => preclaimRename s tx
  | .grant, some (_, entry) => preclaimGrant env owner s tx entry
  | .assign, some (_, entry) | .cancelAssign, some (_, entry) => preclaimAssign env tx entry
  | .drop, some _ | .other, some _ => .tesSUCCESS

end Preclaim

/-! ## Application -/

/-- A transaction that fails, and an entry that is inserted where there is one, which ends the process
when the view is applied if not before. -/
inductive Failure
  | ter (ter : TER)
  | logicError
deriving DecidableEq, Repr

namespace OwnerTables

def addGrant (env : Env) (s : OwnerTables) (name : TableName) (user : AccountID) (grant : TableGrant) :
    Except Failure OwnerTables :=
  if env.dirFull then .error (.ter .tecDIR_FULL)
  else if (name, user) ∈ s.grants then .error .logicError
  else .ok { s with grants := s.grants.insert (name, user) grant }

def addTable (env : Env) (s : OwnerTables) (entry : TableEntry) : Except Failure OwnerTables :=
  if env.dirFull then .error (.ter .tecDIR_FULL)
  else if entry.tableName ∈ s.tables then .error .logicError
  else .ok { s with tables := s.tables.insert entry.tableName entry }

def getRelatedGrantSles (s : OwnerTables) (entry : TableEntry) : List ((TableName × AccountID) × TableGrant) :=
  (s.grants.entries.filter fun e => e.2.nameInDB == entry.nameInDB).map fun e => (e.1, e.2)

end OwnerTables

section Apply

variable (env : Env) (owner : AccountID) (s : OwnerTables) (tx : Tx)

/-- `setTableGrant` sets the user and the flags for `T_GRANT` and `T_CREATE` only. -/
def Tx.setTableGrant (finalFlag : Flags) : TableUser where
  user := if tx.opType = .grant then tx.user.getD 0 else if tx.opType = .create then owner else 0
  flags := if tx.opType = .grant then finalFlag else if tx.opType = .create then lsfAll else 0
  token := if hasToken tx.token then tx.token else none

def Tx.newGrant (finalFlag : Flags) : TableGrant :=
  let obj := tx.setTableGrant owner finalFlag
  ⟨obj.user, obj.flags, tx.nameInDB, obj.token⟩

def Tx.prepareTableEntry : TableEntry :=
  ⟨tx.tableName, tx.nameInDB, if env.featureTableGrant then none else some [tx.setTableGrant owner 0]⟩

/-- The entry of a new table, in the list or on its own. -/
def OwnerTables.addEntry (env : Env) (s : OwnerTables) (entry : TableEntry) : Except Failure OwnerTables :=
  if env.featureTableSleChange then s.addTable env entry
  else
    match s.tableList with
    | some tableEntries => .ok { s with tableList := some (tableEntries ++ [entry]) }
    | none => if env.dirFull then .error (.ter .tecDIR_FULL) else .ok { s with tableList := some [entry] }

def applyCreate : Except Failure OwnerTables :=
  let entry := tx.prepareTableEntry env owner
  if env.featureTableGrant then do
    let s ← s.addGrant env tx.tableName owner (tx.newGrant owner 0)
    s.addEntry env entry
  else s.addEntry env entry

/-- The grants that are related to the entry the code has a pointer to. -/
def removeGrants (pEntry : TableEntry) : OwnerTables :=
  if pEntry.users.isSome then s
  else { s with grants := s.grants.eraseIf fun _ grant => grant.nameInDB == pEntry.nameInDB }

/-- The pointer to an entry of the list is used after the entry has been erased: it points to the entry
that has moved to its place, or past the end. -/
def applyDrop (place : Place) (entry : TableEntry) : OwnerTables :=
  match place with
  | .list =>
    let i := s.tableEntries.findIdx fun entry => entry.tableName == tx.tableName
    removeGrants { s with tableList := some (s.tableEntries.eraseIdx i) } ((s.tableEntries[i + 1]?).getD env.erased)
  | .own => removeGrants { s with tables := s.tables.erase tx.tableName } entry

/-- A grant is added under the new name and removed under the old. -/
def moveGrant (newName : TableName) (nameInDB : NameInDB) (s : OwnerTables)
    (sle : (TableName × AccountID) × TableGrant) : Except Failure OwnerTables := do
  let s ← s.addGrant env newName sle.2.user { sle.2 with nameInDB := nameInDB }
  return { s with grants := s.grants.erase sle.1 }

def renameEntry (place : Place) (renamed : TableEntry) : Except Failure OwnerTables :=
  match place with
  | .list =>
    let i := s.tableEntries.findIdx fun entry => entry.tableName == tx.tableName
    .ok { s with tableList := some (s.tableEntries.set i renamed) }
  | .own => do
    let s ← s.addTable env renamed
    return { s with tables := s.tables.erase tx.tableName }

def applyRename (place : Place) (entry : TableEntry) : Except Failure OwnerTables := do
  let newName := tx.tableNewName.getD []
  let s ← renameEntry env s tx place { entry with tableName := newName }
  if entry.users.isSome then return s
  else (s.getRelatedGrantSles entry).foldlM (moveGrant env newName entry.nameInDB) s

/-- The entry at its place, with other users. -/
def OwnerTables.setUsers (s : OwnerTables) (name : TableName) (place : Place) (entry : TableEntry)
    (users : List TableUser) : OwnerTables :=
  let changed := { entry with users := some users }
  match place with
  | .list =>
    { s with tableList := some (s.tableEntries.set (s.tableEntries.findIdx fun e => e.tableName == name) changed) }
  | .own => { s with tables := s.tables.insert name changed }

/-- `T_ASSIGN`, `T_CANCELASSIGN` and `T_GRANT`. -/
def applyGrant (place : Place) (entry : TableEntry) : Except Failure OwnerTables :=
  if tx.isCrossChainUpload then .ok s
  else
    let addUserID := tx.user.getD 0
    match entry.users with
    | some users =>
      let i := users.findIdx fun user => user.user == addUserID
      match users[i]? with
      | some user =>
        .ok (s.setUsers tx.tableName place entry (users.set i { user with flags := tx.getFinalFlag (some user.flags) }))
      | none =>
        .ok (s.setUsers tx.tableName place entry (users ++ [tx.setTableGrant owner (tx.getFinalFlag none)]))
    | none =>
      match s.grants.lookup (tx.tableName, addUserID) with
      | some grant =>
        let changed := { grant with flags := tx.getFinalFlag (some grant.flags) }
        .ok { s with grants := s.grants.insert (tx.tableName, addUserID) changed }
      | none => s.addGrant env tx.tableName addUserID (tx.newGrant owner (tx.getFinalFlag none))

def applyHandler : Except Failure OwnerTables :=
  match tx.opType, s.getTableEntry tx.tableName with
  | .create, _ => applyCreate env owner s tx
  | .drop, some (place, entry) => .ok (applyDrop env s tx place entry)
  | .rename, some (place, entry) => applyRename env s tx place entry
  | .assign, some (place, entry) | .cancelAssign, some (place, entry) | .grant, some (place, entry) =>
    applyGrant env owner s tx place entry
  | _, _ => .ok s

def applyTx : Except Failure OwnerTables :=
  match preclaimHandler env owner s tx with
  | .tesSUCCESS => applyHandler env owner s tx
  | ter => .error (.ter ter)

end Apply

/-! ## Rights -/

def getUserAuthAndToken (s : OwnerTables) (tableName : TableName) (userId : AccountID) : Bool × Flags × Blob :=
  match s.getTableEntry tableName with
  | none => (false, 0, [])
  | some (_, entry) =>
    match entry.users with
    | some users =>
      match users.find? fun user => user.user == userId with
      | some user => (true, user.flags, user.token.getD [])
      | none => (false, 0, [])
    | none =>
      match s.grants.lookup (tableName, userId) with
      | some grant => (true, grant.flags, grant.token.getD [])
      | none => (false, 0, [])

def hasAuthority (s : OwnerTables) (tableName : TableName) (user : AccountID) (flag : Flags) : Bool :=
  let tup := getUserAuthAndToken s tableName user
  if !tup.1 then
    let tupAll := getUserAuthAndToken s tableName noAccount
    if !tupAll.1 then false else tupAll.2.1 &&& flag != 0
  else tup.2.1 &&& flag != 0

/-! ## Runs -/

/-- The tables of an owner and the transactions that were applied, the last one first. -/
structure History where
  tables : OwnerTables := {}
  applied : List Tx := []

/-- A transaction that fails changes nothing; the process may end. -/
def History.handle (owner : AccountID) (h : History) (event : Env × Tx) : Except Failure History :=
  match applyTx event.1 owner h.tables event.2 with
  | .ok tables => .ok ⟨tables, event.2 :: h.applied⟩
  | .error (.ter _) => .ok h
  | .error .logicError => .error .logicError

end Chainsql.Table
