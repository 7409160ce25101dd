import Chainsql.Validations.Store

/-!
# Accepting a ledger as fully validated

`RpcaPopAdaptor`: how validations and sets of validations from peers reach the store, and the test
`checkLedgerAccept` that makes a ledger fully validated. It counts the trusted validations stored for
the ledger and, if these are too few, the validations kept for the last such ledger, which may come
from a peer's `STValidationSet`. Received validations and accepted ledgers are recorded in logs.
-/

namespace Chainsql

structure STValidationSet where
  seq : UInt32
  hash : HashValue
  validations : List STValidation
deriving DecidableEq

/-- What is the same in a whole run: the manifests, and the sequence number in the header that a
ledger's hash stands for. -/
structure Registry where
  getMasterKey : PublicKey → PublicKey := id
  seqOf : HashValue → UInt32

namespace Registry

def ledger (reg : Registry) (hash : HashValue) : LedgerRef := ⟨hash, reg.seqOf hash⟩

def signer (reg : Registry) (v : STValidation) : PublicKey := reg.getMasterKey v.signerPublic

end Registry

/-- What the adaptor asks for in one step. A ledger that is found is the one with the given hash. -/
structure RpcaPopEnv where
  clock : ValidationClock := {}
  quorum : Nat
  standalone : Bool := false
  negativeUNL : Finset PublicKey := ∅
  verifyDigest : PublicKey → HashValue → Nat → Bool
  getLedgerByHash : HashValue → Bool
  historyByHash : HashValue → Bool := getLedgerByHash
  acquire : HashValue → Bool := getLedgerByHash
  buildingLedger : UInt32 := 0
  currentLedgerIndex : UInt32 := 0

structure Received where
  masterKey : PublicKey
  seq : UInt32
  hash : HashValue
deriving DecidableEq

structure AcceptedLedger where
  ledger : LedgerRef
  needed : Nat
  trusted : Finset PublicKey
deriving DecidableEq

structure RpcaPopAdaptor where
  trusted : Finset PublicKey
  listed : Finset PublicKey
  validations : Validations := {}
  lastValidationsDB : List STValidation := []
  validLedger : Option LedgerRef := none
  received : List Received := []
  accepted : List AcceptedLedger := []

namespace RpcaPopAdaptor

variable (reg : Registry) (env : RpcaPopEnv) (s : RpcaPopAdaptor)

def getNeededValidations : Nat := if env.standalone then 0 else env.quorum

def getValidLedgerIndex : UInt32 := (s.validLedger.map LedgerRef.seq).getD 0

def negativeUNLFilter (validations : List STValidation) : List STValidation :=
  validations.filter fun v => !(decide (reg.signer v ∈ s.trusted) && decide (reg.signer v ∈ env.negativeUNL))

def getLastValidationsFromDB (seq : UInt32) (id : HashValue) : List STValidation :=
  s.lastValidationsDB.filter fun v => decide (v.seq = seq) && decide (v.ledgerHash = id)

def getLastValidations (seq : UInt32) (id : HashValue) : List STValidation :=
  let valSet := s.validations.getLastValidationsFromCache seq id
  if valSet.length = 0 then s.getLastValidationsFromDB seq id else valSet

-- `Adaptor::checkLedgerAccept`
def findLedger (info : LedgerRef) : Option LedgerRef :=
  if env.getLedgerByHash info.id = false ∨ reg.seqOf info.id ≠ info.seq then none
  else if info.seq ≤ s.getValidLedgerIndex then none
  else some (reg.ledger info.id)

def countedFor (ledger : LedgerRef) : List STValidation :=
  let validations := s.negativeUNLFilter reg env (s.validations.getTrustedForLedger ledger.id)
  if validations.length < getNeededValidations env then s.getLastValidations ledger.seq ledger.id
  else validations

def checkLedgerAccept (info : LedgerRef) : RpcaPopAdaptor × Option LedgerRef :=
  match s.findLedger reg env info with
  | none => (s, none)
  | some ledger =>
    let validations := s.countedFor reg env ledger
    if validations.length < getNeededValidations env then (s, none)
    else
      ({ s with
          validations := s.validations.setLastValidations validations
          accepted := ⟨ledger, getNeededValidations env, s.trusted⟩ :: s.accepted },
        some ledger)

def doValidLedger (ledger : LedgerRef) : RpcaPopAdaptor := { s with validLedger := some ledger }

def tryAccept (info : LedgerRef) : RpcaPopAdaptor :=
  match s.checkLedgerAccept reg env info with
  | (s, none) => s
  | (s, some ledger) => s.doValidLedger ledger

-- `checkLedgerAccept(hash, seq)`
def tryAcceptHash (hash : HashValue) (seq : UInt32) : RpcaPopAdaptor :=
  if seq ≠ 0 ∧ (seq ≤ s.getValidLedgerIndex ∨ seq = env.buildingLedger) then s
  else if env.historyByHash hash ∨ env.acquire hash then s.tryAccept reg env (reg.ledger hash)
  else s

def mark (val : STValidation) : STValidation :=
  if reg.signer val ∈ s.trusted then { val with isTrusted := true } else val

def handleNewValidation (val : STValidation) : RpcaPopAdaptor :=
  let val := s.mark reg val
  let masterKey := reg.signer val
  let s := { s with received := ⟨masterKey, val.seq, val.ledgerHash⟩ :: s.received }
  if val.ledgerSequence.isNone then s
  else if masterKey ∉ s.trusted ∧ masterKey ∉ s.listed then s
  else
    let added := s.validations.add env.clock masterKey val
    let s := { s with validations := added.1 }
    if val.isTrusted ∧ added.2 = .current then s.tryAcceptHash reg env val.ledgerHash val.seq else s

def peerValidation (isTrusted : Bool) (val : STValidation) : RpcaPopAdaptor :=
  let val := if isTrusted then { val with isTrusted := true } else val
  if isCurrent env.clock.parms env.clock.closeTime val.signTime val.seenTime = false then s
  else s.handleNewValidation reg env val

def verified (validations : List STValidation) : List STValidation :=
  validations.filter fun v => env.verifyDigest v.signerPublic v.ledgerHash v.signature

/-- The signers of the validations need not be trusted, listed or different. -/
def acceptSet (set : STValidationSet) : RpcaPopAdaptor :=
  let validations := verified env set.validations
  let s := { s with
    received := validations.map (fun v => ⟨reg.signer v, v.seq, v.ledgerHash⟩) ++ s.received }
  if validations.length ≥ env.quorum then
    let s := { s with validations := s.validations.setLastValidations validations }
    if env.acquire set.hash then s.tryAccept reg env (reg.ledger set.hash) else s
  else s

def peerValidationSetData (sender : PublicKey) (set : STValidationSet) : RpcaPopAdaptor :=
  if reg.getMasterKey sender ∉ s.trusted then s
  else match s.validLedger with
    | none => s
    | some ledger =>
      if ¬ ledger.seq < set.seq then s
      else if set.validations.any fun v => decide (set.seq ≠ v.seq) || decide (set.hash ≠ v.ledgerHash) then s
      else s.acceptSet reg env set

def countByLedger (validations : List STValidation) : AList (fun _ : HashValue => Nat × UInt32) :=
  validations.foldl (fun count v =>
    let vs := (count.lookup v.ledgerHash).getD (0, 0)
    count.insert v.ledgerHash (vs.1 + 1, if vs.2 = 0 then v.seq else vs.2)) ∅

def highestValidated (count : AList (fun _ : HashValue => Nat × UInt32)) (start : UInt32 × HashValue) :
    UInt32 × HashValue :=
  count.entries.foldl (fun best e =>
    if e.2.1 > getNeededValidations env then
      let ledgerSeq := if e.2.2 = 0 ∧ env.getLedgerByHash e.1 then reg.seqOf e.1 else e.2.2
      if ledgerSeq > best.1 then (ledgerSeq, e.1) else best
    else best) start

def consensusBuilt (hash : HashValue) : RpcaPopAdaptor :=
  let ledger := reg.ledger hash
  if env.standalone then s
  else if ledger.seq ≤ s.getValidLedgerIndex then s
  else
    let s := s.tryAccept reg env ledger
    if ledger.seq ≤ s.getValidLedgerIndex then s
    else
      let (validations, trusted) := s.validations.currentTrusted env.clock
      let s := { s with validations := validations }
      let count := countByLedger (s.negativeUNLFilter reg env trusted)
      let best := highestValidated reg env count (s.getValidLedgerIndex, ledger.id)
      if best.1 > env.currentLedgerIndex then s.tryAcceptHash reg env best.2 best.1 else s

/-- Trust is updated at the start of a round, when `trustChanged` is told, and elsewhere, when it is
not. -/
def updateTrusted (trusted listed : Finset PublicKey) (told : Bool) : RpcaPopAdaptor :=
  { s with
    trusted := trusted
    listed := listed
    validations :=
      if told then s.validations.trustChanged (trusted \ s.trusted) (s.trusted \ trusted) else s.validations }

def saveValidatedLedger (ledger : LedgerRef) : RpcaPopAdaptor :=
  { s with lastValidationsDB := s.validations.getLastValidationsFromCache ledger.seq ledger.id }

inductive Action where
  | validate (val : STValidation)
  | peerValidation (isTrusted : Bool) (val : STValidation)
  | peerValidationSetData (sender : PublicKey) (set : STValidationSet)
  | consensusBuilt (hash : HashValue)
  | checkLedgerAccept (info : LedgerRef)
  | updateTrusted (trusted listed : Finset PublicKey) (told : Bool)
  | saveValidatedLedger (ledger : LedgerRef)
  | expire (oldLedger : HashValue → Bool) (oldSeq : UInt32 → Bool)
  | setValidLedger (ledger : LedgerRef)

structure Event where
  action : Action
  env : RpcaPopEnv

def step (e : Event) : RpcaPopAdaptor :=
  match e.action with
  | .validate val => s.handleNewValidation reg e.env val
  | .peerValidation isTrusted val => s.peerValidation reg e.env isTrusted val
  | .peerValidationSetData sender set => s.peerValidationSetData reg e.env sender set
  | .consensusBuilt hash => s.consensusBuilt reg e.env hash
  | .checkLedgerAccept info => s.tryAccept reg e.env info
  | .updateTrusted trusted listed told => s.updateTrusted trusted listed told
  | .saveValidatedLedger ledger => s.saveValidatedLedger ledger
  | .expire oldLedger oldSeq => { s with validations := s.validations.expire oldLedger oldSeq }
  | .setValidLedger ledger => s.doValidLedger ledger

end RpcaPopAdaptor

end Chainsql
