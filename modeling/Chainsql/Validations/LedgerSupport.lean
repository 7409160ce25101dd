import Chainsql.Trie.LedgerTrie
import Chainsql.Validations.Store

/-!
# The ledgers that current validations support

The part of `Validations` around the trie: the ledger of each node's last validation counts in the trie
once it is acquired, and until then the node waits in `acquiring`. What `acquire` returns may change
from one call to the next, so the calls are numbered. Hash maps are association lists, hash sets lists.
-/

namespace Chainsql

variable {L : Type*} [Lineage L HashValue]

structure Acquirer (L : Type*) [Lineage L HashValue] where
  acquire : Nat → HashValue → Option L
  id_eq : ∀ {call hash ledger}, acquire call hash = some ledger → Lineage.id ledger = hash

structure LedgerSupport (L : Type*) [Lineage L HashValue] where
  trie : LedgerTrie L := {}
  lastLedger : AList (fun _ : PublicKey => L) := ∅
  acquiring : AList (fun _ : UInt32 × HashValue => List PublicKey) := ∅
  -- The calls of `acquire` so far.
  calls : Nat := 0

namespace LedgerSupport

variable (T : LedgerSupport L) (adaptor : Acquirer L)

def stopAcquiring (key : UInt32 × HashValue) (nodeID : PublicKey) : LedgerSupport L :=
  match T.acquiring.lookup key with
  | none => T
  | some nodes =>
    let nodes := nodes.filter (· ≠ nodeID)
    { T with acquiring := if nodes = [] then T.acquiring.erase key else T.acquiring.insert key nodes }

def removeTrie (nodeID : PublicKey) (val : STValidation) : LedgerSupport L :=
  let T := T.stopAcquiring (val.seq, val.ledgerHash) nodeID
  match T.lastLedger.lookup nodeID with
  | none => T
  | some ledger =>
    if Lineage.id ledger = val.ledgerHash then
      { T with
        trie := (T.trie.remove ledger 1).1
        lastLedger := T.lastLedger.erase nodeID }
    else T

/-- `updateTrie` for a ledger that has been acquired. -/
def setLedger (nodeID : PublicKey) (ledger : L) : LedgerSupport L :=
  match T.lastLedger.lookup nodeID with
  | none =>
    { T with
      trie := T.trie.insert ledger 1
      lastLedger := T.lastLedger.insert nodeID ledger }
  | some old =>
    { T with
      trie := (T.trie.remove old 1).1.insert ledger 1
      lastLedger := T.lastLedger.insert nodeID ledger }

def setLedgers (ledger : L) : List PublicKey → LedgerSupport L → LedgerSupport L
  | [], T => T
  | nodeID :: nodes, T => setLedgers ledger nodes (T.setLedger nodeID ledger)

def acquire (hash : HashValue) : LedgerSupport L × Option L :=
  ({ T with calls := T.calls + 1 }, adaptor.acquire T.calls hash)

def checkEntries : List (Σ _ : UInt32 × HashValue, List PublicKey) → LedgerSupport L → LedgerSupport L
  | [], T => T
  | ⟨key, nodes⟩ :: rest, T =>
    match T.acquire adaptor key.2 with
    | (T, some ledger) =>
      let T := setLedgers ledger nodes T
      checkEntries rest { T with acquiring := T.acquiring.erase key }
    | (T, none) => checkEntries rest T

def checkAcquired : LedgerSupport L := checkEntries adaptor T.acquiring.entries T

def updateTrie (nodeID : PublicKey) (val : STValidation) (prior : Option (UInt32 × HashValue)) :
    LedgerSupport L :=
  let T := match prior with
    | none => T
    | some key => T.stopAcquiring key nodeID
  let T := T.checkAcquired adaptor
  let key := (val.seq, val.ledgerHash)
  match T.acquiring.lookup key with
  | some nodes => { T with acquiring := T.acquiring.insert key (nodes.insert nodeID) }
  | none =>
    match T.acquire adaptor val.ledgerHash with
    | (T, some ledger) => T.setLedger nodeID ledger
    | (T, none) => { T with acquiring := T.acquiring.insert key [nodeID] }

/-- What a loop over the current validations does with one of them. -/
inductive Verdict where
  | keep
  | renew
  | drop
deriving DecidableEq

/-- A loop over `current`: support is renewed for the validations that become trusted and withdrawn for
those that are dropped or no longer trusted. -/
def sweep (verdict : PublicKey → STValidation → Verdict) :
    List (Σ _ : PublicKey, STValidation) → LedgerSupport L → LedgerSupport L
  | [], T => T
  | ⟨nodeID, val⟩ :: rest, T =>
    sweep verdict rest <| match verdict nodeID val with
      | .keep => T
      | .renew => T.updateTrie adaptor nodeID { val with isTrusted := true } none
      | .drop => T.removeTrie nodeID val

end LedgerSupport

structure TrieValidations (L : Type*) [Lineage L HashValue] where
  base : Validations := {}
  support : LedgerSupport L := {}

namespace TrieValidations

open LedgerSupport

variable (m : TrieValidations L) (adaptor : Acquirer L) (clock : ValidationClock)

def add (nodeID : PublicKey) (val : STValidation) : TrieValidations L × ValStatus :=
  let old := m.base.current.lookup nodeID
  let (base, status) := m.base.add clock nodeID val
  if status = .current ∧ val.isTrusted then
    let prior := old.map fun v => (v.seq, v.ledgerHash)
    ({ base := base, support := m.support.updateTrie adaptor nodeID val prior }, status)
  else ({ m with base := base }, status)

def expire (oldLedger : HashValue → Bool) (oldSeq : UInt32 → Bool) : TrieValidations L :=
  { m with base := m.base.expire oldLedger oldSeq }

def trustChanged (added removed : Finset PublicKey) : TrieValidations L :=
  let verdict nodeID _ := if nodeID ∈ added then Verdict.renew else if nodeID ∈ removed then .drop else .keep
  { base := m.base.trustChanged added removed
    support := sweep adaptor verdict m.base.current.entries m.support }

def isStale (val : STValidation) : Bool := !isCurrent clock.parms clock.closeTime val.signTime val.seenTime

/-- `current`, which drops the stale validations. -/
def dropStale : TrieValidations L :=
  let verdict _ val := if isStale clock val then Verdict.drop else .keep
  { base := { m.base with current := m.base.current.eraseIf fun _ val => isStale clock val }
    support := sweep adaptor verdict m.base.current.entries m.support }

def currentTrusted : TrieValidations L × List STValidation :=
  let m := m.dropStale adaptor clock
  (m, (m.base.current.entries.map Sigma.snd).filter fun v => v.isTrusted && v.isFull)

def flush : TrieValidations L :=
  { base := { m.base with current := ∅ }
    support := sweep adaptor (fun _ _ => .drop) m.base.current.entries m.support }

/-- The ledger that most nodes wait for, the one with the larger id on a tie. -/
def mostAcquired : List (Σ _ : UInt32 × HashValue, List PublicKey) → Option (UInt32 × HashValue)
  | [] => none
  | first :: rest =>
    let less (a b : Σ _ : UInt32 × HashValue, List PublicKey) : Prop :=
      a.2.length < b.2.length ∨ (a.2.length = b.2.length ∧ a.1.2 < b.1.2)
    some (rest.foldl (fun best e => if less best e then e else best) first).1

def getPreferred (order : LedgerTrie.Arrangement (LedgerTrie.Node L)) (largestIssued : Nat) (curr : L) :
    TrieValidations L × Option (Nat × HashValue) :=
  let m := m.dropStale adaptor clock
  let T := m.support.checkAcquired adaptor
  let (trie, preferred) := T.trie.getPreferred order largestIssued
  let m := { m with support := { T with trie := trie } }
  match preferred with
  | none => (m, (mostAcquired T.acquiring.entries).map fun key => (key.1.toNat, key.2))
  | some preferred =>
    if preferred.seq = Lineage.seq curr + 1
        ∧ Lineage.ancestor preferred.ledger (Lineage.seq curr) = Lineage.id curr then
      (m, some (Lineage.seq curr, Lineage.id curr))
    else if preferred.seq > Lineage.seq curr then (m, some (preferred.seq, preferred.id))
    else if Lineage.ancestor curr preferred.seq ≠ preferred.id then (m, some (preferred.seq, preferred.id))
    else (m, some (Lineage.seq curr, Lineage.id curr))

end TrieValidations

/-- The calls that change what is tracked. -/
inductive TrieValidations.Op (L : Type*) where
  | add (clock : ValidationClock) (nodeID : PublicKey) (val : STValidation)
  | trustChanged (added removed : Finset PublicKey)
  | expire (oldLedger : HashValue → Bool) (oldSeq : UInt32 → Bool)
  | flush
  | getPreferred (clock : ValidationClock) (largestIssued : Nat) (curr : L)
  | currentTrusted (clock : ValidationClock)

def TrieValidations.step (adaptor : Acquirer L) (order : LedgerTrie.Arrangement (LedgerTrie.Node L))
    (m : TrieValidations L) : Op L → TrieValidations L
  | .add clock nodeID val => (m.add adaptor clock nodeID val).1
  | .trustChanged added removed => m.trustChanged adaptor added removed
  | .expire oldLedger oldSeq => m.expire oldLedger oldSeq
  | .flush => m.flush adaptor
  | .getPreferred clock largestIssued curr => (m.getPreferred adaptor clock order largestIssued curr).1
  | .currentTrusted clock => (m.currentTrusted adaptor clock).1

end Chainsql
