import Chainsql.LedgerInfo
import Chainsql.Lib.Assoc
import Chainsql.ValidatorList

/-!
# View-change messages

`ViewChangeManager`: the table of view-change messages by target view and sender, and the two tests
that decide whether a view change takes place. Of the messages only the fields the tests read are
kept; the validated sequence, with which a node finds a peer to ask for validations, is left out.
-/

namespace Chainsql.Pop

structure ViewChange where
  prevSeq : UInt32
  prevHash : HashValue
  toView : UInt64
  nodePublic : PublicKey
deriving DecidableEq, Repr

abbrev ViewTable := AList (fun _ : PublicKey => ViewChange)

namespace ViewTable

def inOrder (table : ViewTable) : List ViewChange :=
  (table.entries.insertionSort fun e f => e.1 ≤ f.1).map Sigma.snd

def countOf (table : ViewTable) (prevHash : HashValue) : Nat :=
  (table.entries.filter fun e => e.2.prevHash = prevHash).length

/-- The message at which the count of some previous ledger reaches the quorum, given the previous
ledgers counted before. -/
def reachQuorum (quorum : Nat) (seen : List HashValue) : List ViewChange → Option ViewChange
  | [] => none
  | v :: rest =>
    if seen.count v.prevHash + 1 ≥ quorum then some v
    else reachQuorum quorum (v.prevHash :: seen) rest

end ViewTable

structure ViewChangeManager where
  viewChangeReq : AList (fun _ : UInt64 => ViewTable) := ∅
deriving Inhabited

namespace ViewChangeManager

def tableOf (m : ViewChangeManager) (toView : UInt64) : ViewTable :=
  (m.viewChangeReq.lookup toView).getD ∅

def recvViewChange (m : ViewChangeManager) (v : ViewChange) : ViewChangeManager where
  viewChangeReq := m.viewChangeReq.insert v.toView ((m.tableOf v.toView).insert v.nodePublic v)

def purge (m : ViewChangeManager) (drop : ViewChange → Bool) : ViewChangeManager where
  viewChangeReq := m.viewChangeReq.filterMapVal fun _ table =>
    let table := table.eraseIf fun _ v => drop v
    if table.size = 0 then none else some table

def onNewRound (m : ViewChangeManager) (prevLedger : LedgerRef) : ViewChangeManager :=
  m.purge fun v => decide (v.prevSeq < prevLedger.seq)
    -- in case of faked block hash
    || (v.prevSeq == prevLedger.seq && v.prevHash != prevLedger.id)

def onViewChanged (m : ViewChangeManager) (newView : UInt64) (preSeq : UInt32) : ViewChangeManager :=
  purge { viewChangeReq := m.viewChangeReq.eraseIf fun view _ => decide (view ≤ newView) }
    fun v => decide (v.prevSeq < preSeq)

def haveConsensus (m : ViewChangeManager) (toView curView : UInt64) (preHash : HashValue) (quorum : Nat) :
    Bool :=
  match m.viewChangeReq.lookup toView with
  | none => false
  | some table =>
    if table.size ≥ quorum then decide (table.countOf preHash ≥ quorum) && decide (toView > curView)
    else false

/-- The previous ledger that a quorum names in its messages for the view. The sequence number is that
of the message that completes the quorum, and the view is not compared with the current one. -/
def shouldTriggerViewChange (m : ViewChangeManager) (toView : UInt64) (quorum : Nat) : Option LedgerRef :=
  let table := m.tableOf toView
  if table.size ≥ quorum then
    match ViewTable.reachQuorum quorum [] table.inOrder with
    | some v => if v.prevSeq > 0 then some { id := v.prevHash, seq := v.prevSeq } else none
    | none => none
  else none

def clearCache (_ : ViewChangeManager) : ViewChangeManager := {}

end ViewChangeManager

end Chainsql.Pop
