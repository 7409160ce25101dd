import Chainsql.Lib.Assoc
import Chainsql.Lib.Run
import Mathlib.Data.Finset.SymmDiff

/-!
# The disputes of an RPCA round

A validator that has taken a position compares it with the transaction sets of its peers. Each transaction on
which two sets differ is disputed, and the dispute counts the votes of the peers. The sets of the peers arrive
at any time, and the position changes with the votes.
-/

namespace Chainsql.Rpca

/-- `RCLTxSet`: the id of a set, and the differences between two sets, of which at most 65536 are found. -/
structure TxSets (TxID SetID : Type) [DecidableEq TxID] where
  id : Finset TxID → SetID
  id_inj : Function.Injective id
  compare : Finset TxID → Finset TxID → List TxID
  nodup : ∀ a b, (compare a b).Nodup
  differ : ∀ a b, ∀ tx ∈ compare a b, tx ∈ symmDiff a b
  length : ∀ a b, (compare a b).length = min 65536 (symmDiff a b).card

/-! ## Disputes -/

structure RpcaConsensusParms where
  avINIT_CONSENSUS_PCT : ℤ := 50
  avMID_CONSENSUS_TIME : ℤ := 50
  avMID_CONSENSUS_PCT : ℤ := 65
  avLATE_CONSENSUS_TIME : ℤ := 85
  avLATE_CONSENSUS_PCT : ℤ := 70
  avSTUCK_CONSENSUS_TIME : ℤ := 200
  avSTUCK_CONSENSUS_PCT : ℤ := 95
  proposeFRESHNESS : ℤ := 20

structure DisputedTx (Node : Type) where
  yays : ℤ
  nays : ℤ
  ourVote : Bool
  votes : AList fun _ : Node => Bool

namespace DisputedTx

variable {Node : Type} [DecidableEq Node] (d : DisputedTx Node)

def new (ourVote : Bool) : DisputedTx Node := ⟨0, 0, ourVote, ∅⟩

def setVote (peer : Node) (votesYes : Bool) : DisputedTx Node :=
  match d.votes.lookup peer with
  | none =>
    let votes := d.votes.insert peer votesYes
    if votesYes then { d with yays := d.yays + 1, votes } else { d with nays := d.nays + 1, votes }
  | some vote =>
    if votesYes && !vote then
      { d with yays := d.yays + 1, nays := d.nays - 1, votes := d.votes.insert peer true }
    else if !votesYes && vote then
      { d with yays := d.yays - 1, nays := d.nays + 1, votes := d.votes.insert peer false }
    else d

def unVote (peer : Node) : DisputedTx Node :=
  match d.votes.lookup peer with
  | some true => { d with yays := d.yays - 1, votes := d.votes.erase peer }
  | some false => { d with nays := d.nays - 1, votes := d.votes.erase peer }
  | none => d

def newPosition (parms : RpcaConsensusParms) (percentTime : ℤ) (proposing : Bool) : Bool :=
  if proposing then
    let weight := (d.yays * 100 + if d.ourVote then 100 else 0) / (d.nays + d.yays + 1)
    if percentTime < parms.avMID_CONSENSUS_TIME then decide (parms.avINIT_CONSENSUS_PCT < weight)
    else if percentTime < parms.avLATE_CONSENSUS_TIME then decide (parms.avMID_CONSENSUS_PCT < weight)
    else if percentTime < parms.avSTUCK_CONSENSUS_TIME then decide (parms.avLATE_CONSENSUS_PCT < weight)
    else decide (parms.avSTUCK_CONSENSUS_PCT < weight)
  else decide (d.nays < d.yays)

def updateVote (parms : RpcaConsensusParms) (percentTime : ℤ) (proposing : Bool) : DisputedTx Node :=
  if d.ourVote = true ∧ d.nays = 0 then d
  else if d.ourVote = false ∧ d.yays = 0 then d
  else { d with ourVote := d.newPosition parms percentTime proposing }

end DisputedTx

/-! ## Positions -/

structure Proposal (Node SetID LedgerID : Type) where
  nodeID : Node
  prevLedger : LedgerID
  position : SetID
  proposeSeq : ℕ
  time : ℤ

def seqLeave : ℕ := 0xffffffff

section

variable {Node TxID SetID LedgerID : Type} [DecidableEq Node] [DecidableEq TxID] [DecidableEq SetID]

def Proposal.isBowOut (p : Proposal Node SetID LedgerID) : Bool := p.proposeSeq == seqLeave

def Proposal.isStale (p : Proposal Node SetID LedgerID) (cutoff : ℤ) : Bool := decide (p.time ≤ cutoff)

abbrev Positions (Node SetID LedgerID : Type) := AList fun _ : Node => Proposal Node SetID LedgerID

abbrev Acquired (TxID SetID : Type) := AList fun _ : SetID => Finset TxID

/-- Our position, with the disputes and the ids of the sets it has been compared with. -/
structure Result (Node TxID SetID : Type) where
  txns : Finset TxID
  compares : Finset SetID
  disputes : AList fun _ : TxID => DisputedTx Node

namespace Result

variable (T : TxSets TxID SetID) (positions : Positions Node SetID LedgerID) (acquired : Acquired TxID SetID)
  (r : Result Node TxID SetID)

/-- The votes of the peers on a transaction whose sets are known. -/
def castVotes (tx : TxID) (d : DisputedTx Node) : DisputedTx Node :=
  positions.entries.foldl (fun d e =>
    match acquired.lookup e.2.position with
    | some set => d.setVote e.1 (decide (tx ∈ set))
    | none => d) d

def dispute (tx : TxID) : Result Node TxID SetID :=
  if tx ∈ r.disputes then r
  else { r with disputes := r.disputes.insert tx (castVotes positions acquired tx (.new (decide (tx ∈ r.txns)))) }

def createDisputes (o : Finset TxID) : Result Node TxID SetID :=
  if T.id o ∈ r.compares then r
  else
    let r := { r with compares := insert (T.id o) r.compares }
    if T.id r.txns = T.id o then r else (T.compare r.txns o).foldl (dispute positions acquired) r

/-- The disputes with the peers whose positions are known. -/
def createAllDisputes : Result Node TxID SetID :=
  positions.entries.foldl (fun r e =>
    match acquired.lookup e.2.position with
    | some set => r.createDisputes T positions acquired set
    | none => r) r

def setVotes (node : Node) (other : Finset TxID) : Result Node TxID SetID :=
  { r with disputes := r.disputes.mapVal fun tx d => d.setVote node (decide (tx ∈ other)) }

def updateDisputes (node : Node) (other : Finset TxID) : Result Node TxID SetID :=
  (r.createDisputes T positions acquired other).setVotes node other

/-- The disputes with the peers that have this position. -/
def updateProposers (other : Finset TxID) : Result Node TxID SetID :=
  positions.entries.foldl (fun r e =>
    if e.2.position = T.id other then r.updateDisputes T positions acquired e.1 other else r) r

def unVote (node : Node) : Result Node TxID SetID :=
  { r with disputes := r.disputes.mapVal fun _ d => d.unVote node }

def votesChange (parms : RpcaConsensusParms) (percentTime : ℤ) (proposing : Bool) : Bool :=
  r.disputes.entries.any fun e => (e.2.updateVote parms percentTime proposing).ourVote != e.2.ourVote

def updateVotes (parms : RpcaConsensusParms) (percentTime : ℤ) (proposing : Bool) : Result Node TxID SetID :=
  { r with
    disputes := r.disputes.mapVal fun _ d => d.updateVote parms percentTime proposing
    txns := r.disputes.entries.foldl (fun txns e =>
      let vote := (e.2.updateVote parms percentTime proposing).ourVote
      if vote = e.2.ourVote then txns else if vote then insert e.1 txns else txns.erase e.1) r.txns }

end Result

end

/-! ## The round -/

inductive ConsensusPhase where
  | open | establish | accepted
deriving DecidableEq

inductive ConsensusMode where
  | proposing | observing | wrongLedger | switchedLedger
deriving DecidableEq

/-- What the node finds out while it handles one event. -/
structure Env {TxID SetID : Type} [DecidableEq TxID] (T : TxSets TxID SetID) (LedgerID : Type) where
  now : ℤ
  /-- The sets that are at hand when a proposal names them. -/
  acquireTxSet : SetID → Option (Finset TxID)
  acquireTxSet_id : ∀ id set, acquireTxSet id = some set → T.id set = id
  getPrevLedger : LedgerID
  acquireLedger : Bool
  shouldCloseLedger : Bool
  onClose : Finset TxID
  /-- Less than the minimal time of a round has passed. -/
  tooEarly : Bool
  convergePercent : ℤ
  /-- The close time changes, or our position is stale. -/
  newPosition : Bool
  /-- There is consensus on the set and on the close time. -/
  haveConsensus : Bool

structure RpcaConsensus (Node TxID SetID LedgerID : Type) where
  phase : ConsensusPhase
  mode : ConsensusMode
  prevLedgerID : LedgerID
  previousLedger : LedgerID
  result : Option (Result Node TxID SetID)
  currPeerPositions : Positions Node SetID LedgerID
  acquired : Acquired TxID SetID
  deadNodes : List Node
  recentPeerPositions : AList fun _ : Node => List (Proposal Node SetID LedgerID)
  prevProposers : ℕ

namespace RpcaConsensus

variable {Node TxID SetID LedgerID : Type} [DecidableEq Node] [DecidableEq TxID] [DecidableEq SetID]
  [DecidableEq LedgerID] (T : TxSets TxID SetID) (parms : RpcaConsensusParms) (env : Env T LedgerID)
  (s : RpcaConsensus Node TxID SetID LedgerID)

def gotTxSet (txSet : Finset TxID) : RpcaConsensus Node TxID SetID LedgerID :=
  if s.phase = .accepted then s
  else if T.id txSet ∈ s.acquired then s
  else
    let acquired := s.acquired.insert (T.id txSet) txSet
    { s with acquired, result := s.result.map (·.updateProposers T s.currPeerPositions acquired txSet) }

def bowOut (peerID : Node) : RpcaConsensus Node TxID SetID LedgerID :=
  { s with
    result := s.result.map (·.unVote peerID)
    currPeerPositions := s.currPeerPositions.erase peerID
    deadNodes := peerID :: s.deadNodes }

/-- The new position of a peer, with the votes if its set is known. -/
def takePosition (p : Proposal Node SetID LedgerID) : RpcaConsensus Node TxID SetID LedgerID :=
  let s := { s with currPeerPositions := s.currPeerPositions.insert p.nodeID p }
  match s.acquired.lookup p.position with
  | some set =>
    { s with result := s.result.map (·.updateDisputes T s.currPeerPositions s.acquired p.nodeID set) }
  | none =>
    match env.acquireTxSet p.position with
    | some set => s.gotTxSet T set
    | none => s

def peerProposalInternal (p : Proposal Node SetID LedgerID) : RpcaConsensus Node TxID SetID LedgerID :=
  if s.phase = .accepted then s
  else if p.prevLedger ≠ s.prevLedgerID then s
  else if s.deadNodes.contains p.nodeID then s
  else if ((s.currPeerPositions.lookup p.nodeID).map fun q => decide (p.proposeSeq ≤ q.proposeSeq)).getD false then s
  else if p.isBowOut then s.bowOut p.nodeID
  else s.takePosition T env p

/-- A trusted proposal. The last ten of each peer are kept. -/
def peerProposal (p : Proposal Node SetID LedgerID) : RpcaConsensus Node TxID SetID LedgerID :=
  let props := (s.recentPeerPositions.lookup p.nodeID).getD []
  let props := if 10 ≤ props.length then props.tail else props
  let s := { s with recentPeerPositions := s.recentPeerPositions.insert p.nodeID (props ++ [p]) }
  s.peerProposalInternal T env p

def playbackProposals : RpcaConsensus Node TxID SetID LedgerID :=
  s.recentPeerPositions.entries.foldl (fun s e => e.2.foldl (fun s p =>
    if p.prevLedger = s.prevLedgerID then s.peerProposalInternal T env p else s) s) s

/-! ### The phases -/

def closeLedger : RpcaConsensus Node TxID SetID LedgerID :=
  let acquired := s.acquired.emplace (T.id env.onClose) env.onClose
  let result : Result Node TxID SetID := ⟨env.onClose, ∅, ∅⟩
  { s with phase := .establish, acquired, result := some (result.createAllDisputes T s.currPeerPositions acquired) }

def phaseOpen : RpcaConsensus Node TxID SetID LedgerID :=
  if env.shouldCloseLedger then s.closeLedger T env else s

def stalePeers : List Node :=
  (s.currPeerPositions.entries.filter fun e => e.2.isStale (env.now - parms.proposeFRESHNESS)).map (·.1)

def dropPeer (peerID : Node) : RpcaConsensus Node TxID SetID LedgerID :=
  { s with
    result := s.result.map (·.unVote peerID)
    currPeerPositions := s.currPeerPositions.erase peerID }

/-- Our new set. The peers that have proposed it before it was known vote with it. -/
def changePosition (r : Result Node TxID SetID) : RpcaConsensus Node TxID SetID LedgerID :=
  if T.id r.txns ∈ s.acquired then { s with result := some r }
  else
    let acquired := s.acquired.insert (T.id r.txns) r.txns
    { s with acquired, result := some (r.updateProposers T s.currPeerPositions acquired r.txns) }

def updateOurPositions : RpcaConsensus Node TxID SetID LedgerID :=
  let s := (s.stalePeers T parms env).foldl dropPeer s
  match s.result with
  | none => s
  | some r =>
    let proposing := decide (s.mode = .proposing)
    let r' := r.updateVotes parms env.convergePercent proposing
    if r.votesChange parms env.convergePercent proposing || env.newPosition then s.changePosition T r'
    else { s with result := some r' }

def phaseEstablish : RpcaConsensus Node TxID SetID LedgerID :=
  if env.tooEarly then s
  else
    let s := s.updateOurPositions T parms env
    if env.haveConsensus then { s with prevProposers := s.currPeerPositions.size, phase := .accepted } else s

/-! ### Ledgers -/

/-- A new round, which looks at the timer at once (`again`) if enough proposals for it have been received. -/
def startRoundInternal (again : RpcaConsensus Node TxID SetID LedgerID → RpcaConsensus Node TxID SetID LedgerID)
    (prevLedgerID previousLedger : LedgerID) (mode : ConsensusMode) : RpcaConsensus Node TxID SetID LedgerID :=
  let s := { s with
    phase := .open
    mode
    prevLedgerID
    previousLedger
    result := none
    currPeerPositions := ∅
    acquired := ∅
    deadNodes := [] }
  let s := s.playbackProposals T env
  if s.prevProposers / 2 < s.currPeerPositions.size then again s else s

def leaveConsensus : RpcaConsensus Node TxID SetID LedgerID :=
  if s.mode = .proposing then { s with mode := .observing } else s

/-- The disputes are dropped with the proposals, and created again from those for the new ledger. -/
def switchLedger (lgrId : LedgerID) : RpcaConsensus Node TxID SetID LedgerID :=
  let s := { s with
    prevLedgerID := lgrId
    result := s.result.map fun r : Result Node TxID SetID => { r with disputes := ∅, compares := ∅ }
    currPeerPositions := ∅
    deadNodes := [] }
  s.playbackProposals T env

def handleWrongLedger (again : RpcaConsensus Node TxID SetID LedgerID → RpcaConsensus Node TxID SetID LedgerID)
    (lgrId : LedgerID) : RpcaConsensus Node TxID SetID LedgerID :=
  let s := s.leaveConsensus
  let s := if s.prevLedgerID = lgrId then s else s.switchLedger T env lgrId
  if s.previousLedger = s.prevLedgerID then s
  else if env.acquireLedger then s.startRoundInternal T env again lgrId s.prevLedgerID .switchedLedger
  else { s with mode := .wrongLedger }

def checkLedger (again : RpcaConsensus Node TxID SetID LedgerID → RpcaConsensus Node TxID SetID LedgerID) :
    RpcaConsensus Node TxID SetID LedgerID :=
  if env.getPrevLedger ≠ s.prevLedgerID ∨ s.previousLedger ≠ s.prevLedgerID then
    s.handleWrongLedger T env again env.getPrevLedger
  else s

/-- The timer, with what is found out in this call and in those it makes itself. -/
def timerEntry : List (Env T LedgerID) → RpcaConsensus Node TxID SetID LedgerID → RpcaConsensus Node TxID SetID LedgerID
  | [], s => s
  | env :: envs, s =>
    if s.phase = .accepted then s
    else
      let s := s.checkLedger T env (timerEntry envs)
      match s.phase with
      | .open => s.phaseOpen T env
      | .establish => s.phaseEstablish T parms env
      | .accepted => s

def startRound (envs : List (Env T LedgerID)) (prevLedgerID previousLedger : LedgerID) (nowUntrusted : List Node)
    (proposing : Bool) : RpcaConsensus Node TxID SetID LedgerID :=
  let s := { s with recentPeerPositions := s.recentPeerPositions.eraseIf fun n _ => nowUntrusted.contains n }
  let startMode := if proposing then ConsensusMode.proposing else .observing
  let again := timerEntry T parms envs
  if previousLedger = prevLedgerID then s.startRoundInternal T env again prevLedgerID previousLedger startMode
  else if env.acquireLedger then s.startRoundInternal T env again prevLedgerID prevLedgerID startMode
  else s.startRoundInternal T env again prevLedgerID previousLedger .wrongLedger

end RpcaConsensus

/-! ## Runs -/

inductive Event (Node TxID SetID LedgerID : Type) [DecidableEq TxID] (T : TxSets TxID SetID) where
  | peerProposal (env : Env T LedgerID) (p : Proposal Node SetID LedgerID)
  | gotTxSet (txSet : Finset TxID)
  | timerEntry (envs : List (Env T LedgerID))
  | startRound (env : Env T LedgerID) (envs : List (Env T LedgerID)) (prevLedgerID previousLedger : LedgerID)
    (nowUntrusted : List Node) (proposing : Bool)

section

variable {Node TxID SetID LedgerID : Type} [DecidableEq Node] [DecidableEq TxID] [DecidableEq SetID]
  [DecidableEq LedgerID] (T : TxSets TxID SetID) (parms : RpcaConsensusParms)

def step (s : RpcaConsensus Node TxID SetID LedgerID) :
    Event Node TxID SetID LedgerID T → RpcaConsensus Node TxID SetID LedgerID
  | .peerProposal env p => s.peerProposal T env p
  | .gotTxSet txSet => s.gotTxSet T txSet
  | .timerEntry envs => s.timerEntry T parms envs
  | .startRound env envs prevLedgerID previousLedger nowUntrusted proposing =>
    s.startRound T parms env envs prevLedgerID previousLedger nowUntrusted proposing

def init (ledger : LedgerID) : RpcaConsensus Node TxID SetID LedgerID :=
  ⟨.accepted, .observing, ledger, ledger, none, ∅, ∅, [], ∅, 0⟩

end

end Chainsql.Rpca
