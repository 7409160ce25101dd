import Chainsql.Pop.ViewChange

/-!
# The PoP consensus of one node

`PopConsensus` as a state machine. In each view one validator leads: it proposes a transaction set,
the others take the same stance once they have the set, and a node accepts when a quorum has proposed
the set its leader named last. A view that takes too long is left by a view change.

Clocks are left out: what a handler reads of them, and everything else it asks its adaptor, is the
`PopAdaptor` argument of the step. Logs record the calls of `propose`, and as an `Accept` each call of
`onAccept` with what the consensus held at that moment.
-/

namespace Chainsql.Pop

inductive ConsensusPhase where
  | opened
  | establish
  | accepted
deriving DecidableEq, Repr

inductive ConsensusMode where
  | proposing
  | observing
  | wrongLedger
  | switchedLedger
deriving DecidableEq, Repr

inductive ConsensusState where
  | movedOn
  | yes
  | no
deriving DecidableEq, Repr

structure Proposal where
  isBowOut : Bool := false
  position : HashValue
  prevLedger : HashValue
  curLedgerSeq : UInt32
  view : UInt64
  publicKey : PublicKey
  txSet : Option HashValue := none
deriving DecidableEq, Repr

structure Result where
  txns : HashValue
  position : Proposal
  state : ConsensusState := .no
deriving DecidableEq

structure Accept where
  result : Option Result
  setID : Option HashValue
  quorum : Nat
  trusted : Finset PublicKey
  prevLedgerID : HashValue
  seq : UInt32
  view : UInt64
deriving DecidableEq

def genesisLedgerIndex : UInt32 := 1

abbrev Votes := AList (fun _ : HashValue => Finset PublicKey)

def Votes.add (votes : Votes) (id : HashValue) (key : PublicKey) : Votes :=
  votes.insert id (insert key ((votes.lookup id).getD ∅))

structure PopAdaptor where
  validators : List PublicKey
  quorum : Nat
  validating : Bool := true
  omitEmpty : Bool := true
  proposeTxSetDetail : Bool := false
  mode : ConsensusMode := .proposing
  proposersFinished : LedgerRef → HashValue → Nat := fun _ _ => 0
  proposersValidated : HashValue → Nat := fun _ => 0
  getPrevLedger : HashValue → LedgerRef → ConsensusMode → HashValue := fun id _ _ => id
  acquireTxSet : HashValue → Bool := fun _ => false
  ledgerSeq : HashValue → Option UInt32 := fun _ => none
  isCompatible : LedgerRef → Bool := fun _ => true
  validatedLedger : Option LedgerRef := none
  -- The transaction pool is available and `finalCondReached`.
  finalCondReached : Bool := true
  collected : HashValue := zeroHash
  timeoutCountRollback : Nat := 5
  timedOut : Bool := false

def PopAdaptor.acquireLedger (env : PopAdaptor) (id : HashValue) : Option LedgerRef :=
  (env.ledgerSeq id).map (LedgerRef.mk id)

structure PopConsensus where
  valPublic : PublicKey
  trusted : Finset PublicKey
  initialized : Bool := false
  phase : ConsensusPhase := .opened
  mode : ConsensusMode := .observing
  prevLedgerID : HashValue := zeroHash
  prevLedgerSeq : UInt32 := 0
  previousLedger : LedgerRef := {}
  initAcquireLedgerID : HashValue := zeroHash
  result : Option Result := none
  acquired : Finset HashValue := ∅
  txSetVoted : Votes := ∅
  txSetCached : Votes := ∅
  proposalCache : AList (fun _ : UInt32 => AList (fun _ : PublicKey => Proposal)) := ∅
  setID : Option HashValue := none
  waitingConsensusReach : Bool := true
  timeOutCount : Nat := 0
  leaderFailed : Bool := false
  view : UInt64 := 0
  toView : UInt64 := 0
  viewChangeManager : ViewChangeManager := {}
  -- The values of `view_` since the round started, newest first.
  views : List UInt64 := [0]
  -- The proposals sent since the round started, newest first.
  proposed : List Proposal := []
  -- All proposals sent, and those received from trusted keys.
  heard : List Proposal := []
  accepts : List Accept := []

namespace PopConsensus

variable (env : PopAdaptor)

def curSeq (s : PopConsensus) : UInt32 := s.previousLedger.seq + 1

def isLeader (s : PopConsensus) (publicKey : PublicKey) : Bool :=
  publicKey == getLeaderPubKey env.validators (s.curSeq.toUInt64 + s.view).toUInt32

def propose (s : PopConsensus) (p : Proposal) : PopConsensus :=
  { s with proposed := p :: s.proposed, heard := p :: s.heard }

/-! ## Voting -/

def agreed (s : PopConsensus) : Finset PublicKey :=
  (s.txSetVoted.lookup (s.setID.getD zeroHash)).getD ∅

/-- The outcome of the vote. The quorum is assigned to an `int`. -/
def consensusState (s : PopConsensus) : ConsensusState :=
  let minVal := (env.quorum : Int).bmod UInt32.size
  let currentFinished : Nat :=
    if s.previousLedger.seq = genesisLedgerIndex then 0
    else env.proposersFinished s.previousLedger s.prevLedgerID
  if s.agreed.card ≥ minVal then .yes
  else if currentFinished ≥ minVal then .movedOn
  else .no

def touchVoted (s : PopConsensus) : PopConsensus :=
  { s with txSetVoted := s.txSetVoted.emplace (s.setID.getD zeroHash) ∅ }

def haveConsensus (s : PopConsensus) : PopConsensus × Bool :=
  match s.result with
  | none => (s, false)
  | some result =>
    let s := s.touchVoted
    let state := s.consensusState env
    ({ s with result := some { result with state := state } }, state != .no)

def accept (s : PopConsensus) : PopConsensus :=
  { s with
    phase := .accepted
    accepts :=
      { result := s.result, setID := s.setID, quorum := env.quorum, trusted := s.trusted,
        prevLedgerID := s.prevLedgerID, seq := s.curSeq, view := s.view } :: s.accepts }

def checkVoting (s : PopConsensus) : PopConsensus :=
  if s.phase = .accepted then s
  else match s.haveConsensus env with
    | (s, true) => s.accept env
    | (s, false) => s

def takeStance (s : PopConsensus) (id : HashValue) : PopConsensus :=
  let position : Proposal :=
    { position := id, prevLedger := s.prevLedgerID, curLedgerSeq := s.curSeq, view := s.view,
      publicKey := s.valPublic }
  let s := { s with
    result := some { txns := id, position := position }
    phase := if s.phase = .opened then .establish else s.phase }
  if env.validating then
    { s with txSetVoted := s.txSetVoted.add id s.valPublic }.propose position
  else s

def gotTxSet (s : PopConsensus) (id : HashValue) : PopConsensus :=
  if s.phase = .accepted then s
  else
    let s := { s with acquired := insert id s.acquired }
    if s.setID ≠ some id then s
    else
      let s := if s.isLeader env s.valPublic = false ∧ s.result.isNone then s.takeStance env id else s
      if s.result.isSome then s.checkVoting env else s

/-! ## Proposals of peers -/

/-- Proposals for a later ledger or view are kept, one per key; a later view replaces an earlier. -/
def checkSaveNextProposal (s : PopConsensus) (p : Proposal) : PopConsensus :=
  if p.curLedgerSeq > s.curSeq ∨ (p.curLedgerSeq = s.curSeq ∧ p.view > s.view) then
    let table := (s.proposalCache.lookup p.curLedgerSeq).getD ∅
    let table := match table.lookup p.publicKey with
      | some old => if old.view < p.view then table.erase p.publicKey else table
      | none => table
    { s with proposalCache := s.proposalCache.insert p.curLedgerSeq (table.emplace p.publicKey p) }
  else s

def followLeader (s : PopConsensus) (p : Proposal) : PopConsensus :=
  { s with
    setID := some p.position
    txSetVoted := s.txSetVoted.insert p.position
      (insert p.publicKey ((s.txSetCached.lookup p.position).getD ∅))
    txSetCached := s.txSetCached.erase p.position }

/-- Counts the proposal. The flag is false when the leader proposes an empty set, which fails it. -/
def countProposal (s : PopConsensus) (p : Proposal) : PopConsensus × Bool :=
  if p.position ∈ s.txSetVoted then
    ({ s with txSetVoted := s.txSetVoted.add p.position p.publicKey }, true)
  else if s.isLeader env p.publicKey then
    if env.omitEmpty ∧ p.position = zeroHash then ({ s with leaderFailed := true }, false)
    else (s.followLeader p, true)
  else ({ s with txSetCached := s.txSetCached.add p.position p.publicKey }, true)

def fetchTxSet (s : PopConsensus) (p : Proposal) : PopConsensus :=
  match p.txSet with
  | some id => s.gotTxSet env id
  | none =>
    if s.result.isSome then s.checkVoting env
    else if env.acquireTxSet p.position then s.gotTxSet env p.position
    else s

def peerProposalInternal (s : PopConsensus) (p : Proposal) : PopConsensus × Bool :=
  if s.initialized = false then (s, false)
  else if s.phase = .accepted then (s.checkSaveNextProposal p, false)
  else if p.curLedgerSeq < s.curSeq then (s, false)
  else if p.curLedgerSeq > s.curSeq then (s.checkSaveNextProposal p, false)
  else if p.prevLedger ≠ s.prevLedgerID then (s.checkSaveNextProposal p, false)
  else if p.view ≠ s.view then (s.checkSaveNextProposal p, false)
  else match s.countProposal env p with
    | (s, false) => (s, true)
    | (s, true) => (s.fetchTxSet env p, true)

def peerProposal (s : PopConsensus) (p : Proposal) : PopConsensus :=
  if p.publicKey ∉ s.trusted ∨ p.publicKey = s.valPublic then s
  else ({ s with heard := p :: s.heard }.peerProposalInternal env p).1

/-! ## Rounds -/

def checkCache (s : PopConsensus) : PopConsensus :=
  match s.proposalCache.lookup s.curSeq with
  | none => s
  | some table =>
    let s := ((table.entries.insertionSort fun e f => e.1 ≤ f.1).map Sigma.snd).foldl
      (fun s p => (s.peerProposalInternal env p).1) s
    { s with proposalCache := s.proposalCache.eraseIf fun seq _ => decide (seq < s.curSeq) }

def clearVotes (s : PopConsensus) : PopConsensus :=
  { s with
    phase := .opened, result := none, acquired := ∅, txSetCached := ∅, txSetVoted := ∅, setID := none,
    leaderFailed := false, timeOutCount := 0 }

def startRoundInternal (s : PopConsensus) (prevLedgerID : HashValue) (prevLedger : LedgerRef)
    (mode : ConsensusMode) : PopConsensus :=
  let s := { s.clearVotes with
    mode := mode, prevLedgerID := prevLedgerID, prevLedgerSeq := prevLedger.seq,
    previousLedger := prevLedger, view := 0, toView := 0, views := [0], proposed := [] }
  if mode = .proposing then
    { s with viewChangeManager := s.viewChangeManager.onNewRound s.previousLedger }.checkCache env
  else s

def startRound (s : PopConsensus) (prevLedgerID : HashValue) (prevLedger : LedgerRef) (proposing : Bool) :
    PopConsensus :=
  let startMode : ConsensusMode := if proposing then .proposing else .observing
  if prevLedger.id ≠ prevLedgerID then
    match env.acquireLedger prevLedgerID with
    | some newLedger => s.startRoundInternal env prevLedgerID newLedger startMode
    | none => s.startRoundInternal env prevLedgerID prevLedger .wrongLedger
  else s.startRoundInternal env prevLedgerID prevLedger startMode

def leaveConsensus (s : PopConsensus) : PopConsensus :=
  if s.mode = .proposing then
    let s := match s.result with
      | none => s
      | some result =>
        if result.position.isBowOut then s
        else
          let position := { result.position with isBowOut := true }
          { s with result := some { result with position := position } }.propose position
    { s with mode := .observing }
  else s

/-- A round is started on the other ledger, unless that is the one the node holds already. -/
def handleWrongLedger (s : PopConsensus) (lgrId : HashValue) : PopConsensus :=
  match env.acquireLedger lgrId with
  | none => s
  | some newLedger =>
    if env.isCompatible newLedger = false then s
    else
      let s := { s.leaveConsensus with prevLedgerID := lgrId }
      if s.previousLedger.id = s.prevLedgerID then s
      else s.startRoundInternal env lgrId newLedger .switchedLedger

def checkLedger (s : PopConsensus) : PopConsensus :=
  let netLgr := env.getPrevLedger s.prevLedgerID s.previousLedger s.mode
  if netLgr ≠ s.prevLedgerID then
    if env.proposersValidated netLgr < env.quorum then s else s.handleWrongLedger env netLgr
  else if s.previousLedger.id ≠ s.prevLedgerID then s.handleWrongLedger env netLgr
  else s

/-! ## View changes -/

def onViewChange (s : PopConsensus) (toView : UInt64) : PopConsensus :=
  let s := { s.clearVotes with
    view := toView
    views := toView :: s.views
    viewChangeManager := s.viewChangeManager.onViewChanged toView s.prevLedgerSeq }
  let s :=
    if s.waitingConsensusReach then
      if s.mode ≠ .wrongLedger then { s with waitingConsensusReach := false } else s
    else { s with mode := env.mode }
  if s.mode = .proposing then s.checkCache env else s

def checkChangeView (s : PopConsensus) (toView : UInt64) : PopConsensus :=
  if s.phase = .accepted then s
  else if s.toView = toView then
    if s.viewChangeManager.haveConsensus toView s.view s.prevLedgerID env.quorum then s.onViewChange env toView
    else s
  else match s.viewChangeManager.shouldTriggerViewChange toView env.quorum with
    | none => s
    | some ledger =>
      if s.previousLedger.seq < ledger.seq then s.handleWrongLedger env ledger.id
      else if s.previousLedger.seq = ledger.seq then
        if s.previousLedger.id ≠ ledger.id then s.handleWrongLedger env ledger.id
        else s.onViewChange env toView
      else s

def peerViewChangeInternal (s : PopConsensus) (v : ViewChange) : PopConsensus :=
  let s := { s with viewChangeManager := s.viewChangeManager.recvViewChange v }
  if s.initialized = false then s else s.checkChangeView env v.toView

def peerViewChange (s : PopConsensus) (v : ViewChange) : PopConsensus :=
  if v.nodePublic ∉ s.trusted ∨ v.nodePublic = s.valPublic then s else s.peerViewChangeInternal env v

def launchViewChange (s : PopConsensus) : PopConsensus :=
  let s := { s with toView := s.view + 1 }
  s.peerViewChangeInternal env
    { prevSeq := s.previousLedger.seq, prevHash := s.prevLedgerID, toView := s.toView,
      nodePublic := s.valPublic }

def checkTimeout (s : PopConsensus) : PopConsensus :=
  if s.phase = .accepted then s
  else if env.timedOut = false then s
  else
    let s := if env.validating then s.launchViewChange env else s
    { s with timeOutCount := s.timeOutCount + 1 }

/-! ## The timer -/

def proposeCollected (s : PopConsensus) : PopConsensus :=
  let position : Proposal :=
    { position := env.collected, prevLedger := s.previousLedger.id, curLedgerSeq := s.curSeq, view := s.view,
      publicKey := s.valPublic, txSet := if env.proposeTxSetDetail then some env.collected else none }
  { s with
    result := some { txns := env.collected, position := position }
    setID := some env.collected
    acquired := insert env.collected s.acquired }.propose position

def phaseCollecting (s : PopConsensus) : PopConsensus :=
  if s.leaderFailed then s
  else if s.isLeader env s.valPublic ∧ s.result.isNone ∧ env.finalCondReached then
    let s := s.proposeCollected env
    if env.omitEmpty ∧ env.collected = zeroHash then { s with leaderFailed := true }
    else
      { s with
        txSetVoted := s.txSetVoted.insert env.collected {s.valPublic}
        phase := .establish }.checkVoting env
  else s

/-- Back to the validated ledger after many timeouts, or to the current one while the ledger named
during initialization is being acquired. -/
def rollback (s : PopConsensus) : PopConsensus :=
  let acquiringInit := s.initAcquireLedgerID ≠ zeroHash ∧ s.initAcquireLedgerID = s.prevLedgerID
    ∧ env.validatedLedger.all fun l => decide (s.prevLedgerSeq > l.seq)
  match if acquiringInit then some s.previousLedger else env.validatedLedger with
  | none => s
  | some oldLedger =>
    let s := s.startRoundInternal env oldLedger.id oldLedger .switchedLedger
    { s with viewChangeManager := s.viewChangeManager.clearCache }

def timerEntry (s : PopConsensus) : PopConsensus :=
  if s.phase = .accepted then s
  else if s.initialized = false then s
  else
    let s := s.checkLedger env
    let s := if s.timeOutCount > env.timeoutCountRollback then s.rollback env else s
    if s.mode = .wrongLedger then s
    else if env.validating = false then s
    else
      let s := if s.phase = .opened then s.phaseCollecting env else s
      s.checkTimeout env

/-! ## Other events -/

def peerInitAnnounce (s : PopConsensus) (prevSeq : UInt32) (prevHash : HashValue) : PopConsensus :=
  if s.initialized then s
  else if prevSeq > s.prevLedgerSeq ∧ s.mode ≠ .wrongLedger then
    { s with prevLedgerID := prevHash, prevLedgerSeq := prevSeq, initAcquireLedgerID := prevHash }
  else s

/-- Only votes for the current set are erased: the loop over `txSetCached_` works on copies. -/
def votesWithout (s : PopConsensus) (nowUntrusted : Finset PublicKey) : Votes :=
  match s.setID with
  | none => s.txSetVoted
  | some id =>
    match s.txSetVoted.lookup id with
    | none => s.txSetVoted
    | some keys => s.txSetVoted.insert id (keys \ nowUntrusted)

def onDeleteUntrusted (s : PopConsensus) (nowUntrusted : Finset PublicKey) : PopConsensus :=
  let s := { s with txSetVoted := s.votesWithout nowUntrusted }
  if s.result.isSome then s.checkVoting env else s

def idle (valPublic : PublicKey) (trusted : Finset PublicKey) : PopConsensus where
  valPublic := valPublic
  trusted := trusted

inductive Action where
  | startRound (prevLedgerID : HashValue) (prevLedger : LedgerRef) (proposing : Bool)
  | initElapsed
  | timerEntry
  | gotTxSet (id : HashValue)
  | peerProposal (p : Proposal)
  | peerViewChange (v : ViewChange)
  | peerInitAnnounce (prevSeq : UInt32) (prevHash : HashValue)
  -- `ValidatorList::updateTrusted`, of which the consensus is not told.
  | updateTrusted (trusted : Finset PublicKey)
  -- The keys `removed` lose trust. The consensus is told the node ids of their master keys, written as the
  -- keys they are computed from.
  | deleteUntrusted (removed nowUntrusted : Finset PublicKey)

structure Event where
  action : Action
  env : PopAdaptor

def step (s : PopConsensus) (e : Event) : PopConsensus :=
  match e.action with
  | .startRound prevLedgerID prevLedger proposing => s.startRound e.env prevLedgerID prevLedger proposing
  | .initElapsed => { s with initialized := true }
  | .timerEntry => s.timerEntry e.env
  | .gotTxSet id => s.gotTxSet e.env id
  | .peerProposal p => s.peerProposal e.env p
  | .peerViewChange v => s.peerViewChange e.env v
  | .peerInitAnnounce prevSeq prevHash => s.peerInitAnnounce prevSeq prevHash
  | .updateTrusted trusted => { s with trusted := trusted }
  | .deleteUntrusted removed nowUntrusted =>
    { s with trusted := s.trusted \ removed }.onDeleteUntrusted e.env nowUntrusted

end PopConsensus

end Chainsql.Pop
