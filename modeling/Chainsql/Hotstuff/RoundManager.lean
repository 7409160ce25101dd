import Chainsql.Hotstuff.PendingVotes

/-!
# The round manager

One validator as a state machine: `RoundManager` with the parts it drives (safety data, block store,
round state, proposal generator) and the paths of `HotstuffConsensus` that feed it. A handler is a
function from the replica to the replica; what it sends is appended to `sent`.

The configuration modelled is the default one, with nil blocks enabled. Epoch changes, which start a
new incarnation of the protocol, are left out.
-/

namespace Chainsql.Hotstuff

structure Node where
  hasher : Hasher
  epoch : Int
  initLedgerInfo : LedgerInfo
  validators : List Author
  verifier : ValidatorVerifier

/-- What a handler reads from outside the protocol while it runs: the application, the clock and the
transaction pool. -/
structure Environment where
  app : Application
  syncState : BlockInfo → Bool
  canExtract : Bool
  extract : BlockData → Option (HashValue × LedgerInfo)
  now : Int

inductive Message where
  | proposal (block : Block) (sync : SyncInfo)
  -- `dest` is the next leader, or `none` for a vote that is broadcast.
  | vote (dest : Option Author) (vote : Vote) (sync : SyncInfo)
  | blockData (executed : ExecutedBlock)

inductive Handler where
  | proposal (block : Block) (sync : SyncInfo)
  | vote (vote : Vote) (sync : SyncInfo)

structure Replica where
  started : Bool := false
  validating : Bool := false
  safety : SafetyData := {}
  storage : BlockStorage := {}
  roundState : RoundState := {}
  lastRoundGenerated : Int := 0
  roundTimer : Option Int := none
  proposalTimers : List Int := []
  acquiring : AList (fun _ : HashValue => List Handler) := ∅
  -- Proposals in the job queue, each to be handed to `ProcessProposal` at some later time.
  jobs : List Block := []
  /-- `curProposalCache_` and `nextProposalCache_`: proposals of other nodes, which the arrival of a
  transaction set or of a ledger puts into the job queue, possibly again. -/
  proposalCache : List Block := []
  sent : List Message := []
  -- The blocks for which a vote was newly signed.
  voted : List Block := []
deriving Inhabited

def ValidatorVerifier.verifyVoteSignature (h : Hasher) (v : ValidatorVerifier) (vote : Vote) : Bool :=
  if vote.voteData.hash h ≠ vote.ledgerInfo.consensusDataHash then false
  else v.verifyDigest vote.author vote.ledgerInfo.consensusDataHash vote.signature

namespace Node

variable (node : Node)

def genesisBlock : Block := Block.newGenesisBlock node.hasher node.initLedgerInfo node.epoch

def core (env : Environment) : HotstuffCore where
  hasher := node.hasher
  epoch := node.epoch
  verifier := node.verifier
  verify := env.app.verify

-- The round is truncated to the 32 bits of a ledger index.
def getValidProposer (round : Int) : Author := getLeaderPubKey node.validators (UInt32.ofInt round)

def isValidProposer (author : Author) (round : Int) : Bool := node.getValidProposer round == author

def isValidProposal (block : Block) : Bool :=
  match block.blockData.blockType with
  | .proposal => node.isValidProposer block.blockData.author (block.round + block.quorumCert.voteData.tc)
  | _ => false

def collectsVote (vote : Vote) : Bool :=
  node.isValidProposer node.verifier.self (vote.round + 1 + vote.voteData.tc)

end Node

namespace Replica

variable (node : Node) (env : Environment)

def send (r : Replica) (m : Message) : Replica := { r with sent := r.sent ++ [m] }

def syncInfo (r : Replica) : SyncInfo := r.storage.syncInfo

/-! ## Proposals of its own -/

def ensureHighestQuorumCert (r : Replica) (round : Int) : Option QuorumCertificate :=
  let hqc := r.storage.highestQuorumCert
  if hqc.certifiedBlock.round ≥ round then none
  else if hqc.endsEpoch then none
  else some hqc

def generateNilBlock (r : Replica) (round : Int) : Option Block :=
  (r.ensureHighestQuorumCert round).map (Block.nilBlock node.hasher round)

def proposal (r : Replica) (round : Int) : Option BlockData :=
  match r.ensureHighestQuorumCert round with
  | none => none
  | some hqc =>
    let data : BlockData :=
      { blockType := .proposal, round := round, epoch := hqc.certifiedBlock.epoch, quorumCert := hqc,
        timestampMsecs := env.now }
    if hqc.certifiedBlock.hasReconfiguration then
      some { data with
        timestampMsecs := hqc.certifiedBlock.timestampMsecs
        payload := some { cmd := zeroHash, author := node.verifier.self } }
    else match env.extract data with
      | none => none
      | some (cmd, ledgerInfo) =>
        some { data.setLedgerInfo ledgerInfo with
          payload := some { cmd := cmd, author := node.verifier.self } }

def generateProposal (r : Replica) (round : Int) : Replica × Option Block :=
  let fresh := r.lastRoundGenerated < round
  let r := { r with lastRoundGenerated := round }
  if fresh then
    (r, (r.proposal node env round).map ((node.core env).signProposal r.safety))
  else (r, none)

def broadcastProposal (r : Replica) (block : Block) : Replica :=
  { r.send (.proposal block r.syncInfo) with jobs := block :: r.jobs }

def generateThenBroadcastProposal (r : Replica) (round : Int) : Replica :=
  if env.canExtract then
    match r.generateProposal node env round with
    | (r, some block) => r.broadcastProposal block
    | (r, none) => r
  else { r with proposalTimers := round :: r.proposalTimers }

/-! ## Rounds and certificates -/

def processNewRoundEvent (r : Replica) (round : Int) : Replica :=
  let r := { r with roundTimer := some round }
  let hqc := r.storage.highestQuorumCert
  if env.syncState hqc.certifiedBlock = false then r
  else if node.isValidProposer node.verifier.self (round + hqc.voteData.tc) = false then r
  else r.generateThenBroadcastProposal node env round

def processCertificates (r : Replica) : Replica :=
  match r.roundState.processCertificates r.syncInfo with
  | none => r
  | some roundState => { r with roundState := roundState }.processNewRoundEvent node env roundState.currentRound

def start (r : Replica) (validating : Bool) : Replica :=
  if r.started then r
  else
    { r with
      started := true
      validating := validating
      storage := BlockStorage.updateCertificates {} env.app node.genesisBlock
      safety := .initializeAt node.epoch 0
      roundState := {}
      lastRoundGenerated := 0 }.processCertificates node env

def syncUp (r : Replica) (sync : SyncInfo) : Replica × Bool :=
  if sync.hasNewerCertificate r.syncInfo then
    if sync.verify node.hasher node.verifier = false then (r, false)
    else ({ r with storage := r.storage.addCerts sync }.processCertificates node env, true)
  else (r, true)

def ensureRoundAndSyncUp (r : Replica) (round : Int) (sync : SyncInfo) : Replica × Bool :=
  if round < r.roundState.currentRound then (r, false)
  else match r.syncUp node env sync with
    | (r, false) => (r, false)
    | (r, true) => (r, decide (round = r.roundState.currentRound))

def preCheck (r : Replica) (round : Int) (sync : SyncInfo) : Bool :=
  if round < r.roundState.currentRound then false
  else if sync.hasNewerCertificate r.syncInfo then sync.verify node.hasher node.verifier
  else true

def asyncExpectBlock (r : Replica) (id : HashValue) (handler : Handler) : Replica :=
  { r with acquiring := r.acquiring.insert id ((r.acquiring.lookup id).getD [] ++ [handler]) }

def lacksCertifiedBlock (r : Replica) (sync : SyncInfo) : Bool :=
  let id := sync.highestQuorumCert.certifiedBlock.id
  id != zeroHash && !r.storage.existsBlock id

/-! ## Voting -/

def executeAndVote (r : Replica) (block : Block) : Replica × Option Vote :=
  let (storage, executed) := r.storage.executeAndAddBlock env.app block
  let r := { r with storage := storage }
  if r.validating = false then (r, none)
  else
    let (safety, result) := (node.core env).constructAndSignVote r.safety executed
    let voted := match result with
      | .signed _ => executed.block :: r.voted
      | _ => r.voted
    ({ r with safety := safety, voted := voted }, result.vote?)

def recordAndSend (r : Replica) (dest : Option Author) (vote : Vote) : Replica :=
  let r := { r with roundState := r.roundState.recordVote vote }
  r.send (.vote dest vote r.syncInfo)

def processProposal (r : Replica) (block : Block) : Replica :=
  if node.isValidProposal block = false then r
  else if block.blockData.timestampMsecs ≤ block.quorumCert.certifiedBlock.timestampMsecs then r
  else match r.executeAndVote node env block with
    | (r, none) => r
    | (r, some vote) =>
      let nextLeader := node.getValidProposer (block.round + 1 + block.quorumCert.voteData.tc)
      r.recordAndSend (some nextLeader) vote

def voteForNilBlock (r : Replica) (round : Int) : Replica × Option Vote :=
  match r.generateNilBlock node round with
  | none => (r, none)
  | some block => r.executeAndVote node env block

/-- The vote a timeout starts from: the vote already sent, with the timeout count raised, or a vote
for a nil block. -/
def timeoutVote (r : Replica) (round : Int) : Replica × Option Vote :=
  let tc := r.storage.highestQuorumCert.voteData.tc + 1
  match r.roundState.sendVote with
  | none => r.voteForNilBlock node env round
  | some vote =>
    if vote.parentRound > 0 then
      (r, some (if vote.voteData.tc ≠ tc then (node.core env).resetVoteTimeoutCount vote tc else vote))
    else r.voteForNilBlock node env round

def addTimeoutSignature (vote : Vote) : Vote :=
  if vote.isTimeout then vote
  else vote.addTimeoutSignature (node.verifier.signDigest (vote.timeout.hash node.hasher))

def processLocalTimeout (r : Replica) : Replica :=
  match r.roundTimer with
  | none => r
  | some round =>
    if round ≠ r.roundState.currentRound then r
    else match r.timeoutVote node env round with
      | (r, none) => r
      | (r, some vote) => r.recordAndSend none (addTimeoutSignature node vote)

/-! ## Messages -/

def newQCAggregated (r : Replica) (qc : QuorumCertificate) : Replica :=
  match r.storage.insertQuorumCert qc with
  | (storage, 0) => { r with storage := storage }.processCertificates node env
  | (storage, _) => { r with storage := storage }

def processVote (r : Replica) (vote : Vote) : Replica :=
  if vote.isTimeout = false ∧ node.collectsVote vote = false then r
  else match r.roundState.insertVote node.verifier vote with
    | (roundState, .newQuorumCertificate qc) => { r with roundState := roundState }.newQCAggregated node env qc
    | (roundState, _) => { r with roundState := roundState }

def handleCacheVotes (r : Replica) (id : HashValue) : Replica :=
  let (pending, votes) := r.roundState.pendingVotes.getAndRemoveCachedVotes id
  votes.foldl (processVote node env) { r with roundState := { r.roundState with pendingVotes := pending } }

def preProcessVote (r : Replica) (vote : Vote) (sync : SyncInfo) : Replica :=
  match r.ensureRoundAndSyncUp node env vote.round sync with
  | (r, false) => r
  | (r, true) =>
    if node.verifier.verifyVoteSignature node.hasher vote = false then r
    else if r.storage.existsBlock vote.voteData.proposed.id = false then
      { r with roundState := r.roundState.cacheVote vote }
    else (r.handleCacheVotes node env vote.voteData.proposed.id).processVote node env vote

def preProcessProposal (r : Replica) (block : Block) (sync : SyncInfo) : Replica × Bool :=
  match r.ensureRoundAndSyncUp node env block.round sync with
  | (r, false) => (r, false)
  | (r, true) =>
    match block.signature with
    | none => (r, true)
    | some signature =>
      (r, node.verifier.verifyBlockSignature node.hasher block.blockData.author signature block)

def checkProposal (r : Replica) (block : Block) (sync : SyncInfo) : Replica × Bool :=
  if r.started = false then (r, false)
  else if r.lacksCertifiedBlock sync then
    if r.preCheck node block.round sync = false then (r, false)
    else (r.asyncExpectBlock sync.highestQuorumCert.certifiedBlock.id (.proposal block sync), false)
  else r.preProcessProposal node env block sync

def queueProposal (r : Replica) (block : Block) : Replica :=
  { r with jobs := block :: r.jobs, proposalCache := block :: r.proposalCache }

/-- A proposal that waits for a block is cached too, and leaves the cache without a further check. -/
def peerProposal (r : Replica) (block : Block) (sync : SyncInfo) : Replica :=
  match r.checkProposal node env block sync with
  | (r, true) => r.queueProposal block
  | (r, false) =>
    if sync.highestQuorumCert.certifiedBlock.id ∈ r.acquiring then
      { r with proposalCache := block :: r.proposalCache }
    else r

def peerVote (r : Replica) (vote : Vote) (sync : SyncInfo) : Replica :=
  if r.started = false then r
  else if r.lacksCertifiedBlock sync then
    if r.preCheck node vote.round sync = false then r
    else r.asyncExpectBlock sync.highestQuorumCert.certifiedBlock.id (.vote vote sync)
  else r.preProcessVote node env vote sync

def runHandler (executed : ExecutedBlock) (r : Replica) (handler : Handler) : Replica :=
  let r := { r with storage := r.storage.addExecutedBlock executed }
  match handler with
  | .proposal block sync =>
    match r.preProcessProposal node env block sync with
    | (r, true) => r.queueProposal block
    | (r, false) => r
  | .vote vote sync => r.preProcessVote node env vote sync

def peerBlockData (r : Replica) (executed : ExecutedBlock) : Replica :=
  if env.app.verify executed.block executed.stateComputeResult = false then r
  else match r.acquiring.lookup executed.block.id with
    | none => r
    | some handlers =>
      let r := handlers.foldl (runHandler node env executed) r
      { r with acquiring := r.acquiring.erase executed.block.id }

def peerAcquireBlock (r : Replica) (id : HashValue) : Replica :=
  match r.storage.blockOf id with
  | some executed => r.send (.blockData executed)
  | none => r

/-- Messages whose signer is not the author of their content are dropped. -/
def receive (r : Replica) (sender : Author) : Message → Replica
  | .proposal block sync => if sender ≠ block.blockData.author then r else r.peerProposal node env block sync
  | .vote dest vote sync =>
    if sender ≠ vote.author ∨ dest.any (· != node.verifier.self) then r else r.peerVote node env vote sync
  | .blockData executed => r.peerBlockData node env executed

def runJob (r : Replica) (k : Nat) : Replica :=
  match r.jobs[k]? with
  | none => r
  | some block => { r with jobs := r.jobs.eraseIdx k }.processProposal node env block

def requeueProposal (r : Replica) (k : Nat) : Replica :=
  match r.proposalCache[k]? with
  | none => r
  | some block => { r with jobs := block :: r.jobs }

def proposalTimer (r : Replica) (round : Int) : Replica :=
  if round ∈ r.proposalTimers then
    { r with proposalTimers := r.proposalTimers.erase round }.generateThenBroadcastProposal node env round
  else r

end Replica

end Chainsql.Hotstuff
