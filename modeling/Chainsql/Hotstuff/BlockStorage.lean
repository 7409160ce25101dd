import Chainsql.Hotstuff.Block

/-!
# The block store

`BlockStorage`: the cache of executed blocks, the highest certificates and the commit decision; and
`SyncInfo`, the summary of the highest certificates that accompanies every message.

`StateCompute::commit` hands a block to the application; the store of the model records these calls
in `committed`, newest first.
-/

namespace Chainsql.Hotstuff

structure SyncInfo where
  highestQuorumCert : QuorumCertificate := {}
  highestCommitCert? : Option QuorumCertificate := none
  highestTimeoutCert? : Option TimeoutCertificate := none
deriving Inhabited

namespace SyncInfo

/-- The constructor. The commit certificate is kept only when it certifies the round of the highest
certificate, the timeout certificate only when it is above that round. -/
def new (highestQuorumCert highestCommitCert : QuorumCertificate)
    (highestTimeoutCert : Option TimeoutCertificate) : SyncInfo where
  highestQuorumCert := highestQuorumCert
  highestCommitCert? :=
    if highestQuorumCert.certifiedBlock.round ≠ highestCommitCert.certifiedBlock.round then none
    else some highestCommitCert
  highestTimeoutCert? :=
    highestTimeoutCert.filter fun tc => tc.timeout.round > highestQuorumCert.certifiedBlock.round

def highestRound (sync : SyncInfo) : Int :=
  match sync.highestTimeoutCert? with
  | some tc => max sync.highestQuorumCert.certifiedBlock.round tc.timeout.round
  | none => sync.highestQuorumCert.certifiedBlock.round

def highestCommitCert (sync : SyncInfo) : QuorumCertificate :=
  sync.highestCommitCert?.getD sync.highestQuorumCert

def highestTimeoutCert (sync : SyncInfo) : TimeoutCertificate := sync.highestTimeoutCert?.getD {}

def hasNewerCertificate (sync other : SyncInfo) : Bool :=
  decide (sync.highestQuorumCert.certifiedBlock.round > other.highestQuorumCert.certifiedBlock.round)
    || decide (sync.highestCommitCert.commitInfo.round > other.highestCommitCert.commitInfo.round)
    || decide (sync.highestTimeoutCert.timeout.round > other.highestTimeoutCert.timeout.round)

/-- The commit certificate is not verified. -/
def verify (h : Hasher) (v : ValidatorVerifier) (sync : SyncInfo) : Bool :=
  let epoch := sync.highestQuorumCert.certifiedBlock.epoch
  if epoch ≠ sync.highestCommitCert.certifiedBlock.epoch then false
  else if sync.highestTimeoutCert?.any (fun tc => epoch != tc.timeout.epoch) then false
  else if sync.highestQuorumCert.certifiedBlock.round < sync.highestCommitCert.certifiedBlock.round then
    false
  else if sync.highestQuorumCert.verify h v = false then false
  else if sync.highestTimeoutCert?.any (fun tc => !tc.verify h v) then false
  else true

end SyncInfo

abbrev BlockCache := AList (fun _ : HashValue => ExecutedBlock)

structure BlockStorage where
  genesisBlockId : HashValue := zeroHash
  cacheBlocks : BlockCache := ∅
  highestQuorumCert : QuorumCertificate := {}
  highestCommitCert : QuorumCertificate := {}
  highestTimeoutCert : Option TimeoutCertificate := none
  committedRound : Int := 0
  -- The blocks handed to `StateCompute::commit`, newest first.
  committed : List ExecutedBlock := []
deriving Inhabited

namespace BlockStorage

def blockOf (s : BlockStorage) (hash : HashValue) : Option ExecutedBlock := s.cacheBlocks.lookup hash

def existsBlock (s : BlockStorage) (hash : HashValue) : Bool := (s.blockOf hash).isSome

def syncInfo (s : BlockStorage) : SyncInfo :=
  .new s.highestQuorumCert s.highestCommitCert s.highestTimeoutCert

def addExecutedBlock (s : BlockStorage) (executed : ExecutedBlock) : BlockStorage :=
  { s with cacheBlocks := s.cacheBlocks.emplace executed.block.id executed }

def executeAndAddBlock (s : BlockStorage) (app : Application) (block : Block) :
    BlockStorage × ExecutedBlock :=
  match s.blockOf block.id with
  | some executed => (s, executed)
  | none =>
    match app.compute block with
    | some result =>
      let executed : ExecutedBlock := { block := block, stateComputeResult := result }
      (s.addExecutedBlock executed, executed)
    | none => (s, {})

def updateCertificates (s : BlockStorage) (app : Application) (block : Block) : BlockStorage :=
  let s : BlockStorage :=
    { s with
      cacheBlocks := ∅
      committedRound := block.round
      genesisBlockId := block.id
      highestQuorumCert := block.quorumCert
      highestCommitCert := block.quorumCert }
  (s.executeAndAddBlock app block).1

/-- The highest certificate is replaced when the round of the stored block is higher; what is stored
is the certificate with the round it claims. -/
def updateQuorumCert (s : BlockStorage) (round : Int) (qc : QuorumCertificate) : BlockStorage :=
  let s :=
    if round > s.highestQuorumCert.certifiedBlock.round then { s with highestQuorumCert := qc } else s
  if s.highestCommitCert.commitInfo.round < qc.commitInfo.round then { s with highestCommitCert := qc }
  else s

def commitTarget (s : BlockStorage) (commitInfo : BlockInfo) : HashValue :=
  -- The genesis block info carries the zero id.
  if commitInfo.id = zeroHash ∧ commitInfo.empty = false then s.genesisBlockId else commitInfo.id

def commit (s : BlockStorage) (ledgerInfo : LedgerInfoWithSignatures) : BlockStorage :=
  let hash := s.commitTarget ledgerInfo.ledgerInfo.commitInfo
  if hash = zeroHash then s
  else match s.blockOf hash with
    | some executed =>
      { s with committed := executed :: s.committed, committedRound := executed.block.round }
    | none => s

def isOfRound (epoch round : Int) (executed : ExecutedBlock) : Bool :=
  executed.block.epoch == epoch && executed.block.round == round

/-- Blocks of older epochs are removed; then, for each of the fifty rounds that end ten rounds before
the committed one, the first cached block of that round. -/
def gcBlocks (cache : BlockCache) (epoch round : Int) : BlockCache :=
  let cache := cache.eraseIf fun _ executed => decide (executed.block.epoch < epoch)
  let endRound := round - 10
  let beginRound := round - 10 - 50
  if endRound ≤ 0 then cache
  else if beginRound < 0 then cache
  else (List.range 50).foldl
    (fun cache (i : Nat) => cache.eraseFirst fun _ executed => isOfRound epoch (beginRound + i) executed)
    cache

/-- The epoch change that is broadcast here when the certificate ends the epoch is left out: it
starts a new incarnation of the protocol and does not touch the store. -/
def preCommit (s : BlockStorage) (qc : QuorumCertificate) : BlockStorage :=
  if s.committedRound < qc.commitInfo.round then
    let s := s.commit qc.signedLedgerInfo
    { s with cacheBlocks := gcBlocks s.cacheBlocks qc.commitInfo.epoch qc.commitInfo.round }
  else s

def insertQuorumCert (s : BlockStorage) (qc : QuorumCertificate) : BlockStorage × Nat :=
  match s.blockOf qc.certifiedBlock.id with
  | some executed => ((s.updateQuorumCert executed.block.round qc).preCommit qc, 0)
  | none => (s, 1)

def addCerts (s : BlockStorage) (sync : SyncInfo) : BlockStorage :=
  let s := (s.insertQuorumCert sync.highestCommitCert).1
  (s.insertQuorumCert sync.highestQuorumCert).1

end BlockStorage

end Chainsql.Hotstuff
