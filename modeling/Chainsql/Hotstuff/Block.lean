import Chainsql.Hotstuff.QuorumCert

/-!
# Blocks and their execution

`Block.cpp`: block data, its digest and the ways a block comes into being (a signed proposal, a nil
block after a timeout, the genesis block). `HotstuffConsensus::compute` and `verify` give a block its
execution result and check the result against the certified parent.
-/

namespace Chainsql.Hotstuff

inductive BlockType where
  | proposal
  | nilBlock
  | genesis
deriving DecidableEq, Repr

def BlockType.toUInt32 : BlockType → UInt32
  | .proposal => 0
  | .nilBlock => 1
  | .genesis => 2

structure Payload where
  cmd : HashValue := zeroHash
  author : Author := noneAuthor
deriving DecidableEq, Repr, Inhabited

structure BlockData where
  epoch : Int := 0
  round : Int := 0
  timestampMsecs : Int := 0
  quorumCert : QuorumCertificate := {}
  blockType : BlockType := .nilBlock
  payload : Option Payload := none
deriving Inhabited

namespace BlockData

def author (d : BlockData) : Author :=
  match d.payload with
  | some payload => payload.author
  | none => noneAuthor

/-- The ledger a block proposes has no field of its own: it is stored in the commit information of
the certificate the block carries. -/
def getLedgerInfo (d : BlockData) : LedgerInfo := d.quorumCert.commitInfo.ledgerInfo

def setLedgerInfo (d : BlockData) (info : LedgerInfo) : BlockData :=
  { d with quorumCert := d.quorumCert.setCommitInfo { d.quorumCert.commitInfo with ledgerInfo := info } }

/-- Neither the certificate nor the author of the payload takes part in the digest. -/
def hashItems (d : BlockData) : List HashItem :=
  [.i64 d.epoch, .i64 d.round, .i64 d.timestampMsecs, .u32 d.blockType.toUInt32]
  ++ match d.blockType, d.payload with
    | .proposal, some payload => [.u256 payload.cmd, .u256 d.getLedgerInfo.hash]
    | _, _ => [.u256 d.getLedgerInfo.hash]

def hash (h : Hasher) (d : BlockData) : HashValue := h d.hashItems

end BlockData

structure Block where
  id : HashValue := zeroHash
  blockData : BlockData := {}
  signature : Option Signature := none
deriving Inhabited

namespace Block

def empty : Block := {}

def round (b : Block) : Int := b.blockData.round

def epoch (b : Block) : Int := b.blockData.epoch

def quorumCert (b : Block) : QuorumCertificate := b.blockData.quorumCert

def getLedgerInfo (b : Block) : LedgerInfo := b.blockData.getLedgerInfo

/-- Epoch and timestamp of a nil block keep the defaults of `BlockData`. -/
def nilBlock (h : Hasher) (round : Int) (hqc : QuorumCertificate) : Block :=
  let data : BlockData := { round := round, quorumCert := hqc, blockType := .nilBlock }
  let data := data.setLedgerInfo hqc.certifiedBlock.ledgerInfo
  { id := data.hash h, blockData := data }

def newFromBlockData (h : Hasher) (v : ValidatorVerifier) (data : BlockData) : Block :=
  { id := data.hash h, blockData := data, signature := some (v.signDigest (data.hash h)) }

def genesisBlockInfo (ledgerInfo : LedgerInfo) (epoch : Int) : BlockInfo :=
  { BlockInfo.ofId zeroHash with ledgerInfo := ledgerInfo, epoch := epoch }

def genesisQuorumCert (h : Hasher) (ledgerInfo : LedgerInfo) (epoch : Int) : QuorumCertificate :=
  let info := genesisBlockInfo ledgerInfo epoch
  let voteData : VoteData := { proposed := info, parent := info, tc := 0 }
  { voteData := voteData
    signedLedgerInfo := { ledgerInfo := { commitInfo := info, consensusDataHash := voteData.hash h } } }

def newGenesisBlock (h : Hasher) (ledgerInfo : LedgerInfo) (epoch : Int) : Block :=
  let info := genesisBlockInfo ledgerInfo epoch
  let data : BlockData :=
    { epoch := info.epoch, round := info.round, timestampMsecs := info.timestampMsecs,
      quorumCert := genesisQuorumCert h ledgerInfo epoch, blockType := .genesis }
  { id := data.hash h, blockData := data }

def genBlockInfo (b : Block) (ledgerInfo : LedgerInfo) (nextEpochState : Option EpochState) :
    BlockInfo :=
  { BlockInfo.ofId b.id with
    epoch := b.blockData.epoch
    round := b.blockData.round
    ledgerInfo := ledgerInfo
    timestampMsecs := b.blockData.timestampMsecs
    nextEpochState := nextEpochState }

end Block

structure StateComputeResult where
  ledgerInfo : LedgerInfo := {}
  parentLedgerInfo : LedgerInfo := {}
  epochState : Option EpochState := none
deriving Inhabited

structure ExecutedBlock where
  block : Block := Block.empty
  stateComputeResult : StateComputeResult := {}
deriving Inhabited

structure Application where
  wrongLedger : Bool := false
  waitingForInit : Bool := false
  omitEmpty : Bool := true
  epochChangeHash : HashValue
  previousLedger : LedgerInfo
  acquired : HashValue → Bool
  -- `adaptor_.buildLCL` on top of `previousLedger_`: transaction set, close time, resolution.
  buildLCL : HashValue → UInt32 → UInt32 → LedgerInfo

namespace Application

variable (app : Application)

def compute (block : Block) : Option StateComputeResult :=
  let info := block.getLedgerInfo
  let parent := block.quorumCert.certifiedBlock.ledgerInfo
  if app.wrongLedger then none
  else if block.blockData.blockType = .genesis then some {}
  else if app.waitingForInit then none
  else if block.blockData.blockType = .nilBlock then
    some { ledgerInfo := info, parentLedgerInfo := parent }
  else match block.blockData.payload with
    | none => none
    | some payload =>
      if payload.cmd = app.epochChangeHash then
        if info.hash ≠ app.previousLedger.hash then none
        else some
          { ledgerInfo := app.previousLedger, parentLedgerInfo := parent,
            epochState := some { epoch := block.blockData.epoch } }
      else if app.omitEmpty ∧ payload.cmd = zeroHash then
        if info.hash ≠ app.previousLedger.hash then none
        else some { ledgerInfo := app.previousLedger, parentLedgerInfo := parent }
      else if app.acquired payload.cmd = false then none
      else some
        { ledgerInfo := app.buildLCL payload.cmd info.closeTime info.closeTimeResolution,
          parentLedgerInfo := parent }

def sameLedger (result : StateComputeResult) : Bool :=
  result.ledgerInfo.seq == result.parentLedgerInfo.seq
    && result.ledgerInfo.hash == result.parentLedgerInfo.hash

def verify (block : Block) (result : StateComputeResult) : Bool :=
  if block.id = zeroHash then false
  else if result.parentLedgerInfo.hash ≠ block.quorumCert.certifiedBlock.ledgerInfo.hash then false
  else match block.blockData.blockType with
    | .proposal =>
      match block.blockData.payload with
      | none => false
      | some payload =>
        if (app.omitEmpty ∧ payload.cmd = zeroHash) ∨ payload.cmd = app.epochChangeHash then
          sameLedger result
        else
          result.ledgerInfo.seq == result.parentLedgerInfo.seq + 1
            && result.ledgerInfo.parentHash == result.parentLedgerInfo.hash
    | .nilBlock => sameLedger result
    | .genesis => false

def execute (block : Block) : ExecutedBlock :=
  { block := block, stateComputeResult := (app.compute block).getD {} }

def idle (ledger : LedgerInfo) : Application where
  epochChangeHash := 1
  previousLedger := ledger
  acquired := fun _ => false
  buildLCL := fun _ _ _ => ledger

end Application

def ValidatorVerifier.verifyBlockSignature (h : Hasher) (v : ValidatorVerifier) (author : Author)
    (signature : Signature) (block : Block) : Bool :=
  if block.getLedgerInfo.calculateLedgerHash h ≠ block.getLedgerInfo.hash then false
  else if block.blockData.hash h ≠ block.id then false
  else v.verifyDigest author block.id signature

end Chainsql.Hotstuff
