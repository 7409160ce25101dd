import Chainsql.Lib.Assoc
import Chainsql.LedgerInfo
import Chainsql.ValidatorList

/-!
# Certificates

The data a HotStuff certificate is made of (`BlockInfo`, `VoteData`, `LedgerInfoWithSignatures`,
`QuorumCertificate`, `TimeoutCertificate`), the validator's view of keys and signatures, and the
checks `QuorumCertificate::Verify` and `TimeoutCertificate::Verify`.

Rounds, epochs and timestamps are `int64_t` in the source and integers here.
-/

namespace Chainsql.Hotstuff

abbrev Author := PublicKey

abbrev Signature := Nat

abbrev noneAuthor : Author := 0

abbrev Signatures := AList (fun _ : Author => Signature)

structure EpochState where
  epoch : Int := 0
deriving DecidableEq, Repr, Inhabited

structure BlockInfo where
  epoch : Int := 0
  round : Int := 0
  id : HashValue := zeroHash
  ledgerInfo : LedgerInfo := {}
  version : Int := 0
  timestampMsecs : Int := 0
  nextEpochState : Option EpochState := none
deriving DecidableEq, Repr, Inhabited

namespace BlockInfo

def ofId (id : HashValue) : BlockInfo := { id := id }

def empty (b : BlockInfo) : Bool :=
  b.id == zeroHash && b.ledgerInfo.txHash == zeroHash && b.ledgerInfo.hash == zeroHash
    && b.ledgerInfo.accountHash == zeroHash && b.ledgerInfo.parentHash == zeroHash
    && b.ledgerInfo.seq == 0

def hasReconfiguration (b : BlockInfo) : Bool := b.nextEpochState.isSome

end BlockInfo

structure VoteData where
  proposed : BlockInfo := {}
  parent : BlockInfo := {}
  tc : Nat := 0
deriving DecidableEq, Repr, Inhabited

namespace VoteData

def epochItems (b : BlockInfo) : List HashItem :=
  match b.nextEpochState with
  | some state => [.i64 state.epoch]
  | none => []

def hashItems (v : VoteData) : List HashItem :=
  [.u256 v.proposed.id, .u256 v.parent.id, .u256 v.proposed.ledgerInfo.hash,
    .u256 v.parent.ledgerInfo.hash, .u64 (UInt64.ofNat v.tc)]
  ++ epochItems v.proposed ++ epochItems v.parent

def hash (h : Hasher) (v : VoteData) : HashValue := h v.hashItems

def verify (v : VoteData) : Bool :=
  if v.parent.epoch ≠ v.proposed.epoch then false
  else if v.parent.round ≥ v.proposed.round then false
  else if v.parent.timestampMsecs > v.proposed.timestampMsecs then false
  else if v.parent.version > v.proposed.version then false
  else true

theorem verify_iff {v : VoteData} :
    v.verify = true ↔ v.parent.epoch = v.proposed.epoch ∧ v.parent.round < v.proposed.round
      ∧ v.parent.timestampMsecs ≤ v.proposed.timestampMsecs ∧ v.parent.version ≤ v.proposed.version := by
  simp only [verify]
  grind

end VoteData

/-- `LedgerInfoWithSignatures::LedgerInfo`: the commit decision and the digest that is signed. -/
structure CommitLedger where
  commitInfo : BlockInfo := {}
  consensusDataHash : HashValue := zeroHash
deriving DecidableEq, Repr, Inhabited

structure LedgerInfoWithSignatures where
  ledgerInfo : CommitLedger := {}
  signatures : Signatures := ∅
deriving Inhabited

def LedgerInfoWithSignatures.addSignature (l : LedgerInfoWithSignatures) (author : Author)
    (signature : Signature) : LedgerInfoWithSignatures :=
  { l with signatures := l.signatures.insert author signature }

structure QuorumCertificate where
  voteData : VoteData := {}
  signedLedgerInfo : LedgerInfoWithSignatures := {}
deriving Inhabited

namespace QuorumCertificate

def certifiedBlock (qc : QuorumCertificate) : BlockInfo := qc.voteData.proposed

def parentBlock (qc : QuorumCertificate) : BlockInfo := qc.voteData.parent

def commitInfo (qc : QuorumCertificate) : BlockInfo := qc.signedLedgerInfo.ledgerInfo.commitInfo

def consensusDataHash (qc : QuorumCertificate) : HashValue :=
  qc.signedLedgerInfo.ledgerInfo.consensusDataHash

def signatures (qc : QuorumCertificate) : Signatures := qc.signedLedgerInfo.signatures

def endsEpoch (qc : QuorumCertificate) : Bool := qc.commitInfo.hasReconfiguration

def setCommitInfo (qc : QuorumCertificate) (info : BlockInfo) : QuorumCertificate :=
  { qc with signedLedgerInfo :=
    { qc.signedLedgerInfo with ledgerInfo :=
      { qc.signedLedgerInfo.ledgerInfo with commitInfo := info } } }

end QuorumCertificate

structure Timeout where
  epoch : Int := 0
  round : Int := 0
deriving DecidableEq, Repr, Inhabited

def Timeout.hash (h : Hasher) (t : Timeout) : HashValue := h [.i64 t.epoch, .i64 t.round]

structure TimeoutCertificate where
  timeout : Timeout := {}
  signatures : Signatures := ∅
deriving Inhabited

/-- The validator's keys and its trust decisions: `ValidatorVerifier` as `HotstuffConsensus`
implements it on top of `ValidatorList` and the manifest cache. -/
structure ValidatorVerifier where
  self : Author
  getMasterKey : Author → Author
  trustedMasterKeys : Finset Author
  quorum : Nat
  signDigest : HashValue → Signature
  verifyDigest : Author → HashValue → Signature → Bool

namespace ValidatorVerifier

variable (v : ValidatorVerifier)

def trusted (author : Author) : Bool := decide (v.getMasterKey author ∈ v.trustedMasterKeys)

def verifySignature (author : Author) (signature : Signature) (digest : HashValue) : Bool :=
  if v.trusted author then v.verifyDigest author digest signature else false

/-- The commit decision is an argument of the source function, which does not read it. -/
def verifyLedgerInfo (_commitInfo : BlockInfo) (consensusDataHash : HashValue)
    (signatures : Signatures) : Bool :=
  signatures.entries.all
      (fun e => v.trusted e.1 && v.verifyDigest e.1 consensusDataHash e.2)
    && decide (¬ signatures.size < v.quorum)

def checkVotingPower (signatures : Signatures) : Bool := decide (signatures.size ≥ v.quorum)

end ValidatorVerifier

/-- A computable validator whose signatures nobody else can produce: a signature is the pair of the
signing key and the digest. -/
def codeVerifier (validators : Finset Author) (quorum : Nat) (self : Author) : ValidatorVerifier where
  self := self
  getMasterKey := id
  trustedMasterKeys := validators
  quorum := quorum
  signDigest := Nat.pair self
  verifyDigest := fun author digest signature => signature == Nat.pair author digest

theorem codeVerifier_verifyDigest (validators : Finset Author) (quorum : Nat) (self other : Author)
    (digest : HashValue) : (codeVerifier validators quorum other).verifyDigest self digest
      ((codeVerifier validators quorum self).signDigest digest) = true :=
  beq_self_eq_true _

def LedgerInfoWithSignatures.verify (l : LedgerInfoWithSignatures) (v : ValidatorVerifier) : Bool :=
  v.verifyLedgerInfo l.ledgerInfo.commitInfo l.ledgerInfo.consensusDataHash l.signatures

def QuorumCertificate.verify (h : Hasher) (v : ValidatorVerifier) (qc : QuorumCertificate) : Bool :=
  if qc.consensusDataHash ≠ qc.voteData.hash h then false
  -- The genesis certificate is agreed upon implicitly and carries no signatures.
  else if qc.certifiedBlock.round = 0 then
    if qc.parentBlock.id ≠ qc.certifiedBlock.id then false
    else if qc.certifiedBlock.id ≠ qc.commitInfo.id then false
    else if qc.signatures.size ≠ 0 then false
    else true
  else if qc.signedLedgerInfo.verify v = false then false
  else if qc.voteData.verify = false then false
  else true

theorem QuorumCertificate.verify_iff {h : Hasher} {v : ValidatorVerifier} {qc : QuorumCertificate} :
    qc.verify h v = true ↔ qc.consensusDataHash = qc.voteData.hash h
      ∧ (qc.certifiedBlock.round = 0 → qc.parentBlock.id = qc.certifiedBlock.id
        ∧ qc.certifiedBlock.id = qc.commitInfo.id ∧ qc.signatures.size = 0)
      ∧ (qc.certifiedBlock.round ≠ 0 →
        qc.signedLedgerInfo.verify v = true ∧ qc.voteData.verify = true) := by
  unfold QuorumCertificate.verify
  by_cases hhash : qc.consensusDataHash = qc.voteData.hash h
  · by_cases hround : qc.certifiedBlock.round = 0
    · simp [hhash, hround]
    · simp [hhash, hround]
  · simp [hhash]

def TimeoutCertificate.verify (h : Hasher) (v : ValidatorVerifier) (tc : TimeoutCertificate) : Bool :=
  if tc.signatures.size = 0 then false
  else if v.checkVotingPower tc.signatures = false then false
  else tc.signatures.entries.all fun e => v.verifySignature e.1 e.2 (tc.timeout.hash h)

end Chainsql.Hotstuff
