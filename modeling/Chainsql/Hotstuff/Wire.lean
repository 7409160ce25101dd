import Chainsql.Hotstuff.Block

/-!
# The archive a proposal travels in

`STProposal` carries a block through a text archive. Every class of `peersafe/serialization/hotstuff`
writes all of its fields, so a round trip changes nothing but the ledger headers, which go through
`LedgerInfo.save` and `LedgerInfo.load`.
-/

namespace Chainsql

namespace LedgerInfo

variable {h : Hasher} {info : LedgerInfo}

theorem hashItems_roundTrip (hbloom : info.bloomEnabled = false) (hflags : info.closeFlags % 256 = 0) :
    info.roundTrip.hashItems = info.hashItems := by
  have hbyte : UInt8.ofInt info.closeFlags = UInt8.ofInt 0 := by
    simp only [UInt8.ofInt]
    have : info.closeFlags % 2 ^ 8 = 0 := by simpa using hflags
    rw [this]
    rfl
  simp [hashItems, roundTrip, load, save, hbloom, hbyte]

theorem closeFlags_of_hashItems_roundTrip (heq : info.roundTrip.hashItems = info.hashItems) :
    info.bloomEnabled = false ∧ info.closeFlags % 256 = 0 := by
  cases hbloom : info.bloomEnabled with
  | true =>
    have hlen := congrArg List.length heq
    simp [hashItems, roundTrip, load, save, hbloom] at hlen
  | false =>
    refine ⟨rfl, ?_⟩
    have hbyte : UInt8.ofInt 0 = UInt8.ofInt info.closeFlags := by
      simpa [hashItems, roundTrip, load, save, hbloom] using heq
    have hnat := congrArg UInt8.toNat hbyte
    simp only [UInt8.ofInt, UInt8.toNat_ofNat'] at hnat
    omega

theorem roundTrip_authentic_iff (hh : h.Ideal) (hauth : info.hash = info.calculateLedgerHash h) :
    info.roundTrip.hash = info.roundTrip.calculateLedgerHash h
      ↔ info.bloomEnabled = false ∧ info.closeFlags % 256 = 0 := by
  have hhash : info.roundTrip.hash = info.calculateLedgerHash h := hauth
  rw [hhash]
  constructor
  · intro heq
    exact closeFlags_of_hashItems_roundTrip (hh.inj heq).symm
  · rintro ⟨hbloom, hflags⟩
    rw [calculateLedgerHash, calculateLedgerHash, hashItems_roundTrip hbloom hflags]

end LedgerInfo

namespace Hotstuff

def BlockInfo.roundTrip (b : BlockInfo) : BlockInfo := { b with ledgerInfo := b.ledgerInfo.roundTrip }

def VoteData.roundTrip (v : VoteData) : VoteData :=
  { v with proposed := v.proposed.roundTrip, parent := v.parent.roundTrip }

def CommitLedger.roundTrip (l : CommitLedger) : CommitLedger :=
  { l with commitInfo := l.commitInfo.roundTrip }

def QuorumCertificate.roundTrip (qc : QuorumCertificate) : QuorumCertificate where
  voteData := qc.voteData.roundTrip
  signedLedgerInfo :=
    { qc.signedLedgerInfo with ledgerInfo := qc.signedLedgerInfo.ledgerInfo.roundTrip }

def BlockData.roundTrip (d : BlockData) : BlockData := { d with quorumCert := d.quorumCert.roundTrip }

def Block.roundTrip (b : Block) : Block := { b with blockData := b.blockData.roundTrip }

/-- The digest of a block survives the archive: of the header it covers only the hash field. -/
theorem BlockData.hash_roundTrip (h : Hasher) (d : BlockData) : d.roundTrip.hash h = d.hash h := rfl

variable {h : Hasher} {leader receiver : ValidatorVerifier} {info : LedgerInfo}

theorem verifyBlockSignature_roundTrip_iff (d : BlockData)
    (hsig : ∀ digest, receiver.verifyDigest leader.self digest (leader.signDigest digest) = true) :
    receiver.verifyBlockSignature h leader.self (leader.signDigest (d.hash h))
        (Block.newFromBlockData h leader d).roundTrip = true
      ↔ d.getLedgerInfo.roundTrip.hash = d.getLedgerInfo.roundTrip.calculateLedgerHash h := by
  have hid : (Block.newFromBlockData h leader d).roundTrip.blockData.hash h
      = (Block.newFromBlockData h leader d).roundTrip.id := BlockData.hash_roundTrip h d
  have hinfo : (Block.newFromBlockData h leader d).roundTrip.getLedgerInfo
      = d.getLedgerInfo.roundTrip := rfl
  have hdigest : (Block.newFromBlockData h leader d).roundTrip.id = d.hash h := rfl
  simp only [ValidatorVerifier.verifyBlockSignature, hid, hinfo, hdigest, hsig]
  constructor
  · intro hv
    by_contra hne
    simp [Ne.symm hne] at hv
  · intro heq
    simp [heq.symm]

/-- A header that is authentic at the leader is authentic at the receiver, and the leader's signed
proposal passes the receiver's signature check, exactly when the header carries no bloom filter and
the byte of close flags that is hashed is zero. -/
theorem proposal_accepted_iff (hh : h.Ideal) (d : BlockData)
    (hsig : ∀ digest, receiver.verifyDigest leader.self digest (leader.signDigest digest) = true)
    (hauth : info.hash = info.calculateLedgerHash h) :
    (info.roundTrip.hash = info.roundTrip.calculateLedgerHash h
      ↔ info.bloomEnabled = false ∧ info.closeFlags % 256 = 0)
    ∧ (receiver.verifyBlockSignature h leader.self
          (leader.signDigest ((d.setLedgerInfo info).hash h))
          (Block.newFromBlockData h leader (d.setLedgerInfo info)).roundTrip = true
      ↔ info.bloomEnabled = false ∧ info.closeFlags % 256 = 0) := by
  have hiff := LedgerInfo.roundTrip_authentic_iff hh hauth
  refine ⟨hiff, ?_⟩
  rw [verifyBlockSignature_roundTrip_iff (d.setLedgerInfo info) hsig]
  exact hiff

def authenticHeader (info : LedgerInfo) : LedgerInfo :=
  { info with hash := info.calculateLedgerHash codeHasher }

theorem proposal_accepted_plain_header :
    let data := ({} : BlockData).setLedgerInfo (authenticHeader { seq := 7 })
    (codeVerifier {1, 2} 2 2).verifyBlockSignature codeHasher 1
      ((codeVerifier {1, 2} 2 1).signDigest (data.hash codeHasher))
      (Block.newFromBlockData codeHasher (codeVerifier {1, 2} 2 1) data).roundTrip = true :=
  (@proposal_accepted_iff codeHasher (codeVerifier {1, 2} 2 1) (codeVerifier {1, 2} 2 2)
    (authenticHeader { seq := 7 }) codeHasher_ideal {} (codeVerifier_verifyDigest {1, 2} 2 1 2)
    rfl).2.mpr ⟨rfl, rfl⟩

/-- A header with a bloom filter is authentic at the leader and not at the receiver, which rejects
the leader's proposal. -/
theorem bloom_header_proposal_rejected :
    let info := authenticHeader { seq := 7, bloomEnabled := true, bloom := 1 }
    let data := ({} : BlockData).setLedgerInfo info
    info.hash = info.calculateLedgerHash codeHasher
    ∧ info.roundTrip.hash ≠ info.roundTrip.calculateLedgerHash codeHasher
    ∧ (codeVerifier {1, 2} 2 2).verifyBlockSignature codeHasher 1
        ((codeVerifier {1, 2} 2 1).signDigest (data.hash codeHasher))
        (Block.newFromBlockData codeHasher (codeVerifier {1, 2} 2 1) data).roundTrip = false := by
  decide +kernel

end Hotstuff

end Chainsql
