import Chainsql.Hotstuff.BlockStorage
import Chainsql.Hotstuff.Core
import Chainsql.Hotstuff.Wire

/-!
# What a block id covers

The id of a block is the digest of its epoch, round, timestamp and type, of the hash of its ledger and,
for a proposal, of its command. The certificate that names the parent, and the author, are not among
them, so every block shares its id with a block of another parent. The store keeps the first of the two
that it executes.
-/

namespace Chainsql.Hotstuff

namespace BlockData

variable {d : BlockData}

def withParent (d : BlockData) (id : HashValue) : BlockData :=
  { d with quorumCert :=
    { d.quorumCert with voteData :=
      { d.quorumCert.voteData with proposed := { d.quorumCert.voteData.proposed with id := id } } } }

/-- Another author in the payload. Only a proposal without payload has no room for one. -/
def withAuthor (d : BlockData) (author : Author) : BlockData :=
  match d.payload with
  | some payload => { d with payload := some { payload with author := author } }
  | none => if d.blockType = .proposal then d else { d with payload := some { author := author } }

theorem hash_withAuthor (h : Hasher) (d : BlockData) (author : Author) :
    (d.withAuthor author).hash h = d.hash h ∧ (d.withAuthor author).quorumCert = d.quorumCert := by
  unfold withAuthor
  cases hpayload : d.payload with
  | some payload =>
    refine ⟨congrArg h ?_, rfl⟩
    unfold hashItems getLedgerInfo
    rw [hpayload]
    cases d.blockType <;> rfl
  | none =>
    dsimp only
    split
    · exact ⟨rfl, rfl⟩
    next htype =>
      refine ⟨congrArg h ?_, rfl⟩
      unfold hashItems getLedgerInfo
      cases hblock : d.blockType with
      | proposal => exact absurd hblock htype
      | nilBlock => rfl
      | genesis => rfl

theorem author_withAuthor (author : Author) (hroom : d.blockType = .proposal → d.payload ≠ none) :
    (d.withAuthor author).author = author := by
  unfold withAuthor BlockData.author
  cases hpayload : d.payload with
  | some payload => rfl
  | none =>
    rw [if_neg fun htype => hroom htype hpayload]

end BlockData

/-- No block is determined by its id: another block has the same id, computed from its own data, and
passes the same signature checks, but has another parent and, where its payload names one, another
author. A store that holds the one returns it for the other. -/
theorem block_id_omits_parent (h : Hasher) (block : Block) (hid : block.blockData.hash h = block.id) :
    ∃ other : Block, other.id = block.id ∧ other.blockData.hash h = other.id
      ∧ other.quorumCert.certifiedBlock.id ≠ block.quorumCert.certifiedBlock.id
      ∧ ((block.blockData.blockType = .proposal → block.blockData.payload ≠ none) →
        other.blockData.author ≠ block.blockData.author)
      ∧ (∀ (v : ValidatorVerifier) (author : Author) (signature : Signature),
        v.verifyBlockSignature h author signature other = v.verifyBlockSignature h author signature block)
      ∧ ∀ (s : BlockStorage) (app : Application) (executed : ExecutedBlock),
        s.blockOf block.id = some executed → (s.executeAndAddBlock app other).2 = executed := by
  let data := (block.blockData.withParent (block.quorumCert.certifiedBlock.id + 1)).withAuthor
    (block.blockData.author + 1)
  have hhash : data.hash h = block.id := (BlockData.hash_withAuthor h _ _).1.trans hid
  have hqc : data.quorumCert
      = (block.blockData.withParent (block.quorumCert.certifiedBlock.id + 1)).quorumCert :=
    (BlockData.hash_withAuthor h _ _).2
  have hledger : data.getLedgerInfo = block.getLedgerInfo := by
    rw [BlockData.getLedgerInfo, hqc]
    rfl
  refine ⟨{ block with blockData := data }, rfl, hhash, ?_, ?_, ?_, ?_⟩
  · rw [Block.quorumCert, hqc]
    exact Nat.succ_ne_self _
  · intro hroom
    have hauthor : data.author = block.blockData.author + 1 := BlockData.author_withAuthor _ hroom
    rw [hauthor]
    exact Nat.succ_ne_self _
  · intro v author signature
    have hinfo : Block.getLedgerInfo { block with blockData := data } = block.getLedgerInfo := hledger
    unfold ValidatorVerifier.verifyBlockSignature
    rw [hinfo]
    rw [hhash, hid]
  · intro s app executed hcached
    unfold BlockStorage.executeAndAddBlock
    rw [hcached]

open HotstuffCore (roundFiveQC)

theorem block_id_omits_parent_nil :
    ∃ other : Block, other.id = (Block.nilBlock codeHasher 6 (roundFiveQC [1, 2, 3])).id
      ∧ other.blockData.hash codeHasher = other.id ∧ other.quorumCert.certifiedBlock.id ≠ 55 := by
  obtain ⟨other, hid, hhash, hparent, -⟩ :=
    block_id_omits_parent codeHasher (Block.nilBlock codeHasher 6 (roundFiveQC [1, 2, 3])) rfl
  exact ⟨other, hid, hhash, hparent⟩

def roundFourQC : QuorumCertificate :=
  let voteData : VoteData := { proposed := { round := 4, id := 44 }, parent := { round := 3, id := 33 } }
  let hash := voteData.hash codeHasher
  { voteData := voteData
    signedLedgerInfo :=
      { ledgerInfo := { consensusDataHash := hash }
        signatures := [1, 2, 3].foldr (fun a sigs => sigs.insert a (Nat.pair a hash)) ∅ } }

def proposalOn (qc : QuorumCertificate) : Block :=
  let data : BlockData :=
    { round := 6, timestampMsecs := 10, quorumCert := qc, blockType := .proposal, payload := some { author := 1 } }
  Block.newFromBlockData codeHasher (codeVerifier {1, 2, 3, 4} 3 1)
    (data.setLedgerInfo (authenticHeader { seq := 7 }))

/-- The leader of round 6 signs two proposals, on the certificates of rounds 5 and 4. Both pass every
check of a receiver, they have one id, and a store that holds the first returns it for the second. -/
theorem two_parents_one_id :
    let v := codeVerifier {1, 2, 3, 4} 3 2
    let first := proposalOn (roundFiveQC [1, 2, 3])
    let second := proposalOn roundFourQC
    let app := Application.idle (authenticHeader { seq := 7 })
    let s := (BlockStorage.executeAndAddBlock {} app first).1
    (roundFiveQC [1, 2, 3]).verify codeHasher v = true ∧ roundFourQC.verify codeHasher v = true
    ∧ (∀ signature ∈ first.signature, v.verifyBlockSignature codeHasher 1 signature first = true)
    ∧ (∀ signature ∈ second.signature, v.verifyBlockSignature codeHasher 1 signature second = true)
    ∧ first.id = second.id ∧ first.quorumCert.certifiedBlock.id = 55 ∧ second.quorumCert.certifiedBlock.id = 44
    ∧ (s.executeAndAddBlock app second).2.block.quorumCert.certifiedBlock.id = 55 := by
  decide +kernel

end Chainsql.Hotstuff
