import Chainsql.Hotstuff.Core
import Chainsql.Hotstuff.StorageRun

/-!
# What the signatures of a certificate cover

Validators sign the digest of the vote data. The commit decision of a certificate is stored beside
that digest and takes part in no check but one: a certificate of round 0 has to commit the block it
certifies. So a certificate stays valid when its commit decision is replaced, and the store acts on
whatever decision the certificate carries.
-/

namespace Chainsql.Hotstuff

variable {h : Hasher} {v : ValidatorVerifier} {qc : QuorumCertificate}

namespace QuorumCertificate

theorem verify_setCommitInfo {info : BlockInfo} (hqc : qc.verify h v = true)
    (hid : qc.certifiedBlock.round = 0 → info.id = qc.commitInfo.id) :
    (qc.setCommitInfo info).verify h v = true := by
  obtain ⟨hhash, hzero, hpos⟩ := verify_iff.mp hqc
  refine verify_iff.mpr ⟨hhash, ?_, hpos⟩
  intro hround
  obtain ⟨hparent, hcommit, hsize⟩ := hzero hround
  exact ⟨hparent, hcommit.trans (hid hround).symm, hsize⟩

end QuorumCertificate

theorem BlockStorage.committed_preCommit {s : BlockStorage} {c : ExecutedBlock} (qc : QuorumCertificate)
    (hround : s.committedRound < qc.commitInfo.round) (hid : qc.commitInfo.id ≠ zeroHash)
    (hc : s.blockOf qc.commitInfo.id = some c) : (s.preCommit qc).committed = c :: s.committed := by
  have htarget : s.commitTarget qc.commitInfo = qc.commitInfo.id := by
    exact if_neg fun hzero => hid hzero.1
  have hcommit : s.commit qc.signedLedgerInfo = _ :=
    commit_of_blockOf (htarget.symm ▸ hid) (htarget.symm ▸ hc)
  unfold BlockStorage.preCommit
  rw [if_pos hround, hcommit]

/-- No verified certificate determines its commit decision: another certificate with the same vote
data and the same signatures verifies too and decides differently. When the certified round is not 0
the other decision can be any block of any store, and the store commits it. -/
theorem commit_decision_not_signed (hqc : qc.verify h v = true) :
    (∃ qc' : QuorumCertificate, qc'.verify h v = true ∧ qc'.voteData = qc.voteData
      ∧ qc'.signatures = qc.signatures ∧ qc'.commitInfo ≠ qc.commitInfo)
    ∧ (qc.certifiedBlock.round ≠ 0 →
      ∀ (s : BlockStorage) (id : HashValue) (c : ExecutedBlock), id ≠ zeroHash → s.blockOf id = some c →
        ∃ qc' : QuorumCertificate, qc'.verify h v = true ∧ qc'.voteData = qc.voteData
          ∧ qc'.signatures = qc.signatures ∧ (s.preCommit qc').committed = c :: s.committed) := by
  constructor
  · let info : BlockInfo := { qc.commitInfo with round := qc.commitInfo.round + 1 }
    refine ⟨qc.setCommitInfo info, ?_, rfl, rfl, ?_⟩
    · exact QuorumCertificate.verify_setCommitInfo hqc fun _ => rfl
    · intro heq
      have hround : qc.commitInfo.round + 1 = qc.commitInfo.round := congrArg BlockInfo.round heq
      omega
  · intro hround s id c hid hc
    let info : BlockInfo := { id := id, round := s.committedRound + 1 }
    refine ⟨qc.setCommitInfo info, ?_, rfl, rfl, ?_⟩
    · exact QuorumCertificate.verify_setCommitInfo hqc fun hzero => absurd hzero hround
    · exact BlockStorage.committed_preCommit (qc.setCommitInfo info) (Int.lt_succ _) hid hc

open BlockStorage (nilOfRound genesisStore)

def roundOneVote (a : Author) : Vote :=
  ((HotstuffCore.idle {1, 2, 3, 4} 3 a).constructAndSignVote (.initializeAt 0 0)
    ((Application.idle {}).execute (nilOfRound 1))).2.vote?.getD {}

def roundOneCert : QuorumCertificate where
  voteData := (roundOneVote 1).voteData
  signedLedgerInfo :=
    { ledgerInfo := (roundOneVote 1).ledgerInfo
      signatures := [1, 2, 3].foldr (fun a sigs => sigs.insert a (roundOneVote a).signature) ∅ }

theorem commit_decision_not_signed_round_one :
    ∃ qc' : QuorumCertificate, qc'.verify codeHasher (codeVerifier {1, 2, 3, 4} 3 4) = true
      ∧ qc'.voteData = roundOneCert.voteData ∧ qc'.signatures = roundOneCert.signatures
      ∧ qc'.commitInfo ≠ roundOneCert.commitInfo :=
  (@commit_decision_not_signed codeHasher (codeVerifier {1, 2, 3, 4} 3 4) roundOneCert
    (by decide +kernel)).1

/-- The signers of a certificate of round 1 decided to commit nothing. With another decision in its
place the certificate still verifies, and the store commits the block of round 2 that it names. -/
theorem forged_commit_decision :
    let forged := roundOneCert.setCommitInfo { id := (nilOfRound 2).id, round := 1 }
    let s := genesisStore.addExecutedBlock { block := nilOfRound 2 }
    roundOneCert.verify codeHasher (codeVerifier {1, 2, 3, 4} 3 4) = true
    ∧ forged.verify codeHasher (codeVerifier {1, 2, 3, 4} 3 4) = true
    ∧ (∀ a ∈ [1, 2, 3], (roundOneVote a).ledgerInfo.commitInfo = {})
    ∧ forged.commitInfo ≠ roundOneCert.commitInfo
    ∧ (s.preCommit forged).committed.map (·.block.id) = [(nilOfRound 2).id] := by
  decide +kernel

end Chainsql.Hotstuff
