import Chainsql.Hotstuff.StorageRun

/-!
# What the store forgets

Two places where `BlockStorage` passes on less than it holds. `SyncInfo` drops the commit certificate
unless it certifies the round of the highest certificate, and then the highest certificate stands in
for it. `gcBlocks` looks at the fifty rounds that end ten rounds before the commit, and at one block of
each.
-/

namespace Chainsql.Hotstuff

namespace SyncInfo

variable (qc cc : QuorumCertificate) (tc : Option TimeoutCertificate)

theorem commitRound_new :
    (new qc cc tc).highestCommitCert.commitInfo.round
      = if qc.certifiedBlock.round = cc.certifiedBlock.round then cc.commitInfo.round else qc.commitInfo.round := by
  by_cases heq : qc.certifiedBlock.round = cc.certifiedBlock.round
  · simp [highestCommitCert, new, heq]
  · simp [highestCommitCert, new, heq]

/-- A summary shows the commit of the certificates it is made of, and outdates every summary whose
certificates both commit less, exactly when the commit certificate certifies the round of the highest
certificate or commits no more than that does. -/
theorem commit_shown_iff :
    (cc.commitInfo.round ≤ (new qc cc tc).highestCommitCert.commitInfo.round
      ∧ ∀ (qc' cc' : QuorumCertificate) (tc' : Option TimeoutCertificate),
        qc'.commitInfo.round < cc.commitInfo.round → cc'.commitInfo.round < cc.commitInfo.round →
        (new qc cc tc).hasNewerCertificate (new qc' cc' tc') = true)
    ↔ qc.certifiedBlock.round = cc.certifiedBlock.round ∨ cc.commitInfo.round ≤ qc.commitInfo.round := by
  constructor
  · rintro ⟨hshown, -⟩
    rw [commitRound_new] at hshown
    split at hshown
    next heq => exact .inl heq
    next => exact .inr hshown
  · intro hcond
    have hshown : cc.commitInfo.round ≤ (new qc cc tc).highestCommitCert.commitInfo.round := by
      rw [commitRound_new]
      split
      · exact le_refl _
      next hne => exact hcond.resolve_left hne
    refine ⟨hshown, fun qc' cc' tc' hqc hcc => ?_⟩
    have hlower : (new qc' cc' tc').highestCommitCert.commitInfo.round < cc.commitInfo.round := by
      rw [commitRound_new]
      split
      · exact hcc
      · exact hqc
    rw [hasNewerCertificate, Bool.or_eq_true, Bool.or_eq_true]
    exact .inl (.inr (decide_eq_true (lt_of_lt_of_le hlower hshown)))

end SyncInfo

namespace BlockStorage

/-- A node has committed round 3 and holds a certificate of round 8, after some rounds without
certificate. Its summary names the commit of round 0, and does not outdate that of a node which holds
the certificate of round 8 and has committed nothing. -/
theorem commit_hidden :
    let qc₅ := claimingCert (nilOfRound 5) 5 4 { id := (nilOfRound 3).id, round := 3 }
    let qc₈ := claimingCert (nilOfRound 8) 8 5 {}
    let cached := [nilOfRound 3, nilOfRound 5, nilOfRound 8].map fun block => Op.addExecutedBlock { block := block }
    let s := Run.final step genesisStore (cached ++ [.insertQuorumCert qc₅, .insertQuorumCert qc₈])
    let t := Run.final step genesisStore (cached ++ [.insertQuorumCert qc₈])
    s.committedRound = 3 ∧ s.highestCommitCert.commitInfo.round = 3
    ∧ s.syncInfo.highestCommitCert.commitInfo.round = 0
    ∧ t.highestCommitCert.commitInfo.round = 0 ∧ t.highestQuorumCert.commitInfo.round = 0
    ∧ s.syncInfo.hasNewerCertificate t.syncInfo = false := by
  decide +kernel

/-! ## Garbage collection -/

/-- Collecting for a commit of round `round ≥ 60` removes the blocks of older epochs and, of the blocks
of the committed epoch with a round from `round - 60` to `round - 11`, the first one of each round. It
removes nothing else. -/
theorem gcBlocks_exact (cache : BlockCache) (epoch round : Int) (hround : 60 ≤ round) (id : HashValue)
    (executed : ExecutedBlock) :
    (gcBlocks cache epoch round).lookup id = some executed
      ↔ cache.lookup id = some executed
        ∧ ¬ (executed.block.epoch < epoch
          ∨ (executed.block.epoch = epoch ∧ round - 60 ≤ executed.block.round
            ∧ executed.block.round < round - 10 ∧ FirstOfRound cache id executed)) := by
  rw [lookup_gcBlocks_iff, not_or]
  simp only [hround, true_and]

def blockOfRound (round timestamp : Int) : Block :=
  Block.newFromBlockData codeHasher (codeVerifier {1, 2, 3, 4} 3 1)
    { round := round, timestampMsecs := timestamp, blockType := .proposal, payload := some {}
      quorumCert := Block.genesisQuorumCert codeHasher {} 0 }

def cacheOf (blocks : List Block) : BlockCache :=
  blocks.foldl (fun cache block => cache.emplace block.id { block := block }) ∅

theorem gcBlocks_exact_one_block :
    (gcBlocks (cacheOf [blockOfRound 20 1]) 0 60).lookup (blockOfRound 20 1).id ≠ some { block := blockOfRound 20 1 } := by
  intro hkept
  have hfirst : FirstOfRound (cacheOf [blockOfRound 20 1]) (blockOfRound 20 1).id { block := blockOfRound 20 1 } := by
    intro a b hb _
    by_cases ha : a = (blockOfRound 20 1).id
    · exact le_of_eq ha.symm
    · have hnone : (cacheOf [blockOfRound 20 1]).lookup a = none := AList.lookup_insert_ne ha
      rw [hnone] at hb
      cases hb
  exact ((gcBlocks_exact _ 0 60 (by decide) _ _).mp hkept).2 (.inr ⟨rfl, by decide, by decide, hfirst⟩)

/-- Of two blocks of round 20 one stays, and so does a block of round 5 when the commit is of round
100. -/
theorem old_blocks_stay :
    ((gcBlocks (cacheOf [blockOfRound 20 1, blockOfRound 20 2]) 0 60).entries.map fun e => e.2.block.round) = [20]
    ∧ ((gcBlocks (cacheOf [blockOfRound 5 1]) 0 100).entries.map fun e => e.2.block.round) = [5] := by
  decide +kernel

end BlockStorage

end Chainsql.Hotstuff
