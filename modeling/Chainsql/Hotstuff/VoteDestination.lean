import Chainsql.Hotstuff.Agreement

/-!
# Where a vote is sent

`ProcessProposal` sends its vote to the leader that follows the proposal, by the round and the timeout
count of the proposal. The receiver takes it if it is the leader that follows the vote, by the round
and the timeout count of the vote. `ConstructAndSignVote` may return the vote of the round that was
sent before, and `executeAndAddBlock` may return another block, so the two leaders can differ.
-/

namespace Chainsql.Hotstuff

namespace Replica

/-- The block whose vote is asked for: the one that is cached under the id of the proposal, or the
proposal, if it can be executed. -/
def blockVotedOn (r : Replica) (app : Application) (block : Block) : Block :=
  match r.storage.blockOf block.id with
  | some executed => executed.block
  | none => if (app.compute block).isSome then block else {}

/-- The leader that follows the vote a proposal will get: by the last vote, if it is of the round and
its parent is past round 0, and otherwise by the block. -/
def leaderAfterVote (node : Node) (r : Replica) (app : Application) (block : Block) : Author :=
  let voted := r.blockVotedOn app block
  match r.safety.lastVote.filter fun last => decide (0 < last.parentRound ∧ last.round = voted.round) with
  | some last => node.getValidProposer (last.round + 1 + last.voteData.tc)
  | none => node.getValidProposer (voted.round + 1 + voted.quorumCert.voteData.tc)

variable {node : Node} {env : Environment} {r : Replica} {block : Block} {vote : Vote}

theorem executeAndAddBlock_block (r : Replica) (app : Application) (block : Block) :
    (r.storage.executeAndAddBlock app block).2.block = r.blockVotedOn app block := by
  unfold BlockStorage.executeAndAddBlock blockVotedOn
  cases r.storage.blockOf block.id with
  | some executed => rfl
  | none =>
    cases app.compute block with
    | some result => rfl
    | none => rfl

theorem leader_of_vote (hvote : (r.executeAndVote node env block).2 = some vote) :
    node.getValidProposer (vote.round + 1 + vote.voteData.tc) = r.leaderAfterVote node env.app block := by
  have hblock := executeAndAddBlock_block r env.app block
  unfold leaderAfterVote
  rw [← hblock]
  unfold executeAndVote at hvote
  generalize r.storage.executeAndAddBlock env.app block = out at hvote
  obtain ⟨storage, executed⟩ := out
  dsimp only at hvote ⊢
  split at hvote
  · cases hvote
  · have houtcome := HotstuffCore.constructAndSignVote_outcome (node.core env) r.safety executed
    generalize (node.core env).constructAndSignVote r.safety executed = call at houtcome hvote
    obtain ⟨safety, result⟩ := call
    cases houtcome with
    | failed => cases hvote
    | @lastVote last hlast _ hparent hround =>
      cases hvote
      rw [hlast, Option.filter_some, if_pos (decide_eq_true ⟨hparent, hround⟩)]
    | @signed voteData hext _ hchecked =>
      cases hvote
      obtain ⟨-, hfor⟩ := HotstuffCore.votesFor_of_extensionCheck hext
      have hnone : (r.safety.lastVote.filter fun last =>
          decide (0 < last.parentRound ∧ last.round = executed.block.round)) = none := by
        rw [Option.filter_eq_none_iff]
        intro last hlast hsame
        exact (hchecked last hlast (of_decide_eq_true hsame).1).1 (of_decide_eq_true hsame).2
      have htc : voteData.tc = executed.block.quorumCert.voteData.tc := by
        unfold HotstuffCore.extensionCheck at hext
        dsimp only at hext
        split at hext <;> cases hext
        rfl
      rw [hnone]
      show node.getValidProposer (voteData.proposed.round + 1 + voteData.tc) = _
      rw [hfor.round, htc]

theorem processProposal_sent {dest : Option Author} :
    (∃ sync, (r.processProposal node env block).sent = r.sent ++ [.vote dest vote sync])
      ↔ node.isValidProposal block = true
        ∧ block.quorumCert.certifiedBlock.timestampMsecs < block.blockData.timestampMsecs
        ∧ (r.executeAndVote node env block).2 = some vote
        ∧ dest = some (node.getValidProposer (block.round + 1 + block.quorumCert.voteData.tc)) := by
  have hkept : (r.executeAndVote node env block).1.sent = r.sent := by
    unfold executeAndVote
    dsimp only
    split <;> rfl
  unfold processProposal
  by_cases hvalid : node.isValidProposal block = false
  · simp [hvalid]
  · rw [if_neg hvalid]
    by_cases hlate : block.blockData.timestampMsecs ≤ block.quorumCert.certifiedBlock.timestampMsecs
    · rw [if_pos hlate]
      simp [not_lt.mpr hlate]
    · rw [if_neg hlate]
      generalize r.executeAndVote node env block = out at hkept
      obtain ⟨r', result⟩ := out
      dsimp only at hkept
      cases result with
      | none => simp [hkept]
      | some v =>
        dsimp only
        rw [recordAndSend, send, hkept]
        simp only [List.append_cancel_left_eq, List.cons.injEq, and_true, Message.vote.injEq, Option.some.injEq]
        constructor
        · rintro ⟨sync, rfl, rfl, -⟩
          exact ⟨Bool.not_eq_false _ ▸ hvalid, not_le.mp hlate, rfl, rfl⟩
        · rintro ⟨-, -, rfl, rfl⟩
          exact ⟨_, rfl, rfl, rfl⟩

end Replica

/-- A vote that is sent for a proposal goes to exactly the validator that takes it, and that proposes
when the certificate of the vote is the highest one, if and only if the leader that follows the vote
is the leader that follows the proposal. -/
theorem vote_destination_iff (node : Node) (env : Environment) (r : Replica) (block : Block) (vote : Vote)
    (dest : Author) (sync : SyncInfo)
    (hsent : (r.processProposal node env block).sent = r.sent ++ [.vote (some dest) vote sync]) :
    ((∀ verifier : ValidatorVerifier,
        { node with verifier := verifier }.collectsVote vote = true ↔ verifier.self = dest)
      ∧ ∀ (verifier : ValidatorVerifier) (env' : Environment) (r' : Replica),
        r'.storage.highestQuorumCert.voteData = vote.voteData →
        env'.syncState r'.storage.highestQuorumCert.certifiedBlock = true →
        let round := r'.storage.highestQuorumCert.certifiedBlock.round + 1
        let entered := { r' with roundTimer := some round }
        r'.processNewRoundEvent { node with verifier := verifier } env' round
          = if verifier.self = dest then
              entered.generateThenBroadcastProposal { node with verifier := verifier } env' round
            else entered)
    ↔ r.leaderAfterVote node env.app block
        = node.getValidProposer (block.round + 1 + block.quorumCert.voteData.tc) := by
  obtain ⟨-, -, hvote, hdest⟩ := Replica.processProposal_sent.mp ⟨sync, hsent⟩
  cases hdest
  rw [← Replica.leader_of_vote hvote]
  -- For whoever asks, it is the leader that follows the vote.
  have hself : ∀ verifier : ValidatorVerifier, { node with verifier := verifier }.collectsVote vote = true
      ↔ verifier.self = node.getValidProposer (vote.round + 1 + vote.voteData.tc) := by
    intro verifier
    rw [Node.collectsVote, Node.isValidProposer, beq_iff_eq]
    exact eq_comm
  constructor
  · rintro ⟨hcollects, -⟩
    have hleader := (hcollects
      { node.verifier with self := node.getValidProposer (vote.round + 1 + vote.voteData.tc) }).mp
        ((hself _).mpr rfl)
    exact hleader
  · intro hleader
    rw [hleader] at hself
    refine ⟨hself, ?_⟩
    intro verifier env' r' hcert hsync round entered
    have hproposes : { node with verifier := verifier }.isValidProposer verifier.self
        (round + r'.storage.highestQuorumCert.voteData.tc) = { node with verifier := verifier }.collectsVote vote := by
      have hround : round = vote.round + 1 := by
        show r'.storage.highestQuorumCert.voteData.proposed.round + 1 = vote.round + 1
        rw [hcert]
        rfl
      rw [hround, hcert]
      rfl
    unfold Replica.processNewRoundEvent
    rw [if_neg (by rw [hsync]; decide), hproposes]
    by_cases hdest : verifier.self = node.getValidProposer (block.round + 1 + block.quorumCert.voteData.tc)
    · rw [if_pos hdest, (hself verifier).mpr hdest, if_neg (by decide)]
    · rw [if_neg hdest, if_pos (Bool.eq_false_iff.mpr fun h => hdest ((hself verifier).mp h))]

namespace Cluster

/-- Four validators. In round 2 the proposal gets its votes, but three validators time out and repeat
theirs with timeout count 1. Both sets of votes are certified: validator 3 has the first certificate and
proposes `P₃`, validator 0 has the other one and proposes `Q₃`. `P₃` reaches validator 1. -/
def firstLeaderRun : List Event :=
  [start 0, start 1, start 2, start 3]
  ++ deliver 0 [(1, 0)] 0 ++ deliver 2 [(1, 0)] 0 ++ deliver 3 [(1, 0)] 0
  ++ [job 0 0, job 1 0, job 2 0, job 3 0] ++ deliver 2 [(2, 0), (0, 0), (3, 0)] 20
  ++ deliver 0 [(2, 1)] 0 ++ deliver 1 [(2, 1)] 0 ++ deliver 3 [(2, 1)] 0
  ++ [job 0 0, job 1 0, job 2 0, job 3 0] ++ [timeout 0, timeout 1, timeout 2]
  ++ deliver 0 [(0, 2), (1, 3), (2, 3)] 30 ++ deliver 3 [(3, 1), (0, 1), (1, 2)] 30
  ++ deliver 1 [(3, 2)] 0

theorem vote_destination_iff_firstLeader :
    let r := (Run.final (idle 4).step (idle 4).init firstLeaderRun).getD 1 {}
    let node := (idle 4).node 2
    ∃ vote dest sync,
      (r.processProposal node (idleAt 0) (r.jobs.headD {})).sent = r.sent ++ [.vote (some dest) vote sync]
      ∧ ∀ verifier : ValidatorVerifier,
        { node with verifier := verifier }.collectsVote vote = true ↔ verifier.self = dest := by
  intro r node
  have hvote : ∃ vote, (r.executeAndVote node (idleAt 0) (r.jobs.headD {})).2 = some vote :=
    Option.isSome_iff_exists.mp (by decide +kernel)
  obtain ⟨vote, hvote⟩ := hvote
  obtain ⟨sync, hsent⟩ := Replica.processProposal_sent.mpr ⟨by decide +kernel, by decide +kernel, hvote, rfl⟩
  exact ⟨vote, _, sync, hsent, ((vote_destination_iff _ _ _ _ _ _ _ hsent).mpr (by decide +kernel)).1⟩

/-- Validator 1, with key 2, has voted for `P₃` when it gets `Q₃`. It sends its vote for `P₃` to itself,
the leader that follows `Q₃`, who does not take it; the validator with key 1 would. -/
theorem vote_sent_past_leader :
    let w := Run.final (idle 4).step (idle 4).init (firstLeaderRun ++ [job 1 0] ++ deliver 1 [(0, 3)] 0 ++ [job 1 0])
    ((w.getD 1 {}).sent.getLast?.any fun
      | .vote (some dest) vote _ =>
        dest == 2 && !((idle 4).node 2).collectsVote vote && ((idle 4).node 1).collectsVote vote
      | _ => false) = true := by
  decide +kernel

end Cluster

end Chainsql.Hotstuff
