import Chainsql.Hotstuff.Core

/-!
# Voting safety of one validator

A validator should vote once per round and in increasing rounds. `constructAndSignVote` compares the
round of a block with the last voted round only when the last vote extends a block past round 0, and
it does not record the round of a vote that it signs without that comparison. So a call keeps the
order of votes only if it is `Fresh`: the last vote is sent back, or its round is covered by the last
voted round, or the block is of a higher round anyway.
-/

namespace Chainsql.Hotstuff

/-- The condition on the state before a call under which the call does not sign at or below the round
of the last vote. -/
def SafetyData.Fresh (s : SafetyData) (round : Int) : Prop :=
  ∀ last ∈ s.lastVote,
    (0 < last.parentRound ∧ (last.round = round ∨ last.round ≤ s.lastVotedRound))
      ∨ last.round < round

instance (s : SafetyData) (round : Int) : Decidable (s.Fresh round) :=
  inferInstanceAs (Decidable (∀ last ∈ s.lastVote, _))

namespace HotstuffCore

variable {core : HotstuffCore} {s : SafetyData} {executed : ExecutedBlock} {blocks : List ExecutedBlock}

def calls (core : HotstuffCore) : SafetyData → List ExecutedBlock → List VoteResult
  | _, [] => []
  | s, executed :: rest =>
    (core.constructAndSignVote s executed).2 :: core.calls (core.constructAndSignVote s executed).1 rest

def FreshCalls (core : HotstuffCore) : SafetyData → List ExecutedBlock → Prop
  | _, [] => True
  | s, executed :: rest =>
    s.Fresh executed.block.round ∧ core.FreshCalls (core.constructAndSignVote s executed).1 rest

def returned (results : List VoteResult) : List Vote := results.filterMap VoteResult.vote?

def newlySigned (results : List VoteResult) : List Vote := results.filterMap VoteResult.signed?

theorem last_round_lt_of_signed (hfresh : s.Fresh executed.block.round)
    (hchecked : ∀ last, s.lastVote = some last → 0 < last.parentRound →
      last.round ≠ executed.block.round ∧ s.lastVotedRound < executed.block.round)
    {last : Vote} (hlast : s.lastVote = some last) : last.round < executed.block.round := by
  rcases hfresh last hlast with ⟨hparent, hround⟩ | hlt
  · obtain ⟨hne, hlvr⟩ := hchecked last hlast hparent
    rcases hround with heq | hle
    · exact absurd heq hne
    · exact lt_of_le_of_lt hle hlvr
  · exact hlt

/-- What a run of fresh calls from safety data `s` returns: votes signed in strictly increasing
rounds, all above the last vote of `s`, and beside them only the last vote of `s`. -/
structure Ordered (s : SafetyData) (results : List VoteResult) : Prop where
  increasing : (newlySigned results).Pairwise fun u v => u.round < v.round
  above : ∀ last, s.lastVote = some last → ∀ v ∈ newlySigned results, last.round < v.round
  known : ∀ v ∈ returned results, v ∈ newlySigned results ∨ s.lastVote = some v

theorem Ordered.nil : Ordered s [] := by
  constructor <;> simp [newlySigned, returned]

theorem Ordered.cons {s' : SafetyData} {result : VoteResult} {results : List VoteResult}
    (hfresh : s.Fresh executed.block.round) (hcall : Outcome core s executed s' result)
    (hrest : Ordered s' results) : Ordered s (result :: results) := by
  cases hcall with
  | failed hlast =>
    exact ⟨hrest.increasing, fun last h => hrest.above last (hlast.trans h),
      fun v hv => hlast ▸ hrest.known v hv⟩
  | lastVote hlast hlast' =>
    refine ⟨hrest.increasing, fun last h => hrest.above last (hlast'.trans (hlast.symm.trans h)), ?_⟩
    intro v hv
    rcases List.mem_cons.mp hv with rfl | hv
    · exact .inr hlast
    · rcases hrest.known v hv with hnew | hold
      · exact .inl hnew
      · exact .inr (hlast.trans (hlast'.symm.trans hold))
  | @signed voteData hext hlast' hchecked =>
    set vote := core.newVote voteData (constructLedgerInfo executed.block) with hvote
    have hround : vote.round = executed.block.round := (votesFor_of_extensionCheck hext).2.round
    have hlater : ∀ v ∈ newlySigned results, vote.round < v.round := hrest.above vote hlast'
    refine ⟨List.pairwise_cons.mpr ⟨hlater, hrest.increasing⟩, ?_, ?_⟩
    · intro last hlast v hv
      have hlt : last.round < vote.round := hround ▸ last_round_lt_of_signed hfresh hchecked hlast
      rcases List.mem_cons.mp hv with rfl | hv
      · exact hlt
      · exact hlt.trans (hlater v hv)
    · intro v hv
      rcases List.mem_cons.mp hv with rfl | hv
      · exact .inl List.mem_cons_self
      · rcases hrest.known v hv with hnew | hold
        · exact .inl (List.mem_cons_of_mem _ hnew)
        · rw [hlast', Option.some.injEq] at hold
          exact .inl (hold ▸ List.mem_cons_self)

theorem ordered_of_freshCalls (hfresh : core.FreshCalls s blocks) : Ordered s (core.calls s blocks) := by
  induction blocks generalizing s with
  | nil => exact .nil
  | cons executed rest ih =>
    exact .cons hfresh.1 (constructAndSignVote_outcome core s executed) (ih hfresh.2)

/-- In every run of fresh calls after `Initialize`, two votes returned for one round name one block,
and every newly signed vote is of a higher round than all votes signed before it. -/
theorem votes_agree_per_round (core : HotstuffCore) (epoch : Int) (round : Int)
    (blocks : List ExecutedBlock) (hfresh : core.FreshCalls (.initializeAt epoch round) blocks) :
    let results := core.calls (.initializeAt epoch round) blocks
    (∀ u ∈ returned results, ∀ v ∈ returned results, u.round = v.round →
      u.voteData.proposed.id = v.voteData.proposed.id)
    ∧ (newlySigned results).Pairwise (fun u v => u.round < v.round) := by
  have hord := ordered_of_freshCalls hfresh
  refine ⟨?_, hord.increasing⟩
  -- Nothing precedes the first call, so every returned vote was signed in the run.
  have hsigned : ∀ v ∈ returned (core.calls (.initializeAt epoch round) blocks),
      v ∈ newlySigned (core.calls (.initializeAt epoch round) blocks) := by
    intro v hv
    rcases hord.known v hv with hnew | hold
    · exact hnew
    · cases hold
  intro u hu v hv hround
  by_contra hne
  have huv : u ≠ v := fun heq => hne (heq ▸ rfl)
  have hlt : u.round < v.round ∨ v.round < u.round :=
    List.Pairwise.forall_of_forall_of_flip
      (R := fun u v => u ≠ v → u.round < v.round ∨ v.round < u.round) (fun _ _ h => absurd rfl h)
      (hord.increasing.imp fun h _ => .inl h) (hord.increasing.imp fun h _ => .inr h)
      (hsigned u hu) (hsigned v hv) huv
  omega

def emptyProposal (round timestampMsecs : Int) : ExecutedBlock :=
  (Application.idle {}).execute <| Block.newFromBlockData codeHasher (codeVerifier {1, 2, 3, 4} 3 1)
    { round := round, timestampMsecs := timestampMsecs, blockType := .proposal, payload := some {}
      quorumCert := Block.genesisQuorumCert codeHasher {} 0 }

theorem votes_agree_per_round_two_rounds :
    (newlySigned ((idle {1, 2, 3, 4} 3 1).calls (.initializeAt 0 0)
      [emptyProposal 1 10, emptyProposal 2 20])).Pairwise (fun u v => u.round < v.round) :=
  (votes_agree_per_round (idle {1, 2, 3, 4} 3 1) 0 0 [emptyProposal 1 10, emptyProposal 2 20]
    ⟨by decide +kernel, by decide +kernel, trivial⟩).2

/-- Two proposals of round 1 on the genesis certificate both get a vote. -/
theorem two_votes_in_round_one :
    let results := (idle {1, 2, 3, 4} 3 1).calls (.initializeAt 0 0)
      [emptyProposal 1 10, emptyProposal 1 20]
    (¬ ∀ u ∈ returned results, ∀ v ∈ returned results, u.round = v.round →
      u.voteData.proposed.id = v.voteData.proposed.id)
    ∧ ¬ (newlySigned results).Pairwise (fun u v => u.round < v.round) := by
  decide +kernel

end HotstuffCore

end Chainsql.Hotstuff
