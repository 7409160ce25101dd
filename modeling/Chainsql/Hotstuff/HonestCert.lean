import Chainsql.Hotstuff.PendingVotes

/-!
# Certificates of honest votes

A group of validators that trust each other and check each other's signatures. The votes its members
produce are those signed by `constructAndSignVote`, the same votes signed again with another timeout
count, and either with a timeout signature. A certificate aggregated from such votes carries a valid
digest and valid signatures of a quorum; what is left of `QuorumCertificate::Verify` is the comparison
of the voted block with its parent, and that is where producer and checker differ: a nil block has
timestamp 0.
-/

namespace Chainsql.Hotstuff

structure ValidatorGroup where
  hasher : Hasher
  members : Finset Author
  quorum : Nat
  verifier : Author → ValidatorVerifier
  quorum_pos : 0 < quorum
  self_eq : ∀ a ∈ members, (verifier a).self = a
  quorum_eq : ∀ a ∈ members, (verifier a).quorum = quorum
  trusted : ∀ a ∈ members, ∀ b ∈ members, (verifier b).trusted a = true
  verifyDigest : ∀ a ∈ members, ∀ b ∈ members, ∀ digest,
    (verifier b).verifyDigest a digest ((verifier a).signDigest digest) = true

structure HotstuffCore.RunsAs (core : HotstuffCore) (G : ValidatorGroup) (a : Author) : Prop where
  mem : a ∈ G.members
  hasher : core.hasher = G.hasher
  verifier : core.verifier = G.verifier a

/-- The votes the members of the group produce. -/
inductive HonestVote (G : ValidatorGroup) : Vote → Prop where
  | signed {core : HotstuffCore} {a : Author} {s : SafetyData} {executed : ExecutedBlock} {vote : Vote}
      (hcore : core.RunsAs G a) (hvote : (core.constructAndSignVote s executed).2 = .signed vote) :
      HonestVote G vote
  | resigned {core : HotstuffCore} {a : Author} {vote : Vote} (hcore : core.RunsAs G a)
      (hauthor : vote.author = a) (hvote : HonestVote G vote) (tc : Nat) :
      HonestVote G (core.resetVoteTimeoutCount vote tc)
  | timeout {vote : Vote} (hvote : HonestVote G vote) (signature : Signature) :
      HonestVote G (vote.addTimeoutSignature signature)

namespace HonestVote

variable {G : ValidatorGroup} {vote : Vote}

theorem spec (hvote : HonestVote G vote) :
    vote.author ∈ G.members ∧ vote.ledgerInfo.consensusDataHash = vote.voteData.hash G.hasher
    ∧ vote.signature = (G.verifier vote.author).signDigest (vote.voteData.hash G.hasher)
    ∧ ∃ block, vote.voteData.VotesFor block := by
  -- Both signing functions go through `newVote`, which stamps the author, the digest and the signature.
  have hnew : ∀ {core : HotstuffCore} {a : Author} (voteData : VoteData) (ledgerInfo : CommitLedger),
      core.RunsAs G a →
      let vote := core.newVote voteData ledgerInfo
      vote.author ∈ G.members ∧ vote.ledgerInfo.consensusDataHash = vote.voteData.hash G.hasher
      ∧ vote.signature = (G.verifier vote.author).signDigest (vote.voteData.hash G.hasher) := by
    intro core a voteData ledgerInfo hcore
    have hauthor : (core.newVote voteData ledgerInfo).author = a := by
      simp [HotstuffCore.newVote, hcore.verifier, G.self_eq a hcore.mem]
    refine ⟨hauthor ▸ hcore.mem, ?_, ?_⟩
    · simp [HotstuffCore.newVote, hcore.hasher]
    · rw [hauthor]
      simp [HotstuffCore.newVote, hcore.hasher, hcore.verifier]
  induction hvote with
  | @signed core a s executed vote hcore hvote =>
    have houtcome := HotstuffCore.constructAndSignVote_outcome core s executed
    generalize core.constructAndSignVote s executed = call at houtcome hvote
    obtain ⟨s', result⟩ := call
    cases houtcome with
    | failed => cases hvote
    | lastVote => cases hvote
    | @signed voteData hext =>
      cases hvote
      obtain ⟨hauthor, hhash, hsig⟩ := hnew voteData (HotstuffCore.constructLedgerInfo executed.block) hcore
      exact ⟨hauthor, hhash, hsig, executed.block, (HotstuffCore.votesFor_of_extensionCheck hext).2⟩
  | @resigned core a vote hcore hauthor hvote tc ih =>
    obtain ⟨-, -, -, block, hblock⟩ := ih
    obtain ⟨hauthor', hhash, hsig⟩ := hnew { vote.voteData with tc := tc } vote.ledgerInfo hcore
    exact ⟨hauthor', hhash, hsig, block,
      ⟨hblock.id, hblock.epoch, hblock.round, hblock.timestamp, hblock.version, hblock.parent⟩⟩
  | timeout hvote signature ih =>
    obtain ⟨hauthor, hhash, hsig, block, hblock⟩ := ih
    exact ⟨hauthor, hhash, hsig, block,
      ⟨hblock.id, hblock.epoch, hblock.round, hblock.timestamp, hblock.version, hblock.parent⟩⟩

end HonestVote

namespace PendingVotes

def insertAll (v : ValidatorVerifier) (votes : List Vote) : PendingVotes :=
  votes.foldl (fun p vote => (p.insertVote v vote).1) {}

theorem from_insertAll {P : Vote → Prop} (v : ValidatorVerifier) {votes : List Vote}
    (hvotes : ∀ vote ∈ votes, P vote) : (insertAll v votes).From P := by
  suffices ∀ p : PendingVotes, p.From P →
      (votes.foldl (fun p vote => (p.insertVote v vote).1) p).From P from this {} .empty
  induction votes with
  | nil => exact fun p hp => hp
  | cons vote votes ih =>
    intro p hp
    exact ih (fun u hu => hvotes u (List.mem_cons_of_mem _ hu)) _
      (hp.insertVote (hvotes vote List.mem_cons_self) v).1

end PendingVotes

namespace ValidatorGroup

variable {G : ValidatorGroup} {vote : Vote} {qc : QuorumCertificate} {b c : Author}

theorem aggregated_signatures (hvote : HonestVote G vote) (hb : b ∈ G.members) (hc : c ∈ G.members)
    (hqc : PendingVotes.Aggregated (HonestVote G) (G.verifier b) vote qc) :
    qc.consensusDataHash = qc.voteData.hash G.hasher
    ∧ qc.signedLedgerInfo.verify (G.verifier c) = true := by
  have hdigest : vote.ledgerInfo.consensusDataHash = qc.voteData.hash G.hasher := by
    rw [hqc.voteData]
    exact hvote.spec.2.1
  have hhash : qc.consensusDataHash = qc.voteData.hash G.hasher := by
    obtain ⟨u, -, hu, hledger⟩ := hqc.ledger
    rw [QuorumCertificate.consensusDataHash, hledger, hu, hdigest]
  refine ⟨hhash, ?_⟩
  unfold LedgerInfoWithSignatures.verify ValidatorVerifier.verifyLedgerInfo
  rw [Bool.and_eq_true, List.all_eq_true]
  constructor
  · rintro ⟨a, sig⟩ he
    obtain ⟨u, hu, hudigest, rfl, rfl⟩ := hqc.signatures a sig (AList.mem_lookup_iff.mpr he)
    obtain ⟨hmem, huhash, husig, -⟩ := hu.spec
    have hsame : u.voteData.hash G.hasher = qc.consensusDataHash := by
      rw [hhash, ← huhash, hudigest, hdigest]
    rw [Bool.and_eq_true]
    refine ⟨G.trusted _ hmem _ hc, ?_⟩
    rw [husig, hsame]
    exact G.verifyDigest _ hmem _ hc _
  · have hquorum := hqc.quorum
    rw [G.quorum_eq b hb] at hquorum
    rw [G.quorum_eq c hc]
    exact decide_eq_true (not_lt.mpr hquorum)

/-- A certificate that a member aggregates from honest votes passes `Verify` at every member exactly
when the block of the vote that completes it is not of round 0 and compares with its parent as
`VoteData::Verify` asks: same epoch, higher round, a timestamp and a version that are not lower. -/
theorem honest_certificate_verify_iff (hb : b ∈ G.members) {votes : List Vote}
    (hvotes : ∀ u ∈ votes, HonestVote G u) (hvote : HonestVote G vote)
    (hqc : ((PendingVotes.insertAll (G.verifier b) votes).insertVote (G.verifier b) vote).2
      = .newQuorumCertificate qc) :
    ∃ block, vote.voteData.VotesFor block
      ∧ ∀ c ∈ G.members, (qc.verify G.hasher (G.verifier c) = true ↔
        block.round ≠ 0 ∧ block.quorumCert.certifiedBlock.epoch = block.epoch
        ∧ block.quorumCert.certifiedBlock.round < block.round
        ∧ block.quorumCert.certifiedBlock.timestampMsecs ≤ block.blockData.timestampMsecs
        ∧ block.quorumCert.certifiedBlock.version ≤ 0) := by
  have hagg := ((PendingVotes.from_insertAll (G.verifier b) hvotes).insertVote hvote (G.verifier b)).2 qc hqc
  obtain ⟨-, -, -, block, hblock⟩ := hvote.spec
  refine ⟨block, hblock, fun c hc => ?_⟩
  obtain ⟨hhash, hsigs⟩ := aggregated_signatures hvote hb hc hagg
  have hround : qc.certifiedBlock.round = block.round := by
    rw [QuorumCertificate.certifiedBlock, hagg.voteData, hblock.round]
  have hsize : qc.signatures.size ≠ 0 := by
    have hquorum := hagg.quorum
    rw [G.quorum_eq b hb] at hquorum
    have := G.quorum_pos
    omega
  rw [QuorumCertificate.verify_iff, hround, hagg.voteData, VoteData.verify_iff, hblock.epoch, hblock.round,
    hblock.timestamp, hblock.version, hblock.parent]
  constructor
  · rintro ⟨-, hzero, hpos⟩
    have hne : block.round ≠ 0 := fun h => hsize (hzero h).2.2
    exact ⟨hne, (hpos hne).2⟩
  · rintro ⟨hne, hdata⟩
    exact ⟨hagg.voteData ▸ hhash, fun h => absurd h hne, fun _ => ⟨hsigs, hdata⟩⟩

def four : ValidatorGroup where
  hasher := codeHasher
  members := {1, 2, 3, 4}
  quorum := 3
  verifier := codeVerifier {1, 2, 3, 4} 3
  quorum_pos := by decide
  self_eq := fun _ _ => rfl
  quorum_eq := fun _ _ => rfl
  trusted := fun _ ha _ _ => decide_eq_true ha
  verifyDigest := fun a _ b _ => codeVerifier_verifyDigest {1, 2, 3, 4} 3 a b

def voteOf (executed : ExecutedBlock) (a : Author) : Vote :=
  ((HotstuffCore.idle {1, 2, 3, 4} 3 a).constructAndSignVote (.initializeAt 0 0) executed).2.vote?.getD {}

def certOf (executed : ExecutedBlock) : QuorumCertificate :=
  match ((PendingVotes.insertAll (four.verifier 4) [voteOf executed 1, voteOf executed 2]).insertVote
    (four.verifier 4) (voteOf executed 3)).2 with
  | .newQuorumCertificate qc => qc
  | _ => {}

def roundOneProposal : ExecutedBlock :=
  (Application.idle {}).execute <| Block.newFromBlockData codeHasher (codeVerifier {1, 2, 3, 4} 3 1)
    { round := 1, timestampMsecs := 10, blockType := .proposal, payload := some {}
      quorumCert := Block.genesisQuorumCert codeHasher {} 0 }

def roundTwoNil : ExecutedBlock :=
  (Application.idle {}).execute (Block.nilBlock codeHasher 2 (certOf roundOneProposal))

theorem honestVote_roundOneProposal {a : Author} (ha : a ∈ four.members)
    (hsigned : ((HotstuffCore.idle {1, 2, 3, 4} 3 a).constructAndSignVote (.initializeAt 0 0)
      roundOneProposal).2 = .signed (voteOf roundOneProposal a)) :
    HonestVote four (voteOf roundOneProposal a) :=
  .signed ⟨ha, rfl, rfl⟩ hsigned

theorem honest_certificate_verify_round_one :
    ∃ block, (voteOf roundOneProposal 3).voteData.VotesFor block
      ∧ ∀ c ∈ four.members, ((certOf roundOneProposal).verify codeHasher (four.verifier c) = true ↔
        block.round ≠ 0 ∧ block.quorumCert.certifiedBlock.epoch = block.epoch
        ∧ block.quorumCert.certifiedBlock.round < block.round
        ∧ block.quorumCert.certifiedBlock.timestampMsecs ≤ block.blockData.timestampMsecs
        ∧ block.quorumCert.certifiedBlock.version ≤ 0) :=
  @honest_certificate_verify_iff four (voteOf roundOneProposal 3) (certOf roundOneProposal) 4 (by decide)
    [voteOf roundOneProposal 1, voteOf roundOneProposal 2]
    (by
      intro u hu
      rcases List.mem_pair.mp hu with rfl | rfl
      · exact honestVote_roundOneProposal (by decide) rfl
      · exact honestVote_roundOneProposal (by decide) rfl)
    (honestVote_roundOneProposal (by decide) rfl) rfl

/-- Three honest validators vote for the nil block that follows a proposal with a positive timestamp.
The certificate of their votes is returned by `insertVote` and verifies nowhere. -/
theorem nil_certificate_rejected :
    (∀ c ∈ four.members, (certOf roundOneProposal).verify codeHasher (four.verifier c) = true)
    ∧ (∀ a ∈ four.members, ((HotstuffCore.idle {1, 2, 3, 4} 3 a).constructAndSignVote
        (.initializeAt 0 0) roundTwoNil).2.signed?.isSome = true)
    ∧ (certOf roundTwoNil).certifiedBlock.id = roundTwoNil.block.id
    ∧ (certOf roundTwoNil).signatures.keys = [3, 2, 1]
    ∧ ∀ c ∈ four.members, (certOf roundTwoNil).verify codeHasher (four.verifier c) = false := by
  decide +kernel

end ValidatorGroup

end Chainsql.Hotstuff
