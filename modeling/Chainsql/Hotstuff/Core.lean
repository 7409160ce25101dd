import Chainsql.Hotstuff.Block

/-!
# The voting rule

`HotstuffCore`: the safety data of a validator and `ConstructAndSignVote`, which decides whether the
validator votes for a block. The function updates the safety data on its way: the preferred round and
the last voted round stay updated even when a later check fails.
-/

namespace Chainsql.Hotstuff

structure Vote where
  voteData : VoteData := {}
  author : Author := noneAuthor
  ledgerInfo : CommitLedger := {}
  signature : Signature := 0
  timeoutSignature : Option Signature := none
deriving DecidableEq, Repr, Inhabited

namespace Vote

def isTimeout (vote : Vote) : Bool := vote.timeoutSignature.isSome

def timeout (vote : Vote) : Timeout :=
  { epoch := vote.voteData.proposed.epoch, round := vote.voteData.proposed.round }

def addTimeoutSignature (vote : Vote) (signature : Signature) : Vote :=
  { vote with timeoutSignature := some signature }

def round (vote : Vote) : Int := vote.voteData.proposed.round

def parentRound (vote : Vote) : Int := vote.voteData.parent.round

end Vote

/-- The block the vote data is for: its own data and the parent its certificate names. -/
structure VoteData.VotesFor (voteData : VoteData) (block : Block) : Prop where
  id : voteData.proposed.id = block.id
  epoch : voteData.proposed.epoch = block.epoch
  round : voteData.proposed.round = block.round
  timestamp : voteData.proposed.timestampMsecs = block.blockData.timestampMsecs
  version : voteData.proposed.version = 0
  parent : voteData.parent = block.quorumCert.certifiedBlock

structure SafetyData where
  epoch : Int := 0
  lastVotedRound : Int := 0
  preferredRound : Int := 0
  lastVote : Option Vote := none
deriving Inhabited

def SafetyData.initializeAt (epoch : Int) (round : Int) : SafetyData :=
  { epoch := epoch, lastVotedRound := round, preferredRound := round, lastVote := none }

structure HotstuffCore where
  hasher : Hasher
  epoch : Int
  verifier : ValidatorVerifier
  verify : Block → StateComputeResult → Bool

/-- The outcome of `ConstructAndSignVote`: no vote, the last vote sent back, or a vote newly signed. -/
inductive VoteResult where
  | failed
  | lastVote (vote : Vote)
  | signed (vote : Vote)

namespace VoteResult

def vote? : VoteResult → Option Vote
  | failed => none
  | lastVote vote => some vote
  | signed vote => some vote

def signed? : VoteResult → Option Vote
  | signed vote => some vote
  | _ => none

end VoteResult

namespace HotstuffCore

variable (core : HotstuffCore)

def verifyEpoch (epoch : Int) : Bool := core.epoch == epoch

def verifyQC (qc : QuorumCertificate) : Bool :=
  let hash := qc.voteData.hash core.hasher
  if qc.certifiedBlock.round > 0 ∧ qc.consensusDataHash ≠ hash then false
  else qc.signatures.entries.all fun e => core.verifier.verifySignature e.1 e.2 hash

def verifyAndUpdatePreferredRound (s : SafetyData) (qc : QuorumCertificate) : Option SafetyData :=
  if qc.certifiedBlock.round < s.preferredRound then none
  else if qc.parentBlock.round > s.preferredRound then
    some { s with preferredRound := qc.parentBlock.round }
  else some s

def verifyAndUpdateLastVoteRound (s : SafetyData) (round : Int) : Option SafetyData :=
  if round > s.lastVotedRound then some { s with lastVotedRound := round } else none

def extensionCheck (executed : ExecutedBlock) : Option VoteData :=
  let result := executed.stateComputeResult
  let qc := executed.block.quorumCert
  if core.verify executed.block result = false then none
  else some
    { proposed := executed.block.genBlockInfo result.ledgerInfo result.epochState
      parent := qc.certifiedBlock
      tc := qc.voteData.tc }

/-- The commit decision of a vote: the grandparent of the block, when the three rounds are
consecutive. The digest is filled in when the vote is signed. -/
def constructLedgerInfo (block : Block) : CommitLedger :=
  let block2 := block.round
  let block1 := block.quorumCert.certifiedBlock.round
  let block0 := block.quorumCert.parentBlock.round
  if block0 + 1 = block1 ∧ block1 + 1 = block2 then
    { commitInfo := block.quorumCert.parentBlock }
  else {}

def newVote (voteData : VoteData) (ledgerInfo : CommitLedger) : Vote :=
  let hash := voteData.hash core.hasher
  { voteData := voteData
    author := core.verifier.self
    ledgerInfo := { ledgerInfo with consensusDataHash := hash }
    signature := core.verifier.signDigest hash }

def signVote (s : SafetyData) (executed : ExecutedBlock) : SafetyData × VoteResult :=
  match core.extensionCheck executed with
  | none => (s, .failed)
  | some voteData =>
    let vote := core.newVote voteData (constructLedgerInfo executed.block)
    ({ s with lastVote := some vote }, .signed vote)

/-- The part after the preferred round is updated. The last voted round is checked and recorded only
when there is a last vote and its parent is past round 0. -/
def voteOnRound (s : SafetyData) (executed : ExecutedBlock) : SafetyData × VoteResult :=
  let round := executed.block.round
  match s.lastVote with
  | none => core.signVote s executed
  | some last =>
    if last.parentRound > 0 then
      if last.round = round then ({ s with lastVotedRound := round }, .lastVote last)
      else match verifyAndUpdateLastVoteRound s round with
        | none => (s, .failed)
        | some s => core.signVote s executed
    else core.signVote s executed

def constructAndSignVote (s : SafetyData) (executed : ExecutedBlock) : SafetyData × VoteResult :=
  if core.verifyEpoch executed.block.epoch = false then (s, .failed)
  else if core.verifyQC executed.block.quorumCert = false then (s, .failed)
  else match verifyAndUpdatePreferredRound s executed.block.quorumCert with
    | none => (s, .failed)
    | some s => core.voteOnRound s executed

-- The vote with another timeout count, signed again. The timeout signature is dropped.
def resetVoteTimeoutCount (vote : Vote) (tc : Nat) : Vote :=
  core.newVote { vote.voteData with tc := tc } vote.ledgerInfo

/-- The refused proposal is the empty block, which the caller does not tell from a signed one. -/
def signProposal (s : SafetyData) (proposal : BlockData) : Block :=
  if core.verifyEpoch proposal.epoch = false then Block.empty
  else if proposal.round ≤ s.lastVotedRound then Block.empty
  else Block.newFromBlockData core.hasher core.verifier proposal

/-! ## What a call can do -/

variable {core} {s : SafetyData} {executed : ExecutedBlock}

theorem verifyQC_iff {qc : QuorumCertificate} :
    core.verifyQC qc = true ↔
      (0 < qc.certifiedBlock.round → qc.consensusDataHash = qc.voteData.hash core.hasher)
      ∧ ∀ e ∈ qc.signatures.entries, core.verifier.trusted e.1 = true
        ∧ core.verifier.verifyDigest e.1 (qc.voteData.hash core.hasher) e.2 = true := by
  have hsig : ∀ (e : Sigma fun _ : Author => Signature) (digest : HashValue),
      core.verifier.verifySignature e.1 e.2 digest = true
        ↔ core.verifier.trusted e.1 = true ∧ core.verifier.verifyDigest e.1 digest e.2 = true := by
    intro e digest
    unfold ValidatorVerifier.verifySignature
    split <;> simp_all
  unfold verifyQC
  dsimp only
  split
  case isTrue hbad =>
    refine ⟨fun hfalse => absurd hfalse (by simp), fun hok => absurd (hok.1 hbad.1) hbad.2⟩
  case isFalse hgood =>
    have hhash : 0 < qc.certifiedBlock.round → qc.consensusDataHash = qc.voteData.hash core.hasher := by
      intro hpos
      by_contra hne
      exact hgood ⟨hpos, hne⟩
    simp only [List.all_eq_true, hsig]
    exact ⟨fun hall => ⟨hhash, hall⟩, fun hall => hall.2⟩

theorem votesFor_of_extensionCheck {voteData : VoteData}
    (hext : core.extensionCheck executed = some voteData) :
    core.verify executed.block executed.stateComputeResult = true
    ∧ voteData.VotesFor executed.block := by
  unfold extensionCheck at hext
  dsimp only at hext
  split at hext
  · cases hext
  next hverify =>
    cases hext
    exact ⟨by simpa using hverify, rfl, rfl, rfl, rfl, rfl, rfl⟩

theorem verifyAndUpdatePreferredRound_spec {qc : QuorumCertificate} {s' : SafetyData}
    (hs : verifyAndUpdatePreferredRound s qc = some s') :
    s'.lastVote = s.lastVote ∧ s'.lastVotedRound = s.lastVotedRound ∧ s'.epoch = s.epoch := by
  unfold verifyAndUpdatePreferredRound at hs
  split at hs
  · cases hs
  · split at hs <;> cases hs <;> exact ⟨rfl, rfl, rfl⟩

inductive Outcome (core : HotstuffCore) (s : SafetyData) (executed : ExecutedBlock) :
    SafetyData → VoteResult → Prop where
  | failed {s' : SafetyData} (hlast : s'.lastVote = s.lastVote) : Outcome core s executed s' .failed
  | lastVote {s' : SafetyData} {last : Vote} (hlast : s.lastVote = some last)
      (hlast' : s'.lastVote = some last) (hparent : 0 < last.parentRound)
      (hround : last.round = executed.block.round)
      (hqc : core.verifyQC executed.block.quorumCert = true) :
      Outcome core s executed s' (.lastVote last)
  | signed {s' : SafetyData} {voteData : VoteData} (hext : core.extensionCheck executed = some voteData)
      (hlast' : s'.lastVote = some (core.newVote voteData (constructLedgerInfo executed.block)))
      (hchecked : ∀ last, s.lastVote = some last → 0 < last.parentRound →
        last.round ≠ executed.block.round ∧ s.lastVotedRound < executed.block.round)
      (hqc : core.verifyQC executed.block.quorumCert = true)
      (hepoch : core.epoch = executed.block.epoch) :
      Outcome core s executed s' (.signed (core.newVote voteData (constructLedgerInfo executed.block)))

theorem voteOnRound_outcome (hqc : core.verifyQC executed.block.quorumCert = true)
    (hepoch : core.epoch = executed.block.epoch) :
    Outcome core s executed (core.voteOnRound s executed).1 (core.voteOnRound s executed).2 := by
  -- Signing from safety data `t` that still holds the last vote of `s`.
  have hsign : ∀ t : SafetyData, t.lastVote = s.lastVote →
      (∀ last, s.lastVote = some last → 0 < last.parentRound →
        last.round ≠ executed.block.round ∧ s.lastVotedRound < executed.block.round) →
      Outcome core s executed (core.signVote t executed).1 (core.signVote t executed).2 := by
    intro t ht hchecked
    unfold signVote
    cases hext : core.extensionCheck executed with
    | none => exact .failed ht
    | some voteData => exact .signed hext rfl hchecked hqc hepoch
  unfold voteOnRound
  cases hlast : s.lastVote with
  | none => exact hsign s rfl (by simp [hlast])
  | some last =>
    dsimp only
    by_cases hparent : last.parentRound > 0
    · rw [if_pos hparent]
      by_cases hround : last.round = executed.block.round
      · rw [if_pos hround]
        exact .lastVote hlast rfl hparent hround hqc
      · rw [if_neg hround]
        unfold verifyAndUpdateLastVoteRound
        by_cases hgt : executed.block.round > s.lastVotedRound
        · rw [if_pos hgt]
          refine hsign { s with lastVotedRound := executed.block.round } rfl ?_
          intro last' hlast' _
          rw [hlast, Option.some.injEq] at hlast'
          subst hlast'
          exact ⟨hround, hgt⟩
        · rw [if_neg hgt]
          exact .failed rfl
    · rw [if_neg hparent]
      refine hsign s rfl ?_
      intro last' hlast' hparent'
      rw [hlast, Option.some.injEq] at hlast'
      exact absurd (hlast' ▸ hparent') hparent

theorem constructAndSignVote_outcome (core : HotstuffCore) (s : SafetyData) (executed : ExecutedBlock) :
    Outcome core s executed (core.constructAndSignVote s executed).1
      (core.constructAndSignVote s executed).2 := by
  unfold constructAndSignVote
  split
  · exact .failed rfl
  next hepoch =>
    split
    · exact .failed rfl
    next hqc =>
      have hqc' : core.verifyQC executed.block.quorumCert = true := by simpa using hqc
      have hepoch' : core.epoch = executed.block.epoch := by simpa [verifyEpoch] using hepoch
      cases hpref : verifyAndUpdatePreferredRound s executed.block.quorumCert with
      | none => exact .failed rfl
      | some t =>
        obtain ⟨hlast, hlvr, -⟩ := verifyAndUpdatePreferredRound_spec hpref
        -- The rest of the call sees `t`, which differs from `s` in the preferred round only.
        have hrest := voteOnRound_outcome (s := t) hqc' hepoch'
        dsimp only
        generalize core.voteOnRound t executed = rest at hrest ⊢
        obtain ⟨s', result⟩ := rest
        cases hrest with
        | failed h => exact .failed (h.trans hlast)
        | lastVote h h' hparent hround hqc => exact .lastVote (hlast ▸ h) h' hparent hround hqc
        | signed hext h' hchecked hqc hepoch =>
          exact .signed hext h' (fun last h => hlvr ▸ hchecked last (hlast.trans h)) hqc hepoch

/-- A validator votes for a block only if every signature the block's certificate carries is by a
trusted key, no key twice, and valid for the digest of the certified vote data. How many signatures
there are is not checked. -/
theorem vote_certificate_signatures {vote : Vote}
    (hvote : (core.constructAndSignVote s executed).2.vote? = some vote) :
    let qc := executed.block.quorumCert
    (0 < qc.certifiedBlock.round → qc.consensusDataHash = qc.voteData.hash core.hasher)
    ∧ qc.signatures.keys.Nodup
    ∧ ∀ e ∈ qc.signatures.entries, core.verifier.trusted e.1 = true
      ∧ core.verifier.verifyDigest e.1 (qc.voteData.hash core.hasher) e.2 = true := by
  have hqc : core.verifyQC executed.block.quorumCert = true := by
    have houtcome := constructAndSignVote_outcome core s executed
    generalize core.constructAndSignVote s executed = call at houtcome hvote
    obtain ⟨s', result⟩ := call
    cases houtcome with
    | failed => cases hvote
    | lastVote _ _ _ _ hqc => exact hqc
    | signed _ _ _ hqc => exact hqc
  obtain ⟨hhash, hsigs⟩ := verifyQC_iff.mp hqc
  exact ⟨hhash, AList.keys_nodup _, hsigs⟩

def idle (validators : Finset Author) (quorum : Nat) (self : Author) : HotstuffCore where
  hasher := codeHasher
  epoch := 0
  verifier := codeVerifier validators quorum self
  verify := (Application.idle {}).verify

def roundFiveQC (signers : List Author) : QuorumCertificate :=
  let voteData : VoteData :=
    { proposed := { round := 5, id := 55 }, parent := { round := 4, id := 44 } }
  let hash := voteData.hash codeHasher
  { voteData := voteData
    signedLedgerInfo :=
      { ledgerInfo := { consensusDataHash := hash }
        signatures := signers.foldr (fun a sigs => sigs.insert a (Nat.pair a hash)) ∅ } }

theorem vote_certificate_signatures_three_signers :
    (roundFiveQC [1, 2, 3]).signatures.keys.Nodup
    ∧ ∀ e ∈ (roundFiveQC [1, 2, 3]).signatures.entries,
      (idle {1, 2, 3, 4} 3 1).verifier.trusted e.1 = true
      ∧ (idle {1, 2, 3, 4} 3 1).verifier.verifyDigest e.1
        ((roundFiveQC [1, 2, 3]).voteData.hash codeHasher) e.2 = true :=
  (@vote_certificate_signatures (idle {1, 2, 3, 4} 3 1) (.initializeAt 0 0)
    ((Application.idle {}).execute (Block.nilBlock codeHasher 6 (roundFiveQC [1, 2, 3]))) _ rfl).2

/-- With quorum 3, a block on a certificate for round 5 that nobody signed gets a vote, and the vote
names the uncertified grandparent as its commit decision. -/
theorem vote_on_unsigned_certificate :
    let core := idle {1, 2, 3, 4} 3 1
    let block := Block.nilBlock codeHasher 6 (roundFiveQC [])
    let call := core.constructAndSignVote (.initializeAt 0 0) ((Application.idle {}).execute block)
    block.quorumCert.certifiedBlock.round = 5
    ∧ block.quorumCert.signatures.size = 0 ∧ core.verifier.quorum = 3
    ∧ call.2.signed?.map (·.ledgerInfo.commitInfo.id) = some 44
    ∧ call.1.preferredRound = 4 := by
  decide +kernel

end HotstuffCore

end Chainsql.Hotstuff
