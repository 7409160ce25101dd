import Chainsql.Hotstuff.Core
import Chainsql.Hotstuff.BlockStorage

/-!
# Collecting votes

`PendingVotes` collects the votes of one round into certificates; `RoundState` holds the current
round, its pending votes and the vote this node has sent in it. The aggregation of timeout
certificates is commented out in the source.
-/

namespace Chainsql.Hotstuff

structure PendingVotes where
  authorToVote : AList (fun _ : Author => Vote) := ∅
  liDigestToVotes : AList (fun _ : HashValue => LedgerInfoWithSignatures) := ∅
  quorumCertificateRecord : AList (fun _ : HashValue => QuorumCertificate) := ∅
  -- Votes for blocks this node does not have yet.
  cacheVotes : AList (fun _ : HashValue => List Vote) := ∅
deriving Inhabited

inductive VoteReceptionResult where
  | voteAdded
  | duplicateVote
  | equivocateVote
  | newQuorumCertificate (qc : QuorumCertificate)
  | qcHasAlreadyProcessed

namespace PendingVotes

/-- Why a vote of an author who has voted before is refused, if it is. A vote with another timeout
count, or one that adds a timeout signature, replaces the previous vote. -/
def refuseSeen (p : PendingVotes) (vote : Vote) : Option VoteReceptionResult :=
  match p.authorToVote.lookup vote.author with
  | none => none
  | some seen =>
    if vote.voteData.tc ≠ seen.voteData.tc then none
    else if vote.ledgerInfo.consensusDataHash ≠ seen.ledgerInfo.consensusDataHash then
      some .equivocateVote
    else if seen.isTimeout || !vote.isTimeout then some .duplicateVote
    else none

/-- The signatures collected for the digest of `vote`, with its own added. The commit decision is
that of the first vote for the digest. -/
def collect (p : PendingVotes) (vote : Vote) : LedgerInfoWithSignatures :=
  ((p.liDigestToVotes.lookup vote.ledgerInfo.consensusDataHash).getD
    { ledgerInfo := vote.ledgerInfo }).addSignature vote.author vote.signature

def storeVote (p : PendingVotes) (vote : Vote) : PendingVotes :=
  { p with
    authorToVote := p.authorToVote.insert vote.author vote
    liDigestToVotes := p.liDigestToVotes.insert vote.ledgerInfo.consensusDataHash (p.collect vote) }

def insertVote (p : PendingVotes) (v : ValidatorVerifier) (vote : Vote) :
    PendingVotes × VoteReceptionResult :=
  let digest := vote.ledgerInfo.consensusDataHash
  if digest ∈ p.quorumCertificateRecord then (p, .qcHasAlreadyProcessed)
  else match p.refuseSeen vote with
    | some refusal => (p, refusal)
    | none =>
      let stored := p.storeVote vote
      if v.checkVotingPower (p.collect vote).signatures then
        let qc : QuorumCertificate := { voteData := vote.voteData, signedLedgerInfo := p.collect vote }
        ({ stored with quorumCertificateRecord := p.quorumCertificateRecord.emplace digest qc },
          .newQuorumCertificate qc)
      else (stored, .voteAdded)

def cacheVote (p : PendingVotes) (vote : Vote) : PendingVotes :=
  let id := vote.voteData.proposed.id
  { p with cacheVotes := p.cacheVotes.insert id ((p.cacheVotes.lookup id).getD [] ++ [vote]) }

def getAndRemoveCachedVotes (p : PendingVotes) (id : HashValue) : PendingVotes × List Vote :=
  match p.cacheVotes.lookup id with
  | some votes => ({ p with cacheVotes := p.cacheVotes.insert id [] }, votes)
  | none => (p, [])

/-! ## Where the content of the pending votes comes from -/

structure From (P : Vote → Prop) (p : PendingVotes) : Prop where
  ledger : ∀ digest l, p.liDigestToVotes.lookup digest = some l →
    ∃ u, P u ∧ u.ledgerInfo.consensusDataHash = digest ∧ l.ledgerInfo = u.ledgerInfo
  signatures : ∀ digest l, p.liDigestToVotes.lookup digest = some l →
    ∀ a sig, l.signatures.lookup a = some sig →
      ∃ u, P u ∧ u.ledgerInfo.consensusDataHash = digest ∧ u.author = a ∧ u.signature = sig
  cached : ∀ id votes, p.cacheVotes.lookup id = some votes → ∀ u ∈ votes, P u

structure Aggregated (P : Vote → Prop) (v : ValidatorVerifier) (vote : Vote) (qc : QuorumCertificate) :
    Prop where
  voteData : qc.voteData = vote.voteData
  ledger : ∃ u, P u ∧ u.ledgerInfo.consensusDataHash = vote.ledgerInfo.consensusDataHash
    ∧ qc.signedLedgerInfo.ledgerInfo = u.ledgerInfo
  signatures : ∀ a sig, qc.signatures.lookup a = some sig →
    ∃ u, P u ∧ u.ledgerInfo.consensusDataHash = vote.ledgerInfo.consensusDataHash ∧ u.author = a
      ∧ u.signature = sig
  quorum : v.quorum ≤ qc.signatures.size
  signed : qc.signatures.lookup vote.author = some vote.signature

variable {P : Vote → Prop} {p : PendingVotes} {vote : Vote} {v : ValidatorVerifier}

theorem From.empty : From P {} := by
  constructor <;> simp

theorem From.collect_ledger (hp : p.From P) (hvote : P vote) :
    ∃ u, P u ∧ u.ledgerInfo.consensusDataHash = vote.ledgerInfo.consensusDataHash
      ∧ (p.collect vote).ledgerInfo = u.ledgerInfo := by
  unfold collect
  cases hl : p.liDigestToVotes.lookup vote.ledgerInfo.consensusDataHash with
  | none => exact ⟨vote, hvote, rfl, rfl⟩
  | some l => exact hp.ledger _ l hl

theorem From.collect_signatures (hp : p.From P) (hvote : P vote) {a : Author} {sig : Signature}
    (ha : (p.collect vote).signatures.lookup a = some sig) :
    ∃ u, P u ∧ u.ledgerInfo.consensusDataHash = vote.ledgerInfo.consensusDataHash ∧ u.author = a
      ∧ u.signature = sig := by
  unfold collect LedgerInfoWithSignatures.addSignature at ha
  by_cases hown : a = vote.author
  · subst hown
    rw [AList.lookup_insert, Option.some.injEq] at ha
    exact ⟨vote, hvote, rfl, rfl, ha⟩
  · rw [AList.lookup_insert_ne hown] at ha
    cases hl : p.liDigestToVotes.lookup vote.ledgerInfo.consensusDataHash with
    | none => simp [hl] at ha
    | some l =>
      rw [hl] at ha
      exact hp.signatures _ l hl a sig ha

theorem From.storeVote (hp : p.From P) (hvote : P vote) : (p.storeVote vote).From P := by
  refine ⟨?_, ?_, hp.cached⟩
  · intro digest l hl
    by_cases hd : digest = vote.ledgerInfo.consensusDataHash
    · subst hd
      rw [PendingVotes.storeVote, AList.lookup_insert, Option.some.injEq] at hl
      subst hl
      exact hp.collect_ledger hvote
    · rw [PendingVotes.storeVote, AList.lookup_insert_ne hd] at hl
      exact hp.ledger digest l hl
  · intro digest l hl a sig ha
    by_cases hd : digest = vote.ledgerInfo.consensusDataHash
    · subst hd
      rw [PendingVotes.storeVote, AList.lookup_insert, Option.some.injEq] at hl
      subst hl
      exact hp.collect_signatures hvote ha
    · rw [PendingVotes.storeVote, AList.lookup_insert_ne hd] at hl
      exact hp.signatures digest l hl a sig ha

/-- Inserting a vote keeps the origin of the pending votes, and a certificate that results is
aggregated from votes of that origin. -/
theorem From.insertVote (hp : p.From P) (hvote : P vote) (v : ValidatorVerifier) :
    (p.insertVote v vote).1.From P
    ∧ ∀ qc, (p.insertVote v vote).2 = .newQuorumCertificate qc → Aggregated P v vote qc := by
  unfold PendingVotes.insertVote
  dsimp only
  split
  · exact ⟨hp, fun qc h => by cases h⟩
  · cases hseen : p.refuseSeen vote with
    | some refusal =>
      refine ⟨hp, fun qc h => ?_⟩
      unfold refuseSeen at hseen
      grind
    | none =>
      have hstored := hp.storeVote hvote
      dsimp only
      split
      next hpower =>
        refine ⟨⟨hstored.ledger, hstored.signatures, hstored.cached⟩, fun qc h => ?_⟩
        cases h
        refine ⟨rfl, hp.collect_ledger hvote, fun a sig => hp.collect_signatures hvote, ?_, ?_⟩
        · exact of_decide_eq_true hpower
        · exact AList.lookup_insert _
      · exact ⟨hstored, fun qc h => by cases h⟩

theorem From.cacheVote (hp : p.From P) (hvote : P vote) : (p.cacheVote vote).From P := by
  refine ⟨hp.ledger, hp.signatures, ?_⟩
  intro id votes hvotes u hu
  unfold PendingVotes.cacheVote at hvotes
  by_cases hid : id = vote.voteData.proposed.id
  · subst hid
    rw [AList.lookup_insert, Option.some.injEq] at hvotes
    subst hvotes
    rcases List.mem_append.mp hu with hu | hu
    · cases hold : p.cacheVotes.lookup vote.voteData.proposed.id with
      | none => simp [hold] at hu
      | some old =>
        rw [hold] at hu
        exact hp.cached _ old hold u hu
    · rw [List.mem_singleton.mp hu]
      exact hvote
  · rw [AList.lookup_insert_ne hid] at hvotes
    exact hp.cached id votes hvotes u hu

theorem From.getAndRemoveCachedVotes (hp : p.From P) (id : HashValue) :
    (p.getAndRemoveCachedVotes id).1.From P ∧ ∀ u ∈ (p.getAndRemoveCachedVotes id).2, P u := by
  unfold PendingVotes.getAndRemoveCachedVotes
  cases hid : p.cacheVotes.lookup id with
  | none => exact ⟨hp, by simp⟩
  | some votes =>
    refine ⟨⟨hp.ledger, hp.signatures, ?_⟩, hp.cached id votes hid⟩
    intro other votes' hother
    by_cases heq : other = id
    · subst heq
      rw [AList.lookup_insert, Option.some.injEq] at hother
      subst hother
      simp
    · rw [AList.lookup_insert_ne heq] at hother
      exact hp.cached other votes' hother

theorem From.mono {Q : Vote → Prop} (hp : p.From P) (hPQ : ∀ u, P u → Q u) : p.From Q where
  ledger := fun digest l hl => by
    obtain ⟨u, hu, h⟩ := hp.ledger digest l hl
    exact ⟨u, hPQ u hu, h⟩
  signatures := fun digest l hl a sig ha => by
    obtain ⟨u, hu, h⟩ := hp.signatures digest l hl a sig ha
    exact ⟨u, hPQ u hu, h⟩
  cached := fun id votes hid u hu => hPQ u (hp.cached id votes hid u hu)

end PendingVotes

structure RoundState where
  currentRound : Int := 0
  pendingVotes : PendingVotes := {}
  sendVote : Option Vote := none
deriving Inhabited

namespace RoundState

def processCertificates (rs : RoundState) (sync : SyncInfo) : Option RoundState :=
  let newRound := sync.highestRound + 1
  if newRound > rs.currentRound then some { currentRound := newRound } else none

/-- A vote of another round is answered with the code of a duplicate vote. -/
def insertVote (rs : RoundState) (v : ValidatorVerifier) (vote : Vote) :
    RoundState × VoteReceptionResult :=
  if vote.round ≠ rs.currentRound then (rs, .duplicateVote)
  else
    let (pending, result) := rs.pendingVotes.insertVote v vote
    ({ rs with pendingVotes := pending }, result)

def cacheVote (rs : RoundState) (vote : Vote) : RoundState :=
  if vote.round ≠ rs.currentRound then rs
  else { rs with pendingVotes := rs.pendingVotes.cacheVote vote }

def recordVote (rs : RoundState) (vote : Vote) : RoundState := { rs with sendVote := some vote }

end RoundState

end Chainsql.Hotstuff
