import Chainsql.Lib.Run
import Chainsql.Hotstuff.HonestCert

/-!
# What a certificate is aggregated from

The votes of one round, inserted one after the other. `accepted` lists those that were stored: each
added its signature to the map of its digest. The maps and the record of certificates are determined by
that list (`Tally`), and so is the vote at which a certificate is returned.
-/

namespace Chainsql.Hotstuff

open PendingVotes

def Vote.digest (vote : Vote) : HashValue := vote.ledgerInfo.consensusDataHash

def VoteReceptionResult.accepted : VoteReceptionResult → Bool
  | .voteAdded => true
  | .newQuorumCertificate _ => true
  | _ => false

def latestOf (votes : List Vote) (author : Author) : Option Vote :=
  votes.reverse.find? fun vote => vote.author = author

def authorsOf (votes : List Vote) : Finset Author := (votes.map Vote.author).toFinset

section

variable {votes : List Vote} {vote : Vote} {author : Author}

theorem latestOf_concat_self (votes : List Vote) : latestOf (votes ++ [vote]) vote.author = some vote := by
  simp [latestOf]

theorem latestOf_concat_ne (h : author ≠ vote.author) :
    latestOf (votes ++ [vote]) author = latestOf votes author := by
  simp [latestOf, Ne.symm h]

theorem latestOf_isSome : (latestOf votes author).isSome ↔ author ∈ authorsOf votes := by
  simp [latestOf, authorsOf, List.find?_isSome]

theorem latestOf_spec (h : latestOf votes author = some vote) : vote ∈ votes ∧ vote.author = author := by
  have hmem := List.mem_of_find?_eq_some h
  have hauthor := List.find?_some h
  exact ⟨List.mem_reverse.mp hmem, of_decide_eq_true hauthor⟩

theorem authorsOf_concat : authorsOf (votes ++ [vote]) = insert vote.author (authorsOf votes) := by
  ext a
  simp [authorsOf]

end

namespace PendingVotes

def receive (v : ValidatorVerifier) (p : PendingVotes) (vote : Vote) : PendingVotes := (p.insertVote v vote).1

def accepts (v : ValidatorVerifier) (p : PendingVotes) (vote : Vote) : Bool := (p.insertVote v vote).2.accepted

def accepted (v : ValidatorVerifier) (votes : List Vote) : List Vote :=
  Run.kept (receive v) (accepts v) {} votes

def acceptedFor (v : ValidatorVerifier) (votes : List Vote) (digest : HashValue) : List Vote :=
  (accepted v votes).filter fun vote => vote.digest = digest

def signaturesOf (p : PendingVotes) (digest : HashValue) : Signatures :=
  ((p.liDigestToVotes.lookup digest).getD {}).signatures

/-! ## One vote -/

section

variable {v : ValidatorVerifier} {p : PendingVotes} {vote : Vote} {digest : HashValue}

theorem refuseSeen_accepted {refusal : VoteReceptionResult} (h : p.refuseSeen vote = some refusal) :
    refusal.accepted = false := by
  unfold refuseSeen at h
  split at h
  · cases h
  · split at h
    · cases h
    · split at h
      · cases h
        rfl
      · split at h
        · cases h
          rfl
        · cases h

/-- What `insertVote` does with a vote that is not refused. -/
def count (v : ValidatorVerifier) (p : PendingVotes) (vote : Vote) : PendingVotes × VoteReceptionResult :=
  let qc : QuorumCertificate := { voteData := vote.voteData, signedLedgerInfo := p.collect vote }
  if v.quorum ≤ (p.collect vote).signatures.size then
    ({ p.storeVote vote with quorumCertificateRecord := p.quorumCertificateRecord.emplace vote.digest qc },
      .newQuorumCertificate qc)
  else (p.storeVote vote, .voteAdded)

/-- A vote is refused and changes nothing, or it is stored and possibly completes a certificate. -/
theorem insertVote_cases (v : ValidatorVerifier) (p : PendingVotes) (vote : Vote) :
    (p.accepts v vote = false ∧ p.receive v vote = p
      ∧ ¬(vote.digest ∉ p.quorumCertificateRecord ∧ p.refuseSeen vote = none))
    ∨ (p.accepts v vote = true ∧ (vote.digest ∉ p.quorumCertificateRecord ∧ p.refuseSeen vote = none)
      ∧ p.insertVote v vote = p.count v vote) := by
  rw [accepts, receive, insertVote, count, Vote.digest]
  by_cases hrecord : vote.ledgerInfo.consensusDataHash ∈ p.quorumCertificateRecord
  · rw [if_pos hrecord]
    exact .inl ⟨rfl, rfl, fun h => h.1 hrecord⟩
  · rw [if_neg hrecord]
    cases hseen : p.refuseSeen vote with
    | some refusal => exact .inl ⟨refuseSeen_accepted hseen, rfl, fun h => Option.some_ne_none _ h.2⟩
    | none =>
      simp only [ValidatorVerifier.checkVotingPower, decide_eq_true_eq]
      refine .inr ⟨?_, ⟨hrecord, trivial⟩, trivial⟩
      split <;> rfl

theorem accepts_iff :
    p.accepts v vote = true ↔ vote.digest ∉ p.quorumCertificateRecord ∧ p.refuseSeen vote = none := by
  rcases insertVote_cases v p vote with ⟨hrefused, -, hwhy⟩ | ⟨haccepts, hfresh, -⟩
  · exact iff_of_false (Bool.eq_false_iff.mp hrefused) hwhy
  · exact iff_of_true haccepts hfresh

theorem insertVote_of_accepts (h : p.accepts v vote = true) :
    p.insertVote v vote = p.count v vote :=
  ((insertVote_cases v p vote).resolve_left fun hrefused => Bool.eq_false_iff.mp hrefused.1 h).2.2

theorem receive_of_refused (h : p.accepts v vote = false) : p.receive v vote = p :=
  ((insertVote_cases v p vote).resolve_right fun haccepts => Bool.eq_false_iff.mp h haccepts.1).2.1

theorem collect_signatures :
    (p.collect vote).signatures = (p.signaturesOf vote.digest).insert vote.author vote.signature := by
  unfold collect signaturesOf Vote.digest
  cases p.liDigestToVotes.lookup vote.ledgerInfo.consensusDataHash <;> rfl

theorem collect_ledgerInfo :
    (p.collect vote).ledgerInfo
      = ((p.liDigestToVotes.lookup vote.digest).map LedgerInfoWithSignatures.ledgerInfo).getD vote.ledgerInfo := by
  unfold collect Vote.digest
  cases p.liDigestToVotes.lookup vote.ledgerInfo.consensusDataHash <;> rfl

theorem receive_of_accepts (h : p.accepts v vote = true) :
    (p.receive v vote).authorToVote = p.authorToVote.insert vote.author vote
      ∧ (p.receive v vote).liDigestToVotes = p.liDigestToVotes.insert vote.digest (p.collect vote) := by
  rw [receive, insertVote_of_accepts h, count]
  dsimp only
  split <;> exact ⟨rfl, rfl⟩

theorem mem_record_receive (h : p.accepts v vote = true) :
    digest ∈ (p.receive v vote).quorumCertificateRecord ↔ digest ∈ p.quorumCertificateRecord
      ∨ digest = vote.digest ∧ v.quorum ≤ (p.collect vote).signatures.size := by
  rw [receive, insertVote_of_accepts h, count]
  dsimp only
  split
  next hpower =>
    by_cases hdigest : digest = vote.digest
    · rw [hdigest, ← AList.lookup_isSome, AList.lookup_emplace_self]
      exact iff_of_true rfl (.inr ⟨rfl, hpower⟩)
    · rw [← AList.lookup_isSome, AList.lookup_emplace_ne hdigest, AList.lookup_isSome]
      exact (or_iff_left fun h => hdigest h.1).symm
  next hpower => exact (or_iff_left fun h => hpower h.2).symm

theorem signaturesOf_receive (h : p.accepts v vote = true) :
    (p.receive v vote).signaturesOf digest
      = if digest = vote.digest then (p.collect vote).signatures else p.signaturesOf digest := by
  rw [signaturesOf, (receive_of_accepts h).2]
  split
  next heq => rw [heq, AList.lookup_insert, Option.getD_some]
  next hne => rw [AList.lookup_insert_ne hne, signaturesOf]

end

/-! ## The votes of a round -/

/-- The signature maps and the record of certificates, as the list of accepted votes determines them. -/
structure Tally (v : ValidatorVerifier) (p : PendingVotes) (accepted : List Vote) : Prop where
  signatures : ∀ digest author, (p.signaturesOf digest).lookup author
    = (latestOf (accepted.filter fun vote => vote.digest = digest) author).map Vote.signature
  record : ∀ digest, digest ∈ p.quorumCertificateRecord
    ↔ max 1 v.quorum ≤ (authorsOf (accepted.filter fun vote => vote.digest = digest)).card

section

variable {v : ValidatorVerifier} {p : PendingVotes} {vote : Vote} {l votes : List Vote}

theorem filter_digest_concat_self :
    (l ++ [vote]).filter (fun u => u.digest = vote.digest)
      = l.filter (fun u => u.digest = vote.digest) ++ [vote] := by
  simp

theorem filter_digest_concat_ne {digest : HashValue} (h : digest ≠ vote.digest) :
    (l ++ [vote]).filter (fun u => u.digest = digest) = l.filter (fun u => u.digest = digest) := by
  simp [Ne.symm h]

theorem Tally.collect (ht : Tally v p l) (author : Author) :
    (p.collect vote).signatures.lookup author
      = (latestOf ((l ++ [vote]).filter fun u => u.digest = vote.digest) author).map Vote.signature := by
  rw [collect_signatures, filter_digest_concat_self]
  by_cases hauthor : author = vote.author
  · rw [hauthor, AList.lookup_insert, latestOf_concat_self, Option.map_some]
  · rw [AList.lookup_insert_ne hauthor, latestOf_concat_ne hauthor, ht.signatures]

theorem Tally.collect_size (ht : Tally v p l) :
    (p.collect vote).signatures.size
      = (authorsOf ((l ++ [vote]).filter fun u => u.digest = vote.digest)).card := by
  refine AList.size_eq_card fun author => ?_
  rw [← AList.lookup_isSome, ht.collect, Option.isSome_map, latestOf_isSome]

theorem one_le_collect : 1 ≤ (p.collect vote).signatures.size := by
  rw [collect_signatures, AList.size_eq_keys_length, Nat.one_le_iff_ne_zero, Ne, List.length_eq_zero_iff]
  exact List.ne_nil_of_mem (AList.mem_insert _ |>.mpr (.inl rfl))

theorem Tally.receive (ht : Tally v p l) (haccepts : p.accepts v vote = true) :
    Tally v (p.receive v vote) (l ++ [vote]) := by
  constructor
  · intro digest author
    rw [signaturesOf_receive haccepts]
    split
    next heq => rw [heq, ht.collect]
    next hne => rw [filter_digest_concat_ne hne, ht.signatures]
  · intro digest
    rw [mem_record_receive haccepts]
    by_cases hdigest : digest = vote.digest
    · subst hdigest
      rw [or_iff_right (accepts_iff.mp haccepts).1, ← ht.collect_size, Nat.max_le]
      exact and_congr_left' (iff_of_true rfl one_le_collect)
    · rw [filter_digest_concat_ne hdigest, ← ht.record digest]
      exact or_iff_left fun h => hdigest h.1

theorem insertAll_concat (v : ValidatorVerifier) (votes : List Vote) (vote : Vote) :
    insertAll v (votes ++ [vote]) = (insertAll v votes).receive v vote := by
  rw [insertAll, List.foldl_append]
  rfl

theorem accepted_concat (h : (insertAll v votes).accepts v vote = true) :
    accepted v (votes ++ [vote]) = accepted v votes ++ [vote] := by
  have haccepts : accepts v (Run.final (receive v) {} votes) vote = true := h
  exact Run.kept_concat_of_keep haccepts

theorem accepted_concat_of_not (h : (insertAll v votes).accepts v vote = false) :
    accepted v (votes ++ [vote]) = accepted v votes := by
  have hrefused : accepts v (Run.final (receive v) {} votes) vote = false := h
  exact Run.kept_concat_of_not hrefused

theorem tally_insertAll (v : ValidatorVerifier) (votes : List Vote) :
    Tally v (insertAll v votes) (accepted v votes) := by
  induction votes using List.reverseRecOn with
  | nil =>
    refine ⟨fun digest author => rfl, fun digest => iff_of_false (AList.notMem_empty digest) ?_⟩
    simp [authorsOf, accepted, Run.kept]
  | append_singleton votes vote ih =>
    rw [insertAll_concat]
    cases haccepts : (insertAll v votes).accepts v vote with
    | false =>
      rw [accepted_concat_of_not haccepts, receive_of_refused haccepts]
      exact ih
    | true =>
      rw [accepted_concat haccepts]
      exact ih.receive haccepts

theorem Tally.newQuorumCertificate (ht : Tally v p l) (vote : Vote) :
    ((∃ qc, (p.insertVote v vote).2 = .newQuorumCertificate qc)
      ↔ p.accepts v vote = true
        ∧ (authorsOf (l.filter fun u => u.digest = vote.digest)).card < max 1 v.quorum
        ∧ max 1 v.quorum ≤ (authorsOf ((l ++ [vote]).filter fun u => u.digest = vote.digest)).card)
    ∧ ∀ qc, (p.insertVote v vote).2 = .newQuorumCertificate qc → ∀ author,
      qc.signatures.lookup author
        = (latestOf ((l ++ [vote]).filter fun u => u.digest = vote.digest) author).map Vote.signature := by
  cases haccepts : p.accepts v vote with
  | false =>
    have hnone : ∀ qc, (p.insertVote v vote).2 ≠ .newQuorumCertificate qc := by
      intro qc hqc
      rw [accepts, hqc] at haccepts
      cases haccepts
    exact ⟨iff_of_false (fun ⟨qc, hqc⟩ => hnone qc hqc) (by simp), fun qc hqc => absurd hqc (hnone qc)⟩
  | true =>
    have hbefore := Nat.not_le.mp (mt (ht.record vote.digest).mpr (accepts_iff.mp haccepts).1)
    rw [← ht.collect_size, Nat.max_le, insertVote_of_accepts haccepts, count]
    dsimp only
    split
    next hpower =>
      refine ⟨iff_of_true ⟨_, rfl⟩ ⟨rfl, hbefore, one_le_collect, hpower⟩, ?_⟩
      rintro qc ⟨⟩ author
      exact ht.collect author
    next hpower => exact ⟨iff_of_false (by simp) fun h => hpower h.2.2.2, by simp⟩

end

end PendingVotes

namespace RoundState

def opened (round : Int) : RoundState := { currentRound := round }

def receive (v : ValidatorVerifier) (rs : RoundState) (vote : Vote) : RoundState := (rs.insertVote v vote).1

def accepts (v : ValidatorVerifier) (rs : RoundState) (vote : Vote) : Bool := (rs.insertVote v vote).2.accepted

def afterAll (v : ValidatorVerifier) (round : Int) (votes : List Vote) : RoundState :=
  Run.final (receive v) (opened round) votes

def acceptedFor (v : ValidatorVerifier) (round : Int) (votes : List Vote) (digest : HashValue) : List Vote :=
  (Run.kept (receive v) (accepts v) (opened round) votes).filter fun vote => vote.digest = digest

section

variable {v : ValidatorVerifier} {round : Int} {rs : RoundState} {vote : Vote} {votes : List Vote}

theorem insertVote_of_round (v : ValidatorVerifier) (h : rs.currentRound = round) :
    rs.insertVote v vote = if vote.round = round
      then ({ rs with pendingVotes := rs.pendingVotes.receive v vote }, (rs.pendingVotes.insertVote v vote).2)
      else (rs, .duplicateVote) := by
  rw [insertVote, h, ite_not]
  rfl

theorem afterAll_eq (v : ValidatorVerifier) (round : Int) (votes : List Vote) :
    afterAll v round votes
        = { opened round with
            pendingVotes := PendingVotes.insertAll v (votes.filter fun vote => vote.round = round) }
      ∧ Run.kept (receive v) (accepts v) (opened round) votes
        = PendingVotes.accepted v (votes.filter fun vote => vote.round = round) := by
  induction votes using List.reverseRecOn with
  | nil => exact ⟨rfl, rfl⟩
  | append_singleton votes vote ih =>
    obtain ⟨hafter, hkept⟩ := ih
    have hcurrent : (afterAll v round votes).currentRound = round := congrArg currentRound hafter
    rw [afterAll, Run.final_append, Run.kept_append, hkept, List.filter_append, List.filter_singleton]
    change (afterAll v round votes).receive v vote = _ ∧ _ ++ Run.kept _ _ (afterAll v round votes) [vote] = _
    rw [Run.kept, Run.kept, receive, accepts, insertVote_of_round v hcurrent]
    by_cases hround : vote.round = round
    · rw [if_pos hround, decide_eq_true hround, cond_true, insertAll_concat, hafter]
      refine ⟨rfl, ?_⟩
      rw [accepted, accepted, Run.kept_append]
      rfl
    · rw [if_neg hround, decide_eq_false hround, cond_false, List.append_nil]
      exact ⟨hafter, List.append_nil _⟩

variable {digest : HashValue} {u : Vote}

theorem round_of_mem_acceptedFor (h : u ∈ acceptedFor v round votes digest) : u.round = round := by
  rw [acceptedFor, (afterAll_eq v round votes).2] at h
  obtain ⟨before, after, hsplit, -⟩ := Run.mem_kept.mp (List.mem_of_mem_filter h)
  have hmem : u ∈ votes.filter fun vote => vote.round = round := by
    rw [hsplit]
    exact List.mem_append_right _ List.mem_cons_self
  exact of_decide_eq_true (List.mem_filter.mp hmem).2

theorem newQuorumCertificate_iff (v : ValidatorVerifier) (round : Int) (votes : List Vote) (vote : Vote) :
    let before := acceptedFor v round votes vote.digest
    let result := ((afterAll v round votes).insertVote v vote).2
    ((∃ qc, result = .newQuorumCertificate qc)
      ↔ result.accepted = true ∧ (authorsOf before).card < max 1 v.quorum
        ∧ max 1 v.quorum ≤ (authorsOf (before ++ [vote])).card)
    ∧ ∀ qc, result = .newQuorumCertificate qc → vote.round = round
      ∧ ∀ author, qc.signatures.lookup author = (latestOf (before ++ [vote]) author).map Vote.signature := by
  obtain ⟨hafter, hkept⟩ := afterAll_eq v round votes
  have hcurrent : (afterAll v round votes).currentRound = round := congrArg currentRound hafter
  rw [insertVote_of_round v hcurrent]
  split
  next hround =>
    have htally := (tally_insertAll v (votes.filter fun u => u.round = round)).newQuorumCertificate vote
    rw [filter_digest_concat_self] at htally
    rw [acceptedFor, hkept, hafter]
    exact ⟨htally.1, fun qc hqc => ⟨hround, htally.2 qc hqc⟩⟩
  · exact ⟨iff_of_false (by simp) fun h => Bool.false_ne_true h.1, by simp⟩

theorem authorsOf_acceptedFor_mono {before : List Vote} (hu : u.digest = digest)
    (haccepts : (afterAll v round before).accepts v u = true) (after : List Vote) :
    authorsOf (acceptedFor v round before digest ++ [u])
      ⊆ authorsOf (acceptedFor v round (before ++ u :: after) digest) := by
  have haccepts : accepts v (Run.final (receive v) (opened round) before) u = true := haccepts
  intro a ha
  rw [acceptedFor, Run.kept_append, Run.kept, if_pos haccepts, List.filter_append,
    List.filter_cons_of_pos (by simpa using hu)]
  simp only [authorsOf, acceptedFor, List.map_append, List.map_cons, List.mem_toFinset, List.mem_append,
    List.mem_cons] at ha ⊢
  rcases ha with ha | ha | ha
  · exact .inl ha
  · exact .inr (.inl ha)
  · cases ha

theorem accepted_iff (v : ValidatorVerifier) (round : Int) (votes : List Vote) (vote : Vote) :
    ((afterAll v round votes).insertVote v vote).2.accepted = true
      ↔ vote.round = round ∧ vote.digest ∉ (afterAll v round votes).pendingVotes.quorumCertificateRecord
        ∧ (afterAll v round votes).pendingVotes.refuseSeen vote = none := by
  rw [insertVote_of_round v (congrArg currentRound (afterAll_eq v round votes).1)]
  split
  next hround => exact PendingVotes.accepts_iff.trans (and_iff_right hround).symm
  next hround => exact iff_of_false Bool.false_ne_true fun h => hround h.1

/-- Certificates are aggregated exactly. In a round, whatever votes are inserted: a vote is accepted if it
is of the round, its digest has no certificate yet and its author has not voted in this way before; a certificate is
returned at the accepted vote at which the accepted authors of its digest become a quorum (of at least
one), which happens once for a digest; its signatures are those of these authors, each of the author's
latest accepted vote for the digest, and all these votes are of the round. -/
theorem certificate_exact (v : ValidatorVerifier) (round : Int) (votes : List Vote) (vote : Vote) :
    let before := acceptedFor v round votes vote.digest
    let result := ((afterAll v round votes).insertVote v vote).2
    (result.accepted = true
      ↔ vote.round = round ∧ vote.digest ∉ (afterAll v round votes).pendingVotes.quorumCertificateRecord
        ∧ (afterAll v round votes).pendingVotes.refuseSeen vote = none)
    ∧ ((∃ qc, result = .newQuorumCertificate qc)
      ↔ result.accepted = true ∧ (authorsOf before).card < max 1 v.quorum
        ∧ max 1 v.quorum ≤ (authorsOf (before ++ [vote])).card)
    ∧ (∀ qc, result = .newQuorumCertificate qc →
      (∀ author, qc.signatures.lookup author = (latestOf (before ++ [vote]) author).map Vote.signature)
      ∧ ∀ u ∈ before ++ [vote], u.round = round)
    ∧ ∀ earlier u rest qc, votes = earlier ++ u :: rest → u.digest = vote.digest →
      ((afterAll v round earlier).insertVote v u).2 = .newQuorumCertificate qc →
      ∀ qc', result ≠ .newQuorumCertificate qc' := by
  obtain ⟨hiff, hqc⟩ := newQuorumCertificate_iff v round votes vote
  refine ⟨accepted_iff v round votes vote, hiff, ?_, ?_⟩
  · intro qc hresult
    obtain ⟨hround, hlookup⟩ := hqc qc hresult
    refine ⟨hlookup, fun u hu => ?_⟩
    rcases List.mem_append.mp hu with hu | hu
    · exact round_of_mem_acceptedFor hu
    · rw [List.mem_singleton.mp hu]
      exact hround
  · rintro earlier u rest qc rfl hu hfirst qc' hsecond
    obtain ⟨haccepted, -, hreached⟩ := (newQuorumCertificate_iff v round earlier u).1.mp ⟨qc, hfirst⟩
    obtain ⟨-, hbelow, -⟩ := hiff.mp ⟨qc', hsecond⟩
    have hsub := Finset.card_le_card (authorsOf_acceptedFor_mono hu haccepted rest)
    rw [hu] at hreached
    exact absurd (lt_of_le_of_lt (hreached.trans hsub) hbelow) (lt_irrefl _)

/-- Author 5 has voted in round 1, and the vote of author 6 makes the quorum. -/
theorem certificate_exact_secondVote :
    let v : ValidatorVerifier := ⟨0, id, ∅, 2, fun _ => 0, fun _ _ _ => true⟩
    let voteOf (author : Author) : Vote := { author, voteData := { proposed := { round := 1 } } }
    ∃ qc, ((afterAll v 1 [voteOf 5]).insertVote v (voteOf 6)).2 = .newQuorumCertificate qc :=
  (certificate_exact _ 1 _ _).2.1.mpr (by decide)

end

end RoundState

end Chainsql.Hotstuff
