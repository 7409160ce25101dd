import Chainsql.Hotstuff.Aggregation
import Chainsql.Hotstuff.RoundManager

/-!
# Which votes can spoil the aggregation

`PendingVotes` compares a vote with the last vote of its author only, and takes the commit decision of
a certificate from the first vote for the digest. For a set of votes that may arrive, in any order and
number, this module says exactly when an author can equivocate unnoticed, and when a certificate can
carry a commit decision that one of its signers did not send.
-/

namespace Chainsql.Hotstuff.PendingVotes

variable {v : ValidatorVerifier} {p : PendingVotes} {vote u x w : Vote} {votes l : List Vote} {S : Set Vote}

theorem authorToVote_insertAll (v : ValidatorVerifier) (votes : List Vote) (author : Author) :
    (insertAll v votes).authorToVote.lookup author = latestOf (accepted v votes) author := by
  induction votes using List.reverseRecOn with
  | nil => rfl
  | append_singleton votes vote ih =>
    rw [insertAll_concat]
    cases haccepts : (insertAll v votes).accepts v vote with
    | false => rw [receive_of_refused haccepts, accepted_concat_of_not haccepts, ih]
    | true =>
      rw [(receive_of_accepts haccepts).1, accepted_concat haccepts]
      by_cases hauthor : author = vote.author
      · rw [hauthor, AList.lookup_insert, latestOf_concat_self]
      · rw [AList.lookup_insert_ne hauthor, latestOf_concat_ne hauthor, ih]

theorem digest_eq_of_accepts (h : latestOf (accepted v votes) vote.author = some x)
    (haccepts : (insertAll v votes).accepts v vote = true) (htc : vote.voteData.tc = x.voteData.tc) :
    vote.digest = x.digest := by
  have hnone := (accepts_iff.mp haccepts).2
  rw [refuseSeen, authorToVote_insertAll, h] at hnone
  dsimp only at hnone
  rw [if_neg (not_not_intro htc)] at hnone
  by_contra hne
  have hne : vote.ledgerInfo.consensusDataHash ≠ x.ledgerInfo.consensusDataHash := hne
  rw [if_pos hne] at hnone
  cases hnone

theorem digest_mem_record_iff (digest : HashValue) :
    digest ∈ (insertAll v votes).quorumCertificateRecord
      ↔ max 1 v.quorum ≤ (authorsOf (acceptedFor v votes digest)).card :=
  (tally_insertAll v votes).record digest

theorem mem_accepted_of_mem (h : u ∈ accepted v votes) : u ∈ votes := by
  obtain ⟨before, after, hsplit, -⟩ := Run.mem_kept.mp h
  rw [hsplit]
  exact List.mem_append_right _ List.mem_cons_self

theorem mem_signaturesOf_of_accepted (h : u ∈ accepted v votes) :
    u.author ∈ (insertAll v votes).signaturesOf u.digest := by
  rw [← AList.lookup_isSome, (tally_insertAll v votes).signatures, Option.isSome_map, latestOf_isSome,
    authorsOf, List.mem_toFinset]
  exact List.mem_map.mpr ⟨u, List.mem_filter.mpr ⟨h, decide_eq_true rfl⟩, rfl⟩

/-! ## Equivocation -/

/-- An author's signature stands in the maps of two digests, for votes with the same timeout count. -/
def Equivocation (v : ValidatorVerifier) (votes : List Vote) : Prop :=
  ∃ author digest digest', digest ≠ digest'
    ∧ author ∈ (insertAll v votes).signaturesOf digest
    ∧ author ∈ (insertAll v votes).signaturesOf digest'
    ∧ ∃ u ∈ acceptedFor v votes digest, ∃ w ∈ acceptedFor v votes digest',
      u.author = author ∧ w.author = author ∧ u.voteData.tc = w.voteData.tc

/-- Between `u` and `w`, which equivocate, the author sends `x` with another timeout count. With a
quorum of one, every accepted vote closes its digest, so the three digests have to differ. -/
structure Alternation (v : ValidatorVerifier) (u x w : Vote) : Prop where
  author_left : u.author = x.author
  author_right : w.author = x.author
  tc_eq : u.voteData.tc = w.voteData.tc
  tc_ne : x.voteData.tc ≠ u.voteData.tc
  digest_ne : u.digest ≠ w.digest
  open_digests : 2 ≤ v.quorum ∨ (x.digest ≠ u.digest ∧ x.digest ≠ w.digest)

theorem equivocation_iff :
    Equivocation v votes ↔ ∃ u ∈ accepted v votes, ∃ w ∈ accepted v votes,
      u.author = w.author ∧ u.voteData.tc = w.voteData.tc ∧ u.digest ≠ w.digest := by
  constructor
  · rintro ⟨author, digest, digest', hne, -, -, u, hu, w, hw, hua, hwa, htc⟩
    obtain ⟨hu, hud⟩ := List.mem_filter.mp hu
    obtain ⟨hw, hwd⟩ := List.mem_filter.mp hw
    refine ⟨u, hu, w, hw, hua.trans hwa.symm, htc, ?_⟩
    rw [of_decide_eq_true hud, of_decide_eq_true hwd]
    exact hne
  · rintro ⟨u, hu, w, hw, hauthor, htc, hne⟩
    refine ⟨u.author, u.digest, w.digest, hne, mem_signaturesOf_of_accepted hu,
      hauthor ▸ mem_signaturesOf_of_accepted hw, u, ?_, w, ?_, rfl, hauthor.symm, htc⟩
    · exact List.mem_filter.mpr ⟨hu, decide_eq_true rfl⟩
    · exact List.mem_filter.mpr ⟨hw, decide_eq_true rfl⟩

theorem digest_ne_of_accepts (hquorum : v.quorum < 2) (hu : u ∈ accepted v votes)
    (haccepts : (insertAll v votes).accepts v vote = true) : u.digest ≠ vote.digest := by
  intro heq
  refine (accepts_iff.mp haccepts).1 ((digest_mem_record_iff _).mpr ?_)
  have hmem : u.author ∈ authorsOf (acceptedFor v votes vote.digest) := by
    rw [authorsOf, List.mem_toFinset]
    exact List.mem_map.mpr ⟨u, List.mem_filter.mpr ⟨hu, decide_eq_true heq⟩, rfl⟩
  have hpos := Finset.card_pos.mpr ⟨_, hmem⟩
  omega

theorem pairwise_digest_of_quorum_one (hquorum : v.quorum < 2) (votes : List Vote) :
    (accepted v votes).Pairwise fun u w => u.digest ≠ w.digest := by
  induction votes using List.reverseRecOn with
  | nil => exact .nil
  | append_singleton votes vote ih =>
    cases haccepts : (insertAll v votes).accepts v vote with
    | false =>
      rw [accepted_concat_of_not haccepts]
      exact ih
    | true =>
      rw [accepted_concat haccepts, List.pairwise_append]
      refine ⟨ih, List.pairwise_singleton _ _, fun u hu w hw => ?_⟩
      rw [List.mem_singleton.mp hw]
      exact digest_ne_of_accepts hquorum hu haccepts

theorem digest_ne_of_quorum_one (hquorum : v.quorum < 2) (hu : u ∈ accepted v votes)
    (hx : x ∈ accepted v votes) (hne : u ≠ x) : u.digest ≠ x.digest := by
  have hpairwise := pairwise_digest_of_quorum_one hquorum votes
  have : Std.Symm fun u w : Vote => u.digest ≠ w.digest := ⟨fun _ _ h => h.symm⟩
  exact hpairwise.forall hu hx hne

theorem exists_latestOf (hu : u ∈ l) : ∃ x ∈ l, x.author = u.author ∧ latestOf l u.author = some x := by
  have hmem : u.author ∈ authorsOf l := by
    rw [authorsOf, List.mem_toFinset]
    exact List.mem_map_of_mem hu
  obtain ⟨x, hx⟩ := Option.isSome_iff_exists.mp (latestOf_isSome.mpr hmem)
  exact ⟨x, (latestOf_spec hx).1, (latestOf_spec hx).2, hx⟩

/-- The first equivocating vote would follow an alternation. -/
theorem digest_eq_of_no_alternation (hnone : ¬ ∃ u ∈ S, ∃ x ∈ S, ∃ w ∈ S, Alternation v u x w)
    (hvotes : ∀ u ∈ votes, u ∈ S) :
    ∀ u ∈ accepted v votes, ∀ w ∈ accepted v votes, u.author = w.author → u.voteData.tc = w.voteData.tc →
      u.digest = w.digest := by
  induction votes using List.reverseRecOn with
  | nil => exact fun u hu => absurd hu List.not_mem_nil
  | append_singleton votes vote ih =>
    obtain ⟨hvotes, hvote⟩ := List.forall_mem_append.mp hvotes
    have ih := ih hvotes
    cases haccepts : (insertAll v votes).accepts v vote with
    | false =>
      rw [accepted_concat_of_not haccepts]
      exact ih
    | true =>
      have hS : ∀ u ∈ accepted v votes, u ∈ S := fun u hu => hvotes u (mem_accepted_of_mem hu)
      have hnew : ∀ u ∈ accepted v votes, u.author = vote.author → u.voteData.tc = vote.voteData.tc →
          u.digest = vote.digest := by
        intro u hu hauthor htc
        obtain ⟨x, hx, hxauthor, hlatest⟩ := exists_latestOf hu
        rw [hauthor] at hlatest
        by_cases hxtc : vote.voteData.tc = x.voteData.tc
        · exact (ih u hu x hx hxauthor.symm (htc.trans hxtc)).trans (digest_eq_of_accepts hlatest haccepts hxtc).symm
        · by_contra hne
          refine hnone ⟨u, hS u hu, x, hS x hx, vote, hvote vote List.mem_cons_self, hxauthor.symm,
            hauthor.symm.trans hxauthor.symm, htc, fun h => hxtc (htc.symm.trans h.symm), hne, ?_⟩
          by_cases hquorum : 2 ≤ v.quorum
          · exact .inl hquorum
          · have hxu : x ≠ u := by
              rintro rfl
              exact hxtc htc.symm
            exact .inr ⟨digest_ne_of_quorum_one (not_le.mp hquorum) hx hu hxu,
              digest_ne_of_accepts (not_le.mp hquorum) hx haccepts⟩
      intro u hu w hw hauthor htc
      rw [accepted_concat haccepts, List.mem_append, List.mem_singleton] at hu hw
      rcases hu with hu | rfl
      · rcases hw with hw | rfl
        · exact ih u hu w hw hauthor htc
        · exact hnew u hu hauthor htc
      · rcases hw with hw | rfl
        · exact (hnew w hw hauthor.symm htc.symm).symm
        · rfl

/-- A further vote of the only author is accepted if it has another timeout count than the latest one. -/
theorem accepted_concat_of_author {author : Author} (hl : accepted v l = l) (hauthors : ∀ u ∈ l, u.author = author)
    (hclosed : 2 ≤ v.quorum ∨ ∀ u ∈ l, u.digest ≠ vote.digest)
    (htc : ∀ x, latestOf l vote.author = some x → vote.voteData.tc ≠ x.voteData.tc) :
    accepted v (l ++ [vote]) = l ++ [vote] := by
  have haccepts : (insertAll v l).accepts v vote = true := by
    refine accepts_iff.mpr ⟨?_, ?_⟩
    · rw [digest_mem_record_iff, not_le, acceptedFor, hl]
      rcases hclosed with hquorum | hdigest
      · have hsub : authorsOf (l.filter fun u => u.digest = vote.digest) ⊆ {author} := by
          intro a ha
          obtain ⟨u, hu, rfl⟩ := List.mem_map.mp (List.mem_toFinset.mp ha)
          exact Finset.mem_singleton.mpr (hauthors u (List.mem_of_mem_filter hu))
        have hcard := Finset.card_le_card hsub
        rw [Finset.card_singleton] at hcard
        omega
      · rw [List.filter_eq_nil_iff.mpr fun u hu => by simpa using hdigest u hu]
        exact Nat.lt_of_lt_of_le Nat.one_pos (le_max_left 1 v.quorum)
    · rw [refuseSeen, authorToVote_insertAll, hl]
      cases hlatest : latestOf l vote.author with
      | none => rfl
      | some x => exact if_pos (htc x hlatest)
  rw [accepted_concat haccepts, hl]

theorem Alternation.equivocation (h : Alternation v u x w) : Equivocation v [u, x, w] := by
  have hlatest : ∀ {l y z}, latestOf (l ++ [y]) y.author = some z → z = y := by
    intro l y z hz
    rw [latestOf_concat_self] at hz
    exact (Option.some.inj hz).symm
  have hu : accepted v [u] = [u] :=
    @accepted_concat_of_author v u [] u.author rfl (by simp) (.inr (by simp)) fun x hx => by cases hx
  have hx : accepted v [u, x] = [u, x] := by
    refine @accepted_concat_of_author v x [u] x.author hu (by simpa using h.author_left) ?_ ?_
    · exact h.open_digests.imp_right fun hopen => by simpa using hopen.1.symm
    · intro y hy
      rw [← h.author_left] at hy
      rw [@hlatest [] u y hy]
      exact h.tc_ne
  have hw : accepted v [u, x, w] = [u, x, w] := by
    refine @accepted_concat_of_author v w [u, x] x.author hx (by simpa using h.author_left) ?_ ?_
    · exact h.open_digests.imp_right fun hopen => by simpa using ⟨h.digest_ne, hopen.2⟩
    · intro y hy
      rw [h.author_right] at hy
      rw [@hlatest [u] x y hy, ← h.tc_eq]
      exact h.tc_ne.symm
  rw [equivocation_iff, hw]
  exact ⟨u, by simp, w, by simp, h.author_left.trans h.author_right.symm, h.tc_eq, h.digest_ne⟩

/-- No sequence of votes from `S` leaves an unnoticed equivocation exactly when `S` holds no
alternation. -/
theorem no_equivocation_iff (v : ValidatorVerifier) (S : Set Vote) :
    (∀ votes : List Vote, (∀ u ∈ votes, u ∈ S) → ¬ Equivocation v votes)
      ↔ ¬ ∃ u ∈ S, ∃ x ∈ S, ∃ w ∈ S, Alternation v u x w := by
  constructor
  · rintro hnone ⟨u, hu, x, hx, w, hw, halt⟩
    refine hnone [u, x, w] ?_ halt.equivocation
    intro y hy
    simp only [List.mem_cons, List.not_mem_nil, or_false] at hy
    rcases hy with rfl | rfl | rfl
    · exact hu
    · exact hx
    · exact hw
  · intro hnone votes hvotes heq
    obtain ⟨u, hu, w, hw, hauthor, htc, hne⟩ := equivocation_iff.mp heq
    exact hne (digest_eq_of_no_alternation hnone hvotes u hu w hw hauthor htc)

def voteFor (author : Author) (id : HashValue) (tc : Nat) (commitInfo : BlockInfo) : Vote :=
  (HotstuffCore.idle {1, 2, 3, 4} 3 author).newVote
    { proposed := { round := 7, id := id }, parent := { round := 6, id := 66 }, tc := tc }
    { commitInfo := commitInfo }

/-- Validator 1 votes for block 11, repeats the vote with timeout count 1 and votes for block 22 with
timeout count 0 again. The three votes pass the signature check and are all added. -/
theorem equivocation_unnoticed :
    let v := codeVerifier {1, 2, 3, 4} 3 4
    let votes := [voteFor 1 11 0 {}, voteFor 1 11 1 {}, voteFor 1 22 0 {}]
    (∀ u ∈ votes, v.verifyVoteSignature codeHasher u = true) ∧ (accepted v votes).length = 3
    ∧ Equivocation v votes :=
  ⟨by decide +kernel, by decide +kernel,
    Alternation.equivocation ⟨rfl, rfl, rfl, by decide, by decide +kernel, .inl (by decide)⟩⟩

/-! ## Commit decisions -/

def CommitAgreed (votes : List Vote) (qc : QuorumCertificate) : Prop :=
  ∀ author ∈ qc.signatures, ∃ u ∈ votes, u.author = author ∧ u.ledgerInfo.commitInfo = qc.commitInfo

/-- The commit decision kept for a digest is that of its first accepted vote. -/
theorem ledgerInfo_insertAll (v : ValidatorVerifier) (votes : List Vote) (digest : HashValue) :
    ((insertAll v votes).liDigestToVotes.lookup digest).map LedgerInfoWithSignatures.ledgerInfo
      = (acceptedFor v votes digest).head?.map Vote.ledgerInfo := by
  induction votes using List.reverseRecOn with
  | nil => rfl
  | append_singleton votes vote ih =>
    rw [insertAll_concat]
    cases haccepts : (insertAll v votes).accepts v vote with
    | false => rw [receive_of_refused haccepts, acceptedFor, accepted_concat_of_not haccepts, ih, acceptedFor]
    | true =>
      rw [(receive_of_accepts haccepts).2, acceptedFor, accepted_concat haccepts]
      by_cases hdigest : digest = vote.digest
      · subst hdigest
        rw [AList.lookup_insert, Option.map_some, collect_ledgerInfo, ih, filter_digest_concat_self, acceptedFor]
        cases (accepted v votes).filter fun u => u.digest = vote.digest <;> rfl
      · rw [AList.lookup_insert_ne hdigest, ih, filter_digest_concat_ne hdigest, acceptedFor]

variable {qc : QuorumCertificate}

/-- A certificate carries the commit decision of the first accepted vote for its digest, and its
signers are the authors of the accepted ones. -/
theorem certificate_spec (hqc : ((insertAll v votes).insertVote v vote).2 = .newQuorumCertificate qc) :
    ∃ first ∈ acceptedFor v votes vote.digest ++ [vote],
      qc.commitInfo = first.ledgerInfo.commitInfo
      ∧ (∀ author, author ∈ qc.signatures ↔ author ∈ authorsOf (acceptedFor v votes vote.digest ++ [vote]))
      ∧ (authorsOf (acceptedFor v votes vote.digest ++ [vote])).card = max 1 v.quorum := by
  have htally := tally_insertAll v votes
  obtain ⟨hiff, hlookup⟩ := htally.newQuorumCertificate vote
  obtain ⟨haccepts, hbelow, hreached⟩ := hiff.mp ⟨qc, hqc⟩
  have hlookup := hlookup qc hqc
  rw [filter_digest_concat_self] at hreached hlookup
  have hcollect : qc.signedLedgerInfo = (insertAll v votes).collect vote := by
    rw [insertVote_of_accepts haccepts, count] at hqc
    dsimp only at hqc
    split at hqc
    · cases hqc
      rfl
    · cases hqc
  have hcommit : qc.commitInfo
      = (((acceptedFor v votes vote.digest).head?.map Vote.ledgerInfo).getD vote.ledgerInfo).commitInfo := by
    rw [QuorumCertificate.commitInfo, hcollect, collect_ledgerInfo, ledgerInfo_insertAll]
  have hsigners : ∀ author, author ∈ qc.signatures
      ↔ author ∈ authorsOf (acceptedFor v votes vote.digest ++ [vote]) := by
    intro author
    rw [← AList.lookup_isSome, hlookup, Option.isSome_map, latestOf_isSome]
    rfl
  have hcard : (authorsOf (acceptedFor v votes vote.digest ++ [vote])).card = max 1 v.quorum := by
    refine le_antisymm ?_ hreached
    rw [authorsOf_concat]
    exact (Finset.card_insert_le _ _).trans hbelow
  cases hfor : acceptedFor v votes vote.digest with
  | nil =>
    rw [hfor] at hcommit hsigners hcard
    exact ⟨vote, List.mem_singleton_self _, hcommit, hsigners, hcard⟩
  | cons first rest =>
    rw [hfor] at hcommit hsigners hcard
    exact ⟨first, List.mem_append_left _ List.mem_cons_self, hcommit, hsigners, hcard⟩

structure Dissent (v : ValidatorVerifier) (votes : List Vote) : Prop where
  authors : (votes.map Vote.author).Nodup
  quorum : votes.length = v.quorum
  digest : ∀ u ∈ votes, ∀ w ∈ votes, u.digest = w.digest
  differ : ∃ u ∈ votes, ∃ w ∈ votes, u.ledgerInfo.commitInfo ≠ w.ledgerInfo.commitInfo

theorem mem_acceptedFor_concat (hu : u ∈ acceptedFor v votes vote.digest ++ [vote]) :
    u ∈ votes ++ [vote] ∧ u.digest = vote.digest := by
  rcases List.mem_append.mp hu with hu | hu
  · obtain ⟨hu, hdigest⟩ := List.mem_filter.mp hu
    exact ⟨List.mem_append_left _ (mem_accepted_of_mem hu), of_decide_eq_true hdigest⟩
  · rw [List.mem_singleton.mp hu]
    exact ⟨List.mem_append_right _ (List.mem_singleton_self _), rfl⟩

theorem exists_dissent (hqc : ((insertAll v votes).insertVote v vote).2 = .newQuorumCertificate qc)
    (hnot : ¬ CommitAgreed (votes ++ [vote]) qc) :
    ∃ dissent : List Vote, (∀ u ∈ dissent, u ∈ votes ++ [vote]) ∧ Dissent v dissent := by
  obtain ⟨first, hfirst, hcommit, hsigners, hcard⟩ := certificate_spec hqc
  simp only [CommitAgreed, not_forall, not_exists, not_and] at hnot
  obtain ⟨author, hauthor, hdiffer⟩ := hnot
  rw [hsigners] at hauthor
  have hfirstAuthor : first.author ∈ authorsOf (acceptedFor v votes vote.digest ++ [vote]) :=
    List.mem_toFinset.mpr (List.mem_map_of_mem hfirst)
  have hne : author ≠ first.author := fun h =>
    hdiffer first (mem_acceptedFor_concat hfirst).1 h.symm hcommit.symm
  -- One accepted vote for each signer, the first vote for its own author.
  let pick : Author → Vote := fun a =>
    if a = first.author then first else (latestOf (acceptedFor v votes vote.digest ++ [vote]) a).getD first
  have hpick : ∀ a ∈ authorsOf (acceptedFor v votes vote.digest ++ [vote]),
      pick a ∈ acceptedFor v votes vote.digest ++ [vote] ∧ (pick a).author = a := by
    intro a ha
    by_cases hown : a = first.author
    · rw [show pick a = first from if_pos hown]
      exact ⟨hfirst, hown.symm⟩
    · obtain ⟨u, hu⟩ := Option.isSome_iff_exists.mp (latestOf_isSome.mpr ha)
      rw [show pick a = (latestOf (acceptedFor v votes vote.digest ++ [vote]) a).getD first from if_neg hown, hu]
      exact latestOf_spec hu
  let signers := (authorsOf (acceptedFor v votes vote.digest ++ [vote])).toList
  have hmem : ∀ u ∈ signers.map pick, u ∈ acceptedFor v votes vote.digest ++ [vote] := by
    intro u hu
    obtain ⟨a, ha, rfl⟩ := List.mem_map.mp hu
    exact (hpick a (Finset.mem_toList.mp ha)).1
  refine ⟨signers.map pick, fun u hu => (mem_acceptedFor_concat (hmem u hu)).1, ?_, ?_, ?_, ?_⟩
  · have hids : (signers.map pick).map Vote.author = signers := by
      rw [List.map_map]
      exact (List.map_congr_left fun a ha => (hpick a (Finset.mem_toList.mp ha)).2).trans (List.map_id _)
    rw [hids]
    exact Finset.nodup_toList _
  · have htwo : 1 < (authorsOf (acceptedFor v votes vote.digest ++ [vote])).card :=
      Finset.one_lt_card.mpr ⟨author, hauthor, first.author, hfirstAuthor, hne⟩
    rw [List.length_map, Finset.length_toList]
    omega
  · intro u hu w hw
    rw [(mem_acceptedFor_concat (hmem u hu)).2, (mem_acceptedFor_concat (hmem w hw)).2]
  · refine ⟨pick author, List.mem_map_of_mem (Finset.mem_toList.mpr hauthor), first, ?_, ?_⟩
    · exact List.mem_map.mpr ⟨first.author, Finset.mem_toList.mpr hfirstAuthor, if_pos rfl⟩
    · rw [← hcommit]
      exact hdiffer _ (mem_acceptedFor_concat (hpick author hauthor).1).1 (hpick author hauthor).2

theorem card_authorsOf (h : (l.map Vote.author).Nodup) : (authorsOf l).card = l.length := by
  rw [authorsOf, List.toFinset_card_of_nodup h, List.length_map]

theorem accepted_of_distinct {digest : HashValue} (hauthors : (l.map Vote.author).Nodup)
    (hdigest : ∀ u ∈ l, u.digest = digest) (hlength : l.length ≤ v.quorum) : accepted v l = l := by
  induction l using List.reverseRecOn with
  | nil => rfl
  | append_singleton l vote ih =>
    rw [List.map_append, List.nodup_append] at hauthors
    obtain ⟨hnodup, -, hdisjoint⟩ := hauthors
    rw [List.length_append, List.length_singleton] at hlength
    have hl : accepted v l = l :=
      ih hnodup (fun u hu => hdigest u (List.mem_append_left _ hu)) (Nat.le_of_succ_le hlength)
    have haccepts : (insertAll v l).accepts v vote = true := by
      have hlatest : latestOf l vote.author = none := by
        rw [← Option.not_isSome_iff_eq_none, latestOf_isSome, authorsOf, List.mem_toFinset]
        intro hmem
        exact hdisjoint _ hmem _ (List.mem_singleton_self _) rfl
      refine accepts_iff.mpr ⟨?_, by rw [refuseSeen, authorToVote_insertAll, hl, hlatest]⟩
      have hsub := Finset.card_le_card (show authorsOf (acceptedFor v l vote.digest) ⊆ authorsOf l from ?_)
      · rw [card_authorsOf hnodup] at hsub
        rw [digest_mem_record_iff]
        omega
      · intro a ha
        obtain ⟨u, hu, rfl⟩ := List.mem_map.mp (List.mem_toFinset.mp ha)
        rw [acceptedFor, hl] at hu
        exact List.mem_toFinset.mpr (List.mem_map_of_mem (List.mem_of_mem_filter hu))
    rw [accepted_concat haccepts, hl]

theorem Dissent.certificate (h : Dissent v l) :
    ∃ votes vote qc, l = votes ++ [vote]
      ∧ ((insertAll v votes).insertVote v vote).2 = .newQuorumCertificate qc ∧ ¬ CommitAgreed l qc := by
  obtain ⟨u, hu, w, hw, hdiffer⟩ := h.differ
  rcases List.eq_nil_or_concat' l with rfl | ⟨votes, vote, rfl⟩
  · cases hu
  have hdigest : ∀ y ∈ votes ++ [vote], y.digest = vote.digest := fun y hy =>
    h.digest y hy vote (List.mem_append_right _ (List.mem_singleton_self _))
  have hnodup : (votes.map Vote.author).Nodup := (List.nodup_append.mp (List.map_append ▸ h.authors)).1
  have hlength : votes.length + 1 = v.quorum := by
    rw [← h.quorum, List.length_append, List.length_singleton]
  have hall : accepted v (votes ++ [vote]) = votes ++ [vote] :=
    accepted_of_distinct h.authors hdigest h.quorum.le
  have hvotes : accepted v votes = votes :=
    accepted_of_distinct hnodup (fun y hy => hdigest y (List.mem_append_left _ hy)) (by omega)
  have haccepts : (insertAll v votes).accepts v vote = true := by
    by_contra hrefused
    rw [accepted_concat_of_not (Bool.not_eq_true _ ▸ hrefused), hvotes] at hall
    exact List.cons_ne_nil _ _ (List.append_right_eq_self.mp hall.symm)
  have hfilter : ∀ l' : List Vote, (∀ y ∈ l', y ∈ votes ++ [vote]) →
      l'.filter (fun y => y.digest = vote.digest) = l' := by
    intro l' hl'
    exact List.filter_eq_self.mpr fun y hy => decide_eq_true (hdigest y (hl' y hy))
  obtain ⟨qc, hqc⟩ := ((tally_insertAll v votes).newQuorumCertificate vote).1.mpr ⟨haccepts, by
    rw [hvotes, hfilter votes fun y hy => List.mem_append_left _ hy, card_authorsOf hnodup]
    omega, by
    rw [hvotes, hfilter _ fun y hy => hy, card_authorsOf h.authors, h.quorum]
    omega⟩
  refine ⟨votes, vote, qc, rfl, hqc, fun hagreed => hdiffer ?_⟩
  -- Every vote decides as the certificate: its author has sent no other.
  have hsame : ∀ y ∈ votes ++ [vote], y.ledgerInfo.commitInfo = qc.commitInfo := by
    intro y hy
    obtain ⟨first, -, -, hsigners, -⟩ := certificate_spec hqc
    have hsigner : y.author ∈ qc.signatures := by
      rw [hsigners, acceptedFor, hvotes, hfilter votes fun y hy => List.mem_append_left _ hy]
      exact List.mem_toFinset.mpr (List.mem_map_of_mem hy)
    obtain ⟨z, hz, hauthor, hcommit⟩ := hagreed y.author hsigner
    rw [← List.inj_on_of_nodup_map h.authors hz hy hauthor]
    exact hcommit
  rw [hsame u hu, hsame w hw]

/-- The certificates made from the votes of `S` all carry a commit decision that each of their signers
has sent, exactly when no quorum of votes for one digest in `S` dissents. -/
theorem commit_agreed_iff (v : ValidatorVerifier) (S : Set Vote) :
    (∀ votes vote qc, (∀ u ∈ votes ++ [vote], u ∈ S) →
      ((insertAll v votes).insertVote v vote).2 = .newQuorumCertificate qc →
      CommitAgreed (votes ++ [vote]) qc)
    ↔ ¬ ∃ dissent : List Vote, (∀ u ∈ dissent, u ∈ S) ∧ Dissent v dissent := by
  constructor
  · rintro hagreed ⟨dissent, hmem, hdissent⟩
    obtain ⟨votes, vote, qc, rfl, hqc, hnot⟩ := hdissent.certificate
    exact hnot (hagreed votes vote qc hmem hqc)
  · intro hnone votes vote qc hmem hqc
    by_contra hnot
    obtain ⟨dissent, hsub, hdissent⟩ := exists_dissent hqc hnot
    exact hnone ⟨dissent, fun u hu => hmem u (hsub u hu), hdissent⟩

/-- Validator 1 names a commit decision of its own in a vote for the block that validators 2 and 3
vote for. The three votes pass the signature check, and whichever comes last returns a certificate with
a decision that one of its signers did not send. -/
theorem commit_decision_of_first_vote :
    let v := codeVerifier {1, 2, 3, 4} 3 4
    let l := [voteFor 1 11 0 { id := 44, round := 5 }, voteFor 2 11 0 {}, voteFor 3 11 0 {}]
    (∀ u ∈ l, v.verifyVoteSignature codeHasher u = true)
    ∧ ∃ votes vote qc, l = votes ++ [vote]
      ∧ ((insertAll v votes).insertVote v vote).2 = .newQuorumCertificate qc ∧ ¬ CommitAgreed l qc :=
  ⟨by decide +kernel, Dissent.certificate
    ⟨by decide, rfl, by decide +kernel, _, List.mem_cons_self, _, List.mem_cons_of_mem _ List.mem_cons_self,
      by decide⟩⟩

end Chainsql.Hotstuff.PendingVotes
