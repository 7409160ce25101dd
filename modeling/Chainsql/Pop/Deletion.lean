import Chainsql.Pop.AcceptSound

/-!
# Votes of deleted validators

Validators that lose trust should lose their votes. `onDeleteUntrusted` erases them from the votes for the
current set only: its loop over the cached votes works on copies, and a cached vote is counted once the leader
proposes its set.
-/

namespace Chainsql.Pop

def Votes.Without (votes : Votes) (keys : Finset PublicKey) : Prop :=
  ∀ id, Disjoint ((votes.lookup id).getD ∅) keys

namespace Votes

variable {votes : Votes} {keys voters : Finset PublicKey}

theorem without_empty : Without ∅ keys := fun _ => Finset.disjoint_empty_left keys

theorem Without.insert (h : votes.Without keys) (id : HashValue) (hvoters : Disjoint voters keys) :
    Without (AList.insert id voters votes) keys := by
  intro x
  rcases eq_or_ne x id with rfl | hne
  · simpa using hvoters
  · simpa [AList.lookup_insert_ne hne] using h x

theorem Without.erase (h : votes.Without keys) (id : HashValue) : Without (AList.erase id votes) keys := by
  intro x
  rcases eq_or_ne x id with rfl | hne
  · simp
  · simpa [AList.lookup_erase_ne hne] using h x

theorem Without.add (h : votes.Without keys) (id : HashValue) {key : PublicKey} (hkey : key ∉ keys) :
    (votes.add id key).Without keys :=
  h.insert id (Finset.disjoint_insert_left.mpr ⟨hkey, h id⟩)

end Votes

namespace PopConsensus

variable {s t : PopConsensus} {keys : Finset PublicKey} (env : PopAdaptor)

structure SameVotes (s t : PopConsensus) : Prop where
  voted : ∀ id, (t.txSetVoted.lookup id).getD ∅ = (s.txSetVoted.lookup id).getD ∅
  cached : t.txSetCached = s.txSetCached
  valPublic : t.valPublic = s.valPublic
  trusted : t.trusted = s.trusted
  proposalCache : t.proposalCache = s.proposalCache

theorem SameVotes.refl (s : PopConsensus) : SameVotes s s := ⟨fun _ => rfl, rfl, rfl, rfl, rfl⟩

theorem sameVotes_checkVoting : SameVotes s (s.checkVoting env) := by
  have htouched (id : HashValue) :
      (s.touchVoted.txSetVoted.lookup id).getD ∅ = (s.txSetVoted.lookup id).getD ∅ := by
    unfold touchVoted
    rcases eq_or_ne id (s.setID.getD zeroHash) with rfl | hne
    · rw [AList.lookup_emplace_self]
      simp
    · rw [AList.lookup_emplace_ne hne]
  refine checkVoting_ways (.refl s) ?_
  rintro r u - rfl
  exact ⟨⟨htouched, rfl, rfl, rfl, rfl⟩, ⟨htouched, rfl, rfl, rfl, rfl⟩⟩

structure Free (keys : Finset PublicKey) (s : PopConsensus) : Prop where
  voted : s.txSetVoted.Without keys
  cached : s.txSetCached.Without keys
  own : s.valPublic ∉ keys
  untrusted : Disjoint s.trusted keys
  proposals : s.proposalCache.All fun _ table => table.All fun _ p => p.publicKey ∉ keys

theorem Free.congr (hs : s.Free keys) (h : SameVotes s t) : t.Free keys where
  voted id := h.voted id ▸ hs.voted id
  cached := h.cached ▸ hs.cached
  own := h.valPublic ▸ hs.own
  untrusted := h.trusted ▸ hs.untrusted
  proposals := h.proposalCache ▸ hs.proposals

theorem Free.opened (hs : s.Free keys) (h : Opened s t) : t.Free keys where
  voted := h.txSetVoted ▸ Votes.without_empty
  cached := h.txSetCached ▸ Votes.without_empty
  own := h.valPublic ▸ hs.own
  untrusted := h.trusted ▸ hs.untrusted
  proposals := h.proposalCache ▸ hs.proposals

theorem Free.takeStance (hs : s.Free keys) (id : HashValue) : (s.takeStance env id).Free keys := by
  unfold PopConsensus.takeStance
  dsimp only
  split
  · exact { hs with voted := hs.voted.add id hs.own }
  · exact hs.congr ⟨fun _ => rfl, rfl, rfl, rfl, rfl⟩

theorem Free.checkSaveNextProposal (hs : s.Free keys) {p : Proposal} (hp : p.publicKey ∉ keys) :
    (s.checkSaveNextProposal p).Free keys := by
  obtain ⟨cache, heq, hcache⟩ := checkSaveNextProposal_spec s p
  rw [heq]
  exact { hs with proposals := hcache _ hs.proposals hp }

theorem Free.countProposal (hs : s.Free keys) {p : Proposal} (hp : p.publicKey ∉ keys) :
    (s.countProposal env p).1.Free keys := by
  unfold PopConsensus.countProposal
  split
  · exact { hs with voted := hs.voted.add _ hp }
  · split
    · split
      · exact hs.congr ⟨fun _ => rfl, rfl, rfl, rfl, rfl⟩
      · have hvoters := Finset.disjoint_insert_left.mpr ⟨hp, hs.cached p.position⟩
        exact { hs with voted := hs.voted.insert _ hvoters, cached := hs.cached.erase _ }
    · exact { hs with cached := hs.cached.add _ hp }

theorem Free.leaveConsensus (hs : s.Free keys) : s.leaveConsensus.Free keys := by
  unfold PopConsensus.leaveConsensus
  split
  · rcases s.result with _ | r
    · exact hs.congr ⟨fun _ => rfl, rfl, rfl, rfl, rfl⟩
    · dsimp only
      split
      · exact hs.congr ⟨fun _ => rfl, rfl, rfl, rfl, rfl⟩
      · exact hs.congr ⟨fun _ => rfl, rfl, rfl, rfl, rfl⟩
  · exact hs

theorem kept_free (keys : Finset PublicKey) : Kept (Free keys) (fun p => p.publicKey ∉ keys) False env where
  quiet hs h := hs.congr ⟨fun _ => by rw [h.txSetVoted], h.txSetCached, h.valPublic, h.trusted, h.proposalCache⟩
  checkVoting hs := hs.congr (sameVotes_checkVoting env)
  takeStance id hs _ := hs.takeStance env id
  save hs hp := hs.checkSaveNextProposal hp
  count hs hp := hs.countProposal env hp
  cached hs hlookup := hs.proposals.lookup hlookup
  prune _ hs := { hs with proposals := hs.proposals.eraseIf _ }
  round hs hopened _ _ _ := hs.opened hopened
  changeView hs hopened _ _ _ := hs.opened hopened
  leaveConsensus hs := hs.leaveConsensus
  propose hs _ := hs.congr ⟨fun _ => rfl, rfl, rfl, rfl, rfl⟩
  lead hs := { hs with voted := hs.voted.insert _ (Finset.disjoint_singleton_left.mpr hs.own) }

def NotTrusted (keys : Finset PublicKey) (e : Event) : Prop :=
  match e.action with
  | .updateTrusted trusted => Disjoint trusted keys
  | _ => True

theorem lookup_votesWithout (id : HashValue) :
    ((s.votesWithout keys).lookup id).getD ∅
      = if s.setID = some id then (s.txSetVoted.lookup id).getD ∅ \ keys else (s.txSetVoted.lookup id).getD ∅ := by
  unfold votesWithout
  rcases s.setID with _ | current
  · simp
  · dsimp only
    rcases hvoters : s.txSetVoted.lookup current with _ | voters
    all_goals rcases eq_or_ne id current with rfl | hne
    · simp [hvoters]
    · simp [hne.symm]
    · simp [hvoters]
    · simp [hne.symm, AList.lookup_insert_ne hne]

theorem Free.votesWithout (hs : s.Free keys) (nowUntrusted : Finset PublicKey) :
    (s.votesWithout nowUntrusted).Without keys := by
  intro id
  rw [lookup_votesWithout]
  split
  · exact (hs.voted id).mono_left Finset.sdiff_subset
  · exact hs.voted id

theorem Free.step (hs : s.Free keys) {e : Event} (hnot : NotTrusted keys e) : (s.step e).Free keys := by
  refine (kept_free e.env keys).step hs False.elim ?_ ?_ ?_
  · exact fun p _ htrusted hp => Finset.disjoint_left.mp hs.untrusted htrusted hp
  · intro trusted haction
    unfold NotTrusted at hnot
    rw [haction] at hnot
    exact { hs with untrusted := hnot }
  · intro removed nowUntrusted _
    exact { hs with
      voted := hs.votesWithout nowUntrusted
      untrusted := hs.untrusted.mono_left Finset.sdiff_subset }

theorem sameVotes_onDeleteUntrusted (s : PopConsensus) (keys : Finset PublicKey) :
    SameVotes { s with txSetVoted := s.votesWithout keys } (s.onDeleteUntrusted env keys) := by
  unfold onDeleteUntrusted
  dsimp only
  split
  · exact sameVotes_checkVoting env
  · exact .refl _

def OnlyCurrent (keys : Finset PublicKey) (s : PopConsensus) : Prop :=
  s.txSetCached.Without keys ∧ ∀ id, s.setID ≠ some id → Disjoint ((s.txSetVoted.lookup id).getD ∅) keys

theorem without_onDeleteUntrusted_iff :
    (s.onDeleteUntrusted env keys).txSetCached.Without keys ∧ (s.onDeleteUntrusted env keys).txSetVoted.Without keys
      ↔ s.OnlyCurrent keys := by
  have hsame := sameVotes_onDeleteUntrusted env s keys
  refine and_congr (by rw [hsame.cached]) (forall_congr' fun id => ?_)
  rw [hsame.voted, lookup_votesWithout]
  split
  next hset => simp [hset, Finset.sdiff_disjoint]
  next hset => simp [hset]

def bothVoted : PopConsensus :=
  { idle 4 {4} with setID := some 10, txSetVoted := AList.insert 10 {3, 4} ∅ }

end PopConsensus

end Chainsql.Pop
