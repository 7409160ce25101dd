import Chainsql.Pop.Handlers

/-!
# What an accept of PoP rests on

When a node accepts with state `yes`, its own stance should be the set its leader named last, and a
quorum of trusted keys should have proposed that set for the same previous ledger, sequence and view.
The tally is compared with the log of all proposals heard. It is kept by every step except those in
which the leader names a second set after the stance was taken, the node works on a ledger it does not
have, or a key loses trust whose vote stays recorded; and the quorum has to fit an `int`.
-/

namespace Chainsql.Pop

open AList

structure Slot where
  prevLedger : HashValue
  seq : UInt32
  view : UInt64

def Proposal.slot (p : Proposal) : Slot := ⟨p.prevLedger, p.curLedgerSeq, p.view⟩

def Accept.slot (a : Accept) : Slot := ⟨a.prevLedgerID, a.seq, a.view⟩

section Tally

variable {heard heard' : List Proposal} {slot : Slot} {id : HashValue} {key : PublicKey}
  {trusted : Finset PublicKey} {votes : Votes}

def Vouched (heard : List Proposal) (slot : Slot) (id : HashValue) (key : PublicKey) : Prop :=
  ∃ p ∈ heard, p.slot = slot ∧ p.position = id ∧ p.publicKey = key

theorem Vouched.mono (h : Vouched heard slot id key) (hsub : heard ⊆ heard') :
    Vouched heard' slot id key := by
  obtain ⟨p, hp, hrest⟩ := h
  exact ⟨p, hsub hp, hrest⟩

namespace Votes

def Backed (trusted : Finset PublicKey) (heard : List Proposal) (slot : Slot) (votes : Votes) : Prop :=
  votes.All fun id keys => ∀ key ∈ keys, key ∈ trusted ∧ Vouched heard slot id key

theorem Backed.mono (h : Backed trusted heard slot votes) (hsub : heard ⊆ heard') :
    Backed trusted heard' slot votes :=
  h.imp fun _ _ hkeys key hkey => ⟨(hkeys key hkey).1, (hkeys key hkey).2.mono hsub⟩

theorem Backed.of_mem_getD (h : Backed trusted heard slot votes)
    (hkey : key ∈ (votes.lookup id).getD ∅) : key ∈ trusted ∧ Vouched heard slot id key := by
  cases hlookup : votes.lookup id with
  | none =>
    rw [hlookup] at hkey
    exact absurd hkey (Finset.notMem_empty key)
  | some keys =>
    rw [hlookup] at hkey
    exact h.lookup hlookup key hkey

theorem Backed.insert_insert (h : Backed trusted heard slot votes) (hkey : key ∈ trusted)
    (hvouched : Vouched heard slot id key) {keys : Finset PublicKey}
    (hkeys : ∀ k ∈ keys, k ∈ trusted ∧ Vouched heard slot id k) :
    Backed trusted heard slot (votes.insert id (insert key keys)) := by
  refine AList.All.insert h fun k hk => ?_
  rcases Finset.mem_insert.mp hk with rfl | hk
  · exact ⟨hkey, hvouched⟩
  · exact hkeys k hk

theorem Backed.add (h : Backed trusted heard slot votes) (hkey : key ∈ trusted)
    (hvouched : Vouched heard slot id key) : Backed trusted heard slot (votes.add id key) :=
  h.insert_insert hkey hvouched fun _ hk => h.of_mem_getD hk

end Votes

def Accept.Sound (heard : List Proposal) (a : Accept) : Prop :=
  ∀ r ∈ a.result, r.state = .yes → a.setID = some r.txns
    ∧ ∃ keys ⊆ a.trusted, a.quorum ≤ keys.card ∧ ∀ key ∈ keys, Vouched heard a.slot r.txns key

theorem Accept.Sound.mono {a : Accept} (h : a.Sound heard) (hsub : heard ⊆ heard') : a.Sound heard' := by
  intro r hr hyes
  obtain ⟨hset, keys, htrusted, hcard, hvouched⟩ := h r hr hyes
  exact ⟨hset, keys, htrusted, hcard, fun key hkey => (hvouched key hkey).mono hsub⟩

end Tally

namespace PopConsensus

variable {s t : PopConsensus} {env : PopAdaptor} {voter : Bool} {id : HashValue}

def slot (s : PopConsensus) : Slot := ⟨s.prevLedgerID, s.curSeq, s.view⟩

/-- Votes and cached proposals come from trusted keys and were heard, the stance is the set that is
counted, and no vote is counted before the end of initialization. A `voter` trusts its own key. -/
structure SoundVotes (voter : Bool) (s : PopConsensus) : Prop where
  self : voter = true → s.valPublic ∈ s.trusted
  voted : s.txSetVoted.Backed s.trusted s.heard s.slot
  cached : s.txSetCached.Backed s.trusted s.heard s.slot
  stance : ∀ r ∈ s.result, s.setID = some r.txns
  cache : s.proposalCache.All fun _ table =>
    table.All fun key p => p.publicKey = key ∧ p ∈ s.heard ∧ key ∈ s.trusted
  waiting : s.initialized = false → s.txSetVoted = ∅ ∧ s.txSetCached = ∅ ∧ s.setID = none
  accepts : ∀ a ∈ s.accepts, a.Sound s.heard

/-! ## Voting -/

theorem SoundVotes.hear (hs : s.SoundVotes voter) (p : Proposal) :
    { s with heard := p :: s.heard }.SoundVotes voter where
  self := hs.self
  voted := hs.voted.mono (List.subset_cons_self p s.heard)
  cached := hs.cached.mono (List.subset_cons_self p s.heard)
  stance := hs.stance
  cache := hs.cache.imp fun _ _ htable => htable.imp fun _ _ h => ⟨h.1, List.mem_cons_of_mem p h.2.1, h.2.2⟩
  waiting := hs.waiting
  accepts a ha := (hs.accepts a ha).mono (List.subset_cons_self p s.heard)

theorem SoundVotes.accept (hs : s.SoundVotes voter)
    (hagreed : ∀ r ∈ s.result, r.state = .yes → env.quorum ≤ s.agreed.card) :
    (s.accept env).SoundVotes voter := by
  refine { hs with accepts := ?_ }
  intro a ha
  rcases List.mem_cons.mp ha with rfl | ha
  · intro r hr hyes
    have hset : s.setID = some r.txns := hs.stance r hr
    refine ⟨hset, s.agreed, ?_, hagreed r hr hyes, ?_⟩
    · exact fun key hkey => (hs.voted.of_mem_getD hkey).1
    · intro key hkey
      have hvouched := (hs.voted.of_mem_getD hkey).2
      rw [hset] at hvouched
      exact hvouched
  · exact hs.accepts a ha

theorem SoundVotes.touchVoted (hs : s.SoundVotes voter) {r : Result} (hr : s.result = some r) :
    s.touchVoted.SoundVotes voter := by
  refine { hs with voted := ?_, waiting := ?_ }
  · exact AList.All.emplace hs.voted fun key hkey => absurd hkey (Finset.notMem_empty key)
  · intro hwait
    have hset := hs.stance r hr
    rw [(hs.waiting hwait).2.2] at hset
    cases hset

theorem SoundVotes.takeStance (hs : s.SoundVotes env.validating) (hset : s.setID = some id) :
    (s.takeStance env id).SoundVotes env.validating := by
  have hstance : ∀ position : Proposal, ∀ r ∈ some (Result.mk id position .no), s.setID = some r.txns := by
    rintro position r ⟨⟩
    exact hset
  have hwaiting : ¬ s.initialized = false := by
    intro hwait
    rw [(hs.waiting hwait).2.2] at hset
    cases hset
  unfold PopConsensus.takeStance
  dsimp only
  split
  next hvalidating =>
    have hheard := hs.hear
      { position := id, prevLedger := s.prevLedgerID, curLedgerSeq := s.curSeq, view := s.view,
        publicKey := s.valPublic }
    exact { hheard with
      stance := hstance _
      voted := hheard.voted.add (hs.self hvalidating) ⟨_, List.mem_cons_self, rfl, rfl, rfl⟩
      waiting := fun hwait => absurd hwait hwaiting }
  · exact { hs with stance := hstance _ }

/-! ## Proposals of peers -/

variable {p : Proposal} {erased trusted : Finset PublicKey}

theorem SoundVotes.checkSaveNextProposal (hs : s.SoundVotes voter) (hp : p ∈ s.heard)
    (htrusted : p.publicKey ∈ s.trusted) : (s.checkSaveNextProposal p).SoundVotes voter := by
  obtain ⟨cache, heq, hcache⟩ := checkSaveNextProposal_spec s p
  rw [heq]
  exact { hs with cache := hcache _ hs.cache ⟨rfl, hp, htrusted⟩ }

/-- A stance is taken already, and the leader names a set that is not counted. -/
def SecondSet (env : PopAdaptor) (s : PopConsensus) (p : Proposal) : Prop :=
  s.result.isSome = true ∧ p.position ∉ s.txSetVoted ∧ s.isLeader env p.publicKey = true

instance decidableSecondSet (env : PopAdaptor) (s : PopConsensus) (p : Proposal) :
    Decidable (SecondSet env s p) :=
  inferInstanceAs (Decidable (_ ∧ _ ∧ _))

theorem SoundVotes.countProposal (hs : s.SoundVotes voter) (hinit : s.initialized = true) (hp : p ∈ s.heard)
    (htrusted : p.publicKey ∈ s.trusted) (hslot : p.slot = s.slot) (hsecond : ¬ SecondSet env s p) :
    (s.countProposal env p).1.SoundVotes voter := by
  have hvouched : Vouched s.heard s.slot p.position p.publicKey := ⟨p, hp, hslot, rfl, rfl⟩
  have hwaiting : ¬ s.initialized = false := by simp [hinit]
  unfold PopConsensus.countProposal
  split
  · exact { hs with
      voted := hs.voted.add htrusted hvouched
      waiting := fun hwait => absurd hwait hwaiting }
  next hnew =>
    split
    next hlead =>
      split
      · exact { hs with }
      · exact { hs with
          voted := hs.voted.insert_insert htrusted hvouched fun _ hk => hs.cached.of_mem_getD hk
          cached := AList.All.erase hs.cached _
          stance := fun r hr => absurd ⟨Option.isSome_iff_exists.mpr ⟨r, hr⟩, hnew, hlead⟩ hsecond
          waiting := fun hwait => absurd hwait hwaiting }
    · exact { hs with
        cached := hs.cached.add htrusted hvouched
        waiting := fun hwait => absurd hwait hwaiting }

/-! ## One round -/

structure SameRound (s t : PopConsensus) : Prop where
  trusted : t.trusted = s.trusted
  curSeq : t.curSeq = s.curSeq
  view : t.view = s.view
  setID : t.setID = s.setID
  heard : s.heard ⊆ t.heard

theorem SameRound.refl (s : PopConsensus) : SameRound s s := ⟨rfl, rfl, rfl, rfl, List.Subset.refl _⟩

theorem SameRound.trans {u : PopConsensus} (hst : SameRound s t) (htu : SameRound t u) : SameRound s u where
  trusted := htu.trusted.trans hst.trusted
  curSeq := htu.curSeq.trans hst.curSeq
  view := htu.view.trans hst.view
  setID := htu.setID.trans hst.setID
  heard := List.Subset.trans hst.heard htu.heard

theorem SameRound.isLeader (h : SameRound s t) (key : PublicKey) : t.isLeader env key = s.isLeader env key := by
  unfold PopConsensus.isLeader
  rw [h.curSeq, h.view]

theorem sameRound_checkVoting : SameRound s (s.checkVoting env) := by
  refine checkVoting_ways (.refl s) ?_
  rintro r u - rfl
  exact ⟨⟨rfl, rfl, rfl, rfl, List.Subset.refl _⟩, ⟨rfl, rfl, rfl, rfl, List.Subset.refl _⟩⟩

theorem sameRound_gotTxSet : SameRound s (s.gotTxSet env id) := by
  refine gotTxSet_ways (.refl s) ⟨rfl, rfl, rfl, rfl, List.Subset.refl _⟩ (fun _ _ => ?_) fun _ hu =>
    hu.trans sameRound_checkVoting
  unfold takeStance
  dsimp only
  split
  · exact ⟨rfl, rfl, rfl, rfl, List.subset_cons_self _ _⟩
  · exact ⟨rfl, rfl, rfl, rfl, List.Subset.refl _⟩

theorem sameRound_fetchTxSet : SameRound s (s.fetchTxSet env p) :=
  fetchTxSet_ways (.refl s) (fun _ => sameRound_gotTxSet) sameRound_checkVoting

theorem sameRound_checkSaveNextProposal : SameRound s (s.checkSaveNextProposal p) := by
  obtain ⟨cache, heq, -⟩ := checkSaveNextProposal_spec s p
  rw [heq]
  exact ⟨rfl, rfl, rfl, rfl, List.Subset.refl _⟩

/-- Only a proposal of the leader decides which set is counted. -/
theorem sameRound_peerProposalInternal (env : PopAdaptor) (s : PopConsensus) (p : Proposal) :
    ∃ setID, SameRound { s with setID := setID } (s.peerProposalInternal env p).1
      ∧ (s.isLeader env p.publicKey = false → setID = s.setID) := by
  have hunchanged : ∀ {u : PopConsensus}, SameRound s u → ∃ setID, SameRound { s with setID := setID } u
      ∧ (s.isLeader env p.publicKey = false → setID = s.setID) :=
    fun hu => ⟨s.setID, hu, fun _ => rfl⟩
  apply peerProposalInternal_ways (Q := fun u => ∃ setID, SameRound { s with setID := setID } u
    ∧ (s.isLeader env p.publicKey = false → setID = s.setID))
  · exact hunchanged (.refl s)
  · exact hunchanged sameRound_checkSaveNextProposal
  · intro _ _ _ _
    unfold countProposal
    split
    · exact hunchanged ⟨rfl, rfl, rfl, rfl, List.Subset.refl _⟩
    · split
      next hlead =>
        split
        · exact hunchanged ⟨rfl, rfl, rfl, rfl, List.Subset.refl _⟩
        · refine ⟨some p.position, ⟨rfl, rfl, rfl, rfl, List.Subset.refl _⟩, fun hnot => ?_⟩
          rw [hlead] at hnot
          cases hnot
      · exact hunchanged ⟨rfl, rfl, rfl, rfl, List.Subset.refl _⟩
  · rintro u ⟨setID, hu, hnot⟩
    exact ⟨setID, hu.trans sameRound_fetchTxSet, hnot⟩

/-! ## Ledgers -/

theorem SoundVotes.clearVotes (hs : s.SoundVotes voter) : s.clearVotes.SoundVotes voter :=
  { hs with
    voted := all_empty
    cached := all_empty
    stance := fun _ hr => nomatch hr
    waiting := fun _ => ⟨rfl, rfl, rfl⟩ }

/-- The node has the ledger it works on, or knows that it does not and has counted nothing. -/
def OnLedger (s : PopConsensus) : Prop :=
  s.previousLedger.id = s.prevLedgerID ∨ s.mode = .wrongLedger ∧ s.txSetVoted = ∅ ∧ s.txSetCached = ∅

instance decidableOnLedger (s : PopConsensus) : Decidable s.OnLedger :=
  inferInstanceAs (Decidable (_ ∨ _))

structure Ready (env : PopAdaptor) (s : PopConsensus) : Prop extends SoundVotes env.validating s where
  initialized : s.initialized = true
  ledger : s.previousLedger.id = s.prevLedgerID ∨ s.mode = .wrongLedger

theorem SoundVotes.leaveConsensus (hs : s.SoundVotes voter) :
    s.leaveConsensus.SoundVotes voter ∧ s.leaveConsensus.initialized = s.initialized
      ∧ s.leaveConsensus.previousLedger = s.previousLedger ∧ s.leaveConsensus.prevLedgerID = s.prevLedgerID
      ∧ s.leaveConsensus.txSetVoted = s.txSetVoted ∧ s.leaveConsensus.txSetCached = s.txSetCached := by
  unfold PopConsensus.leaveConsensus
  split
  · cases hr : s.result with
    | none => exact ⟨{ hs with stance := fun r h => hs.stance r (hr ▸ h) }, rfl, rfl, rfl, rfl, rfl⟩
    | some r =>
      dsimp only
      split
      · exact ⟨{ hs with stance := fun r h => hs.stance r (hr ▸ h) }, rfl, rfl, rfl, rfl, rfl⟩
      · refine ⟨{ hs.hear { r.position with isBowOut := true } with stance := ?_ }, rfl, rfl, rfl, rfl, rfl⟩
        rintro r' ⟨⟩
        exact hs.stance r hr
  · exact ⟨hs, rfl, rfl, rfl, rfl, rfl⟩

theorem SoundVotes.withLedger (hs : s.SoundVotes voter) {lgrId : HashValue}
    (h : s.prevLedgerID = lgrId ∨ s.txSetVoted = ∅ ∧ s.txSetCached = ∅) :
    { s with prevLedgerID := lgrId }.SoundVotes voter := by
  rcases h with rfl | ⟨hvoted, hcached⟩
  · exact hs
  · refine { hs with voted := ?_, cached := ?_ }
    · rw [hvoted]
      exact all_empty
    · rw [hcached]
      exact all_empty

theorem id_of_acquireLedger {l : LedgerRef} (h : env.acquireLedger id = some l) : l.id = id := by
  obtain ⟨seq, -, rfl⟩ := Option.map_eq_some_iff.mp h
  rfl

/-! ## The handlers -/

section Quorum

variable (hquorum : 2 * env.quorum < UInt32.size)
include hquorum

theorem quorum_le_agreed (hyes : s.consensusState env = .yes) : env.quorum ≤ s.agreed.card := by
  have hint : (env.quorum : Int).bmod UInt32.size = env.quorum := by
    apply Int.bmod_eq_of_le
    · omega
    · omega
  unfold consensusState at hyes
  by_contra hlt
  rw [if_neg (by omega)] at hyes
  split_ifs at hyes

theorem SoundVotes.checkVoting (hs : s.SoundVotes voter) : (s.checkVoting env).SoundVotes voter := by
  refine checkVoting_ways hs fun r u hr hu => ?_
  have htouched := hs.touchVoted hr
  have hagreed := fun hyes => quorum_le_agreed (s := s.touchVoted) hquorum hyes
  generalize s.touchVoted.consensusState env = state at hagreed hu
  subst hu
  have hstate : { s.touchVoted with result := some { r with state := state } }.SoundVotes voter := by
    refine { htouched with stance := ?_ }
    rintro r' ⟨⟩
    exact hs.stance r hr
  refine ⟨hstate, hstate.accept ?_⟩
  rintro r' ⟨⟩ hyes
  exact hagreed hyes

namespace SoundVotes

variable (hs : s.SoundVotes env.validating)
include hs

theorem gotTxSet (id : HashValue) : (s.gotTxSet env id).SoundVotes env.validating := by
  have hacquired : { s with acquired := insert id s.acquired }.SoundVotes env.validating := { hs with }
  exact gotTxSet_ways hs hacquired (fun hset _ => hacquired.takeStance hset) fun _ hu => hu.checkVoting hquorum

theorem peerProposalInternal (hp : p ∈ s.heard) (htrusted : p.publicKey ∈ s.trusted) (hsecond : ¬ SecondSet env s p) :
    (s.peerProposalInternal env p).1.SoundVotes env.validating := by
  refine peerProposalInternal_ways hs (hs.checkSaveNextProposal hp htrusted) (fun hinit hseq hledger hview => ?_)
    fun u hu => fetchTxSet_ways hu (hu.gotTxSet hquorum) (hu.checkVoting hquorum)
  refine hs.countProposal hinit hp htrusted ?_ hsecond
  simp only [Proposal.slot, slot, hledger, hseq, hview]

theorem foldl_peerProposalInternal (proposals : List Proposal)
    (hknown : ∀ p ∈ proposals, p ∈ s.heard ∧ p.publicKey ∈ s.trusted)
    (hnodup : (proposals.map Proposal.publicKey).Nodup)
    (hset : s.setID = none ∨ ∀ p ∈ proposals, s.isLeader env p.publicKey = false) :
    (proposals.foldl (fun s p => (s.peerProposalInternal env p).1) s).SoundVotes env.validating := by
  induction proposals generalizing s with
  | nil => exact hs
  | cons p proposals ih =>
    obtain ⟨hp, htrusted⟩ := hknown p List.mem_cons_self
    obtain ⟨hfresh, hnodup⟩ := List.nodup_cons.mp hnodup
    have hsecond : ¬ SecondSet env s p := by
      rintro ⟨hresult, -, hlead⟩
      obtain ⟨r, hr⟩ := Option.isSome_iff_exists.mp hresult
      rcases hset with hnone | hnot
      · rw [hs.stance r hr] at hnone
        cases hnone
      · rw [hnot p List.mem_cons_self] at hlead
        cases hlead
    obtain ⟨setID, hround, hunchanged⟩ := sameRound_peerProposalInternal env s p
    have hleader : ∀ key, (s.peerProposalInternal env p).1.isLeader env key = s.isLeader env key :=
      fun key => hround.isLeader key
    refine ih (hs.peerProposalInternal hquorum hp htrusted hsecond) ?_ hnodup ?_
    · intro q hq
      obtain ⟨hqheard, hqtrusted⟩ := hknown q (List.mem_cons_of_mem p hq)
      exact ⟨hround.heard hqheard, hround.trusted ▸ hqtrusted⟩
    · cases hlead : s.isLeader env p.publicKey with
      | false =>
        rcases hset with hnone | hnot
        · exact .inl (hround.setID.trans ((hunchanged hlead).trans hnone))
        · exact .inr fun q hq => (hleader q.publicKey).trans (hnot q (List.mem_cons_of_mem p hq))
      | true =>
        refine .inr fun q hq => (hleader q.publicKey).trans (Bool.eq_false_iff.mpr fun hq' => hfresh ?_)
        rw [(beq_iff_eq.mp hlead).trans (beq_iff_eq.mp hq').symm]
        exact List.mem_map_of_mem hq

theorem checkCache (hset : s.setID = none) : (s.checkCache env).SoundVotes env.validating := by
  unfold PopConsensus.checkCache
  split
  · exact hs
  next table htable =>
    have hcached := hs.cache.lookup htable
    have hperm := List.perm_insertionSort (fun e f : Sigma fun _ : PublicKey => Proposal => e.1 ≤ f.1) table.entries
    generalize table.entries.insertionSort (fun e f => e.1 ≤ f.1) = sorted at hperm
    have hsorted : ∀ e ∈ sorted, e.2.publicKey = e.1 ∧ e.2 ∈ s.heard ∧ e.1 ∈ s.trusted :=
      fun e he => hcached e (hperm.mem_iff.mp he)
    have hkeys : (sorted.map Sigma.snd).map Proposal.publicKey = sorted.keys := by
      rw [List.map_map]
      exact List.map_congr_left fun e he => (hsorted e he).1
    have hfold := hs.foldl_peerProposalInternal hquorum (sorted.map Sigma.snd) ?_ ?_ (.inl hset)
    · exact { hfold with cache := hfold.cache.eraseIf _ }
    · intro p hp
      obtain ⟨e, he, rfl⟩ := List.mem_map.mp hp
      obtain ⟨hkey, hheard, htrusted⟩ := hsorted e he
      exact ⟨hheard, hkey ▸ htrusted⟩
    · rw [hkeys]
      exact (hperm.map Sigma.fst).nodup_iff.mpr table.nodupKeys

theorem startRoundInternal (prevLedgerID : HashValue) (prevLedger : LedgerRef) (mode : ConsensusMode) :
    (s.startRoundInternal env prevLedgerID prevLedger mode).SoundVotes env.validating := by
  unfold PopConsensus.startRoundInternal
  split
  · refine SoundVotes.checkCache hquorum ?_ rfl
    exact { hs.clearVotes with voted := all_empty, cached := all_empty }
  · exact { hs.clearVotes with voted := all_empty, cached := all_empty }

theorem startRound (prevLedgerID : HashValue) (prevLedger : LedgerRef) (proposing : Bool) :
    (s.startRound env prevLedgerID prevLedger proposing).SoundVotes env.validating := by
  unfold PopConsensus.startRound
  dsimp only
  split
  · split
    · exact hs.startRoundInternal hquorum _ _ _
    · exact hs.startRoundInternal hquorum _ _ _
  · exact hs.startRoundInternal hquorum _ _ _

theorem onViewChange (toView : UInt64) : (s.onViewChange env toView).SoundVotes env.validating := by
  have hcache : ∀ u : PopConsensus, u.SoundVotes env.validating → u.setID = none →
      (if u.mode = .proposing then u.checkCache env else u).SoundVotes env.validating := by
    intro u hu hset
    split
    · exact hu.checkCache hquorum hset
    · exact hu
  unfold PopConsensus.onViewChange
  dsimp only
  split
  · split
    · exact hcache _ { hs.clearVotes with voted := all_empty, cached := all_empty } rfl
    · exact hcache _ { hs.clearVotes with voted := all_empty, cached := all_empty } rfl
  · exact hcache _ { hs.clearVotes with voted := all_empty, cached := all_empty } rfl

theorem handleWrongLedger (hinit : s.initialized = true) (hon : s.OnLedger) (lgrId : HashValue) :
    (s.handleWrongLedger env lgrId).Ready env := by
  have hready : s.Ready env := { hs with initialized := hinit, ledger := hon.imp_right And.left }
  unfold PopConsensus.handleWrongLedger
  split
  · exact hready
  next newLedger hacquired =>
    split
    · exact hready
    · obtain ⟨hleft, hinitialized, hprevious, hledger, hvoted, hcached⟩ := hs.leaveConsensus
      dsimp only
      split
      next hsame =>
        have hkept : { s.leaveConsensus with prevLedgerID := lgrId }.SoundVotes env.validating := by
          apply hleft.withLedger
          rw [hledger, hvoted, hcached]
          exact hon.imp (fun h => by rw [← h, ← hprevious, hsame]) And.right
        exact { hkept with initialized := hinitialized.trans hinit, ledger := .inl hsame }
      · have hstarted := hleft.startRoundInternal hquorum lgrId newLedger .switchedLedger
        exact { hstarted with
          initialized := hinitialized.trans hinit
          ledger := .inl (id_of_acquireLedger hacquired) }

theorem checkLedger (hinit : s.initialized = true) (hon : s.OnLedger) : (s.checkLedger env).Ready env := by
  have hready : s.Ready env := { hs with initialized := hinit, ledger := hon.imp_right And.left }
  unfold PopConsensus.checkLedger
  dsimp only
  split
  · split
    · exact hready
    · exact hs.handleWrongLedger hquorum hinit hon _
  · split
    · exact hs.handleWrongLedger hquorum hinit hon _
    · exact hready

theorem checkChangeView (hinit : s.initialized = true) {toView : UInt64} (hon : s.toView ≠ toView → s.OnLedger) :
    (s.checkChangeView env toView).SoundVotes env.validating := by
  unfold PopConsensus.checkChangeView
  split
  · exact hs
  · split
    · split
      · exact hs.onViewChange hquorum toView
      · exact hs
    next hne =>
      have hwrong := fun lgrId => (hs.handleWrongLedger hquorum hinit (hon hne) lgrId).toSoundVotes
      split
      · exact hs
      · split
        · exact hwrong _
        · split
          · split
            · exact hwrong _
            · exact hs.onViewChange hquorum toView
          · exact hs

theorem peerViewChangeInternal (v : ViewChange) (hon : s.toView ≠ v.toView → s.OnLedger) :
    (s.peerViewChangeInternal env v).SoundVotes env.validating := by
  have hrecv : { s with viewChangeManager := s.viewChangeManager.recvViewChange v }.SoundVotes env.validating :=
    { hs with }
  unfold PopConsensus.peerViewChangeInternal
  dsimp only
  split
  · exact hrecv
  next hinit => exact hrecv.checkChangeView hquorum (by simpa using hinit) hon

theorem checkTimeout : (s.checkTimeout env).SoundVotes env.validating := by
  unfold PopConsensus.checkTimeout
  split
  · exact hs
  · split
    · exact hs
    · have hask : { s with toView := s.view + 1 }.SoundVotes env.validating := { hs with }
      split
      · exact { hask.peerViewChangeInternal hquorum _ (fun hne => absurd rfl hne) with }
      · exact { hs with }

end SoundVotes

theorem Ready.phaseCollecting (hs : s.Ready env) (hvalidating : env.validating = true) (hmode : s.mode ≠ .wrongLedger) :
    (s.phaseCollecting env).SoundVotes env.validating := by
  have hledger : s.previousLedger.id = s.prevLedgerID := hs.ledger.resolve_right hmode
  have hwaiting : ¬ s.initialized = false := by simp [hs.initialized]
  unfold PopConsensus.phaseCollecting
  split
  · exact hs.toSoundVotes
  · split
    · have hproposed : (s.proposeCollected env).SoundVotes env.validating :=
        { hs.toSoundVotes.hear
            { position := env.collected, prevLedger := s.previousLedger.id, curLedgerSeq := s.curSeq,
              view := s.view, publicKey := s.valPublic,
              txSet := if env.proposeTxSetDetail then some env.collected else none } with
          stance := by
            rintro r ⟨⟩
            rfl
          waiting := fun hwait => absurd hwait hwaiting }
      have hvouched : Vouched (s.proposeCollected env).heard s.slot env.collected s.valPublic :=
        ⟨_, List.mem_cons_self, by simp only [Proposal.slot, slot, hledger], rfl, rfl⟩
      split
      · exact { hproposed with }
      · refine SoundVotes.checkVoting hquorum ?_
        refine { hproposed with
          voted := hproposed.voted.insert ?_, waiting := fun hwait => absurd hwait hwaiting }
        intro key hkey
        obtain rfl := Finset.mem_singleton.mp hkey
        exact ⟨hs.self hvalidating, hvouched⟩
    · exact hs.toSoundVotes

theorem Ready.rollback (hs : s.Ready env) : (s.rollback env).Ready env := by
  unfold PopConsensus.rollback
  dsimp only
  split
  · exact hs
  next oldLedger _ =>
    exact { hs.toSoundVotes.startRoundInternal hquorum oldLedger.id oldLedger .switchedLedger with
      initialized := hs.initialized
      ledger := .inl rfl }

theorem SoundVotes.timerEntry (hs : s.SoundVotes env.validating) (hon : s.OnLedger) :
    (s.timerEntry env).SoundVotes env.validating := by
  unfold PopConsensus.timerEntry
  split
  · exact hs
  · split
    · exact hs
    next hinit =>
      have hledger := hs.checkLedger hquorum (by simpa using hinit) hon
      generalize s.checkLedger env = u at hledger
      have hback : (if u.timeOutCount > env.timeoutCountRollback then u.rollback env else u).Ready env := by
        split
        · exact hledger.rollback hquorum
        · exact hledger
      dsimp only
      generalize (if u.timeOutCount > env.timeoutCountRollback then u.rollback env else u) = v at hback
      split
      · exact hback.toSoundVotes
      next hmode =>
        split
        · exact hback.toSoundVotes
        next hvalidating =>
          refine SoundVotes.checkTimeout hquorum ?_
          split
          · exact hback.phaseCollecting hquorum (by simpa using hvalidating) hmode
          · exact hback.toSoundVotes

end Quorum

/-! ## Trust -/

/-- The recorded keys are among `trusted`, those erased from the votes for the current set aside. -/
def TrustKept (s : PopConsensus) (erased trusted : Finset PublicKey) : Prop :=
  (s.txSetVoted.All fun id keys => (if s.setID = some id then keys \ erased else keys) ⊆ trusted)
    ∧ (s.txSetCached.All fun _ keys => keys ⊆ trusted)
    ∧ s.proposalCache.All fun _ table => table.All fun key _ => key ∈ trusted

instance decidableTrustKept (s : PopConsensus) (erased trusted : Finset PublicKey) :
    Decidable (s.TrustKept erased trusted) :=
  inferInstanceAs (Decidable (_ ∧ _ ∧ _))

theorem TrustKept.sound (hkept : s.TrustKept erased trusted) (hs : s.SoundVotes voter) {votes : Votes}
    (hvotes : votes.Backed trusted s.heard s.slot) (hwaiting : s.initialized = false → votes = ∅) :
    { s with trusted := trusted, txSetVoted := votes }.SoundVotes false where
  self := nofun
  voted := hvotes
  cached e he key hkey := ⟨hkept.2.1 e he hkey, (hs.cached e he key hkey).2⟩
  stance := hs.stance
  cache e he f hf := ⟨(hs.cache e he f hf).1, (hs.cache e he f hf).2.1, hkept.2.2 e he f hf⟩
  waiting hwait := ⟨hwaiting hwait, (hs.waiting hwait).2⟩
  accepts := hs.accepts

theorem SoundVotes.updateTrusted (hs : s.SoundVotes voter) (hkept : s.TrustKept ∅ trusted) :
    { s with trusted := trusted }.SoundVotes false := by
  refine hkept.sound hs ?_ fun hwait => (hs.waiting hwait).1
  intro e he key hkey
  refine ⟨hkept.1 e he ?_, (hs.voted e he key hkey).2⟩
  rw [Finset.sdiff_empty, ite_self]
  exact hkey

theorem TrustKept.backed_votesWithout (hkept : s.TrustKept erased trusted) (hs : s.SoundVotes voter) :
    (s.votesWithout erased).Backed trusted s.heard s.slot := by
  have hother : s.txSetVoted.All fun id keys => s.setID ≠ some id →
      ∀ key ∈ keys, key ∈ trusted ∧ Vouched s.heard s.slot id key := by
    intro e he hne key hkey
    have hsub := hkept.1 e he
    dsimp only at hsub
    rw [if_neg hne] at hsub
    exact ⟨hsub hkey, (hs.voted e he key hkey).2⟩
  unfold votesWithout
  split
  next hnone => exact hother.imp fun id keys h => h (by rw [hnone]; simp)
  next id hset =>
    rw [hset] at hother
    split
    next hlookup =>
      intro e he
      refine hother e he ?_
      rintro ⟨⟩
      rw [mem_lookup_iff.mpr he] at hlookup
      cases hlookup
    next keys hlookup =>
      refine AList.All.insert_of_ne (hother.imp fun x _ h hne => h fun heq => hne (by cases heq; rfl)) ?_
      intro key hkey
      have hsub := hkept.1.lookup hlookup
      rw [if_pos hset] at hsub
      exact ⟨hsub hkey, (hs.voted.lookup hlookup key (Finset.sdiff_subset hkey)).2⟩

theorem SoundVotes.onDeleteUntrusted (hs : s.SoundVotes voter) (hquorum : 2 * env.quorum < UInt32.size)
    {nowUntrusted : Finset PublicKey} (hkept : s.TrustKept nowUntrusted trusted) :
    ({ s with trusted := trusted }.onDeleteUntrusted env nowUntrusted).SoundVotes false := by
  have herased := hkept.sound hs (hkept.backed_votesWithout hs) (by
    intro hwait
    obtain ⟨hvoted, -, hset⟩ := hs.waiting hwait
    unfold votesWithout
    rw [hset]
    exact hvoted)
  unfold PopConsensus.onDeleteUntrusted
  dsimp only
  split
  · exact herased.checkVoting hquorum
  · exact herased

/-! ## Runs -/

/-- The step keeps the tally sound. -/
def Undisputed (s : PopConsensus) (e : Event) : Prop :=
  2 * e.env.quorum < UInt32.size ∧ (e.env.validating = true → s.valPublic ∈ s.trusted)
    ∧ match e.action with
      | .timerEntry => s.OnLedger
      | .peerViewChange v => s.toView ≠ v.toView → s.OnLedger
      | .peerProposal p => ¬ SecondSet e.env s p
      | .updateTrusted trusted => s.TrustKept ∅ trusted
      | .deleteUntrusted removed nowUntrusted => s.TrustKept nowUntrusted (s.trusted \ removed)
      | _ => True

instance decidableUndisputed (s : PopConsensus) (e : Event) : Decidable (s.Undisputed e) := by
  unfold Undisputed
  split <;> infer_instance

theorem SoundVotes.step (hs : s.SoundVotes false) {e : Event} (hok : s.Undisputed e) :
    (s.step e).SoundVotes false := by
  obtain ⟨hquorum, hself, hok⟩ := hok
  have hvoter : s.SoundVotes e.env.validating := { hs with self := hself }
  have hforget : ∀ {u : PopConsensus}, u.SoundVotes e.env.validating → u.SoundVotes false :=
    fun hu => { hu with self := nofun }
  unfold PopConsensus.step
  split
  · exact hforget (hvoter.startRound hquorum _ _ _)
  · exact { hs with waiting := nofun }
  next haction =>
    rw [haction] at hok
    exact hforget (hvoter.timerEntry hquorum hok)
  · exact hforget (hvoter.gotTxSet hquorum _)
  next p haction =>
    rw [haction] at hok
    unfold PopConsensus.peerProposal
    split
    · exact hs
    next hpeer =>
      have htrusted : p.publicKey ∈ s.trusted := not_not.mp fun h => hpeer (.inl h)
      exact hforget ((hvoter.hear p).peerProposalInternal hquorum List.mem_cons_self htrusted hok)
  next v haction =>
    rw [haction] at hok
    unfold PopConsensus.peerViewChange
    split
    · exact hs
    · exact hforget (hvoter.peerViewChangeInternal hquorum v hok)
  · unfold PopConsensus.peerInitAnnounce
    split
    · exact hs
    next hinit =>
      obtain ⟨hvoted, hcached, -⟩ := hs.waiting (by simpa using hinit)
      split
      · exact { hs.withLedger (.inr ⟨hvoted, hcached⟩) with }
      · exact hs
  next trusted haction =>
    rw [haction] at hok
    exact hs.updateTrusted hok
  next removed nowUntrusted haction =>
    rw [haction] at hok
    exact hs.onDeleteUntrusted hquorum hok

theorem soundVotes_idle (valPublic : PublicKey) (trusted : Finset PublicKey) :
    (idle valPublic trusted).SoundVotes false where
  self := nofun
  voted := all_empty
  cached := all_empty
  stance := nofun
  cache := all_empty
  waiting _ := ⟨rfl, rfl, rfl⟩
  accepts := nofun

def follower : PopAdaptor where
  validators := [1, 2, 3, 4]
  quorum := 3
  acquireTxSet := fun _ => true

def proposals (positions : List (PublicKey × HashValue)) : List Event :=
  [⟨.initElapsed, follower⟩, ⟨.startRound 100 ⟨100, 1⟩ true, follower⟩] ++ positions.map fun p =>
    ⟨.peerProposal
      { position := p.2, prevLedger := 100, curLedgerSeq := 2, view := 0, publicKey := p.1 }, follower⟩

end PopConsensus

end Chainsql.Pop
