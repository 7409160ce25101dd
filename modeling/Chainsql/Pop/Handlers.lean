import Chainsql.Lib.Run
import Chainsql.Pop.Consensus

/-!
# What the handlers of PoP keep

The handlers are made of few changes of the state that matter: votes, stances, new rounds and new views. A
property that these keep (`Kept`) is kept by every handler.
-/

namespace Chainsql.Pop.PopConsensus

variable {s t : PopConsensus} {env : PopAdaptor}

/-- Nothing changes but what clocks, ledgers and view changes need. -/
structure Quiet (s t : PopConsensus) : Prop where
  valPublic : t.valPublic = s.valPublic
  trusted : t.trusted = s.trusted
  result : t.result = s.result
  txSetVoted : t.txSetVoted = s.txSetVoted
  txSetCached : t.txSetCached = s.txSetCached
  proposalCache : t.proposalCache = s.proposalCache
  view : t.view = s.view
  views : t.views = s.views
  proposed : t.proposed = s.proposed

structure Opened (s t : PopConsensus) : Prop where
  valPublic : t.valPublic = s.valPublic
  trusted : t.trusted = s.trusted
  proposalCache : t.proposalCache = s.proposalCache
  result : t.result = none
  txSetVoted : t.txSetVoted = ∅
  txSetCached : t.txSetCached = ∅

/-- `I` is kept by every change. `P` holds of the proposals that are counted or cached. With `V`, a view is left
for a higher one. -/
structure Kept (I : PopConsensus → Prop) (P : Proposal → Prop) (V : Prop) (env : PopAdaptor) : Prop where
  quiet : ∀ {s t}, I s → Quiet s t → I t
  checkVoting : ∀ {s}, I s → I (s.checkVoting env)
  takeStance : ∀ {s} id, I s → s.result = none → I (s.takeStance env id)
  save : ∀ {s p}, I s → P p → I (s.checkSaveNextProposal p)
  count : ∀ {s p}, I s → P p → I (s.countProposal env p).1
  cached : ∀ {s seq table}, I s → s.proposalCache.lookup seq = some table → table.All fun _ p => P p
  prune : ∀ {s} erased, I s → I { s with proposalCache := s.proposalCache.eraseIf erased }
  round : ∀ {s t}, I s → Opened s t → t.view = 0 → t.views = [0] → t.proposed = [] → I t
  changeView : ∀ {s t}, I s → Opened s t → (V → s.view < t.view) → t.views = t.view :: s.views →
    t.proposed = s.proposed → I t
  leaveConsensus : ∀ {s}, I s → I s.leaveConsensus
  propose : ∀ {s}, I s → s.result = none → I (s.proposeCollected env)
  lead : ∀ {s}, I s → I { s with txSetVoted := s.txSetVoted.insert env.collected {s.valPublic} }

/-! ## The ways through a handler -/

section Ways

variable {p : Proposal} {id : HashValue} {Q : PopConsensus → Prop}

theorem checkVoting_ways (hself : Q s) (htally : ∀ r u, s.result = some r →
      u = { s.touchVoted with result := some { r with state := s.touchVoted.consensusState env } } →
      Q u ∧ Q (u.accept env)) : Q (s.checkVoting env) := by
  unfold checkVoting haveConsensus
  split
  · exact hself
  · rcases hr : s.result with _ | r
    · exact hself
    · dsimp only
      rcases s.touchVoted.consensusState env != .no with _ | _
      · exact (htally r _ hr rfl).1
      · exact (htally r _ hr rfl).2

theorem gotTxSet_ways (hself : Q s) (hacquired : Q { s with acquired := insert id s.acquired })
    (hstance : s.setID = some id → s.result = none → Q ({ s with acquired := insert id s.acquired }.takeStance env id))
    (hvoting : ∀ u, Q u → Q (u.checkVoting env)) : Q (s.gotTxSet env id) := by
  have hvote : ∀ u : PopConsensus, Q u → Q (if u.result.isSome then u.checkVoting env else u) := by
    intro u hu
    split
    · exact hvoting u hu
    · exact hu
  unfold gotTxSet
  split
  · exact hself
  · dsimp only
    split
    · exact hacquired
    next hset =>
      refine hvote _ ?_
      split
      next hnone => exact hstance (not_not.mp hset) (Option.isNone_iff_eq_none.mp hnone.2)
      · exact hacquired

theorem fetchTxSet_ways (hself : Q s) (hgot : ∀ id, Q (s.gotTxSet env id)) (hvoting : Q (s.checkVoting env)) :
    Q (s.fetchTxSet env p) := by
  unfold fetchTxSet
  split
  · exact hgot _
  · split
    · exact hvoting
    · split
      · exact hgot _
      · exact hself

/-- Only a proposal for the ledger, the sequence and the view of the node is counted. -/
theorem peerProposalInternal_ways (hself : Q s) (hsaved : Q (s.checkSaveNextProposal p))
    (hcounted : s.initialized = true → p.curLedgerSeq = s.curSeq → p.prevLedger = s.prevLedgerID → p.view = s.view →
      Q (s.countProposal env p).1) (hfetched : ∀ u, Q u → Q (u.fetchTxSet env p)) :
    Q (s.peerProposalInternal env p).1 := by
  unfold peerProposalInternal
  split
  · exact hself
  next hinit =>
    split
    · exact hsaved
    · split
      · exact hself
      next hge =>
        split
        · exact hsaved
        next hle =>
          split
          · exact hsaved
          next hledger =>
            split
            · exact hsaved
            next hview =>
              have hseq := UInt32.le_antisymm (UInt32.not_lt.mp hle) (UInt32.not_lt.mp hge)
              have hcount := hcounted (by simpa using hinit) hseq (not_not.mp hledger) (not_not.mp hview)
              generalize s.countProposal env p = counted at hcount
              obtain ⟨u, _ | _⟩ := counted
              · exact hcount
              · exact hfetched u hcount

theorem checkSaveNextProposal_spec (s : PopConsensus) (p : Proposal) : ∃ cache,
    s.checkSaveNextProposal p = { s with proposalCache := cache } ∧ ∀ R : PublicKey → Proposal → Prop,
      (s.proposalCache.All fun _ table => table.All R) → R p.publicKey p → cache.All fun _ table => table.All R := by
  unfold checkSaveNextProposal
  split
  · refine ⟨_, rfl, fun R hcache hp => hcache.insert (AList.All.emplace ?_ hp)⟩
    have htable : ((s.proposalCache.lookup p.curLedgerSeq).getD ∅).All R := by
      rcases hlookup : s.proposalCache.lookup p.curLedgerSeq with _ | table
      · exact AList.all_empty
      · exact hcache.lookup hlookup
    split
    · split
      · exact htable.erase _
      · exact htable
    · exact htable
  · exact ⟨_, rfl, fun _ hcache _ => hcache⟩

end Ways

theorem lt_of_haveConsensus {m : ViewChangeManager} {toView curView : UInt64} {preHash : HashValue}
    {quorum : Nat} (h : m.haveConsensus toView curView preHash quorum = true) : curView < toView := by
  unfold ViewChangeManager.haveConsensus at h
  split at h
  · cases h
  · split at h
    · rw [Bool.and_eq_true, decide_eq_true_eq, decide_eq_true_eq] at h
      exact h.2
    · cases h

/-- A view-change message is for the view the node has asked for or for one above the current view. -/
def LaterView (s : PopConsensus) (e : Event) : Prop :=
  match e.action with
  | .peerViewChange v => v.toView = s.toView ∨ s.view < v.toView
  | _ => True

instance decidableLaterView (s : PopConsensus) : (e : Event) → Decidable (s.LaterView e)
  | ⟨.peerViewChange v, _⟩ => inferInstanceAs (Decidable (v.toView = s.toView ∨ s.view < v.toView))
  | ⟨.startRound _ _ _, _⟩ | ⟨.initElapsed, _⟩ | ⟨.timerEntry, _⟩ | ⟨.gotTxSet _, _⟩ | ⟨.peerProposal _, _⟩
  | ⟨.peerInitAnnounce _ _, _⟩ | ⟨.updateTrusted _, _⟩ | ⟨.deleteUntrusted _ _, _⟩ => instDecidableTrue

namespace Kept

variable {I : PopConsensus → Prop} {P : Proposal → Prop} {V : Prop} (k : Kept I P V env)
include k

theorem gotTxSet (hs : I s) (id : HashValue) : I (s.gotTxSet env id) := by
  have hacquired : I { s with acquired := insert id s.acquired } :=
    k.quiet hs ⟨rfl, rfl, rfl, rfl, rfl, rfl, rfl, rfl, rfl⟩
  exact gotTxSet_ways hs hacquired (fun _ hnone => k.takeStance id hacquired hnone) fun _ => k.checkVoting

theorem peerProposalInternal (hs : I s) {p : Proposal} (hp : P p) : I (s.peerProposalInternal env p).1 := by
  refine peerProposalInternal_ways hs (k.save hs hp) (fun _ _ _ _ => k.count hs hp) fun u hu => ?_
  exact fetchTxSet_ways hu (k.gotTxSet hu) (k.checkVoting hu)

theorem foldl_peerProposalInternal {proposals : List Proposal} (hs : I s) (hP : ∀ p ∈ proposals, P p) :
    I (proposals.foldl (fun s p => (s.peerProposalInternal env p).1) s) := by
  induction proposals generalizing s with
  | nil => exact hs
  | cons p proposals ih =>
    exact ih (k.peerProposalInternal hs (hP p List.mem_cons_self)) fun q hq => hP q (List.mem_cons_of_mem _ hq)

theorem checkCache (hs : I s) : I (s.checkCache env) := by
  unfold PopConsensus.checkCache
  split
  · exact hs
  next table htable =>
    refine k.prune _ (k.foldl_peerProposalInternal hs fun p hp => ?_)
    obtain ⟨e, he, rfl⟩ := List.mem_map.mp hp
    exact k.cached hs htable e ((List.mem_insertionSort _).mp he)

/-! ## Rounds and views -/

theorem startRoundInternal (hs : I s) (prevLedgerID : HashValue) (prevLedger : LedgerRef) (mode : ConsensusMode) :
    I (s.startRoundInternal env prevLedgerID prevLedger mode) := by
  unfold PopConsensus.startRoundInternal
  split
  · exact k.checkCache (k.round hs ⟨rfl, rfl, rfl, rfl, rfl, rfl⟩ rfl rfl rfl)
  · exact k.round hs ⟨rfl, rfl, rfl, rfl, rfl, rfl⟩ rfl rfl rfl

theorem startRound (hs : I s) (prevLedgerID : HashValue) (prevLedger : LedgerRef) (proposing : Bool) :
    I (s.startRound env prevLedgerID prevLedger proposing) := by
  unfold PopConsensus.startRound
  dsimp only
  split
  · split
    · exact k.startRoundInternal hs _ _ _
    · exact k.startRoundInternal hs _ _ _
  · exact k.startRoundInternal hs _ _ _

theorem handleWrongLedger (hs : I s) (lgrId : HashValue) : I (s.handleWrongLedger env lgrId) := by
  unfold PopConsensus.handleWrongLedger
  split
  · exact hs
  · split
    · exact hs
    · have hleft : I { s.leaveConsensus with prevLedgerID := lgrId } :=
        k.quiet (k.leaveConsensus hs) ⟨rfl, rfl, rfl, rfl, rfl, rfl, rfl, rfl, rfl⟩
      dsimp only
      split
      · exact hleft
      · exact k.startRoundInternal hleft _ _ _

theorem checkLedger (hs : I s) : I (s.checkLedger env) := by
  unfold PopConsensus.checkLedger
  dsimp only
  split
  · split
    · exact hs
    · exact k.handleWrongLedger hs _
  · split
    · exact k.handleWrongLedger hs _
    · exact hs

theorem onViewChange (hs : I s) {toView : UInt64} (hlt : V → s.view < toView) : I (s.onViewChange env toView) := by
  have hcache : ∀ u : PopConsensus, I u → I (if u.mode = .proposing then u.checkCache env else u) := by
    intro u hu
    split
    · exact k.checkCache hu
    · exact hu
  unfold PopConsensus.onViewChange
  refine hcache _ ?_
  split
  · split
    · exact k.changeView hs ⟨rfl, rfl, rfl, rfl, rfl, rfl⟩ hlt rfl rfl
    · exact k.changeView hs ⟨rfl, rfl, rfl, rfl, rfl, rfl⟩ hlt rfl rfl
  · exact k.changeView hs ⟨rfl, rfl, rfl, rfl, rfl, rfl⟩ hlt rfl rfl

theorem checkChangeView (hs : I s) {toView : UInt64} (hlater : V → toView = s.toView ∨ s.view < toView) :
    I (s.checkChangeView env toView) := by
  unfold PopConsensus.checkChangeView
  split
  · exact hs
  · split
    · split
      next h => exact k.onViewChange hs fun _ => lt_of_haveConsensus h
      · exact hs
    next hne =>
      split
      · exact hs
      · split
        · exact k.handleWrongLedger hs _
        · split
          · split
            · exact k.handleWrongLedger hs _
            · exact k.onViewChange hs fun hv => (hlater hv).resolve_left fun h => hne h.symm
          · exact hs

theorem peerViewChangeInternal (hs : I s) (v : ViewChange) (hlater : V → v.toView = s.toView ∨ s.view < v.toView) :
    I (s.peerViewChangeInternal env v) := by
  have hrecv : I { s with viewChangeManager := s.viewChangeManager.recvViewChange v } :=
    k.quiet hs ⟨rfl, rfl, rfl, rfl, rfl, rfl, rfl, rfl, rfl⟩
  unfold PopConsensus.peerViewChangeInternal
  dsimp only
  split
  · exact hrecv
  · exact k.checkChangeView hrecv hlater

theorem checkTimeout (hs : I s) : I (s.checkTimeout env) := by
  unfold PopConsensus.checkTimeout
  split
  · exact hs
  · split
    · exact hs
    · have hask : I { s with toView := s.view + 1 } := k.quiet hs ⟨rfl, rfl, rfl, rfl, rfl, rfl, rfl, rfl, rfl⟩
      split
      · exact k.quiet (k.peerViewChangeInternal hask _ fun _ => .inl rfl)
          ⟨rfl, rfl, rfl, rfl, rfl, rfl, rfl, rfl, rfl⟩
      · exact k.quiet hs ⟨rfl, rfl, rfl, rfl, rfl, rfl, rfl, rfl, rfl⟩

/-! ## The timer -/

theorem phaseCollecting (hs : I s) : I (s.phaseCollecting env) := by
  unfold PopConsensus.phaseCollecting
  split
  · exact hs
  · split
    next hlead =>
      have hproposed := k.propose hs (Option.isNone_iff_eq_none.mp hlead.2.1)
      split
      · exact k.quiet hproposed ⟨rfl, rfl, rfl, rfl, rfl, rfl, rfl, rfl, rfl⟩
      · exact k.checkVoting (k.quiet (k.lead hproposed) ⟨rfl, rfl, rfl, rfl, rfl, rfl, rfl, rfl, rfl⟩)
    · exact hs

theorem rollback (hs : I s) : I (s.rollback env) := by
  unfold PopConsensus.rollback
  dsimp only
  split
  · exact hs
  · exact k.quiet (k.startRoundInternal hs _ _ _) ⟨rfl, rfl, rfl, rfl, rfl, rfl, rfl, rfl, rfl⟩

theorem timerEntry (hs : I s) : I (s.timerEntry env) := by
  unfold PopConsensus.timerEntry
  split
  · exact hs
  · split
    · exact hs
    · have hledger := k.checkLedger hs
      generalize s.checkLedger env = u at hledger
      have hback : I (if u.timeOutCount > env.timeoutCountRollback then u.rollback env else u) := by
        split
        · exact k.rollback hledger
        · exact hledger
      dsimp only
      generalize (if u.timeOutCount > env.timeoutCountRollback then u.rollback env else u) = v at hback
      split
      · exact hback
      · split
        · exact hback
        · refine k.checkTimeout ?_
          split
          · exact k.phaseCollecting hback
          · exact hback

omit k in
/-- A step keeps `I` if it counts proposals with `P` only and if `I` survives changes of the trusted keys. -/
theorem step {e : Event} (k : Kept I P V e.env) (hs : I s) (hlater : V → s.LaterView e)
    (hproposal : ∀ p, e.action = .peerProposal p → p.publicKey ∈ s.trusted → P p)
    (htrusted : ∀ trusted, e.action = .updateTrusted trusted → I { s with trusted := trusted })
    (hdelete : ∀ removed nowUntrusted, e.action = .deleteUntrusted removed nowUntrusted →
      I { s with trusted := s.trusted \ removed, txSetVoted := s.votesWithout nowUntrusted }) : I (s.step e) := by
  unfold PopConsensus.step
  unfold LaterView at hlater
  split
  · exact k.startRound hs _ _ _
  · exact k.quiet hs ⟨rfl, rfl, rfl, rfl, rfl, rfl, rfl, rfl, rfl⟩
  · exact k.timerEntry hs
  · exact k.gotTxSet hs _
  next p haction =>
    unfold PopConsensus.peerProposal
    split
    · exact hs
    next hpeer =>
      have htrust : p.publicKey ∈ s.trusted := not_not.mp fun h => hpeer (.inl h)
      refine k.peerProposalInternal ?_ (hproposal p haction htrust)
      exact k.quiet hs ⟨rfl, rfl, rfl, rfl, rfl, rfl, rfl, rfl, rfl⟩
  next v haction =>
    rw [haction] at hlater
    unfold PopConsensus.peerViewChange
    split
    · exact hs
    · exact k.peerViewChangeInternal hs v hlater
  · unfold PopConsensus.peerInitAnnounce
    split
    · exact hs
    · split
      · exact k.quiet hs ⟨rfl, rfl, rfl, rfl, rfl, rfl, rfl, rfl, rfl⟩
      · exact hs
  next haction => exact htrusted _ haction
  next haction =>
    have herased := hdelete _ _ haction
    unfold PopConsensus.onDeleteUntrusted
    dsimp only
    split
    · exact k.checkVoting herased
    · exact herased

end Kept

end Chainsql.Pop.PopConsensus
