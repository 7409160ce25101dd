import Chainsql.Pop.Handlers

/-!
# Views of a round

Between two starts of a round a node should move to ever higher views and take one stance in each.
`haveConsensus` asks for a view above the current one, but `shouldTriggerViewChange`, which decides
about messages for a view the node has not asked for itself, does not. So views increase in runs in
which every view-change message is for the view asked for or for one above the current view.
-/

namespace Chainsql.Pop

namespace PopConsensus

variable {s t : PopConsensus} (env : PopAdaptor)

/-- The views of the round increase, the node has proposed in them only, and one position in each. -/
structure OneStance (s : PopConsensus) : Prop where
  head : s.views.head? = some s.view
  increasing : s.views.Pairwise fun v w => w < v
  proposed : ∀ p ∈ s.proposed, p.view ∈ s.views
  once : ∀ p ∈ s.proposed, ∀ q ∈ s.proposed, p.view = q.view → p.position = q.position
  current : ∀ p ∈ s.proposed, p.view = s.view → ∃ r ∈ s.result, r.position.position = p.position
  result : ∀ r ∈ s.result, r.position.view = s.view

structure SameStance (s t : PopConsensus) : Prop where
  view : t.view = s.view
  views : t.views = s.views
  proposed : t.proposed = s.proposed
  position : t.result.map Result.position = s.result.map Result.position

theorem SameStance.refl (s : PopConsensus) : SameStance s s := ⟨rfl, rfl, rfl, rfl⟩

theorem SameStance.exists_position (h : SameStance s t) {r : Result} (hr : s.result = some r) :
    ∃ r' ∈ t.result, r'.position = r.position := by
  have hposition := h.position
  rw [hr, Option.map_some, Option.map_eq_some_iff] at hposition
  exact hposition

theorem SameStance.symm (h : SameStance s t) : SameStance t s :=
  ⟨h.view.symm, h.views.symm, h.proposed.symm, h.position.symm⟩

theorem OneStance.congr (hs : s.OneStance) (h : SameStance s t) : t.OneStance := by
  have hview := h.view
  have hviews := h.views
  have hproposed := h.proposed
  constructor
  · rw [hviews, hview]
    exact hs.head
  · exact hviews ▸ hs.increasing
  · rw [hproposed, hviews]
    exact hs.proposed
  · rw [hproposed]
    exact hs.once
  · intro p hp hpview
    obtain ⟨r, hr, hposition⟩ := hs.current p (hproposed ▸ hp) (hpview.trans hview)
    obtain ⟨r', hr', heq⟩ := h.exists_position hr
    exact ⟨r', hr', heq ▸ hposition⟩
  · intro r hr
    obtain ⟨r', hr', heq⟩ := h.symm.exists_position hr
    rw [← heq, hview]
    exact hs.result r' hr'

/-! ## Voting -/

theorem sameStance_checkVoting : SameStance s (s.checkVoting env) := by
  refine checkVoting_ways (.refl s) ?_
  rintro r u hr rfl
  exact ⟨⟨rfl, rfl, rfl, by simp [hr]⟩, ⟨rfl, rfl, rfl, by simp [accept, hr]⟩⟩

theorem OneStance.propose (hs : s.OneStance) {r : Result} (hview : r.position.view = s.view)
    (hold : ∀ old ∈ s.result, old.position.position = r.position.position) :
    ({ s with result := some r }.propose r.position).OneStance := by
  have hsame : ∀ p ∈ s.proposed, p.view = s.view → p.position = r.position.position := by
    intro p hp hpview
    obtain ⟨old, hr, hposition⟩ := hs.current p hp hpview
    exact hposition ▸ hold old hr
  constructor
  · exact hs.head
  · exact hs.increasing
  · intro p hp
    rcases List.mem_cons.mp hp with rfl | hp
    · rw [hview]
      exact List.mem_of_mem_head? hs.head
    · exact hs.proposed p hp
  · intro p hp q hq hpq
    rcases List.mem_cons.mp hp with rfl | hp <;> rcases List.mem_cons.mp hq with rfl | hq
    · rfl
    · exact (hsame q hq (hpq ▸ hview)).symm
    · exact hsame p hp (hpq.trans hview)
    · exact hs.once p hp q hq hpq
  · intro p hp hpview
    rcases List.mem_cons.mp hp with rfl | hp
    · exact ⟨r, rfl, rfl⟩
    · exact ⟨r, rfl, (hsame p hp hpview).symm⟩
  · intro r' hr'
    cases hr'
    exact hview

theorem OneStance.withResult (hs : s.OneStance) (hnone : s.result = none) {r : Result}
    (hview : r.position.view = s.view) : { s with result := some r }.OneStance := by
  refine { hs with current := ?_, result := ?_ }
  · intro p hp hpview
    obtain ⟨old, hold, -⟩ := hs.current p hp hpview
    rw [hnone] at hold
    cases hold
  · intro r' hr'
    cases hr'
    exact hview

theorem OneStance.takeStance (hs : s.OneStance) (hnone : s.result = none) (id : HashValue) :
    (s.takeStance env id).OneStance := by
  unfold PopConsensus.takeStance
  dsimp only
  split
  · exact (hs.propose (r := { txns := id, position := _ }) rfl (by simp [hnone])).congr ⟨rfl, rfl, rfl, rfl⟩
  · exact (hs.withResult hnone (r := { txns := id, position := _ }) rfl).congr ⟨rfl, rfl, rfl, rfl⟩

/-! ## Proposals of peers -/

theorem sameStance_checkSaveNextProposal (p : Proposal) : SameStance s (s.checkSaveNextProposal p) := by
  obtain ⟨cache, heq, -⟩ := checkSaveNextProposal_spec s p
  rw [heq]
  exact ⟨rfl, rfl, rfl, rfl⟩

theorem sameStance_countProposal (p : Proposal) : SameStance s (s.countProposal env p).1 := by
  unfold countProposal
  split
  · exact ⟨rfl, rfl, rfl, rfl⟩
  · split
    · split
      · exact ⟨rfl, rfl, rfl, rfl⟩
      · exact ⟨rfl, rfl, rfl, rfl⟩
    · exact ⟨rfl, rfl, rfl, rfl⟩

/-! ## Rounds and views -/

theorem OneStance.leaveConsensus (hs : s.OneStance) : s.leaveConsensus.OneStance := by
  unfold PopConsensus.leaveConsensus
  split
  · cases hr : s.result with
    | none => exact hs.congr ⟨rfl, rfl, rfl, rfl⟩
    | some r =>
      dsimp only
      split
      · exact hs.congr ⟨rfl, rfl, rfl, rfl⟩
      · have hview := hs.result r hr
        have hsame : ∀ old ∈ s.result, old.position.position = r.position.position := by
          intro old hold
          rw [hr] at hold
          cases hold
          rfl
        exact (hs.propose (r := { r with position := { r.position with isBowOut := true } }) hview hsame).congr
          ⟨rfl, rfl, rfl, rfl⟩
  · exact hs

/-- A change to a higher view opens a view in which nothing has been proposed. -/
theorem OneStance.changeView (hs : s.OneStance) (hlt : s.view < t.view) (hviews : t.views = t.view :: s.views)
    (hproposed : t.proposed = s.proposed) (hresult : t.result = none) : t.OneStance := by
  obtain ⟨past, hpast⟩ : ∃ past, s.views = s.view :: past := List.head?_eq_some_iff.mp hs.head
  have hbelow : ∀ w ∈ s.views, w < t.view := by
    intro w hw
    have hincreasing := hs.increasing
    rw [hpast] at hw hincreasing
    rcases List.mem_cons.mp hw with rfl | hw
    · exact hlt
    · exact UInt64.lt_trans ((List.pairwise_cons.mp hincreasing).1 w hw) hlt
  refine ⟨by rw [hviews]; rfl, ?_, ?_, ?_, ?_, by simp [hresult]⟩
  · rw [hviews]
    exact List.pairwise_cons.mpr ⟨hbelow, hs.increasing⟩
  · intro p hp
    rw [hviews]
    exact List.mem_cons_of_mem _ (hs.proposed p (hproposed ▸ hp))
  · rw [hproposed]
    exact hs.once
  · intro p hp hpview
    have hold := hbelow p.view (hs.proposed p (hproposed ▸ hp))
    rw [hpview] at hold
    exact absurd hold (UInt64.lt_irrefl t.view)

/-! ## Runs -/

theorem kept_oneStance : Kept OneStance (fun _ => True) True env where
  quiet hs h := hs.congr ⟨h.view, h.views, h.proposed, by rw [h.result]⟩
  checkVoting hs := hs.congr (sameStance_checkVoting env)
  takeStance id hs hnone := hs.takeStance env hnone id
  save hs _ := hs.congr (sameStance_checkSaveNextProposal _)
  count hs _ := hs.congr (sameStance_countProposal env _)
  cached _ _ := fun _ _ => trivial
  prune _ hs := hs.congr ⟨rfl, rfl, rfl, rfl⟩
  round _ hopened hview hviews hproposed := by
    constructor <;> simp [hviews, hview, hproposed, hopened.result]
  changeView hs hopened hlt hviews hproposed := hs.changeView (hlt trivial) hviews hproposed hopened.result
  leaveConsensus hs := hs.leaveConsensus
  propose hs hnone :=
    (hs.propose (r := { txns := env.collected, position := _ }) rfl (by simp [hnone])).congr ⟨rfl, rfl, rfl, rfl⟩
  lead hs := hs.congr ⟨rfl, rfl, rfl, rfl⟩

theorem OneStance.step (hs : s.OneStance) {e : Event} (hlater : s.LaterView e) : (s.step e).OneStance :=
  (kept_oneStance e.env).step hs (fun _ => hlater) (fun _ _ _ => trivial)
    (fun _ _ => hs.congr ⟨rfl, rfl, rfl, rfl⟩) fun _ _ _ => hs.congr ⟨rfl, rfl, rfl, rfl⟩

/-- Views of a round increase, and no two positions are proposed for one ledger, sequence and view. -/
theorem views_increase (valPublic : PublicKey) (trusted : Finset PublicKey) (events : List Event)
    (hlater : Run.Along step LaterView (idle valPublic trusted) events) :
    let s := Run.final step (idle valPublic trusted) events
    s.views.head? = some s.view ∧ (s.views.Pairwise fun later earlier => earlier < later)
      ∧ ∀ p ∈ s.proposed, ∀ q ∈ s.proposed, p.prevLedger = q.prevLedger → p.curLedgerSeq = q.curLedgerSeq →
        p.view = q.view → p.position = q.position := by
  have hidle : (idle valPublic trusted).OneStance := by constructor <;> simp [idle]
  have hfinal := hlater.invariant hidle fun _ _ hs hok => hs.step hok
  exact ⟨hfinal.head, hfinal.increasing, fun p hp q hq _ _ hview => hfinal.once p hp q hq hview⟩

/-! Node 4 of four leads view 1 of the round on ledger 100. -/

def poolOf (collected : HashValue) : PopAdaptor where
  validators := [1, 2, 3, 4]
  quorum := 3
  collected := collected

def askedView (toView : UInt64) : List Event :=
  [1, 2, 3].map fun key =>
    ⟨.peerViewChange { prevSeq := 1, prevHash := 100, toView := toView, nodePublic := key }, poolOf 10⟩

def twoViews : List Event :=
  [⟨.initElapsed, poolOf 10⟩, ⟨.startRound 100 ⟨100, 1⟩ true, poolOf 10⟩] ++ askedView 1
    ++ [⟨.timerEntry, poolOf 10⟩] ++ askedView 2

theorem views_increase_twoViews :
    let s := Run.final step (idle 4 {1, 2, 3, 4}) twoViews
    (s.views = [2, 1, 0] ∧ s.proposed.map Proposal.position = [10])
      ∧ (s.views.Pairwise fun later earlier => earlier < later) :=
  ⟨by decide +kernel, (views_increase 4 {1, 2, 3, 4} twoViews (by decide +kernel)).2.1⟩

/-- The messages for view 1 arrive a second time: the node returns to view 1 and proposes again. -/
theorem view_decreases :
    let s := Run.final step (idle 4 {1, 2, 3, 4}) (twoViews ++ askedView 1 ++ [⟨.timerEntry, poolOf 20⟩])
    s.views = [1, 2, 1, 0]
      ∧ s.proposed.map (fun p => (p.prevLedger, p.curLedgerSeq, p.view, p.position))
        = [(100, 2, 1, 20), (100, 2, 1, 10)] := by
  decide +kernel

end PopConsensus

end Chainsql.Pop
