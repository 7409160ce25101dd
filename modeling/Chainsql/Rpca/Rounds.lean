import Chainsql.Rpca.Votes
import Mathlib.Data.Finset.Sort

/-!
# The disputes in every state of a run

Each event keeps the disputes of our position right, if there is one.
-/

namespace Chainsql.Rpca

open AList

variable {Node TxID SetID LedgerID : Type} [DecidableEq Node] [DecidableEq TxID] [DecidableEq SetID]
  {T : TxSets TxID SetID} {parms : RpcaConsensusParms} {env : Env T LedgerID}
  {s : RpcaConsensus Node TxID SetID LedgerID}

def Inv (T : TxSets TxID SetID) (s : RpcaConsensus Node TxID SetID LedgerID) : Prop :=
  ∀ r, s.result = some r → r.Kept T s.currPeerPositions s.acquired

namespace Inv

variable (h : Inv T s)
include h

/-! ## Sets and positions -/

theorem gotTxSet (txSet : Finset TxID) : Inv T (s.gotTxSet T txSet) := by
  rw [RpcaConsensus.gotTxSet]
  split
  · exact h
  · split
    · exact h
    next hnew =>
      intro r hr
      obtain ⟨r', hr', rfl⟩ := Option.map_eq_some_iff.mp hr
      exact (h r' hr').acquire (lookup_eq_none.mpr hnew)

theorem dropPeer (peerID : Node) : Inv T (s.dropPeer peerID) := by
  intro r hr
  obtain ⟨r', hr', rfl⟩ := Option.map_eq_some_iff.mp hr
  exact (h r' hr').unVote peerID

theorem bowOut (peerID : Node) : Inv T (s.bowOut peerID) := h.dropPeer peerID

theorem takePosition (p : Proposal Node SetID LedgerID) : Inv T (s.takePosition T env p) := by
  rw [RpcaConsensus.takePosition]
  cases hset : s.acquired.lookup p.position with
  | some set =>
    intro r hr
    obtain ⟨r', hr', rfl⟩ := Option.map_eq_some_iff.mp hr
    exact (h r' hr').updateDisputes hset
  | none =>
    have hinsert : Inv T { s with currPeerPositions := s.currPeerPositions.insert p.nodeID p } :=
      fun r hr => (h r hr).insert_unknown hset
    cases env.acquireTxSet p.position with
    | some set => exact hinsert.gotTxSet set
    | none => exact hinsert

/-! ## The phases -/

omit h in
theorem closeLedger : Inv T (s.closeLedger T env) := by
  rintro r ⟨⟩
  exact .close env.onClose

omit h in
theorem changePosition {r : Result Node TxID SetID} (hr : r.Kept T s.currPeerPositions s.acquired) :
    Inv T (s.changePosition T r) := by
  rw [RpcaConsensus.changePosition]
  split
  · rintro r' ⟨⟩
    exact hr
  next hnew =>
    rintro r' ⟨⟩
    exact hr.acquire (lookup_eq_none.mpr hnew)

theorem updateOurPositions : Inv T (s.updateOurPositions T parms env) := by
  have hfresh : Inv T ((s.stalePeers T parms env).foldl RpcaConsensus.dropPeer s) :=
    List.foldlRecOn _ _ (motive := Inv T) h fun s hs peerID _ => hs.dropPeer peerID
  rw [RpcaConsensus.updateOurPositions]
  generalize (s.stalePeers T parms env).foldl RpcaConsensus.dropPeer s = s' at hfresh ⊢
  cases hresult : s'.result with
  | none => exact hfresh
  | some r =>
    have hvotes := (hfresh r hresult).updateVotes parms env.convergePercent (decide (s'.mode = .proposing))
    dsimp only
    split
    · exact changePosition hvotes
    · rintro r' ⟨⟩
      exact hvotes

theorem phaseOpen : Inv T (s.phaseOpen T env) := by
  rw [RpcaConsensus.phaseOpen]
  split
  · exact closeLedger
  · exact h

theorem phaseEstablish : Inv T (s.phaseEstablish T parms env) := by
  rw [RpcaConsensus.phaseEstablish]
  split
  · exact h
  · split
    · exact h.updateOurPositions
    · exact h.updateOurPositions

theorem leaveConsensus : Inv T s.leaveConsensus := by
  rw [RpcaConsensus.leaveConsensus]
  split
  · exact h
  · exact h

/-! ## Proposals -/

variable [DecidableEq LedgerID]

theorem peerProposalInternal (p : Proposal Node SetID LedgerID) : Inv T (s.peerProposalInternal T env p) := by
  rw [RpcaConsensus.peerProposalInternal]
  split
  · exact h
  · split
    · exact h
    · split
      · exact h
      · split
        · exact h
        · split
          · exact h.bowOut p.nodeID
          · exact h.takePosition p

theorem peerProposal (p : Proposal Node SetID LedgerID) : Inv T (s.peerProposal T env p) := by
  have hrecent : ∀ recentPeerPositions, Inv T { s with recentPeerPositions } := fun _ => h
  exact (hrecent _).peerProposalInternal p

theorem playbackProposals : Inv T (s.playbackProposals T env) := by
  refine List.foldlRecOn s.recentPeerPositions.entries _ (motive := Inv T) h fun s hs e _ => ?_
  refine List.foldlRecOn e.2 _ (motive := Inv T) hs fun s hs p _ => ?_
  split
  · exact hs.peerProposalInternal p
  · exact hs

/-! ## Ledgers -/

variable {again : RpcaConsensus Node TxID SetID LedgerID → RpcaConsensus Node TxID SetID LedgerID}
  (hagain : ∀ s, Inv T s → Inv T (again s))
include hagain

omit h in
theorem startRoundInternal (prevLedgerID previousLedger : LedgerID) (mode : ConsensusMode) :
    Inv T (s.startRoundInternal T env again prevLedgerID previousLedger mode) := by
  have hclear : Inv T (RpcaConsensus.mk .open mode prevLedgerID previousLedger none ∅ ∅ [] s.recentPeerPositions
      s.prevProposers) := by
    rintro r ⟨⟩
  rw [RpcaConsensus.startRoundInternal]
  split
  · exact hagain _ hclear.playbackProposals
  · exact hclear.playbackProposals

omit h hagain in
theorem switchLedger (lgrId : LedgerID) : Inv T (s.switchLedger T env lgrId) := by
  have hclear : Inv T { s with
      prevLedgerID := lgrId
      result := s.result.map fun r : Result Node TxID SetID => { r with disputes := ∅, compares := ∅ }
      currPeerPositions := ∅
      deadNodes := [] } := by
    intro r hr
    obtain ⟨r', -, rfl⟩ := Option.map_eq_some_iff.mp hr
    -- there are neither disputes nor positions
    exact ⟨Result.Kept.of_empty _ _ r'.txns, fun node o ho => by cases ho⟩
  exact hclear.playbackProposals

theorem checkLedger : Inv T (s.checkLedger T env again) := by
  rw [RpcaConsensus.checkLedger]
  split
  · rw [RpcaConsensus.handleWrongLedger]
    have hswitch : Inv T (if s.leaveConsensus.prevLedgerID = env.getPrevLedger then s.leaveConsensus
        else s.leaveConsensus.switchLedger T env env.getPrevLedger) := by
      split
      · exact h.leaveConsensus
      · exact switchLedger env.getPrevLedger
    generalize (if s.leaveConsensus.prevLedgerID = env.getPrevLedger then s.leaveConsensus
        else s.leaveConsensus.switchLedger T env env.getPrevLedger) = s' at hswitch ⊢
    split
    · exact hswitch
    · split
      · exact startRoundInternal hagain _ _ _
      · exact hswitch
  · exact h

end Inv

variable [DecidableEq LedgerID]

theorem Inv.timerEntry (envs : List (Env T LedgerID)) (h : Inv T s) : Inv T (s.timerEntry T parms envs) := by
  induction envs generalizing s with
  | nil => exact h
  | cons env envs ih =>
    rw [RpcaConsensus.timerEntry]
    split
    · exact h
    · have hledger : Inv T (s.checkLedger T env (RpcaConsensus.timerEntry T parms envs)) := h.checkLedger fun _ hs => ih hs
      dsimp only
      split
      · exact hledger.phaseOpen
      · exact hledger.phaseEstablish
      · exact hledger

theorem Inv.step (h : Inv T s) (event : Event Node TxID SetID LedgerID T) : Inv T (step T parms s event) := by
  cases event with
  | peerProposal env p => exact h.peerProposal p
  | gotTxSet txSet => exact h.gotTxSet txSet
  | timerEntry envs => exact h.timerEntry envs
  | startRound env envs prevLedgerID previousLedger nowUntrusted proposing =>
    have hagain : ∀ s : RpcaConsensus Node TxID SetID LedgerID, Inv T s → Inv T (s.timerEntry T parms envs) :=
      fun _ hs => hs.timerEntry envs
    show Inv T (RpcaConsensus.startRound T parms env s envs prevLedgerID previousLedger nowUntrusted proposing)
    rw [RpcaConsensus.startRound]
    split
    · exact startRoundInternal hagain _ _ _
    · split
      · exact startRoundInternal hagain _ _ _
      · exact startRoundInternal hagain _ _ _

/-! ## Runs -/

/-- In every state of a run with a position: our vote on a dispute says whether the transaction is in our set; the
votes are counted, are those of current peers, and follow the sets that are known; and as long as there are
fewer disputes than the differences that one comparison finds, every difference between our set and the known
set of a current peer is disputed. -/
theorem disputes_sound (T : TxSets TxID SetID) (parms : RpcaConsensusParms) (ledger : LedgerID)
    (events : List (Event Node TxID SetID LedgerID T)) (s : RpcaConsensus Node TxID SetID LedgerID)
    (hs : s = Run.final (step T parms) (init ledger) events) (r : Result Node TxID SetID) (hr : s.result = some r) :
    (∀ tx d, r.disputes.lookup tx = some d →
      d.ourVote = decide (tx ∈ r.txns) ∧ d.yays = d.votes.values.count true ∧ d.nays = d.votes.values.count false ∧
        (∀ node, d.votes.lookup node ≠ none → s.currPeerPositions.lookup node ≠ none) ∧
        ∀ node p set, s.currPeerPositions.lookup node = some p → s.acquired.lookup p.position = some set →
          d.votes.lookup node = some (decide (tx ∈ set))) ∧
      (r.disputes.size < 65536 → ∀ node p set, s.currPeerPositions.lookup node = some p →
        s.acquired.lookup p.position = some set → ∀ tx ∈ symmDiff r.txns set, tx ∈ r.disputes) := by
  have hinv : Inv T s := by
    rw [hs]
    refine List.foldlRecOn events _ (motive := Inv T) ?_ fun _ h event _ => h.step event
    rintro r ⟨⟩
  have hkept := hinv r hr
  refine ⟨fun tx d hd => ?_, fun hsize node p set hp hset => ?_⟩
  · have hright := hkept.right tx d hd
    exact ⟨hright.ours, hright.counted.yays, hright.counted.nays, hright.voter,
      fun node p set hp hset => hright.voted node set (known_eq_some.mpr ⟨p, hp, hset⟩)⟩
  · exact hkept.covers set (hkept.compared node set (known_eq_some.mpr ⟨p, hp, hset⟩)) hsize

def demoSets : TxSets ℕ (Finset ℕ) where
  id o := o
  id_inj := Function.injective_id
  compare a b := ((symmDiff a b).sort (· ≤ ·)).take 65536
  nodup a b := (Finset.sort_nodup _ _).sublist (List.take_sublist _ _)
  differ a b tx htx := (Finset.mem_sort _).mp (List.mem_of_mem_take htx)
  length a b := by rw [List.length_take, Finset.length_sort]

def demoEnv (onClose : Finset ℕ) : Env demoSets ℕ where
  now := 0
  acquireTxSet _ := none
  acquireTxSet_id _ _ h := Option.noConfusion rfl (heq_of_eq h)
  getPrevLedger := 0
  acquireLedger := false
  shouldCloseLedger := true
  onClose := onClose
  tooEarly := false
  convergePercent := 0
  newPosition := false
  haveConsensus := false

/-- A peer proposes the set `o`, we take the empty position, and the set arrives. -/
def demoRun (o : Finset ℕ) : List (Event ℕ ℕ (Finset ℕ) ℕ demoSets) :=
  [.startRound (demoEnv ∅) [] 0 0 [] true, .peerProposal (demoEnv ∅) ⟨1, 0, o, 1, 100⟩, .timerEntry [demoEnv ∅], .gotTxSet o]

def demoState (o : Finset ℕ) : RpcaConsensus ℕ ℕ (Finset ℕ) ℕ := Run.final (step demoSets {}) (init 0) (demoRun o)

omit [DecidableEq LedgerID] in
theorem size_foldl_dispute_le (positions : Positions Node SetID LedgerID) (acquired : Acquired TxID SetID)
    (l : List TxID) (r : Result Node TxID SetID) :
    (l.foldl (Result.dispute positions acquired) r).disputes.size ≤ r.disputes.size + l.length := by
  induction l generalizing r with
  | nil => exact Nat.le_refl _
  | cons tx l ih =>
    have hfirst : (r.dispute positions acquired tx).disputes.size ≤ r.disputes.size + 1 := by
      rw [Result.dispute]
      split
      · exact Nat.le_succ _
      next htx =>
        show (insert tx _ r.disputes).entries.length ≤ _
        rw [entries_insert_of_notMem htx]
        exact Nat.le_refl _
    have hrest := ih (r.dispute positions acquired tx)
    rw [List.foldl_cons, List.length_cons]
    omega

omit [DecidableEq LedgerID] in
theorem size_updateDisputes_le (T : TxSets TxID SetID) (positions : Positions Node SetID LedgerID)
    (acquired : Acquired TxID SetID) (r : Result Node TxID SetID) (node : Node) (o : Finset TxID) :
    (r.updateDisputes T positions acquired node o).disputes.size ≤
      r.disputes.size + min 65536 (symmDiff r.txns o).card := by
  rw [Result.updateDisputes, Result.setVotes, size_mapVal, Result.createDisputes]
  split
  · exact Nat.le_add_right _ _
  · dsimp only
    split
    · exact Nat.le_add_right _ _
    · refine (size_foldl_dispute_le positions acquired _ _).trans (Nat.add_le_add_left ?_ _)
      exact (T.length _ _).le

theorem demoState_spec (o : Finset ℕ) (ho : o ≠ ∅) : ∃ r : Result ℕ ℕ (Finset ℕ),
    (demoState o).result = some r ∧ (demoState o).currPeerPositions.lookup 1 = some ⟨1, 0, o, 1, 100⟩ ∧
      (demoState o).acquired.lookup o = some o ∧ r.txns = ∅ ∧ r.disputes.size ≤ min 65536 o.card := by
  let p : Proposal ℕ (Finset ℕ) ℕ := ⟨1, 0, o, 1, 100⟩
  let positions : Positions ℕ (Finset ℕ) ℕ := insert 1 p ∅
  let acquired : Acquired ℕ (Finset ℕ) := insert ∅ ∅ ∅
  let empty : Result ℕ ℕ (Finset ℕ) := ⟨∅, ∅, ∅⟩
  have hnone : acquired.lookup o = none := lookup_insert_ne ho
  have hclosed : Run.final (step demoSets {}) (init 0) ((demoRun o).take 3) =
      ⟨.establish, .proposing, 0, 0, some empty, positions, acquired, [], insert 1 [p] ∅, 0⟩ := by
    show step demoSets {} (Run.final (step demoSets {}) (init 0) ((demoRun o).take 2)) (.timerEntry [demoEnv ∅]) = _
    show RpcaConsensus.closeLedger demoSets (demoEnv ∅)
      ⟨.open, .proposing, 0, 0, none, positions, ∅, [], insert 1 [p] ∅, 0⟩ = _
    rw [RpcaConsensus.closeLedger]
    have hfold : empty.createAllDisputes demoSets positions acquired = empty := by
      have hentries : positions.entries = [⟨1, p⟩] := rfl
      have hposition : acquired.lookup p.position = none := hnone
      rw [Result.createAllDisputes, hentries, List.foldl_cons, List.foldl_nil]
      rw [hposition]
    exact congrArg (fun r => RpcaConsensus.mk .establish .proposing 0 0 (some r) positions acquired []
      (insert 1 [p] ∅) 0) hfold
  have hend : demoState o =
      ⟨.establish, .proposing, 0, 0, some (empty.updateDisputes demoSets positions (acquired.insert o o) 1 o), positions,
        acquired.insert o o, [], insert 1 [p] ∅, 0⟩ := by
    show step demoSets {} (Run.final (step demoSets {}) (init 0) ((demoRun o).take 3)) (.gotTxSet o) = _
    rw [hclosed]
    show RpcaConsensus.gotTxSet demoSets _ o = _
    have hnew : demoSets.id o ∉ acquired := lookup_eq_none.mp hnone
    rw [RpcaConsensus.gotTxSet]
    rw [if_neg hnew]
    have hfold : empty.updateProposers demoSets positions (acquired.insert o o) o =
        empty.updateDisputes demoSets positions (acquired.insert o o) 1 o := by
      show (if o = o then _ else _) = _
      rw [if_pos rfl]
    exact congrArg (fun r => RpcaConsensus.mk .establish .proposing 0 0 (some r) positions (acquired.insert o o) []
      (insert 1 [p] ∅) 0) hfold
  rw [hend]
  obtain ⟨hgrown, -⟩ := createDisputes_cases demoSets positions (acquired.insert o o) empty o
  have hsize := size_updateDisputes_le demoSets positions (acquired.insert o o) empty 1 o
  have hempty : empty.disputes.size = 0 := rfl
  have hdiffer : symmDiff empty.txns o = o := bot_symmDiff o
  rw [hempty, Nat.zero_add, hdiffer] at hsize
  exact ⟨_, rfl, lookup_insert _, lookup_insert _, hgrown.txns, hsize⟩

theorem disputes_sound_demoRun : ∃ r d, (demoState {5}).result = some r ∧ r.disputes.lookup 5 = some d ∧
    d.ourVote = false ∧ d.yays = d.votes.values.count true ∧ d.nays = d.votes.values.count false ∧
      d.votes.lookup 1 = some true := by
  obtain ⟨r, hr, hp, hset, htxns, hsize⟩ := demoState_spec {5} (Finset.singleton_ne_empty 5)
  obtain ⟨hright, hcovers⟩ := disputes_sound demoSets {} 0 (demoRun {5}) (demoState {5}) rfl r hr
  have hfew : r.disputes.size < 65536 := hsize.trans_lt (by decide)
  have hmem : 5 ∈ r.disputes := hcovers hfew 1 _ _ hp hset 5 (by rw [htxns]; decide)
  obtain ⟨d, hd⟩ := Option.isSome_iff_exists.mp (lookup_isSome.mpr hmem)
  obtain ⟨hours, hyays, hnays, -, hvoted⟩ := hright 5 d hd
  rw [htxns] at hours
  exact ⟨r, d, hr, hd, hours, hyays, hnays, hvoted 1 _ _ hp hset⟩

/-- The set of the peer has one transaction more than a comparison finds. One of its transactions, none of
which is in our set, is not disputed. -/
theorem difference_not_disputed : ∃ r p tx, (demoState (Finset.range 65537)).result = some r ∧
    (demoState (Finset.range 65537)).currPeerPositions.lookup 1 = some p ∧
    (demoState (Finset.range 65537)).acquired.lookup p.position = some (Finset.range 65537) ∧
    tx ∈ symmDiff r.txns (Finset.range 65537) ∧ tx ∉ r.disputes := by
  have hne : Finset.range 65537 ≠ ∅ := Finset.nonempty_range_iff.mpr (Nat.succ_ne_zero _) |>.ne_empty
  obtain ⟨r, hr, hp, hset, htxns, hsize⟩ := demoState_spec (Finset.range 65537) hne
  by_contra hall
  have hmem : ∀ tx ∈ List.range 65537, tx ∈ r.disputes := by
    intro tx htx
    by_contra hnot
    refine hall ⟨r, _, tx, hr, hp, hset, ?_, hnot⟩
    rw [htxns, Finset.mem_symmDiff]
    exact .inr ⟨Finset.mem_range.mpr (List.mem_range.mp htx), Finset.notMem_empty tx⟩
  have hlength := length_le_size List.nodup_range hmem
  rw [List.length_range] at hlength
  omega

end Chainsql.Rpca
