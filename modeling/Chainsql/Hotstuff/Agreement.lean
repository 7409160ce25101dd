import Mathlib.Data.List.GetD
import Chainsql.Hotstuff.ReplicaSound
import Chainsql.Hotstuff.Wire

/-!
# Agreement

What the validators of a cluster commit, in every run without forged messages. As long as every call
of the voting rule is fresh, a validator votes once per round, so quorum intersection leaves one
certified block per round; and as every block extends a certified block of the round before, the
committed blocks form one chain.

Without that condition two validators commit different blocks of round 1: the voting rule skips the
comparison with the last voted round after a vote whose parent is the genesis block.
-/

namespace Chainsql.Hotstuff

open Replica

/-- The round of the vote that an action may make the validator sign: that of the queued proposal, or
the current one when a timeout finds no vote to send again. -/
def Replica.voteRound (r : Replica) : Action → Option Int
  | .runJob k => (r.jobs[k]?).map Block.round
  | .localTimeout =>
    if r.roundState.sendVote.any (fun v => decide (0 < v.parentRound)) then none
    else some r.roundState.currentRound
  | _ => none

namespace World

def Voted (w : World) (b : Block) : Prop := ∃ r ∈ w, b ∈ r.voted

def committed (w : World) : List Block := w.flatMap fun r => r.storage.committed.map (·.block)

inductive Descends (w : World) (b : Block) : Block → Prop where
  | self {d : Block} (hid : b.id = d.id) : Descends w b d
  | parent {p d : Block} (hvoted : w.Voted p) (hid : p.id = d.quorumCert.certifiedBlock.id)
      (hp : Descends w b p) : Descends w b d

end World

namespace Cluster

variable (c : Cluster)

def FreshStep (w : World) (e : Event) : Prop :=
  ∀ r ∈ w[e.index]?, ∀ round ∈ r.voteRound e.action, r.safety.Fresh round

instance (w : World) (e : Event) : Decidable (FreshStep w e) :=
  inferInstanceAs (Decidable (∀ r ∈ w[e.index]?, _))

structure SoundWorld (H : History) (w : World) : Prop where
  history : c.SoundHistory H
  length : w.length = c.validators.length
  replica : ∀ i r, w[i]? = some r →
    (r = {} ∧ H (c.author i) = []) ∨ c.SoundReplica H (c.author i) r

variable {c} {H : History} {w : World} {e : Event} {r : Replica} {i j : Nat}

theorem author_mem (hi : i < c.validators.length) : c.author i ∈ c.validators := by
  rw [author, List.getD_eq_getElem _ _ hi]
  exact List.getElem_mem hi

theorem author_inj (hi : i < c.validators.length) (hj : j < c.validators.length)
    (heq : c.author i = c.author j) : i = j := by
  rw [author, author, List.getD_eq_getElem _ _ hi, List.getD_eq_getElem _ _ hj] at heq
  exact (List.Nodup.getElem_inj_iff c.validators_nodup).mp heq

theorem SoundWorld.lt_length (hw : c.SoundWorld H w) (hr : w[i]? = some r) : i < c.validators.length :=
  hw.length ▸ (List.getElem?_eq_some_iff.mp hr).1

theorem SoundWorld.init : c.SoundWorld (fun _ => []) c.init := by
  refine ⟨⟨by simp, by simp⟩, List.length_map _, ?_⟩
  intro i r hr
  rw [Cluster.init, List.getElem?_map, Option.map_eq_some_iff] at hr
  obtain ⟨_, _, rfl⟩ := hr
  exact .inl ⟨rfl, rfl⟩

theorem act_unstarted (hstart : ∀ validating, e.action ≠ .start validating) : c.act w e {} = {} := by
  unfold act
  cases haction : e.action with
  | start validating => exact absurd haction (hstart validating)
  | deliver src k =>
    dsimp only
    cases w[src]? with
    | none => rfl
    | some sender =>
      dsimp only
      cases sender.sent[k]? with
      | none => rfl
      | some m =>
        cases m with
        | proposal block sync =>
          simp [receive, peerProposal, checkProposal]
        | vote dest vote sync => simp [receive, peerVote]
        | blockData executed => simp [receive, peerBlockData]
  | runJob k => rfl
  | requeueProposal k => rfl
  | localTimeout => rfl
  | proposalTimer round => rfl
  | acquireBlock id => rfl

namespace SoundWorld

variable (hw : c.SoundWorld H w)
include hw

theorem message {src k : Nat} {sender : Replica} {m : Message} (hsender : w[src]? = some sender)
    (hm : sender.sent[k]? = some m) : c.SoundMessage H m := by
  rcases hw.replica src sender hsender with ⟨rfl, -⟩ | hsound
  · cases hm
  · exact hsound.sent m (List.mem_of_getElem? hm)

theorem act_started (hr : w[e.index]? = some r) (hsound : c.SoundReplica H (c.author e.index) r) :
    ∃ H', c.Grows (FreshStep w e) H (c.author e.index) H' ∧ c.SoundReplica H' (c.author e.index) (c.act w e r) := by
  have hH := hw.history
  have ha : c.author e.index ∈ c.validators := author_mem (hw.lt_length hr)
  have hfresh : FreshStep w e → ∀ round ∈ r.voteRound e.action, r.safety.Fresh round := fun h => h r hr
  unfold act
  cases haction : e.action with
  | start validating =>
    dsimp only
    rw [start, if_pos hsound.started]
    exact ⟨H, .refl hH, hsound⟩
  | deliver src k =>
    refine ⟨H, .refl hH, ?_⟩
    dsimp only
    cases hsrc : w[src]? with
    | none => exact hsound
    | some sender =>
      dsimp only
      cases hm : sender.sent[k]? with
      | none => exact hsound
      | some m => exact hsound.receive e.env hH ha _ (hw.message hsrc hm)
  | runJob k =>
    obtain ⟨H', hgrows, hdone⟩ := hsound.runJob e.env hH ha k
    refine ⟨H', hgrows.imp ?_, hdone⟩
    intro h b hb
    exact hfresh h b.round (by rw [haction, voteRound, hb]; rfl)
  | requeueProposal k => exact ⟨H, .refl hH, hsound.requeueProposal k⟩
  | localTimeout =>
    obtain ⟨H', hgrows, hdone⟩ := hsound.processLocalTimeout e.env hH ha
    refine ⟨H', hgrows.imp ?_, hdone⟩
    intro h hnone
    exact hfresh h _ (by rw [haction, voteRound, hnone]; rfl)
  | proposalTimer round => exact ⟨H, .refl hH, hsound.proposalTimer e.env hH round⟩
  | acquireBlock id => exact ⟨H, .refl hH, hsound.peerAcquireBlock id⟩

theorem act (hr : w[e.index]? = some r) :
    ∃ H', c.Grows (FreshStep w e) H (c.author e.index) H'
      ∧ ((c.act w e r = {} ∧ H' (c.author e.index) = [])
        ∨ c.SoundReplica H' (c.author e.index) (c.act w e r)) := by
  rcases hw.replica e.index r hr with ⟨rfl, hnone⟩ | hsound
  · refine ⟨H, .refl hw.history, ?_⟩
    by_cases hstart : ∃ validating, e.action = .start validating
    · obtain ⟨validating, haction⟩ := hstart
      have hact : c.act w e {} = start (c.node (c.author e.index)) e.env {} validating := by
        rw [Cluster.act, haction]
      rw [hact]
      exact .inr (SoundReplica.start e.env hw.history hnone validating)
    · exact .inl ⟨act_unstarted fun validating h => hstart ⟨validating, h⟩, hnone⟩
  · obtain ⟨H', hgrows, hsound'⟩ := hw.act_started hr hsound
    exact ⟨H', hgrows, .inr hsound'⟩

theorem step (e : Event) : ∃ H', c.SoundWorld H' (c.step w e) ∧ (FreshStep w e → H.Once → H'.Once) := by
  unfold Cluster.step
  cases hr : w[e.index]? with
  | none =>
    rw [List.modify_eq_self (by rwa [List.getElem?_eq_none_iff] at hr)]
    exact ⟨H, hw, fun _ => id⟩
  | some r =>
    obtain ⟨H', hgrows, hact⟩ := hw.act hr
    refine ⟨H', ⟨hgrows.sound, by rw [List.length_modify, hw.length], ?_⟩, hgrows.once⟩
    intro j r' hr'
    rw [List.getElem?_modify] at hr'
    by_cases heq : e.index = j
    · subst heq
      rw [hr] at hr'
      simp only [if_pos] at hr'
      cases hr'
      exact hact
    · simp only [if_neg heq, id_map'] at hr'
      have hne : c.author j ≠ c.author e.index :=
        fun h => heq (author_inj (hw.lt_length hr) (hw.lt_length hr') h.symm)
      have hsame := hgrows.others _ hne
      rcases hw.replica j r' hr' with ⟨rfl, hnone⟩ | hsound
      · exact .inl ⟨rfl, hsame.trans hnone⟩
      · exact .inr (hsound.mono hgrows.le hsame)

end SoundWorld

variable (c) in
def VotesOnce (w : World) : Prop := ∃ H, c.SoundWorld H w ∧ H.Once

/-! ## What is committed -/

theorem SoundWorld.voted (hw : c.SoundWorld H w) {a : Author} {b : Block} (hb : b ∈ H a) : w.Voted b := by
  obtain ⟨i, hi, rfl⟩ := List.getElem_of_mem (hw.history.member a b hb)
  have hauthor : c.author i = c.validators[i] := List.getD_eq_getElem _ _ hi
  have hi' : i < w.length := hw.length ▸ hi
  have hr : w[i]? = some w[i] := List.getElem?_eq_getElem hi'
  refine ⟨w[i], List.getElem_mem hi', ?_⟩
  rcases hw.replica i w[i] hr with ⟨-, hnone⟩ | hsound
  · rw [← hauthor, hnone] at hb
    cases hb
  · rw [hsound.voted, hauthor]
    exact hb

theorem SoundWorld.committed (hw : c.SoundWorld H w) {b : Block} (hb : b ∈ w.committed) :
    c.validators ≠ [] ∧ c.SoundBlock H b ∧ ∃ a, ∃ b' ∈ H a, c.Certified H b' ∧ b.id = b'.id := by
  obtain ⟨r, hr, hb⟩ := List.mem_flatMap.mp hb
  obtain ⟨e, he, rfl⟩ := List.mem_map.mp hb
  obtain ⟨i, hi⟩ := List.getElem?_of_mem hr
  have hne : c.validators ≠ [] := List.ne_nil_of_length_pos (Nat.zero_lt_of_lt (hw.lt_length hi))
  rcases hw.replica i r hi with ⟨rfl, -⟩ | hsound
  · cases he
  · exact ⟨hne, hsound.storage.committed e he⟩

/-- A certified block is reached from every sound block of its round or a later one whose own id is
certified. -/
theorem SoundWorld.descends (hw : c.SoundWorld H w) (honce : H.Once) (hne : c.validators ≠ []) {b b' d d' : Block}
    (hb : c.SoundBlock H b) (hb' : c.SoundBlock H b') (hcert : c.Certified H b') (hid : b.id = b'.id)
    (hd : c.SoundBlock H d) (hd' : c.SoundBlock H d') (hdcert : c.Certified H d') (hdid : d.id = d'.id)
    (hle : b.round ≤ d.round) : w.Descends b d := by
  have hbround : b.round = b'.round := hb.round_eq hb' hid
  have hdround : d.round = d'.round := hd.round_eq hd' hdid
  -- By induction on the number of rounds between the two.
  induction hn : (d.round - b.round).toNat generalizing d d' with
  | zero =>
    have hballot := hcert.ballot_eq honce hdcert hne (by omega)
    exact .self (by rw [hid, hdid]; exact congrArg Ballot.id hballot)
  | succ n ih =>
    have hpos := hb.round_pos
    have hround := hd.round
    rcases hd.cert with hgen | ⟨a, p, hp, hfor, hpcert⟩
    · -- Only a block of round 1 extends genesis, and `b` is below `d`.
      have hzero : d.quorumCert.certifiedBlock.round = 0 := by
        rw [QuorumCertificate.certifiedBlock, hgen]
        rfl
      omega
    · have hpround : p.round = d.quorumCert.certifiedBlock.round := hfor.round.symm
      have hsound := hw.history.block a p hp
      exact .parent (hw.voted hp) hfor.id.symm
        (ih hsound hsound hpcert rfl (by omega) rfl (by omega))

/-- In every run in which every vote is fresh, two validators never commit different blocks of one
round, and every committed block is reached from each one of a later round by following the links to
the certified parent. -/
theorem agreement (c : Cluster) (events : List Event)
    (hrun : Run.Along c.step FreshStep c.init events) :
    let w : World := Run.final c.step c.init events
    ∀ b ∈ w.committed, ∀ d ∈ w.committed,
      (b.round = d.round → b.id = d.id) ∧ (b.round ≤ d.round → w.Descends b d) := by
  intro w b hb d hd
  obtain ⟨H, hw, honce⟩ : c.VotesOnce w :=
    hrun.invariant ⟨_, .init, fun _ => .nil⟩ fun _ e ⟨_, hv, honce⟩ hfresh =>
      (hv.step e).imp fun _ hnext => ⟨hnext.1, hnext.2 hfresh honce⟩
  obtain ⟨hne, hbs, a, b', hb', hbcert, hbid⟩ := hw.committed hb
  obtain ⟨-, hds, a', d', hd', hdcert, hdid⟩ := hw.committed hd
  have hbs' := hw.history.block a b' hb'
  have hds' := hw.history.block a' d' hd'
  constructor
  · intro hround
    rw [hbs.round_eq hbs' hbid, hds.round_eq hds' hdid] at hround
    rw [hbid, hdid]
    exact congrArg Ballot.id (hbcert.ballot_eq honce hdcert hne hround)
  · exact hw.descends honce hne hbs hbs' hbcert hbid hds hds' hdcert hdid

def QuorumVoted (c : Cluster) (w : World) : HashValue → Prop :=
  Quorum.Certified c.validators.toFinset (calculateQuorum true c.validators.length) fun a id =>
    ∃ i, c.author i = a ∧ ∃ r ∈ w[i]?, ∃ d ∈ r.voted, d.id = id

/-- In no run, of fresh votes or not, is a block committed that a quorum has not voted for. -/
theorem committed_quorumVoted (c : Cluster) (events : List Event) :
    let w : World := Run.final c.step c.init events
    ∀ b ∈ w.committed, c.QuorumVoted w b.id := by
  intro w b hb
  obtain ⟨H, hw⟩ : ∃ H, c.SoundWorld H w :=
    List.foldlRecOn events _ (motive := fun v => ∃ H, c.SoundWorld H v) ⟨_, .init⟩
      fun _ ⟨_, hv⟩ e _ => (hv.step e).imp fun _ => And.left
  obtain ⟨-, -, -, b', -, ⟨s, hs, hcard, hcast⟩, hid⟩ := hw.committed hb
  refine ⟨s, hs, hcard, fun a ha => ?_⟩
  obtain ⟨d, hd, heq⟩ := hcast a ha
  obtain ⟨i, hi, rfl⟩ := List.getElem_of_mem (hw.history.member a d hd)
  rw [← List.getD_eq_getElem _ noneAuthor hi, ← author] at hd ⊢
  have hr := List.getElem?_eq_getElem (hw.length ▸ hi)
  refine ⟨i, rfl, _, hr, d, ?_, (congrArg Ballot.id heq).trans hid.symm⟩
  rcases hw.replica i _ hr with ⟨-, hnone⟩ | hsound
  · rw [hnone] at hd
    cases hd
  · exact hsound.voted ▸ hd

/-! ## Two runs

Validators 1 to `n` on an application without transactions. -/

def idleLedger : LedgerInfo := authenticHeader { seq := 1 }

def idle (n : Nat) : Cluster where
  hasher := codeHasher
  epoch := 0
  initLedgerInfo := idleLedger
  validators := List.range' 1 n
  verifier := codeVerifier (List.range' 1 n).toFinset (calculateQuorum true n)
  hasher_ideal := codeHasher_ideal
  validators_nodup := List.nodup_range'
  self_eq := fun _ _ => rfl
  quorum_eq := fun _ _ => by rw [List.length_range']; rfl

def idleAt (now : Int) : Environment where
  app := .idle idleLedger
  syncState := fun _ => true
  canExtract := true
  extract := fun _ => some (zeroHash, idleLedger)
  now := now

def start (i : Nat) : Event := ⟨i, .start true, idleAt 10⟩

def timeout (i : Nat) : Event := ⟨i, .localTimeout, idleAt 0⟩

def job (i k : Nat) : Event := ⟨i, .runJob k, idleAt 0⟩

def deliver (i : Nat) (messages : List (Nat × Nat)) (now : Int) : List Event :=
  messages.map fun m => ⟨i, .deliver m.1 m.2, idleAt now⟩

def undisturbedRun : List Event :=
  [start 0, start 1, start 2, start 3]
  ++ deliver 0 [(1, 0)] 0 ++ deliver 2 [(1, 0)] 0 ++ deliver 3 [(1, 0)] 0
  ++ [job 0 0, job 1 0, job 2 0, job 3 0] ++ deliver 2 [(2, 0), (0, 0), (3, 0)] 20
  ++ deliver 0 [(2, 1)] 0 ++ deliver 1 [(2, 1)] 0 ++ deliver 3 [(2, 1)] 0
  ++ [job 0 0, job 1 0, job 2 0, job 3 0] ++ deliver 3 [(3, 1), (0, 1), (1, 2)] 30
  ++ deliver 0 [(3, 2)] 0 ++ deliver 1 [(3, 2)] 0 ++ deliver 2 [(3, 2)] 0
  ++ [job 0 0, job 1 0, job 2 0, job 3 0] ++ deliver 0 [(0, 2), (1, 3), (2, 3)] 40
  ++ deliver 1 [(0, 3)] 0

theorem agreement_undisturbed :
    let w : World := Run.final (idle 4).step (idle 4).init undisturbedRun
    w.committed.map Block.round = [1, 1]
    ∧ ∀ b ∈ w.committed, ∀ d ∈ w.committed,
      (b.round = d.round → b.id = d.id) ∧ (b.round ≤ d.round → w.Descends b d) :=
  ⟨by decide +kernel, agreement (idle 4) undisturbedRun (by decide +kernel)⟩

theorem committed_quorumVoted_undisturbed :
    let w : World := Run.final (idle 4).step (idle 4).init undisturbedRun
    w.committed ≠ [] ∧ ∀ b ∈ w.committed, (idle 4).QuorumVoted w b.id :=
  ⟨by decide +kernel, committed_quorumVoted (idle 4) undisturbedRun⟩

/-- Seven validators, led in round `r` by number `r`. `P₁`, `P₂`, `P₃` are proposals on one chain,
`N₁`, `N₂` the nil blocks of rounds 1 and 2, and `X₃` a proposal on `N₂`. -/
def conflictingRun : List Event :=
  -- `P₁` reaches all, some twice. 1, 3, 4, 5, 6 time out and vote for `N₁`, the others and 3 to 6 for `P₁`.
  (List.range 7).map start
  ++ deliver 0 [(1, 0), (1, 0)] 0 ++ deliver 2 [(1, 0)] 0 ++ deliver 3 [(1, 0), (1, 0)] 0
  ++ deliver 4 [(1, 0), (1, 0)] 0 ++ deliver 5 [(1, 0), (1, 0)] 0 ++ deliver 6 [(1, 0), (1, 0)] 0
  ++ [timeout 1, timeout 3, timeout 4, timeout 5, timeout 6]
  ++ [job 2 0, job 0 0, job 3 0, job 4 0, job 5 0, job 6 0]
  -- Both blocks are certified: 2 proposes `P₂` on `P₁`, and 1, 3, 4, 5, 6 enter round 2 on `N₁`.
  ++ deliver 2 [(2, 0), (0, 0), (3, 1), (4, 1), (5, 1)] 20
  ++ deliver 1 [(1, 1), (3, 0), (4, 0), (5, 0), (6, 0)] 0
  ++ [timeout 1] ++ deliver 3 [(1, 2)] 0 ++ deliver 4 [(1, 2)] 0 ++ deliver 5 [(1, 2)] 0
  ++ deliver 6 [(1, 2)] 0
  -- They vote for `N₂`, each time with another timeout count.
  ++ [timeout 3, timeout 4, timeout 5, timeout 6]
  ++ [timeout 1, timeout 3, timeout 4, timeout 5, timeout 6]
  -- 1, 3, 5 process `P₁` again, which replaces their last vote by one on genesis, and vote for `P₂`.
  ++ [job 1 0] ++ deliver 0 [(2, 1), (2, 1)] 0 ++ deliver 1 [(2, 1)] 0 ++ deliver 3 [(2, 1)] 0
  ++ deliver 4 [(2, 1)] 0 ++ deliver 5 [(2, 1)] 0 ++ deliver 6 [(2, 1)] 0
  ++ [job 3 1, job 5 1, job 2 0, job 0 0, job 1 0, job 3 0, job 5 0]
  -- Both are certified: 4 proposes `X₃` on `N₂`, and 3 proposes `P₃` on `P₂`.
  ++ deliver 4 [(1, 3), (3, 3), (4, 3), (5, 3), (6, 3)] 30
  ++ deliver 3 [(1, 5), (3, 5), (5, 5), (2, 2), (0, 1)] 40
  -- 4 and 6 process `P₁` again, vote for `X₃`, then late for `P₂`, and are free to vote for `P₃`.
  ++ [job 4 2, job 4 0, job 4 0] ++ deliver 6 [(4, 4)] 0 ++ [job 6 2, job 6 0, job 6 0]
  ++ deliver 1 [(4, 4)] 0 ++ [job 1 0] ++ deliver 5 [(4, 4)] 0 ++ [job 5 0]
  ++ deliver 0 [(3, 6)] 0 ++ deliver 2 [(3, 6)] 0 ++ deliver 4 [(3, 6)] 0 ++ deliver 6 [(3, 6)] 0
  ++ [job 3 0, job 2 0, job 4 0, job 6 0]
  -- So does 0 in the other order; it acquires `N₂` before it can vote for `X₃`.
  ++ [job 0 2, job 0 0, job 0 0] ++ deliver 0 [(4, 4)] 0
  ++ [⟨4, .acquireBlock (Block.nilBlock codeHasher 2 (idle 7).genesisBlock.quorumCert).id, idleAt 0⟩]
  ++ deliver 0 [(4, 9)] 0 ++ [job 0 0]
  -- The certificate of `P₃` commits `P₁` at 4, that of `X₃` commits `N₁` at 5.
  ++ deliver 4 [(4, 8), (0, 3), (6, 7), (2, 3), (3, 7)] 50
  ++ deliver 5 [(4, 6), (6, 5), (1, 6), (5, 6), (0, 5)] 50

/-- Two of seven validators commit different blocks of round 1. -/
theorem conflicting_commits :
    let w : World := Run.final (idle 7).step (idle 7).init conflictingRun
    w.committed.map Block.round = [1, 1]
    ∧ ¬ ∀ b ∈ w.committed, ∀ d ∈ w.committed, b.round = d.round → b.id = d.id := by
  decide +kernel

end Cluster

end Chainsql.Hotstuff
