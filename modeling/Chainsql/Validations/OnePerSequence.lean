import Chainsql.Lib.Run
import Chainsql.Validations.Store

/-!
# One counted validation per node and sequence

A validation is stored under its ledger when the node's `SeqEnforcer` accepts its sequence. The
enforcer forgets the largest sequence only when more than `valSeqExpires` has passed since it accepted
the last validation of the node, so a second validation of the same sequence tells of such a moment.
-/

namespace Chainsql.Validations

structure Arrival where
  clock : ValidationClock
  nodeID : PublicKey
  val : STValidation

def receive (m : Validations) (a : Arrival) : Validations := (m.add a.clock a.nodeID a.val).1

def enforcer (m : Validations) (nodeID : PublicKey) : SeqEnforcer := (m.seqEnforcers.lookup nodeID).getD {}

def timely (a : Arrival) : Bool := isCurrent a.clock.parms a.clock.closeTime a.val.signTime a.val.seenTime

def accepts (m : Validations) (a : Arrival) : Bool :=
  timely a && ((m.enforcer a.nodeID).advance a.clock a.val.seq).2

def afterAll (arrivals : List Arrival) : Validations := Run.final receive {} arrivals

def acceptedFrom (nodeID : PublicKey) (arrivals : List Arrival) : List Arrival :=
  (Run.kept receive accepts {} arrivals).filter fun a => a.nodeID = nodeID

def lastAccepted (nodeID : PublicKey) (arrivals : List Arrival) : Option Int :=
  (acceptedFrom nodeID arrivals).getLast?.map fun a => a.clock.now

/-- At the arrival `c`, more than `valSeqExpires` has passed since the last validation of the node was
accepted. -/
def Elapsed (nodeID : PublicKey) (before : List Arrival) (c : Arrival) : Prop :=
  ∃ last, lastAccepted nodeID before = some last ∧ c.clock.now > last + c.clock.valSeqExpires

def Stored (m : Validations) (nodeID : PublicKey) (val : STValidation) : Prop :=
  ∃ table, m.byLedger.lookup val.ledgerHash = some table ∧ table.lookup nodeID = some val

/-! ## What one arrival changes -/

section

variable {e : SeqEnforcer} {clock : ValidationClock} {seq : UInt32}

theorem advance_accepted (h : (e.advance clock seq).2 = true) :
    (e.advance clock seq).1 = { seq := seq, time := clock.now } := by
  unfold SeqEnforcer.advance at h ⊢
  generalize (if clock.now > e.time + clock.valSeqExpires then { e with seq := 0 } else e) = e' at h ⊢
  dsimp only at h ⊢
  split at h
  · cases h
  next hle => rw [if_neg hle]

theorem advance_of_not_late (h : ¬ clock.now > e.time + clock.valSeqExpires) :
    e.advance clock seq = if seq ≤ e.seq then (e, false) else ({ seq := seq, time := clock.now }, true) := by
  rw [SeqEnforcer.advance, if_neg h]

end

section

variable {m : Validations} {a : Arrival} {nodeID : PublicKey} {val : STValidation}

theorem store_byLedger (m : Validations) (nodeID : PublicKey) (val : STValidation) :
    (m.store nodeID val).1.byLedger
        = m.byLedger.insert val.ledgerHash (((m.byLedger.lookup val.ledgerHash).getD ∅).insert nodeID val)
      ∧ (m.store nodeID val).1.seqEnforcers = m.seqEnforcers := by
  unfold store
  dsimp only
  split
  · exact ⟨rfl, rfl⟩
  · split <;> exact ⟨rfl, rfl⟩

/-- Every timely validation moves the enforcer of its node, and those that it accepts reach `byLedger`. -/
theorem receive_spec (m : Validations) (a : Arrival) :
    (m.receive a).seqEnforcers = (if timely a
        then m.seqEnforcers.insert a.nodeID ((m.enforcer a.nodeID).advance a.clock a.val.seq).1
        else m.seqEnforcers)
      ∧ (m.receive a).byLedger = if m.accepts a
        then m.byLedger.insert a.val.ledgerHash
          (((m.byLedger.lookup a.val.ledgerHash).getD ∅).insert a.nodeID a.val)
        else m.byLedger := by
  rw [receive, add, accepts, timely, enforcer]
  cases isCurrent a.clock.parms a.clock.closeTime a.val.signTime a.val.seenTime with
  | false => exact ⟨rfl, rfl⟩
  | true =>
    dsimp only
    generalize ((m.seqEnforcers.lookup a.nodeID).getD {}).advance a.clock a.val.seq = r
    obtain ⟨e, accepted⟩ := r
    cases accepted with
    | false => exact ⟨rfl, rfl⟩
    | true =>
      obtain ⟨hledger, henforcers⟩ := store_byLedger
        { m with
          bySequence := m.bySequence.insert a.val.seq
            (((m.bySequence.lookup a.val.seq).getD ∅).insert a.nodeID
              (track a.clock (((m.bySequence.lookup a.val.seq).getD ∅).lookup a.nodeID) a.val))
          seqEnforcers := m.seqEnforcers.insert a.nodeID e } a.nodeID a.val
      exact ⟨henforcers, hledger⟩

theorem enforcer_receive : (m.receive a).enforcer nodeID =
    if timely a ∧ a.nodeID = nodeID then ((m.enforcer nodeID).advance a.clock a.val.seq).1 else m.enforcer nodeID := by
  rw [enforcer, (receive_spec m a).1]
  by_cases htimely : timely a = true
  · by_cases hnode : a.nodeID = nodeID
    · subst hnode
      rw [if_pos htimely, if_pos ⟨htimely, rfl⟩, AList.lookup_insert, Option.getD_some]
    · rw [if_pos htimely, if_neg fun h => hnode h.2, AList.lookup_insert_ne (Ne.symm hnode), enforcer]
  · rw [if_neg htimely, if_neg fun h => htimely h.1, enforcer]

theorem Stored.receive_cases (h : (m.receive a).Stored nodeID val) :
    m.Stored nodeID val ∨ (m.accepts a = true ∧ a.nodeID = nodeID ∧ a.val = val) := by
  obtain ⟨table, htable, hval⟩ := h
  rw [(receive_spec m a).2] at htable
  split at htable
  next haccepts =>
    by_cases hhash : val.ledgerHash = a.val.ledgerHash
    · rw [hhash, AList.lookup_insert, Option.some.injEq] at htable
      subst htable
      by_cases hnode : nodeID = a.nodeID
      · rw [hnode, AList.lookup_insert, Option.some.injEq] at hval
        exact .inr ⟨haccepts, hnode.symm, hval⟩
      · rw [AList.lookup_insert_ne hnode] at hval
        refine .inl ?_
        cases hold : m.byLedger.lookup a.val.ledgerHash with
        | none =>
          rw [hold] at hval
          cases hval
        | some old =>
          rw [hold] at hval
          exact ⟨old, hhash ▸ hold, hval⟩
    · rw [AList.lookup_insert_ne hhash] at htable
      exact .inl ⟨table, htable, hval⟩
  · exact .inl ⟨table, htable, hval⟩

end

/-! ## Runs -/

section

variable {arrivals before between after : List Arrival} {a b c : Arrival} {nodeID : PublicKey}
  {val : STValidation}

theorem exists_accepted_of_stored (h : (afterAll arrivals).Stored nodeID val) :
    ∃ a ∈ Run.kept receive accepts {} arrivals, a.nodeID = nodeID ∧ a.val = val := by
  induction arrivals using List.reverseRecOn with
  | nil =>
    obtain ⟨table, htable, -⟩ := h
    cases htable
  | append_singleton arrivals b ih =>
    have hsplit : afterAll (arrivals ++ [b]) = (afterAll arrivals).receive b := Run.final_append
    rw [hsplit] at h
    rw [Run.kept_append]
    rcases h.receive_cases with hold | ⟨haccepts, hnode, hval⟩
    · obtain ⟨a, ha, hfrom⟩ := ih hold
      exact ⟨a, List.mem_append_left _ ha, hfrom⟩
    · have haccepts : accepts (Run.final receive {} arrivals) b = true := haccepts
      refine ⟨b, List.mem_append_right _ ?_, hnode, hval⟩
      rw [Run.kept, if_pos haccepts]
      exact List.mem_cons_self

theorem lastAccepted_concat : lastAccepted nodeID (arrivals ++ [a]) =
    if (afterAll arrivals).accepts a ∧ a.nodeID = nodeID then some a.clock.now else lastAccepted nodeID arrivals := by
  cases haccepts : (afterAll arrivals).accepts a with
  | false => simp [lastAccepted, acceptedFrom, Run.kept_concat_of_not haccepts]
  | true => by_cases hnode : a.nodeID = nodeID <;> simp [lastAccepted, acceptedFrom, Run.kept_concat_of_keep haccepts, hnode]

/-- After the node's validation `a` was accepted the enforcer stays at its sequence or above, with the time of the
last one accepted, unless a later arrival finds it expired. -/
theorem held_or_elapsed (haccepts : (afterAll before).accepts a = true) (between : List Arrival) :
    (∃ e, (afterAll (before ++ a :: between)).enforcer a.nodeID = e ∧ a.val.seq ≤ e.seq
        ∧ lastAccepted a.nodeID (before ++ a :: between) = some e.time)
      ∨ ∃ p c q, between = p ++ c :: q ∧ Elapsed a.nodeID (before ++ a :: p) c := by
  have hconcat : ∀ arrivals b, afterAll (arrivals ++ [b]) = (afterAll arrivals).receive b := fun _ _ => Run.final_append
  induction between using List.reverseRecOn with
  | nil =>
    obtain ⟨htimely, hadvance⟩ := Bool.and_eq_true_iff.mp haccepts
    refine .inl ⟨_, rfl, ?_⟩
    rw [hconcat, enforcer_receive, if_pos ⟨htimely, rfl⟩, advance_accepted hadvance, lastAccepted_concat,
      if_pos ⟨haccepts, rfl⟩]
    exact ⟨UInt32.le_refl _, rfl⟩
  | append_singleton between b ih =>
    rcases ih with ⟨e, he, hle, hlast⟩ | ⟨p, c, q, rfl, helapsed⟩
    · rw [show before ++ a :: (between ++ [b]) = (before ++ a :: between) ++ [b] by simp, hconcat, enforcer_receive,
        lastAccepted_concat, he, hlast]
      by_cases hb : timely b = true ∧ b.nodeID = a.nodeID
      · have hresult : (afterAll (before ++ a :: between)).accepts b = (e.advance b.clock b.val.seq).2 := by
          rw [accepts, hb.1, hb.2, he, Bool.true_and]
        rw [if_pos hb, hresult]
        -- Either the enforcer has expired by now, or it is not lowered.
        by_cases hlate : b.clock.now > e.time + b.clock.valSeqExpires
        · exact .inr ⟨between, b, [], rfl, e.time, hlast, hlate⟩
        · rw [advance_of_not_late hlate]
          split
          · exact .inl ⟨e, rfl, hle, if_neg fun h => Bool.false_ne_true h.1⟩
          next hlt => exact .inl ⟨_, rfl, UInt32.le_trans hle (UInt32.le_of_lt (UInt32.not_le.mp hlt)), if_pos ⟨rfl, hb.2⟩⟩
      · exact .inl ⟨e, if_neg hb, hle, if_neg fun h => hb ⟨(Bool.and_eq_true_iff.mp h.1).1, h.2⟩⟩
    · exact .inr ⟨p, c, q ++ [b], by simp, helapsed⟩

theorem elapsed_between (hclock : (before ++ a :: (between ++ b :: after)).Pairwise fun x y => x.clock.now ≤ y.clock.now)
    (ha : (afterAll before).accepts a = true) (hb : (afterAll (before ++ a :: between)).accepts b = true)
    (hnode : b.nodeID = a.nodeID) (hseq : b.val.seq = a.val.seq) :
    ∃ p c q, between ++ [b] = p ++ c :: q ∧ Elapsed a.nodeID (before ++ a :: p) c
      ∧ a.clock.now ≤ c.clock.now ∧ c.clock.now ≤ b.clock.now := by
  obtain ⟨hfirst, hrest⟩ := List.pairwise_cons.mp (List.pairwise_append.mp hclock).2.1
  have hlast := (List.pairwise_append.mp hrest).2.2
  rcases held_or_elapsed ha between with ⟨e, he, hle, hlast⟩ | ⟨p, c, q, rfl, helapsed⟩
  · refine ⟨between, b, [], rfl, ⟨e.time, hlast, by_contra fun hlate => ?_⟩, hfirst b (by simp), le_refl _⟩
    have hadvance := (Bool.and_eq_true_iff.mp hb).2
    rw [hnode, he, advance_of_not_late hlate, hseq, if_pos hle] at hadvance
    cases hadvance
  · exact ⟨p, c, q ++ [b], by simp, helapsed, hfirst c (by simp), hlast c (by simp) b (by simp)⟩

theorem exists_between {rest rest' before' : List Arrival} (hne : a ≠ b)
    (h : before ++ a :: rest = before' ++ b :: rest') :
    (∃ between, before' = before ++ a :: between ∧ rest = between ++ b :: rest')
      ∨ ∃ between, before = before' ++ b :: between ∧ rest' = between ++ a :: rest := by
  rcases List.append_eq_append_iff.mp h with ⟨l, rfl, hl⟩ | ⟨l, rfl, hl⟩
  · cases l with
    | nil => exact absurd (List.cons.inj hl).1 hne
    | cons x between =>
      obtain ⟨rfl, hrest⟩ := List.cons.inj hl
      exact .inl ⟨between, rfl, hrest⟩
  · cases l with
    | nil => exact absurd (List.cons.inj hl).1.symm hne
    | cons x between =>
      obtain ⟨rfl, hrest⟩ := List.cons.inj hl
      exact .inr ⟨between, rfl, hrest⟩

/-- If two validations of one node for one sequence and different ledgers are stored, then at some
arrival after the first and not after the second, more than `valSeqExpires` had passed since the last
validation of the node was accepted. -/
theorem second_validation_after_expiry
    (hclock : arrivals.Pairwise fun x y => x.clock.now ≤ y.clock.now) {u w : STValidation}
    (hu : (afterAll arrivals).Stored nodeID u) (hw : (afterAll arrivals).Stored nodeID w)
    (hseq : u.seq = w.seq) (hledger : u.ledgerHash ≠ w.ledgerHash) :
    ∃ before a between b after, arrivals = before ++ a :: (between ++ b :: after)
      ∧ a.nodeID = nodeID ∧ b.nodeID = nodeID
      ∧ ((a.val = u ∧ b.val = w) ∨ (a.val = w ∧ b.val = u))
      ∧ ∃ p c q, between ++ [b] = p ++ c :: q ∧ Elapsed nodeID (before ++ a :: p) c
        ∧ a.clock.now ≤ c.clock.now ∧ c.clock.now ≤ b.clock.now := by
  obtain ⟨a, ha, hanode, rfl⟩ := exists_accepted_of_stored hu
  obtain ⟨b, hb, hbnode, rfl⟩ := exists_accepted_of_stored hw
  obtain ⟨before, rest, hasplit, haccepts⟩ := Run.mem_kept.mp ha
  obtain ⟨before', rest', hbsplit, hbccepts⟩ := Run.mem_kept.mp hb
  have hne : a ≠ b := fun h => hledger (congrArg (fun x : Arrival => x.val.ledgerHash) h)
  rcases exists_between hne (hasplit.symm.trans hbsplit) with ⟨between, rfl, rfl⟩ | ⟨between, rfl, rfl⟩
  · rw [hasplit] at hclock
    obtain ⟨p, c, q, hsplit, helapsed, hnow⟩ :=
      elapsed_between hclock haccepts hbccepts (hbnode.trans hanode.symm) hseq.symm
    exact ⟨before, a, between, b, rest', hasplit, hanode, hbnode, .inl ⟨rfl, rfl⟩, p, c, q, hsplit,
      hanode ▸ helapsed, hnow⟩
  · rw [hbsplit] at hclock
    obtain ⟨p, c, q, hsplit, helapsed, hnow⟩ :=
      elapsed_between hclock hbccepts haccepts (hanode.trans hbnode.symm) hseq
    exact ⟨before', b, between, a, rest, hbsplit, hbnode, hanode, .inr ⟨rfl, rfl⟩, p, c, q, hsplit,
      hbnode ▸ helapsed, hnow⟩

end

def arrivalOf (now : Int) (hash : HashValue) : Arrival where
  clock := { now := now, closeTime := now / 1000 }
  nodeID := 1
  val := { signerPublic := 1, ledgerHash := hash, ledgerSequence := some 5, signTime := now / 1000 }

-- The second validation conflicts with the first; the third one comes after the expiry.
def threeForFive : List Arrival := [arrivalOf 0 100, arrivalOf 100000 101, arrivalOf 700000 102]

theorem second_validation_after_expiry_threeForFive :
    (afterAll threeForFive).byLedger.keys = [102, 100]
    ∧ ∃ before a between b after, threeForFive = before ++ a :: (between ++ b :: after)
      ∧ a.nodeID = 1 ∧ b.nodeID = 1
      ∧ ((a.val = (arrivalOf 0 100).val ∧ b.val = (arrivalOf 700000 102).val)
        ∨ (a.val = (arrivalOf 700000 102).val ∧ b.val = (arrivalOf 0 100).val))
      ∧ ∃ p c q, between ++ [b] = p ++ c :: q ∧ Elapsed 1 (before ++ a :: p) c
        ∧ a.clock.now ≤ c.clock.now ∧ c.clock.now ≤ b.clock.now :=
  ⟨by decide, @second_validation_after_expiry threeForFive 1 (by decide) (arrivalOf 0 100).val
    (arrivalOf 700000 102).val ⟨_, rfl, rfl⟩ ⟨_, rfl, rfl⟩ rfl (by decide)⟩

end Chainsql.Validations
