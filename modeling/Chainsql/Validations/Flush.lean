import Chainsql.Validations.InStep

/-!
# Forgetting all validations

`flush` withdraws the support of every node with a current validation, under the conditions of `removeTrie`,
and then drops the current validations. Support that those conditions leave out stays: it is found again by
`getPreferred` after the flush.
-/

namespace Chainsql

open Lineage LedgerTrie

variable {L : Type*} [Lineage L HashValue]

namespace LedgerSupport

/-- The nodes that count or wait are in `K`, and the trie counts the last ledgers. -/
def Within (K : Finset PublicKey) (T : LedgerSupport L) : Prop := Tracked (fun n _ => n ∈ K) (fun n _ => n ∈ K) True T

section

variable {K : Finset PublicKey} {T : LedgerSupport L}

theorem feasible_of_card (hK : K.card < 2 ^ 32) :
    Feasible (fun (n : PublicKey) (_ : L) => n ∈ K) (fun n _ => n ∈ K) :=
  ⟨⟨K, hK, fun _ _ hn => hn⟩, fun hn _ => hn⟩

variable [LawfulLineage L] [DecidableEq L] {adaptor : Acquirer L}

theorem Within.sweep {verdict : PublicKey → STValidation → Verdict} {entries : List (Σ _ : PublicKey, STValidation)}
    (h : Within K T) (hK : K.card < 2 ^ 32) (hn : ∀ e ∈ entries, e.1 ∈ K) :
    Within K (sweep adaptor verdict entries T) := by
  induction entries generalizing T with
  | nil => exact h
  | cons e entries ih =>
    obtain ⟨nodeID, val⟩ := e
    refine ih ?_ fun e he => hn e (List.mem_cons_of_mem _ he)
    cases verdict nodeID val with
    | keep => exact h
    | renew => exact Tracked.updateTrie (feasible_of_card hK) (h.clearPrior _ _) (hn ⟨nodeID, val⟩ List.mem_cons_self)
    | drop => exact h.removeTrie nodeID val

end

/-! ## What a flush leaves -/

section

variable {T : LedgerSupport L} {adaptor : Acquirer L} {n : PublicKey} {key : UInt32 × HashValue} {ledger : L}
  {entries : List (Σ _ : PublicKey, STValidation)}

/-- What each removal keeps, unless it is about the node and `Q` holds of the validation, is kept by all of them
unless `Q` holds of one of the node's. -/
theorem sweep_drop_iff {P : LedgerSupport L → Prop} {Q : STValidation → Prop}
    (hstep : ∀ T nodeID val, P (T.removeTrie nodeID val) ↔ P T ∧ ¬(n = nodeID ∧ Q val)) :
    P (sweep adaptor (fun _ _ => .drop) entries T) ↔ P T ∧ ∀ v, ⟨n, v⟩ ∈ entries → ¬Q v := by
  induction entries generalizing T with
  | nil => simp [sweep]
  | cons e entries ih =>
    obtain ⟨nodeID, val⟩ := e
    rw [sweep, ih, hstep, and_assoc]
    refine and_congr_right fun _ => ?_
    constructor
    · rintro ⟨hnot, hrest⟩ v hv heq
      rcases List.mem_cons.mp hv with hv | hv
      · cases hv
        exact hnot ⟨rfl, heq⟩
      · exact hrest v hv heq
    · intro h
      refine ⟨?_, fun v hv => h v (List.mem_cons_of_mem _ hv)⟩
      rintro ⟨rfl, heq⟩
      exact h val List.mem_cons_self heq

variable (adaptor) in
theorem lookup_sweep_drop :
    (sweep adaptor (fun _ _ => .drop) entries T).lastLedger.lookup n = some ledger ↔
      T.lastLedger.lookup n = some ledger ∧ ∀ v, ⟨n, v⟩ ∈ entries → v.ledgerHash ≠ Lineage.id ledger :=
  sweep_drop_iff (P := fun T => T.lastLedger.lookup n = some ledger) fun _ _ _ => lookup_removeTrie

variable (adaptor) in
theorem waits_sweep_drop :
    (sweep adaptor (fun _ _ => .drop) entries T).Waits n key ↔
      T.Waits n key ∧ ∀ v, ⟨n, v⟩ ∈ entries → key ≠ (v.seq, v.ledgerHash) :=
  sweep_drop_iff (P := fun T => T.Waits n key) fun _ _ _ => waits_removeTrie

end

end LedgerSupport

namespace TrieValidations

open LedgerSupport

/-- Nothing is left of the validations, so that no ledger is preferred whatever is asked. -/
structure Forgotten (m : TrieValidations L) : Prop where
  trie : m.support.trie.empty = true
  current : m.base.current = ∅
  acquiring : m.support.acquiring = ∅
  lastLedger : m.support.lastLedger = ∅
  preferred : ∀ adaptor clock order largestIssued curr,
    (m.getPreferred adaptor clock order largestIssued curr).2 = none

/-- Every node that counts has a current validation of the ledger it counts for, and every node that waits
has one of the ledger it waits for. -/
def Backed (m : TrieValidations L) : Prop :=
  (∀ n ledger, m.support.lastLedger.lookup n = some ledger →
      ∃ v, m.base.current.lookup n = some v ∧ v.ledgerHash = Lineage.id ledger) ∧
    ∀ n key, m.support.Waits n key → ∃ v, m.base.current.lookup n = some v ∧ key = (v.seq, v.ledgerHash)

def Op.nodes : Op L → List PublicKey
  | .add _ nodeID _ => [nodeID]
  | _ => []

/-- The nodes with a current validation, and those that count or wait, are in `K`. -/
structure Among (K : Finset PublicKey) (m : TrieValidations L) : Prop where
  support : Within K m.support
  current : m.base.current.All fun n _ => n ∈ K

section

variable [LawfulLineage L] [DecidableEq L] {K : Finset PublicKey} {m : TrieValidations L} {adaptor : Acquirer L}
  (hK : K.card < 2 ^ 32)

include hK

theorem Among.add (h : Among K m) (clock : ValidationClock) {nodeID : PublicKey} (hn : nodeID ∈ K)
    (val : STValidation) : Among K (m.add adaptor clock nodeID val).1 := by
  have hcurrent : (m.base.add clock nodeID val).1.current.All fun n _ => n ∈ K := by
    rcases current_add m.base clock nodeID val with ⟨-, hcur⟩ | ⟨-, hcur⟩
    · rw [hcur]
      exact h.current.insert hn
    · rw [hcur]
      exact h.current
  unfold TrieValidations.add
  dsimp only
  split
  · exact ⟨Tracked.updateTrie (feasible_of_card hK) (h.support.clearPrior _ _) hn, hcurrent⟩
  · exact ⟨h.support, hcurrent⟩

theorem Among.sweep (h : Among K m) (verdict : PublicKey → STValidation → Verdict) :
    Within K (LedgerSupport.sweep adaptor verdict m.base.current.entries m.support) :=
  h.support.sweep hK h.current

theorem Among.dropStale (h : Among K m) (clock : ValidationClock) : Among K (m.dropStale adaptor clock) :=
  ⟨h.sweep hK _, h.current.eraseIf _⟩

theorem Among.step (order : Arrangement (Node L)) (h : Among K m) {op : Op L} (hop : ∀ n ∈ op.nodes, n ∈ K) :
    Among K (m.step adaptor order op) := by
  cases op with
  | add clock nodeID val => exact h.add hK clock (hop nodeID List.mem_cons_self) val
  | trustChanged added removed => exact ⟨h.sweep hK _, h.current.filterMapVal fun n v hn _ _ => hn⟩
  | expire oldLedger oldSeq => exact ⟨h.support, h.current⟩
  | flush => exact ⟨h.sweep hK _, AList.all_empty⟩
  | getPreferred clock largestIssued curr =>
    have hstale : Among K (m.dropStale adaptor clock) := h.dropStale hK clock
    have hchecked := hstale.support.checkAcquired adaptor (feasible_of_card hK)
    rw [TrieValidations.step, getPreferred_fst]
    exact ⟨⟨hchecked.represents.getPreferred order largestIssued, hchecked.counted, hchecked.listed⟩, hstale.current⟩
  | currentTrusted clock => exact h.dropStale hK clock

omit hK [LawfulLineage L] [DecidableEq L] in
theorem among_empty : Among K ({} : TrieValidations L) :=
  ⟨⟨represents_empty, AList.all_empty, AList.all_empty⟩, AList.all_empty⟩

omit hK [LawfulLineage L] [DecidableEq L] in
theorem getPreferred_of_empty (htrie : m.support.trie.empty = true) (hcurrent : m.base.current = ∅)
    (hacquiring : m.support.acquiring = ∅) (adaptor : Acquirer L) (clock : ValidationClock)
    (order : Arrangement (Node L)) (largestIssued : Nat) (curr : L) :
    (m.getPreferred adaptor clock order largestIssued curr).2 = none := by
  have hstale : (m.dropStale adaptor clock).support = m.support := by
    unfold TrieValidations.dropStale
    rw [hcurrent]
    rfl
  have hchecked : m.support.checkAcquired adaptor = m.support := by
    rw [checkAcquired, hacquiring]
    rfl
  have hnone : m.support.trie.getPreferred order largestIssued = (m.support.trie, none) := by
    rw [LedgerTrie.getPreferred, if_pos htrie]
  unfold TrieValidations.getPreferred
  dsimp only
  rw [hstale, hchecked, hnone, hacquiring]
  rfl

theorem Among.forgotten_flush_iff (h : Among K m) : Forgotten (m.flush adaptor) ↔ m.Backed := by
  have hmem : ∀ n v, (⟨n, v⟩ : Σ _ : PublicKey, STValidation) ∈ m.base.current.entries ↔
      m.base.current.lookup n = some v := fun n v => AList.mem_lookup_iff.symm
  constructor
  · intro hforgot
    refine ⟨fun n ledger hledger => ?_, fun n key hwaits => ?_⟩
    · by_contra hnone
      have hstays : (m.flush adaptor).support.lastLedger.lookup n = some ledger := by
        refine (lookup_sweep_drop adaptor).mpr ⟨hledger, fun v hv heq => hnone ⟨v, (hmem n v).mp hv, heq⟩⟩
      rw [hforgot.lastLedger] at hstays
      cases hstays
    · by_contra hnone
      have hstays : (m.flush adaptor).support.Waits n key := by
        refine (waits_sweep_drop adaptor).mpr ⟨hwaits, fun v hv heq => hnone ⟨v, (hmem n v).mp hv, heq⟩⟩
      rw [Waits, hforgot.acquiring] at hstays
      obtain ⟨nodes, hlookup, -⟩ := hstays
      cases hlookup
  · rintro ⟨hcounted, hwaiting⟩
    have hflush : Within K (m.flush adaptor).support := h.sweep hK _
    have hlast : (m.flush adaptor).support.lastLedger = ∅ := by
      refine AList.eq_empty_of_lookup fun n => ?_
      by_contra hsome
      obtain ⟨ledger, hledger⟩ := Option.ne_none_iff_exists'.mp hsome
      obtain ⟨hbefore, hnone⟩ := (lookup_sweep_drop adaptor).mp hledger
      obtain ⟨v, hv, heq⟩ := hcounted n ledger hbefore
      exact hnone v ((hmem n v).mpr hv) heq
    have hacquiring : (m.flush adaptor).support.acquiring = ∅ := by
      refine AList.eq_empty_of_lookup fun key => ?_
      by_contra hsome
      obtain ⟨nodes, hnodes⟩ := Option.ne_none_iff_exists'.mp hsome
      obtain ⟨n, hn⟩ := List.exists_mem_of_ne_nil _ ((hflush.listed.lookup hnodes).1 trivial)
      obtain ⟨hbefore, hnone⟩ := (waits_sweep_drop adaptor).mp ⟨nodes, hnodes, hn⟩
      obtain ⟨v, hv, heq⟩ := hwaiting n key hbefore
      exact hnone v ((hmem n v).mpr hv) heq
    have htrie : (m.flush adaptor).support.trie.empty = true := by
      have hzero := hflush.represents.rooted.1.branchSupport_eq
      rw [hflush.represents.card_tips, hlast, AList.values_empty] at hzero
      rw [LedgerTrie.empty, beq_iff_eq]
      exact UInt32.toNat_inj.mp hzero
    exact ⟨htrie, rfl, hacquiring, hlast, getPreferred_of_empty htrie rfl hacquiring⟩

end

end TrieValidations

end Chainsql
