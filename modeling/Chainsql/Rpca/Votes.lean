import Chainsql.Rpca.Consensus

/-!
# The votes of a position

The disputes of a position are kept right by each operation on them: our vote follows our set, the votes of the
peers are counted, and follow the sets that are known.
-/

namespace Chainsql.Rpca

open AList Function

/-! ## One dispute -/

namespace DisputedTx

variable {Node : Type} [DecidableEq Node] {d : DisputedTx Node} {peer node : Node} {vote : Bool}

structure Counted (d : DisputedTx Node) : Prop where
  yays : d.yays = d.votes.values.count true
  nays : d.nays = d.votes.values.count false

omit [DecidableEq Node] in
theorem counted_new : (new vote : DisputedTx Node).Counted := ⟨rfl, rfl⟩

theorem setVote_cases (d : DisputedTx Node) (peer : Node) (vote : Bool) :
    (d.votes.lookup peer = some vote ∧ d.setVote peer vote = d) ∨
      (d.votes.lookup peer = none ∧ d.setVote peer vote =
        ⟨d.yays + (if vote then 1 else 0), d.nays + (if vote then 0 else 1), d.ourVote, d.votes.insert peer vote⟩) ∨
      (d.votes.lookup peer = some (!vote) ∧ d.setVote peer vote =
        ⟨d.yays + (if vote then 1 else -1), d.nays + (if vote then -1 else 1), d.ourVote, d.votes.insert peer vote⟩) := by
  rw [setVote]
  cases hold : d.votes.lookup peer with
  | none =>
    refine .inr (.inl ⟨rfl, ?_⟩)
    cases vote with
    | true => simp
    | false => simp
  | some old =>
    cases old with
    | true =>
      cases vote with
      | true => exact .inl ⟨rfl, by simp⟩
      | false => exact .inr (.inr ⟨rfl, by simp [Int.sub_eq_add_neg]⟩)
    | false =>
      cases vote with
      | true => exact .inr (.inr ⟨rfl, by simp [Int.sub_eq_add_neg]⟩)
      | false => exact .inl ⟨rfl, by simp⟩

theorem ourVote_setVote : (d.setVote peer vote).ourVote = d.ourVote := by
  rcases setVote_cases d peer vote with ⟨-, heq⟩ | ⟨-, heq⟩ | ⟨-, heq⟩
  all_goals rw [heq]

theorem lookup_setVote : (d.setVote peer vote).votes.lookup node = if node = peer then some vote else d.votes.lookup node := by
  have hinsert : (d.votes.insert peer vote).lookup node = if node = peer then some vote else d.votes.lookup node := by
    split
    next hnode => rw [hnode, lookup_insert]
    next hnode => exact lookup_insert_ne hnode
  rcases setVote_cases d peer vote with ⟨hold, heq⟩ | ⟨-, heq⟩ | ⟨-, heq⟩
  · rw [heq]
    split
    next hnode => rw [hnode, hold]
    · rfl
  · rw [heq, hinsert]
  · rw [heq, hinsert]

theorem Counted.setVote (h : d.Counted) : (d.setVote peer vote).Counted := by
  obtain ⟨hyays, hnays⟩ := h
  rcases setVote_cases d peer vote with ⟨-, heq⟩ | ⟨hold, heq⟩ | ⟨hold, heq⟩
  · rw [heq]
    exact ⟨hyays, hnays⟩
  · rw [heq]
    refine ⟨?_, ?_⟩
    all_goals simp only [values_insert, erase_of_lookup_none hold, hyays, hnays]
    all_goals cases vote <;> simp
  · rw [values_of_lookup hold] at hyays hnays
    rw [heq]
    refine ⟨?_, ?_⟩
    all_goals simp only [values_insert, hyays, hnays]
    all_goals cases vote <;> simp

theorem ourVote_unVote : (d.unVote peer).ourVote = d.ourVote := by
  rw [unVote]
  split <;> rfl

theorem lookup_unVote : (d.unVote peer).votes.lookup node = if node = peer then none else d.votes.lookup node := by
  by_cases hnode : node = peer
  · rw [if_pos hnode, hnode, unVote]
    split
    · exact lookup_erase _ _
    · exact lookup_erase _ _
    next hold => exact hold
  · rw [if_neg hnode, unVote]
    split
    · exact lookup_erase_ne hnode
    · exact lookup_erase_ne hnode
    · rfl

theorem Counted.unVote (h : d.Counted) : (d.unVote peer).Counted := by
  obtain ⟨hyays, hnays⟩ := h
  rw [DisputedTx.unVote]
  split
  next hold =>
    rw [values_of_lookup hold] at hyays hnays
    exact ⟨by simp [hyays], by simp [hnays]⟩
  next hold =>
    rw [values_of_lookup hold] at hyays hnays
    exact ⟨by simp [hyays], by simp [hnays]⟩
  · exact ⟨hyays, hnays⟩

variable {parms : RpcaConsensusParms} {percentTime : ℤ} {proposing : Bool}

omit [DecidableEq Node] in
theorem votes_updateVote : (d.updateVote parms percentTime proposing).votes = d.votes := by
  rw [updateVote]
  split
  · rfl
  · split <;> rfl

omit [DecidableEq Node] in
theorem Counted.updateVote (h : d.Counted) : (d.updateVote parms percentTime proposing).Counted := by
  rw [DisputedTx.updateVote]
  split
  · exact h
  · split
    · exact h
    · exact ⟨h.yays, h.nays⟩

end DisputedTx

/-! ## What is known of the peers -/

section

variable {Node TxID SetID LedgerID : Type} [DecidableEq Node] [DecidableEq SetID]

def known (positions : Positions Node SetID LedgerID) (acquired : Acquired TxID SetID) (node : Node) :
    Option (Finset TxID) :=
  (positions.lookup node).bind fun p => acquired.lookup p.position

variable {positions : Positions Node SetID LedgerID} {acquired : Acquired TxID SetID} {node : Node}
  {p : Proposal Node SetID LedgerID} {o : Finset TxID}

theorem known_eq_some :
    known positions acquired node = some o ↔
      ∃ p, positions.lookup node = some p ∧ acquired.lookup p.position = some o :=
  Option.bind_eq_some_iff

theorem known_of_lookup (hp : positions.lookup node = some p) :
    known positions acquired node = acquired.lookup p.position := by
  rw [known, hp, Option.bind_some]

theorem known_insert_ne (hne : node ≠ p.nodeID) :
    known (positions.insert p.nodeID p) acquired node = known positions acquired node := by
  rw [known, known, lookup_insert_ne hne]

/-- What is known of the peers is a part of what else is known. -/
def Below (k k' : Node → Option (Finset TxID)) : Prop := ∀ node o, k node = some o → k' node = some o

variable {k k' K : Node → Option (Finset TxID)}

theorem below_update_none : Below (Function.update k node none) k := by
  intro n o ho
  by_cases heq : n = node
  · rw [heq, update_self] at ho
    cases ho
  · rwa [update_of_ne heq] at ho

theorem Below.update (h : Below k K) (node : Node) :
    Below k (Function.update k node (K node)) ∧ Below (Function.update k node (K node)) K := by
  refine ⟨fun n o ho => ?_, fun n o ho => ?_⟩
  · by_cases heq : n = node
    · rw [heq, update_self]
      exact h node o (heq ▸ ho)
    · rwa [update_of_ne heq]
  · by_cases heq : n = node
    · rwa [heq, update_self, ← heq] at ho
    · rw [update_of_ne heq] at ho
      exact h n o ho

theorem foldl_positions {α : Type} {P : (Node → Option (Finset TxID)) → α → Prop}
    {f : α → (Sigma fun _ : Node => Proposal Node SetID LedgerID) → α} {a : α} (hk : Below k (known positions acquired))
    (h : P k a) (hstep : ∀ e k' a, positions.lookup e.1 = some e.2 → Below k k' → Below k' (known positions acquired) →
      P k' a → P (Function.update k' e.1 (acquired.lookup e.2.position)) (f a e)) :
    P (known positions acquired) (positions.entries.foldl f a) := by
  have hfold : ∀ l ⊆ positions.entries, ∀ k' a, Below k k' → Below k' (known positions acquired) → P k' a →
      ∃ k'', Below k' k'' ∧ Below k'' (known positions acquired) ∧
        (∀ e ∈ l, k'' e.1 = known positions acquired e.1) ∧ P k'' (l.foldl f a) := by
    intro l
    induction l with
    | nil => exact fun _ k' a _ hK h => ⟨k', fun _ _ h => h, hK, fun e he => absurd he List.not_mem_nil, h⟩
    | cons e l ih =>
      intro hl k' a hk hK h
      obtain ⟨he, hl⟩ := List.cons_subset.mp hl
      have hp := mem_lookup_iff.mpr he
      have hnext := hstep e k' a hp hk hK h
      rw [← known_of_lookup hp] at hnext
      obtain ⟨hle, hle'⟩ := hK.update e.1
      obtain ⟨k'', hk'', hK'', hall, h''⟩ := ih hl _ _ (fun n o ho => hle n o (hk n o ho)) hle' hnext
      refine ⟨k'', fun n o ho => hk'' n o (hle n o ho), hK'', fun e' he' => ?_, h''⟩
      rcases List.mem_cons.mp he' with rfl | he'
      · refine Option.ext fun o => ⟨hK'' e'.1 o, fun ho => hk'' e'.1 o ?_⟩
        rwa [update_self]
      · exact hall e' he'
  obtain ⟨k', -, hK, hall, h⟩ := hfold _ (List.Subset.refl _) k a (fun _ _ h => h) hk h
  have heq : k' = known positions acquired := by
    refine funext fun n => Option.ext fun o => ⟨hK n o, fun ho => ?_⟩
    obtain ⟨p, hp, -⟩ := known_eq_some.mp ho
    exact (hall ⟨n, p⟩ (mem_lookup_iff.mp hp)).trans ho
  exact heq ▸ h

variable [DecidableEq TxID]

/-- The differences between our set and another one are disputed, if the disputes are fewer than the differences
that a comparison finds. -/
def Result.Covers (r : Result Node TxID SetID) (set : Finset TxID) : Prop :=
  r.disputes.size < 65536 → ∀ tx ∈ symmDiff r.txns set, tx ∈ r.disputes

/-! ### One dispute -/

structure Right (voters : Node → Prop) (k : Node → Option (Finset TxID)) (txns : Finset TxID) (tx : TxID)
    (d : DisputedTx Node) : Prop where
  ours : d.ourVote = decide (tx ∈ txns)
  counted : d.Counted
  voter : ∀ node, d.votes.lookup node ≠ none → voters node
  voted : ∀ node o, k node = some o → d.votes.lookup node = some (decide (tx ∈ o))

variable {voters voters' : Node → Prop} {txns : Finset TxID} {tx : TxID} {d : DisputedTx Node}

theorem Right.mono (h : Right voters k txns tx d) (hvoters : ∀ n, voters n → voters' n) (hk : Below k' k) :
    Right voters' k' txns tx d :=
  ⟨h.ours, h.counted, fun n hn => hvoters n (h.voter n hn), fun n o ho => h.voted n o (hk n o ho)⟩

theorem Right.setVote (h : Right voters k txns tx d) (hnode : voters node) (o : Finset TxID) :
    Right voters (Function.update k node (some o)) txns tx (d.setVote node (decide (tx ∈ o))) := by
  refine ⟨DisputedTx.ourVote_setVote.trans h.ours, h.counted.setVote, fun n hn => ?_, fun n o' ho' => ?_⟩
  · rw [DisputedTx.lookup_setVote] at hn
    split at hn
    next heq => exact heq ▸ hnode
    · exact h.voter n hn
  · rw [DisputedTx.lookup_setVote]
    by_cases heq : n = node
    · rw [heq, update_self] at ho'
      rw [if_pos heq, Option.some.inj ho']
    · rw [update_of_ne heq] at ho'
      rw [if_neg heq]
      exact h.voted n o' ho'

theorem Right.unVote (h : Right voters k txns tx d) (peer : Node) (hvoters : ∀ n, n ≠ peer → voters n → voters' n)
    (hpeer : k' peer = none) (hk : Below k' k) : Right voters' k' txns tx (d.unVote peer) := by
  refine ⟨DisputedTx.ourVote_unVote.trans h.ours, h.counted.unVote, fun n hn => ?_, fun n o ho => ?_⟩
  · rw [DisputedTx.lookup_unVote] at hn
    split at hn
    · exact absurd rfl hn
    next hne => exact hvoters n hne (h.voter n hn)
  · have hne : n ≠ peer := by
      rintro rfl
      cases hpeer.symm.trans ho
    rw [DisputedTx.lookup_unVote, if_neg hne]
    exact h.voted n o (hk n o ho)

theorem right_castVotes (positions : Positions Node SetID LedgerID) (acquired : Acquired TxID SetID)
    (txns : Finset TxID) (tx : TxID) :
    Right (fun n => positions.lookup n ≠ none) (known positions acquired) txns tx
      (Result.castVotes positions acquired tx (.new (decide (tx ∈ txns)))) := by
  have hnew : Right (fun n => positions.lookup n ≠ none) (fun _ => none) txns tx
      (DisputedTx.new (decide (tx ∈ txns)) : DisputedTx Node) :=
    ⟨rfl, DisputedTx.counted_new, fun n hn => absurd rfl hn, fun n o ho => by cases ho⟩
  refine foldl_positions (k := fun _ => none) (P := fun k d => Right _ k txns tx d) (fun n o ho => by cases ho) hnew
    fun e k d hp _ _ hd => ?_
  cases acquired.lookup e.2.position with
  | some o => exact hd.setVote (by rw [hp]; exact Option.some_ne_none _) o
  | none => exact hd.mono (fun _ h => h) below_update_none

/-! ### All disputes -/

variable {T : TxSets TxID SetID} {r r' : Result Node TxID SetID}

structure Sound (T : TxSets TxID SetID) (voters : Node → Prop) (k : Node → Option (Finset TxID))
    (r : Result Node TxID SetID) : Prop where
  right : ∀ tx d, r.disputes.lookup tx = some d → Right voters k r.txns tx d
  covers : ∀ o, T.id o ∈ r.compares → r.Covers o

/-- The sets that are known have been compared. -/
structure Good (T : TxSets TxID SetID) (voters : Node → Prop) (k : Node → Option (Finset TxID))
    (r : Result Node TxID SetID) : Prop extends Sound T voters k r where
  compared : ∀ node o, k node = some o → T.id o ∈ r.compares

omit [DecidableEq SetID] in
theorem Good.mono (h : Good T voters k r) (hvoters : ∀ n, voters n → voters' n) (hk : Below k' k) :
    Good T voters' k' r :=
  ⟨⟨fun tx d hd => (h.right tx d hd).mono hvoters hk, h.covers⟩, fun n o ho => h.compared n o (hk n o ho)⟩

omit [DecidableEq SetID] in
theorem compared_update {compares : Finset SetID} (ho : T.id o ∈ compares)
    (h : ∀ n o, k n = some o → T.id o ∈ compares) (n : Node) (o' : Finset TxID)
    (ho' : Function.update k node (some o) n = some o') : T.id o' ∈ compares := by
  by_cases heq : n = node
  · rw [heq, update_self] at ho'
    rwa [← Option.some.inj ho']
  · rw [update_of_ne heq] at ho'
    exact h n o' ho'

structure Grown (r r' : Result Node TxID SetID) : Prop where
  txns : r'.txns = r.txns
  mem : ∀ tx ∈ r.disputes, tx ∈ r'.disputes

omit [DecidableEq Node] [DecidableEq SetID] in
theorem Grown.covers (h : Grown r r') (hcovers : r.Covers o) : r'.Covers o := by
  intro hsize tx htx
  rw [h.txns] at htx
  have hle : r.disputes.size ≤ r'.disputes.size := by
    rw [size_eq_keys_length]
    exact length_le_size r.disputes.nodupKeys h.mem
  exact h.mem tx (hcovers (Nat.lt_of_le_of_lt hle hsize) tx htx)

section CreateDisputes

variable (hvoters : ∀ n, positions.lookup n ≠ none → voters n) (hk : Below k (known positions acquired))

theorem dispute_spec (positions : Positions Node SetID LedgerID) (acquired : Acquired TxID SetID)
    (r : Result Node TxID SetID) (tx : TxID) :
    Grown r (r.dispute positions acquired tx) ∧ (r.dispute positions acquired tx).compares = r.compares ∧
      tx ∈ (r.dispute positions acquired tx).disputes := by
  rw [Result.dispute]
  split
  next htx => exact ⟨⟨rfl, fun _ h => h⟩, rfl, htx⟩
  · exact ⟨⟨rfl, fun tx' h => (mem_insert _).mpr (.inr h)⟩, rfl, (mem_insert _).mpr (.inl rfl)⟩

theorem foldl_dispute (positions : Positions Node SetID LedgerID) (acquired : Acquired TxID SetID)
    (r : Result Node TxID SetID) (l : List TxID) :
    Grown r (l.foldl (Result.dispute positions acquired) r) ∧
      (l.foldl (Result.dispute positions acquired) r).compares = r.compares ∧
      ∀ tx ∈ l, tx ∈ (l.foldl (Result.dispute positions acquired) r).disputes := by
  induction l generalizing r with
  | nil => exact ⟨⟨rfl, fun _ h => h⟩, rfl, fun tx htx => absurd htx List.not_mem_nil⟩
  | cons tx₀ l ih =>
    obtain ⟨hfirst, hcompares, hmem⟩ := dispute_spec positions acquired r tx₀
    obtain ⟨hrest, hcompares', hall⟩ := ih (r.dispute positions acquired tx₀)
    refine ⟨⟨hrest.txns.trans hfirst.txns, fun tx htx => hrest.mem tx (hfirst.mem tx htx)⟩,
      hcompares'.trans hcompares, fun tx htx => ?_⟩
    rcases List.mem_cons.mp htx with rfl | htx
    · exact hrest.mem _ hmem
    · exact hall tx htx

include hvoters hk in
theorem right_dispute (h : ∀ tx d, r.disputes.lookup tx = some d → Right voters k r.txns tx d) (tx₀ : TxID) :
    ∀ tx d, (r.dispute positions acquired tx₀).disputes.lookup tx = some d →
      Right voters k (r.dispute positions acquired tx₀).txns tx d := by
  rw [Result.dispute]
  split
  · exact h
  · intro tx d hd
    by_cases heq : tx = tx₀
    · subst heq
      obtain rfl := Option.some.inj ((lookup_insert _).symm.trans hd)
      exact (right_castVotes positions acquired r.txns tx).mono hvoters hk
    · exact h tx d ((lookup_insert_ne heq).symm.trans hd)

omit [DecidableEq SetID] in
/-- The differences that a comparison finds are all there are, or as many as it can find. -/
theorem mem_compare_of_length_lt (T : TxSets TxID SetID) {a b : Finset TxID} (hlt : (T.compare a b).length < 65536)
    (htx : tx ∈ symmDiff a b) : tx ∈ T.compare a b := by
  have hcard : (T.compare a b).length = (symmDiff a b).card := by
    have hlength := T.length a b
    omega
  have hsub : (T.compare a b).toFinset ⊆ symmDiff a b := fun tx htx => T.differ a b tx (List.mem_toFinset.mp htx)
  have heq : (T.compare a b).toFinset = symmDiff a b := by
    refine Finset.eq_of_subset_of_card_le hsub ?_
    rw [List.toFinset_card_of_nodup (T.nodup a b), hcard]
  rw [← heq] at htx
  exact List.mem_toFinset.mp htx

/-- Only the disputes and the set of compared ids change, and the latter by one id. -/
theorem createDisputes_cases (T : TxSets TxID SetID) (positions : Positions Node SetID LedgerID)
    (acquired : Acquired TxID SetID) (r : Result Node TxID SetID) (o : Finset TxID) :
    Grown r (r.createDisputes T positions acquired o) ∧
      ((T.id o ∈ r.compares ∧ r.createDisputes T positions acquired o = r) ∨
        ((r.createDisputes T positions acquired o).compares = insert (T.id o) r.compares ∧
          (r.createDisputes T positions acquired o).Covers o)) := by
  rw [Result.createDisputes]
  split
  next hmem => exact ⟨⟨rfl, fun _ h => h⟩, .inl ⟨hmem, rfl⟩⟩
  · dsimp only
    split
    next heq =>
      refine ⟨⟨rfl, fun _ h => h⟩, .inr ⟨rfl, fun _ tx htx => ?_⟩⟩
      rw [T.id_inj heq, symmDiff_self] at htx
      exact absurd htx (Finset.notMem_empty tx)
    · obtain ⟨hfold, hcompares, hall⟩ := foldl_dispute positions acquired
        { r with compares := insert (T.id o) r.compares } (T.compare r.txns o)
      refine ⟨⟨hfold.txns, hfold.mem⟩, .inr ⟨hcompares, fun hsize tx htx => ?_⟩⟩
      rw [hfold.txns] at htx
      have hlength := length_le_size (T.nodup r.txns o) hall
      exact hall tx (mem_compare_of_length_lt T (by omega) htx)

include hvoters hk in
theorem Sound.createDisputes (h : Sound T voters k r) (o : Finset TxID) :
    Sound T voters k (r.createDisputes T positions acquired o) ∧
      T.id o ∈ (r.createDisputes T positions acquired o).compares ∧
      r.compares ⊆ (r.createDisputes T positions acquired o).compares := by
  obtain ⟨hgrown, ⟨hmem, heq⟩ | ⟨hcompares, hcovers⟩⟩ := createDisputes_cases T positions acquired r o
  · rw [heq]
    exact ⟨h, hmem, Finset.Subset.refl _⟩
  refine ⟨⟨?_, fun o' ho' => ?_⟩, ?_, ?_⟩
  · rw [Result.createDisputes]
    split
    · exact h.right
    · dsimp only
      split
      · exact h.right
      · exact List.foldlRecOn (T.compare r.txns o) _
          (motive := fun r : Result Node TxID SetID => ∀ tx d, r.disputes.lookup tx = some d → Right voters k r.txns tx d) h.right
          fun r hr tx _ => right_dispute hvoters hk hr tx
  · rw [hcompares] at ho'
    rcases Finset.mem_insert.mp ho' with hid | ho'
    · rw [T.id_inj hid]
      exact hcovers
    · exact hgrown.covers (h.covers o' ho')
  · rw [hcompares]
    exact Finset.mem_insert_self _ _
  · rw [hcompares]
    exact Finset.subset_insert _ _

include hvoters hk in
theorem Good.updateDisputes (h : Good T voters k r) (hnode : voters node) (o : Finset TxID) :
    Good T voters (Function.update k node (some o)) (r.updateDisputes T positions acquired node o) := by
  obtain ⟨hsound, hmem, hsub⟩ := h.toSound.createDisputes hvoters hk o
  rw [Result.updateDisputes]
  refine ⟨⟨fun tx d hd => ?_, fun o' ho' hsize tx htx => ?_⟩, fun n o' ho' => ?_⟩
  · obtain ⟨d', hd', rfl⟩ := Option.map_eq_some_iff.mp (lookup_mapVal.symm.trans hd)
    exact (hsound.right tx d' hd').setVote hnode o
  · rw [Result.setVotes, size_mapVal] at hsize
    exact mem_mapVal.mpr (hsound.covers o' ho' hsize tx htx)
  · exact compared_update hmem (fun n o' ho' => hsub (h.compared n o' ho')) n o' ho'

end CreateDisputes

/-! ### The operations -/

def Result.Kept (T : TxSets TxID SetID) (positions : Positions Node SetID LedgerID) (acquired : Acquired TxID SetID)
    (r : Result Node TxID SetID) : Prop :=
  Good T (fun n => positions.lookup n ≠ none) (known positions acquired) r

namespace Result.Kept

theorem acquire (h : r.Kept T positions acquired) (hnew : acquired.lookup (T.id o) = none) :
    (r.updateProposers T positions (acquired.insert (T.id o) o) o).Kept T positions (acquired.insert (T.id o) o) := by
  have hother : ∀ id set, acquired.lookup id = some set → (acquired.insert (T.id o) o).lookup id = some set := by
    intro id set hset
    have hne : id ≠ T.id o := by
      rintro rfl
      cases hnew.symm.trans hset
    rwa [lookup_insert_ne hne]
  have hbelow : Below (known positions acquired) (known positions (acquired.insert (T.id o) o)) := by
    intro n set hset
    obtain ⟨p, hp, hset⟩ := known_eq_some.mp hset
    exact known_eq_some.mpr ⟨p, hp, hother _ set hset⟩
  refine foldl_positions (P := Good T _) hbelow h fun e k r hp hk hkK hr => ?_
  split
  next hpos =>
    rw [hpos, lookup_insert]
    exact hr.updateDisputes (fun _ h => h) hkK (by rw [hp]; exact Option.some_ne_none _) o
  next hpos =>
    -- the vote of this peer was known before
    refine hr.mono (fun _ h => h) fun n set hset => ?_
    by_cases heq : n = e.1
    · rw [heq, update_self, lookup_insert_ne hpos] at hset
      exact hk n set (known_eq_some.mpr ⟨e.2, heq ▸ hp, hset⟩)
    · rwa [update_of_ne heq] at hset

theorem unVote (h : r.Kept T positions acquired) (peer : Node) :
    (r.unVote peer).Kept T (positions.erase peer) acquired := by
  have hpeer : known (positions.erase peer) acquired peer = none := by
    rw [known, lookup_erase, Option.bind_none]
  have hbelow : Below (known (positions.erase peer) acquired) (known positions acquired) := by
    intro n o ho
    have hne : n ≠ peer := by
      rintro rfl
      cases hpeer.symm.trans ho
    rwa [known, lookup_erase_ne hne] at ho
  refine ⟨⟨fun tx d hd => ?_, fun o ho hsize tx htx => ?_⟩, fun n o ho => h.compared n o (hbelow n o ho)⟩
  · obtain ⟨d', hd', rfl⟩ := Option.map_eq_some_iff.mp (lookup_mapVal.symm.trans hd)
    refine (h.right tx d' hd').unVote peer (fun n hne hn => ?_) hpeer hbelow
    rwa [lookup_erase_ne hne]
  · rw [Result.unVote, size_mapVal] at hsize
    exact mem_mapVal.mpr (h.covers o ho hsize tx htx)

theorem insert (h : r.Kept T positions acquired) (hk : Below k (known positions acquired)) :
    Good T (fun n => (positions.insert p.nodeID p).lookup n ≠ none) k r := by
  refine Good.mono h (fun n hn => ?_) hk
  by_cases heq : n = p.nodeID
  · rw [heq, lookup_insert]
    exact Option.some_ne_none p
  · rwa [lookup_insert_ne heq]

theorem updateDisputes (h : r.Kept T positions acquired) (ho : acquired.lookup p.position = some o) :
    (r.updateDisputes T (positions.insert p.nodeID p) acquired p.nodeID o).Kept T (positions.insert p.nodeID p)
      acquired := by
  -- what was known of the peer before no longer counts
  have hbelow : Below (update (known positions acquired) p.nodeID none)
      (known (positions.insert p.nodeID p) acquired) := by
    intro n set hset
    by_cases heq : n = p.nodeID
    · rw [heq, update_self] at hset
      cases hset
    · rwa [update_of_ne heq, ← known_insert_ne heq] at hset
  refine Good.mono ((h.insert below_update_none).updateDisputes (fun _ h => h) hbelow ?_ o) (fun _ h => h) fun n set hset => ?_
  · rw [lookup_insert]
    exact Option.some_ne_none p
  · by_cases heq : n = p.nodeID
    · rw [heq, known_of_lookup (lookup_insert _), ho] at hset
      rw [heq, update_self, hset]
    · rwa [update_of_ne heq, update_of_ne heq, ← known_insert_ne heq]

theorem insert_unknown (h : r.Kept T positions acquired) (hnone : acquired.lookup p.position = none) :
    r.Kept T (positions.insert p.nodeID p) acquired := by
  refine h.insert fun n set hset => ?_
  have hne : n ≠ p.nodeID := by
    rintro rfl
    cases hnone.symm.trans ((known_of_lookup (lookup_insert _)).symm.trans hset)
  rwa [← known_insert_ne hne]

omit [DecidableEq SetID] in
theorem of_empty (voters : Node → Prop) (k : Node → Option (Finset TxID)) (txns : Finset TxID) :
    Sound T voters k (⟨txns, ∅, ∅⟩ : Result Node TxID SetID) :=
  ⟨fun tx d hd => (by cases hd), fun o ho => absurd ho (Finset.notMem_empty _)⟩

theorem close (txns : Finset TxID) :
    (Result.createAllDisputes T positions acquired ⟨txns, ∅, ∅⟩).Kept T positions acquired := by
  have hfold : Sound T (fun n => positions.lookup n ≠ none) (known positions acquired)
      (Result.createAllDisputes T positions acquired ⟨txns, ∅, ∅⟩) ∧ ∀ n o, known positions acquired n = some o →
        T.id o ∈ (Result.createAllDisputes T positions acquired ⟨txns, ∅, ∅⟩).compares := by
    refine foldl_positions (k := fun _ => none) (P := fun k (r : Result Node TxID SetID) => Sound T _ _ r ∧
      ∀ n o, k n = some o → T.id o ∈ r.compares) (fun n o ho => by cases ho)
      ⟨of_empty _ _ txns, fun n o ho => by cases ho⟩ fun e k r _ _ _ hr => ?_
    cases acquired.lookup e.2.position with
    | some o =>
      obtain ⟨hsound, hmem, hsub⟩ := hr.1.createDisputes (fun _ h => h) (fun _ _ h => h) o
      exact ⟨hsound, compared_update hmem fun n o' ho' => hsub (hr.2 n o' ho')⟩
    | none => exact ⟨hr.1, fun n o ho => hr.2 n o (below_update_none n o ho)⟩
  exact ⟨hfold.1, hfold.2⟩

end Result.Kept

/-! ### Our votes -/

section OurVotes

variable {parms : RpcaConsensusParms} {percentTime : ℤ} {proposing : Bool}

def followVote (parms : RpcaConsensusParms) (percentTime : ℤ) (proposing : Bool) (txns : Finset TxID)
    (e : Sigma fun _ : TxID => DisputedTx Node) : Finset TxID :=
  let vote := (e.2.updateVote parms percentTime proposing).ourVote
  if vote = e.2.ourVote then txns else if vote then insert e.1 txns else txns.erase e.1

omit [DecidableEq Node] in
theorem mem_followVote {txns : Finset TxID} {e : Sigma fun _ : TxID => DisputedTx Node}
    (hours : e.2.ourVote = decide (e.1 ∈ txns)) :
    tx ∈ followVote parms percentTime proposing txns e ↔
      if tx = e.1 then (e.2.updateVote parms percentTime proposing).ourVote = true else tx ∈ txns := by
  rw [followVote]
  split
  next hsame =>
    split
    next heq => rw [hsame, hours, heq, decide_eq_true_eq]
    · exact Iff.rfl
  · split
    next hvote =>
      rw [Finset.mem_insert, hvote]
      split
      next heq => exact iff_of_true (.inl heq) rfl
      next hne => exact or_iff_right hne
    next hvote =>
      rw [Finset.mem_erase]
      split
      next heq => exact iff_of_false (fun h => h.1 heq) hvote
      next hne => exact and_iff_right hne

omit [DecidableEq Node] in
theorem mem_foldl_followVote {l : List (Sigma fun _ : TxID => DisputedTx Node)} (hl : l.NodupKeys) {txns : Finset TxID}
    (hours : ∀ e ∈ l, e.2.ourVote = decide (e.1 ∈ txns)) :
    tx ∈ l.foldl (followVote parms percentTime proposing) txns ↔
      match l.dlookup tx with
      | some d => (d.updateVote parms percentTime proposing).ourVote = true
      | none => tx ∈ txns := by
  induction l generalizing txns with
  | nil => exact Iff.rfl
  | cons e l ih =>
    obtain ⟨hnot, hnodup⟩ := List.nodupKeys_cons.mp hl
    have hfirst : ∀ tx, tx ∈ followVote parms percentTime proposing txns e ↔
        if tx = e.1 then (e.2.updateVote parms percentTime proposing).ourVote = true else tx ∈ txns :=
      fun tx => mem_followVote (hours e List.mem_cons_self)
    have hrest : ∀ e' ∈ l, e'.2.ourVote = decide (e'.1 ∈ followVote parms percentTime proposing txns e) := by
      intro e' he'
      have hne : e'.1 ≠ e.1 := by
        intro heq
        rw [← heq] at hnot
        exact hnot (List.mem_keys_of_mem (s := e') he')
      rw [hours e' (List.mem_cons_of_mem _ he')]
      exact decide_eq_decide.mpr ((hfirst e'.1).trans (by rw [if_neg hne])).symm
    rw [List.foldl_cons, ih hnodup hrest]
    by_cases heq : tx = e.1
    · rw [heq, List.dlookup_eq_none.mpr hnot]
      obtain ⟨tx', d⟩ := e
      rw [List.dlookup_cons_eq]
      exact (hfirst tx').trans (by rw [if_pos rfl])
    · rw [List.dlookup_cons_ne l e heq]
      cases l.dlookup tx with
      | some d => exact Iff.rfl
      | none => exact (hfirst tx).trans (by rw [if_neg heq])

theorem Result.Kept.updateVotes (h : r.Kept T positions acquired) (parms : RpcaConsensusParms) (percentTime : ℤ)
    (proposing : Bool) : (r.updateVotes parms percentTime proposing).Kept T positions acquired := by
  have hmem : ∀ tx, tx ∈ (r.updateVotes parms percentTime proposing).txns ↔ _ := fun tx =>
    mem_foldl_followVote r.disputes.nodupKeys fun e he => (h.right e.1 e.2 (mem_lookup_iff.mpr he)).ours
  refine ⟨⟨fun tx d hd => ?_, fun o ho hsize tx htx => ?_⟩, h.compared⟩
  · obtain ⟨d', hd', rfl⟩ := Option.map_eq_some_iff.mp (lookup_mapVal.symm.trans hd)
    have hright := h.right tx d' hd'
    have htx := hmem tx
    rw [show r.disputes.entries.dlookup tx = some d' from hd'] at htx
    refine ⟨?_, hright.counted.updateVote, ?_, ?_⟩
    · rw [Bool.eq_iff_iff, decide_eq_true_iff]
      exact htx.symm
    · rw [DisputedTx.votes_updateVote]
      exact hright.voter
    · rw [DisputedTx.votes_updateVote]
      exact hright.voted
  · -- the set changes only where there are disputes
    rw [Result.updateVotes, size_mapVal] at hsize
    rw [Result.updateVotes, mem_mapVal]
    by_contra hnot
    have hsame := hmem tx
    rw [show r.disputes.entries.dlookup tx = none from lookup_eq_none.mpr hnot] at hsame
    refine hnot (h.covers o ho hsize tx ?_)
    rw [Finset.mem_symmDiff] at htx ⊢
    rwa [hsame] at htx

end OurVotes

end

end Chainsql.Rpca
