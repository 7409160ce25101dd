import Chainsql.Trie.Support
import Chainsql.Validations.LedgerSupport

/-!
# The trie in step with the current validations

`LedgerSupport.Ok cur`: the trie stands for the last ledgers of the nodes, and the nodes that count in it or
wait for a ledger have a trusted validation in `cur`, the ones that wait for the ledger of that validation.
The support of a node can only be withdrawn if its last ledger is the one that its current validation names
(`removeTrie_ok`).
-/

namespace Chainsql

open Lineage LedgerTrie AList

variable {L : Type*} [Lineage L HashValue]

namespace LedgerSupport

variable {T : LedgerSupport L} {adaptor : Acquirer L} {cur : PublicKey → Option STValidation}
  {n nodeID : PublicKey} {val : STValidation} {ledger : L} {key : UInt32 × HashValue}

def Holds (cur : PublicKey → Option STValidation) (nodeID : PublicKey) (key : UInt32 × HashValue) : Prop :=
  ∃ v, cur nodeID = some v ∧ v.isTrusted = true ∧ key = (v.seq, v.ledgerHash)

/-- Fewer than `2 ^ 32` nodes have a current validation. -/
def Countable (cur : PublicKey → Option STValidation) : Prop :=
  ∃ K : Finset PublicKey, K.card < 2 ^ 32 ∧ ∀ n, (cur n).isSome = true → n ∈ K

def LastIs (n : PublicKey) (hash : HashValue) (T : LedgerSupport L) : Prop :=
  ∀ l ∈ T.lastLedger.lookup n, Lineage.id l = hash

instance (n : PublicKey) (hash : HashValue) (T : LedgerSupport L) : Decidable (LastIs n hash T) :=
  inferInstanceAs (Decidable (∀ l ∈ T.lastLedger.lookup n, Lineage.id l = hash))

/-- The node counts in the trie or waits for a ledger. -/
def Tracks (T : LedgerSupport L) (n : PublicKey) : Prop :=
  n ∈ T.lastLedger ∨ ∃ e ∈ T.acquiring.entries, n ∈ e.2

instance (T : LedgerSupport L) (n : PublicKey) : Decidable (T.Tracks n) :=
  inferInstanceAs (Decidable (_ ∨ ∃ e ∈ T.acquiring.entries, n ∈ e.2))

def Waits (T : LedgerSupport L) (n : PublicKey) (key : UInt32 × HashValue) : Prop :=
  ∃ nodes, T.acquiring.lookup key = some nodes ∧ n ∈ nodes

/-! ### Withdrawing support -/

theorem lastLedger_stopAcquiring : (T.stopAcquiring key nodeID).lastLedger = T.lastLedger := by
  unfold stopAcquiring
  split <;> rfl

theorem waits_stopAcquiring {key' : UInt32 × HashValue} :
    (T.stopAcquiring key' nodeID).Waits n key ↔ T.Waits n key ∧ ¬(n = nodeID ∧ key = key') := by
  unfold stopAcquiring
  split
  next hnone =>
    refine (and_iff_left_of_imp ?_).symm
    rintro ⟨nodes, hlookup, -⟩ ⟨-, rfl⟩
    rw [hnone] at hlookup
    cases hlookup
  next nodes hsome =>
    dsimp only [Waits]
    by_cases hkey : key = key'
    · subst hkey
      rw [hsome]
      split
      next hnil =>
        simp only [List.filter_eq_nil_iff, decide_eq_true_eq, not_not] at hnil
        simpa using hnil n
      · simp
    · rw [and_iff_left fun h => hkey h.2]
      split
      · rw [lookup_erase_ne hkey]
      · rw [lookup_insert_ne hkey]

theorem acquiring_removeTrie :
    (T.removeTrie nodeID val).acquiring = (T.stopAcquiring (val.seq, val.ledgerHash) nodeID).acquiring := by
  unfold removeTrie
  dsimp only
  split
  · rfl
  · split <;> rfl

theorem waits_removeTrie : (T.removeTrie nodeID val).Waits n key ↔
    T.Waits n key ∧ ¬(n = nodeID ∧ key = (val.seq, val.ledgerHash)) := by
  rw [Waits, acquiring_removeTrie]
  exact waits_stopAcquiring

theorem lookup_removeTrie : (T.removeTrie nodeID val).lastLedger.lookup n = some ledger ↔
    T.lastLedger.lookup n = some ledger ∧ ¬(n = nodeID ∧ val.ledgerHash = Lineage.id ledger) := by
  have hstop : (T.stopAcquiring (val.seq, val.ledgerHash) nodeID).lastLedger = T.lastLedger :=
    lastLedger_stopAcquiring
  unfold removeTrie
  dsimp only
  rw [hstop]
  split
  next hnone =>
    rw [hstop]
    refine ⟨fun h => ⟨h, ?_⟩, And.left⟩
    rintro ⟨rfl, -⟩
    rw [hnone] at h
    cases h
  next last hlast =>
    by_cases hn : n = nodeID
    · subst hn
      split
      next hid =>
        rw [lookup_erase, hlast]
        constructor
        · intro h
          cases h
        · rintro ⟨h, hnot⟩
          cases h
          exact absurd ⟨rfl, hid.symm⟩ hnot
      next hid =>
        rw [hstop]
        refine ⟨fun h => ⟨h, ?_⟩, And.left⟩
        rintro ⟨-, heq⟩
        rw [hlast] at h
        cases h
        exact hid heq.symm
    · split
      · rw [lookup_erase_ne hn]
        exact (and_iff_left fun h => hn h.1).symm
      · rw [hstop]
        exact (and_iff_left fun h => hn h.1).symm

/-! ### One operation of the tracker -/

/-- `C` holds of the nodes that count and their ledgers, `W` of the nodes that wait and what they wait for. With
`E`, some node waits for every ledger that is being acquired. -/
structure Tracked (C : PublicKey → L → Prop) (W : PublicKey → UInt32 × HashValue → Prop) (E : Prop)
    (T : LedgerSupport L) : Prop where
  represents : Represents T.trie T.lastLedger.values
  counted : T.lastLedger.All C
  listed : T.acquiring.All fun key nodes => (E → nodes ≠ []) ∧ ∀ n ∈ nodes, W n key

/-- The nodes that may count are fewer than `2 ^ 32`, and a node that waits may count when the ledger is there. -/
structure Feasible (C : PublicKey → L → Prop) (W : PublicKey → UInt32 × HashValue → Prop) : Prop where
  bound : ∃ K : Finset PublicKey, K.card < 2 ^ 32 ∧ ∀ n l, C n l → n ∈ K
  acquired : ∀ {n key ledger}, W n key → Lineage.id ledger = key.2 → C n ledger

def clearPrior (T : LedgerSupport L) (nodeID : PublicKey) : Option (UInt32 × HashValue) → LedgerSupport L
  | none => T
  | some key => T.stopAcquiring key nodeID

theorem updateTrie_eq (prior : Option (UInt32 × HashValue)) :
    T.updateTrie adaptor nodeID val prior =
      let T := (clearPrior T nodeID prior).checkAcquired adaptor
      match T.acquiring.lookup (val.seq, val.ledgerHash) with
      | some nodes => { T with acquiring := T.acquiring.insert (val.seq, val.ledgerHash) (nodes.insert nodeID) }
      | none =>
        match T.acquire adaptor val.ledgerHash with
        | (T, some ledger) => T.setLedger nodeID ledger
        | (T, none) => { T with acquiring := T.acquiring.insert (val.seq, val.ledgerHash) [nodeID] } := by
  cases prior <;> rfl

namespace Tracked

variable {C : PublicKey → L → Prop} {W : PublicKey → UInt32 × HashValue → Prop} {E : Prop} {nodes : List PublicKey}
  (h : Tracked C W E T)
include h

theorem waits (hn : T.Waits n key) : W n key := by
  obtain ⟨nodes, hlookup, hn⟩ := hn
  exact (h.listed.lookup hlookup).2 n hn

theorem calls (k : Nat) : Tracked C W E { T with calls := k } := ⟨h.represents, h.counted, h.listed⟩

theorem acquiring_insert (hne : E → nodes ≠ []) (hn : ∀ n ∈ nodes, W n key) :
    Tracked C W E { T with acquiring := T.acquiring.insert key nodes } :=
  ⟨h.represents, h.counted, h.listed.insert ⟨hne, hn⟩⟩

theorem acquiring_erase (key : UInt32 × HashValue) : Tracked C W E { T with acquiring := T.acquiring.erase key } :=
  ⟨h.represents, h.counted, h.listed.erase key⟩

theorem stopAcquiring (key : UInt32 × HashValue) (nodeID : PublicKey) : Tracked C W E (T.stopAcquiring key nodeID) := by
  unfold LedgerSupport.stopAcquiring
  split
  · exact h
  next nodes hlookup =>
    dsimp only
    split
    · exact h.acquiring_erase key
    next hne =>
      exact h.acquiring_insert (fun _ => hne) fun n hn => (h.listed.lookup hlookup).2 n (List.mem_of_mem_filter hn)

theorem clearPrior (nodeID : PublicKey) (prior : Option (UInt32 × HashValue)) :
    Tracked C W E (clearPrior T nodeID prior) := by
  cases prior with
  | none => exact h
  | some key => exact h.stopAcquiring key nodeID

variable [LawfulLineage L] [DecidableEq L]

theorem erase_lastLedger (hl : T.lastLedger.lookup nodeID = some ledger) :
    Tracked C W E { T with
      trie := (T.trie.remove ledger 1).1
      lastLedger := T.lastLedger.erase nodeID } := by
  refine ⟨?_, h.counted.erase nodeID, h.listed⟩
  have hremove := h.represents.remove ledger 1
  rw [values_of_lookup hl] at hremove
  have hone : (1 : UInt32).toNat = 1 := rfl
  rwa [hone, Multiset.replicate_one, Multiset.sub_singleton, Multiset.erase_cons_head] at hremove

theorem removeTrie (nodeID : PublicKey) (val : STValidation) : Tracked C W E (T.removeTrie nodeID val) := by
  have hstop := h.stopAcquiring (val.seq, val.ledgerHash) nodeID
  unfold LedgerSupport.removeTrie
  dsimp only
  split
  · exact hstop
  next ledger hl =>
    split
    · exact hstop.erase_lastLedger hl
    · exact hstop

variable (hf : Feasible C W)
include hf

theorem setLedger (hn : C nodeID ledger) : Tracked C W E (T.setLedger nodeID ledger) := by
  obtain ⟨K, hK, hmem⟩ := hf.bound
  have hfits : (T.lastLedger.erase nodeID).values.card + 1 < 2 ^ 32 := by
    have hsub : insert nodeID (T.lastLedger.erase nodeID).keys.toFinset ⊆ K := by
      intro n hn'
      rcases Finset.mem_insert.mp hn' with rfl | hn'
      · exact hmem n ledger hn
      · have hne : n ≠ nodeID ∧ n ∈ T.lastLedger := mem_erase.mp (List.mem_toFinset.mp hn')
        obtain ⟨l, hl⟩ := Option.isSome_iff_exists.mp (lookup_isSome.mpr hne.2)
        exact hmem n l (h.counted.lookup hl)
    have hnot : nodeID ∉ (T.lastLedger.erase nodeID).keys.toFinset := by
      rw [List.mem_toFinset]
      exact fun hn' => (mem_erase.mp hn').1 rfl
    have hcard := Finset.card_le_card hsub
    rw [Finset.card_insert_of_notMem hnot, List.toFinset_card_of_nodup (keys_nodup _)] at hcard
    rw [card_values]
    omega
  have hinsert : ∀ {t : LedgerTrie L}, Represents t (T.lastLedger.erase nodeID).values →
      Represents (t.insert ledger 1) (T.lastLedger.insert nodeID ledger).values := by
    intro t ht
    rw [values_insert, ← Multiset.singleton_add, add_comm]
    exact ht.insert ledger 1 hfits
  unfold LedgerSupport.setLedger
  split
  next hnone =>
    have hsame := h.represents
    rw [← erase_of_lookup_none hnone] at hsame
    exact ⟨hinsert hsame, h.counted.insert hn, h.listed⟩
  next old hsome => exact ⟨hinsert (h.erase_lastLedger hsome).represents, h.counted.insert hn, h.listed⟩

theorem setLedgers (hn : ∀ n ∈ nodes, C n ledger) : Tracked C W E (setLedgers ledger nodes T) := by
  induction nodes generalizing T with
  | nil => exact h
  | cons n nodes ih => exact ih (h.setLedger hf (hn n (by simp))) fun n' hn' => hn n' (by simp [hn'])

theorem checkEntries {entries : List (Σ _ : UInt32 × HashValue, List PublicKey)}
    (hn : ∀ e ∈ entries, ∀ n ∈ e.2, W n e.1) : Tracked C W E (checkEntries adaptor entries T) := by
  induction entries generalizing T with
  | nil => exact h
  | cons e entries ih =>
    obtain ⟨key, nodes⟩ := e
    have hrest : ∀ e ∈ entries, ∀ n ∈ e.2, W n e.1 := fun e he => hn e (by simp [he])
    rw [LedgerSupport.checkEntries, acquire]
    cases hacquire : adaptor.acquire T.calls key.2 with
    | none => exact ih (h.calls _) hrest
    | some ledger =>
      refine ih (((h.calls _).setLedgers hf fun n hmem => ?_).acquiring_erase key) hrest
      exact hf.acquired (hn ⟨key, nodes⟩ (by simp) n hmem) (adaptor.id_eq hacquire)

variable (adaptor) in
theorem checkAcquired : Tracked C W E (T.checkAcquired adaptor) :=
  h.checkEntries hf fun e he => (h.listed e he).2

omit h in
theorem updateTrie {prior : Option (UInt32 × HashValue)} (h : Tracked C W E (LedgerSupport.clearPrior T nodeID prior))
    (hn : W nodeID (val.seq, val.ledgerHash)) : Tracked C W E (T.updateTrie adaptor nodeID val prior) := by
  have hchecked := h.checkAcquired adaptor hf
  rw [updateTrie_eq]
  generalize (LedgerSupport.clearPrior T nodeID prior).checkAcquired adaptor = T' at hchecked
  dsimp only
  cases hlookup : T'.acquiring.lookup (val.seq, val.ledgerHash) with
  | some nodes =>
    refine hchecked.acquiring_insert (fun _ => List.ne_nil_of_mem List.mem_insert_self) fun n hmem => ?_
    rcases List.mem_insert_iff.mp hmem with rfl | hmem
    · exact hn
    · exact (hchecked.listed.lookup hlookup).2 n hmem
  | none =>
    rw [acquire]
    cases hacquire : adaptor.acquire T'.calls val.ledgerHash with
    | some ledger => exact (hchecked.calls _).setLedger hf (hf.acquired hn (adaptor.id_eq hacquire))
    | none =>
      refine (hchecked.calls _).acquiring_insert (fun _ => List.cons_ne_nil _ _) fun n hmem => ?_
      rw [List.mem_singleton.mp hmem]
      exact hn

end Tracked

/-- The trie stands for the last ledgers, and the nodes that count or wait have trusted validations, the ones
that wait for the ledger they wait for. -/
def Ok (cur : PublicKey → Option STValidation) (T : LedgerSupport L) : Prop :=
  Tracked (fun n _ => ∃ key, Holds cur n key) (Holds cur) False T

theorem Countable.feasible (hcount : Countable cur) {P : PublicKey → L → Prop}
    (hP : ∀ {n key ledger}, Holds cur n key → Lineage.id ledger = key.2 → P n ledger) :
    Feasible (fun n l => (∃ key, Holds cur n key) ∧ P n l) (Holds cur) := by
  obtain ⟨K, hK, hmem⟩ := hcount
  refine ⟨⟨K, hK, ?_⟩, fun {_ key _} hn hid => ⟨⟨key, hn⟩, hP hn hid⟩⟩
  rintro n l ⟨⟨key, v, hv, -⟩, -⟩
  exact hmem n (by rw [hv]; rfl)

theorem Countable.feasible_ok (hcount : Countable cur) :
    Feasible (fun n (_ : L) => ∃ key, Holds cur n key) (Holds cur) := by
  have hf := hcount.feasible (L := L) (P := fun _ _ => True) fun _ _ => trivial
  simpa only [and_true] using hf

theorem Ok.update (h : Ok cur T) (v : Option STValidation)
    (hcounts : ∀ l, T.lastLedger.lookup nodeID = some l → ∃ key, Holds (Function.update cur nodeID v) nodeID key)
    (hwaits : ∀ key, T.Waits nodeID key → Holds (Function.update cur nodeID v) nodeID key) :
    Ok (Function.update cur nodeID v) T := by
  have hother : ∀ {n key}, n ≠ nodeID → Holds cur n key → Holds (Function.update cur nodeID v) n key := by
    intro n key hne
    rw [Holds, Holds, Function.update_of_ne hne]
    exact id
  refine ⟨h.represents, fun e he => ?_, fun e he => ⟨False.elim, fun n hn => ?_⟩⟩
  · by_cases hne : e.1 = nodeID
    · rw [hne]
      exact hcounts e.2 (hne ▸ mem_lookup_iff.mpr he)
    · exact (h.counted e he).imp fun key => hother hne
  · by_cases hne : n = nodeID
    · subst hne
      exact hwaits e.1 ⟨e.2, mem_lookup_iff.mpr he, hn⟩
    · exact hother hne ((h.listed e he).2 n hn)

/-- The prior validation that the tracker is told about is the one it may still wait for. -/
def PriorIs (cur : PublicKey → Option STValidation) (nodeID : PublicKey) (val : STValidation)
    (prior : Option (UInt32 × HashValue)) : Prop :=
  ∀ key, Holds cur nodeID key → prior = some key ∨ key = (val.seq, val.ledgerHash)

variable {prior : Option (UInt32 × HashValue)}

theorem waits_clearPrior :
    (clearPrior T nodeID prior).Waits n key ↔ T.Waits n key ∧ ¬(n = nodeID ∧ prior = some key) := by
  cases prior with
  | none => simp [clearPrior]
  | some key' => simp [clearPrior, waits_stopAcquiring, eq_comm]

theorem holds_update_self (htrusted : val.isTrusted = true) :
    Holds (Function.update cur nodeID (some val)) nodeID (val.seq, val.ledgerHash) :=
  ⟨val, Function.update_self .., htrusted, rfl⟩

theorem Ok.clearPrior (h : Ok cur T) (htrusted : val.isTrusted = true) (hprior : PriorIs cur nodeID val prior) :
    Ok (Function.update cur nodeID (some val)) (clearPrior T nodeID prior) := by
  refine Ok.update (Tracked.clearPrior h nodeID prior) (some val) (fun _ _ => ⟨_, holds_update_self htrusted⟩)
    fun key hwaits => ?_
  obtain ⟨hwaits, hnot⟩ := waits_clearPrior.mp hwaits
  obtain rfl := (hprior key (h.waits hwaits)).resolve_left fun hsome => hnot ⟨rfl, hsome⟩
  exact holds_update_self htrusted

section

variable [LawfulLineage L] [DecidableEq L]

variable (adaptor) in
/-- The node may count from now on, and the other nodes count for the ledgers that they did. -/
theorem Ok.updateTrie (h : Ok cur T) (htrusted : val.isTrusted = true) (hprior : PriorIs cur nodeID val prior)
    (hcount : Countable (Function.update cur nodeID (some val))) :
    Ok (Function.update cur nodeID (some val)) (T.updateTrie adaptor nodeID val prior) ∧
      ∀ n v, cur n = some v → n ≠ nodeID → LastIs n v.ledgerHash T →
        LastIs n v.ledgerHash (T.updateTrie adaptor nodeID val prior) := by
  have hclear := h.clearPrior htrusted hprior
  have hself : Holds (Function.update cur nodeID (some val)) nodeID _ := holds_update_self htrusted
  refine ⟨Tracked.updateTrie hcount.feasible_ok hclear hself, fun n v hcur hne hlast => ?_⟩
  have hf := hcount.feasible (L := L) (P := fun n' l => n' = n → Lineage.id l = v.ledgerHash) (by
    rintro _ key ledger ⟨v', hv', -, rfl⟩ hid rfl
    rw [Function.update_of_ne hne, hcur, Option.some.injEq] at hv'
    rw [hid, hv'])
  have hsame : (LedgerSupport.clearPrior T nodeID prior).lastLedger = T.lastLedger := by
    cases prior with
    | none => rfl
    | some key => exact lastLedger_stopAcquiring
  refine fun l hl => ((Tracked.updateTrie hf ⟨hclear.represents, fun e he => ⟨hclear.counted e he, ?_⟩,
    hclear.listed⟩ hself).counted.lookup hl).2 rfl
  rintro rfl
  rw [hsame] at he
  exact hlast e.2 (mem_lookup_iff.mpr he)

theorem Ok.removeTrie (h : Ok cur T) (hcur : cur nodeID = some val) (hlast : LastIs nodeID val.ledgerHash T)
    (v : Option STValidation) : Ok (Function.update cur nodeID v) (T.removeTrie nodeID val) := by
  refine Ok.update (Tracked.removeTrie h nodeID val) v (fun l hl => ?_) fun key hwaits => ?_
  · obtain ⟨hl, hnot⟩ := lookup_removeTrie.mp hl
    exact absurd ⟨rfl, (hlast l hl).symm⟩ hnot
  · obtain ⟨hwaits, hnot⟩ := waits_removeTrie.mp hwaits
    obtain ⟨v', hv', -, hkey⟩ := h.waits hwaits
    rw [hcur, Option.some.injEq] at hv'
    subst hv'
    exact absurd ⟨rfl, hkey⟩ hnot

/-! ### Loops over the current validations -/

/-- What is left of a validation after the loop has dealt with it. -/
structure Leaves (verdict : PublicKey → STValidation → Verdict)
    (left : PublicKey → STValidation → Option STValidation) : Prop where
  keep : ∀ n v, verdict n v = .keep → left n v = some v
  renew : ∀ n v, verdict n v = .renew → left n v = some { v with isTrusted := true }

omit [LawfulLineage L] [DecidableEq L] in
theorem countable_update (h : Countable cur) (hsome : (cur nodeID).isSome = true) (v : Option STValidation) :
    Countable (Function.update cur nodeID v) := by
  obtain ⟨K, hK, hmem⟩ := h
  refine ⟨K, hK, fun n hn => ?_⟩
  by_cases hne : n = nodeID
  · subst hne
    exact hmem n hsome
  · rw [Function.update_of_ne hne] at hn
    exact hmem n hn

variable (adaptor) in
theorem Ok.sweep {verdict : PublicKey → STValidation → Verdict}
    {left : PublicKey → STValidation → Option STValidation} (hleft : Leaves verdict left)
    {entries : List (Σ _ : PublicKey, STValidation)} (h : Ok cur T) (hcount : Countable cur)
    (hnodup : entries.NodupKeys) (hcur : ∀ e ∈ entries, cur e.1 = some e.2)
    (hdrop : ∀ e ∈ entries, verdict e.1 e.2 = .drop → LastIs e.1 e.2.ledgerHash T) :
    Ok (fun n => if n ∈ entries.keys then (cur n).bind (left n) else cur n)
      (LedgerSupport.sweep adaptor verdict entries T) := by
  induction entries generalizing cur T with
  | nil => simpa [LedgerSupport.sweep] using h
  | cons e entries ih =>
    obtain ⟨nodeID, val⟩ := e
    obtain ⟨hnot, hnodup⟩ := List.nodupKeys_cons.mp hnodup
    have hval : cur nodeID = some val := hcur ⟨nodeID, val⟩ (by simp)
    have hne : ∀ {e}, e ∈ entries → e.1 ≠ nodeID := by
      intro e he heq
      have hmem := List.mem_keys_of_mem he
      rw [heq] at hmem
      exact hnot hmem
    have hcur' : ∀ e ∈ entries, Function.update cur nodeID (left nodeID val) e.1 = some e.2 := by
      intro e he
      rw [Function.update_of_ne (hne he)]
      exact hcur e (by simp [he])
    have hdrop' : ∀ e ∈ entries, verdict e.1 e.2 = .drop → LastIs e.1 e.2.ledgerHash T :=
      fun e he => hdrop e (by simp [he])
    have hfun : (fun n => if n ∈ entries.keys then (Function.update cur nodeID (left nodeID val) n).bind (left n)
          else Function.update cur nodeID (left nodeID val) n)
        = fun n => if n ∈ (⟨nodeID, val⟩ :: entries : List (Σ _ : PublicKey, STValidation)).keys then
          (cur n).bind (left n) else cur n := by
      funext n
      by_cases hn : n = nodeID
      · subst hn
        simp [hnot, hval]
      · simp [hn]
    have hcount' := countable_update hcount (show (cur nodeID).isSome = true by rw [hval]; rfl) (left nodeID val)
    rw [← hfun, LedgerSupport.sweep]
    cases hv : verdict nodeID val with
    | keep =>
      have hsame : Function.update cur nodeID (left nodeID val) = cur := by
        rw [hleft.keep nodeID val hv, ← hval, Function.update_eq_self]
      rw [hsame] at hcur' ⊢
      exact ih h hcount hnodup hcur' hdrop'
    | renew =>
      rw [hleft.renew nodeID val hv] at hcur' hcount' ⊢
      have hprior : PriorIs cur nodeID { val with isTrusted := true } none := by
        rintro key ⟨v, hv', -, hkey⟩
        rw [hval, Option.some.injEq] at hv'
        subst hv'
        exact .inr hkey
      have hrenew := h.updateTrie adaptor rfl hprior hcount'
      exact ih hrenew.1 hcount' hnodup hcur' fun e he hd =>
        hrenew.2 e.1 e.2 (hcur e (by simp [he])) (hne he) (hdrop' e he hd)
    | drop =>
      refine ih (h.removeTrie hval (hdrop ⟨nodeID, val⟩ (by simp) hv) _) hcount' hnodup hcur' ?_
      intro e he hd
      exact fun l hl => hdrop' e he hd l (lookup_removeTrie.mp hl).1

end

end LedgerSupport

namespace TrieValidations

open LedgerSupport

variable {m : TrieValidations L}

/-- The trie and the tracked nodes are in step with the current validations. -/
def InStep (m : TrieValidations L) : Prop := Ok (fun n => m.base.current.lookup n) m.support

theorem InStep.trusted (h : m.InStep) {n : PublicKey} (hn : m.support.Tracks n) :
    ∃ v, m.base.current.lookup n = some v ∧ v.isTrusted = true := by
  have key : ∃ key, Holds (fun n => m.base.current.lookup n) n key := by
    rcases hn with hn | ⟨e, he, hn⟩
    · obtain ⟨l, hl⟩ := Option.isSome_iff_exists.mp (lookup_isSome.mpr hn)
      exact h.counted.lookup hl
    · exact ⟨e.1, (h.listed e he).2 n hn⟩
  obtain ⟨key, v, hv, htrusted, -⟩ := key
  exact ⟨v, hv, htrusted⟩

theorem countable_of_length {current : NodeValidations} (h : current.keys.length < 2 ^ 32) :
    Countable fun n => current.lookup n := by
  refine ⟨current.keys.toFinset, ?_, ?_⟩
  · rwa [List.toFinset_card_of_nodup (keys_nodup _)]
  · intro n hn
    rw [List.mem_toFinset]
    exact lookup_isSome.mp hn

theorem current_add (base : Validations) (clock : ValidationClock) (nodeID : PublicKey) (val : STValidation) :
    ((base.add clock nodeID val).2 = .current
        ∧ (base.add clock nodeID val).1.current = base.current.insert nodeID val)
      ∨ ((base.add clock nodeID val).2 ≠ .current ∧ (base.add clock nodeID val).1.current = base.current) := by
  unfold Validations.add
  split
  · exact .inr ⟨by simp, rfl⟩
  · dsimp only
    split
    · refine .inr ⟨?_, rfl⟩
      unfold Validations.refusal
      split
      · split
        · simp
        · split <;> simp
      · simp
    · unfold Validations.store
      dsimp only
      split
      · exact .inl ⟨rfl, rfl⟩
      · split
        · exact .inl ⟨rfl, rfl⟩
        · exact .inr ⟨by simp, rfl⟩

namespace Op

/-- The condition under which a call keeps the trie in step: an untrusted validation does not replace
that of a tracked node, and a validation is only dropped or no longer trusted while the last ledger of
its node is the one it names. -/
def Permitted (m : TrieValidations L) : Op L → Prop
  | add _ nodeID val => val.isTrusted = true ∨ ¬ m.support.Tracks nodeID
  | trustChanged added removed =>
    m.base.current.All fun n v => n ∈ removed → n ∉ added → LastIs n v.ledgerHash m.support
  | expire _ _ => True
  | flush => m.base.current.All fun n v => LastIs n v.ledgerHash m.support
  | getPreferred clock _ _ | currentTrusted clock =>
    m.base.current.All fun n v => isStale clock v = true → LastIs n v.ledgerHash m.support

instance decidablePermitted (m : TrieValidations L) : (op : Op L) → Decidable (op.Permitted m)
  | add _ _ _ => inferInstanceAs (Decidable (_ ∨ _))
  | trustChanged added removed => inferInstanceAs (Decidable (m.base.current.All fun n v =>
      n ∈ removed → n ∉ added → LastIs n v.ledgerHash m.support))
  | expire _ _ => inferInstanceAs (Decidable True)
  | flush => inferInstanceAs (Decidable (m.base.current.All fun n v => LastIs n v.ledgerHash m.support))
  | getPreferred clock _ _ | currentTrusted clock => inferInstanceAs (Decidable (m.base.current.All fun n v =>
      isStale clock v = true → LastIs n v.ledgerHash m.support))

/-- All nodes with a current validation, and one more, can be counted with 32 bits. -/
def Fits (m : TrieValidations L) : Prop := m.base.current.keys.length + 1 < 2 ^ 32

instance (m : TrieValidations L) : Decidable (Fits m) := inferInstanceAs (Decidable (_ < _))

end Op

section

variable [LawfulLineage L] [DecidableEq L] {adaptor : Acquirer L} {clock : ValidationClock}

theorem InStep.add (h : m.InStep) (hfits : Op.Fits m) {nodeID : PublicKey} {val : STValidation}
    (hval : val.isTrusted = true ∨ ¬ m.support.Tracks nodeID) : (m.add adaptor clock nodeID val).1.InStep := by
  have hlen : ∀ current : NodeValidations, current = m.base.current.insert nodeID val →
      Countable fun n => current.lookup n := by
    rintro _ rfl
    refine countable_of_length ?_
    have : (m.base.current.insert nodeID val).keys.length ≤ m.base.current.keys.length + 1 := by
      rw [keys_insert]
      exact Nat.succ_le_succ (List.length_erase_le ..)
    exact this.trans_lt hfits
  have hlookup : (fun n => (m.base.current.insert nodeID val).lookup n)
      = Function.update (fun n => m.base.current.lookup n) nodeID (some val) := by
    funext n
    by_cases hn : n = nodeID
    · rw [hn, lookup_insert, Function.update_self]
    · rw [lookup_insert_ne hn, Function.update_of_ne hn]
  unfold TrieValidations.add
  dsimp only
  rcases current_add m.base clock nodeID val with ⟨hstatus, hcur⟩ | ⟨hstatus, hcur⟩
  · by_cases htrusted : val.isTrusted = true
    · rw [if_pos ⟨hstatus, htrusted⟩]
      have hcount := hlen _ hcur
      rw [hcur, hlookup] at hcount
      rw [InStep]
      rw [hcur, hlookup]
      refine (Ok.updateTrie adaptor h htrusted ?_ hcount).1
      rintro key ⟨v, hv, -, hkey⟩
      left
      have hv : m.base.current.lookup nodeID = some v := hv
      rw [hv, Option.map_some, hkey]
    · rw [if_neg fun hboth => htrusted hboth.2]
      have hnot := hval.resolve_left htrusted
      rw [InStep]
      rw [hcur, hlookup]
      refine Ok.update h _ (fun l hl => ?_) ?_
      · exact absurd (.inl (lookup_isSome.mp (by rw [hl]; rfl))) hnot
      · rintro key ⟨nodes, hlookup', hmem⟩
        exact absurd (.inr ⟨⟨key, nodes⟩, mem_lookup_iff.mp hlookup', hmem⟩) hnot
  · rw [if_neg fun hboth => hstatus hboth.1]
    rw [InStep]
    rw [hcur]
    exact h

theorem InStep.sweep (h : m.InStep) (hfits : Op.Fits m) {verdict : PublicKey → STValidation → Verdict}
    (left : PublicKey → STValidation → Option STValidation) (hleft : Leaves verdict left)
    (hdrop : m.base.current.All fun n v => verdict n v = .drop → LastIs n v.ledgerHash m.support)
    {base : Validations} (hbase : ∀ n, base.current.lookup n = (m.base.current.lookup n).bind (left n)) :
    InStep ⟨base, LedgerSupport.sweep adaptor verdict m.base.current.entries m.support⟩ := by
  have hcount : Countable fun n => m.base.current.lookup n :=
    countable_of_length (Nat.lt_of_succ_lt hfits)
  have hok := Ok.sweep adaptor hleft h hcount m.base.current.nodupKeys
    (fun e he => mem_lookup_iff.mpr he) hdrop
  rw [InStep]
  convert hok using 1
  funext n
  rw [hbase]
  split
  · rfl
  · rename_i hn
    have : m.base.current.lookup n = none := lookup_eq_none.mpr hn
    rw [this]
    rfl

theorem InStep.trustChanged (h : m.InStep) (hfits : Op.Fits m) {added removed : Finset PublicKey}
    (hdrop : m.base.current.All fun n v => n ∈ removed → n ∉ added → LastIs n v.ledgerHash m.support) :
    (m.trustChanged adaptor added removed).InStep := by
  refine h.sweep hfits (fun n v => some (Validations.retrust added removed n v)) ⟨?_, ?_⟩ ?_ ?_
  · intro n v hv
    have hadd : n ∉ added := by
      intro hmem
      simp [hmem] at hv
    have hrem : n ∉ removed := by
      intro hmem
      simp [hadd, hmem] at hv
    simp [Validations.retrust, hadd, hrem]
  · intro n v hv
    have hadd : n ∈ added := by
      by_contra hmem
      simp only [if_neg hmem] at hv
      split at hv <;> cases hv
    simp [Validations.retrust, hadd]
  · refine hdrop.imp fun n v hlast hv => ?_
    have hadd : n ∉ added := by
      intro hmem
      simp [hmem] at hv
    have hrem : n ∈ removed := by
      by_contra hmem
      simp [hadd, hmem] at hv
    exact hlast hrem hadd
  · intro n
    exact lookup_filterMapVal

variable (adaptor) in
theorem InStep.dropStale (h : m.InStep) (hfits : Op.Fits m)
    (hdrop : m.base.current.All fun n v => isStale clock v = true → LastIs n v.ledgerHash m.support) :
    (m.dropStale adaptor clock).InStep := by
  refine h.sweep hfits (fun _ v => if isStale clock v then none else some v) ⟨?_, ?_⟩ ?_ ?_
  · intro n v hv
    by_cases hstale : isStale clock v = true
    · simp [hstale] at hv
    · rw [if_neg hstale]
  · intro n v hv
    by_cases hstale : isStale clock v = true
    · simp [hstale] at hv
    · simp [hstale] at hv
  · refine hdrop.imp fun n v hlast hv => hlast ?_
    by_contra hstale
    simp [hstale] at hv
  · intro n
    ext v
    rw [lookup_eraseIf, Option.bind_eq_some_iff]
    constructor
    · rintro ⟨hv, hstale⟩
      exact ⟨v, hv, by simp [hstale]⟩
    · rintro ⟨v', hv', hite⟩
      by_cases hstale : isStale clock v' = true
      · simp [hstale] at hite
      · rw [if_neg hstale, Option.some.injEq] at hite
        subst hite
        exact ⟨hv', by simpa using hstale⟩

theorem InStep.flush (h : m.InStep) (hfits : Op.Fits m)
    (hdrop : m.base.current.All fun n v => LastIs n v.ledgerHash m.support) : (m.flush adaptor).InStep := by
  refine h.sweep hfits (fun _ _ => none) ⟨?_, ?_⟩ ?_ ?_
  · intro n v hv
    cases hv
  · intro n v hv
    cases hv
  · exact hdrop.imp fun n v hlast _ => hlast
  · intro n
    cases m.base.current.lookup n <;> rfl

omit [LawfulLineage L] [DecidableEq L] in
theorem getPreferred_fst (order : Arrangement (Node L)) (largestIssued : Nat) (curr : L) :
    (m.getPreferred adaptor clock order largestIssued curr).1 =
      let T := (m.dropStale adaptor clock).support.checkAcquired adaptor
      { m.dropStale adaptor clock with support := { T with trie := (T.trie.getPreferred order largestIssued).1 } } := by
  unfold TrieValidations.getPreferred
  dsimp only
  split
  · rfl
  · split
    · rfl
    · split
      · rfl
      · split <;> rfl

theorem InStep.getPreferred (order : Arrangement (Node L)) (h : m.InStep) (hfits : Op.Fits m)
    (hdrop : m.base.current.All fun n v => isStale clock v = true → LastIs n v.ledgerHash m.support)
    (largestIssued : Nat) (curr : L) : (m.getPreferred adaptor clock order largestIssued curr).1.InStep := by
  have hstale := h.dropStale adaptor hfits hdrop
  have hcount : Countable fun n => (m.dropStale adaptor clock).base.current.lookup n := by
    refine countable_of_length ?_
    have hsub : (m.dropStale adaptor clock).base.current.keys.Sublist m.base.current.keys :=
      List.filter_sublist.map Sigma.fst
    exact hsub.length_le.trans_lt (Nat.lt_of_succ_lt hfits)
  have hok := Tracked.checkAcquired adaptor hstale hcount.feasible_ok
  rw [getPreferred_fst]
  exact ⟨hok.represents.getPreferred order largestIssued, hok.counted, hok.listed⟩

theorem InStep.step (order : Arrangement (Node L)) (h : m.InStep) {op : Op L}
    (hop : Op.Fits m ∧ op.Permitted m) : (m.step adaptor order op).InStep := by
  obtain ⟨hfits, hop⟩ := hop
  cases op with
  | add clock nodeID val => exact h.add hfits hop
  | trustChanged added removed => exact h.trustChanged hfits hop
  | expire oldLedger oldSeq => exact h
  | flush => exact h.flush hfits hop
  | getPreferred clock largestIssued curr =>
    exact h.getPreferred order hfits hop largestIssued curr
  | currentTrusted clock => exact h.dropStale adaptor hfits hop

omit [LawfulLineage L] [DecidableEq L] in
theorem inStep_empty : InStep ({} : TrieValidations L) :=
  ⟨represents_empty, all_empty, all_empty⟩

end

def firstOnly : Acquirer Line where
  acquire _ hash := if hash = 1 then some ⟨1⟩ else none
  id_eq {_ hash ledger} h := by
    split at h
    · rename_i heq
      rw [heq, ← Option.some.inj h]
      rfl
    · cases h

def validationOf (number : Nat) : STValidation where
  signerPublic := 7
  ledgerHash := number
  ledgerSequence := some (UInt32.ofNat number)
  signTime := number
  isTrusted := true

def expiringOps : List (Op Line) :=
  [.add {} 7 (validationOf 1), .currentTrusted { closeTime := 1000 },
    .add { closeTime := 1000 } 8 { validationOf 1 with signerPublic := 8, signTime := 1000 },
    .getPreferred { closeTime := 1000 } 0 ⟨0⟩]

end TrieValidations

end Chainsql
