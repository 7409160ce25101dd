import Chainsql.Storage.Refines

/-!
# Lookups on several views

The tree of a contract is kept under the contract alone, whatever root it was loaded for, and `apply` changes it
in place. Between two calls of `clearCache` the open ledger, the ledger that is built and queries look up contracts
with the roots of their own views. What the kept tree stands for is the root for which it was loaded or, once a view
has been applied, the one that `apply` has written to the account.
-/

namespace Chainsql.Storage

open Evm (AccountID Word)
open ShaMap (SHAMap)
open Function

inductive Use where
  | fetchFromDB (contract : AccountID) (root : Option HashValue) (key : Word) (bQuery : Bool)
  | apply (view : OpenView)

def ContractHelper.use (H : Hashes) (helper : ContractHelper) : Use → ContractHelper
  | .fetchFromDB contract root key bQuery => (helper.fetchFromDB H contract root key bQuery).2
  | .apply view => ({ view with helper }.applyContracts H).helper

def Real (root : Option HashValue) : Prop := root ≠ none ∧ root ≠ some zeroHash

instance (root : Option HashValue) : Decidable (Real root) := inferInstanceAs (Decidable (_ ∧ _))

/-! ## What is kept -/

abbrev Values := Word → Option Word

def valuesIn (H : Hashes) (contract : AccountID) (mapPtr : Option SHAMap) : Option Values :=
  mapPtr.map fun m key => (ShaMap.findKey m (H.realKey contract key)).map fun leaf => Evm.Word.ofBytes leaf.item.data

def loaded (H : Hashes) (helper : ContractHelper) (contract : AccountID) (root : Option HashValue) : Option Values :=
  valuesIn H contract (helper.makeShamap H root)

def Values.at (values : Option Values) (key : Word) : Option Word := values.bind fun values => values key

/-- The helper, and the values for which the tree that it keeps for one contract stands, unless it keeps none. A tree
that could not be loaded is kept, too. -/
structure Shared where
  helper : ContractHelper
  kept : Option (Option Values)

namespace Shared

variable (H : Hashes) (contract : AccountID)

/-- The changes of one contract: the values are then those of the tree that is stored under the new root. -/
def applyContract (v : OpenView) (kept : Option (Option Values)) (e : Slots.Entry) : Option (Option Values) :=
  match v.accounts e.1 with
  | none => kept
  | some root =>
    if e.1 = contract then
      let new := v.applyContract H e.1 e.2
      some ((kept.getD (loaded H v.helper contract root)).bind fun _ =>
        valuesIn H contract ((new.accounts contract).join.bind new.helper.nodes))
    else kept

def applyContracts (v : OpenView) (kept : Option (Option Values)) : List Slots.Entry → Option (Option Values)
  | [] => kept
  | e :: l => applyContracts (v.applyContract H e.1 e.2) (applyContract H contract v kept e) l

def step (s : Shared) (use : Use) : Shared where
  helper := s.helper.use H use
  kept :=
    match use with
    | .fetchFromDB c root _ bQuery =>
      if c = contract ∧ Real root ∧ bQuery = false then some (s.kept.getD (loaded H s.helper contract root)) else s.kept
    | .apply view => applyContracts H contract { view with helper := s.helper } s.kept view.mStateCache.entries

def after (nodes : HashValue → Option SHAMap) (uses : List Use) : Shared :=
  Run.final (step H contract) ⟨⟨fun _ => none, nodes⟩, none⟩ uses

end Shared

variable {H : Hashes} {helper helper' : ContractHelper} {nodes : HashValue → Option SHAMap} {contract c : AccountID}
  {root : Option HashValue} {key : Word} {kept : Option (Option Values)} {v : OpenView} {mapPtr : Option SHAMap}

theorem fetchFromDB_of_not_real (hroot : ¬Real root) (bQuery : Bool) :
    helper.fetchFromDB H contract root key bQuery = (none, helper) := by
  rw [ContractHelper.fetchFromDB, if_pos (by simpa [Real, or_iff_not_imp_left] using hroot)]

theorem fetchFromDB_of_real (hroot : Real root) (bQuery : Bool) :
    helper.fetchFromDB H contract root key bQuery =
      (Values.at (valuesIn H contract (helper.getSHAMap H contract root bQuery).1) key,
        (helper.getSHAMap H contract root bQuery).2) := by
  rw [ContractHelper.fetchFromDB, if_neg (not_or.mpr hroot)]
  rcases helper.getSHAMap H contract root bQuery with ⟨_ | m, helper'⟩ <;> rfl

/-- The tree that is kept for the contract has the values. -/
def Tracks (H : Hashes) (contract : AccountID) (helper : ContractHelper) (kept : Option (Option Values)) : Prop :=
  kept = (helper.mShaMapCache contract).map (valuesIn H contract)

namespace Tracks

theorem keep (h : Tracks H contract helper kept) :
    Tracks H contract ⟨update helper.mShaMapCache c (some mapPtr), nodes⟩
      (if c = contract then some (valuesIn H contract mapPtr) else kept) := by
  rw [Tracks]
  dsimp only
  split
  next hc => rw [hc, update_self, Option.map_some]
  next hc => rw [update_of_ne (Ne.symm hc), h]

theorem getSHAMap (h : Tracks H contract helper kept) (hget : helper.getSHAMap H c root false = (mapPtr, helper')) :
    (c = contract → kept.getD (loaded H helper contract root) = valuesIn H contract mapPtr) ∧
      Tracks H contract helper' (if c = contract then some (valuesIn H contract mapPtr) else kept) := by
  rw [ContractHelper.getSHAMap, if_neg Bool.false_ne_true] at hget
  split at hget
  next hcached =>
    cases hget
    have hkept : c = contract → kept = some (valuesIn H contract mapPtr) := by
      rintro rfl
      rw [h, hcached, Option.map_some]
    refine ⟨fun hc => by rw [hkept hc, Option.getD_some], ?_⟩
    split
    next hc => exact hkept hc ▸ h
    · exact h
  next hnone =>
    cases hget
    refine ⟨?_, h.keep⟩
    rintro rfl
    rw [h, hnone]
    rfl

theorem fetchFromDB (h : Tracks H contract helper kept) (hreal : Real root) :
    (helper.fetchFromDB H contract root key false).1 = Values.at (kept.getD (loaded H helper contract root)) key := by
  rcases hget : helper.getSHAMap H contract root false with ⟨mapPtr, helper'⟩
  rw [fetchFromDB_of_real hreal, hget, (h.getSHAMap hget).1 rfl]

theorem applyContract (h : Tracks H contract v.helper kept) (e : Slots.Entry) :
    Tracks H contract (v.applyContract H e.1 e.2).helper (Shared.applyContract H contract v kept e) := by
  rw [Shared.applyContract]
  cases haccount : v.accounts e.1 with
  | none =>
    rw [OpenView.applyContract, haccount]
    exact h
  | some root =>
    rcases hget : v.helper.getSHAMap H e.1 root false with ⟨mapPtr, helper'⟩
    obtain ⟨hkept, htracks⟩ := h.getSHAMap hget
    rw [OpenView.applyContract, haccount]
    dsimp only
    rw [hget]
    by_cases hc : e.1 = contract
    · rw [if_pos hc] at htracks ⊢
      rw [hkept hc]
      cases mapPtr with
      | none => exact htracks
      | some m =>
        rw [Tracks, ← hc]
        dsimp only
        rw [update_self, update_self, Option.join_some, Option.bind_some, update_self]
        rfl
    · rw [if_neg hc] at htracks ⊢
      cases mapPtr with
      | none => exact htracks
      | some m => exact htracks.trans (congrArg _ (update_of_ne (Ne.symm hc) _ _).symm)

theorem applyContracts (h : Tracks H contract v.helper kept) (l : List Slots.Entry) :
    Tracks H contract (l.foldl (fun v e => v.applyContract H e.1 e.2) v).helper
      (Shared.applyContracts H contract v kept l) := by
  induction l generalizing v kept with
  | nil => exact h
  | cons e l ih => exact ih (h.applyContract e)

theorem step {s : Shared} (h : Tracks H contract s.helper s.kept) (use : Use) :
    Tracks H contract (s.step H contract use).helper (s.step H contract use).kept := by
  cases use with
  | fetchFromDB c root key bQuery =>
    rw [Shared.step, ContractHelper.use]
    dsimp only
    by_cases hreal : Real root
    · rw [fetchFromDB_of_real hreal]
      cases bQuery with
      | true =>
        rw [if_neg (by simp)]
        exact h
      | false =>
        rcases hget : s.helper.getSHAMap H c root false with ⟨mapPtr, helper'⟩
        obtain ⟨hkept, htracks⟩ := h.getSHAMap hget
        split
        next hc =>
          rw [if_pos hc.1] at htracks
          rw [hkept hc.1]
          exact htracks
        next hc => rwa [if_neg fun heq => hc ⟨heq, hreal, rfl⟩] at htracks
    · rw [fetchFromDB_of_not_real hreal, if_neg fun hc => hreal hc.2.1]
      exact h
  | apply view => exact applyContracts (v := { view with helper := s.helper }) h view.mStateCache.entries

theorem final {s : Shared} (h : Tracks H contract s.helper s.kept) (uses : List Use) :
    Tracks H contract (Run.final (Shared.step H contract) s uses).helper
      (Run.final (Shared.step H contract) s uses).kept := by
  induction uses generalizing s with
  | nil => exact h
  | cons use uses ih => exact ih (h.step use)

end Tracks

theorem fetchFromDB_query (hreal : Real root) :
    (helper.fetchFromDB H contract root key true).1 = Values.at (loaded H helper contract root) key := by
  rw [fetchFromDB_of_real hreal]
  rfl

def treeOf (value : Word) : SHAMap := modifyMap demoHashes 1 .empty 5 ⟨value, false⟩

def rootOf (value : Word) : HashValue := (ShaMap.getHash demoHashes.toNodeHasher (treeOf value)).1

def twoTrees (root : HashValue) : Option SHAMap :=
  if root = rootOf 7 then some (treeOf 7) else if root = rootOf 8 then some (treeOf 8) else none

theorem holds_treeOf (value : Word) : Holds demoHashes 1 (Function.update (fun _ => 0) 5 value) (treeOf value) := by
  have hempty : Holds demoHashes 1 (fun _ => 0) .empty := holds_empty
  have hnew : (⟨value, false⟩ : ContractValueType).existInDB = true ↔ (0 : Word) ≠ 0 := by simp
  exact hempty.modifyMap hnew

theorem real_rootOf {value : Word} (hvalue : value ≠ 0) : Real (some (rootOf value)) := by
  have hholds := holds_treeOf value
  refine ⟨Option.some_ne_none _, fun hzero => ?_⟩
  have hlookup := hholds.lookup_eq 5
  rw [Function.update_self, if_neg hvalue] at hlookup
  rw [rootOf, hholds.valid.getHash.1, Option.some.injEq] at hzero
  exact not_mem_of_treeHash_eq_zero hzero _ (hholds.valid.lookup_eq_some.mp hlookup).1

theorem rootOf_ne : rootOf 8 ≠ rootOf 7 := by
  intro heq
  have hseven := (holds_treeOf 7).of_getHash_eq (holds_treeOf 8) heq.symm
  have hvalue := hseven.lookup_eq 5
  have hword := congrArg (fun leaf => Evm.Word.ofBytes leaf.item.data) (Option.some.inj hvalue)
  exact absurd hword (by decide)

theorem values_rootOf {value : Word} (hvalue : value ≠ 0) (hstored : twoTrees (rootOf value) = some (treeOf value))
    (cache : AccountID → Option (Option SHAMap)) :
    Values.at (valuesIn demoHashes 1 (ContractHelper.makeShamap demoHashes ⟨cache, twoTrees⟩ (some (rootOf value)))) 5 =
      some value := by
  have hholds := holds_treeOf value
  have hload : ContractHelper.makeShamap demoHashes ⟨cache, twoTrees⟩ (some (rootOf value)) = some (treeOf value) :=
    (if_neg fun hzero => (real_rootOf hvalue).2 (congrArg some hzero)).trans hstored
  rw [hload, valuesIn, Values.at, Option.map_some, Option.bind_some]
  dsimp only
  rw [ShaMap.findKey_eq_lookup hholds.valid.root_ne, hholds.lookup_eq, update_self, if_neg hvalue, Option.map_some,
    slotLeaf_value]

theorem helper_after_one (H : Hashes) (nodes : HashValue → Option SHAMap) (contract : AccountID) (hreal : Real root) :
    (Shared.after H contract nodes [.fetchFromDB contract root key false]).helper =
      ⟨update (fun _ => none) contract (some (ContractHelper.makeShamap H ⟨fun _ => none, nodes⟩ root)), nodes⟩ := by
  rw [Shared.after, Run.final_cons, Run.final_nil, Shared.step, ContractHelper.use, fetchFromDB_of_real hreal]
  rfl

end Chainsql.Storage
