import Chainsql.Storage.Refines

/-!
# The storage of contracts on two nodes

Two nodes that build on one ledger have its storage trees in their stores, but may have loaded different ones.
What transactions read does not depend on this, and neither do the storage roots at the end.
-/

namespace Chainsql.Storage

open Evm (AccountID Word)
open ShaMap (SHAMap)

variable {H : Hashes} {v w : OpenView} {p : Plain} {values : AccountID → Word → Word} {contract : AccountID} {key : Word}

/-! ## One node -/

/-- What a transaction reads, in terms of the values at the beginning. -/
def OpenView.readValue (v : OpenView) (values : AccountID → Word → Word) (contract : AccountID) (key : Word) : Word :=
  (v.fetchFromCache contract key v.ctx.isQuery).getD (values contract key)

/-- What a transaction keeps for a write, in terms of the values at the beginning. -/
def OpenView.writeCtx (v : OpenView) (values : AccountID → Word → Word) (contract : AccountID) (key value : Word) :
    ApplyContext :=
  if (v.ctx.fetchFromDirty contract key).isSome then v.ctx.setDirtyValue contract key value
  else (v.ctx.setDirtyValue contract key value).setDirtyExistInDB contract key
    (((v.fetchFromStateCache contract key).map (·.existInDB)).getD (decide (values contract key ≠ 0)))

namespace Inv

variable (h : Inv H values v p)
include h

theorem store_eq (contract : AccountID) (key : Word) :
    ∃ helper, v.store H contract key = (v.readValue values contract key, { v with helper }) := by
  rw [OpenView.store, OpenView.fetchValue, OpenView.readValue]
  cases v.fetchFromCache contract key v.ctx.isQuery with
  | some value => exact ⟨v.helper, rfl⟩
  | none =>
    obtain ⟨helper, hfetch, -⟩ := h.fetchFromDB contract key v.ctx.isQuery
    refine ⟨helper, ?_⟩
    rw [hfetch, Option.getD_none]
    show ((if values contract key = 0 then none else some (values contract key)).getD 0, _) = _
    rw [getD_value]

theorem setStore_eq (contract : AccountID) (key value : Word) :
    ∃ helper, v.setStore H contract key value = { v with helper, ctx := v.writeCtx values contract key value } := by
  rw [OpenView.setStore, OpenView.setStorage, OpenView.writeCtx]
  cases (v.ctx.fetchFromDirty contract key).isSome with
  | true => exact ⟨v.helper, rfl⟩
  | false =>
    rw [if_neg Bool.false_ne_true, if_neg Bool.false_ne_true]
    cases v.fetchFromStateCache contract key with
    | some data => exact ⟨v.helper, rfl⟩
    | none =>
      obtain ⟨helper, hfetch, -⟩ := h.fetchFromDB contract key false
      refine ⟨helper, ?_⟩
      rw [hfetch]
      show OpenView.mk _ _ (ApplyContext.setDirtyExistInDB _ _ _
        (if values contract key = 0 then none else some (values contract key)).isSome) _ = _
      by_cases hzero : values contract key = 0
      · simp only [hzero, if_true, Option.isSome_none, ne_eq, not_true_eq_false, decide_false, Option.map_none,
          Option.getD_none]
      · simp only [hzero, if_false, Option.isSome_some, ne_eq, not_false_eq_true, decide_true, Option.map_none,
          Option.getD_none]

end Inv

/-! ## Two nodes -/

/-- The views of two nodes differ only in what they have loaded. -/
def Same (H : Hashes) (values : AccountID → Word → Word) (v w : OpenView) : Prop :=
  ∃ helper p, w = { v with helper } ∧ Inv H values v p ∧ Inv H values w p

namespace Same

variable (h : Same H values v w)
include h

theorem view_eq : w.ctx.view = v.ctx.view := by
  obtain ⟨helper, p, rfl, -, -⟩ := h
  rfl

theorem begin (isQuery : Bool) : Same H values (v.begin isQuery) (w.begin isQuery) := by
  obtain ⟨helper, p, rfl, hv, hw⟩ := h
  exact ⟨helper, _, rfl, hv.begin isQuery, hw.begin isQuery⟩

theorem discard : Same H values v.discard w.discard := by
  obtain ⟨helper, p, rfl, hv, hw⟩ := h
  exact ⟨helper, _, rfl, hv.begin _, hw.begin _⟩

theorem createContractAccount (hnew : v.ctx.view contract = none) :
    Same H values (v.createContractAccount contract) (w.createContractAccount contract) := by
  obtain ⟨helper, p, rfl, hv, hw⟩ := h
  exact ⟨helper, p, rfl, hv.createContractAccount hnew, hw.createContractAccount hnew⟩

theorem store (contract : AccountID) (key : Word) :
    (v.store H contract key).1 = (w.store H contract key).1 ∧
      Same H values (v.store H contract key).2 (w.store H contract key).2 := by
  obtain ⟨helper, p, rfl, hv, hw⟩ := h
  obtain ⟨helper₁, h₁⟩ := hv.store_eq contract key
  obtain ⟨helper₂, h₂⟩ := hw.store_eq contract key
  have hv' := (hv.store contract key).1
  have hw' := (hw.store contract key).1
  rw [h₁] at hv' ⊢
  rw [h₂] at hw' ⊢
  exact ⟨rfl, helper₂, p, rfl, hv', hw'⟩

theorem setStore (value : Word) (hview : v.ctx.view contract ≠ none) :
    Same H values (v.setStore H contract key value) (w.setStore H contract key value) := by
  obtain ⟨helper, p, rfl, hv, hw⟩ := h
  obtain ⟨helper₁, h₁⟩ := hv.setStore_eq contract key value
  obtain ⟨helper₂, h₂⟩ := hw.setStore_eq contract key value
  have hv' : Inv H values (v.setStore H contract key value) _ := hv.setStore value hview
  have hw' : Inv H values (OpenView.setStore H { v with helper } contract key value) _ := hw.setStore value hview
  rw [h₁] at hv' ⊢
  rw [h₂] at hw' ⊢
  exact ⟨helper₂, _, rfl, hv', hw'⟩

theorem commit : Same H values v.commit w.commit := by
  obtain ⟨helper, p, rfl, hv, hw⟩ := h
  refine ⟨helper, _, ?_, hv.commit, hw.commit⟩
  rw [OpenView.commit, OpenView.commit, applyDirty_eq, applyDirty_eq]
  rfl

end Same

/-! ## The storage roots -/

theorem Holds.getHash_eq {values : Word → Word} {m m' : SHAMap} (h : Holds H contract values m)
    (h' : Holds H contract values m') :
    (ShaMap.getHash H.toNodeHasher m).1 = (ShaMap.getHash H.toNodeHasher m').1 := by
  refine h.valid.getHash_eq h'.valid (funext fun id => Option.ext fun leaf => ?_)
  rw [h.lookup_iff, h'.lookup_iff]

theorem applyContract_accounts_eq {vs : AList fun _ : Word => ContractValueType}
    (hv : Intact H v.accounts v.helper values) (hw : Intact H w.accounts w.helper values)
    (hv' : CachedAt H v.helper values contract) (hw' : CachedAt H w.helper values contract)
    (hexist : ∀ e ∈ vs.entries, e.2.existInDB = true ↔ values contract e.1 ≠ 0) (hsame : v.accounts = w.accounts) :
    (v.applyContract H contract vs).accounts = (w.applyContract H contract vs).accounts := by
  obtain ⟨m, helper, hget, hholds, -⟩ := getSHAMap_spec false hv hv'
  obtain ⟨m', helper', hget', hholds', -⟩ := getSHAMap_spec false hw hw'
  rw [OpenView.applyContract, OpenView.applyContract, ← hsame]
  rw [← hsame] at hget'
  cases hroot : v.accounts contract with
  | none => exact hsame
  | some root =>
    rw [hroot, Option.join_some] at hget hget'
    simp only [hget, hget']
    -- both trees hold the values that are written
    have hhash := ((hholds.foldl_modifyMap vs.nodupKeys hexist).flushDirty).getHash_eq
      (hholds'.foldl_modifyMap vs.nodupKeys hexist).flushDirty
    rw [hhash]

theorem Pending.accounts_foldl_eq {l : List Slots.Entry}
    (hv : Pending H values v l) (hw : Pending H values w l) (hsame : v.accounts = w.accounts) :
    (l.foldl (fun v e => v.applyContract H e.1 e.2) v).accounts =
      (l.foldl (fun v e => v.applyContract H e.1 e.2) w).accounts := by
  induction l generalizing v w values with
  | nil => exact hsame
  | cons e l ih =>
    obtain ⟨c, vs⟩ := e
    have hmem : (⟨c, vs⟩ : Slots.Entry) ∈ (⟨c, vs⟩ :: l) :=
      List.mem_cons_self
    exact ih hv.tail hw.tail (applyContract_accounts_eq hv.intact hw.intact (hv.cached _ hmem) (hw.cached _ hmem)
      (hv.exist _ hmem) hsame)

theorem Same.applyContracts (h : Same H values v w) :
    (v.applyContracts H).accounts = (w.applyContracts H).accounts := by
  obtain ⟨helper, p, rfl, hv, hw⟩ := h
  exact hv.pending.accounts_foldl_eq hw.pending rfl

end Chainsql.Storage
