import Chainsql.Storage.Trees

/-!
# The caches refine a plain map

`Inv` relates the caches of a build to the values after the committed and the running transactions. A value
that is remembered knows whether it was under the storage root when the build began, which is what the changes
at the end of the build depend on. Transactions that are marked as queries read past the state cache.
-/

namespace Chainsql.Storage

open Function ContractHelper

open Evm (AccountID Word)
open ShaMap (SHAMap)

variable {H : Hashes} {v : OpenView} {p : Plain} {accounts : Accounts} {helper : ContractHelper}
  {values : AccountID → Word → Word} {contract contract' : AccountID} {key key' : Word}

/-! ## Slots -/

namespace Slots

abbrev Entry := Sigma fun _ : AccountID => AList fun _ : Word => ContractValueType

variable {m : Slots} {value : ContractValueType}

theorem of_set_self : (m.set contract key value).of contract = (m.of contract).insert key value := by
  rw [set, of, AList.lookup_insert, Option.getD_some]

theorem of_set_ne (h : contract' ≠ contract) : (m.set contract key value).of contract' = m.of contract' := by
  rw [set, of, AList.lookup_insert_ne h, of]

theorem find_set_self : (m.set contract key value).find contract key = some value := by
  rw [find, of_set_self, AList.lookup_insert]

theorem find_set_ne (h : contract' = contract → key' ≠ key) :
    (m.set contract key value).find contract' key' = m.find contract' key' := by
  by_cases hc : contract' = contract
  · rw [hc, find, of_set_self, AList.lookup_insert_ne (h hc), find]
  · rw [find, of_set_ne hc, find]

theorem find_foldl_set {l : List (Sigma fun _ : Word => ContractValueType)} (hl : l.NodupKeys) :
    (l.foldl (fun m e => m.set contract e.1 e.2) m).find contract' key' =
      if contract' = contract then (l.dlookup key').or (m.find contract' key') else m.find contract' key' := by
  induction l generalizing m with
  | nil => simp
  | cons e l ih =>
    obtain ⟨k, value⟩ := e
    obtain ⟨hnot, hnodup⟩ := List.nodupKeys_cons.mp hl
    rw [List.foldl_cons, ih hnodup]
    by_cases hc : contract' = contract
    · subst hc
      rw [if_pos rfl, if_pos rfl]
      by_cases hk : key' = k
      · subst hk
        rw [List.dlookup_cons_eq, List.dlookup_eq_none.mpr hnot, find_set_self, Option.none_or, Option.some_or]
      · rw [List.dlookup_cons_ne l ⟨k, value⟩ hk, find_set_ne fun _ => hk]
    · rw [if_neg hc, if_neg hc, find_set_ne fun heq => absurd heq hc]

theorem find_foldl_foldl_set {l : List Slots.Entry}
    (hl : l.NodupKeys) :
    (l.foldl (fun m e => e.2.entries.foldl (fun m e' => m.set e.1 e'.1 e'.2) m) m).find contract key =
      ((l.dlookup contract).bind (AList.lookup key)).or (m.find contract key) := by
  induction l generalizing m with
  | nil => simp
  | cons e l ih =>
    obtain ⟨c, vs⟩ := e
    obtain ⟨hnot, hnodup⟩ := List.nodupKeys_cons.mp hl
    rw [List.foldl_cons, ih hnodup, find_foldl_set vs.nodupKeys]
    by_cases hc : contract = c
    · subst hc
      rw [if_pos rfl, List.dlookup_cons_eq, List.dlookup_eq_none.mpr hnot, Option.bind_none]
      rfl
    · rw [if_neg hc, List.dlookup_cons_ne l ⟨c, vs⟩ hc]

end Slots

theorem find_eq_bind (m : Slots) : m.find contract key = (m.lookup contract).bind (AList.lookup key) := by
  rw [Slots.find, Slots.of]
  cases m.lookup contract <;> rfl

theorem find_of_mem {m : Slots} {e : Slots.Entry}
    (he : e ∈ m.entries) : m.find e.1 key = e.2.lookup key := by
  have hlookup : m.lookup e.1 = some e.2 := List.mem_dlookup m.nodupKeys he
  rw [find_eq_bind, hlookup, Option.bind_some]

theorem foldl_setStateCache (l : List (Sigma fun _ : Word => ContractValueType)) :
    l.foldl (fun v e => v.setStateCache contract e.1 e.2) v =
      { v with mStateCache := l.foldl (fun m e => m.set contract e.1 e.2) v.mStateCache } := by
  induction l generalizing v with
  | nil => rfl
  | cons e l ih => exact ih

def Slots.setAll (m : Slots) (l : List Slots.Entry) : Slots :=
  l.foldl (fun m e => e.2.entries.foldl (fun m e' => m.set e.1 e'.1 e'.2) m) m

theorem applyDirty_eq : v.applyDirty = { v with mStateCache := v.mStateCache.setAll v.ctx.mDirtyCache.entries } := by
  rw [OpenView.applyDirty]
  generalize v.ctx.mDirtyCache.entries = l
  induction l generalizing v with
  | nil => rfl
  | cons e l ih => rw [List.foldl_cons, foldl_setStateCache, ih, Slots.setAll, Slots.setAll, List.foldl_cons]

theorem find_applyDirty : v.applyDirty.mStateCache.find contract key =
    (v.ctx.mDirtyCache.find contract key).or (v.mStateCache.find contract key) := by
  rw [applyDirty_eq, find_eq_bind v.ctx.mDirtyCache]
  exact Slots.find_foldl_foldl_set v.ctx.mDirtyCache.nodupKeys

/-! ## Trees -/

/-- The tree of a contract in the cache holds the values under its storage root. -/
def CachedAt (H : Hashes) (helper : ContractHelper) (values : AccountID → Word → Word) (contract : AccountID) : Prop :=
  ∀ mapPtr, helper.mShaMapCache contract = some mapPtr → ∃ m, mapPtr = some m ∧ Holds H contract (values contract) m

theorem makeShamap_zero : helper.makeShamap H (some zeroHash) = some .empty := by
  rw [makeShamap]
  exact if_pos rfl

variable {helper' : ContractHelper}

theorem makeShamap_congr (hnodes : helper'.nodes = helper.nodes) (root : Option HashValue) :
    helper'.makeShamap H root = helper.makeShamap H root := by
  unfold makeShamap
  rw [hnodes]

theorem getSHAMap_spec (bQuery : Bool) (hintact : Intact H accounts helper values)
    (hcache : CachedAt H helper values contract) :
    ∃ m helper', helper.getSHAMap H contract (accounts contract).join bQuery = (some m, helper') ∧
      Holds H contract (values contract) m ∧ helper'.nodes = helper.nodes ∧ CachedAt H helper' values contract ∧
      ∀ c, c ≠ contract → helper'.mShaMapCache c = helper.mShaMapCache c := by
  obtain ⟨m, hm, hholds⟩ := hintact.holds contract
  cases bQuery with
  | true => exact ⟨m, helper, by rw [getSHAMap, if_pos rfl, hm], hholds, rfl, hcache, fun _ _ => rfl⟩
  | false =>
    rw [getSHAMap]
    cases hfind : helper.mShaMapCache contract with
    | some mapPtr =>
      obtain ⟨m', rfl, hholds'⟩ := hcache mapPtr hfind
      exact ⟨m', helper, rfl, hholds', rfl, hcache, fun _ _ => rfl⟩
    | none =>
      rw [hm]
      refine ⟨m, _, rfl, hholds, rfl, fun mapPtr hc => ?_, fun c hc => update_of_ne hc _ _⟩
      replace hc : update helper.mShaMapCache contract (some (some m)) contract = some mapPtr := hc
      rw [update_self] at hc
      exact ⟨m, (Option.some.inj hc).symm, hholds⟩

theorem fetchFromDB_spec (contract : AccountID) (bQuery : Bool) (hintact : Intact H accounts helper values)
    (hcache : ∀ contract, CachedAt H helper values contract) (key : Word) :
    ∃ helper', helper.fetchFromDB H contract (accounts contract).join key bQuery =
      (if values contract key = 0 then none else some (values contract key), helper') ∧
      helper'.nodes = helper.nodes ∧ ∀ contract, CachedAt H helper' values contract := by
  obtain ⟨m, helper', hget, hholds, hnodes, hat, hother⟩ := getSHAMap_spec bQuery hintact (hcache contract)
  have hcache' : ∀ c, CachedAt H helper' values c := by
    intro c
    by_cases hc : c = contract
    · rw [hc]
      exact hat
    · rw [CachedAt, hother c hc]
      exact hcache c
  have hitem : (ShaMap.findKey m (H.realKey contract key)).map (fun leaf => Evm.Word.ofBytes leaf.item.data) =
      if values contract key = 0 then none else some (values contract key) := by
    rw [ShaMap.findKey_eq_lookup hholds.valid.root_ne, hholds.lookup_eq]
    split
    · rfl
    · rw [Option.map_some, slotLeaf_value]
  rw [fetchFromDB]
  split
  next hroot =>
    -- the tree is empty
    have hempty : helper.makeShamap H (accounts contract).join = some .empty := by
      rcases hroot with hroot | hroot
      · rw [hroot]
        rfl
      · rw [hroot, makeShamap_zero]
    obtain ⟨m', hm', hholds'⟩ := hintact.holds contract
    obtain rfl := Option.some.inj (hempty.symm.trans hm')
    have hzero : values contract key = 0 := by
      by_contra hne
      have hfind := hholds'.lookup_eq key
      rw [if_neg hne] at hfind
      cases hfind
    exact ⟨helper, by rw [if_pos hzero], rfl, hcache⟩
  · rw [hget, ← hitem]
    exact ⟨helper', rfl, hnodes, hcache'⟩

/-! ## The invariant -/

/-- A slot of a cache stands for a value; without it the value is the one below. -/
structure SlotOk (slot : Option ContractValueType) (value below base : Word) (account : Prop) : Prop where
  value_eq : (slot.map (·.value)).getD below = value
  data : ∀ data ∈ slot, (data.existInDB = true ↔ base ≠ 0) ∧ account

namespace SlotOk

variable {slot slot' : Option ContractValueType} {value value' below base : Word} {account account' : Prop}

theorem none : SlotOk none value value base account := ⟨rfl, nofun⟩

variable (h : SlotOk slot value below base account)
include h

theorem imp (himp : account → account') : SlotOk slot value below base account' :=
  ⟨h.value_eq, fun data hdata => (h.data data hdata).imp_right himp⟩

theorem commit (h' : SlotOk slot' below value' base account) :
    SlotOk (slot.or slot') value value' base account ∧ SlotOk slot value value base account := by
  cases slot with
  | none => exact ⟨⟨h'.value_eq.trans h.value_eq, h'.data⟩, .none⟩
  | some data => exact ⟨⟨h.value_eq, h.data⟩, ⟨h.value_eq, h.data⟩⟩

end SlotOk

/-- The caches stand for the values of `p`. The values under the storage roots are those at the beginning. -/
structure Inv (H : Hashes) (values : AccountID → Word → Word) (v : OpenView) (p : Plain) : Prop where
  intact : Intact H v.accounts v.helper values
  cache : ∀ contract, CachedAt H v.helper values contract
  root : ∀ contract, (v.ctx.view contract).join = (v.accounts contract).join
  view : ∀ contract, v.accounts contract ≠ none → v.ctx.view contract ≠ none
  state : ∀ contract key, SlotOk (v.mStateCache.find contract key) (p.committed contract key) (values contract key)
    (values contract key) (v.accounts contract ≠ none)
  dirty : ∀ contract key, SlotOk (v.ctx.mDirtyCache.find contract key) (p.running contract key)
    (p.committed contract key) (values contract key) (v.ctx.view contract ≠ none)

theorem Intact.congr {accounts' : Accounts} (h : Intact H accounts helper values)
    (hroot : ∀ contract, (accounts' contract).join = (accounts contract).join) (hnodes : helper'.nodes = helper.nodes) :
    Intact H accounts' helper' values := by
  refine ⟨fun contract => ?_, fun root m => ?_⟩
  · obtain ⟨m, hm, hholds⟩ := h.holds contract
    refine ⟨m, ?_, hholds⟩
    rw [hroot, makeShamap_congr hnodes, hm]
  · rw [hnodes]
    exact h.hash root m

theorem inv_start {nodes : HashValue → Option SHAMap} (hintact : Intact H accounts ⟨fun _ => none, nodes⟩ values) :
    Inv H values (.start accounts nodes) ⟨values, values⟩ :=
  ⟨hintact, fun _ _ h => Option.noConfusion rfl (heq_of_eq h), fun _ => rfl, fun _ => id, fun _ _ => .none,
    fun _ _ => .none⟩

theorem getD_value (contract : AccountID) (key : Word) :
    (if values contract key = 0 then none else some (values contract key)).getD 0 = values contract key := by
  split
  next hzero => rw [hzero, Option.getD_none]
  · rfl

namespace Inv

variable (h : Inv H values v p)
include h

theorem begin (isQuery : Bool) : Inv H values (v.begin isQuery) ⟨p.committed, p.committed⟩ :=
  ⟨h.intact, h.cache, fun _ => rfl, fun _ => id, h.state, fun _ _ => .none⟩

theorem createContractAccount (hnew : v.ctx.view contract = none) : Inv H values (v.createContractAccount contract) p := by
  refine ⟨h.intact, h.cache, ?_, ?_, h.state, ?_⟩
  · refine (forall_update_iff _ fun c root => Option.join root = (v.accounts c).join).mpr ⟨?_, fun c _ => h.root c⟩
    rw [← h.root, hnew]
    rfl
  · refine (forall_update_iff _ fun c root => v.accounts c ≠ none → root ≠ none).mpr ⟨?_, fun c _ => h.view c⟩
    exact fun _ => Option.some_ne_none _
  · refine (forall_update_iff _ fun c root => ∀ key, SlotOk (v.ctx.mDirtyCache.find c key) (p.running c key)
      (p.committed c key) (values c key) (root ≠ none)).mpr ⟨fun key => ?_, fun c _ => h.dirty c⟩
    exact (h.dirty contract key).imp fun hview => absurd hnew hview

theorem setHelper {helper : ContractHelper} (hnodes : helper.nodes = v.helper.nodes)
    (hcache : ∀ contract, CachedAt H helper values contract) : Inv H values { v with helper } p :=
  ⟨h.intact.congr (fun _ => rfl) hnodes, hcache, h.root, h.view, h.state, h.dirty⟩

theorem fetchFromDB (contract : AccountID) (key : Word) (bQuery : Bool) :
    ∃ helper, v.helper.fetchFromDB H contract (v.rootHash contract) key bQuery =
      (if values contract key = 0 then none else some (values contract key), helper) ∧
      Inv H values { v with helper } p := by
  obtain ⟨helper, hfetch, hnodes, hcache⟩ := fetchFromDB_spec contract bQuery h.intact h.cache key
  refine ⟨helper, ?_, h.setHelper hnodes hcache⟩
  rw [OpenView.rootHash, h.root, hfetch]

theorem store (contract : AccountID) (key : Word) :
    Inv H values (v.store H contract key).2 p ∧
      ((v.store H contract key).1 = p.running contract key ↔
        v.ctx.isQuery = false ∨ (v.ctx.fetchFromDirty contract key).isSome = true ∨
          p.committed contract key = values contract key) := by
  obtain ⟨helper, hfetch, hinv⟩ := h.fetchFromDB contract key v.ctx.isQuery
  have hdirty := h.dirty contract key
  have hstate := h.state contract key
  cases hfind : v.ctx.mDirtyCache.find contract key with
  | some data =>
    rw [hfind] at hdirty
    have hcached : v.ctx.fetchFromDirty contract key = some data.value := by
      rw [ApplyContext.fetchFromDirty, hfind, Option.map_some]
    simp only [OpenView.store, OpenView.fetchValue, OpenView.fetchFromCache, hcached]
    exact ⟨h, iff_of_true hdirty.value_eq (.inr (.inl rfl))⟩
  | none =>
    rw [hfind] at hdirty
    have hcached : v.ctx.fetchFromDirty contract key = none := by
      rw [ApplyContext.fetchFromDirty, hfind, Option.map_none]
    rw [← show p.committed contract key = p.running contract key from hdirty.value_eq]
    cases hquery : v.ctx.isQuery with
    | true =>
      rw [hquery] at hfetch
      simp only [OpenView.store, OpenView.fetchValue, OpenView.fetchFromCache, hcached, hquery, if_true, hfetch,
        getD_value]
      refine ⟨hinv, ?_⟩
      simp [eq_comm]
    | false =>
      rw [hquery] at hfetch
      cases hslot : v.mStateCache.find contract key with
      | some data =>
        rw [hslot] at hstate
        simp only [OpenView.store, OpenView.fetchValue, OpenView.fetchFromCache, hcached, hquery, Bool.false_eq_true,
          if_false, OpenView.fetchFromStateCache, hslot, Option.map_some]
        exact ⟨h, iff_of_true hstate.value_eq (.inl trivial)⟩
      | none =>
        rw [hslot] at hstate
        simp only [OpenView.store, OpenView.fetchValue, OpenView.fetchFromCache, hcached, hquery, Bool.false_eq_true,
          if_false, OpenView.fetchFromStateCache, hslot, Option.map_none, hfetch, getD_value]
        exact ⟨hinv, iff_of_true hstate.value_eq (.inl trivial)⟩

theorem setDirty {dirty : Slots} (data : ContractValueType) (hself : dirty.find contract key = some data)
    (hother : ∀ contract' key', (contract' = contract → key' ≠ key) →
      dirty.find contract' key' = v.ctx.mDirtyCache.find contract' key')
    (hexist : data.existInDB = true ↔ values contract key ≠ 0) (hview : v.ctx.view contract ≠ none) :
    Inv H values { v with ctx := { v.ctx with mDirtyCache := dirty } }
      (p.step (.setStore contract key data.value)) := by
  refine ⟨h.intact, h.cache, h.root, h.view, h.state, fun contract' key' => ?_⟩
  show SlotOk (dirty.find contract' key')
    (update p.running contract (update (p.running contract) key data.value) contract' key') _ _ _
  by_cases hc : contract' = contract
  · subst hc
    rw [update_self]
    by_cases hk : key' = key
    · rw [hk, update_self, hself]
      refine ⟨rfl, ?_⟩
      rintro _ ⟨⟩
      exact ⟨hexist, hview⟩
    · rw [update_of_ne hk, hother contract' key' fun _ => hk]
      exact h.dirty contract' key'
  · rw [update_of_ne hc, hother contract' key' fun heq => absurd heq hc]
    exact h.dirty contract' key'

theorem setNew (value : Word) {existInDB : Bool} (hexist : existInDB = true ↔ values contract key ≠ 0)
    (hview : v.ctx.view contract ≠ none) :
    Inv H values { v with ctx := (v.ctx.setDirtyValue contract key value).setDirtyExistInDB contract key existInDB }
      (p.step (.setStore contract key value)) := by
  have hslot : ∀ (m : Slots) data, (m.set contract key data).slot contract key = data := by
    intro m data
    rw [Slots.slot, Slots.find_set_self, Option.getD_some]
  rw [ApplyContext.setDirtyValue]
  refine h.setDirty ⟨value, existInDB⟩ ?_ (fun contract' key' hne => ?_) hexist hview
  · rw [Slots.find_set_self, hslot]
  · rw [Slots.find_set_ne hne, Slots.find_set_ne hne]

theorem setStore (value : Word) (hview : v.ctx.view contract ≠ none) :
    Inv H values (v.setStore H contract key value) (p.step (.setStore contract key value)) := by
  have hdirty := h.dirty contract key
  have hstate := h.state contract key
  rw [OpenView.setStore, OpenView.setStorage]
  cases hfind : v.ctx.mDirtyCache.find contract key with
  | some data =>
    rw [hfind] at hdirty
    rw [ApplyContext.fetchFromDirty, hfind, Option.map_some, Option.isSome_some, ApplyContext.setDirtyValue,
      Slots.slot, hfind]
    exact h.setDirty { data with value } Slots.find_set_self (fun _ _ => Slots.find_set_ne) (hdirty.data data rfl).1 hview
  | none =>
    rw [ApplyContext.fetchFromDirty, hfind, Option.map_none, Option.isSome_none, OpenView.fetchFromStateCache]
    cases hslot : v.mStateCache.find contract key with
    | some data =>
      rw [hslot] at hstate
      exact h.setNew value (hstate.data data rfl).1 hview
    | none =>
      obtain ⟨helper, hfetch, hinv⟩ := h.fetchFromDB contract key false
      rw [hfetch]
      refine hinv.setNew value ?_ hview
      split
      next hzero => exact iff_of_false Bool.false_ne_true fun hne => hne hzero
      next hne => exact iff_of_true rfl hne

theorem commit : Inv H values v.commit ⟨p.running, p.running⟩ := by
  have happly : Inv H values { v with accounts := v.ctx.view }.applyDirty ⟨p.running, p.running⟩ := by
    have hframe := applyDirty_eq (v := { v with accounts := v.ctx.view })
    refine ⟨?_, ?_, ?_, ?_, fun contract key => ?_, fun contract key => ?_⟩
    · rw [hframe]
      exact h.intact.congr h.root rfl
    · rw [hframe]
      exact h.cache
    · rw [hframe]
      exact fun _ => rfl
    · rw [hframe]
      exact fun _ => id
    · rw [find_applyDirty, hframe]
      exact ((h.dirty contract key).commit ((h.state contract key).imp (h.view contract))).1
    · rw [hframe]
      exact ((h.dirty contract key).commit ((h.state contract key).imp (h.view contract))).2
  exact happly.begin false

theorem step {a : Action} (hlegal : v.Legal a) : Inv H values (v.step H a) (p.step a) := by
  cases a with
  | begin isQuery => exact h.begin isQuery
  | createContractAccount contract => exact h.createContractAccount hlegal
  | store contract key => exact (h.store contract key).1
  | setStore contract key value => exact h.setStore value hlegal
  | commit => exact h.commit
  | discard => exact h.begin v.ctx.isQuery

end Inv

/-! ## The end of the build -/

theorem written_nil {values : Word → Word} : written values [] = values := rfl

theorem getHash_empty : (ShaMap.getHash H.toNodeHasher SHAMap.empty).1 = zeroHash := by
  rfl

section Flushed

variable {nodes : HashValue → Option SHAMap} {cache : AccountID → Option (Option SHAMap)} {m' : SHAMap}
  {hash : HashValue} {now : Word → Word}

theorem makeShamap_new (hholds : Holds H contract now m') (hhash : (ShaMap.getHash H.toNodeHasher m').1 = hash) :
    ∃ m, ContractHelper.makeShamap H ⟨cache, Function.update nodes hash (some m')⟩ (some hash) = some m ∧
      Holds H contract now m := by
  by_cases hzero : hash = zeroHash
  · have hempty : Holds H contract (fun _ => 0) .empty := holds_empty
    refine ⟨.empty, ?_, hempty.of_getHash_eq hholds ?_⟩
    · rw [hzero, makeShamap_zero]
    · rw [hhash, hzero, getHash_empty]
  · refine ⟨m', ?_, hholds⟩
    exact (if_neg hzero).trans (update_self ..)

/-- The other trees can be fetched as before. One with the same hash holds the same values. -/
theorem makeShamap_old {root : Option HashValue} {old : SHAMap} {values : Word → Word}
    (hholds : Holds H contract now m') (hhash : (ShaMap.getHash H.toNodeHasher m').1 = hash)
    (hstore : ∀ root m, nodes root = some m → (ShaMap.getHash H.toNodeHasher m).1 = root)
    (hmake : helper.makeShamap H root = some old) (hnodes : helper.nodes = nodes)
    (hold : Holds H contract' values old) :
    ∃ m, ContractHelper.makeShamap H ⟨cache, Function.update nodes hash (some m')⟩ root = some m ∧
      Holds H contract' values m := by
  unfold makeShamap at hmake ⊢
  cases root with
  | none => exact ⟨old, hmake, hold⟩
  | some root =>
    dsimp only at hmake ⊢
    split
    next hzero =>
      rw [if_pos hzero] at hmake
      exact ⟨old, hmake, hold⟩
    next hne =>
      rw [if_neg hne, hnodes] at hmake
      by_cases heq : root = hash
      · refine ⟨m', ?_, hholds.of_getHash_eq hold ?_⟩
        · rw [heq, update_self]
        · rw [hhash, hstore root old hmake, heq]
      · refine ⟨old, ?_, hold⟩
        rw [update_of_ne heq, hmake]

end Flushed

theorem applyContract_spec {vs : AList fun _ : Word => ContractValueType}
    (hintact : Intact H v.accounts v.helper values) (hcache : CachedAt H v.helper values contract)
    (hexist : ∀ e ∈ vs.entries, e.2.existInDB = true ↔ values contract e.1 ≠ 0)
    (haccount : v.accounts contract = none → vs = ∅) :
    Intact H (v.applyContract H contract vs).accounts (v.applyContract H contract vs).helper
        (Function.update values contract (written (values contract) vs.entries)) ∧
      ∀ c, c ≠ contract → (v.applyContract H contract vs).accounts c = v.accounts c ∧
        (v.applyContract H contract vs).helper.mShaMapCache c = v.helper.mShaMapCache c := by
  rw [OpenView.applyContract]
  cases hroot : v.accounts contract with
  | none =>
    have hwritten : written (values contract) vs.entries = values contract := by
      rw [haccount hroot]
      exact written_nil
    rw [hwritten, update_eq_self]
    exact ⟨hintact, fun _ _ => ⟨rfl, rfl⟩⟩
  | some root =>
    obtain ⟨m, helper, hget, hholds, hnodes, -, hother⟩ := getSHAMap_spec false hintact hcache
    have hjoin : (v.accounts contract).join = root := by rw [hroot, Option.join_some]
    rw [hjoin] at hget
    simp only [hget]
    generalize hm' : flushDirty H (vs.entries.foldl (fun m e => modifyMap H contract m e.1 e.2) m) = m'
    have hholds' : Holds H contract (written (values contract) vs.entries) m' := by
      rw [← hm']
      exact (hholds.foldl_modifyMap vs.nodupKeys hexist).flushDirty
    generalize hhash : (ShaMap.getHash H.toNodeHasher m').1 = hash
    refine ⟨⟨fun c => ?_, fun root' m₂ hm₂ => ?_⟩, fun c hc => ⟨update_of_ne hc _ _, ?_⟩⟩
    · show ∃ m, makeShamap H _ (update v.accounts contract (some (some hash)) c).join = some m ∧ _
      by_cases hc : c = contract
      · rw [hc, update_self, update_self]
        exact makeShamap_new hholds' hhash
      · rw [update_of_ne hc, update_of_ne hc]
        obtain ⟨old, hmake, hold⟩ := hintact.holds c
        refine makeShamap_old hholds' hhash ?_ hmake hnodes.symm hold
        rw [hnodes]
        exact hintact.hash
    · replace hm₂ : update helper.nodes hash (some m') root' = some m₂ := hm₂
      by_cases heq : root' = hash
      · rw [heq, update_self] at hm₂
        rw [← Option.some.inj hm₂, hhash, heq]
      · rw [update_of_ne heq, hnodes] at hm₂
        exact hintact.hash root' m₂ hm₂
    · exact (update_of_ne hc _ _).trans (hother c hc)

/-- The values that are written for each contract. -/
def writtenAll (values : AccountID → Word → Word)
    (l : List Slots.Entry) (contract : AccountID) (key : Word) :
    Word :=
  match l.dlookup contract with
  | some vs => written (values contract) vs.entries key
  | none => values contract key

/-- The values to be written say whether they are in the tree of their contract. -/
structure Pending (H : Hashes) (values : AccountID → Word → Word) (v : OpenView)
    (l : List Slots.Entry) : Prop where
  nodup : l.NodupKeys
  intact : Intact H v.accounts v.helper values
  cached : ∀ e ∈ l, CachedAt H v.helper values e.1
  exist : ∀ e ∈ l, ∀ e' ∈ e.2.entries, e'.2.existInDB = true ↔ values e.1 e'.1 ≠ 0
  account : ∀ e ∈ l, v.accounts e.1 = none → e.2 = ∅

section Pending

variable {vs : AList fun _ : Word => ContractValueType}
  {l : List Slots.Entry}

theorem Pending.tail (h : Pending H values v (⟨contract, vs⟩ :: l)) :
    Pending H (Function.update values contract (written (values contract) vs.entries)) (v.applyContract H contract vs)
      l := by
  obtain ⟨hnot, hnodup⟩ := List.nodupKeys_cons.mp h.nodup
  obtain ⟨hfirst, hframe⟩ := applyContract_spec h.intact (h.cached _ List.mem_cons_self)
    (h.exist _ List.mem_cons_self) (h.account _ List.mem_cons_self)
  have hne : ∀ e ∈ l, e.1 ≠ contract := by
    rintro e he rfl
    exact hnot (List.mem_keys_of_mem (s := e) he)
  refine ⟨hnodup, hfirst, fun e he => ?_, fun e he e' he' => ?_, fun e he => ?_⟩
  · rw [CachedAt, (hframe e.1 (hne e he)).2, update_of_ne (hne e he)]
    exact h.cached e (List.mem_cons_of_mem _ he)
  · rw [update_of_ne (hne e he)]
    exact h.exist e (List.mem_cons_of_mem _ he) e' he'
  · rw [(hframe e.1 (hne e he)).1]
    exact h.account e (List.mem_cons_of_mem _ he)

theorem Pending.intact_foldl (h : Pending H values v l) :
    Intact H (l.foldl (fun v e => v.applyContract H e.1 e.2) v).accounts
      (l.foldl (fun v e => v.applyContract H e.1 e.2) v).helper (writtenAll values l) := by
  induction l generalizing v values with
  | nil => exact h.intact
  | cons e l ih =>
    obtain ⟨c, vs⟩ := e
    have hwritten : writtenAll (update values c (written (values c) vs.entries)) l =
        writtenAll values (⟨c, vs⟩ :: l) := by
      funext c' key
      rw [writtenAll, writtenAll]
      by_cases hc : c' = c
      · subst hc
        rw [List.dlookup_cons_eq, List.dlookup_eq_none.mpr (List.nodupKeys_cons.mp h.nodup).1, update_self]
      · rw [List.dlookup_cons_ne l ⟨c, vs⟩ hc, update_of_ne hc]
    rw [← hwritten]
    exact ih h.tail

end Pending

namespace Inv

variable (h : Inv H values v p)
include h

variable {e : Slots.Entry}

/-- The values in the state cache say whether their slot is in the tree. -/
theorem exist_iff {e' : Sigma fun _ : Word => ContractValueType} (he : e ∈ v.mStateCache.entries)
    (he' : e' ∈ e.2.entries) : e'.2.existInDB = true ↔ values e.1 e'.1 ≠ 0 := by
  have hstate := h.state e.1 e'.1
  have hdata : e.2.lookup e'.1 = some e'.2 := List.mem_dlookup e.2.nodupKeys he'
  rw [find_of_mem he, hdata] at hstate
  exact (hstate.data e'.2 rfl).1

theorem empty_of_no_account (he : e ∈ v.mStateCache.entries) (hnone : v.accounts e.1 = none) : e.2 = ∅ := by
  refine AList.eq_empty_of_lookup fun key => Option.eq_none_iff_forall_not_mem.mpr fun data hdata => ?_
  have hstate := h.state e.1 key
  rw [find_of_mem he] at hstate
  exact (hstate.data data hdata).2 hnone

theorem writtenAll_eq : writtenAll values v.mStateCache.entries = p.committed := by
  funext c key
  have hstate := (h.state c key).value_eq
  rw [find_eq_bind] at hstate
  rw [writtenAll]
  split
  next vs hvs =>
    have hvs' : v.mStateCache.lookup c = some vs := hvs
    rwa [hvs'] at hstate
  next hnone =>
    have hnone' : v.mStateCache.lookup c = none := hnone
    rwa [hnone'] at hstate

theorem pending : Pending H values v v.mStateCache.entries where
  nodup := v.mStateCache.nodupKeys
  intact := h.intact
  cached e _ := h.cache e.1
  exist _ he _ he' := h.exist_iff he he'
  account _ he := h.empty_of_no_account he

theorem applyContracts : Intact H (v.applyContracts H).accounts (v.applyContracts H).helper p.committed := by
  rw [← h.writtenAll_eq]
  exact h.pending.intact_foldl

end Inv

/-! ## Builds -/

def viewAfter (H : Hashes) (accounts : Accounts) (nodes : HashValue → Option SHAMap) (actions : List Action) : OpenView :=
  Run.final (OpenView.step H) (.start accounts nodes) actions

def plainAfter (values : AccountID → Word → Word) (actions : List Action) : Plain :=
  Run.final Plain.step ⟨values, values⟩ actions

/-- A read returns the value of the plain map if and only if the transaction is no query, has written the slot
itself, or the slot has the value it had at the beginning. The trees at the end of the build hold the values
of the committed transactions that are not zero, and nothing else. -/
theorem storage_refines_iff (H : Hashes) {nodes : HashValue → Option SHAMap} {actions : List Action}
    (hintact : Intact H accounts ⟨fun _ => none, nodes⟩ values)
    (hlegal : Run.Along (OpenView.step H) OpenView.Legal (.start accounts nodes) actions) :
    (∀ contract key, (viewAfter H accounts nodes actions).ctx.view contract ≠ none →
      (((viewAfter H accounts nodes actions).store H contract key).1 = (plainAfter values actions).running contract key ↔
        (viewAfter H accounts nodes actions).ctx.isQuery = false ∨
          ((viewAfter H accounts nodes actions).ctx.fetchFromDirty contract key).isSome = true ∨
          (plainAfter values actions).committed contract key = values contract key)) ∧
      Intact H ((viewAfter H accounts nodes actions).applyContracts H).accounts
        ((viewAfter H accounts nodes actions).applyContracts H).helper (plainAfter values actions).committed := by
  let rel (p : Plain) (v : OpenView) : Prop := Inv H values v p
  have hinv : rel (plainAfter values actions) (viewAfter H accounts nodes actions) :=
    hlegal.simulates (inv_start hintact) fun _ _ _ h hok => Inv.step h hok
  exact ⟨fun contract key _ => (hinv.store contract key).2, hinv.applyContracts⟩

/-- A hasher without collisions that never gives zero, with the keys as they are. -/
def demoHashes : Hashes where
  hash p := Encodable.encode p.code + 1
  inj := (Nat.succ_injective.comp Encodable.encode_injective).comp (Function.LeftInverse.injective ShaMap.Preimage.uncode_code)
  ne_zero _ := Nat.succ_ne_zero _
  realKey _ key := key
  realKey_inj _ := Function.injective_id

theorem intact_demo (H : Hashes) : Intact H (fun _ => none) ⟨fun _ => none, fun _ => none⟩ fun _ _ => 0 :=
  ⟨fun _ => ⟨.empty, rfl, holds_empty⟩, fun _ _ h => Option.noConfusion rfl (heq_of_eq h)⟩

/-- A contract is created and writes a value. The next transaction is a query. -/
def demoActions : List Action :=
  [.begin false, .createContractAccount 1, .setStore 1 5 7, .commit, .begin true]

theorem storage_refines_iff_demoActions :
    (∀ contract key, (viewAfter demoHashes (fun _ => none) (fun _ => none) demoActions).ctx.view contract ≠ none →
      (((viewAfter demoHashes (fun _ => none) (fun _ => none) demoActions).store demoHashes contract key).1 =
          (plainAfter (fun _ _ => 0) demoActions).running contract key ↔
        (viewAfter demoHashes (fun _ => none) (fun _ => none) demoActions).ctx.isQuery = false ∨
          ((viewAfter demoHashes (fun _ => none) (fun _ => none) demoActions).ctx.fetchFromDirty contract key).isSome = true ∨
          (plainAfter (fun _ _ => 0) demoActions).committed contract key = 0)) ∧
      Intact demoHashes
        ((viewAfter demoHashes (fun _ => none) (fun _ => none) demoActions).applyContracts demoHashes).accounts
        ((viewAfter demoHashes (fun _ => none) (fun _ => none) demoActions).applyContracts demoHashes).helper
        (plainAfter (fun _ _ => 0) demoActions).committed :=
  storage_refines_iff demoHashes (intact_demo demoHashes) ⟨trivial, rfl, Option.some_ne_none _, trivial, trivial, trivial⟩

/-- The query reads zero where the transaction before it has written seven. -/
theorem query_reads_past_state_cache :
    Run.Along (OpenView.step demoHashes) OpenView.Legal (.start (fun _ => none) fun _ => none)
        (demoActions ++ [.store 1 5]) ∧
      ((viewAfter demoHashes (fun _ => none) (fun _ => none) demoActions).store demoHashes 1 5).1 = 0 ∧
      (plainAfter (fun _ _ => 0) demoActions).running 1 5 = 7 :=
  ⟨⟨trivial, rfl, Option.some_ne_none _, trivial, trivial, Option.some_ne_none _, trivial⟩, by decide, by decide⟩

end Chainsql.Storage
