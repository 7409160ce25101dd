import Chainsql.Digest
import Chainsql.Lib.Assoc
import Chainsql.Views.DirRuns

/-!
# The directory of contracts

A contract account is entered in the directory when it is created, and keeps the number of its page. A node
that acquires a ledger fetches the storage trees of the accounts in this directory. Accounts that exist before
a contract is created at their address are never entered.
-/

namespace Chainsql.Storage

open Function

open Views (LogicError Dir)

inductive NodeType where
  | NODE_TYPE_CONTRACTKEY | NODE_TYPE_AUTHORIZE | NODE_TYPE_AUTHORIZER
deriving DecidableEq

/-- An account. Code runs for accounts at whose address a contract has been created, whether or not the
account was there before. -/
structure AccountRoot where
  /-- The root hash of `sfStorageOverlay`. -/
  storageOverlay : Option HashValue
  storageExtension : AList fun _ : NodeType => ℕ
  isContract : Bool

/-- The accounts by the keys of their entries, the pages of `keylet::contract_index()`, and the contracts with
values in the state cache of the current build. -/
structure Ledger (κ : Type) where
  accounts : κ → Option AccountRoot
  index : Dir κ
  stateCache : List κ

namespace Ledger

variable {κ : Type} [LinearOrder κ] (s : Ledger κ)

def setAccount (a : κ) (account : Option AccountRoot) : Ledger κ :=
  { s with accounts := Function.update s.accounts a account }

/-! ## Transactions -/

def activate (a : κ) : Ledger κ := s.setAccount a (some ⟨none, ∅, false⟩)

/-- `createContractAccount`, before the code runs. -/
def createContractAccount (a : κ) : Except LogicError (Ledger κ) :=
  match s.accounts a with
  | some account => .ok (s.setAccount a (some { account with isContract := true }))
  | none => do
    let (result, index) ← Views.dirAdd s.index false a
    match result with
    | none => return s
    | some page =>
      return { s.setAccount a (some ⟨none, (∅ : AList _).insert .NODE_TYPE_CONTRACTKEY page, true⟩) with index }

def setStore (a : κ) : Ledger κ := { s with stateCache := a :: s.stateCache }

/-- The entries of an authorised account. -/
def authorize (a : κ) (authorizer : Option (ℕ × ℕ)) : Ledger κ :=
  match s.accounts a with
  | none => s
  | some account =>
    let mapExtension := match authorizer with
      | some (admin, page) =>
        (account.storageExtension.insert .NODE_TYPE_AUTHORIZE page).insert .NODE_TYPE_AUTHORIZER admin
      | none => (account.storageExtension.erase .NODE_TYPE_AUTHORIZER).erase .NODE_TYPE_AUTHORIZE
    s.setAccount a (some { account with storageExtension := mapExtension })

/-- Whether the directories have been cleaned up. `authRemoved` tells whether the key was in the directory of
the authorizer. -/
def cleanUpDirOnDeleteAccount (a : κ) (account : AccountRoot) (authRemoved : Bool) : Except LogicError (Bool × Dir κ) := do
  let (removed, index) ← match account.storageExtension.lookup .NODE_TYPE_CONTRACTKEY with
    | some page => Views.dirRemove s.index page a true
    | none => .ok (true, s.index)
  if removed = false then return (false, index)
  let authorized := (account.storageExtension.lookup .NODE_TYPE_AUTHORIZER).isSome &&
    (account.storageExtension.lookup .NODE_TYPE_AUTHORIZE).isSome
  return (!authorized || authRemoved, index)

/-- A contract destructs itself, or an account is deleted. The transaction is not applied if the clean-up fails. -/
def delete (a : κ) (authRemoved : Bool) : Except LogicError (Ledger κ) :=
  match s.accounts a with
  | none => .ok s
  | some account => do
    let (cleaned, index) ← s.cleanUpDirOnDeleteAccount a account authRemoved
    return if cleaned then { s.setAccount a none with index } else s

/-- `ContractHelper::apply` at the end of a build, with the hashes of the trees. -/
def applyStorage (root : κ → HashValue) : Ledger κ where
  accounts a := (s.accounts a).map fun account =>
    if s.stateCache.contains a then { account with storageOverlay := some (root a) } else account
  index := s.index
  stateCache := []

/-! ## Acquiring a ledger -/

def contractRoots (keys : List κ) : List HashValue :=
  keys.filterMap fun a => ((s.accounts a).bind (·.storageOverlay)).filter (· ≠ zeroHash)

/-- The storage trees that `InboundLedger::checkLoadContractRoots` schedules. -/
def checkLoadContractRoots (fuel : ℕ) : Option (List HashValue) :=
  (Views.forEachItem s.index fuel 0).map s.contractRoots

/-! ## Runs -/

inductive Op (κ : Type) where
  | activate (a : κ)
  | createContractAccount (a : κ)
  | setStore (a : κ)
  | authorize (a : κ) (authorizer : Option (ℕ × ℕ))
  | delete (a : κ) (authRemoved : Bool)
  | applyStorage (root : κ → HashValue)

def init : Ledger κ := ⟨fun _ => none, .empty, []⟩

def step : Op κ → Except LogicError (Ledger κ)
  | .activate a => .ok (s.activate a)
  | .createContractAccount a => s.createContractAccount a
  | .setStore a => .ok (s.setStore a)
  | .authorize a authorizer => .ok (s.authorize a authorizer)
  | .delete a authRemoved => s.delete a authRemoved
  | .applyStorage root => .ok (s.applyStorage root)

/-- Accounts are created where there is none, and only contracts write to their storage. -/
def Legal : Op κ → Prop
  | .activate a => s.accounts a = none
  | .setStore a => ∃ account, s.accounts a = some account ∧ account.isContract = true
  | _ => True

def isEntered (account : AccountRoot) : Prop :=
  (account.storageExtension.lookup .NODE_TYPE_CONTRACTKEY).isSome = true

/-- Contracts are created at addresses without an account, or with one that has been entered; and an account
whose contract has written to its storage in the current build is not created anew by a payment. -/
def Indexed : Op κ → Prop
  | .createContractAccount a => ∀ account, s.accounts a = some account → isEntered account
  | .activate a => a ∉ s.stateCache
  | _ => True

def HasStorage (a : κ) (root : HashValue) : Prop :=
  ∃ account, s.accounts a = some account ∧ account.storageOverlay = some root ∧ root ≠ zeroHash

def Listed (a : κ) : Prop := ∃ n page, s.index.find n = some page ∧ a ∈ page.indexes

structure Complete : Prop where
  listed : ∀ a root, s.HasStorage a root → s.Listed a
  exists_account : ∀ a, s.Listed a → s.accounts a ≠ none
  scheduled : ∃ roots enough, (∀ fuel, enough ≤ fuel → s.checkLoadContractRoots fuel = some roots) ∧
    ∀ a root, s.HasStorage a root → root ∈ roots

/-! ## The invariant -/

def page (a : κ) : Option ℕ := (s.accounts a).bind fun account => account.storageExtension.lookup .NODE_TYPE_CONTRACTKEY

/-- The accounts that run code or have storage are entered, each on the page that it has kept. -/
structure Inv : Prop where
  whole : Views.Whole s.index s.page
  entered : ∀ a account, s.accounts a = some account →
    account.isContract = true ∨ a ∈ s.stateCache ∨ (∃ root, account.storageOverlay = some root ∧ root ≠ zeroHash) →
    isEntered account

variable {s} {a : κ} {account account' : AccountRoot}

theorem page_setAccount (account : Option AccountRoot) :
    (s.setAccount a account).page = Function.update s.page a
      (account.bind fun account => account.storageExtension.lookup .NODE_TYPE_CONTRACTKEY) := by
  funext b
  show (update s.accounts a account b).bind _ = _
  by_cases hb : b = a
  · rw [hb, update_self, update_self]
  · rw [update_of_ne hb, update_of_ne hb, page]

omit [LinearOrder κ] in
theorem inv_init : (init : Ledger κ).Inv :=
  ⟨.inl ⟨fun _ => rfl, fun _ => rfl⟩, fun _ _ h => Option.noConfusion rfl (heq_of_eq h)⟩

namespace Inv

variable (h : s.Inv)
include h

theorem setAccount (hpage : account.storageExtension.lookup .NODE_TYPE_CONTRACTKEY = s.page a)
    (hentered : account.isContract = true ∨ a ∈ s.stateCache ∨
      (∃ root, account.storageOverlay = some root ∧ root ≠ zeroHash) → isEntered account) :
    (s.setAccount a (some account)).Inv := by
  refine ⟨?_, fun b account' hb => ?_⟩
  · rw [page_setAccount, Option.bind_some, hpage, update_eq_self]
    exact h.whole
  · replace hb : update s.accounts a (some account) b = some account' := hb
    by_cases hba : b = a
    · rw [hba, update_self] at hb
      cases hb
      rw [hba]
      exact hentered
    · rw [update_of_ne hba] at hb
      exact h.entered b account' hb

theorem activate (hnew : s.accounts a = none) (hcache : a ∉ s.stateCache) : (s.activate a).Inv := by
  refine h.setAccount ?_ ?_
  · rw [page, hnew]
    rfl
  · rintro (hcontract | hmem | ⟨root, hroot, -⟩)
    · cases hcontract
    · exact absurd hmem hcache
    · cases hroot

theorem createContractAccount (hindexed : ∀ account, s.accounts a = some account → isEntered account) :
    ∃ s', s.createContractAccount a = .ok s' ∧ s'.Inv := by
  rw [Ledger.createContractAccount]
  cases ha : s.accounts a with
  | some account =>
    refine ⟨_, rfl, h.setAccount ?_ fun _ => hindexed account ha⟩
    rw [page, ha]
    rfl
  | none =>
    have hnone : s.page a = none := by rw [page, ha, Option.bind_none]
    obtain ⟨result, index, hadd, hwhole, -⟩ := h.whole.dirAdd false hnone
    rw [hadd]
    cases result with
    | none => exact ⟨s, rfl, h⟩
    | some page =>
      refine ⟨_, rfl, ?_, fun b account' hb hwhy => ?_⟩
      · show Views.Whole index (s.setAccount a _).page
        rw [page_setAccount, Option.bind_some]
        exact hwhole
      · replace hb : update s.accounts a _ b = some account' := hb
        by_cases hba : b = a
        · rw [hba, update_self] at hb
          cases hb
          rw [isEntered, AList.lookup_insert, Option.isSome_some]
        · rw [update_of_ne hba] at hb
          exact h.entered b account' hb hwhy

omit [LinearOrder κ] in
theorem setStore (hcontract : ∃ account, s.accounts a = some account ∧ account.isContract = true) : (s.setStore a).Inv := by
  refine ⟨h.whole, fun b account hb hwhy => ?_⟩
  rcases hwhy with hwhy | hmem | hwhy
  · exact h.entered b account hb (.inl hwhy)
  · rcases List.mem_cons.mp hmem with rfl | hmem
    · obtain ⟨account', ha, hrun⟩ := hcontract
      obtain rfl := Option.some.inj (ha.symm.trans hb)
      exact h.entered b account' hb (.inl hrun)
    · exact h.entered b account hb (.inr (.inl hmem))
  · exact h.entered b account hb (.inr (.inr hwhy))

theorem authorize (authorizer : Option (ℕ × ℕ)) : (s.authorize a authorizer).Inv := by
  rw [Ledger.authorize]
  split
  · exact h
  next account ha =>
    have hpage : s.page a = account.storageExtension.lookup .NODE_TYPE_CONTRACTKEY := by rw [page, ha, Option.bind_some]
    cases authorizer with
    | some p =>
      have hkeep : ((account.storageExtension.insert .NODE_TYPE_AUTHORIZE p.2).insert .NODE_TYPE_AUTHORIZER p.1).lookup
          .NODE_TYPE_CONTRACTKEY = account.storageExtension.lookup .NODE_TYPE_CONTRACTKEY := by
        rw [AList.lookup_insert_ne (by decide), AList.lookup_insert_ne (by decide)]
      refine h.setAccount (hkeep.trans hpage.symm) fun hwhy => ?_
      rw [isEntered, hkeep]
      exact h.entered a account ha hwhy
    | none =>
      have hkeep : ((account.storageExtension.erase .NODE_TYPE_AUTHORIZER).erase .NODE_TYPE_AUTHORIZE).lookup
          .NODE_TYPE_CONTRACTKEY = account.storageExtension.lookup .NODE_TYPE_CONTRACTKEY := by
        rw [AList.lookup_erase_ne (by decide), AList.lookup_erase_ne (by decide)]
      refine h.setAccount (hkeep.trans hpage.symm) fun hwhy => ?_
      rw [isEntered, hkeep]
      exact h.entered a account ha hwhy

theorem cleanUpDirOnDeleteAccount (ha : s.accounts a = some account) (authRemoved : Bool) :
    ∃ cleaned index, s.cleanUpDirOnDeleteAccount a account authRemoved = .ok (cleaned, index) ∧
      Views.Whole index (Function.update s.page a none) := by
  have hpage : s.page a = account.storageExtension.lookup .NODE_TYPE_CONTRACTKEY := by rw [page, ha, Option.bind_some]
  rw [Ledger.cleanUpDirOnDeleteAccount]
  cases hkey : account.storageExtension.lookup .NODE_TYPE_CONTRACTKEY with
  | none =>
    rw [hkey] at hpage
    refine ⟨_, s.index, rfl, ?_⟩
    rw [← hpage, update_eq_self]
    exact h.whole
  | some page =>
    rw [hkey] at hpage
    obtain ⟨ps, hring⟩ := h.whole.ring_of_given hpage
    obtain ⟨index, hremove, hwhole⟩ := hring.dirRemove hpage true
    simp only [hremove]
    exact ⟨_, index, rfl, hwhole⟩

theorem delete (authRemoved : Bool) : ∃ s', s.delete a authRemoved = .ok s' ∧ s'.Inv := by
  rw [Ledger.delete]
  cases ha : s.accounts a with
  | none => exact ⟨s, rfl, h⟩
  | some account =>
    obtain ⟨cleaned, index, hclean, hwhole⟩ := h.cleanUpDirOnDeleteAccount ha authRemoved
    simp only [hclean]
    cases cleaned with
    | false => exact ⟨s, rfl, h⟩
    | true =>
      refine ⟨_, rfl, ?_, fun b account' hb hwhy => ?_⟩
      · show Views.Whole index (s.setAccount a none).page
        rw [page_setAccount]
        exact hwhole
      · replace hb : update s.accounts a none b = some account' := hb
        by_cases hba : b = a
        · rw [hba, update_self] at hb
          cases hb
        · rw [update_of_ne hba] at hb
          exact h.entered b account' hb hwhy

theorem applyStorage (root : κ → HashValue) : (s.applyStorage root).Inv := by
  have hext : ∀ b account', (s.applyStorage root).accounts b = some account' →
      ∃ account, s.accounts b = some account ∧ account'.storageExtension = account.storageExtension ∧
        account'.isContract = account.isContract ∧ (b ∈ s.stateCache ∨ account'.storageOverlay = account.storageOverlay) := by
    intro b account' hb
    obtain ⟨account, ha, hmap⟩ := Option.map_eq_some_iff.mp hb
    refine ⟨account, ha, ?_⟩
    rw [← hmap]
    split
    next hmem => exact ⟨rfl, rfl, .inl (List.contains_iff_mem.mp hmem)⟩
    · exact ⟨rfl, rfl, .inr rfl⟩
  refine ⟨?_, fun b account' hb hwhy => ?_⟩
  · have hpage : (s.applyStorage root).page = s.page := by
      funext b
      rw [page, Ledger.applyStorage, Option.bind_map]
      congr 1
      funext account
      split <;> rfl
    rw [hpage]
    exact h.whole
  · obtain ⟨account, ha, hsame, hcontract, hroot⟩ := hext b account' hb
    rw [isEntered, hsame]
    refine h.entered b account ha ?_
    rcases hwhy with hwhy | hmem | hwhy
    · exact .inl (hcontract ▸ hwhy)
    · cases hmem
    · rcases hroot with hmem | hroot
      · exact .inr (.inl hmem)
      · exact .inr (.inr (hroot ▸ hwhy))

theorem step {op : Op κ} (hok : s.Legal op ∧ s.Indexed op) : ∃ s', s.step op = .ok s' ∧ s'.Inv := by
  cases op with
  | activate a => exact ⟨_, rfl, h.activate hok.1 hok.2⟩
  | createContractAccount a => exact h.createContractAccount hok.2
  | setStore a => exact ⟨_, rfl, h.setStore hok.1⟩
  | authorize a authorizer => exact ⟨_, rfl, h.authorize authorizer⟩
  | delete a authRemoved => exact h.delete authRemoved
  | applyStorage root => exact ⟨_, rfl, h.applyStorage root⟩

omit [LinearOrder κ] in
theorem page_of_hasStorage {root : HashValue} (hstorage : s.HasStorage a root) : ∃ n, s.page a = some n := by
  obtain ⟨account, ha, hroot, hne⟩ := hstorage
  have hentered := h.entered a account ha (.inr (.inr ⟨root, hroot, hne⟩))
  rw [page, ha]
  exact Option.isSome_iff_exists.mp hentered

omit [LinearOrder κ] in
theorem listed_iff : s.Listed a ↔ ∃ n, s.page a = some n := by
  have hsound : Views.DirState.Sound ⟨s.index, s.page⟩ := h.whole.sound
  exact exists_congr fun n => (hsound.keys a n).symm

omit [LinearOrder κ] in
theorem scheduled : ∃ roots enough, (∀ fuel, enough ≤ fuel → s.checkLoadContractRoots fuel = some roots) ∧
    ∀ a root, s.HasStorage a root → root ∈ roots := by
  rcases h.whole with ⟨habsent, hnone⟩ | ⟨ps, hring⟩
  · refine ⟨[], 1, fun fuel hfuel => ?_, fun a root hstorage => ?_⟩
    · obtain ⟨fuel, rfl⟩ := Nat.exists_eq_add_of_le' hfuel
      rw [checkLoadContractRoots, Views.forEachItem, habsent]
      rfl
    · obtain ⟨n, hn⟩ := h.page_of_hasStorage hstorage
      rw [hnone] at hn
      cases hn
  · obtain ⟨keys, enough, hkeys, hmem⟩ := hring.forEachItem
    refine ⟨s.contractRoots keys, enough, fun fuel hfuel => ?_, fun a root hstorage => ?_⟩
    · rw [checkLoadContractRoots, hkeys fuel hfuel, Option.map_some]
    · obtain ⟨n, hn⟩ := h.page_of_hasStorage hstorage
      obtain ⟨account, ha, hroot, hne⟩ := hstorage
      refine List.mem_filterMap.mpr ⟨a, (hmem a).mpr ?_, ?_⟩
      · rw [hn, Option.isSome_some]
      · rw [ha, Option.bind_some, hroot, Option.filter_some, if_pos (decide_eq_true hne)]

omit [LinearOrder κ] in
theorem complete : s.Complete := by
  refine ⟨fun a root hstorage => h.listed_iff.mpr (h.page_of_hasStorage hstorage), fun a hlisted hnone => ?_, h.scheduled⟩
  obtain ⟨n, hn⟩ := h.listed_iff.mp hlisted
  rw [page, hnone] at hn
  cases hn

end Inv

/-- In every run that enters its contracts no operation fails, the directory is complete, and the storage trees
of all accounts are scheduled when the ledger is acquired. -/
theorem contract_index_complete (ops : List (Op κ))
    (hrun : Run.AlongOk step (fun s op => s.Legal op ∧ s.Indexed op) init ops) :
    ∃ s, Run.reach step init ops = .ok s ∧ s.Complete := by
  obtain ⟨s, hreach, hinv⟩ := hrun.reaches Inv inv_init fun s op h => h.step
  exact ⟨s, hreach, hinv.complete⟩

def demoOps : List (Op ℕ) := [.activate 1, .createContractAccount 2, .setStore 2, .applyStorage fun _ => 7]

theorem contract_index_complete_demoOps :
    ∃ s, Run.reach step init demoOps = .ok s ∧ s.Complete ∧ s.HasStorage 2 7 := by
  obtain ⟨s, hreach, hcomplete⟩ := contract_index_complete demoOps <|
    .cons ⟨rfl, List.not_mem_nil⟩ rfl <| .cons ⟨trivial, fun _ h => by cases h⟩ rfl <|
      .cons ⟨⟨_, rfl, rfl⟩, trivial⟩ rfl <| .cons ⟨trivial, trivial⟩ rfl trivial
  cases hreach
  exact ⟨_, rfl, hcomplete, _, rfl, rfl, by decide⟩

/-- An account exists before a contract is created at its address. -/
def unlistedOps : List (Op ℕ) := [.activate 2, .createContractAccount 2, .setStore 2, .applyStorage fun _ => 7]

/-- The contract has storage, and is not in the directory. -/
theorem existing_account_unlisted :
    Run.AlongOk step Legal init unlistedOps ∧
      ∃ s, Run.reach step init unlistedOps = .ok s ∧ s.HasStorage 2 7 ∧ s.index.entries = [] ∧
        s.checkLoadContractRoots 1 = some [] := by
  refine ⟨.cons rfl rfl <| .cons trivial rfl <| .cons ⟨_, rfl, rfl⟩ rfl <| .cons trivial rfl trivial, _, rfl, ?_, rfl, rfl⟩
  exact ⟨_, rfl, rfl, by decide⟩

end Ledger

end Chainsql.Storage
