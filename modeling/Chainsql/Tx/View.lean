import Chainsql.Evm.Ledger
import Chainsql.Lib.Effects

/-!
# Ledger entries and the views of a transaction

`OpenView` is the ledger that a sequence of transactions is applied to, `ApplyView` what one transaction
has changed of it so far: a table of entries with what is to be done with them (`ApplyStateTable`), and
the values it has written to the storage of contracts. Of an entry the model has the parts that the
transaction engine itself reads; the others are in `rest`.

An insertion of an entry that exists, or the change or removal of one that does not, is a logic error,
which ends the program at the latest when the view is written to the ledger.
-/

namespace Chainsql.Tx

open Evm (Crash TER AccountID Word ContractValue LogEntry)

structure AccountRoot where
  balance : Int
  sequence : UInt32
  accountTxnID : Option Word
  disableMaster : Bool
  regularKey : Option AccountID
deriving DecidableEq

structure SignerEntry where
  account : AccountID
  weight : UInt16
deriving DecidableEq

/-- The types of entries that can hold ZXC, and the lists of signers. An escrow may hold an issued currency
instead of ZXC. -/
inductive Entry where
  | accountRoot (root : AccountRoot)
  | payChan (amount balance : Int)
  | escrow (amount : Int) (isZXC : Bool)
  | signerList (quorum : UInt32) (signers : List SignerEntry)
  | other
deriving DecidableEq

/-- `previousTxn` is present in the types of entries that transactions are threaded to. -/
structure SLE (σ : Type) where
  entry : Entry
  previousTxn : Option (Word × UInt32)
  rest : σ
deriving DecidableEq

variable {σ : Type}

def Entry.zxc : Entry → Int
  | accountRoot root => root.balance
  | payChan amount balance => amount - balance
  | escrow amount isZXC => if isZXC then amount else 0
  | signerList _ _ => 0
  | other => 0

def SLE.zxc (sle : SLE σ) : Int := sle.entry.zxc

/-- What the metadata of a transaction has that other parts of the program read. -/
structure TxMeta where
  result : TER
  contractLogData : List LogEntry

structure OpenView (σ : Type) where
  isOpen : Bool
  seq : UInt32
  entries : AList fun _ : Word => SLE σ
  /-- The metadata is built for a closed view only. -/
  txs : AList fun _ : Word => Option TxMeta
  dropsDestroyed : Int
  stateCache : AList fun _ : AccountID × Word => ContractValue

namespace OpenView

def read (v : OpenView σ) (k : Word) : Option (SLE σ) := v.entries.lookup k

/-- All ZXC in account roots, escrows and payment channels. -/
def total (v : OpenView σ) : Int := (v.entries.values.map SLE.zxc).sum

def rawErase (v : OpenView σ) (k : Word) : Except Crash (OpenView σ) :=
  match v.read k with
  | some _ => .ok { v with entries := v.entries.erase k }
  | none => .error .terminate

def rawInsert (v : OpenView σ) (k : Word) (sle : SLE σ) : Except Crash (OpenView σ) :=
  match v.read k with
  | some _ => .error .terminate
  | none => .ok { v with entries := v.entries.insert k sle }

def rawReplace (v : OpenView σ) (k : Word) (sle : SLE σ) : Except Crash (OpenView σ) :=
  match v.read k with
  | some _ => .ok { v with entries := v.entries.insert k sle }
  | none => .error .terminate

def rawDestroyZXC (v : OpenView σ) (fee : Int) : OpenView σ := { v with dropsDestroyed := v.dropsDestroyed + fee }

def rawTxInsert (v : OpenView σ) (id : Word) (data : Option TxMeta) : Except Crash (OpenView σ) :=
  match v.txs.lookup id with
  | some _ => .error .terminate
  | none => .ok { v with txs := v.txs.insert id data }

def setStateCache (v : OpenView σ) (slot : AccountID × Word) (value : ContractValue) : OpenView σ :=
  { v with stateCache := v.stateCache.insert slot value }

end OpenView

inductive Action where
  | cache | erase | insert | modify
deriving DecidableEq

structure Item (σ : Type) where
  action : Action
  sle : SLE σ

structure ApplyView (σ : Type) where
  items : AList fun _ : Word => Item σ
  dirty : AList fun _ : AccountID × Word => ContractValue

/-- The facts about types of entries that metadata depends on. -/
structure LedgerFormat (σ : Type) where
  /-- The account roots that the creation or removal of the entry is threaded to. -/
  owners : SLE σ → List Word
  /-- The statistics entry, if it is to be hidden. -/
  hideInMeta : SLE σ → Bool

namespace ApplyView

def start : ApplyView σ := ⟨∅, ∅⟩

/-- An entry that `peek` has found is changed and `update` is called for it. -/
def update (view : ApplyView σ) (k : Word) (sle : SLE σ) : ApplyView σ :=
  let action :=
    match view.items.lookup k with
    | some item => if item.action = .insert then .insert else .modify
    | none => .modify
  { view with items := view.items.insert k ⟨action, sle⟩ }

def size (view : ApplyView σ) : Nat := (view.items.entries.filter fun e => e.2.action ≠ .cache).length

def threadItem (id : Word) (seq : UInt32) (sle : SLE σ) : SLE σ :=
  { sle with previousTxn := sle.previousTxn.map fun _ => (id, seq) }

/-- An item that is written to the ledger is threaded in place. -/
def threadItems (id : Word) (seq : UInt32) (keys : List Word) (items : AList fun _ : Word => Item σ) :
    AList fun _ : Word => Item σ :=
  items.filterMapVal fun k item =>
    some (if k ∈ keys ∧ (item.action = .insert ∨ item.action = .modify) then
      { item with sle := threadItem id seq item.sle } else item)

/-- An entry that is not written otherwise is replaced by a threaded copy of itself. -/
def threadMods (id : Word) (seq : UInt32) (keys : List Word) (items : AList fun _ : Word => Item σ)
    (base : OpenView σ) : OpenView σ :=
  keys.foldl (fun base k =>
    if (items.lookup k).all fun item => item.action = .cache then
      match base.read k with
      | some sle => { base with entries := base.entries.insert k (threadItem id seq sle) }
      | none => base
    else base) base

def applyItem (base : OpenView σ) (k : Word) (item : Item σ) : Except Crash (OpenView σ) :=
  match item.action with
  | .cache => .ok base
  | .erase => base.rawErase k
  | .insert => base.rawInsert k item.sle
  | .modify => base.rawReplace k item.sle

def applyItems : OpenView σ → List (Sigma fun _ : Word => Item σ) → Except Crash (OpenView σ)
  | base, [] => .ok base
  | base, e :: es => do applyItems (← applyItem base e.1 e.2) es

def applyDirty (view : ApplyView σ) (base : OpenView σ) : OpenView σ :=
  view.dirty.entries.foldl (fun base e => base.setStateCache e.1 e.2) base

variable [DecidableEq σ] (fmt : LedgerFormat σ)

def threads (base : OpenView σ) (k : Word) (item : Item σ) : List Word :=
  if fmt.hideInMeta item.sle then []
  else
    match item.action with
    | .cache => []
    | .erase => (base.read k).elim [] fmt.owners
    | .insert => k :: fmt.owners item.sle
    | .modify => if base.read k = some item.sle then [] else [k]

def threaded (base : OpenView σ) (items : AList fun _ : Word => Item σ) : List Word :=
  items.entries.flatMap fun e => threads fmt base e.1 e.2

/-- `ApplyContext::apply`, with the ZXC that were destroyed before. -/
def apply (view : ApplyView σ) (base : OpenView σ) (id : Word) (data : TxMeta) (destroyed : Int) :
    Except Crash (OpenView σ) := do
  let keys := if base.isOpen then [] else threaded fmt base view.items
  let base₁ := threadMods id base.seq keys view.items base
  let base₁ ← base₁.rawTxInsert id (if base.isOpen then none else some data)
  let base₁ ← applyItems (base₁.rawDestroyZXC destroyed) (threadItems id base.seq keys view.items).entries
  return view.applyDirty base₁

end ApplyView

namespace OpenView

def zxcAt (v : OpenView σ) (k : Word) : Int := (v.read k).elim 0 SLE.zxc

theorem total_insert (v : OpenView σ) (k : Word) (sle : SLE σ) :
    ({ v with entries := v.entries.insert k sle } : OpenView σ).total + v.zxcAt k = v.total + sle.zxc :=
  AList.sum_values_insert v.entries k SLE.zxc sle

theorem total_erase (v : OpenView σ) (k : Word) :
    ({ v with entries := v.entries.erase k } : OpenView σ).total + v.zxcAt k = v.total :=
  AList.sum_values_erase v.entries k SLE.zxc

end OpenView

namespace ApplyView

variable {view : ApplyView σ} {base base' : OpenView σ} {k k' : Word} {item : Item σ} {id : Word} {seq : UInt32}

/-- What is added to the ZXC of the ledger when the item is applied. -/
def delta (base : OpenView σ) (k : Word) (item : Item σ) : Int :=
  match item.action with
  | .cache => 0
  | .erase => -base.zxcAt k
  | .insert => item.sle.zxc
  | .modify => item.sle.zxc - base.zxcAt k

theorem applyItem_cases (h : applyItem base k item = .ok base') :
    item.action = .cache ∧ base' = base ∨
      item.action = .erase ∧ base' = { base with entries := base.entries.erase k } ∨
      (item.action = .insert ∧ base.read k = none ∨ item.action = .modify) ∧
        base' = { base with entries := base.entries.insert k item.sle } := by
  cases haction : item.action <;>
    simp only [applyItem, haction, OpenView.rawErase, OpenView.rawInsert, OpenView.rawReplace] at h
  case cache => simpa using h.symm
  all_goals
    split at h <;> cases h
    simp_all

theorem applyItem_total (h : applyItem base k item = .ok base') :
    base'.total = base.total + delta base k item := by
  have herase := base.total_erase k
  have hinsert := base.total_insert k item.sle
  rcases applyItem_cases h with ⟨haction, rfl⟩ | ⟨haction, rfl⟩ | ⟨⟨haction, hread⟩ | haction, rfl⟩ <;>
    simp only [delta, haction]
  · omega
  · omega
  · rw [OpenView.zxcAt, hread, Option.elim] at hinsert
    omega
  · omega

theorem applyItem_read_ne (h : applyItem base k item = .ok base') (hne : k' ≠ k) :
    base'.read k' = base.read k' := by
  rcases applyItem_cases h with ⟨-, rfl⟩ | ⟨-, rfl⟩ | ⟨-, rfl⟩
  · rfl
  · exact AList.lookup_erase_ne hne
  · exact AList.lookup_insert_ne hne

variable {es : List (Sigma fun _ : Word => Item σ)}

theorem applyItems_total (hnd : es.NodupKeys) (h : applyItems base es = .ok base') :
    base'.total = base.total + (es.map fun e => delta base e.1 e.2).sum := by
  induction es generalizing base with
  | nil =>
    cases h
    simp
  | cons e es ih =>
    obtain ⟨base₁, h₁, h⟩ := Except.bind_eq_ok.mp h
    rw [List.nodupKeys_cons] at hnd
    have hdelta : es.map (fun e => delta base₁ e.1 e.2) = es.map fun e => delta base e.1 e.2 := by
      refine List.map_congr_left fun e' he' => ?_
      have hne : e'.1 ≠ e.1 := by
        rintro heq
        exact hnd.1 (heq ▸ List.mem_keys_of_mem he')
      simp only [delta, OpenView.zxcAt, applyItem_read_ne h₁ hne]
    rw [ih hnd.2 h, hdelta, applyItem_total h₁, List.map_cons, List.sum_cons]
    omega

def net (view : ApplyView σ) (base : OpenView σ) : Int :=
  (view.items.entries.map fun e => delta base e.1 e.2).sum

theorem threadMods_keeps (id : Word) (seq : UInt32) (keys : List Word) (items : AList fun _ : Word => Item σ)
    (base : OpenView σ) :
    threadMods id seq keys items base = { base with entries := (threadMods id seq keys items base).entries } ∧
      (threadMods id seq keys items base).total = base.total ∧
      ∀ k, (threadMods id seq keys items base).zxcAt k = base.zxcAt k := by
  induction keys generalizing base with
  | nil => exact ⟨rfl, rfl, fun _ => rfl⟩
  | cons k keys ih =>
    rw [threadMods, List.foldl_cons]
    split
    · split
      next sle hsle =>
        obtain ⟨hframe, htotal, hat⟩ := ih { base with entries := base.entries.insert k (threadItem id seq sle) }
        have hk : base.zxcAt k = sle.zxc := by rw [OpenView.zxcAt, hsle, Option.elim]
        refine ⟨hframe, htotal.trans ?_, fun k' => (hat k').trans ?_⟩
        · have hins := base.total_insert k (threadItem id seq sle)
          rw [hk] at hins
          exact add_right_cancel hins
        · by_cases hne : k' = k
          · subst hne
            rw [hk, OpenView.zxcAt, OpenView.read, AList.lookup_insert]
            rfl
          · rw [OpenView.zxcAt, OpenView.read, AList.lookup_insert_ne hne]
            rfl
      next => exact ih base
    · exact ih base

theorem applyItems_frame (h : applyItems base es = .ok base') : base' = { base with entries := base'.entries } := by
  induction es generalizing base with
  | nil =>
    cases h
    rfl
  | cons e es ih =>
    obtain ⟨base₁, h₁, h⟩ := Except.bind_eq_ok.mp h
    have hframe : base₁ = { base with entries := base₁.entries } := by
      rcases applyItem_cases h₁ with ⟨-, rfl⟩ | ⟨-, rfl⟩ | ⟨-, rfl⟩ <;> rfl
    rw [ih h, hframe]

theorem threadItems_delta (id : Word) (seq : UInt32) (keys : List Word) (items : AList fun _ : Word => Item σ)
    (base : OpenView σ) :
    ((threadItems id seq keys items).entries.map fun e => delta base e.1 e.2) =
      items.entries.map fun e => delta base e.1 e.2 := by
  rw [threadItems, AList.filterMapVal, List.map_filterMap]
  rw [← List.filterMap_eq_map']
  refine List.filterMap_congr fun e _ => ?_
  split <;> rfl

theorem applyDirty_frame (view : ApplyView σ) (base : OpenView σ) :
    view.applyDirty base = { base with stateCache := (view.applyDirty base).stateCache } := by
  unfold applyDirty
  induction view.dirty.entries generalizing base with
  | nil => rfl
  | cons e es ih => exact ih _

variable [DecidableEq σ] {fmt : LedgerFormat σ} {data : TxMeta} {destroyed : Int}

/-- The transaction is new to the ledger. The record of it and the destroyed ZXC are added, and then what
the table and the cache of the view say. -/
theorem apply_eq_ok (h : view.apply fmt base id data destroyed = .ok base') :
    base.txs.lookup id = none ∧ ∃ keys applied,
      keys = (if base.isOpen then [] else threaded fmt base view.items) ∧
      applyItems { threadMods id base.seq keys view.items base with
          txs := base.txs.insert id (if base.isOpen then none else some data)
          dropsDestroyed := base.dropsDestroyed + destroyed }
        (threadItems id base.seq keys view.items).entries = .ok applied ∧
      base' = view.applyDirty applied := by
  obtain ⟨base₁, h₁, h⟩ := Except.bind_eq_ok.mp h
  obtain ⟨applied, happlied, h⟩ := Except.bind_eq_ok.mp h
  cases h
  rw [(threadMods_keeps ..).1] at h₁
  unfold OpenView.rawTxInsert at h₁
  split at h₁ <;> cases h₁
  refine ⟨‹_›, _, applied, rfl, ?_, rfl⟩
  rw [(threadMods_keeps ..).1]
  exact happlied

theorem apply_frame (h : view.apply fmt base id data destroyed = .ok base') :
    base.txs.lookup id = none ∧
      base' = { base with
        entries := base'.entries
        txs := base.txs.insert id (if base.isOpen then none else some data)
        dropsDestroyed := base.dropsDestroyed + destroyed
        stateCache := base'.stateCache } := by
  obtain ⟨hnew, keys, applied, -, happlied, rfl⟩ := apply_eq_ok h
  refine ⟨hnew, ?_⟩
  rw [applyDirty_frame, applyItems_frame happlied, (threadMods_keeps ..).1]

theorem apply_total (h : view.apply fmt base id data destroyed = .ok base') :
    base'.total = base.total + view.net base := by
  obtain ⟨-, keys, applied, -, happlied, rfl⟩ := apply_eq_ok h
  obtain ⟨-, hmods, hat⟩ := threadMods_keeps id base.seq keys view.items base
  have hdelta : delta (threadMods id base.seq keys view.items base) = delta base := by
    funext k item
    simp only [delta, hat]
  have htotal := applyItems_total (threadItems id base.seq _ view.items).nodupKeys happlied
  rw [threadItems_delta] at htotal
  rw [applyDirty_frame]
  exact htotal.trans (congrArg₂ (· + ·) hmods
    (congrArg (fun d => (view.items.entries.map fun e => d e.1 e.2).sum) hdelta))

end ApplyView

end Chainsql.Tx
