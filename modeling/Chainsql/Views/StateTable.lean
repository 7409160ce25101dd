import Chainsql.Lib.Run
import Chainsql.Lib.SortedMap

/-!
# Views over a ledger

A ledger, an `OpenView` with a `RawStateTable` over it, and an `ApplyStateTable` over that. A table holds an
action for each key that has been touched, and asks the view below for the other keys.

Keys are not zero, and a keylet has the type of the entry under its key: the code asserts both.
-/

namespace Chainsql.Views

structure LogicError where
  text : String

abbrev LedgerEntryType := Int

def ltANY : LedgerEntryType := -3
def ltCHILD : LedgerEntryType := -2
def ltINVALID : LedgerEntryType := -1
def ltDIR_NODE : LedgerEntryType := 100

structure Entry (δ : Type) where
  type : LedgerEntryType
  data : δ
deriving DecidableEq

structure SLE (κ δ : Type) where
  key : κ
  entry : Entry δ
deriving DecidableEq

structure Keylet (κ : Type) where
  type : LedgerEntryType
  key : κ

variable {κ δ : Type} [LinearOrder κ]

omit [LinearOrder κ] in
def Keylet.check (k : Keylet κ) (sle : SLE κ δ) : Bool :=
  if k.type = ltANY then true
  else if k.type = ltINVALID then false
  else if k.type = ltCHILD then sle.entry.type ≠ ltDIR_NODE
  else sle.entry.type = k.type

structure ReadView (κ δ : Type) where
  existsItem : Keylet κ → Bool
  read : Keylet κ → Option (SLE κ δ)
  succ : κ → Option κ → Option κ

structure RawView (σ κ δ : Type) where
  rawErase : SLE κ δ → σ → Except LogicError σ
  rawInsert : SLE κ δ → σ → Except LogicError σ
  rawReplace : SLE κ δ → σ → Except LogicError σ

/-! ## `Ledger` -/

abbrev Ledger (κ δ : Type) [LinearOrder κ] := SortedMap κ (Entry δ)

namespace Ledger

def read (m : Ledger κ δ) (k : Keylet κ) : Option (SLE κ δ) :=
  ((m.find k.key).map (SLE.mk k.key)).filter k.check

def view (m : Ledger κ δ) : ReadView κ δ where
  existsItem k := (m.find k.key).isSome
  read := read m
  succ key last := (m.next key).filter (IsNext.before last)

def raw : RawView (Ledger κ δ) κ δ where
  rawErase sle m :=
    if (m.find sle.key).isSome then .ok (m.erase sle.key) else .error ⟨"Ledger::rawErase: key not found"⟩
  rawInsert sle m :=
    if (m.find sle.key).isSome then .error ⟨"Ledger::rawInsert: key already exists"⟩
    else .ok (m.set sle.key sle.entry)
  rawReplace sle m :=
    if (m.find sle.key).isSome then .ok (m.set sle.key sle.entry)
    else .error ⟨"Ledger::rawReplace: key not found"⟩

end Ledger

/-! ## What the tables have in common -/

/-- The successor: that of the base without what is erased here, or what is in the table. Each turn of the
first loop but the last finds another item of the table. -/
def tableSucc {β : Type} (erased : β → Bool) (items : SortedMap κ β) (base : κ → Option κ → Option κ) (key : κ)
    (last : Option κ) : Option κ :=
  let next := IsNext.skip (fun k => base k last) (fun k => (items.find k).any erased) (items.entries.length + 1) key
  let iter := ((items.upperBound key).filter fun e => !erased e.2).head?.map Prod.fst
  (IsNext.least next iter).filter (IsNext.before last)

/-- What a table with items of the kind `β` answers. -/
def tableView {β : Type} (erased : β → Bool) (sle : β → SLE κ δ) (items : SortedMap κ β) (base : ReadView κ δ) :
    ReadView κ δ where
  existsItem k :=
    match items.find k.key with
    | none => base.existsItem k
    | some item => if erased item then false else k.check (sle item)
  read k :=
    match items.find k.key with
    | none => base.read k
    | some item => if erased item then none else if k.check (sle item) then some (sle item) else none
  succ := tableSucc erased items base.succ

/-! ## `RawStateTable` -/

namespace RawStateTable

inductive Action where
  | erase | insert | replace
deriving DecidableEq

abbrev Item (κ δ : Type) := Action × SLE κ δ

end RawStateTable

abbrev RawStateTable (κ δ : Type) [LinearOrder κ] := SortedMap κ (RawStateTable.Item κ δ)

namespace RawStateTable

variable (t : RawStateTable κ δ) (sle : SLE κ δ)

def view (base : ReadView κ δ) : ReadView κ δ := tableView (fun item => item.1 = .erase) Prod.snd t base

def erase : Except LogicError (RawStateTable κ δ) :=
  match t.find sle.key with
  | none => .ok (t.set sle.key (.erase, sle))
  | some (.erase, _) => .error ⟨"RawStateTable::erase: already erased"⟩
  | some (.insert, _) => .ok (SortedMap.erase t sle.key)
  | some (.replace, _) => .ok (t.set sle.key (.erase, sle))

def insert : Except LogicError (RawStateTable κ δ) :=
  match t.find sle.key with
  | none => .ok (t.set sle.key (.insert, sle))
  | some (.erase, _) => .ok (t.set sle.key (.replace, sle))
  | some (.insert, _) => .error ⟨"RawStateTable::insert: already inserted"⟩
  | some (.replace, _) => .error ⟨"RawStateTable::insert: already exists"⟩

def replace : Except LogicError (RawStateTable κ δ) :=
  match t.find sle.key with
  | none => .ok (t.set sle.key (.replace, sle))
  | some (.erase, _) => .error ⟨"RawStateTable::replace: was erased"⟩
  | some (action, _) => .ok (t.set sle.key (action, sle))

/-- `OpenView` is written through its table. -/
def raw : RawView (RawStateTable κ δ) κ δ where
  rawErase sle t := t.erase sle
  rawInsert sle t := t.insert sle
  rawReplace sle t := t.replace sle

def applyItem {σ : Type} (to_ : RawView σ κ δ) (s : σ) (e : κ × Item κ δ) : Except LogicError σ :=
  match e.2.1 with
  | .erase => to_.rawErase e.2.2 s
  | .insert => to_.rawInsert e.2.2 s
  | .replace => to_.rawReplace e.2.2 s

def apply {σ : Type} (to_ : RawView σ κ δ) (s : σ) : Except LogicError σ := t.entries.foldlM (applyItem to_) s

end RawStateTable

/-! ## `ApplyStateTable` -/

namespace ApplyStateTable

inductive Action where
  | cache | erase | insert | modify
deriving DecidableEq

abbrev Item (κ δ : Type) := Action × SLE κ δ

end ApplyStateTable

abbrev ApplyStateTable (κ δ : Type) [LinearOrder κ] := SortedMap κ (ApplyStateTable.Item κ δ)

namespace ApplyStateTable

variable (t : ApplyStateTable κ δ) (base : ReadView κ δ) (sle : SLE κ δ)

def view : ReadView κ δ := tableView (fun item => item.1 = .erase) Prod.snd t base

/-- The entry, of which the table now has a copy. -/
def peek (k : Keylet κ) : Option (SLE κ δ) × ApplyStateTable κ δ :=
  match t.find k.key with
  | none =>
    match base.read k with
    | none => (none, t)
    | some sle => (some sle, t.set sle.key (.cache, sle))
  | some (.erase, _) => (none, t)
  | some (_, sle) => (if k.check sle then some sle else none, t)

/-- The entry is the one of the table, since `peek` has returned it. -/
def erase : Except LogicError (ApplyStateTable κ δ) :=
  match t.find sle.key with
  | none => .error ⟨"ApplyStateTable::erase: missing key"⟩
  | some (.erase, _) => .error ⟨"ApplyStateTable::erase: double erase"⟩
  | some (.insert, _) => .ok (SortedMap.erase t sle.key)
  | some (_, _) => .ok (t.set sle.key (.erase, sle))

def rawErase : Except LogicError (ApplyStateTable κ δ) :=
  match t.find sle.key with
  | none => .ok (t.set sle.key (.erase, sle))
  | some (.erase, _) => .error ⟨"ApplyStateTable::rawErase: double erase"⟩
  | some (.insert, _) => .ok (SortedMap.erase t sle.key)
  | some (_, _) => .ok (t.set sle.key (.erase, sle))

def insert : Except LogicError (ApplyStateTable κ δ) :=
  match t.find sle.key with
  | none => .ok (t.set sle.key (.insert, sle))
  | some (.cache, _) => .error ⟨"ApplyStateTable::insert: already cached"⟩
  | some (.insert, _) => .error ⟨"ApplyStateTable::insert: already inserted"⟩
  | some (.modify, _) => .error ⟨"ApplyStateTable::insert: already modified"⟩
  | some (.erase, _) => .ok (t.set sle.key (.modify, sle))

def replace : Except LogicError (ApplyStateTable κ δ) :=
  match t.find sle.key with
  | none => .ok (t.set sle.key (.modify, sle))
  | some (.erase, _) => .error ⟨"ApplyStateTable::replace: already erased"⟩
  | some (.insert, _) => .ok (t.set sle.key (.insert, sle))
  | some (_, _) => .ok (t.set sle.key (.modify, sle))

/-- The entry is the one of the table, as the caller has changed it. -/
def update : Except LogicError (ApplyStateTable κ δ) :=
  match t.find sle.key with
  | none => .error ⟨"ApplyStateTable::update: missing key"⟩
  | some (.erase, _) => .error ⟨"ApplyStateTable::update: erased"⟩
  | some (.insert, _) => .ok (t.set sle.key (.insert, sle))
  | some (_, _) => .ok (t.set sle.key (.modify, sle))

def applyItem {σ : Type} (to_ : RawView σ κ δ) (s : σ) (e : κ × Item κ δ) : Except LogicError σ :=
  match e.2.1 with
  | .cache => .ok s
  | .erase => to_.rawErase e.2.2 s
  | .insert => to_.rawInsert e.2.2 s
  | .modify => to_.rawReplace e.2.2 s

def apply {σ : Type} (to_ : RawView σ κ δ) (s : σ) : Except LogicError σ := t.entries.foldlM (applyItem to_) s

end ApplyStateTable

/-! ## The stack -/

structure Stack (κ δ : Type) [LinearOrder κ] where
  base : Ledger κ δ
  table : RawStateTable κ δ
  top : ApplyStateTable κ δ

namespace Stack

variable (s : Stack κ δ)

def init (base : Ledger κ δ) : Stack κ δ := ⟨base, .empty, .empty⟩

def openView : ReadView κ δ := s.table.view s.base.view

def view : ReadView κ δ := s.top.view s.openView

def apply : Except LogicError (Stack κ δ) := do
  let table ← s.top.apply RawStateTable.raw s.table
  return ⟨s.base, table, .empty⟩

def applyAll : Except LogicError (Ledger κ δ) := do
  let s ← s.apply
  s.table.apply Ledger.raw s.base

end Stack

inductive Op (κ δ : Type) where
  | peek (k : Keylet κ)
  | insert (sle : SLE κ δ)
  /-- `peek`, changes to the entry, `update`. -/
  | update (sle : SLE κ δ)
  | replace (sle : SLE κ δ)
  /-- `peek` and `erase`. -/
  | erase (key : κ)
  | rawErase (sle : SLE κ δ)
  | apply
  | discard

def Stack.step (s : Stack κ δ) : Op κ δ → Except LogicError (Stack κ δ)
  | .peek k => .ok { s with top := (s.top.peek s.openView k).2 }
  | .insert sle => do return { s with top := ← s.top.insert sle }
  | .update sle =>
    let (found, top) := s.top.peek s.openView ⟨ltANY, sle.key⟩
    match found with
    | none => .ok { s with top }
    | some _ => do return { s with top := ← top.update sle }
  | .replace sle => do return { s with top := ← s.top.replace sle }
  | .erase key =>
    let (found, top) := s.top.peek s.openView ⟨ltANY, key⟩
    match found with
    | none => .ok { s with top }
    | some sle => do return { s with top := ← top.erase sle }
  | .rawErase sle => do return { s with top := ← s.top.rawErase sle }
  | .apply => s.apply
  | .discard => .ok { s with top := .empty }

/-! ## One map -/

/-- What the stack stands for: the map below the `ApplyStateTable`, and the map with its changes. -/
structure Plain (κ δ : Type) [LinearOrder κ] where
  committed : Ledger κ δ
  running : Ledger κ δ

namespace Plain

variable (p : Plain κ δ)

def step (p : Plain κ δ) : Op κ δ → Plain κ δ
  | .peek _ => p
  | .insert sle | .update sle | .replace sle => { p with running := p.running.set sle.key sle.entry }
  | .erase key => { p with running := p.running.erase key }
  | .rawErase sle => { p with running := p.running.erase sle.key }
  | .apply => { p with committed := p.running }
  | .discard => { p with running := p.committed }

/-- Absent keys are inserted, and present ones updated, replaced and erased. -/
def Legal (p : Plain κ δ) : Op κ δ → Prop
  | .insert sle => p.running.find sle.key = none
  | .update sle | .replace sle | .rawErase sle => (p.running.find sle.key).isSome = true
  | .erase key => (p.running.find key).isSome = true
  | _ => True

end Plain

structure Answers (v : ReadView κ δ) (m : Ledger κ δ) : Prop where
  read : ∀ k, v.read k = m.read k
  existsItem : ∀ k, (∀ e, m.find k.key = some e → k.check (SLE.mk k.key e) = true) →
    v.existsItem k = (m.find k.key).isSome
  succ : ∀ key last, v.succ key last = (m.next key).filter (IsNext.before last)

end Chainsql.Views
