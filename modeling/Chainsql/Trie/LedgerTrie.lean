import Mathlib.Data.List.Lex
import Mathlib.Data.List.Sort
import Chainsql.Lib.Lineage

/-!
# The ancestry trie of ledgers

`LedgerTrie`: a compressed trie over ledger histories with the support of each ledger at the node
whose span ends with it. A node owns its children. `parent` is the raw pointer to the owner and a
node's address stands for its identity, so that the loops that climb do so along `parent`. A place in
the tree is a node with the path of its owners, the nearest first. Supports are 32-bit, sequence
numbers are natural numbers.
-/

namespace Chainsql

open Lineage

namespace LedgerTrie

structure SpanTip (L ID : Type*) where
  seq : Nat
  id : ID
  ledger : L

/-- The half-open interval `[start, stop)` of the history of `ledger`. -/
structure Span (L : Type*) {ID : outParam (Type*)} [Lineage L ID] where
  start : Nat
  stop : Nat
  ledger : L
  start_lt_stop : start < stop
  stop_le : stop ≤ seq ledger + 1

namespace Span

variable {L ID : Type*} [Lineage L ID] (s : Span L)

def genesis : Span L := ⟨0, 1, Lineage.genesis, Nat.one_pos, Nat.le_add_left 1 _⟩

def ofLedger (ledger : L) : Span L := ⟨0, seq ledger + 1, ledger, Nat.succ_pos _, Nat.le_refl _⟩

def clamp (val : Nat) : Nat := min (max s.start val) s.stop

theorem clamp_le_stop (val : Nat) : s.clamp val ≤ s.stop := Nat.min_le_right _ _

def sub (lo hi : Nat) : Option (Span L) :=
  if h : s.clamp lo < s.clamp hi then
    some ⟨s.clamp lo, s.clamp hi, s.ledger, h, (s.clamp_le_stop hi).trans s.stop_le⟩
  else none

def after (spot : Nat) : Option (Span L) := s.sub spot s.stop

def before (spot : Nat) : Option (Span L) := s.sub s.start spot

def startID : ID := ancestor s.ledger s.start

def diff (o : L) : Nat := s.clamp (mismatch s.ledger o)

def tip : SpanTip L ID := ⟨s.stop - 1, ancestor s.ledger (s.stop - 1), s.ledger⟩

variable {s} in
theorem min_start_lt_stop (a : Span L) : min a.start s.start < s.stop :=
  (Nat.min_le_right _ _).trans_lt s.start_lt_stop

def merge (a b : Span L) : Span L :=
  if a.stop < b.stop then ⟨min a.start b.start, b.stop, b.ledger, min_start_lt_stop a, b.stop_le⟩
  else ⟨min b.start a.start, a.stop, a.ledger, min_start_lt_stop b, a.stop_le⟩

end Span

abbrev Addr := Nat

structure NodeData (L : Type*) {ID : outParam (Type*)} [Lineage L ID] where
  addr : Addr
  span : Span L
  tipSupport : UInt32 := 0
  branchSupport : UInt32 := 0
  parent : Option Addr := none

inductive Node (L : Type*) {ID : outParam (Type*)} [Lineage L ID] where
  | mk (data : NodeData L) (children : List (Node L))

section

variable {L ID : Type*} [Lineage L ID]

namespace Node

def data : Node L → NodeData L
  | mk d _ => d

def children : Node L → List (Node L)
  | mk _ cs => cs

def span (n : Node L) : Span L := n.data.span

def tipSupport (n : Node L) : UInt32 := n.data.tipSupport

def branchSupport (n : Node L) : UInt32 := n.data.branchSupport

def parent (n : Node L) : Option Addr := n.data.parent

def setParent (a : Addr) : Node L → Node L
  | mk d cs => mk { d with parent := some a } cs

mutual

def height : Node L → Nat
  | mk _ cs => heights cs + 1

def heights : List (Node L) → Nat
  | [] => 0
  | c :: cs => max c.height (heights cs)

end

end Node

/-- The owner of a place in the tree, with the siblings before and after that place. -/
structure Owner (L : Type*) {ID : outParam (Type*)} [Lineage L ID] where
  data : NodeData L
  left : List (Node L)
  right : List (Node L)

structure Place (L : Type*) {ID : outParam (Type*)} [Lineage L ID] where
  node : Node L
  path : List (Owner L) := []

def rebuild : Node L → List (Owner L) → Node L
  | n, [] => n
  | n, o :: path => rebuild (.mk o.data (o.left ++ n :: o.right)) path

/-- `while (p) { p->branchSupport = f(p->branchSupport); p = p->parent; }` -/
def climb (f : UInt32 → UInt32) : Option Addr → List (Owner L) → List (Owner L)
  | some a, o :: path =>
    if o.data.addr = a then
      { o with data := { o.data with branchSupport := f o.data.branchSupport } }
        :: climb f o.data.parent path
    else o :: path
  | _, path => path

def Place.updateSupport (tip branch : UInt32 → UInt32) : Place L → Place L
  | ⟨.mk d cs, path⟩ =>
    ⟨.mk { d with tipSupport := tip d.tipSupport, branchSupport := branch d.branchSupport } cs,
      climb branch d.parent path⟩

/-- Truncates the node before `spot` if it goes on after it; a new node takes over the rest. -/
def Place.split (p : Place L) (spot : Nat) (fresh : Addr) : Place L :=
  match p with
  | ⟨.mk d cs, path⟩ =>
    match d.span.after spot with
    | none => ⟨.mk d cs, path⟩
    | some oldSuffix =>
      let newNode : Node L :=
        .mk { addr := fresh
              span := oldSuffix
              tipSupport := d.tipSupport
              branchSupport := d.branchSupport
              parent := some d.addr }
          (cs.map (Node.setParent fresh))
      ⟨.mk { d with span := (d.span.before spot).getD d.span, tipSupport := 0 } [newNode], path⟩

/-- The new last child for the part of the ledger after `spot`, or the node itself if there is none. -/
def Place.extend (p : Place L) (ledger : L) (spot : Nat) (fresh : Addr) : Place L :=
  match p with
  | ⟨.mk d cs, path⟩ =>
    match (Span.ofLedger ledger).after spot with
    | none => ⟨.mk d cs, path⟩
    | some newSuffix =>
      ⟨.mk { addr := fresh, span := newSuffix, parent := some d.addr } [], ⟨d, cs, []⟩ :: path⟩

/-- The children after `Node::erase`: the last one takes the place of the erased one. -/
def Owner.erase (o : Owner L) : List (Node L) :=
  match o.right.getLast? with
  | none => o.left
  | some last => o.left ++ last :: o.right.dropLast

def compress : Node L → List (Owner L) → Node L
  | loc, [] => loc
  | .mk d cs, o :: path =>
    if d.tipSupport = 0 ∧ d.parent = some o.data.addr then
      match cs with
      | [] => compress (.mk o.data o.erase) path
      | [.mk child grandchildren] =>
        let child : Node L :=
          .mk { child with span := d.span.merge child.span, parent := some o.data.addr } grandchildren
        let o := { o with right := o.right ++ [child] }
        compress (.mk o.data o.erase) path
      | cs => rebuild (.mk d cs) (o :: path)
    else rebuild (.mk d cs) (o :: path)

namespace SeqSupport

def add (seq : Nat) (count : UInt32) : List (Nat × UInt32) → List (Nat × UInt32)
  | [] => [(seq, count)]
  | (k, v) :: rest =>
    if seq < k then (seq, count) :: (k, v) :: rest
    else if seq = k then (k, v + count) :: rest
    else (k, v) :: add seq count rest

def remove (seq : Nat) (count : UInt32) : List (Nat × UInt32) → List (Nat × UInt32)
  | [] => []
  | (k, v) :: rest =>
    if seq = k then if v - count = 0 then rest else (k, v - count) :: rest
    else (k, v) :: remove seq count rest

/-- Adds up the entries below `bound`, up to the first one that is not. -/
def takeBelow (bound : Nat) : UInt32 → List (Nat × UInt32) → UInt32 × List (Nat × UInt32)
  | uncommitted, [] => (uncommitted, [])
  | uncommitted, (k, v) :: rest =>
    if k < bound then takeBelow bound (uncommitted + v) rest else (uncommitted, (k, v) :: rest)

/-- The walk along one span: to the next sequence that is not supported enough, or to its end. -/
def advance (stop : Nat) (support : UInt32) :
    Nat → UInt32 → List (Nat × UInt32) → Nat × UInt32 × List (Nat × UInt32)
  | nextSeq, uncommitted, rest =>
    if nextSeq < stop ∧ support > uncommitted then
      match rest with
      | [] => (stop, uncommitted, [])
      | (k, v) :: rest =>
        if k < stop then advance stop support (k + 1) (uncommitted + v) rest
        else (stop, uncommitted, (k, v) :: rest)
    else (nextSeq, uncommitted, rest)

end SeqSupport

end

end LedgerTrie

structure LedgerTrie (L : Type*) {ID : outParam (Type*)} [Lineage L ID] where
  root : LedgerTrie.Node L := .mk { addr := 0, span := .genesis } []
  seqSupport : List (Nat × UInt32) := []
  -- Addresses from here on are free.
  fresh : LedgerTrie.Addr := 1

namespace LedgerTrie

variable {L ID : Type*} [Lineage L ID]

mutual

def descend (ledger : L) : Node L → List (Owner L) → Nat → Place L × Nat
  | .mk d cs, path, pos =>
    if pos = d.span.stop then descendChildren ledger d [] cs path pos else (⟨.mk d cs, path⟩, pos)

def descendChildren (ledger : L) (d : NodeData L) (left : List (Node L)) :
    List (Node L) → List (Owner L) → Nat → Place L × Nat
  | [], path, pos => (⟨.mk d left, path⟩, pos)
  | child :: right, path, pos =>
    let childPos := child.span.diff ledger
    if childPos > pos then descend ledger child (⟨d, left, right⟩ :: path) childPos
    else descendChildren ledger d (left ++ [child]) right path pos

end

def find (t : LedgerTrie L) (ledger : L) : Place L × Nat :=
  descend ledger t.root [] (t.root.span.diff ledger)

section

variable [DecidableEq ID]

mutual

def searchID (ledgerID : ID) : Node L → List (Owner L) → Option (Place L)
  | .mk d cs, path =>
    if ledgerID = d.span.tip.id then some ⟨.mk d cs, path⟩ else searchChildren ledgerID d [] cs path

def searchChildren (ledgerID : ID) (d : NodeData L) (left : List (Node L)) :
    List (Node L) → List (Owner L) → Option (Place L)
  | [], _ => none
  | child :: right, path =>
    match searchID ledgerID child (⟨d, left, right⟩ :: path) with
    | some p => some p
    | none => searchChildren ledgerID d (left ++ [child]) right path

end

def findByLedgerID (t : LedgerTrie L) (ledger : L) : Option (Place L) := searchID (id ledger) t.root []

end

def insert (t : LedgerTrie L) (ledger : L) (count : UInt32) : LedgerTrie L :=
  let (loc, diffSeq) := t.find ledger
  let loc := (loc.split diffSeq t.fresh).extend ledger diffSeq (t.fresh + 1)
  let loc := loc.updateSupport (· + count) (· + count)
  { root := rebuild loc.node loc.path
    seqSupport := SeqSupport.add (seq ledger) count t.seqSupport
    fresh := t.fresh + 2 }

def remove [DecidableEq ID] (t : LedgerTrie L) (ledger : L) (count : UInt32) : LedgerTrie L × Bool :=
  match t.findByLedgerID ledger with
  | none => (t, false)
  | some loc =>
    if loc.node.tipSupport = 0 then (t, false)
    else
      let count := min count loc.node.tipSupport
      let loc := loc.updateSupport (· - count) (· - count)
      ({ t with
          root := compress loc.node loc.path
          seqSupport := SeqSupport.remove (seq ledger) count t.seqSupport },
        true)

def tipSupport [DecidableEq ID] (t : LedgerTrie L) (ledger : L) : UInt32 :=
  match t.findByLedgerID ledger with
  | some loc => loc.node.tipSupport
  | none => 0

def branchSupport [DecidableEq ID] (t : LedgerTrie L) (ledger : L) : UInt32 :=
  match t.findByLedgerID ledger with
  | some loc => loc.node.branchSupport
  | none =>
    let (loc, diffSeq) := t.find ledger
    if diffSeq > seq ledger ∧ seq ledger < loc.node.span.stop then loc.node.branchSupport else 0

def empty (t : LedgerTrie L) : Bool := t.root.branchSupport == 0

/-- An order of elements that the library leaves unspecified. -/
structure Arrangement (α : Type*) where
  arrange : List α → List α
  perm : ∀ l, (arrange l).Perm l

def Arrangement.asIs {α : Type*} : Arrangement α := ⟨fun l => l, .refl⟩

section

variable [LinearOrder ID] (order : Arrangement (Node L))

/-- The order of the children: larger branch support first, then larger first id. -/
def Ahead (a b : Node L) : Prop :=
  b.branchSupport < a.branchSupport
    ∨ (b.branchSupport = a.branchSupport ∧ b.span.startID ≤ a.span.startID)

instance (a b : Node L) : Decidable (Ahead a b) := inferInstanceAs (Decidable (_ ∨ _))

/-- `std::partial_sort` with two places: what follows them is in the order `order`. -/
def partialSort (children : List (Node L)) : List (Node L) :=
  let sorted := children.insertionSort Ahead
  sorted.take 2 ++ order.arrange (sorted.drop 2)

def walk (largestIssued : Nat) :
    Nat → Node L → UInt32 → List (Nat × UInt32) → Node L × SpanTip L ID
  | 0, curr, _, _ => (curr, curr.span.tip)
  | fuel + 1, .mk d cs, uncommitted, it =>
    let (uncommitted, it) := SeqSupport.takeBelow (max (d.span.start + 1) largestIssued) uncommitted it
    let (nextSeq, uncommitted, it) :=
      SeqSupport.advance d.span.stop d.branchSupport (d.span.start + 1) uncommitted it
    if nextSeq < d.span.stop then (.mk d cs, ((d.span.before nextSeq).getD d.span).tip)
    else
      match cs with
      | [] => (.mk d [], d.span.tip)
      | [best] =>
        if best.branchSupport > uncommitted ∨ uncommitted = 0 then
          let (best, preferred) := walk largestIssued fuel best uncommitted it
          (.mk d [best], preferred)
        else (.mk d [best], d.span.tip)
      | cs =>
        match partialSort order cs with
        | best :: second :: others =>
          let margin := best.branchSupport - second.branchSupport
          let margin := if best.span.startID > second.span.startID then margin + 1 else margin
          if margin > uncommitted ∨ uncommitted = 0 then
            let (best, preferred) := walk largestIssued fuel best uncommitted it
            (.mk d (best :: second :: others), preferred)
          else (.mk d (best :: second :: others), d.span.tip)
        | cs => (.mk d cs, d.span.tip)

/-- The preferred ledger. Looking for it reorders the children along the way. -/
def getPreferred (t : LedgerTrie L) (largestIssued : Nat) : LedgerTrie L × Option (SpanTip L ID) :=
  if t.empty then (t, none)
  else
    let (root, preferred) := walk order largestIssued t.root.height t.root 0 t.seqSupport
    ({ t with root := root }, some preferred)

end

end LedgerTrie

end Chainsql
