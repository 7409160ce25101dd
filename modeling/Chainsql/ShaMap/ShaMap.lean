import Chainsql.Digest
import Chainsql.Evm.Word
import Chainsql.Lib.Radix
import Chainsql.Lib.Run

/-!
# The tree of a ledger

`SHAMap`: a tree over the half bytes of the keys, whose inner nodes hold hashes that are computed when they
are asked for. The operations walk down with a stack of nodes and rebuild the nodes of the stack.
-/

namespace Chainsql.ShaMap

open Evm (Bytes Word)

/-! ## Nodes -/

inductive TNType where
  | tnTRANSACTION_NM | tnTRANSACTION_MD | tnACCOUNT_STATE | tnCONTRACT_STATE
deriving DecidableEq

structure SHAMapItem where
  tag : Word
  data : Bytes
deriving DecidableEq

structure SHAMapTreeNode where
  item : SHAMapItem
  type : TNType
  storageRoot : Option Word
  isContract : storageRoot.isSome ↔ type = .tnCONTRACT_STATE
deriving DecidableEq

def SHAMapTreeNode.key (l : SHAMapTreeNode) : Word := l.item.tag

/-- What is hashed, by the function or the `HashPrefix` that it is hashed with. -/
inductive Preimage where
  | transactionID (data : Bytes)
  | sha3 (data : Bytes)
  | leafNode (data : Bytes) (key : Word)
  | leafNodeContract (data : Bytes) (storageRoot key : Word)
  | txNode (data : Bytes) (key : Word)
  | innerNode (hashes : List HashValue)

structure NodeHasher where
  hash : Preimage → HashValue
  inj : Function.Injective hash

def Preimage.code : Preimage → ℕ × List ℕ
  | .transactionID data => (0, data.map UInt8.toNat)
  | .sha3 data => (1, data.map UInt8.toNat)
  | .leafNode data key => (2, key.toNat :: data.map UInt8.toNat)
  | .leafNodeContract data storageRoot key => (3, storageRoot.toNat :: key.toNat :: data.map UInt8.toNat)
  | .txNode data key => (4, key.toNat :: data.map UInt8.toNat)
  | .innerNode hashes => (5, hashes)

def Preimage.uncode : ℕ × List ℕ → Preimage
  | (0, data) => .transactionID (data.map UInt8.ofNat)
  | (1, data) => .sha3 (data.map UInt8.ofNat)
  | (2, key :: data) => .leafNode (data.map UInt8.ofNat) (BitVec.ofNat 256 key)
  | (3, storageRoot :: key :: data) =>
    .leafNodeContract (data.map UInt8.ofNat) (BitVec.ofNat 256 storageRoot) (BitVec.ofNat 256 key)
  | (4, key :: data) => .txNode (data.map UInt8.ofNat) (BitVec.ofNat 256 key)
  | (_, hashes) => .innerNode hashes

theorem Preimage.uncode_code (p : Preimage) : uncode p.code = p := by
  have hbytes : ∀ data : Bytes, (data.map UInt8.toNat).map UInt8.ofNat = data := by
    intro data
    simp [Function.comp_def]
  cases p <;> simp [code, uncode, hbytes]

def codeNodeHasher : NodeHasher where
  hash p := Encodable.encode p.code
  inj := Encodable.encode_injective.comp (Function.LeftInverse.injective Preimage.uncode_code)

variable (H : NodeHasher)

/-- What `SHAMapTreeNode::updateHash` hashes. -/
def SHAMapTreeNode.preimage (l : SHAMapTreeNode) : Preimage :=
  match l.type with
  | .tnTRANSACTION_NM =>
    match l.item.data with
    | 0 :: data => .sha3 data
    | data => .transactionID data
  | .tnACCOUNT_STATE => .leafNode l.item.data l.key
  | .tnCONTRACT_STATE => .leafNodeContract l.item.data (l.storageRoot.getD 0) l.key
  | .tnTRANSACTION_MD => .txNode l.item.data l.key

def SHAMapTreeNode.hash (l : SHAMapTreeNode) : HashValue := H.hash l.preimage

/-- What an inner node holds besides its children. A node with `mSeq` zero is shared. -/
structure Cache where
  shared : Bool
  mHash : HashValue

abbrev Node := Radix 16 Cache SHAMapTreeNode

structure SHAMap where
  root : Node

def dirty : Cache := ⟨false, zeroHash⟩

def SHAMap.empty : SHAMap := ⟨.inner dirty fun _ => .empty⟩

def getNodeHash : Node → HashValue
  | .empty => zeroHash
  | .leaf l => l.hash H
  | .inner c _ => c.mHash

def selectBranch (depth : ℕ) (hash : Word) : Fin 16 :=
  let byte := hash.toNat / 256 ^ (31 - depth / 2) % 256
  Fin.ofNat 16 (if depth % 2 = 1 then byte % 16 else byte / 16)

/-! ## The walk down -/

abbrev Stack := List (Node × ℕ)

def walkTowardsKey (id : Word) : Node → ℕ → Stack → Stack
  | .empty, _, stack => stack
  | .leaf l, depth, stack => (.leaf l, depth) :: stack
  | .inner c ch, depth, stack =>
    walkTowardsKey id (ch (selectBranch depth id)) (depth + 1) ((.inner c ch, depth) :: stack)

def findKey (m : SHAMap) (id : Word) : Option SHAMapTreeNode :=
  match walkTowardsKey id m.root 0 [] with
  | (.leaf leaf, _) :: _ => if leaf.key = id then some leaf else none
  | _ => none

/-! ## The way back -/

def unshareNode : Node → Node
  | .inner c ch => .inner { c with shared := false } ch
  | node => node

def setChild (node : Node) (branch : Fin 16) (child : Node) : Node :=
  match node with
  | .inner c ch => .inner { c with mHash := zeroHash } (Function.update ch branch child)
  | node => node

def dirtyUp (target : Word) : Stack → Node → Node
  | [], child => child
  | (node, depth) :: stack, child =>
    dirtyUp target stack (setChild (unshareNode node) (selectBranch depth target) child)

def getBranchCount : Node → ℕ
  | .inner _ ch => (Radix.branches ch).length
  | _ => 0

/-- A leaf with the item of `l` and the rest of `leaf`. -/
def withItemOf (leaf l : SHAMapTreeNode) : SHAMapTreeNode := { leaf with item := l.item }

/-- The loop of `delItem`. The nodes below the root that have lost a child are checked. -/
def delUp (id : Word) (leaf : SHAMapTreeNode) : Stack → Node → Node
  | [], prevNode => prevNode
  | (node, depth) :: stack, prevNode =>
    let node := setChild (unshareNode node) (selectBranch depth id) prevNode
    if depth = 0 then delUp id leaf stack node
    else if getBranchCount node = 0 then delUp id leaf stack .empty
    else if getBranchCount node = 1 then
      match node.only with
      | some l => delUp id leaf stack (.leaf (withItemOf leaf l))
      | none => delUp id leaf stack node
    else delUp id leaf stack node

def delItem (m : SHAMap) (id : Word) : Bool × SHAMap :=
  match walkTowardsKey id m.root 0 [] with
  | (.leaf leaf, _) :: stack => if leaf.key ≠ id then (false, m) else (true, ⟨delUp id leaf stack .empty⟩)
  | _ => (false, m)

def makeType (isTransaction hasMeta : Bool) : TNType :=
  if !isTransaction then .tnACCOUNT_STATE else if hasMeta then .tnTRANSACTION_MD else .tnTRANSACTION_NM

theorem makeType_ne {isTransaction hasMeta : Bool} : makeType isTransaction hasMeta ≠ .tnCONTRACT_STATE := by
  cases isTransaction <;> cases hasMeta <;> decide

def makeLeaf (item : SHAMapItem) (isTransaction hasMeta : Bool) (storageRoot : Option Word) : SHAMapTreeNode :=
  match storageRoot with
  | some root => ⟨item, .tnCONTRACT_STATE, some root, iff_of_true rfl rfl⟩
  | none => ⟨item, makeType isTransaction hasMeta, none, iff_of_false Bool.false_ne_true makeType_ne⟩

def newInner : Node := .inner dirty fun _ => .empty

/-- The loop of `addGiveItem` that makes inner nodes until the keys differ. -/
def splitLeaf (leaf otherLeaf : SHAMapTreeNode) : ℕ → ℕ → Stack → Stack × Node
  | 0, _, stack => (stack, .empty)
  | fuel + 1, depth, stack =>
    let b1 := selectBranch depth leaf.key
    let b2 := selectBranch depth otherLeaf.key
    if b1 = b2 then splitLeaf leaf otherLeaf fuel (depth + 1) ((newInner, depth) :: stack)
    else (stack, setChild (setChild newInner b1 (.leaf leaf)) b2 (.leaf otherLeaf))

def addGiveItem (m : SHAMap) (leaf : SHAMapTreeNode) : Bool × SHAMap :=
  match walkTowardsKey leaf.key m.root 0 [] with
  | (.leaf l, depth) :: stack =>
    if l.key = leaf.key then (false, m)
    else
      let (stack, node) := splitLeaf leaf l (64 - depth) depth stack
      (true, ⟨dirtyUp leaf.key stack node⟩)
  | (node, depth) :: stack =>
    let node := setChild (unshareNode node) (selectBranch depth leaf.key) (.leaf leaf)
    (true, ⟨dirtyUp leaf.key stack node⟩)
  | [] => (false, m)

/-- If the hash of the leaf stays the same, nothing is linked anew. -/
def updateGiveItem (m : SHAMap) (leaf : SHAMapTreeNode) : Bool × SHAMap :=
  match walkTowardsKey leaf.key m.root 0 [] with
  | (.leaf l, _) :: stack =>
    if l.key ≠ leaf.key then (false, m)
    else if leaf.hash H = l.hash H then (true, m)
    else (true, ⟨dirtyUp leaf.key stack (.leaf leaf)⟩)
  | _ => (false, m)

/-! ## Hashes -/

def updateHash (ch : Fin 16 → Node) : HashValue :=
  if Radix.branches ch = [] then zeroHash else H.hash (.innerNode (List.ofFn fun b => getNodeHash H (ch b)))

/-- The hashes of all nodes that have changed. -/
def walkSubTree : Node → Node
  | .inner c ch =>
    if c.shared then .inner c ch
    else .inner ⟨true, updateHash H fun b => walkSubTree (ch b)⟩ fun b => walkSubTree (ch b)
  | node => node

def getHash (m : SHAMap) : HashValue × SHAMap :=
  if getNodeHash H m.root = zeroHash then
    let root := walkSubTree H m.root
    (getNodeHash H root, ⟨root⟩)
  else (getNodeHash H m.root, m)

/-! ## Runs -/

inductive Action where
  | addGiveItem (item : SHAMapItem) (isTransaction hasMeta : Bool) (storageRoot : Option Word)
  | updateGiveItem (item : SHAMapItem) (isTransaction hasMeta : Bool) (storageRoot : Option Word)
  | delItem (id : Word)
  | getHash

def step (m : SHAMap) : Action → SHAMap
  | .addGiveItem item isTransaction hasMeta storageRoot =>
    (addGiveItem m (makeLeaf item isTransaction hasMeta storageRoot)).2
  | .updateGiveItem item isTransaction hasMeta storageRoot =>
    (updateGiveItem H m (makeLeaf item isTransaction hasMeta storageRoot)).2
  | .delItem id => (delItem m id).2
  | .getHash => (getHash H m).2

def after (actions : List Action) : SHAMap := Run.final (step H) .empty actions

abbrev Content := Word → Option SHAMapTreeNode

def write (c : Content) : Action → Content
  | .addGiveItem item isTransaction hasMeta storageRoot =>
    if (c item.tag).isSome then c
    else Function.update c item.tag (some (makeLeaf item isTransaction hasMeta storageRoot))
  | .updateGiveItem item isTransaction hasMeta storageRoot =>
    if (c item.tag).isSome then Function.update c item.tag (some (makeLeaf item isTransaction hasMeta storageRoot))
    else c
  | .delItem id => Function.update c id none
  | .getHash => c

def written (actions : List Action) : Content := Run.final write (fun _ => none) actions

/-- The leaf that `delItem` moves up: what is left below the parent of the deleted leaf, unless this is the
root. -/
def pulledUp (m : SHAMap) (id : Word) : Option SHAMapTreeNode := Radix.pulled selectBranch id 0 m.root

/-- A leaf is moved up by the deletion of one of the same type and storage root only. -/
def SameKind (m : SHAMap) : Action → Prop
  | .delItem id => ∀ leaf l, findKey m id = some leaf → pulledUp m id = some l →
    l.type = leaf.type ∧ l.storageRoot = leaf.storageRoot
  | _ => True

variable {H}

/-! ## Keys -/

theorem selectBranch_val {depth : ℕ} (h : depth < 64) (k : Word) :
    (selectBranch depth k).val = k.toNat / 16 ^ (63 - depth) % 16 := by
  have hpow : (256 : ℕ) ^ (31 - depth / 2) = 16 ^ (2 * (31 - depth / 2)) := by
    rw [pow_mul]
    rfl
  rw [selectBranch, Fin.val_ofNat, hpow]
  split
  next hodd =>
    have hexp : 63 - depth = 2 * (31 - depth / 2) := by omega
    rw [hexp]
    omega
  next heven =>
    have hexp : 63 - depth = 2 * (31 - depth / 2) + 1 := by omega
    rw [hexp, pow_succ, ← Nat.div_div_eq_div_mul]
    omega

theorem mod_pow_eq {x y : ℕ} (m : ℕ) (h : ∀ i < m, x / 16 ^ i % 16 = y / 16 ^ i % 16) : x % 16 ^ m = y % 16 ^ m := by
  induction m with
  | zero => rw [pow_zero, Nat.mod_one, Nat.mod_one]
  | succ m ih =>
    rw [Nat.mod_pow_succ, Nat.mod_pow_succ, h m m.lt_succ_self, ih fun i hi => h i (Nat.lt_succ_of_lt hi)]

theorem selectBranch_sep (k k' : Word) (h : ∀ i < 64, selectBranch i k = selectBranch i k') : k = k' := by
  have hmod : k.toNat % 16 ^ 64 = k'.toNat % 16 ^ 64 := by
    refine mod_pow_eq 64 fun i hi => ?_
    have hdigit := congrArg Fin.val (h (63 - i) (by omega))
    rw [selectBranch_val (by omega), selectBranch_val (by omega)] at hdigit
    rwa [show 63 - (63 - i) = i by omega] at hdigit
  have hpow : (16 : ℕ) ^ 64 = 2 ^ 256 := by decide
  rw [hpow, Nat.mod_eq_of_lt k.isLt, Nat.mod_eq_of_lt k'.isLt] at hmod
  exact BitVec.eq_of_toNat_eq hmod

/-! ## The operations on the tree -/

variable {c : Cache} {ch : Fin 16 → Node} {node : Node} {id : Word} {depth depth' : ℕ} {stack rest : Stack}
  {leaf l : SHAMapTreeNode} {m : SHAMap}

@[simp] theorem setChild_unshareNode {branch : Fin 16} {child : Node} :
    setChild (unshareNode (.inner c ch)) branch child = .inner dirty (Function.update ch branch child) := rfl

theorem delUp_cons {child : Node} :
    delUp id leaf ((.inner c ch, depth) :: stack) child =
      delUp id leaf stack (if depth = 0 then .inner dirty (Function.update ch (selectBranch depth id) child)
        else Radix.prune (withItemOf leaf) (.inner dirty (Function.update ch (selectBranch depth id) child))) := by
  rw [delUp, setChild_unshareNode]
  by_cases hroot : depth = 0
  · rw [if_pos hroot, if_pos hroot]
  · rw [if_neg hroot, if_neg hroot, Radix.prune, getBranchCount, Radix.only]
    cases Radix.branches (Function.update ch (selectBranch depth id) child) with
    | nil => rfl
    | cons b bs =>
      cases bs with
      | cons b' bs => rfl
      | nil =>
        simp only [List.length_singleton, Nat.one_ne_zero, if_false, if_true]
        split
        next l hl => rw [hl]
        next hl => rw [hl]

/-- From the node at which a walk ends in a leaf, `delUp` does what the deletion does from the node at which it starts. -/
theorem delUp_walk (leaf : SHAMapTreeNode) (h : walkTowardsKey id node depth stack = (.leaf l, depth') :: rest)
    (hstack : ∀ l depth rest, stack ≠ (.leaf l, depth) :: rest) :
    delUp id leaf rest .empty =
      delUp id leaf stack (Radix.eraseWith selectBranch dirty (withItemOf leaf) id depth node) := by
  induction node generalizing depth stack with
  | empty => exact absurd h (hstack l depth' rest)
  | leaf l' =>
    cases h
    rfl
  | inner c ch ih =>
    rw [ih _ h (fun l depth rest heq => by cases heq), delUp_cons]
    rfl

theorem dirtyUp_splitLeaf {fuel : ℕ} :
    dirtyUp leaf.key (splitLeaf leaf l fuel depth stack).1 (splitLeaf leaf l fuel depth stack).2 =
      dirtyUp leaf.key stack (Radix.split selectBranch SHAMapTreeNode.key dirty leaf l fuel depth) := by
  induction fuel generalizing depth stack with
  | zero => rfl
  | succ fuel ih =>
    rw [splitLeaf, Radix.split]
    split
    next heq =>
      rw [ih]
      rfl
    · rfl

def putLeaf (leaf : SHAMapTreeNode) (depth : ℕ) (node : Node) : Node :=
  Radix.put selectBranch SHAMapTreeNode.key dirty 64 leaf depth node

theorem dirtyUp_walk_leaf (h : walkTowardsKey leaf.key node depth stack = (.leaf l, depth') :: rest)
    (hstack : ∀ l depth rest, stack ≠ (.leaf l, depth) :: rest) :
    dirtyUp leaf.key rest (putLeaf leaf depth' (.leaf l)) = dirtyUp leaf.key stack (putLeaf leaf depth node) := by
  induction node generalizing depth stack with
  | empty => exact absurd h (hstack l depth' rest)
  | leaf l' =>
    cases h
    rfl
  | inner c ch ih =>
    rw [ih _ h (fun l depth rest heq => by cases heq)]
    rfl

theorem dirtyUp_walk_inner (h : walkTowardsKey leaf.key node depth stack = (.inner c ch, depth') :: rest) :
    node = .empty ∧ stack = (.inner c ch, depth') :: rest ∨
      dirtyUp leaf.key rest (.inner dirty (Function.update ch (selectBranch depth' leaf.key) (.leaf leaf))) =
        dirtyUp leaf.key stack (putLeaf leaf depth node) := by
  induction node generalizing depth stack with
  | empty => exact .inl ⟨rfl, h⟩
  | leaf l' => cases h
  | inner c' ch' ih =>
    right
    rcases ih _ h with ⟨hempty, hstack⟩ | hup
    · cases hstack
      rw [putLeaf, Radix.put, hempty]
      rfl
    · rw [hup]
      rfl

theorem walk_cases (id : Word) (node : Node) (depth : ℕ) (stack : Stack) :
    node = .empty ∨
      (∃ l depth' rest, walkTowardsKey id node depth stack = (.leaf l, depth') :: rest ∧
        Radix.find selectBranch SHAMapTreeNode.key id depth node = if l.key = id then some l else none) ∨
      ∃ c ch depth' rest, walkTowardsKey id node depth stack = (.inner c ch, depth') :: rest ∧
        Radix.find selectBranch SHAMapTreeNode.key id depth node = none := by
  induction node generalizing depth stack with
  | empty => exact .inl rfl
  | leaf l => exact .inr (.inl ⟨l, depth, stack, rfl, rfl⟩)
  | inner c ch ih =>
    right
    rcases ih (selectBranch depth id) (depth + 1) ((.inner c ch, depth) :: stack) with hempty | hleaf | hinner
    · right
      refine ⟨c, ch, depth, stack, ?_, ?_⟩
      · rw [walkTowardsKey, hempty]
        rfl
      · rw [Radix.find, hempty]
        rfl
    · exact .inl hleaf
    · exact .inr hinner

def lookup (m : SHAMap) (id : Word) : Option SHAMapTreeNode :=
  Radix.find selectBranch SHAMapTreeNode.key id 0 m.root

theorem findKey_eq_lookup (hroot : m.root ≠ .empty) : findKey m id = lookup m id := by
  rw [findKey, lookup]
  rcases walk_cases id m.root 0 [] with hempty | ⟨l, depth, rest, hwalk, hfind⟩ | ⟨c, ch, depth, rest, hwalk, hfind⟩
  · exact absurd hempty hroot
  · rw [hwalk, hfind]
  · rw [hwalk, hfind]

theorem addGiveItem_eq (hroot : m.root ≠ .empty) :
    addGiveItem m leaf =
      if (lookup m leaf.key).isSome then (false, m) else (true, ⟨putLeaf leaf 0 m.root⟩) := by
  rw [addGiveItem, lookup]
  rcases walk_cases leaf.key m.root 0 [] with hempty | ⟨l, depth, rest, hwalk, hfind⟩ |
    ⟨c, ch, depth, rest, hwalk, hfind⟩
  · exact absurd hempty hroot
  · rw [hwalk, hfind]
    by_cases hkey : l.key = leaf.key
    · simp only [hkey, if_true, Option.isSome_some]
    · have hput : putLeaf leaf depth (.leaf l) =
          Radix.split selectBranch SHAMapTreeNode.key dirty leaf l (64 - depth) depth := if_neg hkey
      have hup := dirtyUp_walk_leaf hwalk fun _ _ _ heq => by cases heq
      rw [hput, ← dirtyUp_splitLeaf] at hup
      simp only [hkey, if_false, Option.isSome_none, Bool.false_eq_true]
      rw [hup]
      rfl
  · rw [hwalk, hfind]
    rcases dirtyUp_walk_inner hwalk with ⟨hempty, -⟩ | hup
    · exact absurd hempty hroot
    · simp only [Option.isSome_none, Bool.false_eq_true, if_false]
      rw [setChild_unshareNode, hup]
      rfl

theorem updateGiveItem_eq (hroot : m.root ≠ .empty) :
    updateGiveItem H m leaf =
      match lookup m leaf.key with
      | none => (false, m)
      | some l => (true, if leaf.hash H = l.hash H then m else ⟨putLeaf leaf 0 m.root⟩) := by
  rw [updateGiveItem, lookup]
  rcases walk_cases leaf.key m.root 0 [] with hempty | ⟨l, depth, rest, hwalk, hfind⟩ |
    ⟨c, ch, depth, rest, hwalk, hfind⟩
  · exact absurd hempty hroot
  · rw [hwalk, hfind]
    by_cases hkey : l.key = leaf.key
    · have hput : putLeaf leaf depth (.leaf l) = .leaf leaf := if_pos hkey
      have hup := dirtyUp_walk_leaf hwalk fun _ _ _ heq => by cases heq
      rw [hput] at hup
      simp only [hkey, ne_eq, not_true_eq_false, if_false, if_true]
      split
      · rfl
      · rw [hup]
        rfl
    · simp only [hkey, ne_eq, not_false_eq_true, if_true, if_false]
  · rw [hwalk, hfind]

theorem delItem_eq (hroot : m.root ≠ .empty) :
    delItem m id =
      match lookup m id with
      | none => (false, m)
      | some leaf => (true, ⟨Radix.eraseWith selectBranch dirty (withItemOf leaf) id 0 m.root⟩) := by
  rw [delItem, lookup]
  rcases walk_cases id m.root 0 [] with hempty | ⟨l, depth, rest, hwalk, hfind⟩ | ⟨c, ch, depth, rest, hwalk, hfind⟩
  · exact absurd hempty hroot
  · rw [hwalk, hfind]
    by_cases hkey : l.key = id
    · have hup := delUp_walk l hwalk fun _ _ _ heq => by cases heq
      simp only [hkey, ne_eq, not_true_eq_false, if_false, if_true]
      rw [hup]
      rfl
    · simp only [hkey, ne_eq, not_false_eq_true, if_true, if_false]
  · rw [hwalk, hfind]

end Chainsql.ShaMap
