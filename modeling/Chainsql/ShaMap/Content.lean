import Chainsql.ShaMap.ShaMap

/-!
# The content of the tree and its hash

The tree is a map from keys to leaves, and its hash is one of this map: `Valid` says that leaves lie as high
up as they can and that the hashes in shared nodes are right. `delItem` gives the leaf that it moves up the
type and the storage root of the leaf that it deletes, so that the map is the right one as long as these are
the same.
-/

namespace Chainsql.ShaMap

open Function

open Evm (Bytes Word)

variable {H : NodeHasher} {c : Cache} {ch : Fin 16 → Node} {node : Node} {id : Word} {depth : ℕ}
  {leaf l : SHAMapTreeNode} {m m' : SHAMap}

/-! ## Hashes -/

def treeHash (H : NodeHasher) {α : Type} : Radix 16 α SHAMapTreeNode → HashValue
  | .empty => zeroHash
  | .leaf l => l.hash H
  | .inner _ ch =>
    if Radix.branches ch = [] then zeroHash else H.hash (.innerNode (List.ofFn fun b => treeHash H (ch b)))

theorem treeHash_strip (node : Node) : treeHash H node.strip = treeHash H node := by
  induction node with
  | empty => rfl
  | leaf l => rfl
  | inner c ch ih =>
    rw [Radix.strip, treeHash, treeHash, Radix.branches_strip]
    simp only [ih]

/-- Shared nodes have their hash, the other ones have none. -/
def Cached (H : NodeHasher) : Node → Prop
  | .inner c ch =>
    (c.shared = true → c.mHash = treeHash H (.inner c ch)) ∧ (c.shared = false → c.mHash = zeroHash) ∧
      ∀ b, Cached H (ch b)
  | _ => True

theorem cached_dirty (h : ∀ b, Cached H (ch b)) : Cached H (.inner dirty ch) :=
  ⟨fun hshared => Bool.noConfusion hshared, fun _ => rfl, h⟩

theorem cached_update {b : Fin 16} {child : Node} (h : ∀ b, Cached H (ch b)) (hchild : Cached H child) :
    Cached H (.inner dirty (Function.update ch b child)) := by
  refine cached_dirty fun b' => ?_
  by_cases hb : b' = b
  · rw [hb, update_self]
    exact hchild
  · rw [update_of_ne hb]
    exact h b'

theorem cached_split {fuel : ℕ} : Cached H (Radix.split selectBranch SHAMapTreeNode.key dirty leaf l fuel depth) := by
  induction fuel generalizing depth with
  | zero => trivial
  | succ fuel ih =>
    rw [Radix.split]
    split
    · exact cached_update (fun _ => trivial) ih
    · refine cached_update (fun b => ?_) trivial
      by_cases hb : b = selectBranch depth leaf.key
      · rw [hb, update_self]
        trivial
      · rw [update_of_ne hb]
        trivial

theorem Cached.put (h : Cached H node) : Cached H (putLeaf leaf depth node) := by
  unfold putLeaf
  induction node generalizing depth with
  | empty => trivial
  | leaf l =>
    rw [Radix.put]
    split
    · trivial
    · exact cached_split
  | inner c ch ih => exact cached_update h.2.2 (ih _ (h.2.2 _))

variable {f : SHAMapTreeNode → SHAMapTreeNode}

theorem Cached.prune (h : Cached H node) : Cached H (Radix.prune f node) := by
  unfold Radix.prune
  split
  · split
    · trivial
    · split
      · trivial
      · exact h
    · exact h
  · exact h

theorem Cached.eraseWith (h : Cached H node) : Cached H (Radix.eraseWith selectBranch dirty f id depth node) := by
  induction node generalizing depth with
  | empty => trivial
  | leaf l => trivial
  | inner c ch ih =>
    rw [Radix.eraseWith]
    split
    · exact cached_update h.2.2 (ih _ (h.2.2 _))
    · exact (cached_update h.2.2 (ih _ (h.2.2 _))).prune

theorem Cached.walkSubTree (h : Cached H node) :
    getNodeHash H (walkSubTree H node) = treeHash H node ∧ (walkSubTree H node).strip = node.strip ∧
      Cached H (walkSubTree H node) := by
  induction node with
  | empty => exact ⟨rfl, rfl, trivial⟩
  | leaf l => exact ⟨rfl, rfl, trivial⟩
  | inner c ch ih =>
    rw [ShaMap.walkSubTree]
    split
    next hshared => exact ⟨h.1 hshared, rfl, h⟩
    next hdirty =>
      have hstrip : ∀ b, (ShaMap.walkSubTree H (ch b)).strip = (ch b).strip := fun b => (ih b (h.2.2 b)).2.1
      have hbranches : (Radix.branches fun b => ShaMap.walkSubTree H (ch b)) = Radix.branches ch := by
        rw [← Radix.branches_strip, ← Radix.branches_strip ch]
        simp only [hstrip]
      have hhash : (updateHash H fun b => ShaMap.walkSubTree H (ch b)) = treeHash H (.inner c ch) := by
        rw [updateHash, treeHash, hbranches]
        simp only [fun b => (ih b (h.2.2 b)).1]
      have hstrip' : ∀ c' : Cache, (Radix.inner c' fun b => ShaMap.walkSubTree H (ch b)).strip =
          (Radix.inner c ch).strip := by
        intro c'
        rw [Radix.strip, Radix.strip]
        simp only [hstrip]
      refine ⟨hhash, hstrip' _, fun _ => ?_, fun hshared => Bool.noConfusion hshared, fun b => (ih b (h.2.2 b)).2.2⟩
      rw [hhash, ← treeHash_strip, ← treeHash_strip (.inner _ _), hstrip']

/-! ## Maps -/

structure SHAMap.Valid (H : NodeHasher) (m : SHAMap) : Prop where
  shape : ∃ c ch, m.root = .inner c ch ∧ Radix.Children selectBranch SHAMapTreeNode.key 0 ch
  cached : Cached H m.root

theorem valid_empty : SHAMap.empty.Valid H :=
  ⟨⟨dirty, _, rfl, Radix.children_empty⟩, cached_dirty fun _ => trivial⟩

namespace SHAMap.Valid

variable (h : m.Valid H)
include h

theorem root_ne : m.root ≠ .empty := by
  obtain ⟨c, ch, hroot, -⟩ := h.shape
  rw [hroot]
  intro heq
  cases heq

theorem placed : Radix.Placed selectBranch SHAMapTreeNode.key 0 m.root := by
  obtain ⟨c, ch, hroot, hch⟩ := h.shape
  rw [hroot]
  exact fun b => ⟨(hch b).1.placed, (hch b).2⟩

theorem lookup_eq_some : lookup m id = some l ↔ l ∈ m.root ∧ l.key = id :=
  Radix.find_eq_some h.placed

theorem put (leaf : SHAMapTreeNode) :
    SHAMap.Valid H ⟨putLeaf leaf 0 m.root⟩ ∧
      lookup ⟨putLeaf leaf 0 m.root⟩ = Function.update (lookup m) leaf.key (some leaf) := by
  obtain ⟨c, ch, hroot, hch⟩ := h.shape
  obtain ⟨hmem, hch'⟩ := hch.put_spec selectBranch_sep (v := leaf) (a := c) dirty
  have hvalid : SHAMap.Valid H ⟨putLeaf leaf 0 m.root⟩ :=
    ⟨⟨dirty, _, by rw [hroot]; rfl, hch'⟩, h.cached.put⟩
  refine ⟨hvalid, ?_⟩
  funext k
  refine Option.ext fun l => ?_
  rw [hvalid.lookup_eq_some]
  show l ∈ putLeaf leaf 0 m.root ∧ l.key = k ↔ _
  rw [hroot, putLeaf, hmem, ← hroot]
  by_cases hk : k = leaf.key
  · rw [hk, update_self, Option.some.injEq]
    constructor
    · rintro ⟨heq | ⟨-, hne⟩, hkey⟩
      · exact heq.symm
      · exact absurd hkey hne
    · rintro rfl
      exact ⟨.inl rfl, rfl⟩
  · rw [update_of_ne hk, h.lookup_eq_some]
    constructor
    · rintro ⟨rfl | ⟨hl, -⟩, hkey⟩
      · exact absurd hkey.symm hk
      · exact ⟨hl, hkey⟩
    · rintro ⟨hl, hkey⟩
      exact ⟨.inr ⟨hl, fun heq => hk (hkey ▸ heq)⟩, hkey⟩

theorem erase (hleaf : lookup m id = some leaf) :
    SHAMap.Valid H ⟨Radix.eraseWith selectBranch dirty (withItemOf leaf) id 0 m.root⟩ ∧
      lookup ⟨Radix.eraseWith selectBranch dirty (withItemOf leaf) id 0 m.root⟩ =
        Function.update (fun k => (lookup m k).map (Radix.rebuilt (withItemOf leaf) (pulledUp m id))) id none := by
  obtain ⟨c, ch, hroot, hch⟩ := h.shape
  obtain ⟨hin, hkey⟩ := h.lookup_eq_some.mp hleaf
  rw [hroot] at hin
  have hkeep : ∀ l, (Radix.rebuilt (withItemOf leaf) (pulledUp m id) l).key = l.key := by
    intro l
    unfold Radix.rebuilt
    split <;> rfl
  obtain ⟨hmem, hch'⟩ := hch.erase_spec dirty hin hkey
  have heq := hch.eraseWith_eq dirty (f := withItemOf leaf) (fun _ => rfl) hin hkey
  rw [← hroot] at heq hmem
  have hvalid : SHAMap.Valid H ⟨Radix.eraseWith selectBranch dirty (withItemOf leaf) id 0 m.root⟩ := by
    have hinner : Radix.erase selectBranch dirty id 0 m.root = .inner dirty
        (update ch (selectBranch 0 id) (Radix.erase selectBranch dirty id 1 (ch (selectBranch 0 id)))) := by
      rw [hroot]
      rfl
    exact ⟨⟨dirty, _, heq.trans (congrArg (Radix.map _) hinner), hch'.map_leaves hkeep⟩, h.cached.eraseWith⟩
  refine ⟨hvalid, ?_⟩
  funext k
  show Radix.find selectBranch SHAMapTreeNode.key k 0
    (Radix.eraseWith selectBranch dirty (withItemOf leaf) id 0 m.root) = _
  rw [heq]
  refine (Radix.find_map hkeep).trans ?_
  have hplaced : Radix.Placed selectBranch SHAMapTreeNode.key 0 (Radix.erase selectBranch dirty id 0 m.root) := by
    rw [hroot]
    exact fun b => ⟨(hch' b).1.placed, (hch' b).2⟩
  have herase : Radix.find selectBranch SHAMapTreeNode.key k 0 (Radix.erase selectBranch dirty id 0 m.root) =
      if k = id then none else lookup m k := by
    refine Option.ext fun l => ?_
    rw [Radix.find_eq_some hplaced, hmem]
    split
    next hk =>
      refine ⟨?_, fun hl => by cases hl⟩
      rintro ⟨⟨-, hne⟩, hl⟩
      exact absurd (hl.trans hk) hne
    next hk =>
      rw [h.lookup_eq_some]
      constructor
      · rintro ⟨⟨hl, -⟩, hlk⟩
        exact ⟨hl, hlk⟩
      · rintro ⟨hl, hlk⟩
        exact ⟨⟨hl, fun hli => hk (hlk.symm.trans hli)⟩, hlk⟩
  rw [herase]
  by_cases hk : k = id
  · rw [if_pos hk, hk, update_self, Option.map_none]
  · rw [if_neg hk, update_of_ne hk]

theorem walkSubTree :
    SHAMap.Valid H ⟨ShaMap.walkSubTree H m.root⟩ ∧ lookup ⟨ShaMap.walkSubTree H m.root⟩ = lookup m := by
  obtain ⟨c, ch, hroot, hch⟩ := h.shape
  obtain ⟨-, hstrip, hcached⟩ := h.cached.walkSubTree
  refine ⟨⟨?_, hcached⟩, ?_⟩
  · show ∃ c ch, ShaMap.walkSubTree H m.root = .inner c ch ∧ _
    rw [hroot] at hstrip ⊢
    cases hwalk : ShaMap.walkSubTree H (.inner c ch) with
    | empty =>
      rw [hwalk] at hstrip
      cases hstrip
    | leaf l =>
      rw [hwalk] at hstrip
      cases hstrip
    | inner c' ch' =>
      rw [hwalk] at hstrip
      exact ⟨c', ch', rfl, hch.of_strip_eq (congrFun (Radix.inner.inj hstrip).2)⟩
  · funext k
    show Radix.find selectBranch SHAMapTreeNode.key k 0 (ShaMap.walkSubTree H m.root) = _
    rw [← Radix.find_strip, hstrip, Radix.find_strip]
    rfl

theorem getHash :
    (getHash H m).1 = treeHash H m.root ∧ (ShaMap.getHash H m).2.Valid H ∧
      lookup (ShaMap.getHash H m).2 = lookup m := by
  obtain ⟨c, ch, hroot, hch⟩ := h.shape
  rw [ShaMap.getHash]
  split
  next hzero => exact ⟨h.cached.walkSubTree.1, h.walkSubTree⟩
  next hne =>
    refine ⟨?_, h, rfl⟩
    rw [hroot] at hne ⊢
    have hcached := h.cached
    rw [hroot] at hcached
    refine hcached.1 (by_contra fun hdirty => hne ?_)
    exact hcached.2.1 (Bool.eq_false_iff.mpr hdirty)

theorem getHash_eq (h' : m'.Valid H) (heq : lookup m = lookup m') :
    (ShaMap.getHash H m).1 = (ShaMap.getHash H m').1 := by
  have hmem : ∀ l, l ∈ m.root ↔ l ∈ m'.root := by
    intro l
    have hl := congrFun heq l.key
    constructor
    · intro hin
      rw [h.lookup_eq_some.mpr ⟨hin, rfl⟩] at hl
      exact (h'.lookup_eq_some.mp hl.symm).1
    · intro hin
      rw [h'.lookup_eq_some.mpr ⟨hin, rfl⟩] at hl
      exact (h.lookup_eq_some.mp hl).1
  obtain ⟨c, ch, hroot, hch⟩ := h.shape
  obtain ⟨c', ch', hroot', hch'⟩ := h'.shape
  rw [hroot, hroot'] at hmem
  rw [h.getHash.1, h'.getHash.1, hroot, hroot', ← treeHash_strip, hch.strip_eq hch' hmem, treeHash_strip]

end SHAMap.Valid

/-! ## Leaves with the same hash -/

theorem leaf_ext (hitem : leaf.item = l.item) (htype : leaf.type = l.type)
    (hroot : leaf.type = .tnCONTRACT_STATE → leaf.storageRoot.getD 0 = l.storageRoot.getD 0) : leaf = l := by
  obtain ⟨item, type, root, hiff⟩ := leaf
  obtain ⟨item', type', root', hiff'⟩ := l
  cases hitem
  cases htype
  congr 1
  cases root with
  | none =>
    cases root' with
    | none => rfl
    | some r' => exact absurd (hiff.mpr (hiff'.mp rfl)) Bool.false_ne_true
  | some r =>
    cases root' with
    | none => exact absurd (hiff'.mpr (hiff.mp rfl)) Bool.false_ne_true
    | some r' => exact congrArg some (hroot (hiff.mp rfl))

/-- The type, the data and the storage root that are hashed. -/
def Preimage.decode : Preimage → Option (TNType × Bytes × Word)
  | .transactionID data => some (.tnTRANSACTION_NM, data, 0)
  | .sha3 data => some (.tnTRANSACTION_NM, 0 :: data, 0)
  | .leafNode data _ => some (.tnACCOUNT_STATE, data, 0)
  | .leafNodeContract data storageRoot _ => some (.tnCONTRACT_STATE, data, storageRoot)
  | .txNode data _ => some (.tnTRANSACTION_MD, data, 0)
  | .innerNode _ => none

theorem decode_preimage (l : SHAMapTreeNode) :
    l.preimage.decode = some (l.type, l.item.data, if l.type = .tnCONTRACT_STATE then l.storageRoot.getD 0 else 0) := by
  unfold SHAMapTreeNode.preimage
  split
  next htype =>
    rw [htype]
    split
    next data hdata =>
      rw [hdata]
      rfl
    · rfl
  next htype =>
    rw [htype]
    rfl
  next htype =>
    rw [htype]
    rfl
  next htype =>
    rw [htype]
    rfl

theorem hash_inj (hkey : leaf.key = l.key) (h : leaf.hash H = l.hash H) : leaf = l := by
  have hdecode := congrArg Preimage.decode (H.inj h)
  rw [decode_preimage, decode_preimage, Option.some.injEq, Prod.mk.injEq, Prod.mk.injEq] at hdecode
  obtain ⟨htype, hdata, hroot⟩ := hdecode
  refine leaf_ext ?_ htype fun hcontract => ?_
  · obtain ⟨⟨tag', data'⟩, type', root', hiff'⟩ := l
    cases hkey
    cases hdata
    rfl
  · rwa [← htype, if_pos hcontract, if_pos hcontract] at hroot

/-! ## Runs -/

variable {a : Action} {actions : List Action}

theorem makeLeaf_key {item : SHAMapItem} {isTransaction hasMeta : Bool} {storageRoot : Option Word} :
    (makeLeaf item isTransaction hasMeta storageRoot).key = item.tag := by
  cases storageRoot <;> rfl

theorem withItemOf_eq : withItemOf leaf l = l ↔ l.type = leaf.type ∧ l.storageRoot = leaf.storageRoot := by
  constructor
  · intro h
    rw [← h]
    exact ⟨rfl, rfl⟩
  · rintro ⟨htype, hroot⟩
    refine leaf_ext rfl htype.symm fun _ => ?_
    rw [hroot]
    rfl

theorem SHAMap.Valid.delItem (h : m.Valid H) (id : Word) :
    (ShaMap.delItem m id).2.Valid H ∧
      (lookup (ShaMap.delItem m id).2 = Function.update (lookup m) id none ↔ SameKind m (.delItem id)) := by
  rw [delItem_eq h.root_ne]
  cases hlookup : lookup m id with
  | none =>
    refine ⟨h, iff_of_true ?_ fun leaf l hleaf => ?_⟩
    · show lookup m = update (lookup m) id none
      rw [← hlookup, update_eq_self]
    · rw [findKey_eq_lookup h.root_ne, hlookup] at hleaf
      cases hleaf
  | some leaf =>
    obtain ⟨hvalid, heq⟩ := h.erase hlookup
    refine ⟨hvalid, ?_⟩
    rw [heq]
    constructor
    · intro hsame leaf' l hleaf' hl
      rw [findKey_eq_lookup h.root_ne, hlookup] at hleaf'
      cases hleaf'
      obtain ⟨hin, hne⟩ := Radix.pulled_spec h.placed hl
      have hkey := congrFun hsame l.key
      rw [update_of_ne hne, update_of_ne hne, h.lookup_eq_some.mpr ⟨hin, rfl⟩, Option.map_some, hl,
        Radix.rebuilt_self, Option.some.injEq] at hkey
      exact withItemOf_eq.mp hkey
    · intro hsame
      congr 1
      funext k
      cases hk : lookup m k with
      | none => rfl
      | some l =>
        rw [Option.map_some, Option.some.injEq]
        by_cases hl : pulledUp m id = some l
        · rw [hl, Radix.rebuilt_self]
          refine withItemOf_eq.mpr (hsame leaf l ?_ hl)
          rw [findKey_eq_lookup h.root_ne, hlookup]
        · exact Radix.rebuilt_of_ne hl

/-- A step writes what it should if and only if it moves up no leaf of another kind. -/
theorem SHAMap.Valid.step (h : m.Valid H) (a : Action) :
    (step H m a).Valid H ∧ (lookup (ShaMap.step H m a) = write (lookup m) a ↔ SameKind m a) := by
  cases a with
  | addGiveItem item isTransaction hasMeta storageRoot =>
    rw [ShaMap.step, write, addGiveItem_eq h.root_ne, makeLeaf_key]
    split
    · exact ⟨h, iff_of_true rfl trivial⟩
    · obtain ⟨hvalid, heq⟩ := h.put (makeLeaf item isTransaction hasMeta storageRoot)
      rw [makeLeaf_key] at heq
      exact ⟨hvalid, iff_of_true heq trivial⟩
  | updateGiveItem item isTransaction hasMeta storageRoot =>
    rw [ShaMap.step, write, updateGiveItem_eq h.root_ne, makeLeaf_key]
    cases hlookup : lookup m item.tag with
    | none => exact ⟨h, iff_of_true rfl trivial⟩
    | some l =>
      obtain ⟨hvalid, heq⟩ := h.put (makeLeaf item isTransaction hasMeta storageRoot)
      rw [makeLeaf_key] at heq
      dsimp only
      split
      next hsame =>
        -- the leaf is written again as it is
        have hkey := (h.lookup_eq_some.mp hlookup).2
        have hl := hash_inj (makeLeaf_key.trans hkey.symm) hsame
        refine ⟨h, iff_of_true ?_ trivial⟩
        rw [Option.isSome_some, if_pos rfl, hl, ← hlookup, update_eq_self]
      · exact ⟨hvalid, iff_of_true heq trivial⟩
  | delItem id => exact h.delItem id
  | getHash =>
    obtain ⟨-, hvalid, heq⟩ := h.getHash
    exact ⟨hvalid, iff_of_true heq trivial⟩

theorem valid_final (h : m.Valid H) : (Run.final (step H) m actions).Valid H := by
  induction actions generalizing m with
  | nil => exact h
  | cons a actions ih => exact ih (h.step a).1

theorem written_iff (h : m.Valid H) (actions : List Action) :
    (∀ pre, pre <+: actions → lookup (Run.final (step H) m pre) = Run.final write (lookup m) pre) ↔
      Run.Along (step H) SameKind m actions := by
  refine Run.forall_prefix_iff (fun pre m' => lookup m' = Run.final write (lookup m) pre) rfl fun pre a hpre => ?_
  rw [Run.final_append, ← hpre]
  exact (SHAMap.Valid.step (valid_final h) a).2

/-- After every call the tree holds what has been written last, and its hash depends only on this, if and only
if no leaf has been moved up by the deletion of one of another type or storage root. -/
theorem content_and_hash_iff (H : NodeHasher) (actions : List Action) :
    (∀ pre, pre <+: actions → (∀ key, findKey (after H pre) key = written pre key) ∧
      ∀ other, Run.Along (step H) SameKind .empty other → written other = written pre →
        (getHash H (after H other)).1 = (getHash H (after H pre)).1) ↔
      Run.Along (step H) SameKind .empty actions := by
  have hvalid : ∀ actions, (after H actions).Valid H := fun actions => valid_final valid_empty
  have hiff := written_iff (H := H) valid_empty actions
  constructor
  · intro hall
    refine hiff.mp fun pre hpre => ?_
    funext key
    exact (findKey_eq_lookup (hvalid pre).root_ne).symm.trans ((hall pre hpre).1 key)
  · intro hrun pre hpre
    have hpre' : lookup (after H pre) = written pre := hiff.mpr hrun pre hpre
    refine ⟨fun key => ?_, fun other hother heq => ?_⟩
    · rw [findKey_eq_lookup (hvalid pre).root_ne, hpre']
    · have hother' : lookup (after H other) = written other :=
        (written_iff valid_empty other).mpr hother other (List.prefix_refl other)
      refine (hvalid other).getHash_eq (hvalid pre) ?_
      rw [hother', hpre', heq]

def demoKey (byte : ℕ) : Word := BitVec.ofNat 256 (byte * 256 ^ 31)

def demoActions : List Action :=
  [.addGiveItem ⟨demoKey 0x11, [1]⟩ false false (some 5), .addGiveItem ⟨demoKey 0x12, [2]⟩ false false none,
    .delItem (demoKey 0x12)]

/-- The contract loses its storage root when the account is deleted. -/
theorem contract_becomes_account :
    (findKey (after codeNodeHasher demoActions) (demoKey 0x11)).map (fun l => (l.type, l.storageRoot)) =
        some (.tnACCOUNT_STATE, none) ∧
      (written demoActions (demoKey 0x11)).map (fun l => (l.type, l.storageRoot)) =
        some (.tnCONTRACT_STATE, some 5) := by
  decide

end Chainsql.ShaMap
