import Chainsql.Storage.ContractHelper

/-!
# The tree of a contract

All leaves of such a tree are of one kind, so that the changes of a build are those of a map, and trees with
the same hash hold the same leaves.
-/

namespace Chainsql.Storage

open ShaMap Function

open Evm (AccountID Word Bytes)
open ShaMap (SHAMap SHAMapItem SHAMapTreeNode NodeHasher Node)

variable {H : Hashes} {contract : AccountID} {values : Word → Word} {key : Word} {m m' : SHAMap}

/-! ## Hashes -/

/-- All leaves are of the type of plain items. -/
def AllPlain (node : Node) : Prop := ∀ leaf ∈ node, leaf.type = .tnACCOUNT_STATE

theorem not_mem_of_treeHash_eq_zero {node : Node} (h : ShaMap.treeHash H.toNodeHasher node = zeroHash)
    (leaf : SHAMapTreeNode) : leaf ∉ node := by
  cases node with
  | empty => exact Radix.not_mem_empty
  | leaf l => exact absurd h (H.ne_zero _)
  | inner c ch =>
    rw [treeHash] at h
    split at h
    next hnil =>
      rintro ⟨b, hb⟩
      have := Radix.mem_of_branches_eq hnil hb
      cases this
    · exact absurd h (H.ne_zero _)

variable {l : SHAMapTreeNode} {value : Word}

theorem leaf_eq_of_hash_eq {l' : SHAMapTreeNode} (hl : l.type = .tnACCOUNT_STATE) (hl' : l'.type = .tnACCOUNT_STATE)
    (h : l.hash H.toNodeHasher = l'.hash H.toNodeHasher) : l = l' := by
  have hpre := H.inj h
  rw [SHAMapTreeNode.preimage, SHAMapTreeNode.preimage, hl, hl'] at hpre
  exact hash_inj (ShaMap.Preimage.leafNode.inj hpre).2 h

theorem leaf_hash_ne_inner (hl : l.type = .tnACCOUNT_STATE) (hashes : List HashValue) :
    l.hash H.toNodeHasher ≠ H.hash (.innerNode hashes) := by
  intro h
  have hpre := H.inj h
  rw [SHAMapTreeNode.preimage, hl] at hpre
  cases hpre

theorem mem_iff_of_treeHash_eq {t t' : Node} (ht : AllPlain t) (ht' : AllPlain t')
    (h : ShaMap.treeHash H.toNodeHasher t = ShaMap.treeHash H.toNodeHasher t') (leaf : SHAMapTreeNode) :
    leaf ∈ t ↔ leaf ∈ t' := by
  by_cases hzero : treeHash H.toNodeHasher t = zeroHash
  · exact iff_of_false (not_mem_of_treeHash_eq_zero hzero leaf) (not_mem_of_treeHash_eq_zero (h ▸ hzero) leaf)
  induction t generalizing t' with
  | empty => exact absurd rfl hzero
  | leaf l =>
    cases t' with
    | empty => exact absurd h hzero
    | leaf l' => rw [leaf_eq_of_hash_eq (ht l rfl) (ht' l' rfl) h]
    | inner c ch =>
      rw [treeHash, treeHash] at h
      split at h
      · exact absurd h hzero
      · exact absurd h (leaf_hash_ne_inner (ht l rfl) _)
  | inner c ch ih =>
    have hbranches : Radix.branches ch ≠ [] := fun hnil => hzero (if_pos hnil)
    rw [treeHash, if_neg hbranches] at h
    cases t' with
    | empty => exact absurd h (H.ne_zero _)
    | leaf l' => exact absurd h.symm (leaf_hash_ne_inner (ht' l' rfl) _)
    | inner c' ch' =>
      rw [treeHash] at h
      split at h
      · exact absurd h (H.ne_zero _)
      have hchild := List.ofFn_injective (ShaMap.Preimage.innerNode.inj (H.inj h))
      refine exists_congr fun b => ?_
      have hb := congrFun hchild b
      by_cases hempty : treeHash H.toNodeHasher (ch b) = zeroHash
      · exact iff_of_false (not_mem_of_treeHash_eq_zero hempty leaf) (not_mem_of_treeHash_eq_zero (hb ▸ hempty) leaf)
      · exact ih b (fun l hl => ht l ⟨b, hl⟩) (fun l hl => ht' l ⟨b, hl⟩) hb hempty

/-! ## The operations -/

theorem slotLeaf_type : (slotLeaf H contract key value).type = .tnACCOUNT_STATE := rfl

theorem slotLeaf_value : Evm.Word.ofBytes (slotLeaf H contract key value).item.data = value := Evm.Word.ofBytes_toBytes value

namespace Holds

variable (h : Holds H contract values m)
include h

theorem lookup_iff {id : Word} {leaf : SHAMapTreeNode} : ShaMap.lookup m id = some leaf ↔
    ∃ key, id = H.realKey contract key ∧ values key ≠ 0 ∧ leaf = slotLeaf H contract key (values key) := by
  rw [← findKey_eq_lookup h.valid.root_ne]
  exact h.content id leaf

theorem lookup_eq (key : Word) : ShaMap.lookup m (H.realKey contract key) =
    if values key = 0 then none else some (slotLeaf H contract key (values key)) := by
  refine Option.ext fun leaf => ?_
  rw [h.lookup_iff]
  split
  next hzero =>
    refine iff_of_false ?_ (Option.some_ne_none leaf).symm
    rintro ⟨key', hkey, hne, -⟩
    rw [H.realKey_inj contract hkey] at hzero
    exact hne hzero
  next hne =>
    rw [Option.some.injEq]
    constructor
    · rintro ⟨key', hkey, -, rfl⟩
      rw [H.realKey_inj contract hkey]
    · rintro rfl
      exact ⟨key, rfl, hne, rfl⟩

theorem allPlain : AllPlain m.root := by
  intro leaf hleaf
  obtain ⟨key, -, -, rfl⟩ := h.lookup_iff.mp (h.valid.lookup_eq_some.mpr ⟨hleaf, rfl⟩)
  exact slotLeaf_type

variable {values' : Word → Word}

theorem of_lookup (hvalid : m'.Valid H.toNodeHasher)
    (hother : ∀ id, (∀ key, id ≠ H.realKey contract key) → ShaMap.lookup m' id = ShaMap.lookup m id)
    (hslots : ∀ key, ShaMap.lookup m' (H.realKey contract key) =
      if values' key = 0 then none else some (slotLeaf H contract key (values' key))) :
    Holds H contract values' m' := by
  refine ⟨hvalid, fun id leaf => ?_⟩
  rw [findKey_eq_lookup hvalid.root_ne]
  by_cases hid : ∃ key, id = H.realKey contract key
  · obtain ⟨key, rfl⟩ := hid
    rw [hslots]
    split
    next hzero =>
      refine iff_of_false (Option.some_ne_none leaf).symm ?_
      rintro ⟨key', hkey, hne, -⟩
      rw [H.realKey_inj contract hkey] at hzero
      exact hne hzero
    next hne =>
      rw [Option.some.injEq]
      constructor
      · rintro rfl
        exact ⟨key, rfl, hne, rfl⟩
      · rintro ⟨key', hkey, -, rfl⟩
        rw [H.realKey_inj contract hkey]
  · have hne : ∀ key, id ≠ H.realKey contract key := fun key heq => hid ⟨key, heq⟩
    rw [hother id hne, h.lookup_iff]
    refine iff_of_false ?_ ?_
    · rintro ⟨key, hkey, -⟩
      exact hne key hkey
    · rintro ⟨key, hkey, -⟩
      exact hne key hkey

theorem of_lookup_eq (hvalid : m'.Valid H.toNodeHasher) (heq : ShaMap.lookup m' = ShaMap.lookup m) :
    Holds H contract values m' :=
  h.of_lookup hvalid (fun id _ => congrFun heq id) fun key => (congrFun heq _).trans (h.lookup_eq key)

theorem of_write {value : Word} {a : ShaMap.Action} (hsame : ShaMap.SameKind m a)
    (hwrite : ShaMap.write (ShaMap.lookup m) a = Function.update (ShaMap.lookup m) (H.realKey contract key)
      (if value = 0 then none else some (slotLeaf H contract key value))) :
    Holds H contract (Function.update values key value) (ShaMap.step H.toNodeHasher m a) := by
  obtain ⟨hvalid, hstep⟩ := h.valid.step a
  have hlookup := (hstep.mpr hsame).trans hwrite
  refine h.of_lookup hvalid (fun id hid => ?_) fun key' => ?_
  · rw [hlookup, update_of_ne (hid key)]
  · rw [hlookup]
    by_cases hkey : key' = key
    · rw [hkey, update_self, update_self]
    · rw [update_of_ne fun heq => hkey (H.realKey_inj contract heq), update_of_ne hkey, h.lookup_eq]

theorem modifyMap {value : ContractValueType} (hexist : value.existInDB = true ↔ values key ≠ 0) :
    Holds H contract (Function.update values key value.value) (modifyMap H contract m key value) := by
  have hlookup := h.lookup_eq key
  rw [Storage.modifyMap, getOpType]
  by_cases hdb : value.existInDB = true
  · rw [if_neg (hexist.mp hdb)] at hlookup
    by_cases hzero : value.value = 0
    · rw [if_pos hzero, if_pos hdb]
      refine h.of_write (fun leaf l hleaf hl => ?_) ?_
      · -- the leaf that is moved up and the deleted one are both plain
        rw [findKey_eq_lookup h.valid.root_ne, hlookup] at hleaf
        cases hleaf
        have hin := h.valid.lookup_eq_some.mpr ⟨(Radix.pulled_spec h.valid.placed hl).1, rfl⟩
        obtain ⟨key', -, -, rfl⟩ := h.lookup_iff.mp hin
        exact ⟨rfl, rfl⟩
      · rw [write, if_pos hzero]
    · rw [if_neg hzero, if_pos hdb]
      refine h.of_write trivial ?_
      show (if (lookup m (H.realKey contract key)).isSome then _ else _) = _
      rw [hlookup, if_neg hzero]
      rfl
  · have hvalues : values key = 0 := by_contra fun hne => hdb (hexist.mpr hne)
    rw [if_pos hvalues] at hlookup
    by_cases hzero : value.value = 0
    · rw [if_pos hzero, if_neg hdb, hzero, ← hvalues, update_eq_self]
      exact h
    · rw [if_neg hzero, if_neg hdb]
      refine h.of_write trivial ?_
      show (if (lookup m (H.realKey contract key)).isSome then _ else _) = _
      rw [hlookup, if_neg hzero]
      rfl

theorem flushDirty : Holds H contract values (flushDirty H m) := by
  obtain ⟨hvalid, hlookup⟩ := h.valid.walkSubTree
  exact h.of_lookup_eq hvalid hlookup

theorem of_getHash_eq {contract' : AccountID} (h' : Holds H contract' values' m')
    (heq : (ShaMap.getHash H.toNodeHasher m).1 = (ShaMap.getHash H.toNodeHasher m').1) :
    Holds H contract' values' m := by
  rw [h.valid.getHash.1, h'.valid.getHash.1] at heq
  refine h'.of_lookup_eq h.valid ?_
  funext id
  refine Option.ext fun leaf => ?_
  rw [h.valid.lookup_eq_some, h'.valid.lookup_eq_some, mem_iff_of_treeHash_eq h.allPlain h'.allPlain heq]

end Holds

theorem holds_empty : Holds H contract (fun _ => 0) .empty := by
  refine ⟨valid_empty, fun id leaf => iff_of_false (Option.some_ne_none leaf).symm ?_⟩
  rintro ⟨key, -, hne, -⟩
  exact hne rfl

def written (values : Word → Word) (l : List (Sigma fun _ : Word => ContractValueType)) (key : Word) : Word :=
  ((l.dlookup key).map (·.value)).getD (values key)

theorem Holds.foldl_modifyMap {l : List (Sigma fun _ : Word => ContractValueType)} (hl : l.NodupKeys)
    (h : Holds H contract values m) (hexist : ∀ e ∈ l, e.2.existInDB = true ↔ values e.1 ≠ 0) :
    Holds H contract (written values l) (l.foldl (fun m e => Storage.modifyMap H contract m e.1 e.2) m) := by
  induction l generalizing values m with
  | nil => exact h
  | cons e l ih =>
    obtain ⟨key, value⟩ := e
    have hnodup := List.nodupKeys_cons.mp hl
    have hne : ∀ e ∈ l, e.1 ≠ key := by
      rintro e he rfl
      exact hnodup.1 (List.mem_keys_of_mem (s := e) he)
    have hhead := h.modifyMap (hexist ⟨key, value⟩ List.mem_cons_self)
    have hrest := ih hnodup.2 hhead fun e he => by
      rw [update_of_ne (hne e he)]
      exact hexist e (List.mem_cons_of_mem _ he)
    have hwritten : written (update values key value.value) l = written values (⟨key, value⟩ :: l) := by
      funext key'
      rw [written, written]
      by_cases hkey : key' = key
      · subst hkey
        rw [List.dlookup_cons_eq, List.dlookup_eq_none.mpr hnodup.1, update_self]
        rfl
      · rw [List.dlookup_cons_ne l ⟨key, value⟩ hkey, update_of_ne hkey]
    rw [hwritten] at hrest
    exact hrest

end Chainsql.Storage
