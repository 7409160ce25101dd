import Chainsql.ShaMap.Content

/-!
# Merkle proofs

`genNodeProof` lists the hashes of the children of every node above a leaf, the root last, and `verifyProof`
recomputes the root from them. It asks neither where a hash lies in the tree nor what it is the hash of, so it
accepts those of inner nodes and of empty branches too.
-/

namespace Chainsql.ShaMap

open Evm (Word)

/-- A level: the bits of its branches, and the hashes, unless one has another size. -/
structure Level where
  branch : Fin 16 → Bool
  nodeid : List (Option HashValue)

structure TMSHAMapProof where
  rootid : Option HashValue
  level : List Level

/-- The hashes on all branches, with zero where the bit is not set. -/
def fill : List Bool → List HashValue → List HashValue
  | [], _ => []
  | true :: bits, nodeID :: nodeIDs => nodeID :: fill bits nodeIDs
  | _ :: bits, nodeIDs => zeroHash :: fill bits nodeIDs

variable (H : NodeHasher) {Blob : Type} (parse : Blob → Option TMSHAMapProof) (serialize : TMSHAMapProof → Blob)

/-- The body of the loop of `verifyProof`. -/
def verifyLevel (child : HashValue) (level : Level) : Option HashValue :=
  let branchCount := ((List.finRange 16).filter level.branch).length
  if branchCount = 0 ∨ branchCount ≠ level.nodeid.length ∨ none ∈ level.nodeid then none
  else if child ∉ level.nodeid.filterMap id then none
  else some (H.hash (.innerNode (fill ((List.finRange 16).map level.branch) (level.nodeid.filterMap id))))

def verifyProof (nodeHash : HashValue) (proofBlob : Blob) (rootHash : HashValue) : Bool :=
  match parse proofBlob with
  | none => false
  | some proof => proof.rootid = some rootHash ∧ proof.level.foldlM (verifyLevel H) nodeHash = some rootHash

def levelOf : Node → Level
  | .inner _ ch => ⟨fun b => !(ch b).isEmpty, (Radix.branches ch).map fun b => some (getNodeHash H (ch b))⟩
  | _ => ⟨fun _ => false, []⟩

def rootOf (stack : Stack) : Option HashValue :=
  stack.foldl (fun root e => if e.2 = 0 then some (getNodeHash H e.1) else root) none

/-- The hash of the leaf and its proof, or the empty pair. -/
def genNodeProof (m : SHAMap) (key : Word) : Option (HashValue × Blob) :=
  match walkTowardsKey key m.root 0 [] with
  | (.leaf leaf, _) :: stack =>
    if leaf.key ≠ key then none
    else if stack = [] then some (leaf.hash H, serialize ⟨some (leaf.hash H), []⟩)
    else some (leaf.hash H, serialize ⟨rootOf H stack, stack.map fun e => levelOf H e.1⟩)
  | _ => none

variable {H} {ch : Fin 16 → Node} {node : Node} {h child r : HashValue} {level : Level} {levels : List Level}

/-! ## One level -/

theorem fill_filter {branch : Fin 16 → Bool} (hashes : Fin 16 → HashValue)
    (hzero : ∀ b, branch b = false → hashes b = zeroHash) (bs : List (Fin 16)) :
    fill (bs.map branch) ((bs.filter branch).map hashes) = bs.map hashes := by
  induction bs with
  | nil => rfl
  | cons b bs ih => cases hb : branch b <;> simp [fill, hb, ih, hzero]

theorem mem_fill {bits : List Bool} {nodeIDs : List HashValue} (hcount : nodeIDs.length ≤ bits.count true)
    (hmem : h ∈ nodeIDs) : h ∈ fill bits nodeIDs := by
  induction bits generalizing nodeIDs with
  | nil => simp_all
  | cons b bits ih =>
    cases b with
    | false => exact List.mem_cons_of_mem _ (ih (by simpa using hcount) hmem)
    | true =>
      cases nodeIDs with
      | nil => cases hmem
      | cons nodeID nodeIDs => exact List.mem_cons.mpr ((List.mem_cons.mp hmem).imp_right (ih (by simpa using hcount)))

theorem verifyLevel_of_branch (branch : Fin 16 → Bool) (hempty : ∀ b, branch b = false → ch b = .empty) {b : Fin 16}
    (hb : branch b = true) :
    verifyLevel H (treeHash H (ch b))
        ⟨branch, ((List.finRange 16).filter branch).map fun b => some (treeHash H (ch b))⟩
      = some (H.hash (.innerNode (List.ofFn fun b => treeHash H (ch b)))) := by
  have hmem : b ∈ (List.finRange 16).filter branch := by simp [hb]
  have hfill := fill_filter (fun b => treeHash H (ch b)) (fun b hb => by rw [hempty b hb, treeHash]) (List.finRange 16)
  have hsome : (((List.finRange 16).filter branch).map fun b => some (treeHash H (ch b))).filterMap id
      = ((List.finRange 16).filter branch).map fun b => treeHash H (ch b) := by
    simp [List.filterMap_map]
  rw [verifyLevel, if_neg, if_neg, hsome, hfill, List.ofFn_eq_map]
  · rw [hsome, not_not]
    exact List.mem_map_of_mem hmem
  · simp [List.ne_nil_of_mem hmem]

theorem mem_of_verifyLevel (hlevel : verifyLevel H h level = some r) :
    ∃ hashes, r = H.hash (.innerNode hashes) ∧ h ∈ hashes := by
  rw [verifyLevel] at hlevel
  split at hlevel
  · cases hlevel
  next hsize =>
    split at hlevel
    · cases hlevel
    next hmem =>
      refine ⟨_, (Option.some.inj hlevel).symm, mem_fill ?_ (not_not.mp hmem)⟩
      rw [List.count, List.countP_map, List.countP_eq_length_filter]
      have hle := List.length_filterMap_le id level.nodeid
      have hlen : ((List.finRange 16).filter level.branch).length = level.nodeid.length := by grind
      simpa [Function.comp_def, hlen] using hle

/-! ## What is accepted -/

variable (H h) in
/-- The hash is the one of an inner node or an empty branch. -/
def Internal : Node → Prop
  | .empty => h = zeroHash
  | .leaf _ => False
  | .inner c ch => h = treeHash H (.inner c ch) ∨ ∃ b, Internal (ch b)

theorem reached_concat (hlevels : levels.foldlM (verifyLevel H) h = some child)
    (hlevel : verifyLevel H child level = some r) : (levels ++ [level]).foldlM (verifyLevel H) h = some r := by
  simp [List.foldlM_append, hlevels, hlevel]

/-- A root is reached without levels, or as the hash of an inner node. -/
theorem reached_cases (hlevels : levels.foldlM (verifyLevel H) h = some r) :
    h = r ∨ ∃ init child hashes, List.foldlM (verifyLevel H) h init = some child
      ∧ r = H.hash (.innerNode hashes) ∧ child ∈ hashes := by
  rcases levels.eq_nil_or_concat' with rfl | ⟨init, last, rfl⟩
  · exact .inl (Option.some.inj hlevels)
  · simp only [List.foldlM_append, List.foldlM_cons, List.foldlM_nil, bind_pure, Option.bind_eq_bind,
      Option.bind_eq_some_iff] at hlevels
    obtain ⟨child, hinit, hlast⟩ := hlevels
    obtain ⟨hashes, hhash, hmem⟩ := mem_of_verifyLevel hlast
    exact .inr ⟨init, child, hashes, hinit, hhash, hmem⟩

theorem hash_ne_inner (l : SHAMapTreeNode) (hashes : List HashValue) : l.hash H ≠ H.hash (.innerNode hashes) := by
  intro heq
  have hdecode := decode_preimage l
  rw [H.inj heq] at hdecode
  cases hdecode

theorem accepted_of_levels (hH : ∀ p, H.hash p ≠ zeroHash) (hlevels : levels.foldlM (verifyLevel H) h = some (treeHash H node)) :
    Internal H h node ∨ ∃ l ∈ node, l.hash H = h := by
  induction node generalizing levels with
  | empty =>
    rcases reached_cases hlevels with rfl | ⟨init, child, hashes, -, hhash, -⟩
    · exact .inl rfl
    · exact absurd hhash.symm (hH _)
  | leaf l =>
    rcases reached_cases hlevels with rfl | ⟨init, child, hashes, -, hhash, -⟩
    · exact .inr ⟨l, rfl, rfl⟩
    · exact absurd hhash (hash_ne_inner l hashes)
  | inner c ch ih =>
    rcases reached_cases hlevels with rfl | ⟨init, child, hashes, hinit, hhash, hmem⟩
    · exact .inl (.inl rfl)
    · rw [treeHash] at hhash
      split at hhash
      · exact absurd hhash.symm (hH _)
      · rw [← Preimage.innerNode.inj (H.inj hhash)] at hmem
        obtain ⟨b, rfl⟩ := (List.mem_ofFn' _ _).mp hmem
        rcases ih b hinit with hb | ⟨l, hl, heq⟩
        · exact .inl (.inr ⟨b, hb⟩)
        · exact .inr ⟨l, ⟨b, hl⟩, heq⟩

theorem exists_levels (hinternal : Internal H h node) :
    ∃ levels : List Level, levels.foldlM (verifyLevel H) h = some (treeHash H node) := by
  induction node with
  | empty => exact ⟨[], congrArg some hinternal⟩
  | leaf l => exact hinternal.elim
  | inner c ch ih =>
    rcases hinternal with rfl | ⟨b, hb⟩
    · exact ⟨[], rfl⟩
    · obtain ⟨levels, hlevels⟩ := ih b hb
      by_cases hempty : Radix.branches ch = []
      · have hb : ch b = .empty := by_contra fun hne => by simpa [hempty] using Radix.mem_branches.mpr hne
        exact ⟨levels, by rw [hlevels, hb, treeHash, treeHash, if_pos hempty]⟩
      · rw [treeHash, if_neg hempty]
        exact ⟨_, reached_concat hlevels (verifyLevel_of_branch (fun _ => true) (by simp) rfl)⟩

theorem not_internal_leaf (hH : ∀ p, H.hash p ≠ zeroHash) (l : SHAMapTreeNode) : ¬Internal H (l.hash H) node := by
  induction node with
  | empty => exact hH _
  | leaf l' => exact id
  | inner c ch ih =>
    rintro (heq | ⟨b, hb⟩)
    · rw [treeHash] at heq
      split at heq
      · exact hH _ heq
      · exact hash_ne_inner l _ heq
    · exact ih b hb

/-- Every hash that is accepted is the one of a leaf if and only if none of the others is. -/
theorem verifyProof_sound_iff (H : NodeHasher) (hH : ∀ p, H.hash p ≠ zeroHash) (parse : Blob → Option TMSHAMapProof)
    (serialize : TMSHAMapProof → Blob) (hparse : ∀ proof, parse (serialize proof) = some proof) (m : SHAMap)
    (hm : m.Valid H) (h : HashValue) :
    (∀ proofBlob, verifyProof H parse h proofBlob (getHash H m).1 = true → ∃ l ∈ m.root, l.hash H = h)
      ↔ ¬Internal H h m.root := by
  rw [hm.getHash.1]
  constructor
  · intro hall hinternal
    obtain ⟨levels, hlevels⟩ := exists_levels hinternal
    obtain ⟨l, -, rfl⟩ := hall (serialize ⟨some (treeHash H m.root), levels⟩) (by simp [verifyProof, hparse, hlevels])
    exact not_internal_leaf hH l hinternal
  · intro hinternal proofBlob hverify
    rw [verifyProof] at hverify
    split at hverify
    · cases hverify
    · exact (accepted_of_levels hH (of_decide_eq_true hverify).2).resolve_left hinternal

def demoHasher : NodeHasher := ⟨fun p => codeNodeHasher.hash p + 1, (Nat.succ_injective).comp codeNodeHasher.inj⟩

theorem demoHasher_ne (p : Preimage) : demoHasher.hash p ≠ zeroHash := Nat.succ_ne_zero _

def demoMap : SHAMap := ⟨walkSubTree demoHasher (after demoHasher [.addGiveItem ⟨1, [5]⟩ true false none]).root⟩

theorem demoMap_valid : demoMap.Valid demoHasher := (SHAMap.Valid.walkSubTree (valid_final valid_empty)).1

theorem verifyProof_sound_iff_leaf :
    let h := (makeLeaf ⟨1, [5]⟩ true false none).hash demoHasher
    ¬Internal demoHasher h demoMap.root ∧
      ∀ proof, verifyProof demoHasher some h proof (getHash demoHasher demoMap).1 = true →
        ∃ l ∈ demoMap.root, l.hash demoHasher = h :=
  have hinternal := not_internal_leaf demoHasher_ne _
  ⟨hinternal, (verifyProof_sound_iff demoHasher demoHasher_ne some id (fun _ => rfl) demoMap demoMap_valid _).mpr hinternal⟩

/-- The hash of the root is confirmed, which is not the hash of a transaction. -/
theorem verifyProof_root :
    let r := (getHash demoHasher demoMap).1
    verifyProof demoHasher some r ⟨some r, []⟩ r = true ∧ ∀ l : SHAMapTreeNode, l.hash demoHasher ≠ r := by
  refine ⟨by simp [verifyProof], fun l heq => ?_⟩
  rw [demoMap_valid.getHash.1] at heq
  exact not_internal_leaf demoHasher_ne l (show Internal demoHasher _ demoMap.root from .inl heq)

/-! ## What is generated -/

variable (H) in
/-- All hashes in the nodes are right, as in a map that is immutable. -/
def Hashed : Node → Prop
  | .inner c ch => c.mHash = treeHash H (.inner c ch) ∧ ∀ b, Hashed (ch b)
  | _ => True

theorem getNodeHash_eq (h : Hashed H node) : getNodeHash H node = treeHash H node := by
  cases node with
  | inner c ch => exact h.1
  | _ => rfl

theorem walk_levels {key : Word} {depth depth' : ℕ} {stack rest : Stack} {l : SHAMapTreeNode} (h : Hashed H node)
    (hwalk : walkTowardsKey key node depth stack = (.leaf l, depth') :: rest)
    (hstack : ∀ l depth rest, stack ≠ (.leaf l, depth) :: rest) :
    ∃ new, rest = new ++ stack ∧ (new.map fun e => levelOf H e.1).foldlM (verifyLevel H) (l.hash H) = some (treeHash H node)
      ∧ (node.isInner → ∃ init, new = init ++ [(node, depth)]) := by
  induction node generalizing depth stack with
  | empty => exact absurd hwalk (hstack l depth' rest)
  | leaf l' =>
    cases hwalk
    exact ⟨[], rfl, rfl, by simp [Radix.isInner]⟩
  | inner c ch ih =>
    obtain ⟨new, rfl, hlevels, -⟩ := ih _ (h.2 _) hwalk (fun l depth rest heq => by cases heq)
    refine ⟨new ++ [(.inner c ch, depth)], by simp, ?_, fun _ => ⟨new, rfl⟩⟩
    rw [List.map_append]
    refine reached_concat hlevels ?_
    have hne : ch (selectBranch depth key) ≠ .empty := by
      intro hempty
      rw [walkTowardsKey, hempty] at hwalk
      cases hwalk
    have hbranches : Radix.branches ch ≠ [] := List.ne_nil_of_mem (Radix.mem_branches.mpr hne)
    simp only [levelOf, fun b => getNodeHash_eq (h.2 b)]
    rw [treeHash, if_neg hbranches]
    have hisEmpty : ∀ b, (!(ch b).isEmpty) = false ↔ ch b = .empty := fun b => by cases ch b <;> simp [Radix.isEmpty]
    exact verifyLevel_of_branch _ (fun b => (hisEmpty b).mp) (Bool.of_not_eq_false fun hb => hne ((hisEmpty _).mp hb))

theorem genNodeProof_verified (H : NodeHasher) (parse : Blob → Option TMSHAMapProof)
    (serialize : TMSHAMapProof → Blob) (hparse : ∀ proof, parse (serialize proof) = some proof) (m : SHAMap)
    (hm : m.Valid H) (hashed : Hashed H m.root) (key : Word) :
    (∀ leaf, findKey m key = some leaf → ∃ proofBlob, genNodeProof H serialize m key = some (leaf.hash H, proofBlob)
        ∧ verifyProof H parse (leaf.hash H) proofBlob (getHash H m).1 = true)
      ∧ (findKey m key = none → genNodeProof H serialize m key = none) := by
  rcases walk_cases key m.root 0 [] with hempty | ⟨leaf, depth, rest, hwalk, -⟩ | ⟨c, ch, depth, rest, hwalk, -⟩
  · exact absurd hempty hm.root_ne
  · by_cases hkey : leaf.key = key
    · obtain ⟨c, ch, hroot, -⟩ := hm.shape
      obtain ⟨new, rfl, hlevels, hinit⟩ := walk_levels hashed hwalk fun _ _ _ heq => by cases heq
      obtain ⟨init, rfl⟩ := hinit (by rw [hroot]; rfl)
      have hrootid : rootOf H (init ++ [(m.root, 0)]) = some (treeHash H m.root) := by
        simp [rootOf, getNodeHash_eq hashed]
      simp [findKey, genNodeProof, hwalk, hkey, verifyProof, hparse, hm.getHash.1, hrootid]
      simpa using hlevels
    · simp [findKey, genNodeProof, hwalk, hkey]
  · simp [findKey, genNodeProof, hwalk]

theorem genNodeProof_verified_transaction :
    ∃ proofBlob, genNodeProof demoHasher id demoMap 1
        = some ((makeLeaf ⟨1, [5]⟩ true false none).hash demoHasher, proofBlob)
      ∧ verifyProof demoHasher some ((makeLeaf ⟨1, [5]⟩ true false none).hash demoHasher) proofBlob
        (getHash demoHasher demoMap).1 = true := by
  have hashed : Hashed demoHasher demoMap.root := by
    refine ⟨demoMap_valid.cached.1 rfl, fun b => ?_⟩
    dsimp only
    rw [Function.update_apply]
    split <;> trivial
  exact (genNodeProof_verified demoHasher some id (fun _ => rfl) demoMap demoMap_valid hashed 1).1 _ rfl

end Chainsql.ShaMap
