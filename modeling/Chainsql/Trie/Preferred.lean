import Mathlib.Data.Finset.Sort
import Mathlib.Data.Prod.Lex
import Mathlib.Order.Lattice.Nat
import Chainsql.Trie.Invariant

/-!
# The preferred ledger

`preferred` walks the plain ancestry tree of a multiset of ledgers one sequence number at a time: to the
child with the largest support, as long as its margin exceeds the support that is not committed. The
walk of the trie along its compressed spans ends at the same ledger, so that it depends only on the
multiset and not on the operations that led to it.
-/

namespace Chainsql.LedgerTrie

open Lineage

variable {L ID : Type*} [Lineage L ID]

namespace Plain

variable [LinearOrder ID] (M : Multiset L) (largestIssued : Nat)

def branch (p : Nat × ID) : Nat := M.countP fun a => Passes a p

def uncommitted (s : Nat) : Nat := M.countP fun a => seq a < max s largestIssued

def children (p : Nat × ID) : Finset ID :=
  ((M.filter fun a => p.1 < seq a ∧ Passes a p).map fun a => ancestor a (p.1 + 1)).toFinset

def rank (s : Nat) (i : ID) : Nat ×ₗ ID := toLex (branch M (s, i), i)

def ranked (p : Nat × ID) : List (Nat ×ₗ ID) := ((children M p).image (rank M (p.1 + 1))).sort (· ≥ ·)

/-- The position after `p`, from its ranked children. -/
def choose (p : Nat × ID) : List (Nat ×ₗ ID) → Option (Nat × ID)
  | [] => none
  | [best] =>
    if (ofLex best).1 > uncommitted M largestIssued (p.1 + 1) ∨ uncommitted M largestIssued (p.1 + 1) = 0 then
      some (p.1 + 1, (ofLex best).2)
    else none
  | best :: second :: _ =>
    let margin := (ofLex best).1 - (ofLex second).1
    let margin := if (ofLex best).2 > (ofLex second).2 then margin + 1 else margin
    if margin > uncommitted M largestIssued (p.1 + 1) ∨ uncommitted M largestIssued (p.1 + 1) = 0 then
      some (p.1 + 1, (ofLex best).2)
    else none

def next (p : Nat × ID) : Option (Nat × ID) := choose M largestIssued p (ranked M p)

def walk : Nat → Nat × ID → Nat × ID
  | 0, p => p
  | fuel + 1, p => match next M largestIssued p with
    | none => p
    | some q => walk fuel q

def preferred : Option (Nat × ID) :=
  if M.card = 0 then none else some (walk M largestIssued (M.map seq).sup (pos (genesis : L)))

variable {M largestIssued} {p q : Nat × ID}

theorem mem_children {i : ID} :
    i ∈ children M p ↔ ∃ a ∈ M, (p.1 < seq a ∧ Passes a p) ∧ ancestor a (p.1 + 1) = i := by
  simp [children, and_assoc]

theorem choose_eq_some {l : List (Nat ×ₗ ID)} (h : choose M largestIssued p l = some q) :
    q.1 = p.1 + 1 ∧ l ≠ [] := by
  rcases l with _ | ⟨best, _ | ⟨second, l⟩⟩
  · simp [choose] at h
  · rw [choose] at h
    split at h
    · exact ⟨(congrArg Prod.fst (Option.some.inj h)).symm, by simp⟩
    · cases h
  · simp only [choose] at h
    generalize (if (ofLex best).2 > (ofLex second).2 then
      (ofLex best).1 - (ofLex second).1 + 1 else (ofLex best).1 - (ofLex second).1) = margin at h
    split at h
    · exact ⟨(congrArg Prod.fst (Option.some.inj h)).symm, by simp⟩
    · cases h

theorem next_eq_some (h : next M largestIssued p = some q) : q.1 = p.1 + 1 ∧ q.1 ≤ (M.map seq).sup := by
  obtain ⟨hseq, hne⟩ := choose_eq_some h
  refine ⟨hseq, ?_⟩
  have hchildren : (children M p).Nonempty := by
    rw [Finset.nonempty_iff_ne_empty]
    intro hempty
    apply hne
    simp [ranked, hempty]
  obtain ⟨i, hi⟩ := hchildren
  obtain ⟨a, ha, ⟨hlt, -⟩, -⟩ := mem_children.mp hi
  have : seq a ≤ (M.map seq).sup := Multiset.le_sup (Multiset.mem_map_of_mem seq ha)
  omega

variable (M largestIssued) in
/-- The walk leads from `p` to `q` and stops there. -/
def Ends (p q : Nat × ID) : Prop :=
  Relation.ReflTransGen (fun p q => next M largestIssued p = some q) p q ∧ next M largestIssued q = none

variable {r : Nat × ID}

theorem Ends.head (hstep : next M largestIssued p = some q) (h : Ends M largestIssued q r) :
    Ends M largestIssued p r := ⟨h.1.head hstep, h.2⟩

theorem Ends.of_reach (hreach : Relation.ReflTransGen (fun p q => next M largestIssued p = some q) p q)
    (h : Ends M largestIssued q r) : Ends M largestIssued p r := ⟨hreach.trans h.1, h.2⟩

theorem Ends.walk_eq (h : Ends M largestIssued p q) {fuel : Nat} (hfuel : q.1 ≤ p.1 + fuel) :
    walk M largestIssued fuel p = q := by
  obtain ⟨hreach, hend⟩ := h
  induction hreach using Relation.ReflTransGen.head_induction_on generalizing fuel with
  | refl =>
    cases fuel with
    | zero => rfl
    | succ fuel => rw [walk, hend]
  | @head p p' hstep hrest ih =>
    have hp' := (next_eq_some hstep).1
    have hle : p'.1 ≤ q.1 := by
      clear ih hend hstep hfuel hp'
      induction hrest with
      | refl => exact Nat.le_refl _
      | tail _ hlast ih =>
        have := (next_eq_some hlast).1
        omega
    cases fuel with
    | zero => omega
    | succ fuel =>
      rw [walk, hstep]
      exact ih (by omega)

theorem Ends.le_sup (h : Ends M largestIssued p q) (hp : p.1 = 0) : q.1 ≤ (M.map seq).sup := by
  rcases Relation.ReflTransGen.cases_tail h.1 with rfl | ⟨r, -, hr⟩
  · omega
  · exact (next_eq_some hr).2

theorem Ends.preferred_eq [LawfulLineage L] (h : Ends M largestIssued (pos (genesis : L)) q) (hM : M.card ≠ 0) :
    preferred M largestIssued = some q := by
  have hzero : (pos (genesis : L)).1 = 0 := LawfulLineage.seq_genesis
  rw [preferred, if_neg hM, h.walk_eq]
  rw [hzero, zero_add]
  exact h.le_sup hzero

end Plain

/-! ### The nodes of the trie in the plain tree -/

section

variable {t : LedgerTrie L} {M : Multiset L} {n : Node L} {path : List (Owner L)}

theorem Node.Compressed.branchSupport_pos (hc : n.Compressed) (hok : n.Ok) : 0 < n.branchSupport.toNat := by
  induction hc with
  | @mk d cs htip hcs ih =>
    obtain ⟨hb, hoks⟩ := Node.ok_mk_iff.mp hok
    have hsupport := hb.support
    show 0 < d.branchSupport.toNat
    by_cases hzero : d.tipSupport = 0
    · rcases cs with _ | ⟨c, cs⟩
      · simpa using htip hzero
      · have hc : 0 < c.data.branchSupport.toNat := ih c (by simp) (hoks c (by simp))
        simp only [List.map_cons, List.sum_cons] at hsupport
        omega
    · have : d.tipSupport.toNat ≠ 0 := by rwa [← UInt32.toNat_inj] at hzero
      omega

/-- What the walk knows about the node it is at. -/
structure At (t : LedgerTrie L) (M : Multiset L) (n : Node L) (path : List (Owner L)) : Prop where
  sound : Sound t M
  rebuild_eq : rebuild n path = t.root
  card_ne : M.card ≠ 0

namespace At

section

variable (h : At t M n path)
include h

theorem ok : (⟨n, path⟩ : Place L).Ok :=
  rooted_rebuild.mp (h.rebuild_eq.symm ▸ h.sound.represents.rooted)

theorem branchSupport_pos : 0 < n.branchSupport.toNat := by
  obtain ⟨hcs, hpath⟩ := compressedAt_rebuild.mp (h.rebuild_eq.symm ▸ h.sound.compressed)
  cases path with
  | nil =>
    have hn : n = t.root := h.rebuild_eq
    rw [hn, h.sound.represents.rooted.1.branchSupport_eq, h.sound.represents.card_tips]
    exact Nat.pos_of_ne_zero h.card_ne
  | cons o path =>
    refine Node.Compressed.branchSupport_pos ?_ h.ok.1
    rw [← Node.mk_data_children n]
    exact ⟨hcs.1 (by simp), hcs.2⟩

theorem card_seq : (M.map seq).card < 2 ^ 32 := by
  rw [Multiset.card_map, ← h.sound.represents.card_tips, ← h.sound.represents.rooted.1.branchSupport_eq]
  exact UInt32.toNat_lt _

end

variable (M) in
theorem countP_seq (s largestIssued : Nat) :
    (M.map seq).countP (· < max s largestIssued) = Plain.uncommitted M largestIssued s := by
  rw [Multiset.countP_map, Plain.uncommitted, Multiset.countP_eq_card_filter]

variable {d e : NodeData L} {a : L} {q : Nat × ID} {x : Nat} {cs : List (Node L)}

theorem child {left right : List (Node L)} {c : Node L} (h : At t M (.mk d (left ++ c :: right)) path) :
    At t M c (⟨d, left, right⟩ :: path) :=
  ⟨h.sound, by rw [rebuild]; exact h.rebuild_eq, h.card_ne⟩

variable [LawfulLineage L]

/-- A supported ledger that goes through the node's span ends in the node's subtree. -/
theorem exists_node (h : At t M n path) (hstart : n.span.start ≤ q.1) (hq : Passes n.span.ledger q) (ha : a ∈ M)
    (hpass : Passes a q) : ∃ e ∈ n.nodes, pos a = e.span.tipPos := by
  have hmem : pos a ∈ tips (⟨n, path⟩ : Place L).nodes := by
    rw [Place.nodes_of_rebuild (p := ⟨n, path⟩) h.rebuild_eq, h.sound.represents.tips]
    exact Multiset.mem_map_of_mem pos ha
  rw [Place.nodes, tips_add, Multiset.mem_add] at hmem
  rcases hmem with hmem | hmem
  · obtain ⟨e, he, -, heq⟩ := mem_tips.mp hmem
    exact ⟨e, he, heq⟩
  · exact absurd (below_pos_iff.mpr hpass) (Place.not_below_of_mem_path h.ok hstart hq hmem)

theorem passes_iff (heq : pos a = e.span.tipPos) : Passes a q ↔ q.1 < e.span.stop ∧ Passes e.span.ledger q := by
  rw [← below_pos_iff, heq, Span.below_tipPos_iff]

omit [LawfulLineage L] in
theorem seq_eq (heq : pos a = e.span.tipPos) : seq a = e.span.stop - 1 :=
  congrArg Prod.fst heq

variable [LinearOrder ID]

theorem branch_eq (h : At t M n path) (hstart : n.span.start ≤ q.1) (hstop : q.1 < n.span.stop)
    (hq : Passes n.span.ledger q) : Plain.branch M q = n.branchSupport.toNat := by
  rw [Plain.branch, ← h.sound.represents.countP_below, ← Place.nodes_of_rebuild (p := ⟨n, path⟩) h.rebuild_eq]
  convert Place.countP_below h.ok hstart hstop hq

theorem exists_ledger (h : At t M n path) (hstart : n.span.start ≤ q.1) (hstop : q.1 < n.span.stop)
    (hq : Passes n.span.ledger q) : ∃ a ∈ M, Passes a q := by
  have hpos : 0 < Plain.branch M q := by
    rw [h.branch_eq hstart hstop hq]
    exact h.branchSupport_pos
  obtain ⟨a, ha, hpass⟩ := Multiset.countP_pos.mp hpos
  exact ⟨a, ha, hpass⟩

theorem children_inside (h : At t M n path) (hstart : n.span.start ≤ x) (hstop : x + 1 < n.span.stop) :
    Plain.children M (x, ancestor n.span.ledger x) = {ancestor n.span.ledger (x + 1)} := by
  have hx : Passes n.span.ledger (x, ancestor n.span.ledger x) := by
    have := n.span.stop_le
    exact passes_ancestor (by omega)
  have hnext : ∀ {a}, a ∈ M → Passes a (x, ancestor n.span.ledger x) →
      Passes a (x + 1, ancestor n.span.ledger (x + 1)) := by
    intro a ha hpass
    obtain ⟨e, he, heq⟩ := h.exists_node hstart hx ha hpass
    exact (passes_iff heq).mpr (h.ok.1.passes_of_mem he hstop)
  ext i
  rw [Plain.mem_children, Finset.mem_singleton]
  constructor
  · rintro ⟨a, ha, ⟨-, hpass⟩, rfl⟩
    exact (hnext ha hpass).2
  · rintro rfl
    obtain ⟨a, ha, hpass⟩ := h.exists_ledger hstart (by omega : x < n.span.stop) hx
    exact ⟨a, ha, ⟨(hnext ha hpass).1, hpass⟩, (hnext ha hpass).2⟩

theorem children_tip (h : At t M (.mk d cs) path) :
    Plain.children M d.span.tipPos = (cs.map fun c => c.span.startID).toFinset := by
  obtain ⟨hb, hcs⟩ := Node.ok_mk_iff.mp h.ok.1
  have hlt := d.span.start_lt_stop
  have hsucc : d.span.tipPos.1 + 1 = d.span.stop := by
    show d.span.stop - 1 + 1 = _
    omega
  have htip : d.span.tipPos.1 < d.span.stop := by omega
  ext i
  rw [Plain.mem_children, List.mem_toFinset, List.mem_map, hsucc]
  constructor
  · rintro ⟨a, ha, ⟨hseq, hpass⟩, rfl⟩
    obtain ⟨e, he, heq⟩ := h.exists_node (show d.span.start ≤ d.span.tipPos.1 by omega) d.span.passes_tipPos
      ha hpass
    have ha := seq_eq heq
    rcases Multiset.mem_cons.mp (Node.nodes_mk d cs ▸ he) with rfl | he
    · omega
    · obtain ⟨c, hc, he⟩ := Node.mem_nodesAll.mp he
      have hstart : c.span.start = d.span.stop := hb.start c.data (List.mem_map_of_mem hc)
      have hce : Passes a (c.span.start, c.span.startID) :=
        (passes_iff heq).mpr ((hcs c hc).passes_of_mem he c.span.start_lt_stop)
      refine ⟨c, hc, ?_⟩
      rw [← hstart]
      exact hce.2.symm
  · rintro ⟨c, hc, rfl⟩
    obtain ⟨left, right, rfl⟩ := List.append_of_mem hc
    have hstart : c.span.start = d.span.stop := hb.start c.data (List.mem_map_of_mem hc)
    obtain ⟨a, ha, hpass⟩ := h.child.exists_ledger (Nat.le_refl _) c.span.start_lt_stop
      (passes_ancestor c.span.start_le_seq)
    obtain ⟨e, he, heq⟩ := h.child.exists_node (Nat.le_refl _) (passes_ancestor c.span.start_le_seq) ha hpass
    have hed : e ∈ (Node.mk d (left ++ c :: right)).nodes := by
      exact Multiset.mem_cons_of_mem (Node.mem_nodesAll.mpr ⟨c, hc, he⟩)
    have hpass' : Passes a d.span.tipPos := (passes_iff heq).mpr (h.ok.1.passes_of_mem hed htip)
    refine ⟨a, ha, ⟨?_, hpass'⟩, ?_⟩
    · have : c.span.start ≤ seq a := hpass.1
      omega
    · rw [← hstart]
      exact hpass.2

theorem next_inside (h : At t M n path) (hstart : n.span.start ≤ x) (hstop : x + 1 < n.span.stop)
    (largestIssued : Nat) :
    Plain.next M largestIssued (x, ancestor n.span.ledger x) =
      if n.branchSupport.toNat > Plain.uncommitted M largestIssued (x + 1)
          ∨ Plain.uncommitted M largestIssued (x + 1) = 0 then
        some (x + 1, ancestor n.span.ledger (x + 1))
      else none := by
  have hbranch : Plain.branch M (x + 1, ancestor n.span.ledger (x + 1)) = n.branchSupport.toNat := by
    have := n.span.stop_le
    exact h.branch_eq (Nat.le_succ_of_le hstart) hstop (passes_ancestor (by omega))
  rw [Plain.next, Plain.ranked, h.children_inside hstart hstop, Finset.image_singleton, Finset.sort_singleton,
    Plain.choose, Plain.rank, ofLex_toLex, hbranch]

/-- The rank of a child, in terms of the trie. -/
def rankOf (c : Node L) : Nat ×ₗ ID := toLex (c.branchSupport.toNat, c.span.startID)

omit [LawfulLineage L] in
theorem ahead_iff {a b : Node L} : Ahead a b ↔ rankOf a ≥ rankOf b := by
  rw [ge_iff_le, rankOf, rankOf, Prod.Lex.toLex_le_toLex, Ahead, UInt32.lt_iff_toNat_lt, UInt32.toNat_inj]

theorem ranked_tip (h : At t M (.mk d cs) path) :
    Plain.ranked M d.span.tipPos = (cs.insertionSort Ahead).map rankOf := by
  obtain ⟨hb, -⟩ := Node.ok_mk_iff.mp h.ok.1
  have hlt := d.span.start_lt_stop
  have hsucc : d.span.tipPos.1 + 1 = d.span.stop := by
    show d.span.stop - 1 + 1 = _
    omega
  have hperm : (cs.insertionSort Ahead).Perm cs := List.perm_insertionSort _ _
  have hrank : ∀ c ∈ cs, Plain.rank M d.span.stop c.span.startID = rankOf c := by
    intro c hc
    have hstart : c.span.start = d.span.stop := hb.start c.data (List.mem_map_of_mem hc)
    obtain ⟨left, right, rfl⟩ := List.append_of_mem hc
    rw [Plain.rank, rankOf, ← hstart, h.child.branch_eq (q := (c.span.start, c.span.startID)) (Nat.le_refl _)
      c.span.start_lt_stop (passes_ancestor c.span.start_le_seq)]
  have himage : (Plain.children M d.span.tipPos).image (Plain.rank M d.span.stop)
      = ((cs.insertionSort Ahead).map rankOf).toFinset := by
    ext r
    simp only [h.children_tip, Finset.mem_image, List.mem_toFinset, List.mem_map, List.mem_insertionSort]
    constructor
    · rintro ⟨_, ⟨c, hc, rfl⟩, rfl⟩
      exact ⟨c, hc, (hrank c hc).symm⟩
    · rintro ⟨c, hc, rfl⟩
      exact ⟨_, ⟨c, hc, rfl⟩, hrank c hc⟩
  have hnodup : ((cs.insertionSort Ahead).map rankOf).Nodup := by
    refine ((hperm.map rankOf).nodup_iff).mpr ?_
    have := hb.nodup
    rw [List.map_map] at this
    refine List.Nodup.of_map (fun r => (ofLex r).2) ?_
    rw [List.map_map]
    exact this
  have hsorted : ((cs.insertionSort Ahead).map rankOf).Pairwise (· ≥ ·) := by
    have : Std.Total (Ahead : Node L → Node L → Prop) :=
      ⟨fun a b => by rw [ahead_iff, ahead_iff]; exact le_total _ _⟩
    have : IsTrans (Node L) Ahead :=
      ⟨fun a b c hab hbc => ahead_iff.mpr ((ahead_iff.mp hbc).trans (ahead_iff.mp hab))⟩
    rw [List.pairwise_map]
    exact (List.pairwise_insertionSort Ahead cs).imp ahead_iff.mp
  rw [Plain.ranked, hsucc, himage]
  exact (List.toFinset_sort _ hnodup).mpr hsorted

end At

/-! ### The walk of the trie -/

theorem Node.height_le_heights {c : Node L} {cs : List (Node L)} (hc : c ∈ cs) : c.height ≤ Node.heights cs := by
  induction cs with
  | nil => simp at hc
  | cons a cs ih =>
    rcases List.mem_cons.mp hc with rfl | hc
    · exact Nat.le_max_left _ _
    · exact (ih hc).trans (Nat.le_max_right _ _)

variable [LawfulLineage L] [LinearOrder ID] {largestIssued bound : Nat} {u : UInt32} {it : List (Nat × UInt32)}

namespace At

variable {s : Nat} {cs : List (Node L)} {d : NodeData L}

theorem reach_inside (h : At t M n path) (hstart : n.span.start < s) (hstop : s ≤ n.span.stop)
    (hgo : ∀ y, n.span.start + 1 ≤ y → y < s → Plain.uncommitted M largestIssued y < n.branchSupport.toNat) :
    Relation.ReflTransGen (fun p q => Plain.next M largestIssued p = some q)
      (n.span.start, n.span.startID) (s - 1, ancestor n.span.ledger (s - 1)) := by
  induction s with
  | zero => omega
  | succ s ih =>
    rcases Nat.lt_or_ge n.span.start s with hlt | hge
    · have hprev := ih hlt (by omega) fun y hy hys => hgo y hy (by omega)
      refine hprev.tail ?_
      have hs : s - 1 + 1 = s := by omega
      rw [h.next_inside (by omega) (by omega), hs, if_pos (.inl (hgo s hlt (Nat.lt_succ_self s)))]
      rfl
    · obtain rfl : n.span.start = s := by omega
      exact .refl

theorem ends_inside (h : At t M n path) (hstart : n.span.start < s) (hstop : s < n.span.stop)
    (hgo : ∀ y, n.span.start + 1 ≤ y → y < s → Plain.uncommitted M largestIssued y < n.branchSupport.toNat)
    (hend : n.branchSupport.toNat ≤ Plain.uncommitted M largestIssued s) :
    Plain.Ends M largestIssued (n.span.start, n.span.startID) (s - 1, ancestor n.span.ledger (s - 1)) := by
  refine ⟨h.reach_inside hstart hstop.le hgo, ?_⟩
  have hpos := h.branchSupport_pos
  have hs : s - 1 + 1 = s := by omega
  rw [h.next_inside (by omega) (by omega), hs, if_neg (by omega)]

omit [LawfulLineage L] [LinearOrder ID] in
theorem child_of_mem (h : At t M (.mk d cs) path) {c : Node L} (hc : c ∈ cs) :
    ∃ path', At t M c path' ∧ c.span.start = d.span.stop := by
  have hstart : c.span.start = d.span.stop :=
    (Node.ok_mk_iff.mp h.ok.1).1.start c.data (List.mem_map_of_mem hc)
  obtain ⟨left, right, rfl⟩ := List.append_of_mem hc
  exact ⟨_, h.child, hstart⟩

theorem margin_toNat {best second : UInt32} (hle : second.toNat ≤ best.toNat) (hpos : 0 < second.toNat)
    (p : Prop) [Decidable p] :
    (if p then best - second + 1 else best - second).toNat
      = if p then best.toNat - second.toNat + 1 else best.toNat - second.toNat := by
  have hsub := UInt32.toNat_sub_of_le _ _ (UInt32.le_iff_toNat_le.mpr hle)
  have hlt := UInt32.toNat_lt best
  split
  · rw [UInt32.toNat_add, hsub]
    show (best.toNat - second.toNat + 1) % 2 ^ 32 = _
    omega
  · exact hsub

theorem next_tip (h : At t M (.mk d cs) path) (hu : Plain.uncommitted M largestIssued d.span.stop = u.toNat) :
    Plain.next M largestIssued d.span.tipPos =
      match cs.insertionSort Ahead with
      | [] => none
      | [best] => if best.branchSupport > u ∨ u = 0 then some (d.span.stop, best.span.startID) else none
      | best :: second :: _ =>
        if (if best.span.startID > second.span.startID then best.branchSupport - second.branchSupport + 1
            else best.branchSupport - second.branchSupport) > u ∨ u = 0 then
          some (d.span.stop, best.span.startID)
        else none := by
  have hlt := d.span.start_lt_stop
  have htip : d.span.tipPos.1 + 1 = d.span.stop := by
    show d.span.stop - 1 + 1 = _
    omega
  have hzero : u.toNat = 0 ↔ u = 0 := by rw [← UInt32.toNat_inj, UInt32.toNat_zero]
  have hsorted : (cs.insertionSort Ahead).Pairwise fun a b => rankOf a ≥ rankOf b := by
    have hranked : ((cs.insertionSort Ahead).map rankOf).Pairwise (· ≥ ·) := by
      rw [← h.ranked_tip]
      exact Finset.pairwise_sort _ _
    rwa [List.pairwise_map] at hranked
  have hmem : ∀ c ∈ cs.insertionSort Ahead, 0 < c.branchSupport.toNat := by
    intro c hc
    obtain ⟨path', hc', -⟩ := h.child_of_mem ((List.mem_insertionSort Ahead).mp hc)
    exact hc'.branchSupport_pos
  rw [Plain.next, h.ranked_tip]
  generalize cs.insertionSort Ahead = sorted at hsorted hmem
  rcases sorted with _ | ⟨best, _ | ⟨second, sorted⟩⟩
  · rfl
  · simp only [List.map_cons, List.map_nil, Plain.choose, rankOf, ofLex_toLex, htip, hu, hzero, gt_iff_lt,
      UInt32.lt_iff_toNat_lt]
  · have hle : second.branchSupport.toNat ≤ best.branchSupport.toNat := by
      have hge : rankOf best ≥ rankOf second := (List.pairwise_cons.mp hsorted).1 second (by simp)
      rw [ge_iff_le, rankOf, rankOf, Prod.Lex.toLex_le_toLex] at hge
      rcases hge with hge | hge
      · exact hge.le
      · exact hge.1.le
    simp only [List.map_cons, Plain.choose, rankOf, ofLex_toLex, htip, hu, hzero, gt_iff_lt,
      UInt32.lt_iff_toNat_lt, margin_toNat hle (hmem second (by simp))]

omit [LawfulLineage L] in
theorem partialSort_eq (order : Arrangement (Node L)) (cs : List (Node L)) (hlen : 2 ≤ cs.length) :
    ∃ best second rest, cs.insertionSort Ahead = best :: second :: rest
      ∧ partialSort order cs = best :: second :: order.arrange rest := by
  have hsorted : (cs.insertionSort Ahead).length = cs.length := List.length_insertionSort Ahead cs
  unfold partialSort
  rcases heq : cs.insertionSort Ahead with _ | ⟨best, _ | ⟨second, rest⟩⟩
  · simp [heq] at hsorted
    omega
  · simp [heq] at hsorted
    omega
  · exact ⟨best, second, rest, rfl, rfl⟩

variable (largestIssued) in
theorem walk_ends (order : Arrangement (Node L)) {fuel : Nat} (h : At t M n path) (hfuel : n.height ≤ fuel)
    (hcur : SeqSupport.Cursor (M.map seq) bound u it) (hbound : bound ≤ max (n.span.start + 1) largestIssued) :
    Plain.Ends M largestIssued (n.span.start, n.span.startID)
      ((walk order largestIssued fuel n u it).2.seq, (walk order largestIssued fuel n u it).2.id) := by
  induction fuel generalizing n path bound u it with
  | zero =>
    obtain ⟨d, cs⟩ := n
    simp [Node.height] at hfuel
  | succ fuel ih =>
    obtain ⟨d, cs⟩ := n
    have hheight : Node.heights cs ≤ fuel := by
      rw [Node.height] at hfuel
      omega
    have hlt : d.span.start < d.span.stop := d.span.start_lt_stop
    have hread := SeqSupport.takeBelow_spec h.card_seq hcur hbound
    obtain ⟨s, u', it', hadv, hge, hle, hcur', hgo, hend⟩ :=
      SeqSupport.advance_spec h.card_seq d.branchSupport hread hlt
    rw [Node.span_mk] at hadv hge
    have hgo : ∀ y, d.span.start + 1 ≤ y → y < s →
        Plain.uncommitted M largestIssued y < d.branchSupport.toNat := fun y hy hys =>
      countP_seq M y largestIssued ▸ hgo y hy hys
    have hu := (countP_seq M s largestIssued).symm.trans hcur'.1
    rw [walk]
    simp only [hadv]
    by_cases hs : s < d.span.stop
    · rw [if_pos hs, Span.before_eq_some hge hs.le]
      exact h.ends_inside (s := s) hge hs hgo (hu ▸ hend hs)
    · obtain rfl : s = d.span.stop := by omega
      rw [if_neg hs]
      refine Plain.Ends.of_reach (h.reach_inside (s := d.span.stop) hge hle hgo) ?_
      show Plain.Ends M largestIssued d.span.tipPos _
      have hnext := h.next_tip hu
      have hstay : Plain.next M largestIssued d.span.tipPos = none →
          Plain.Ends M largestIssued d.span.tipPos (d.span.tip.seq, d.span.tip.id) := fun hnone => ⟨.refl, hnone⟩
      have hmove : ∀ c ∈ cs, Plain.next M largestIssued d.span.tipPos = some (d.span.stop, c.span.startID) →
          Plain.Ends M largestIssued d.span.tipPos
            ((walk order largestIssued fuel c u' it').2.seq, (walk order largestIssued fuel c u' it').2.id) := by
        intro c hc hsome
        obtain ⟨path', hat, hstart⟩ := h.child_of_mem hc
        refine Plain.Ends.head hsome ?_
        rw [← hstart]
        refine ih hat ((Node.height_le_heights hc).trans hheight) hcur' ?_
        omega
      rcases cs with _ | ⟨a, _ | ⟨b, cs⟩⟩
      · exact hstay hnext
      · simp only [List.insertionSort_cons, List.insertionSort_nil, List.orderedInsert_nil] at hnext
        dsimp only
        split
        · rename_i hcond
          rw [if_pos hcond] at hnext
          exact hmove a (by simp) hnext
        · rename_i hcond
          rw [if_neg hcond] at hnext
          exact hstay hnext
      · obtain ⟨best, second, rest, hsorted, hsort⟩ :=
          partialSort_eq order (a :: b :: cs) (by simp)
        have hbest : best ∈ a :: b :: cs := by
          rw [← List.mem_insertionSort Ahead, hsorted]
          exact List.mem_cons_self ..
        simp only [hsorted] at hnext
        simp only [hsort]
        generalize (if best.span.startID > second.span.startID then
          best.branchSupport - second.branchSupport + 1 else best.branchSupport - second.branchSupport) = margin
          at hnext ⊢
        split
        · rename_i hcond
          rw [if_pos hcond] at hnext
          exact hmove best hbest hnext
        · rename_i hcond
          rw [if_neg hcond] at hnext
          exact hstay hnext

end At

theorem getPreferred_eq (order : Arrangement (Node L)) (h : Sound t M) (largestIssued : Nat) :
    (t.getPreferred order largestIssued).2.map (fun tip => (tip.seq, tip.id))
      = Plain.preferred M largestIssued := by
  have hempty : t.empty = true ↔ M.card = 0 := by
    rw [empty, beq_iff_eq, ← UInt32.toNat_inj, h.represents.rooted.1.branchSupport_eq, h.represents.card_tips,
      UInt32.toNat_zero]
  by_cases hM : M.card = 0
  · rw [getPreferred, if_pos (hempty.mpr hM), Plain.preferred, if_pos hM]
    rfl
  · have hat : At t M t.root [] := ⟨h, rfl, hM⟩
    have hends := hat.walk_ends largestIssued order (Nat.le_refl _)
      h.counts.cursor (Nat.zero_le _)
    have hroot : (t.root.span.start, t.root.span.startID) = pos (genesis : L) := by
      have hstart : t.root.span.start = 0 := h.represents.rooted.2.2.1
      have hseq : seq (genesis : L) = 0 := LawfulLineage.seq_genesis
      rw [Span.startID, hstart, LawfulLineage.ancestor_zero, pos, Lineage.id, hseq]
    rw [hroot] at hends
    rw [getPreferred, if_neg (fun he => hM (hempty.mp he)), hends.preferred_eq hM]
    rfl

variable [DecidableEq L]

/-- The preferred ledger depends only on the supported ledgers, and is that of the plain walk, along
every run whose insertions add some support and whose total support can be counted. -/
theorem getPreferred_final (order order' : Arrangement (Node L)) (largestIssued : Nat) {ops ops' : List (Op L)}
    (hops : Run.Along Op.support (fun M op => op.Fits M ∧ op.Positive) 0 ops)
    (hops' : Run.Along Op.support (fun M op => op.Fits M ∧ op.Positive) 0 ops')
    (hsame : Run.final Op.support 0 ops = Run.final Op.support 0 ops') :
    ((Run.final (step order) {} ops).getPreferred order largestIssued).2.map (fun tip => (tip.seq, tip.id))
        = ((Run.final (step order') {} ops').getPreferred order' largestIssued).2.map (fun tip => (tip.seq, tip.id))
      ∧ ((Run.final (step order) {} ops).getPreferred order largestIssued).2.map (fun tip => (tip.seq, tip.id))
        = Plain.preferred (Run.final Op.support 0 ops) largestIssued := by
  rw [getPreferred_eq order (sound_final order hops), getPreferred_eq order' (sound_final order' hops'), hsame]
  exact ⟨rfl, rfl⟩

end

def reforkOps : List (Op (Chain Nat)) :=
  [.insert ⟨[1, 3]⟩ 1, .getPreferred 2, .insert ⟨[1]⟩ 2, .insert ⟨[1, 2]⟩ 1, .remove ⟨[1]⟩ 5]

theorem getPreferred_final_fork :
    Run.final Op.support 0 forkOps = Run.final Op.support 0 reforkOps
      ∧ ((Run.final (step .asIs) {} forkOps).getPreferred .asIs 2).2.map (fun tip => (tip.seq, tip.id))
        = ((Run.final (step .asIs) {} reforkOps).getPreferred .asIs 2).2.map (fun tip => (tip.seq, tip.id)) :=
  ⟨by decide, (getPreferred_final .asIs .asIs 2
    (by decide : Run.Along Op.support (fun M op => op.Fits M ∧ op.Positive) 0 forkOps)
    (by decide : Run.Along Op.support (fun M op => op.Fits M ∧ op.Positive) 0 reforkOps) (by decide)).1⟩

/-- A ledger that was inserted zero times is a runner-up: it gives the only supported ledger the
tie-break that it does not have otherwise. -/
theorem getPreferred_insert_zero :
    Run.final Op.support 0 [.insert (⟨[1]⟩ : Chain Nat) 1]
        = Run.final Op.support 0 [.insert ⟨[0]⟩ 0, .insert ⟨[1]⟩ 1]
      ∧ ((Run.final (step .asIs) {} [.insert (⟨[1]⟩ : Chain Nat) 1]).getPreferred .asIs 2).2.map
          (fun tip => (tip.seq, tip.id)) = some (0, [])
      ∧ ((Run.final (step .asIs) {} [.insert (⟨[0]⟩ : Chain Nat) 0, .insert ⟨[1]⟩ 1]).getPreferred .asIs 2).2.map
          (fun tip => (tip.seq, tip.id)) = some (1, [1]) := by
  decide

end Chainsql.LedgerTrie
