import Chainsql.Trie.SeqSupport
import Chainsql.Trie.Support

/-!
# The representation invariant

`LedgerTrie.Invariant` is what `checkInvariants` checks, and more: the tree is compressed, its nodes
fit together, their addresses differ, and `seqSupport` is the support by sequence number. It holds along
every run whose insertions add some support and whose total support can be counted.
-/

namespace Chainsql.LedgerTrie

open Lineage Place

variable {L ID : Type*} [Lineage L ID]

/-! ### Compression -/

/-- Every node without support of its own has at least two children. -/
inductive Node.Compressed : Node L → Prop
  | mk {d : NodeData L} {cs : List (Node L)} (tip : d.tipSupport = 0 → 2 ≤ cs.length)
      (children : ∀ c ∈ cs, Node.Compressed c) : Node.Compressed (.mk d cs)

variable {cs : List (Node L)} {d : NodeData L} {n : Node L} {path : List (Owner L)} {ledger : L}

theorem Node.compressed_mk_iff :
    (Node.mk d cs).Compressed ↔ (d.tipSupport = 0 → 2 ≤ cs.length) ∧ ∀ c ∈ cs, c.Compressed :=
  ⟨fun | .mk htip hcs => ⟨htip, hcs⟩, fun h => .mk h.1 h.2⟩

theorem Node.Compressed.of_tipSupport_eq {d' : NodeData L} (h : (Node.mk d cs).Compressed)
    (htip : d'.tipSupport = d.tipSupport) : (Node.mk d' cs).Compressed := by
  rw [Node.compressed_mk_iff] at h ⊢
  rwa [htip]

/-- The root, for which the path is empty, need not have two children. -/
def CompressedAt (n : Node L) (path : List (Owner L)) : Prop :=
  (path ≠ [] → n.tipSupport = 0 → 2 ≤ n.children.length) ∧ ∀ c ∈ n.children, c.Compressed

def PathCompressed : List (Owner L) → Prop
  | [] => True
  | o :: path =>
    (path ≠ [] → o.data.tipSupport = 0 → 1 ≤ (o.left ++ o.right).length)
      ∧ (∀ c ∈ o.left ++ o.right, c.Compressed) ∧ PathCompressed path

theorem compressedAt_rebuild : CompressedAt (rebuild n path) [] ↔ CompressedAt n path ∧ PathCompressed path := by
  induction path generalizing n with
  | nil => simp [rebuild, PathCompressed]
  | cons o path ih =>
    have hn : CompressedAt n (o :: path) ↔ n.Compressed := by
      obtain ⟨d, cs⟩ := n
      simp [CompressedAt, Node.compressed_mk_iff, Node.tipSupport]
    have hlen : (o.left ++ n :: o.right).length = (o.left ++ o.right).length + 1 := by
      simp only [List.length_append, List.length_cons]
      omega
    rw [rebuild, ih, hn, PathCompressed]
    simp only [CompressedAt, Node.children_mk, Node.tipSupport, Node.data_mk, hlen, List.mem_append,
      List.mem_cons]
    constructor
    · rintro ⟨⟨hlen, hcs⟩, hpath⟩
      exact ⟨hcs n (by simp), fun h h' => by have := hlen h h'; omega, fun c hc => hcs c (by tauto), hpath⟩
    · rintro ⟨hn, hlen, hcs, hpath⟩
      refine ⟨⟨fun h h' => by have := hlen h h'; omega, ?_⟩, hpath⟩
      rintro c (hc | rfl | hc)
      · exact hcs c (.inl hc)
      · exact hn
      · exact hcs c (.inr hc)

theorem PathCompressed.bump (h : PathCompressed path) (f : UInt32 → UInt32) :
    PathCompressed (path.map (Owner.bump f)) := by
  induction path with
  | nil => trivial
  | cons o path ih =>
    obtain ⟨hlen, hcs, hpath⟩ := h
    refine ⟨fun hne => hlen fun hnil => hne ?_, hcs, ih hpath⟩
    rw [hnil, List.map_nil]

theorem Node.compressed_setParent (h : ∀ c ∈ cs, c.Compressed) (a : Addr) :
    ∀ c ∈ cs.map (Node.setParent a), c.Compressed := by
  intro c hc
  obtain ⟨⟨d, es⟩, hmem, rfl⟩ := List.mem_map.mp hc
  exact (h (.mk d es) hmem).of_tipSupport_eq rfl

theorem Node.Rearranged.compressed {n' : Node L} (h : n.Rearranged n') :
    (n.Compressed → n'.Compressed) ∧ (CompressedAt n [] → CompressedAt n' []) := by
  have key : (∀ c ∈ n.children, c.Compressed) → (∀ c ∈ n'.children, c.Compressed) ∧
      n'.children.length = n.children.length := by
    induction h with
    | perm h => exact fun hcs => ⟨fun c hc => hcs c (h.mem_iff.mp hc), h.length_eq⟩
    | @child d cs cs' best best' h hbest ih =>
      intro hcs
      refine ⟨?_, by simpa using h.length_eq⟩
      intro c hc
      rcases List.mem_cons.mp hc with rfl | hc
      · have hb := hcs best (h.mem_iff.mp (List.mem_cons_self ..))
        rw [← Node.mk_data_children best, Node.compressed_mk_iff] at hb
        obtain ⟨ih₁, ih₂⟩ := ih hb.2
        rw [← Node.mk_data_children c, Node.compressed_mk_iff, hbest.data_eq, ih₂]
        exact ⟨hb.1, ih₁⟩
      · exact hcs c (h.mem_iff.mp (List.mem_cons_of_mem _ hc))
  constructor
  · intro hn
    rw [← Node.mk_data_children n, Node.compressed_mk_iff] at hn
    obtain ⟨hcs, hlen⟩ := key hn.2
    rw [← Node.mk_data_children n', Node.compressed_mk_iff, h.data_eq, hlen]
    exact ⟨hn.1, hcs⟩
  · intro hn
    exact ⟨fun hne => absurd rfl hne, (key hn.2).1⟩

theorem Place.compress_compressed [LawfulLineage L] {p : Place L} (hp : p.Ok) (hcs : ∀ c ∈ p.node.children, c.Compressed)
    (hpath : PathCompressed p.path) : CompressedAt (compress p.node p.path) [] := by
  obtain ⟨p', heq, -, ⟨hcs', hpath'⟩, hdone⟩ := compress_induct
    (P := fun p => (∀ c ∈ p.node.children, c.Compressed) ∧ PathCompressed p.path) (fun p p' hs _ ⟨hcs, hpath⟩ => by
      cases hs with
      | @drop d o path =>
        exact ⟨fun c hc => hpath.2.1 c (o.erase_perm.mem_iff.mp hc), hpath.2.2⟩
      | @merge d child grandchildren o path =>
        refine ⟨fun c hc => ?_, hpath.2.2⟩
        simp only [Node.children_mk, List.mem_append, List.mem_cons] at hc
        rcases hc with hc | rfl | hc
        · exact hpath.2.1 c (by simp [hc])
        · exact (hcs (.mk child grandchildren) (by simp)).of_tipSupport_eq rfl
        · exact hpath.2.1 c (by simp [hc])) hp ⟨hcs, hpath⟩
  rw [heq, compressedAt_rebuild]
  exact ⟨⟨hdone, hcs'⟩, hpath'⟩

/-- The insertion may leave a node without support of its own and one child, until the support is
added below it or to itself. -/
theorem Place.split_compressed {p : Place L} {spot : Nat} (fresh : Addr) (hp : p.Ok) (hf : Found ledger p.node spot)
    (hcs : CompressedAt p.node p.path) :
    (p.split spot fresh).path = p.path
      ∧ (∀ c ∈ (p.split spot fresh).node.children, c.Compressed)
      ∧ (p.path ≠ [] → (p.split spot fresh).node.tipSupport = 0 →
        1 ≤ (p.split spot fresh).node.children.length) := by
  rcases hf.le_stop.eq_or_lt with heq | hlt
  · rw [split_of_eq heq.symm]
    exact ⟨rfl, hcs.2, fun hne htip => (hcs.1 hne htip).trans' (Nat.le_succ 1)⟩
  · obtain ⟨⟨d, cs⟩, path⟩ := p
    have hne : path ≠ [] := by
      rintro rfl
      have hone : d.span.stop = 1 := hp.2.2.2
      have hgt : d.span.start < spot := hf.start_lt
      have hlt : spot < d.span.stop := hlt
      omega
    rw [split_of_lt (d := d) hf.start_lt hlt]
    refine ⟨rfl, ?_, fun _ _ => Nat.le_refl 1⟩
    intro c hc
    obtain rfl := List.mem_singleton.mp hc
    refine Node.compressed_mk_iff.mpr ⟨?_, Node.compressed_setParent hcs.2 fresh⟩
    rw [List.length_map]
    exact hcs.1 hne

theorem insertPlace_compressed [LawfulLineage L] {t : LedgerTrie L} (h : Rooted t.root)
    (hc : CompressedAt t.root []) (ledger : L) :
    (∀ c ∈ (t.insertPlace ledger).node.children, c.Compressed) ∧ PathCompressed (t.insertPlace ledger).path := by
  obtain ⟨hbuild, hf⟩ := find_spec h ledger
  have hok : (t.find ledger).1.Ok := rooted_rebuild.mp (hbuild.symm ▸ h)
  obtain ⟨hcs, hpath⟩ := compressedAt_rebuild.mp (hbuild.symm ▸ hc)
  obtain ⟨heq, hcs', hlen⟩ := split_compressed t.fresh hok hf hcs
  rw [insertPlace]
  generalize (t.find ledger).1.split (t.find ledger).2 t.fresh = p at heq hcs' hlen
  rw [← heq] at hpath hlen
  rcases Nat.lt_or_ge (seq ledger) (t.find ledger).2 with hlt | hge
  · rw [extend_of_lt hlt]
    exact ⟨hcs', hpath⟩
  · obtain ⟨⟨d, cs⟩, path⟩ := p
    rw [extend_of_le hge]
    refine ⟨by simp, ?_, ?_, hpath⟩
    · simpa [Node.tipSupport] using hlen
    · simpa using hcs'

/-! ### The invariant -/

def seqTotal (n : Node L) (s : Nat) : Nat :=
  ((n.nodes.filter fun d => d.span.tip.seq = s).map fun d => d.tipSupport.toNat).sum

theorem seqTotal_eq (n : Node L) (s : Nat) : seqTotal n s = ((tips n.nodes).map Prod.fst).count s := by
  unfold seqTotal
  induction n.nodes using Multiset.induction_on with
  | empty => simp
  | cons d ds ih =>
    have htip : d.span.tipPos.1 = d.span.tip.seq := rfl
    rw [tips_cons, Multiset.map_add, Multiset.count_add, ← ih, Multiset.map_replicate, Multiset.count_replicate,
      htip]
    by_cases h : d.span.tip.seq = s
    · simp [h]
    · simp [h]

structure Invariant (t : LedgerTrie L) : Prop where
  -- Supports add up, parents own their children, and siblings start right after the parent with
  -- different ids, at every node.
  ok : t.root.Ok
  root : t.root.parent = none
  compressed : ∀ c ∈ t.root.children, c.Compressed
  addr : (t.root.nodes.map NodeData.addr).Nodup
  seqSupport : ∀ s, ((t.seqSupport.lookup s).getD 0).toNat = seqTotal t.root s
  positive : ∀ e ∈ t.seqSupport, e.2 ≠ 0

/-- The invariant in the form in which the operations keep it, for the multiset that the trie stands
for. -/
structure Sound (t : LedgerTrie L) (M : Multiset L) : Prop where
  represents : Represents t M
  compressed : CompressedAt t.root []
  addr : (t.root.nodes.map NodeData.addr).Nodup
  fresh : ∀ a ∈ t.root.nodes.map NodeData.addr, a < t.fresh
  counts : SeqSupport.Counts t.seqSupport (M.map seq)

variable {t : LedgerTrie L} {M : Multiset L}

theorem Sound.invariant (h : Sound t M) : Invariant t where
  ok := h.represents.rooted.1
  root := h.represents.rooted.2.1
  compressed := h.compressed.2
  addr := h.addr
  seqSupport s := by
    rw [h.counts.lookup, seqTotal_eq, h.represents.tips, Multiset.map_map]
    rfl
  positive := h.counts.positive

theorem sound_empty : Sound ({} : LedgerTrie L) 0 where
  represents := represents_empty
  compressed := ⟨fun h => absurd rfl h, by simp⟩
  addr := by simp
  fresh := by simp
  counts := rfl

variable [LawfulLineage L]

theorem addr_insertPlace (h : Rooted t.root) (ledger : L) :
    ∃ fresh : List Addr, fresh.Sublist [t.fresh, t.fresh + 1]
      ∧ (t.insertPlace ledger).nodes.map NodeData.addr = fresh + t.root.nodes.map NodeData.addr := by
  obtain ⟨hbuild, hf⟩ := find_spec h ledger
  have hroot : t.root.nodes = (t.find ledger).1.nodes := by rw [nodes, ← nodes_rebuild, hbuild]
  rw [hroot]
  rcases addr_split t.fresh hf with hsplit | hsplit
  · rcases addr_extend ledger (t.find ledger).2 (t.fresh + 1)
      ((t.find ledger).1.split (t.find ledger).2 t.fresh) with hext | hext
    · exact ⟨[], by simp, by rw [insertPlace, hext, hsplit]; simp⟩
    · exact ⟨[t.fresh + 1], by simp, by rw [insertPlace, hext, hsplit]; simp⟩
  · rcases addr_extend ledger (t.find ledger).2 (t.fresh + 1)
      ((t.find ledger).1.split (t.find ledger).2 t.fresh) with hext | hext
    · exact ⟨[t.fresh], by simp, by rw [insertPlace, hext, hsplit]; simp⟩
    · refine ⟨[t.fresh, t.fresh + 1], by simp, ?_⟩
      rw [insertPlace, hext, hsplit, Multiset.cons_swap, ← Multiset.cons_coe, ← Multiset.cons_coe,
        Multiset.coe_nil, Multiset.cons_add, Multiset.cons_add, zero_add]

theorem Sound.insert (h : Sound t M) {count : UInt32} (hcount : M.card + count.toNat < 2 ^ 32) (hpos : count ≠ 0) :
    Sound (t.insert ledger count) (M + Multiset.replicate count.toNat ledger) := by
  obtain ⟨hok, -, htips⟩ := insertPlace_ok h.represents.rooted ledger
  obtain ⟨hcs, hpath⟩ := insertPlace_compressed h.represents.rooted h.compressed ledger
  obtain ⟨fresh, hsub, haddr⟩ := addr_insertPlace h.represents.rooted ledger
  rw [← addr_updateSupport hok (· + count) (· + count), nodes, ← nodes_rebuild, ← insert_root]
    at haddr
  have hfresh : ∀ a ∈ fresh, t.fresh ≤ a ∧ a < t.fresh + 2 := by
    intro a ha
    have : a = t.fresh ∨ a = t.fresh + 1 := by simpa using hsub.mem ha
    rcases this with rfl | rfl
    · exact ⟨Nat.le_refl _, Nat.lt_add_of_pos_right (by decide)⟩
    · exact ⟨Nat.le_succ _, Nat.lt_succ_self _⟩
  refine ⟨h.represents.insert ledger count hcount, ?_, ?_, ?_, ?_⟩
  · rw [insert_root, updateSupport_eq hok, compressedAt_rebuild]
    refine ⟨⟨fun _ hzero => absurd hzero ?_, hcs⟩, hpath.bump _⟩
    have htip := (hok.1.tipSupport_le.trans hok.2.branchSupport_le.1).trans_eq (card_tips hok)
    rw [htips, h.represents.card_tips] at htip
    have hpos : count.toNat ≠ 0 := by rwa [ne_eq, ← UInt32.toNat_inj] at hpos
    show ¬ (t.insertPlace ledger).node.tipSupport + count = 0
    rw [← UInt32.toNat_inj, UInt32.toNat_add, UInt32.toNat_zero]
    omega
  · rw [haddr, Multiset.nodup_add]
    refine ⟨hsub.nodup (by simp), h.addr, Multiset.disjoint_left.mpr ?_⟩
    intro a ha ha'
    exact absurd (h.fresh a ha') (Nat.not_lt.mpr (hfresh a ha).1)
  · intro a ha
    rw [haddr, Multiset.mem_add] at ha
    show a < t.fresh + 2
    rcases ha with ha | ha
    · exact (hfresh a ha).2
    · exact (h.fresh a ha).trans (Nat.lt_add_of_pos_right (by decide))
  · rw [Multiset.map_add, Multiset.map_replicate]
    exact h.counts.add hpos (by rwa [Multiset.card_map]) (seq ledger)

theorem Sound.remove [DecidableEq ID] [DecidableEq L] (h : Sound t M) (ledger : L) (count : UInt32) :
    Sound (t.remove ledger count).1 (M - Multiset.replicate count.toNat ledger) := by
  have hrep := h.represents.remove ledger count
  rcases remove_cases h.represents.rooted ledger count with
    ⟨heq, hcount⟩ | ⟨loc, taken, hok, hbuild, -, hmin, hle, heq⟩
  · rw [h.represents.count_tips] at hcount
    have hM : M - Multiset.replicate count.toNat ledger = M := by
      rw [sub_replicate, hcount]
      simp
    rw [heq, hM]
    exact h
  · rw [h.represents.count_tips] at hmin
    obtain ⟨hok', -⟩ := withdraw_ok hok hle
    obtain ⟨hcs, hpath⟩ := compressedAt_rebuild.mp (hbuild ▸ h.compressed)
    have haddr : (t.remove ledger count).1.root.nodes.map NodeData.addr ≤ t.root.nodes.map NodeData.addr := by
      rw [heq]
      refine (compress_ok hok').2.2.trans (le_of_eq ?_)
      rw [← nodes_of_rebuild hbuild]
      exact addr_updateSupport hok _ _
    have hsub : M - Multiset.replicate count.toNat ledger = M - Multiset.replicate taken.toNat ledger := by
      rw [sub_replicate, hmin]
    have hcount : taken.toNat ≤ M.count ledger := by
      rw [hmin]
      exact Nat.min_le_right _ _
    refine ⟨hrep, ?_, Multiset.nodup_of_le haddr h.addr, ?_, ?_⟩
    · rw [heq]
      rw [updateSupport_eq hok] at hok' ⊢
      exact compress_compressed hok' hcs.2 (hpath.bump _)
    · intro a ha
      rw [show (t.remove ledger count).1.fresh = t.fresh by rw [heq]]
      exact h.fresh a (Multiset.mem_of_le haddr ha)
    · have hle : Multiset.replicate taken.toNat ledger ≤ M := Multiset.le_count_iff_replicate_le.mp hcount
      rw [heq, hsub]
      refine SeqSupport.Counts.remove ?_
      rw [← Multiset.map_replicate, ← Multiset.map_add, Multiset.sub_add_cancel hle]
      exact h.counts

omit [LawfulLineage L] in
theorem Sound.getPreferred [LinearOrder ID] (order : Arrangement (Node L)) (h : Sound t M) (largestIssued : Nat) :
    Sound (t.getPreferred order largestIssued).1 M := by
  have hr := getPreferred_rearranged order t largestIssued
  obtain ⟨hseq, hfresh⟩ := getPreferred_seqSupport order t largestIssued
  refine ⟨h.represents.getPreferred order largestIssued, hr.compressed.2 h.compressed, ?_, ?_, ?_⟩
  · rw [hr.nodes_eq]
    exact h.addr
  · rw [hr.nodes_eq, hfresh]
    exact h.fresh
  · rw [hseq]
    exact h.counts

/-! ### Runs -/

def Op.Positive : Op L → Prop
  | .insert _ count => count ≠ 0
  | _ => True

instance : (op : Op L) → Decidable op.Positive
  | .insert _ count => inferInstanceAs (Decidable (count ≠ 0))
  | .remove _ _ => inferInstanceAs (Decidable True)
  | .getPreferred _ => inferInstanceAs (Decidable True)

section

variable [LinearOrder ID] [DecidableEq L] (order : Arrangement (Node L))

theorem Sound.step (h : Sound t M) {op : Op L} (hop : op.Fits M ∧ op.Positive) :
    Sound (t.step order op) (op.support M) := by
  cases op with
  | insert ledger count => exact h.insert hop.1 hop.2
  | remove ledger count => exact h.remove ledger count
  | getPreferred largestIssued => exact h.getPreferred order largestIssued

theorem sound_final {ops : List (Op L)}
    (hops : Run.Along Op.support (fun M op => op.Fits M ∧ op.Positive) 0 ops) :
    Sound (Run.final (LedgerTrie.step order) {} ops) (Run.final Op.support 0 ops) :=
  hops.simulates sound_empty fun _ _ _ h hop => h.step order hop

theorem invariant_final {ops : List (Op L)}
    (hops : Run.Along Op.support (fun M op => op.Fits M ∧ op.Positive) 0 ops) :
    Invariant (Run.final (LedgerTrie.step order) {} ops) :=
  (sound_final order hops).invariant

end

theorem invariant_final_fork :
    Run.Along Op.support (fun M op => op.Fits M ∧ op.Positive) 0 forkOps
      ∧ Invariant (Run.final (LedgerTrie.step .asIs) {} forkOps) :=
  ⟨by decide, invariant_final .asIs (by decide)⟩

/-- Inserting a ledger zero times leaves a node without support or children, and an empty entry. -/
theorem insert_zero_breaks :
    ¬ Invariant (({} : LedgerTrie (Chain Nat)).insert ⟨[1]⟩ 0) := by
  intro h
  exact h.positive (1, 0) (by decide) rfl

end Chainsql.LedgerTrie
