import Chainsql.Lib.Run
import Chainsql.Trie.Update

/-!
# The support of a ledger

A trie stands for the multiset of the ledgers that were inserted and not removed (`Represents`).
Positions decide the support: the supported positions past a position of a node's span are those of
the node's own subtree.
-/

namespace Chainsql.LedgerTrie

open Lineage Place

variable {L ID : Type*} [Lineage L ID] [LawfulLineage L]

/-! ### Positions of a subtree -/

variable {e d : NodeData L}

/-- Every node of a subtree goes on from the whole span of the subtree's first node. -/
theorem Node.Ok.passes_of_mem {n : Node L} (hok : n.Ok) (he : e ∈ n.nodes) {x : Nat} (hx : x < n.span.stop) :
    x < e.span.stop ∧ Passes e.span.ledger (x, ancestor n.span.ledger x) := by
  induction hok generalizing x with
  | @mk d cs hb hcs ih =>
    rw [Node.nodes_mk, Multiset.mem_cons] at he
    have hx : x < d.span.stop := hx
    rcases he with rfl | he
    · refine ⟨hx, passes_ancestor ?_⟩
      have := e.span.stop_le
      show x ≤ seq e.span.ledger
      omega
    · obtain ⟨c, hc, he⟩ := Node.mem_nodesAll.mp he
      have hstart : c.span.start = d.span.stop := hb.start c.data (List.mem_map_of_mem hc)
      have hpass : Passes c.span.ledger d.span.tipPos := hb.passes c.data (List.mem_map_of_mem hc)
      have hlt : x < c.span.stop := by
        have := c.span.start_lt_stop
        omega
      obtain ⟨hxe, hpe⟩ := ih c hc he hlt
      have hxd : Passes d.span.ledger (x, ancestor d.span.ledger x) := by
        have := d.span.stop_le
        exact passes_ancestor (by omega)
      have hxc := hxd.of_passes d.span.passes_tipPos (show x ≤ d.span.stop - 1 by omega) hpass
      refine ⟨hxe, hpe.1, ?_⟩
      exact hpe.2.trans hxc.2

theorem Node.Ok.stop_lt_of_mem {cs : List (Node L)} (hok : (Node.mk d cs).Ok) (he : e ∈ Node.nodesAll cs) :
    d.span.stop < e.span.stop := by
  obtain ⟨hb, hcs⟩ := Node.ok_mk_iff.mp hok
  obtain ⟨c, hc, he⟩ := Node.mem_nodesAll.mp he
  have hstart : c.span.start = d.span.stop := hb.start c.data (List.mem_map_of_mem hc)
  have := ((hcs c hc).passes_of_mem he c.span.start_lt_stop).1
  omega

/-- No node outside a subtree goes on from the first position of the subtree. -/
theorem PathOk.not_passes {path : List (Owner L)} (hpath : PathOk d path) (he : e ∈ pathNodes path) :
    ¬ (d.span.start < e.span.stop ∧ Passes e.span.ledger (d.span.start, d.span.startID)) := by
  induction path generalizing d with
  | nil => simp [pathNodes] at he
  | cons o path ih =>
    obtain ⟨hb, hoks, hrest⟩ := hpath
    have hmem : d ∈ o.left.map Node.data ++ d :: o.right.map Node.data := by simp
    have hd : d.span.start = o.data.span.stop := hb.start d hmem
    have hlt := o.data.span.start_lt_stop
    simp only [pathNodes, Multiset.cons_add, Multiset.mem_cons, Multiset.mem_add] at he
    rintro ⟨hstop, hpass⟩
    have hsib : ∀ c ∈ o.left ++ o.right, e ∉ c.nodes := by
      intro c hc hec
      have hcmem : c.data ∈ o.left.map Node.data ++ d :: o.right.map Node.data := by
        rw [List.mem_append] at hc
        simp only [List.mem_append, List.mem_cons, List.mem_map]
        rcases hc with hc | hc
        · exact .inl ⟨c, hc, rfl⟩
        · exact .inr (.inr ⟨c, hc, rfl⟩)
      have hc₀ : c.span.start = d.span.start := (hb.start c.data hcmem).trans hd.symm
      have heq : c.span.startID = d.span.startID := by
        have hec₀ : ancestor e.span.ledger c.span.start = c.span.startID :=
          ((hoks c hc).passes_of_mem hec c.span.start_lt_stop).2.2
        rw [← hec₀, hc₀]
        exact hpass.2
      have hnodup := hb.nodup
      simp only [List.map_append, List.map_cons, List.nodup_append, List.nodup_cons, List.mem_map,
        List.map_map] at hnodup
      obtain ⟨-, ⟨hright, -⟩, hleft⟩ := hnodup
      rcases List.mem_append.mp hc with hc | hc
      · exact hleft _ ⟨c, hc, rfl⟩ _ (List.mem_cons_self ..) heq
      · exact hright ⟨c, hc, heq⟩
    rcases he with rfl | (he | he) | he
    · omega
    · obtain ⟨c, hc, he⟩ := Node.mem_nodesAll.mp he
      exact hsib c (by simp [hc]) he
    · obtain ⟨c, hc, he⟩ := Node.mem_nodesAll.mp he
      exact hsib c (by simp [hc]) he
    · refine ih hrest he ⟨by omega, ?_⟩
      have hfirst : Passes d.span.ledger (o.data.span.start, o.data.span.startID) :=
        (passes_ancestor o.data.span.start_le_seq).of_passes o.data.span.passes_tipPos
          (show _ ≤ o.data.span.stop - 1 by omega) (hb.passes d hmem)
      refine hfirst.of_passes (passes_ancestor d.span.start_le_seq) ?_ hpass
      show o.data.span.start ≤ d.span.start
      omega

theorem Span.below_tipPos_iff {s : Span L} {q : Nat × ID} :
    Below L q s.tipPos ↔ q.1 < s.stop ∧ Passes s.ledger q := by
  rw [below_iff s.passes_tipPos]
  have := s.start_lt_stop
  have : q.1 ≤ s.tipPos.1 ↔ q.1 < s.stop := by
    show q.1 ≤ s.stop - 1 ↔ _
    omega
  rw [this]

namespace Place

variable {p : Place L} {q : Nat × ID}

omit [LawfulLineage L] in
theorem nodes_of_rebuild {n : Node L} (h : rebuild p.node p.path = n) : p.nodes = n.nodes := by
  rw [← h, nodes_rebuild, nodes]

theorem not_below_of_mem_path (hp : p.Ok) (hstart : p.node.span.start ≤ q.1) (hq : Passes p.node.span.ledger q)
    {r : Nat × ID} (hr : r ∈ tips (pathNodes p.path)) : ¬ Below L q r := by
  obtain ⟨e, he, -, rfl⟩ := mem_tips.mp hr
  rw [Span.below_tipPos_iff]
  rintro ⟨hlt, hpass⟩
  refine hp.2.not_passes he ⟨Nat.lt_of_le_of_lt hstart hlt, ?_⟩
  exact (passes_ancestor p.node.span.start_le_seq).of_passes hq hstart hpass

open Classical in
/-- The support past a position of the node's span is the node's branch support. -/
theorem countP_below (hp : p.Ok) (hstart : p.node.span.start ≤ q.1) (hstop : q.1 < p.node.span.stop)
    (hq : Passes p.node.span.ledger q) :
    (tips p.nodes).countP (Below L q) = p.node.branchSupport.toNat := by
  have hin : (tips p.node.nodes).countP (Below L q) = (tips p.node.nodes).card := by
    rw [Multiset.countP_eq_card]
    intro r hr
    obtain ⟨e, he, -, rfl⟩ := mem_tips.mp hr
    rw [Span.below_tipPos_iff]
    obtain ⟨hlt, hpass⟩ := hp.1.passes_of_mem he hstop
    refine ⟨hlt, hpass.1, hpass.2.trans hq.2⟩
  have hout : (tips (pathNodes p.path)).countP (Below L q) = 0 := by
    rw [Multiset.countP_eq_zero]
    intro r hr
    exact not_below_of_mem_path hp hstart hq hr
  rw [nodes, tips_add, Multiset.countP_add, hin, hout, add_zero, hp.1.branchSupport_eq]

theorem count_tipPos [DecidableEq ID] (hp : p.Ok) :
    (tips p.nodes).count p.node.span.tipPos = p.node.tipSupport.toNat := by
  obtain ⟨⟨d, cs⟩, path⟩ := p
  have hin : d.span.tipPos ∉ tips (Node.nodesAll cs) := by
    intro h
    obtain ⟨e, he, -, heq⟩ := mem_tips.mp h
    have hlt := hp.1.stop_lt_of_mem he
    have hseq : d.span.stop - 1 = e.span.stop - 1 := congrArg Prod.fst heq
    have := d.span.start_lt_stop
    omega
  have hout : d.span.tipPos ∉ tips (pathNodes path) := by
    intro h
    refine not_below_of_mem_path hp ?_ d.span.passes_tipPos h ⟨Nat.le_refl _, d.span.ledger, ?_, ?_⟩
    · have := d.span.start_lt_stop
      show d.span.start ≤ d.span.stop - 1
      omega
    · exact d.span.passes_tipPos
    · exact d.span.passes_tipPos
  have hcs := Multiset.count_eq_zero_of_notMem hin
  have hpath := Multiset.count_eq_zero_of_notMem hout
  simp [nodes, Node.span, Node.tipSupport, Multiset.count_replicate_self, hcs, hpath]

end Place

/-! ### Searching by id -/

section

variable [DecidableEq ID] {ledgerID : ID}

omit [LawfulLineage L] [DecidableEq ID] in
/-- The search finds a place of the tree that ends with the id, or there is none among the nodes. -/
def Searched (ledgerID : ID) (n : Node L) (path : List (Owner L)) (nodes : Multiset (NodeData L)) : Option (Place L) → Prop
  | some p => rebuild p.node p.path = rebuild n path ∧ p.node.span.tip.id = ledgerID
  | none => ∀ e ∈ nodes, e.span.tip.id ≠ ledgerID

omit [LawfulLineage L] in
theorem searchChildren_spec {d : NodeData L} (left : List (Node L)) {cs : List (Node L)} (path : List (Owner L))
    (ih : ∀ c ∈ cs, ∀ path, Searched ledgerID c path c.nodes (searchID ledgerID c path)) :
    Searched ledgerID (.mk d (left ++ cs)) path (Node.nodesAll cs) (searchChildren ledgerID d left cs path) := by
  induction cs generalizing left with
  | nil =>
    rw [searchChildren]
    simp [Searched]
  | cons c cs ihcs =>
    rw [searchChildren]
    have hc := ih c (by simp) (⟨d, left, cs⟩ :: path)
    cases hsearch : searchID ledgerID c (⟨d, left, cs⟩ :: path) with
    | some p =>
      rw [hsearch] at hc
      exact hc
    | none =>
      rw [hsearch] at hc
      have hrest := ihcs (left ++ [c]) fun c' hc' => ih c' (by simp [hc'])
      rw [List.append_assoc] at hrest
      cases hnext : searchChildren ledgerID d (left ++ [c]) cs path with
      | some p =>
        rw [hnext] at hrest
        exact hrest
      | none =>
        rw [hnext] at hrest
        intro e he
        rcases Multiset.mem_add.mp (Node.nodesAll_cons c cs ▸ he) with he | he
        · exact hc e he
        · exact hrest e he

variable (ledgerID) in
omit [LawfulLineage L] in
theorem searchID_spec (n : Node L) (path : List (Owner L)) :
    Searched ledgerID n path n.nodes (searchID ledgerID n path) := by
  induction n using Node.induct generalizing path with
  | mk d cs ih =>
    rw [searchID]
    by_cases h : ledgerID = d.span.tip.id
    · rw [if_pos h]
      exact ⟨rfl, h.symm⟩
    · rw [if_neg h]
      have hcs := searchChildren_spec (d := d) [] path ih
      cases hsearch : searchChildren ledgerID d [] cs path with
      | some p =>
        rw [hsearch] at hcs
        exact hcs
      | none =>
        rw [hsearch] at hcs
        intro e he
        rcases Multiset.mem_cons.mp (Node.nodes_mk d cs ▸ he) with rfl | he
        · exact fun heq => h heq.symm
        · exact hcs e he

variable {t : LedgerTrie L} {ledger : L}

theorem findByLedgerID_some (h : Rooted t.root) {loc : Place L} (hfind : t.findByLedgerID ledger = some loc) :
    loc.Ok ∧ rebuild loc.node loc.path = t.root ∧ loc.node.span.tipPos = pos ledger := by
  have hspec := searchID_spec (Lineage.id ledger) t.root []
  rw [findByLedgerID] at hfind
  rw [hfind] at hspec
  obtain ⟨hbuild, hid⟩ := hspec
  exact ⟨rooted_rebuild.mp (hbuild ▸ h), hbuild, pos_eq_of_id_eq loc.node.span.passes_tipPos.1 hid⟩

omit [LawfulLineage L] in
theorem findByLedgerID_none (hfind : t.findByLedgerID ledger = none) : pos ledger ∉ tips t.root.nodes := by
  have hspec := searchID_spec (Lineage.id ledger) t.root []
  rw [findByLedgerID] at hfind
  rw [hfind] at hspec
  intro hmem
  obtain ⟨e, he, -, heq⟩ := mem_tips.mp hmem
  exact hspec e he (congrArg Prod.snd heq).symm

theorem tipSupport_eq (h : Rooted t.root) : (t.tipSupport ledger).toNat = (tips t.root.nodes).count (pos ledger) := by
  rw [tipSupport]
  cases hfind : t.findByLedgerID ledger with
  | some loc =>
    obtain ⟨hok, hbuild, hpos⟩ := findByLedgerID_some h hfind
    rw [← nodes_of_rebuild hbuild, ← hpos, count_tipPos hok]
  | none => exact (Multiset.count_eq_zero_of_notMem (findByLedgerID_none hfind)).symm

omit [DecidableEq ID] in
/-- A ledger that leaves the tree is on the history of no supported one. -/
theorem Found.not_below {p : Place L} (hp : p.Ok) {spot : Nat} (hf : Found ledger p.node spot)
    (hle : spot ≤ seq ledger) {r : Nat × ID} (hr : r ∈ tips p.nodes) : ¬ Below L (pos ledger) r := by
  obtain ⟨⟨d, cs⟩, path⟩ := p
  have hfirst : Passes ledger (d.span.start, d.span.startID) := hf.passes hf.start_lt
  intro hbelow
  rw [nodes, tips_add, Multiset.mem_add] at hr
  rcases hr with hr | hr
  · obtain ⟨e, he, -, rfl⟩ := mem_tips.mp hr
    obtain ⟨hlt, hpass⟩ := Span.below_tipPos_iff.mp hbelow
    have hledger : ∀ {x}, x ≤ seq ledger → Passes e.span.ledger (x, ancestor ledger x) := fun hx =>
      (passes_ancestor hx).of_passes (passes_pos ledger) hx hpass
    rcases hf.le_stop.eq_or_lt with heq | hlt'
    · have hstop : d.span.stop = spot := heq.symm
      rcases Multiset.mem_cons.mp (Node.nodes_mk d cs ▸ he) with rfl | he
      · have : seq ledger < e.span.stop := hlt
        omega
      · obtain ⟨hb, hcs⟩ := Node.ok_mk_iff.mp hp.1
        obtain ⟨c, hc, he⟩ := Node.mem_nodesAll.mp he
        have hcstart : c.span.start = spot := by
          rw [← hstop]
          exact hb.start c.data (List.mem_map_of_mem hc)
        have hne := Span.startID_ne (s := c.span) ledger
          (by rw [hcstart]; exact hf.children heq c hc) (by rw [hcstart]; exact hle)
        have hce := ((hcs c hc).passes_of_mem he c.span.start_lt_stop).2.2
        exact hne (hce.symm.trans (hledger (by rw [hcstart]; exact hle)).2)
    · have hmis : mismatch d.span.ledger ledger = spot := hf.mismatch_eq hlt'
      have hd : spot ≤ seq d.span.ledger := by
        have := d.span.stop_le
        have : spot < d.span.stop := hlt'
        omega
      have hde := (hp.1.passes_of_mem he hlt').2.2
      have hanc : ancestor d.span.ledger spot = ancestor ledger spot := hde.symm.trans (hledger hle).2
      have := (lt_mismatch_iff hd hle).mpr hanc
      omega
  · refine not_below_of_mem_path (q := (d.span.start, d.span.startID)) hp (Nat.le_refl _)
      (passes_ancestor d.span.start_le_seq) hr (Below.trans ?_ hbelow)
    exact below_pos_iff.mpr hfirst

open Classical in
theorem branchSupport_eq (h : Rooted t.root) :
    (t.branchSupport ledger).toNat = (tips t.root.nodes).countP (Below L (pos ledger)) := by
  rw [branchSupport]
  cases hfind : t.findByLedgerID ledger with
  | some loc =>
    obtain ⟨hok, hbuild, hpos⟩ := findByLedgerID_some h hfind
    have hpass := loc.node.span.passes_tipPos
    have hlt := loc.node.span.start_lt_stop
    rw [← nodes_of_rebuild hbuild, countP_below hok ?_ ?_ (hpos ▸ hpass)]
    · rw [← hpos]
      show loc.node.span.start ≤ loc.node.span.stop - 1
      omega
    · rw [← hpos]
      show loc.node.span.stop - 1 < loc.node.span.stop
      omega
  | none =>
    obtain ⟨hbuild, hf⟩ := find_spec h ledger
    have hok : (t.find ledger).1.Ok := rooted_rebuild.mp (hbuild.symm ▸ h)
    rw [← nodes_of_rebuild hbuild]
    have hle := hf.le_seq_succ
    have hstop := hf.le_stop
    have hstart := hf.start_lt
    by_cases hspot : seq ledger < (t.find ledger).2
    · simp only [if_pos (show _ > _ ∧ _ < _ from ⟨hspot, Nat.lt_of_lt_of_le hspot hstop⟩)]
      refine (countP_below hok ?_ ?_ ?_).symm
      · show _ ≤ seq ledger
        omega
      · show seq ledger < _
        omega
      · have hpass := hf.passes hspot
        refine ⟨?_, hpass.2.symm⟩
        have := (t.find ledger).1.node.span.stop_le
        show seq ledger ≤ _
        omega
    · simp only [if_neg (show ¬ (_ > _ ∧ _ < _) from fun h' => hspot h'.1)]
      symm
      rw [UInt32.toNat_zero, Multiset.countP_eq_zero]
      intro r hr
      exact hf.not_below hok (by omega) hr

end

/-! ### Insertion and removal -/

section

variable {t : LedgerTrie L} {ledger : L} {count : UInt32}

/-- The place that an insertion adds its support to. -/
def insertPlace (t : LedgerTrie L) (ledger : L) : Place L :=
  ((t.find ledger).1.split (t.find ledger).2 t.fresh).extend ledger (t.find ledger).2 (t.fresh + 1)

omit [LawfulLineage L] in
theorem insert_root (t : LedgerTrie L) (ledger : L) (count : UInt32) :
    (t.insert ledger count).root =
      rebuild ((t.insertPlace ledger).updateSupport (· + count) (· + count)).node
        ((t.insertPlace ledger).updateSupport (· + count) (· + count)).path := rfl

theorem insertPlace_ok (h : Rooted t.root) (ledger : L) :
    (t.insertPlace ledger).Ok ∧ (t.insertPlace ledger).node.span.tipPos = pos ledger
      ∧ tips (t.insertPlace ledger).nodes = tips t.root.nodes := by
  obtain ⟨hbuild, hf⟩ := find_spec h ledger
  have hok : (t.find ledger).1.Ok := rooted_rebuild.mp (hbuild.symm ▸ h)
  obtain ⟨hok', hf', hstop⟩ := split_ok t.fresh hok hf
  obtain ⟨hok'', hpos⟩ := extend_ok (t.fresh + 1) hok' hf' hstop
  refine ⟨hok'', hpos, ?_⟩
  rw [insertPlace, tips_extend, tips_split hf, nodes_of_rebuild hbuild]

variable {p : Place L}

omit [LawfulLineage L] in
theorem Place.card_tips (hp : p.Ok) : (rebuild p.node p.path).branchSupport.toNat = (tips p.nodes).card := by
  rw [(rooted_rebuild.mpr hp).1.branchSupport_eq, nodes_rebuild, nodes]

variable (ledger) in
theorem insert_spec (h : Rooted t.root) (hcount : (tips t.root.nodes).card + count.toNat < 2 ^ 32) :
    Rooted (t.insert ledger count).root
      ∧ tips (t.insert ledger count).root.nodes
        = tips t.root.nodes + Multiset.replicate count.toNat (pos ledger) := by
  obtain ⟨hok, hpos, htips⟩ := insertPlace_ok h ledger
  have hcard := card_tips hok
  rw [htips] at hcard
  obtain ⟨hnode, hpath⟩ := hok.2.branchSupport_le
  have hadd : ∀ x : UInt32, x.toNat ≤ (tips t.root.nodes).card → (x + count).toNat + 0 = x.toNat + count.toNat := by
    intro x hx
    rw [UInt32.toNat_add]
    omega
  have htip := hok.1.tipSupport_le
  obtain ⟨hok', htips'⟩ := updateSupport_ok (a := 0) (b := count.toNat) (· + count)
    (· + count) hok (hadd _ (by omega)) (hadd _ (by omega))
    fun o ho => hadd _ (by have := (hpath o ho).2; omega)
  rw [insert_root]
  refine ⟨rooted_rebuild.mpr hok', ?_⟩
  rw [Multiset.replicate_zero, add_zero, hpos, htips] at htips'
  rw [nodes_rebuild]
  exact htips'

variable [DecidableEq ID]

theorem remove_cases (h : Rooted t.root) (ledger : L) (count : UInt32) :
    ((t.remove ledger count).1 = t ∧ (tips t.root.nodes).count (pos ledger) = 0)
      ∨ ∃ (loc : Place L) (taken : UInt32), loc.Ok ∧ rebuild loc.node loc.path = t.root ∧ loc.node.span.tipPos = pos ledger
        ∧ taken.toNat = min count.toNat ((tips t.root.nodes).count (pos ledger))
        ∧ taken.toNat ≤ loc.node.tipSupport.toNat
        ∧ (t.remove ledger count).1 =
          { t with
            root := compress (loc.updateSupport (· - taken) (· - taken)).node
              (loc.updateSupport (· - taken) (· - taken)).path
            seqSupport := SeqSupport.remove (seq ledger) taken t.seqSupport } := by
  rw [remove]
  cases hfind : t.findByLedgerID ledger with
  | none => exact .inl ⟨rfl, Multiset.count_eq_zero_of_notMem (findByLedgerID_none hfind)⟩
  | some loc =>
    obtain ⟨hok, hbuild, hpos⟩ := findByLedgerID_some h hfind
    have hcount : (tips t.root.nodes).count (pos ledger) = loc.node.tipSupport.toNat := by
      rw [← nodes_of_rebuild hbuild, ← hpos, count_tipPos hok]
    rw [hcount]
    by_cases hzero : loc.node.tipSupport = 0
    · simp only [if_pos hzero]
      refine .inl ⟨trivial, ?_⟩
      rw [hzero, UInt32.toNat_zero]
    · simp only [if_neg hzero]
      have hmin : (min count loc.node.tipSupport).toNat = min count.toNat loc.node.tipSupport.toNat := by
        show (if count ≤ loc.node.tipSupport then count else loc.node.tipSupport).toNat = _
        split
        · rename_i hle
          rw [UInt32.le_iff_toNat_le] at hle
          omega
        · rename_i hle
          rw [UInt32.le_iff_toNat_le] at hle
          omega
      exact .inr ⟨loc, _, hok, hbuild, hpos, hmin, hmin ▸ Nat.min_le_right _ _, rfl⟩

omit [LawfulLineage L] [DecidableEq ID] in
theorem Place.withdraw_ok (hp : p.Ok) {taken : UInt32} (htaken : taken.toNat ≤ p.node.tipSupport.toNat) :
    (p.updateSupport (· - taken) (· - taken)).Ok
      ∧ tips (p.updateSupport (· - taken) (· - taken)).nodes
          + Multiset.replicate taken.toNat p.node.span.tipPos = tips p.nodes := by
  obtain ⟨-, hpath⟩ := hp.2.branchSupport_le
  have htip := hp.1.tipSupport_le
  have hsub : ∀ x : UInt32, taken.toNat ≤ x.toNat → (x - taken).toNat + taken.toNat = x.toNat + 0 := by
    intro x hx
    rw [UInt32.toNat_sub_of_le _ _ (UInt32.le_iff_toNat_le.mpr hx)]
    omega
  have := updateSupport_ok (a := taken.toNat) (b := 0) (· - taken) (· - taken) hp
    (hsub _ htaken) (hsub _ (by omega)) fun o ho => hsub _ (by have := (hpath o ho).1; omega)
  rwa [Multiset.replicate_zero, add_zero] at this

theorem remove_spec (h : Rooted t.root) (ledger : L) (count : UInt32) :
    Rooted (t.remove ledger count).1.root
      ∧ tips (t.remove ledger count).1.root.nodes
          + Multiset.replicate (min count.toNat ((tips t.root.nodes).count (pos ledger))) (pos ledger)
        = tips t.root.nodes := by
  rcases remove_cases h ledger count with ⟨heq, hcount⟩ | ⟨loc, taken, hok, hbuild, hpos, hmin, hle, heq⟩
  · rw [heq, hcount]
    exact ⟨h, by simp⟩
  · obtain ⟨hok', htips⟩ := withdraw_ok hok hle
    obtain ⟨hroot, hcompress, -⟩ := compress_ok hok'
    rw [heq, ← hmin]
    refine ⟨hroot, ?_⟩
    rw [hcompress, ← hpos]
    exact htips.trans (congrArg tips (nodes_of_rebuild hbuild))

end

/-! ### Runs -/

inductive Op (L : Type*) where
  | insert (ledger : L) (count : UInt32)
  | remove (ledger : L) (count : UInt32)
  | getPreferred (largestIssued : Nat)

section

variable [LinearOrder ID] (order : Arrangement (Node L))

omit [LawfulLineage L] in
def step (t : LedgerTrie L) : Op L → LedgerTrie L
  | .insert ledger count => t.insert ledger count
  | .remove ledger count => (t.remove ledger count).1
  | .getPreferred largestIssued => (t.getPreferred order largestIssued).1

end

namespace Op

variable [DecidableEq L]

def support (M : Multiset L) : Op L → Multiset L
  | insert ledger count => M + Multiset.replicate count.toNat ledger
  | remove ledger count => M - Multiset.replicate count.toNat ledger
  | getPreferred _ => M

/-- The total support can still be counted with 32 bits. -/
def Fits (M : Multiset L) : Op L → Prop
  | insert _ count => M.card + count.toNat < 2 ^ 32
  | _ => True

instance (M : Multiset L) : (op : Op L) → Decidable (op.Fits M)
  | insert _ _ => inferInstanceAs (Decidable (_ < _))
  | remove _ _ => inferInstanceAs (Decidable True)
  | getPreferred _ => inferInstanceAs (Decidable True)

end Op

structure Represents (t : LedgerTrie L) (M : Multiset L) : Prop where
  rooted : Rooted t.root
  tips : tips t.root.nodes = M.map pos

section

variable {t : LedgerTrie L} {M : Multiset L}

omit [Lineage L ID] [LawfulLineage L] in
theorem sub_replicate [DecidableEq L] (M : Multiset L) (ledger : L) (n : Nat) :
    M - Multiset.replicate n ledger = M - Multiset.replicate (min n (M.count ledger)) ledger := by
  ext a
  rw [Multiset.count_sub, Multiset.count_sub, Multiset.count_replicate, Multiset.count_replicate]
  split
  · subst a
    omega
  · rfl

omit [LawfulLineage L] in
theorem represents_empty : Represents ({} : LedgerTrie L) 0 := by
  refine ⟨⟨Node.ok_mk_iff.mpr ⟨⟨by simp, by simp, by simp, by simp, by simp⟩, by simp⟩, rfl, rfl, rfl⟩, ?_⟩
  simp [LedgerTrie.tips]

omit [LawfulLineage L] in
theorem Represents.card_tips (h : Represents t M) : (LedgerTrie.tips t.root.nodes).card = M.card := by
  rw [h.tips, Multiset.card_map]

theorem Represents.count_tips [DecidableEq ID] [DecidableEq L] (h : Represents t M) (ledger : L) :
    (LedgerTrie.tips t.root.nodes).count (pos ledger) = M.count ledger := by
  rw [h.tips, Multiset.count_map_eq_count' _ _ pos_injective]

theorem Represents.insert (h : Represents t M) (ledger : L) (count : UInt32)
    (hcount : M.card + count.toNat < 2 ^ 32) :
    Represents (t.insert ledger count) (M + Multiset.replicate count.toNat ledger) := by
  obtain ⟨hrooted, htips⟩ := insert_spec ledger h.rooted (h.card_tips ▸ hcount)
  refine ⟨hrooted, ?_⟩
  rw [htips, h.tips, Multiset.map_add, Multiset.map_replicate]

theorem Represents.remove [DecidableEq ID] [DecidableEq L] (h : Represents t M) (ledger : L) (count : UInt32) :
    Represents (t.remove ledger count).1 (M - Multiset.replicate count.toNat ledger) := by
  obtain ⟨hrooted, htips⟩ := remove_spec h.rooted ledger count
  refine ⟨hrooted, ?_⟩
  rw [h.count_tips] at htips
  have hle : Multiset.replicate (min count.toNat (M.count ledger)) ledger ≤ M :=
    Multiset.le_count_iff_replicate_le.mp (Nat.min_le_right _ _)
  apply add_right_cancel (b := Multiset.replicate (min count.toNat (M.count ledger)) (pos ledger))
  rw [htips, h.tips, sub_replicate, ← Multiset.map_replicate, ← Multiset.map_add, Multiset.sub_add_cancel hle]

variable [LinearOrder ID] (order : Arrangement (Node L))

omit [LawfulLineage L] in
theorem Represents.getPreferred (h : Represents t M) (largestIssued : Nat) :
    Represents (t.getPreferred order largestIssued).1 M := by
  have hr := getPreferred_rearranged order t largestIssued
  refine ⟨⟨hr.ok h.rooted.1, ?_⟩, ?_⟩
  · rw [hr.data_eq]
    exact h.rooted.2
  · rw [hr.nodes_eq]
    exact h.tips

variable [DecidableEq L]

theorem Represents.step (h : Represents t M) {op : Op L} (hop : op.Fits M) :
    Represents (t.step order op) (op.support M) := by
  cases op with
  | insert ledger count => exact h.insert ledger count hop
  | remove ledger count => exact h.remove ledger count
  | getPreferred largestIssued => exact h.getPreferred order largestIssued

/-- The trie refines the multiset of the supported ledgers. -/
theorem represents_final {ops : List (Op L)} (hops : Run.Along Op.support (fun M op => op.Fits M) 0 ops) :
    Represents (Run.final (step order) {} ops) (Run.final Op.support 0 ops) :=
  hops.simulates represents_empty fun _ _ _ h hop => h.step order hop

open Classical in
omit [DecidableEq L] [LinearOrder ID] in
theorem Represents.countP_below [DecidableEq ID] (h : Represents t M) (q : Nat × ID) :
    (LedgerTrie.tips t.root.nodes).countP (Below L q) = M.countP fun a => Passes a q := by
  rw [h.tips, Multiset.countP_map, Multiset.countP_eq_card_filter]
  congr 1
  refine Multiset.filter_congr fun a _ => ?_
  exact below_pos_iff

/-- The support queries are exact along every run whose total support stays below `2 ^ 32`. -/
theorem support_exact {ops : List (Op L)} (hops : Run.Along Op.support (fun M op => op.Fits M) 0 ops)
    (ledger : L) :
    ((Run.final (step order) {} ops).tipSupport ledger).toNat = (Run.final Op.support 0 ops).count ledger
      ∧ ((Run.final (step order) {} ops).branchSupport ledger).toNat
        = (Run.final Op.support 0 ops).countP fun a => Passes a (pos ledger) := by
  have h := represents_final order hops
  constructor
  · rw [tipSupport_eq h.rooted, h.count_tips]
  · rw [branchSupport_eq h.rooted, h.countP_below]

end

def forkOps : List (Op (Chain Nat)) := [.insert ⟨[1, 2]⟩ 2, .insert ⟨[1, 3]⟩ 1, .remove ⟨[1, 2]⟩ 1]

theorem support_exact_fork :
    Run.Along Op.support (fun M op => op.Fits M) 0 forkOps
      ∧ ((Run.final (step .asIs) {} forkOps).branchSupport ⟨[1]⟩).toNat
        = (Run.final Op.support 0 forkOps).countP fun a => Passes a (pos (⟨[1]⟩ : Chain Nat)) :=
  ⟨by decide, (support_exact .asIs
    (by decide : Run.Along Op.support (fun M op => op.Fits M) 0 forkOps) ⟨[1]⟩).2⟩

def wrappingOps : List (Op (Chain Nat)) := [.insert ⟨[1]⟩ 4294967295, .insert ⟨[1]⟩ 1]

/-- The counters are 32-bit: the support of `2 ^ 32` insertions reads as none. -/
theorem tipSupport_wraps :
    ((Run.final (step .asIs) {} wrappingOps).tipSupport ⟨[1]⟩).toNat = 0
      ∧ (Run.final Op.support 0 wrappingOps).count ⟨[1]⟩ = 2 ^ 32 := by
  refine ⟨by decide, ?_⟩
  show Multiset.count _ (0 + Multiset.replicate (4294967295 : UInt32).toNat _ + Multiset.replicate 1 _) = _
  rw [zero_add, Multiset.count_add, Multiset.count_replicate_self]
  rfl

end Chainsql.LedgerTrie
