import Chainsql.Trie.WellFormed

/-!
# Insertion and removal

Splitting a node, adding a leaf and compressing a branch keep the tree well formed and its supported
positions; only the update of the supports changes them, at one position.
-/

namespace Chainsql.LedgerTrie

open Lineage LedgerTrie.Span

variable {L ID : Type*} [Lineage L ID]

namespace Place

variable {ledger : L} {spot : Nat} {fresh : Addr}

def Ok (p : Place L) : Prop := p.node.Ok ∧ PathOk p.node.data p.path

def nodes (p : Place L) : Multiset (NodeData L) := p.node.nodes + pathNodes p.path

variable {p : Place L} {cs : List (Node L)} {d : NodeData L} {path : List (Owner L)}

theorem split_of_eq (h : p.node.span.stop = spot) : p.split spot fresh = p := by
  obtain ⟨⟨d, cs⟩, path⟩ := p
  have hnone : d.span.after spot = none := after_eq_none (Nat.le_of_eq h)
  simp only [split, hnone]

theorem split_of_lt (h : d.span.start < spot) (h' : spot < d.span.stop) :
    split ⟨.mk d cs, path⟩ spot fresh =
      ⟨.mk { d with span := ⟨d.span.start, spot, d.span.ledger, h, h'.le.trans d.span.stop_le⟩, tipSupport := 0 }
        [.mk { addr := fresh, span := ⟨spot, d.span.stop, d.span.ledger, h', d.span.stop_le⟩
               tipSupport := d.tipSupport, branchSupport := d.branchSupport, parent := some d.addr }
          (cs.map (Node.setParent fresh))], path⟩ := by
  simp only [split, after_eq_some h.le h', before_eq_some h h'.le, Option.getD_some]

theorem extend_of_lt (h : seq ledger < spot) : p.extend ledger spot fresh = p := by
  obtain ⟨⟨d, cs⟩, path⟩ := p
  simp only [extend, after_eq_none (s := ofLedger ledger) h]

theorem extend_of_le (h : spot ≤ seq ledger) :
    extend ⟨.mk d cs, path⟩ ledger spot fresh =
      ⟨.mk { addr := fresh, span := ⟨spot, seq ledger + 1, ledger, Nat.lt_succ_of_le h, Nat.le_refl _⟩
             parent := some d.addr } [], ⟨d, cs, []⟩ :: path⟩ := by
  simp only [extend, after_eq_some (s := ofLedger ledger) (Nat.zero_le _) (Nat.lt_succ_of_le h)]
  rfl

end Place

theorem Node.ok_setParent {cs : List (Node L)} (h : ∀ c ∈ cs, c.Ok) (a : Addr) :
    ∀ c ∈ cs.map (Node.setParent a), c.Ok := by
  intro c hc
  obtain ⟨⟨e, es⟩, hmem, rfl⟩ := List.mem_map.mp hc
  obtain ⟨hb, hes⟩ := Node.ok_mk_iff.mp (h _ hmem)
  exact Node.ok_mk_iff.mpr ⟨⟨hb.start, hb.parent, hb.passes, hb.nodup, hb.support⟩, hes⟩

theorem Node.nodesAll_setParent (a : Addr) (cs : List (Node L)) :
    tips (nodesAll (cs.map (setParent a))) = tips (nodesAll cs)
      ∧ (nodesAll (cs.map (setParent a))).map NodeData.addr = (nodesAll cs).map NodeData.addr := by
  induction cs with
  | nil => exact ⟨rfl, rfl⟩
  | cons c cs ih =>
    obtain ⟨d, es⟩ := c
    constructor
    · simp [setParent, ih.1]
    · simp [setParent, ih.2]

namespace Place

variable {ledger : L} {spot : Nat} {fresh : Addr} {p : Place L}

variable (fresh) in
theorem split_ok (hp : p.Ok) (hf : Found ledger p.node spot) :
    (p.split spot fresh).Ok ∧ Found ledger (p.split spot fresh).node spot
      ∧ (p.split spot fresh).node.span.stop = spot := by
  rcases hf.le_stop.eq_or_lt with heq | hlt
  · rw [split_of_eq heq.symm]
    exact ⟨hp, hf, heq.symm⟩
  · obtain ⟨⟨d, cs⟩, path⟩ := p
    have hlt : spot < d.span.stop := hlt
    have hgt : d.span.start < spot := hf.start_lt
    have hmis : mismatch d.span.ledger ledger = spot := hf.mismatch_eq hlt
    obtain ⟨hok, hpath⟩ := hp
    obtain ⟨hb, hcs⟩ := Node.ok_mk_iff.mp hok
    rw [split_of_lt hgt hlt]
    refine ⟨⟨?_, ?_⟩, ⟨?_, hgt, ?_⟩, rfl⟩
    · refine Node.ok_mk_iff.mpr ⟨?_, ?_⟩
      · refine ⟨by simp, by simp, ?_, by simp, by simp⟩
        simp only [List.map_cons, List.map_nil, List.mem_singleton, Node.data_mk, forall_eq]
        refine ⟨?_, rfl⟩
        have := d.span.stop_le
        show spot - 1 ≤ _
        omega
      · simp only [List.mem_singleton, forall_eq]
        refine Node.ok_mk_iff.mpr ⟨?_, Node.ok_setParent hcs fresh⟩
        refine ⟨?_, by simp, ?_, ?_, ?_⟩
        · simpa using hb.start
        · simpa [tipPos] using hb.passes
        · simpa [Function.comp_def] using hb.nodup
        · simpa [Function.comp_def] using hb.support
    · refine hpath.of_eq rfl rfl ?_ hpath.passes rfl rfl
      rintro rfl
      have hone : d.span.stop = 1 := hpath.2.2
      omega
    · simp only [Node.span, Node.data_mk, diff, clamp, hmis]
      omega
    · intro _ c hc
      obtain rfl := List.mem_singleton.mp hc
      simp only [Node.span, Node.data_mk, diff, clamp, hmis]
      omega

theorem tips_split (hf : Found ledger p.node spot) : tips (p.split spot fresh).nodes = tips p.nodes := by
  rcases hf.le_stop.eq_or_lt with heq | hlt
  · rw [split_of_eq heq.symm]
  · obtain ⟨⟨d, cs⟩, path⟩ := p
    rw [split_of_lt (d := d) hf.start_lt hlt]
    simp [nodes, tipPos, (Node.nodesAll_setParent fresh cs).1]

variable (fresh) in
theorem addr_split (hf : Found ledger p.node spot) :
    (p.split spot fresh).nodes.map NodeData.addr = p.nodes.map NodeData.addr
      ∨ (p.split spot fresh).nodes.map NodeData.addr = fresh ::ₘ p.nodes.map NodeData.addr := by
  rcases hf.le_stop.eq_or_lt with heq | hlt
  · rw [split_of_eq heq.symm]
    exact .inl rfl
  · obtain ⟨⟨d, cs⟩, path⟩ := p
    rw [split_of_lt (d := d) hf.start_lt hlt]
    right
    simp [nodes, (Node.nodesAll_setParent fresh cs).2, Multiset.cons_swap fresh]

section

variable [LawfulLineage L]

variable (fresh) in
theorem extend_ok (hp : p.Ok) (hf : Found ledger p.node spot) (hstop : p.node.span.stop = spot) :
    (p.extend ledger spot fresh).Ok ∧ (p.extend ledger spot fresh).node.span.tipPos = pos ledger := by
  rcases Nat.lt_or_ge (seq ledger) spot with hlt | hge
  · rw [extend_of_lt hlt]
    refine ⟨hp, ?_⟩
    have heq : spot - 1 = seq ledger := by
      have := hf.le_seq_succ
      omega
    have hanc : ancestor ledger (spot - 1) = ancestor p.node.span.ledger (spot - 1) :=
      (hf.passes (x := spot - 1) (by omega)).2
    rw [tipPos, hstop, ← hanc, heq]
    rfl
  · obtain ⟨⟨d, cs⟩, path⟩ := p
    have hstop : d.span.stop = spot := hstop
    obtain ⟨hok, hpath⟩ := hp
    obtain ⟨hb, hcs⟩ := Node.ok_mk_iff.mp hok
    rw [extend_of_le hge]
    refine ⟨⟨Node.ok_mk_iff.mpr ⟨⟨by simp, by simp, by simp, by simp, by simp⟩, by simp⟩, ?_, ?_, hpath⟩, rfl⟩
    · have hpasses : Passes ledger d.span.tipPos := by
        have := hf.passes (x := spot - 1) (by have := hf.start_lt; omega)
        rw [tipPos, hstop]
        exact this
      have hne : ∀ c ∈ cs, c.data.span.startID ≠ ancestor ledger spot := by
        intro c hc
        have hstart : c.span.start = spot := by
          rw [← hstop]
          exact hb.start c.data (List.mem_map_of_mem hc)
        have hdiff := hf.children hstop.symm c hc
        have := startID_ne ledger (by rw [hstart]; exact hdiff) (by rw [hstart]; exact hge)
        rwa [hstart] at this
      simp only [List.map_nil, Node.data_mk]
      refine ⟨?_, ?_, ?_, ?_, ?_⟩
      · intro e he
        rcases List.mem_append.mp he with he | he
        · exact hb.start e he
        · rw [List.mem_singleton.mp he, hstop]
      · intro e he
        rcases List.mem_append.mp he with he | he
        · exact hb.parent e he
        · rw [List.mem_singleton.mp he]
      · intro e he
        rcases List.mem_append.mp he with he | he
        · exact hb.passes e he
        · rw [List.mem_singleton.mp he]
          exact hpasses
      · rw [List.map_append, List.nodup_append]
        refine ⟨hb.nodup, by simp, ?_⟩
        intro i hi j hj
        obtain ⟨e, he, rfl⟩ := List.mem_map.mp hi
        obtain ⟨c, hc, rfl⟩ := List.mem_map.mp he
        obtain rfl : j = ancestor ledger spot := by simpa [startID] using hj
        exact hne c hc
      · have := hb.support
        simpa using this
    · simpa using hcs

end

theorem tips_extend : tips (p.extend ledger spot fresh).nodes = tips p.nodes := by
  rcases Nat.lt_or_ge (seq ledger) spot with hlt | hge
  · rw [extend_of_lt hlt]
  · obtain ⟨⟨d, cs⟩, path⟩ := p
    rw [extend_of_le hge]
    simp [nodes, pathNodes]

variable (p ledger spot fresh) in
theorem addr_extend :
    (p.extend ledger spot fresh).nodes.map NodeData.addr = p.nodes.map NodeData.addr
      ∨ (p.extend ledger spot fresh).nodes.map NodeData.addr = fresh ::ₘ p.nodes.map NodeData.addr := by
  rcases Nat.lt_or_ge (seq ledger) spot with hlt | hge
  · rw [extend_of_lt hlt]
    exact .inl rfl
  · obtain ⟨⟨d, cs⟩, path⟩ := p
    rw [extend_of_le hge]
    right
    simp [nodes, pathNodes, Multiset.cons_swap fresh]

theorem updateSupport_eq (hp : p.Ok) (tip branch : UInt32 → UInt32) :
    p.updateSupport tip branch =
      ⟨.mk { p.node.data with
              tipSupport := tip p.node.tipSupport
              branchSupport := branch p.node.branchSupport } p.node.children,
        p.path.map (Owner.bump branch)⟩ := by
  obtain ⟨⟨d, cs⟩, path⟩ := p
  have hclimb := climb_eq_map (f := branch) hp.2
  simp only [updateSupport]
  rw [show climb branch d.parent path = path.map (Owner.bump branch) from hclimb]
  rfl

theorem addr_updateSupport (hp : p.Ok) (tip branch : UInt32 → UInt32) :
    (p.updateSupport tip branch).nodes.map NodeData.addr = p.nodes.map NodeData.addr := by
  rw [updateSupport_eq hp]
  obtain ⟨⟨d, cs⟩, path⟩ := p
  simp [nodes, addr_pathNodes_bump]

theorem updateSupport_ok (tip branch : UInt32 → UInt32) {a b : Nat} (hp : p.Ok)
    (htip : (tip p.node.tipSupport).toNat + a = p.node.tipSupport.toNat + b)
    (hnode : (branch p.node.branchSupport).toNat + a = p.node.branchSupport.toNat + b)
    (hpath : ∀ o ∈ p.path, (branch o.data.branchSupport).toNat + a = o.data.branchSupport.toNat + b) :
    (p.updateSupport tip branch).Ok
      ∧ tips (p.updateSupport tip branch).nodes + Multiset.replicate a p.node.span.tipPos
        = tips p.nodes + Multiset.replicate b p.node.span.tipPos := by
  rw [updateSupport_eq hp]
  obtain ⟨⟨d, cs⟩, path⟩ := p
  obtain ⟨hok, hpathOk⟩ := hp
  obtain ⟨hb, hcs⟩ := Node.ok_mk_iff.mp hok
  simp only [Node.tipSupport, Node.branchSupport, Node.span, Node.data_mk, Node.children_mk]
    at htip hnode hpath hpathOk ⊢
  refine ⟨⟨?_, ?_⟩, ?_⟩
  · refine Node.ok_mk_iff.mpr ⟨⟨hb.start, hb.parent, hb.passes, hb.nodup, ?_⟩, hcs⟩
    have := hb.support
    show (branch d.branchSupport).toNat = (tip d.tipSupport).toNat + _
    omega
  · exact hpathOk.bump rfl rfl (fun _ => rfl) hpathOk.passes rfl hnode hpath
  · have hrep : Multiset.replicate (tip d.tipSupport).toNat d.span.tipPos + Multiset.replicate a d.span.tipPos
        = Multiset.replicate d.tipSupport.toNat d.span.tipPos + Multiset.replicate b d.span.tipPos := by
      rw [← Multiset.replicate_add, ← Multiset.replicate_add, htip]
    simp only [nodes, Node.nodes_mk, tips_add, tips_cons, tips_pathNodes_bump]
    calc _ = (Multiset.replicate (tip d.tipSupport).toNat d.span.tipPos + Multiset.replicate a d.span.tipPos)
            + (tips (Node.nodesAll cs) + tips (pathNodes path)) := by abel
      _ = _ := by rw [hrep]; abel

end Place

/-! ### Compressing -/

section

variable {d child : NodeData L} {cs grandchildren : List (Node L)} {o : Owner L} {path : List (Owner L)}

theorem Owner.erase_perm (o : Owner L) : o.erase.Perm (o.left ++ o.right) := by
  unfold Owner.erase
  cases h : o.right.getLast? with
  | none => rw [List.getLast?_eq_none_iff.mp h, List.append_nil]
  | some last =>
    refine List.Perm.append_left _ ?_
    obtain ⟨r, hr⟩ := List.getLast?_eq_some_iff.mp h
    rw [hr, List.dropLast_concat]
    exact (List.perm_append_singleton last r).symm

theorem Span.merge_eq {a b : Span L} (h : b.start = a.stop) :
    a.merge b = ⟨a.start, b.stop, b.ledger, a.start_lt_stop.trans (h ▸ b.start_lt_stop), b.stop_le⟩ := by
  have ha := a.start_lt_stop
  have hb := b.start_lt_stop
  have hmin : min a.start b.start = a.start := by omega
  simp only [merge, if_pos (show a.stop < b.stop by omega), hmin]

/-- A round of `compress`: a leaf without support is dropped, a node without support of its own is merged with
its only child. -/
inductive Place.Squeezes : Place L → Place L → Prop
  | drop {d : NodeData L} {o : Owner L} {path : List (Owner L)} (tip : d.tipSupport = 0) :
    Squeezes ⟨.mk d [], o :: path⟩ ⟨.mk o.data o.erase, path⟩
  | merge {d child : NodeData L} {grandchildren : List (Node L)} {o : Owner L} {path : List (Owner L)}
    (tip : d.tipSupport = 0) :
    Squeezes ⟨.mk d [.mk child grandchildren], o :: path⟩
      ⟨.mk o.data (o.left ++ .mk { child with span := d.span.merge child.span, parent := some o.data.addr } grandchildren
        :: o.right), path⟩

namespace Place.Squeezes

variable {p p' : Place L}

theorem ok [LawfulLineage L] (h : p.Squeezes p') (hp : p.Ok) : p'.Ok := by
  obtain ⟨hok, hpath⟩ := hp
  cases h with
  | @drop d o path tip =>
    obtain ⟨hb, hcs, hrest⟩ := hpath
    refine ⟨Node.ok_mk_iff.mpr ⟨?_, fun c hc => hcs c (o.erase_perm.mem_iff.mp hc)⟩, hrest⟩
    have hsub : (o.left.map Node.data ++ o.right.map Node.data).Sublist
        (o.left.map Node.data ++ d :: o.right.map Node.data) :=
      List.Sublist.append_left (List.sublist_cons_self d _) _
    have hperm : (o.left.map Node.data ++ o.right.map Node.data).Perm (o.erase.map Node.data) := by
      rw [← List.map_append]
      exact (o.erase_perm.map Node.data).symm
    refine Branching.perm ⟨?_, ?_, ?_, ?_, ?_⟩ hperm
    · exact fun e he => hb.start e (hsub.mem he)
    · exact fun e he => hb.parent e (hsub.mem he)
    · exact fun e he => hb.passes e (hsub.mem he)
    · exact hb.nodup.sublist (hsub.map _)
    · have hzero : d.branchSupport.toNat = 0 := by
        have := (Node.ok_mk_iff.mp hok).1.support
        simpa [tip] using this
      have := hb.support
      simpa [hzero] using this
  | @merge d child grandchildren o path tip =>
    obtain ⟨hb, hcs⟩ := Node.ok_mk_iff.mp hok
    obtain ⟨hbo, hoks, hrest⟩ := hpath
    have hstart : child.span.start = d.span.stop := hb.start child (by simp)
    have hpass : Passes child.span.ledger d.span.tipPos := hb.passes child (by simp)
    have hsupport : child.branchSupport.toNat = d.branchSupport.toNat := by
      have := hb.support
      simpa [tip] using this.symm
    -- The merged span has the history of the child, which extends that of the node.
    have hhist : ∀ {p : Nat × ID}, Passes d.span.ledger p → p.1 < d.span.stop → Passes child.span.ledger p :=
      fun hp hlt => hp.of_passes d.span.passes_tipPos (Nat.le_sub_one_of_lt hlt) hpass
    rw [merge_eq hstart]
    refine ⟨Node.ok_mk_iff.mpr ⟨?_, ?_⟩, hrest⟩
    · rw [List.map_append]
      have hd : d ∈ o.left.map Node.data ++ d :: o.right.map Node.data := by simp
      refine hbo.replace rfl (hbo.parent d hd).symm ?_ ?_ (by simp [hsupport])
      · refine hhist (hbo.passes d hd) ?_
        have := hbo.start d hd
        have := d.span.start_lt_stop
        show o.data.span.stop - 1 < _
        omega
      · exact (hhist (passes_ancestor d.span.start_le_seq) d.span.start_lt_stop).2
    · intro c hc
      simp only [List.mem_append, List.mem_cons] at hc
      rcases hc with hc | rfl | hc
      · exact hoks c (by simp [hc])
      · obtain ⟨hbc, hgs⟩ := Node.ok_mk_iff.mp (hcs (.mk child grandchildren) (by simp))
        exact Node.ok_mk_iff.mpr ⟨⟨hbc.start, hbc.parent, hbc.passes, hbc.nodup, hbc.support⟩, hgs⟩
      · exact hoks c (by simp [hc])

theorem tips_addr (h : p.Squeezes p') (hp : p.Ok) :
    tips p'.nodes = tips p.nodes ∧ ∃ a, p.nodes.map NodeData.addr = a ::ₘ p'.nodes.map NodeData.addr := by
  cases h with
  | @drop d o path tip =>
    refine ⟨?_, d.addr, ?_⟩
    · simp [nodes, pathNodes, tip, Node.nodesAll_perm o.erase_perm, add_assoc]
    · simp [nodes, pathNodes, Node.nodesAll_perm o.erase_perm, add_assoc, Multiset.cons_swap d.addr]
  | @merge d child grandchildren o path tip =>
    have hstart : child.span.start = d.span.stop := (Node.ok_mk_iff.mp hp.1).1.start child (by simp)
    refine ⟨?_, d.addr, ?_⟩
    · simp only [nodes, merge_eq hstart, pathNodes, Node.nodes_mk, Node.nodesAll_append, Node.nodesAll_cons,
        Node.nodesAll_nil, tips_add, tips_cons, tips_zero, tip, UInt32.toNat_zero, Multiset.replicate_zero, tipPos]
      abel
    · simp only [nodes, pathNodes, Node.nodes_mk, Node.nodesAll_append, Node.nodesAll_cons, Node.nodesAll_nil,
        ← Multiset.singleton_add, Multiset.map_add, Multiset.map_singleton, Multiset.map_zero]
      abel

end Place.Squeezes

variable [LawfulLineage L]

/-- What every round keeps holds at the end, where no other round can be made. -/
theorem Place.compress_induct {P : Place L → Prop} (hstep : ∀ p p', Place.Squeezes p p' → p.Ok → P p → P p')
    {p : Place L} (hp : p.Ok) (h : P p) :
    ∃ p' : Place L, compress p.node p.path = rebuild p'.node p'.path ∧ p'.Ok ∧ P p' ∧
      (p'.path ≠ [] → p'.node.tipSupport = 0 → 2 ≤ p'.node.children.length) := by
  obtain ⟨n, path⟩ := p
  induction path generalizing n with
  | nil =>
    refine ⟨_, ?_, hp, h, fun hne => absurd rfl hne⟩
    rfl
  | cons o path ih =>
    obtain ⟨d, cs⟩ := n
    have hparent : d.parent = some o.data.addr := hp.2.1.parent d (by simp)
    have hround : ∀ n', Place.Squeezes ⟨.mk d cs, o :: path⟩ ⟨n', path⟩ →
        compress (.mk d cs) (o :: path) = compress n' path → _ := fun n' hs heq =>
      heq ▸ ih n' (hs.ok hp) (hstep _ _ hs hp h)
    by_cases htip : d.tipSupport = 0
    · rcases cs with _ | ⟨⟨child, grandchildren⟩, _ | ⟨c, cs⟩⟩
      · refine hround _ (.drop htip) ?_
        rw [compress.eq_def]
        simp only [if_pos (And.intro htip hparent)]
      · refine hround _ (.merge htip) ?_
        rw [compress.eq_def]
        simp only [if_pos (And.intro htip hparent), Owner.erase, List.getLast?_concat, List.dropLast_concat]
      · refine ⟨_, ?_, hp, h, fun _ _ => by simp⟩
        rw [compress.eq_def]
        simp
    · refine ⟨_, ?_, hp, h, fun _ hzero => absurd hzero htip⟩
      rw [compress.eq_def]
      simp only [if_neg fun hc : d.tipSupport = 0 ∧ d.parent = some o.data.addr => htip hc.1]

theorem Place.compress_ok {p : Place L} (hp : p.Ok) :
    Rooted (compress p.node p.path) ∧ tips (compress p.node p.path).nodes = tips p.nodes ∧
      (compress p.node p.path).nodes.map NodeData.addr ≤ p.nodes.map NodeData.addr := by
  obtain ⟨p', heq, hp', ⟨htips, haddr⟩, -⟩ := Place.compress_induct (P := fun p' => tips p'.nodes = tips p.nodes ∧
    p'.nodes.map NodeData.addr ≤ p.nodes.map NodeData.addr) (fun q q' hs hq h => by
      obtain ⟨htips, a, haddr⟩ := hs.tips_addr hq
      exact ⟨htips.trans h.1, (haddr ▸ Multiset.le_cons_self _ a).trans h.2⟩) hp ⟨rfl, le_rfl⟩
  rw [heq, nodes_rebuild]
  exact ⟨rooted_rebuild.mpr hp', htips, haddr⟩

end

/-! ### Reordering the children -/

/-- The same tree with the children of some nodes in another order. -/
inductive Node.Rearranged : Node L → Node L → Prop
  | perm {d : NodeData L} {cs cs' : List (Node L)} (h : cs'.Perm cs) : Node.Rearranged (.mk d cs) (.mk d cs')
  | child {d : NodeData L} {cs cs' : List (Node L)} {best best' : Node L} (h : (best :: cs').Perm cs)
      (hbest : Node.Rearranged best best') : Node.Rearranged (.mk d cs) (.mk d (best' :: cs'))

namespace Node.Rearranged

variable {n n' : Node L}

theorem data_eq (h : n.Rearranged n') : n'.data = n.data := by
  cases h <;> rfl

theorem nodes_eq (h : n.Rearranged n') : n'.nodes = n.nodes := by
  induction h with
  | perm h => rw [Node.nodes_mk, Node.nodes_mk, Node.nodesAll_perm h]
  | child h _ ih => rw [Node.nodes_mk, Node.nodes_mk, Node.nodesAll_cons, ih, ← Node.nodesAll_cons, Node.nodesAll_perm h]

theorem ok (h : n.Rearranged n') (hok : n.Ok) : n'.Ok := by
  induction h with
  | perm h =>
    obtain ⟨hb, hcs⟩ := Node.ok_mk_iff.mp hok
    exact Node.ok_mk_iff.mpr ⟨hb.perm (h.map Node.data).symm, fun c hc => hcs c (h.mem_iff.mp hc)⟩
  | @child d cs cs' best best' h hbest ih =>
    obtain ⟨hb, hcs⟩ := Node.ok_mk_iff.mp hok
    refine Node.ok_mk_iff.mpr ⟨?_, ?_⟩
    · rw [List.map_cons, hbest.data_eq]
      exact hb.perm (h.map Node.data).symm
    · intro c hc
      rcases List.mem_cons.mp hc with rfl | hc
      · exact ih (hcs best (h.mem_iff.mp (List.mem_cons_self ..)))
      · exact hcs c (h.mem_iff.mp (List.mem_cons_of_mem _ hc))

end Node.Rearranged

section

variable [LinearOrder ID] (order : Arrangement (Node L))

theorem partialSort_perm (cs : List (Node L)) : (partialSort order cs).Perm cs := by
  calc _ = (cs.insertionSort Ahead).take 2 ++ order.arrange ((cs.insertionSort Ahead).drop 2) := rfl
    List.Perm _ ((cs.insertionSort Ahead).take 2 ++ (cs.insertionSort Ahead).drop 2) :=
      (order.perm _).append_left _
    _ = cs.insertionSort Ahead := List.take_append_drop 2 _
    List.Perm _ cs := List.perm_insertionSort _ _

theorem walk_rearranged (largestIssued fuel : Nat) (n : Node L) (uncommitted : UInt32)
    (it : List (Nat × UInt32)) : n.Rearranged (walk order largestIssued fuel n uncommitted it).1 := by
  induction fuel generalizing n uncommitted it with
  | zero =>
    obtain ⟨d, cs⟩ := n
    exact .perm (.refl cs)
  | succ fuel ih =>
    obtain ⟨d, cs⟩ := n
    rw [walk]
    generalize SeqSupport.takeBelow (max (d.span.start + 1) largestIssued) uncommitted it = below
    obtain ⟨uncommitted', it'⟩ := below
    generalize SeqSupport.advance d.span.stop d.branchSupport (d.span.start + 1) uncommitted' it' = adv
    simp only
    split
    · exact .perm (.refl cs)
    · split
      · exact .perm (.refl _)
      · split
        · exact .child (.refl _) (ih ..)
        · exact .perm (.refl _)
      · split
        · rename_i best second others hsort
          have hperm := partialSort_perm order cs
          rw [hsort] at hperm
          generalize (if best.span.startID > second.span.startID then
            best.branchSupport - second.branchSupport + 1
            else best.branchSupport - second.branchSupport) = margin
          split
          · exact .child hperm (ih ..)
          · exact .perm hperm
        · exact .perm (partialSort_perm order cs)

theorem getPreferred_rearranged (t : LedgerTrie L) (largestIssued : Nat) :
    t.root.Rearranged (t.getPreferred order largestIssued).1.root := by
  unfold getPreferred
  split
  · rw [← Node.mk_data_children t.root]
    exact .perm (.refl _)
  · exact walk_rearranged order largestIssued _ _ _ _

theorem getPreferred_seqSupport (t : LedgerTrie L) (largestIssued : Nat) :
    (t.getPreferred order largestIssued).1.seqSupport = t.seqSupport
      ∧ (t.getPreferred order largestIssued).1.fresh = t.fresh := by
  unfold getPreferred
  split <;> exact ⟨rfl, rfl⟩

end

end Chainsql.LedgerTrie
