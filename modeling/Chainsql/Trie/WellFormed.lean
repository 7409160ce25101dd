import Mathlib.Algebra.Order.BigOperators.Group.List
import Mathlib.Data.Multiset.Bind
import Mathlib.Tactic.Abel
import Chainsql.Trie.LedgerTrie

/-!
# Well-formed tries

`Node.Ok` collects what relates a node to its children. Every operation works on one place of the
tree and on the path above it, so that a tree is well formed when the node at a place is and the path
fits it (`rooted_rebuild`). `tips` are the supported positions of a tree with their multiplicity.
-/

namespace Chainsql.LedgerTrie

open Lineage

variable {L ID : Type*} [Lineage L ID]

namespace Span

variable {s : Span L} {o : L}

def tipPos (s : Span L) : Nat × ID := (s.stop - 1, ancestor s.ledger (s.stop - 1))

theorem passes_tipPos (s : Span L) : Passes s.ledger s.tipPos := by
  refine ⟨?_, rfl⟩
  have := s.stop_le
  show s.stop - 1 ≤ _
  omega

theorem start_le_seq (s : Span L) : s.start ≤ seq s.ledger := by
  have := s.start_lt_stop
  have := s.stop_le
  omega

theorem diff_le_stop (s : Span L) (o : L) : s.diff o ≤ s.stop := s.clamp_le_stop _

theorem lt_diff_iff {x : Nat} (hx : s.start ≤ x) : x < s.diff o ↔ x < mismatch s.ledger o ∧ x < s.stop := by
  unfold diff clamp
  omega

variable {spot : Nat}

theorem after_eq_none (h : s.stop ≤ spot) : s.after spot = none := by
  have : ¬ s.clamp spot < s.clamp s.stop := by
    simp only [clamp]
    omega
  simp [after, sub, this]

theorem after_eq_some (h : s.start ≤ spot) (h' : spot < s.stop) :
    s.after spot = some ⟨spot, s.stop, s.ledger, h', s.stop_le⟩ := by
  have hlo : s.clamp spot = spot := by
    simp only [clamp]
    omega
  have hhi : s.clamp s.stop = s.stop := by
    simp only [clamp]
    omega
  simp [after, sub, hlo, hhi, h']

theorem before_eq_some (h : s.start < spot) (h' : spot ≤ s.stop) :
    s.before spot = some ⟨s.start, spot, s.ledger, h, h'.trans s.stop_le⟩ := by
  have hlo : s.clamp s.start = s.start := by
    simp only [clamp]
    omega
  have hhi : s.clamp spot = spot := by
    simp only [clamp]
    omega
  simp [before, sub, hlo, hhi, h]

end Span

namespace Node

theorem induct {P : Node L → Prop} (mk : ∀ d cs, (∀ c ∈ cs, P c) → P (.mk d cs)) : ∀ n, P n
  | .mk d cs => mk d cs (all cs)
where
  all : ∀ cs : List (Node L), ∀ c ∈ cs, P c
    | [] => fun _ hc => absurd hc List.not_mem_nil
    | a :: cs => fun c hc =>
      (List.mem_cons.mp hc).elim (fun h => h ▸ induct mk a) (all cs c)

@[simp] theorem data_mk (d : NodeData L) (cs : List (Node L)) : (Node.mk d cs).data = d := rfl

@[simp] theorem children_mk (d : NodeData L) (cs : List (Node L)) : (Node.mk d cs).children = cs := rfl

@[simp] theorem span_mk (d : NodeData L) (cs : List (Node L)) : (Node.mk d cs).span = d.span := rfl

@[simp] theorem branchSupport_mk (d : NodeData L) (cs : List (Node L)) :
    (Node.mk d cs).branchSupport = d.branchSupport := rfl

@[simp] theorem mk_data_children (n : Node L) : Node.mk n.data n.children = n := by
  cases n
  rfl

@[simp] theorem data_setParent (a : Addr) (n : Node L) : (n.setParent a).data = { n.data with parent := some a } := by
  cases n
  rfl

mutual

def nodes : Node L → Multiset (NodeData L)
  | .mk d cs => d ::ₘ nodesAll cs

def nodesAll : List (Node L) → Multiset (NodeData L)
  | [] => 0
  | c :: cs => c.nodes + nodesAll cs

end

@[simp] theorem nodes_mk (d : NodeData L) (cs : List (Node L)) : (Node.mk d cs).nodes = d ::ₘ nodesAll cs := by
  rw [nodes]

@[simp] theorem nodesAll_nil : nodesAll ([] : List (Node L)) = 0 := by rw [nodesAll]

@[simp] theorem nodesAll_cons (c : Node L) (cs : List (Node L)) : nodesAll (c :: cs) = c.nodes + nodesAll cs := by
  rw [nodesAll]

@[simp] theorem nodesAll_append (cs cs' : List (Node L)) : nodesAll (cs ++ cs') = nodesAll cs + nodesAll cs' := by
  induction cs with
  | nil => simp
  | cons c cs ih => simp [ih, add_assoc]

variable {cs : List (Node L)}

theorem nodesAll_perm {cs' : List (Node L)} (h : cs.Perm cs') : nodesAll cs = nodesAll cs' := by
  induction h with
  | nil => rfl
  | cons c _ ih => simp [ih]
  | swap a b cs => simp [add_left_comm]
  | trans _ _ ih₁ ih₂ => exact ih₁.trans ih₂

theorem mem_nodesAll {d : NodeData L} : d ∈ nodesAll cs ↔ ∃ c ∈ cs, d ∈ c.nodes := by
  induction cs with
  | nil => simp
  | cons c cs ih => simp [ih]

end Node

/-- What relates a node to its children, of which only the data of the nodes themselves matters. -/
structure Branching (d : NodeData L) (ds : List (NodeData L)) : Prop where
  start : ∀ e ∈ ds, e.span.start = d.span.stop
  parent : ∀ e ∈ ds, e.parent = some d.addr
  passes : ∀ e ∈ ds, Passes e.span.ledger d.span.tipPos
  nodup : (ds.map fun e => e.span.startID).Nodup
  support : d.branchSupport.toNat = d.tipSupport.toNat + (ds.map fun e => e.branchSupport.toNat).sum

variable {d d' : NodeData L} {cs : List (Node L)} {n : Node L} {path : List (Owner L)} {f : UInt32 → UInt32}
  {ledger : L}

theorem Branching.perm {ds ds' : List (NodeData L)} (h : Branching d ds) (hp : ds.Perm ds') : Branching d ds' where
  start e he := h.start e (hp.mem_iff.mpr he)
  parent e he := h.parent e (hp.mem_iff.mpr he)
  passes e he := h.passes e (hp.mem_iff.mpr he)
  nodup := ((hp.map _).nodup_iff).mp h.nodup
  support := by rw [h.support, (hp.map _).sum_eq]

inductive Node.Ok : Node L → Prop
  | mk {d : NodeData L} {cs : List (Node L)} (branching : Branching d (cs.map Node.data))
      (children : ∀ c ∈ cs, Node.Ok c) : Node.Ok (.mk d cs)

theorem Node.ok_mk_iff : (Node.mk d cs).Ok ↔ Branching d (cs.map Node.data) ∧ ∀ c ∈ cs, c.Ok :=
  ⟨fun | .mk hb hcs => ⟨hb, hcs⟩, fun h => .mk h.1 h.2⟩

/-- The path above a node fits the node. -/
def PathOk : NodeData L → List (Owner L) → Prop
  | d, [] => d.parent = none ∧ d.span.start = 0 ∧ d.span.stop = 1
  | d, o :: path =>
    Branching o.data (o.left.map Node.data ++ d :: o.right.map Node.data)
      ∧ (∀ c ∈ o.left ++ o.right, c.Ok) ∧ PathOk o.data path

def Rooted (n : Node L) : Prop := n.Ok ∧ PathOk n.data []

theorem rooted_rebuild : Rooted (rebuild n path) ↔ n.Ok ∧ PathOk n.data path := by
  induction path generalizing n with
  | nil => rfl
  | cons o path ih =>
    rw [rebuild, ih, Node.ok_mk_iff]
    simp only [PathOk, List.map_append, List.map_cons, List.mem_append, List.mem_cons, Node.data_mk]
    constructor
    · rintro ⟨⟨hb, hcs⟩, hpath⟩
      exact ⟨hcs n (by simp), hb, fun c hc => hcs c (by tauto), hpath⟩
    · rintro ⟨hn, hb, hcs, hpath⟩
      refine ⟨⟨hb, ?_⟩, hpath⟩
      rintro c (hc | rfl | hc)
      · exact hcs c (.inl hc)
      · exact hn
      · exact hcs c (.inr hc)

def pathNodes : List (Owner L) → Multiset (NodeData L)
  | [] => 0
  | o :: path => o.data ::ₘ (Node.nodesAll o.left + Node.nodesAll o.right) + pathNodes path

theorem nodes_rebuild (n : Node L) (path : List (Owner L)) :
    (rebuild n path).nodes = n.nodes + pathNodes path := by
  induction path generalizing n with
  | nil => simp [rebuild, pathNodes]
  | cons o path ih =>
    rw [rebuild, ih, Node.nodes_mk, pathNodes, Node.nodesAll_append, Node.nodesAll_cons,
      ← Multiset.singleton_add, ← Multiset.singleton_add]
    abel

/-- The supported positions, each as often as it is supported. -/
def tips (ds : Multiset (NodeData L)) : Multiset (Nat × ID) :=
  ds.bind fun d => Multiset.replicate d.tipSupport.toNat d.span.tipPos

@[simp] theorem tips_zero : tips (0 : Multiset (NodeData L)) = 0 := rfl

@[simp] theorem tips_cons (d : NodeData L) (ds : Multiset (NodeData L)) :
    tips (d ::ₘ ds) = Multiset.replicate d.tipSupport.toNat d.span.tipPos + tips ds :=
  Multiset.cons_bind ..

@[simp] theorem tips_add (ds ds' : Multiset (NodeData L)) : tips (ds + ds') = tips ds + tips ds' :=
  Multiset.add_bind ..

theorem mem_tips {ds : Multiset (NodeData L)} {q : Nat × ID} :
    q ∈ tips ds ↔ ∃ d ∈ ds, d.tipSupport ≠ 0 ∧ q = d.span.tipPos := by
  simp [tips, Multiset.mem_replicate, ← UInt32.toNat_inj]

/-! ### Climbing to the root -/

def Owner.bump (f : UInt32 → UInt32) (o : Owner L) : Owner L :=
  { o with data := { o.data with branchSupport := f o.data.branchSupport } }

theorem climb_eq_map (h : PathOk d path) : climb f d.parent path = path.map (Owner.bump f) := by
  induction path generalizing d with
  | nil => cases d.parent <;> rfl
  | cons o path ih =>
    obtain ⟨hb, -, hpath⟩ := h
    rw [hb.parent d (by simp), climb, if_pos rfl, ih hpath]
    rfl

theorem tips_pathNodes_bump (f : UInt32 → UInt32) (path : List (Owner L)) :
    tips (pathNodes (path.map (Owner.bump f))) = tips (pathNodes path) := by
  induction path with
  | nil => rfl
  | cons o path ih => simp [pathNodes, Owner.bump, ih]

theorem addr_pathNodes_bump (f : UInt32 → UInt32) (path : List (Owner L)) :
    (pathNodes (path.map (Owner.bump f))).map NodeData.addr = (pathNodes path).map NodeData.addr := by
  induction path with
  | nil => rfl
  | cons o path ih => simp [pathNodes, Owner.bump, ih]

/-- Another node in the place of a child, which changes the support by as much as the owner's. -/
theorem Branching.replace {o : NodeData L} {l r : List (NodeData L)} {support : UInt32}
    (h : Branching o (l ++ d :: r)) (hstart : d'.span.start = d.span.start) (hparent : d'.parent = d.parent)
    (hpasses : Passes d'.span.ledger o.span.tipPos) (hid : d'.span.startID = d.span.startID)
    (hsupport : support.toNat + d.branchSupport.toNat = o.branchSupport.toNat + d'.branchSupport.toNat) :
    Branching { o with branchSupport := support } (l ++ d' :: r) := by
  have hmem : ∀ {e}, e ∈ l ++ d' :: r → e = d' ∨ e ∈ l ++ d :: r := by
    intro e he
    simp only [List.mem_append, List.mem_cons] at he ⊢
    tauto
  refine ⟨?_, ?_, ?_, ?_, ?_⟩
  · intro e he
    rcases hmem he with rfl | he
    · rw [hstart]
      exact h.start d (by simp)
    · exact h.start e he
  · intro e he
    rcases hmem he with rfl | he
    · rw [hparent]
      exact h.parent d (by simp)
    · exact h.parent e he
  · intro e he
    rcases hmem he with rfl | he
    · exact hpasses
    · exact h.passes e he
  · have := h.nodup
    simpa [hid] using this
  · have := h.support
    simp only [List.map_append, List.map_cons, List.sum_append, List.sum_cons] at this ⊢
    omega

theorem PathOk.bump {a b : Nat} (h : PathOk d path) (hstart : d'.span.start = d.span.start)
    (hparent : d'.parent = d.parent) (hroot : path = [] → d'.span.stop = d.span.stop)
    (hpasses : ∀ o ∈ path.head?, Passes d'.span.ledger o.data.span.tipPos) (hid : d'.span.startID = d.span.startID)
    (hsupport : d'.branchSupport.toNat + a = d.branchSupport.toNat + b)
    (hf : ∀ o ∈ path, (f o.data.branchSupport).toNat + a = o.data.branchSupport.toNat + b) :
    PathOk d' (path.map (Owner.bump f)) := by
  induction path generalizing d d' with
  | nil => exact ⟨hparent.trans h.1, hstart.trans h.2.1, (hroot rfl).trans h.2.2⟩
  | cons o path ih =>
    obtain ⟨hb, hok, hpath⟩ := h
    have hfo := hf o (by simp)
    refine ⟨hb.replace hstart hparent (hpasses o rfl) hid (by omega), hok, ?_⟩
    refine ih hpath rfl rfl (fun _ => rfl) ?_ rfl hfo fun o' ho' => hf o' (by simp [ho'])
    intro o' ho'
    cases path with
    | nil => simp at ho'
    | cons o'' path =>
      obtain rfl : o'' = o' := by simpa using ho'
      exact hpath.1.passes o.data (by simp)

theorem PathOk.of_eq (h : PathOk d path) (hstart : d'.span.start = d.span.start) (hparent : d'.parent = d.parent)
    (hroot : path = [] → d'.span.stop = d.span.stop)
    (hpasses : ∀ o ∈ path.head?, Passes d'.span.ledger o.data.span.tipPos) (hid : d'.span.startID = d.span.startID)
    (hsupport : d'.branchSupport = d.branchSupport) : PathOk d' path := by
  have := h.bump (f := fun x => x) (a := 0) (b := 0) hstart hparent hroot hpasses hid (by rw [hsupport])
    fun _ _ => rfl
  have hmap : path.map (Owner.bump fun x => x) = path := List.map_id path
  rwa [hmap] at this

theorem PathOk.passes (h : PathOk d path) : ∀ o ∈ path.head?, Passes d.span.ledger o.data.span.tipPos := by
  intro o ho
  cases path with
  | nil => simp at ho
  | cons o' path =>
    obtain rfl : o' = o := by simpa using ho
    exact h.1.passes d (by simp)

theorem PathOk.branchSupport_le (h : PathOk n.data path) :
    n.branchSupport.toNat ≤ (rebuild n path).branchSupport.toNat
      ∧ ∀ o ∈ path, n.branchSupport.toNat ≤ o.data.branchSupport.toNat
        ∧ o.data.branchSupport.toNat ≤ (rebuild n path).branchSupport.toNat := by
  induction path generalizing n with
  | nil => exact ⟨Nat.le_refl _, fun _ ho => absurd ho List.not_mem_nil⟩
  | cons o path ih =>
    obtain ⟨hb, -, hpath⟩ := h
    have hle : n.branchSupport.toNat ≤ o.data.branchSupport.toNat := by
      have := hb.support
      simp only [List.map_append, List.map_cons, List.sum_append, List.sum_cons] at this
      simp only [Node.branchSupport]
      omega
    obtain ⟨ih₁, ih₂⟩ := ih (n := .mk o.data (o.left ++ n :: o.right)) hpath
    refine ⟨hle.trans ih₁, ?_⟩
    intro o' ho'
    rcases List.mem_cons.mp ho' with rfl | ho'
    · exact ⟨hle, ih₁⟩
    · exact ⟨hle.trans (ih₂ o' ho').1, (ih₂ o' ho').2⟩

theorem sum_branchSupport (h : ∀ c ∈ cs, c.branchSupport.toNat = (tips c.nodes).card) :
    ((cs.map Node.data).map fun e => e.branchSupport.toNat).sum = (tips (Node.nodesAll cs)).card := by
  induction cs with
  | nil => rfl
  | cons c cs ih =>
    have hc : c.data.branchSupport.toNat = (tips c.nodes).card := h c (by simp)
    rw [List.map_cons, List.map_cons, List.sum_cons, ih fun c' h' => h c' (by simp [h'])]
    simp [hc]

theorem Node.Ok.branchSupport_eq (h : n.Ok) : n.branchSupport.toNat = (tips n.nodes).card := by
  induction h with
  | @mk d cs hb hcs ih =>
    have := hb.support
    rw [sum_branchSupport ih] at this
    simpa [Node.branchSupport] using this

theorem Node.Ok.tipSupport_le (h : n.Ok) : n.tipSupport.toNat ≤ n.branchSupport.toNat := by
  obtain ⟨d, cs⟩ := n
  have := (Node.ok_mk_iff.mp h).1.support
  show d.tipSupport.toNat ≤ d.branchSupport.toNat
  omega

/-! ### Finding a place -/

/-- The node up to which a ledger agrees with the tree: it leaves the node's span at `spot`, or goes on
past the span into none of the children. -/
structure Found (ledger : L) (n : Node L) (spot : Nat) : Prop where
  spot_eq : spot = n.span.diff ledger
  start_lt : n.span.start < spot
  children : spot = n.span.stop → ∀ c ∈ n.children, c.span.diff ledger ≤ spot

/-- The search ends at a place of the same tree. -/
def Lands (ledger : L) (n : Node L) (path : List (Owner L)) (r : Place L × Nat) : Prop :=
  rebuild r.1.node r.1.path = rebuild n path ∧ Found ledger r.1.node r.2

theorem descendChildren_spec {pos : Nat} (hpos : pos = d.span.diff ledger) (hstart : d.span.start < pos)
    (hstop : pos = d.span.stop) (left : List (Node L)) (hleft : ∀ c ∈ left, c.span.diff ledger ≤ pos)
    (hcs : ∀ c ∈ cs, c.span.start = d.span.stop)
    (ih : ∀ c ∈ cs, ∀ path, c.span.start < c.span.diff ledger →
      Lands ledger c path (descend ledger c path (c.span.diff ledger))) :
    Lands ledger (.mk d (left ++ cs)) path (descendChildren ledger d left cs path pos) := by
  induction cs generalizing left with
  | nil =>
    rw [List.append_nil]
    exact ⟨rfl, hpos, hstart, fun _ => hleft⟩
  | cons c cs ihcs =>
    rw [descendChildren]
    by_cases hc : c.span.diff ledger > pos
    · have := ih c (by simp) (⟨d, left, cs⟩ :: path) (by rw [hcs c (by simp), ← hstop]; exact hc)
      simpa only [if_pos hc, Lands, rebuild] using this
    · simp only [if_neg hc]
      have := ihcs (left ++ [c])
        (by
          intro c' hc'
          rcases List.mem_append.mp hc' with hc' | hc'
          · exact hleft c' hc'
          · rw [List.mem_singleton.mp hc']
            exact Nat.le_of_not_lt hc)
        (fun c' hc' => hcs c' (by simp [hc'])) (fun c' hc' => ih c' (by simp [hc']))
      rwa [List.append_assoc] at this

theorem descend_spec (hok : n.Ok) (path : List (Owner L)) (hstart : n.span.start < n.span.diff ledger) :
    Lands ledger n path (descend ledger n path (n.span.diff ledger)) := by
  induction hok generalizing path with
  | @mk d cs hb hcs ih =>
    rw [descend]
    by_cases hstop : (Node.mk d cs).span.diff ledger = d.span.stop
    · rw [if_pos hstop]
      refine descendChildren_spec rfl hstart hstop [] (by simp) ?_ fun c hc path => ih c hc path
      intro c hc
      exact hb.start c.data (List.mem_map_of_mem hc)
    · rw [if_neg hstop]
      exact ⟨rfl, rfl, hstart, fun h => absurd h hstop⟩

namespace Found

variable {ledger : L} {n : Node L} {spot : Nat}

theorem le_stop (h : Found ledger n spot) : spot ≤ n.span.stop := h.spot_eq ▸ n.span.diff_le_stop ledger

theorem lt_mismatch (h : Found ledger n spot) {x : Nat} (hx : x < spot) : x < mismatch n.span.ledger ledger := by
  have hlast : spot - 1 < mismatch n.span.ledger ledger := by
    have := (n.span.lt_diff_iff (o := ledger) (x := spot - 1) (by have := h.start_lt; omega)).mp
      (by have := h.start_lt; rw [← h.spot_eq]; omega)
    exact this.1
  omega

theorem mismatch_eq (h : Found ledger n spot) (hlt : spot < n.span.stop) :
    mismatch n.span.ledger ledger = spot := by
  have hle : ¬ spot < mismatch n.span.ledger ledger := by
    intro hlt'
    have := (n.span.lt_diff_iff (o := ledger) h.start_lt.le).mpr ⟨hlt', hlt⟩
    rw [← h.spot_eq] at this
    omega
  have := h.lt_mismatch (x := spot - 1) (by have := h.start_lt; omega)
  omega

end Found

section

variable [LawfulLineage L]

theorem find_spec {t : LedgerTrie L} (h : Rooted t.root) (ledger : L) :
    rebuild (t.find ledger).1.node (t.find ledger).1.path = t.root
      ∧ Found ledger (t.find ledger).1.node (t.find ledger).2 := by
  refine descend_spec h.1 [] ?_
  obtain ⟨-, hstart, hstop⟩ := h.2
  rw [Span.lt_diff_iff (Nat.le_refl _)]
  simp only [Node.span, hstart, hstop]
  exact ⟨zero_lt_mismatch _ _, Nat.one_pos⟩

namespace Found

variable {ledger : L} {n : Node L} {spot : Nat}

theorem le_seq_succ (h : Found ledger n spot) : spot ≤ seq ledger + 1 := by
  have := h.lt_mismatch (x := spot - 1) (by have := h.start_lt; omega)
  have := LawfulLineage.mismatch_le_right n.span.ledger ledger
  omega

theorem passes (h : Found ledger n spot) {x : Nat} (hx : x < spot) :
    Passes ledger (x, ancestor n.span.ledger x) := by
  refine ⟨?_, ?_⟩
  · have := h.le_seq_succ
    show x ≤ _
    omega
  · exact (LawfulLineage.ancestor_eq _ _ x (h.lt_mismatch hx)).symm

end Found

/-- A span that a ledger does not enter starts with another id, if the ledger gets that far at all. -/
theorem Span.startID_ne {s : Span L} (ledger : L) (h : s.diff ledger ≤ s.start) (hseq : s.start ≤ seq ledger) :
    s.startID ≠ ancestor ledger s.start := by
  intro heq
  have := (lt_mismatch_iff s.start_le_seq hseq).mpr heq
  have := (s.lt_diff_iff (o := ledger) (Nat.le_refl _)).mpr ⟨this, s.start_lt_stop⟩
  omega

end

end Chainsql.LedgerTrie
