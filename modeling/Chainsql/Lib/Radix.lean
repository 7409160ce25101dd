import Mathlib.Data.List.FinRange

/-!
# Radix tries

A trie that branches on the digits of keys, with a leaf as high up as its key is alone. `put` and `erase`
are the operations of a map, and a trie is determined by its leaves (`strip_eq`). `pulled` is the leaf that
an erasure moves up. An erasure that rebuilds it as another one, `eraseWith`, differs from `erase` in this
leaf only (`eraseWith_eq`).
-/

inductive Radix (n : ℕ) (α β : Type) where
  | empty
  | leaf (v : β)
  /-- The annotation is not part of the content. -/
  | inner (a : α) (children : Fin n → Radix n α β)

namespace Radix

open Function

variable {n : ℕ} {α β κ : Type}

def Holds (v : β) : Radix n α β → Prop
  | empty => False
  | leaf w => v = w
  | inner _ ch => ∃ b, Holds v (ch b)

instance : Membership β (Radix n α β) := ⟨fun t v => Holds v t⟩

def isEmpty : Radix n α β → Bool
  | empty => true
  | _ => false

def isInner : Radix n α β → Bool
  | inner _ _ => true
  | _ => false

def branches (ch : Fin n → Radix n α β) : List (Fin n) := (List.finRange n).filter fun b => !(ch b).isEmpty

def only : Radix n α β → Option β
  | empty => none
  | leaf v => some v
  | inner _ ch =>
    match branches ch with
    | [b] => only (ch b)
    | _ => none

def strip : Radix n α β → Radix n Unit β
  | empty => empty
  | leaf v => leaf v
  | inner _ ch => inner () fun b => strip (ch b)

def map (g : β → β) : Radix n α β → Radix n α β
  | empty => empty
  | leaf v => leaf (g v)
  | inner a ch => inner a fun b => map g (ch b)

/-- What is left of an inner node once a leaf below it is gone. -/
def prune (f : β → β) (t : Radix n α β) : Radix n α β :=
  match t with
  | inner a ch =>
    match branches ch with
    | [] => empty
    | [b] =>
      match only (ch b) with
      | some v => leaf (f v)
      | none => inner a ch
    | _ => inner a ch
  | t => t

section Keys

variable (digit : ℕ → κ → Fin n) (key : β → κ) (new : α)

/-- Every leaf lies on the branches of its key. -/
def Placed : ℕ → Radix n α β → Prop
  | d, inner _ ch => ∀ b, Placed (d + 1) (ch b) ∧ ∀ v ∈ ch b, digit d (key v) = b
  | _, _ => True

def Crowded (t : Radix n α β) : Prop := ∃ v ∈ t, ∃ w ∈ t, key v ≠ key w

/-- Every inner node below the root has two leaves. -/
def Compact : Radix n α β → Prop
  | inner _ ch => ∀ b, Compact (ch b) ∧ ((ch b).isInner → Crowded key (ch b))
  | _ => True

/-- The inner nodes for two keys that agree on digits from `d` on. At most `fuel` digits are compared. -/
def split (v w : β) : ℕ → ℕ → Radix n α β
  | 0, _ => empty
  | fuel + 1, d =>
    let b := digit d (key v)
    let c := digit d (key w)
    if b = c then inner new (Function.update (fun _ => empty) b (split v w fuel (d + 1)))
    else inner new (Function.update (Function.update (fun _ => empty) b (leaf v)) c (leaf w))

variable [DecidableEq κ]

def find (k : κ) : ℕ → Radix n α β → Option β
  | _, empty => none
  | _, leaf v => if key v = k then some v else none
  | d, inner _ ch => find k (d + 1) (ch (digit d k))

/-- Keys have `len` digits. -/
def put (len : ℕ) (v : β) : ℕ → Radix n α β → Radix n α β
  | _, empty => leaf v
  | d, leaf w => if key w = key v then leaf v else split digit key new v w (len - d) d
  | d, inner _ ch =>
    inner new (Function.update ch (digit d (key v)) (put len v (d + 1) (ch (digit d (key v)))))

omit [DecidableEq κ] in
/-- Erases the leaf at the end of the path of `k`. The root is never pruned. -/
def eraseWith (f : β → β) (k : κ) : ℕ → Radix n α β → Radix n α β
  | d, inner _ ch =>
    let t := inner new (Function.update ch (digit d k) (eraseWith f k (d + 1) (ch (digit d k))))
    if d = 0 then t else prune f t
  | _, _ => empty

omit [DecidableEq κ] in
def erase (k : κ) : ℕ → Radix n α β → Radix n α β := eraseWith digit new id k

omit [DecidableEq κ] in
/-- The leaf that is alone once the leaf at the end of the path of `k` is gone. -/
def pulled (k : κ) : ℕ → Radix n α β → Option β
  | d, inner a ch =>
    if (ch (digit d k)).isInner then pulled k (d + 1) (ch (digit d k))
    else if d = 0 then none
    else only (inner a (Function.update ch (digit d k) empty))
  | _, _ => none

end Keys

/-! ## Leaves -/

variable {v w : β} {a : α} {ch : Fin n → Radix n α β} {t : Radix n α β}

@[simp] theorem not_mem_empty : v ∉ (empty : Radix n α β) := id

@[simp] theorem mem_leaf : v ∈ (leaf w : Radix n α β) ↔ v = w := Iff.rfl

@[simp] theorem mem_inner : v ∈ inner a ch ↔ ∃ b, v ∈ ch b := Iff.rfl

variable {b : Fin n}

theorem mem_update {c : Radix n α β} : v ∈ inner a (Function.update ch b c) ↔ v ∈ c ∨ ∃ b', b' ≠ b ∧ v ∈ ch b' := by
  constructor
  · rintro ⟨b', hv⟩
    by_cases hb : b' = b
    · subst hb
      rw [update_self] at hv
      exact .inl hv
    · rw [update_of_ne hb] at hv
      exact .inr ⟨b', hb, hv⟩
  · rintro (hv | ⟨b', hb, hv⟩)
    · exact ⟨b, by rwa [update_self]⟩
    · exact ⟨b', by rwa [update_of_ne hb]⟩

theorem eq_empty_of_isEmpty (h : t.isEmpty = true) : t = empty := by
  cases t with
  | empty => rfl
  | leaf v => cases h
  | inner a ch => cases h

theorem mem_branches : b ∈ branches ch ↔ ch b ≠ empty := by
  rw [branches, List.mem_filter]
  constructor
  · rintro ⟨-, hb⟩ heq
    rw [heq] at hb
    cases hb
  · intro hb
    refine ⟨List.mem_finRange b, ?_⟩
    rw [Bool.not_eq_true']
    exact Bool.eq_false_iff.mpr fun hempty => hb (eq_empty_of_isEmpty hempty)

theorem mem_of_branches_eq {bs : List (Fin n)} (h : branches ch = bs) (hb : v ∈ ch b) : b ∈ bs := by
  rw [← h, mem_branches]
  intro heq
  rw [heq] at hb
  exact hb

theorem branches_nodup : (branches ch).Nodup := (List.nodup_finRange n).filter _

theorem only_eq_some (h : only t = some w) : v ∈ t ↔ v = w := by
  induction t with
  | empty => cases h
  | leaf u =>
    cases h
    exact mem_leaf
  | inner a ch ih =>
    rw [only] at h
    split at h
    next b hb =>
      rw [← ih b h]
      constructor
      · rintro ⟨b', hv⟩
        have hb' := mem_of_branches_eq hb hv
        rwa [List.mem_singleton.mp hb'] at hv
      · exact fun hv => ⟨b, hv⟩
    · cases h

variable {f g : β → β} {s : β}

theorem prune_of_only_eq_some (h : only (inner a ch) = some s) : prune f (inner a ch) = leaf (f s) := by
  rw [only] at h
  split at h
  next b hb => simp only [prune, hb, h]
  · cases h

theorem prune_of_only_eq_none (h : only (inner a ch) = none) :
    prune f (inner a ch) = if branches ch = [] then empty else inner a ch := by
  rw [only] at h
  rw [prune]
  cases hbs : branches ch with
  | nil => rfl
  | cons b rest =>
    rw [if_neg (List.cons_ne_nil _ _)]
    cases rest with
    | nil =>
      rw [hbs] at h
      simp only [h]
    | cons b' rest => rfl

theorem mem_prune : v ∈ prune id (inner a ch) ↔ v ∈ inner a ch := by
  cases honly : only (inner a ch) with
  | some w =>
    rw [prune_of_only_eq_some honly, only_eq_some honly]
    exact mem_leaf
  | none =>
    rw [prune_of_only_eq_none honly]
    split
    next hnil =>
      refine iff_of_false not_mem_empty ?_
      rintro ⟨b, hv⟩
      cases mem_of_branches_eq hnil hv
    · rfl

section Keys

variable {digit : ℕ → κ → Fin n} {key : β → κ} {new : α} {d : ℕ} {k : κ}

structure Canon (digit : ℕ → κ → Fin n) (key : β → κ) (d : ℕ) (t : Radix n α β) : Prop where
  placed : Placed digit key d t
  compact : Compact key t
  crowded : t.isInner → Crowded key t

def Children (digit : ℕ → κ → Fin n) (key : β → κ) (d : ℕ) (ch : Fin n → Radix n α β) : Prop :=
  ∀ b, Canon digit key (d + 1) (ch b) ∧ ∀ v ∈ ch b, digit d (key v) = b

theorem Canon.children (h : Canon digit key d (inner a ch)) : Children digit key d ch :=
  fun b => ⟨⟨(h.placed b).1, (h.compact b).1, (h.compact b).2⟩, (h.placed b).2⟩

theorem Children.canon (h : Children digit key d ch) (hcrowded : Crowded key (inner a ch)) :
    Canon digit key d (inner a ch) :=
  ⟨fun b => ⟨(h b).1.placed, (h b).2⟩, fun b => ⟨(h b).1.compact, (h b).1.crowded⟩, fun _ => hcrowded⟩

theorem canon_empty : Canon digit key d (empty : Radix n α β) := ⟨trivial, trivial, fun h => by cases h⟩

theorem canon_leaf : Canon digit key d (leaf v : Radix n α β) := ⟨trivial, trivial, fun h => by cases h⟩

variable {b : Fin n} {c : Radix n α β} {a' : α} {ch' : Fin n → Radix n α β}

theorem Children.update (h : Children digit key d ch) (hc : Canon digit key (d + 1) c)
    (hdigit : ∀ v ∈ c, digit d (key v) = b) : Children digit key d (Function.update ch b c) := by
  intro b'
  by_cases hb : b' = b
  · subst hb
    rw [update_self]
    exact ⟨hc, hdigit⟩
  · rw [update_of_ne hb]
    exact h b'

theorem children_empty : Children digit key d (fun _ => (empty : Radix n α β)) :=
  fun _ => ⟨canon_empty, fun _ hv => hv.elim⟩

theorem Canon.exists_mem (h : Canon digit key d t) (hne : t ≠ empty) : ∃ v, v ∈ t := by
  cases t with
  | empty => exact absurd rfl hne
  | leaf v => exact ⟨v, rfl⟩
  | inner a ch =>
    obtain ⟨v, hv, -⟩ := h.crowded rfl
    exact ⟨v, hv⟩

theorem Canon.exists_ne (h : Canon digit key d t) (hinner : t.isInner) (k : κ) : ∃ v ∈ t, key v ≠ k := by
  obtain ⟨v, hv, w, hw, hne⟩ := h.crowded hinner
  by_cases hvk : key v = k
  · exact ⟨w, hw, hvk ▸ Ne.symm hne⟩
  · exact ⟨v, hv, hvk⟩

theorem Children.only_eq_none (h : Children digit key d ch) (honly : only (inner a ch) = none) :
    (∀ v, v ∉ inner a ch) ∨ Crowded key (inner a ch) := by
  rw [only] at honly
  split at honly
  next b hb =>
    right
    have hne : ch b ≠ empty := mem_branches.mp (hb ▸ List.mem_singleton_self b)
    cases hchild : ch b with
    | empty => exact absurd hchild hne
    | leaf v =>
      rw [hchild] at honly
      cases honly
    | inner a' ch' =>
      obtain ⟨v, hv, w, hw, hkey⟩ := (h b).1.crowded (by rw [hchild]; rfl)
      exact ⟨v, ⟨b, hv⟩, w, ⟨b, hw⟩, hkey⟩
  next hnot =>
    cases hbs : branches ch with
    | nil =>
      left
      rintro v ⟨b, hv⟩
      cases mem_of_branches_eq hbs hv
    | cons b rest =>
      cases rest with
      | nil => exact absurd hbs (hnot b)
      | cons b' rest =>
        right
        have hnodup : (b :: b' :: rest).Nodup := hbs ▸ branches_nodup
        have hne : b ≠ b' := fun heq => (List.nodup_cons.mp hnodup).1 (heq ▸ List.mem_cons_self)
        have hmem : ∀ c ∈ b :: b' :: rest, ∃ v, v ∈ ch c := fun c hc =>
          (h c).1.exists_mem (mem_branches.mp (hbs ▸ hc))
        obtain ⟨v, hv⟩ := hmem b List.mem_cons_self
        obtain ⟨w, hw⟩ := hmem b' (List.mem_cons_of_mem _ List.mem_cons_self)
        refine ⟨v, ⟨b, hv⟩, w, ⟨b', hw⟩, fun hkey => hne ?_⟩
        rw [← (h b).2 v hv, ← (h b').2 w hw, hkey]

theorem Children.prune (h : Children digit key d ch) : Canon digit key d (prune id (inner a ch)) := by
  cases honly : only (inner a ch) with
  | some w =>
    rw [prune_of_only_eq_some honly]
    exact canon_leaf
  | none =>
    rw [prune_of_only_eq_none honly]
    split
    · exact canon_empty
    next hne =>
      obtain ⟨b, hb⟩ := List.exists_mem_of_ne_nil _ hne
      obtain ⟨v, hv⟩ := (h b).1.exists_mem (mem_branches.mp hb)
      exact h.canon ((h.only_eq_none honly).resolve_left fun hno => hno v ⟨b, hv⟩)

/-! ## A trie is determined by its leaves -/

theorem Children.mem_iff (h : Children digit key d ch) (h' : Children digit key d ch')
    (hmem : ∀ v, v ∈ inner a ch ↔ v ∈ inner a' ch') (b : Fin n) (v : β) : v ∈ ch b ↔ v ∈ ch' b := by
  constructor
  · intro hv
    obtain ⟨b', hv'⟩ := (hmem v).mp ⟨b, hv⟩
    rwa [← (h b).2 v hv, (h' b').2 v hv']
  · intro hv
    obtain ⟨b', hv'⟩ := (hmem v).mpr ⟨b, hv⟩
    rwa [← (h' b).2 v hv, (h b').2 v hv']

theorem Canon.strip_eq {t' : Radix n α β} (h : Canon digit key d t) (h' : Canon digit key d t')
    (hmem : ∀ v, v ∈ t ↔ v ∈ t') : t.strip = t'.strip := by
  induction t generalizing d t' with
  | empty =>
    have hempty : t' = empty := by
      by_contra hne
      obtain ⟨v, hv⟩ := h'.exists_mem hne
      exact (hmem v).mpr hv
    rw [hempty]
  | leaf v =>
    cases t' with
    | empty => exact ((hmem v).mp rfl).elim
    | leaf w => rw [(hmem v).mp rfl]
    | inner a' ch' =>
      obtain ⟨u, hu, w, hw, hkey⟩ := h'.crowded rfl
      have hu := mem_leaf.mp ((hmem u).mpr hu)
      have hw := mem_leaf.mp ((hmem w).mpr hw)
      exact absurd (by rw [hu, hw]) hkey
  | inner a ch ih =>
    cases t' with
    | empty =>
      obtain ⟨v, hv, -⟩ := h.crowded rfl
      exact ((hmem v).mp hv).elim
    | leaf w =>
      obtain ⟨u, hu, v, hv, hkey⟩ := h.crowded rfl
      have hu := mem_leaf.mp ((hmem u).mp hu)
      have hv := mem_leaf.mp ((hmem v).mp hv)
      exact absurd (by rw [hu, hv]) hkey
    | inner a' ch' =>
      rw [strip]
      congr 1
      funext b
      exact ih b (h.children b).1 (h'.children b).1 (h.children.mem_iff h'.children hmem b)

theorem Children.strip_eq (h : Children digit key d ch) (h' : Children digit key d ch')
    (hmem : ∀ v, v ∈ inner a ch ↔ v ∈ inner a' ch') : (inner a ch).strip = (inner a' ch').strip := by
  rw [strip]
  congr 1
  funext b
  exact (h b).1.strip_eq (h' b).1 (h.mem_iff h' hmem b)

/-! ## Annotations -/

theorem mem_strip : v ∈ t.strip ↔ v ∈ t := by
  induction t with
  | empty => rfl
  | leaf w => rfl
  | inner a ch ih =>
    exact exists_congr ih

theorem isEmpty_strip : t.strip.isEmpty = t.isEmpty := by
  cases t <;> rfl

theorem branches_strip (ch : Fin n → Radix n α β) : (branches fun b => (ch b).strip) = branches ch := by
  simp only [branches, isEmpty_strip]

theorem canon_strip : Canon digit key d t.strip ↔ Canon digit key d t := by
  induction t generalizing d with
  | empty => exact iff_of_true canon_empty canon_empty
  | leaf w => exact iff_of_true canon_leaf canon_leaf
  | inner a ch ih =>
    constructor
    · intro h
      refine Children.canon (fun b => ⟨(ih b).mp (h.children b).1, fun v hv => ?_⟩) ?_
      · exact (h.children b).2 v (mem_strip.mpr hv)
      · obtain ⟨v, hv, w, hw, hne⟩ := h.crowded rfl
        exact ⟨v, mem_strip.mp hv, w, mem_strip.mp hw, hne⟩
    · intro h
      refine Children.canon (fun b => ⟨(ih b).mpr (h.children b).1, fun v hv => ?_⟩) ?_
      · exact (h.children b).2 v (mem_strip.mp hv)
      · obtain ⟨v, hv, w, hw, hne⟩ := h.crowded rfl
        exact ⟨v, mem_strip.mpr hv, w, mem_strip.mpr hw, hne⟩

theorem Children.of_strip_eq (h : Children digit key d ch) (heq : ∀ b, (ch' b).strip = (ch b).strip) :
    Children digit key d ch' := by
  intro b
  refine ⟨canon_strip.mp ?_, fun v hv => (h b).2 v (mem_strip.mp ?_)⟩
  · rw [heq b]
    exact canon_strip.mpr (h b).1
  · rw [← heq b]
    exact mem_strip.mpr hv

theorem find_strip [DecidableEq κ] : find digit key k d t.strip = find digit key k d t := by
  induction t generalizing d with
  | empty => rfl
  | leaf w => rfl
  | inner a ch ih => exact ih _

/-! ## Lookup -/

theorem find_eq_some [DecidableEq κ] (h : Placed digit key d t) :
    find digit key k d t = some v ↔ v ∈ t ∧ key v = k := by
  induction t generalizing d with
  | empty =>
    constructor
    · intro hfind
      cases hfind
    · exact fun hv => hv.1.elim
  | leaf w =>
    rw [find, Option.ite_none_right_eq_some, Option.some.injEq]
    constructor
    · rintro ⟨hkey, rfl⟩
      exact ⟨rfl, hkey⟩
    · rintro ⟨rfl, hkey⟩
      exact ⟨hkey, rfl⟩
  | inner a ch ih =>
    rw [find, ih _ (h _).1]
    constructor
    · rintro ⟨hv, hkey⟩
      exact ⟨⟨_, hv⟩, hkey⟩
    · rintro ⟨⟨b, hv⟩, rfl⟩
      rw [(h b).2 v hv]
      exact ⟨hv, rfl⟩

/-! ## Insertion -/

/-- The leaves agree with `k` on the digits before `d`. -/
def Agrees (digit : ℕ → κ → Fin n) (key : β → κ) (k : κ) (d : ℕ) (t : Radix n α β) : Prop :=
  ∀ v ∈ t, ∀ i < d, digit i (key v) = digit i k

theorem Agrees.child (h : Agrees digit key k d (inner a ch)) (hch : Children digit key d ch) :
    Agrees digit key k (d + 1) (ch (digit d k)) := by
  intro v hv i hi
  rcases Nat.lt_succ_iff_lt_or_eq.mp hi with hi | rfl
  · exact h v ⟨_, hv⟩ i hi
  · exact (hch _).2 v hv

theorem mem_pair {c : Fin n} (hbc : b ≠ c) {u : β} :
    u ∈ (inner new (Function.update (Function.update (fun _ => empty) b (leaf v)) c (leaf w)) : Radix n α β) ↔
      u = v ∨ u = w := by
  rw [mem_update]
  constructor
  · rintro (hu | ⟨b', -, hu⟩)
    · exact .inr hu
    · by_cases hb : b' = b
      · rw [hb, update_self] at hu
        exact .inl hu
      · rw [update_of_ne hb] at hu
        exact hu.elim
  · rintro (hu | hu)
    · exact .inr ⟨b, hbc, by rwa [update_self]⟩
    · exact .inl hu

theorem mem_single : v ∈ inner new (Function.update (fun _ => empty) b c) ↔ v ∈ c := by
  rw [mem_update]
  exact ⟨fun hv => hv.elim id fun ⟨_, _, hv⟩ => hv.elim, .inl⟩

theorem split_spec (new : α) {fuel : ℕ} (hdiffer : ∃ i, d ≤ i ∧ i < d + fuel ∧ digit i (key v) ≠ digit i (key w)) :
    (∀ u, u ∈ (split digit key new v w fuel d : Radix n α β) ↔ u = v ∨ u = w) ∧
      Canon digit key d (split digit key new v w fuel d) := by
  induction fuel generalizing d with
  | zero =>
    omega
  | succ fuel ih =>
    rw [split]
    split
    next heq =>
      have hdiffer' : ∃ i, d + 1 ≤ i ∧ i < d + 1 + fuel ∧ digit i (key v) ≠ digit i (key w) := by
        obtain ⟨i, hle, hlt, hne⟩ := hdiffer
        have hid : i ≠ d := by
          rintro rfl
          exact hne heq
        exact ⟨i, by omega, by omega, hne⟩
      obtain ⟨hmem, hcanon⟩ := ih hdiffer'
      have hmem' : ∀ u, u ∈ (inner new (update (fun _ => empty) (digit d (key v))
          (split digit key new v w fuel (d + 1))) : Radix n α β) ↔ u = v ∨ u = w :=
        fun u => mem_single.trans (hmem u)
      refine ⟨hmem', (children_empty.update hcanon fun u hu => ?_).canon ?_⟩
      · rcases (hmem u).mp hu with rfl | rfl
        · rfl
        · exact heq.symm
      · obtain ⟨i, -, -, hne⟩ := hdiffer
        exact ⟨v, (hmem' v).mpr (.inl rfl), w, (hmem' w).mpr (.inr rfl), fun hkey => hne (by rw [hkey])⟩
    next hne =>
      refine ⟨fun u => mem_pair hne, Children.canon ?_ ?_⟩
      · exact (children_empty.update canon_leaf fun u hu => by rw [mem_leaf.mp hu]).update canon_leaf
          fun u hu => by rw [mem_leaf.mp hu]
      · exact ⟨v, (mem_pair hne).mpr (.inl rfl), w, (mem_pair hne).mpr (.inr rfl), fun hkey => hne (by rw [hkey])⟩

/-- A change below an inner node, from that of its child: the leaf of `k` gives way to those in `P`. -/
theorem Children.replace (new : α) (h : Children digit key d ch) {P : β → Prop} (hP : ∀ u, P u → key u = k)
    (hmem : ∀ u, u ∈ c ↔ P u ∨ u ∈ ch (digit d k) ∧ key u ≠ k) (hcanon : Canon digit key (d + 1) c) :
    (∀ u, u ∈ inner new (Function.update ch (digit d k) c) ↔ P u ∨ u ∈ inner a ch ∧ key u ≠ k) ∧
      Children digit key d (Function.update ch (digit d k) c) := by
  refine ⟨fun u => ?_, h.update hcanon fun u hu => ?_⟩
  · rw [mem_update, hmem]
    constructor
    · rintro ((hu | ⟨hu, hne⟩) | ⟨b, hb, hu⟩)
      · exact .inl hu
      · exact .inr ⟨⟨_, hu⟩, hne⟩
      · refine .inr ⟨⟨b, hu⟩, fun hkey => hb ?_⟩
        rw [← (h b).2 u hu, hkey]
    · rintro (hu | ⟨⟨b, hu⟩, hne⟩)
      · exact .inl (.inl hu)
      · by_cases hb : b = digit d k
        · rw [hb] at hu
          exact .inl (.inr ⟨hu, hne⟩)
        · exact .inr ⟨b, hb, hu⟩
  · rcases (hmem u).mp hu with hu | ⟨hu, -⟩
    · rw [hP u hu]
    · exact (h _).2 u hu

section Put

variable {len : ℕ} (hsep : ∀ k k' : κ, (∀ i < len, digit i k = digit i k') → k = k')
include hsep

theorem exists_digit_ne {k' : κ} (hne : k ≠ k') (hagree : ∀ i < d, digit i k = digit i k') :
    ∃ i, d ≤ i ∧ i < d + (len - d) ∧ digit i k ≠ digit i k' := by
  by_contra hnot
  refine hne (hsep k k' fun i hi => ?_)
  by_contra hdigit
  have hle : d ≤ i := by
    by_contra hlt
    exact hdigit (hagree i (Nat.lt_of_not_le hlt))
  exact hnot ⟨i, hle, by omega, hdigit⟩

variable [DecidableEq κ]

theorem Canon.put_spec (new : α) (h : Canon digit key d t) (hagree : Agrees digit key (key v) d t) :
    (∀ u, u ∈ put digit key new len v d t ↔ u = v ∨ u ∈ t ∧ key u ≠ key v) ∧
      Canon digit key d (put digit key new len v d t) := by
  induction t generalizing d with
  | empty =>
    refine ⟨fun u => ?_, canon_leaf⟩
    exact ⟨.inl, fun hu => hu.elim id fun hu => hu.1.elim⟩
  | leaf w =>
    rw [put]
    split
    next hkey =>
      refine ⟨fun u => ?_, canon_leaf⟩
      refine ⟨.inl, fun hu => hu.elim id ?_⟩
      rintro ⟨rfl, hne⟩
      exact absurd hkey hne
    next hkey =>
      have hdiffer := exists_digit_ne hsep (Ne.symm hkey) fun i hi => (hagree w rfl i hi).symm
      obtain ⟨hmem, hcanon⟩ := split_spec new hdiffer
      refine ⟨fun u => (hmem u).trans ?_, hcanon⟩
      constructor
      · rintro (hu | rfl)
        · exact .inl hu
        · exact .inr ⟨rfl, hkey⟩
      · exact fun hu => hu.imp id And.left
  | inner a ch ih =>
    obtain ⟨hmem, hcanon⟩ := ih _ (h.children _).1 (hagree.child h.children)
    obtain ⟨hmem', hchildren⟩ := h.children.replace new (a := a) (fun _ => congrArg key) hmem hcanon
    refine ⟨hmem', hchildren.canon ?_⟩
    -- one of two leaves with different keys stays beside the new one
    obtain ⟨u, hu, w, hw, hkey⟩ := h.crowded rfl
    by_cases huv : key u = key v
    · exact ⟨v, (hmem' v).mpr (.inl rfl), w, (hmem' w).mpr (.inr ⟨hw, huv ▸ Ne.symm hkey⟩), huv ▸ hkey⟩
    · exact ⟨u, (hmem' u).mpr (.inr ⟨hu, huv⟩), v, (hmem' v).mpr (.inl rfl), huv⟩

theorem Children.put_spec (new : α) (h : Children digit key 0 ch) :
    (∀ u, u ∈ put digit key new len v 0 (inner a ch) ↔ u = v ∨ u ∈ inner a ch ∧ key u ≠ key v) ∧
      Children digit key 0
        (Function.update ch (digit 0 (key v)) (put digit key new len v 1 (ch (digit 0 (key v))))) := by
  have hagree : Agrees digit key (key v) 0 (inner a ch) := fun _ _ i hi => absurd hi (Nat.not_lt_zero i)
  obtain ⟨hmem, hcanon⟩ := (h _).1.put_spec hsep new (hagree.child h)
  exact h.replace new (fun _ => congrArg key) hmem hcanon

end Put

/-! ## Erasure -/

theorem Children.erase_step (h : Children digit key d ch) (hmem : ∀ u, u ∈ c ↔ u ∈ ch (digit d k) ∧ key u ≠ k)
    (hcanon : Canon digit key (d + 1) c) :
    (∀ u, u ∈ inner new (Function.update ch (digit d k) c) ↔ u ∈ inner a ch ∧ key u ≠ k) ∧
      Children digit key d (Function.update ch (digit d k) c) := by
  simpa only [false_or] using
    h.replace (P := fun _ => False) (a := a) new (fun _ => False.elim) (by simpa only [false_or] using hmem) hcanon

theorem Children.mem_child (h : Children digit key d ch) (hv : v ∈ inner a ch) (hkey : key v = k) :
    v ∈ ch (digit d k) := by
  obtain ⟨b, hb⟩ := hv
  rw [← hkey, (h b).2 v hb]
  exact hb

theorem Canon.erase_spec (new : α) (h : Canon digit key d t) (hd : d ≠ 0) (hv : v ∈ t) (hkey : key v = k) :
    (∀ u, u ∈ erase digit new k d t ↔ u ∈ t ∧ key u ≠ k) ∧ Canon digit key d (erase digit new k d t) := by
  induction t generalizing d with
  | empty => exact hv.elim
  | leaf w =>
    refine ⟨fun u => ⟨fun hu => hu.elim, ?_⟩, canon_empty⟩
    rintro ⟨hu, hne⟩
    rw [mem_leaf.mp hu, ← mem_leaf.mp hv] at hne
    exact absurd hkey hne
  | inner a ch ih =>
    obtain ⟨hmem, hcanon⟩ := ih _ (h.children _).1 d.succ_ne_zero (h.children.mem_child hv hkey)
    obtain ⟨hmem', hchildren⟩ := h.children.erase_step (a := a) hmem hcanon
    have herase : erase digit new k d (inner a ch) =
        prune id (inner new (update ch (digit d k) (erase digit new k (d + 1) (ch (digit d k))))) :=
      if_neg hd
    rw [herase]
    exact ⟨fun u => mem_prune.trans (hmem' u), hchildren.prune⟩

theorem Children.erase_spec (new : α) (h : Children digit key 0 ch) (hv : v ∈ inner a ch) (hkey : key v = k) :
    (∀ u, u ∈ erase digit new k 0 (inner a ch) ↔ u ∈ inner a ch ∧ key u ≠ k) ∧
      Children digit key 0 (Function.update ch (digit 0 k) (erase digit new k 1 (ch (digit 0 k)))) := by
  obtain ⟨hmem, hcanon⟩ := (h _).1.erase_spec new Nat.one_ne_zero (h.mem_child hv hkey) hkey
  exact h.erase_step hmem hcanon

/-! ## Maps over the leaves -/

section Map

variable {g : β → β}

theorem mem_map : v ∈ map g t ↔ ∃ u ∈ t, v = g u := by
  induction t with
  | empty => exact ⟨fun hv => hv.elim, fun ⟨_, hu, _⟩ => hu.elim⟩
  | leaf w =>
    constructor
    · exact fun hv => ⟨w, rfl, hv⟩
    · rintro ⟨u, rfl, hv⟩
      exact hv
  | inner a ch ih =>
    constructor
    · rintro ⟨b, hv⟩
      obtain ⟨u, hu, hv⟩ := (ih b).mp hv
      exact ⟨u, ⟨b, hu⟩, hv⟩
    · rintro ⟨u, ⟨b, hu⟩, hv⟩
      exact ⟨b, (ih b).mpr ⟨u, hu, hv⟩⟩

theorem map_congr (h : ∀ v ∈ t, g v = v) : map g t = t := by
  induction t with
  | empty => rfl
  | leaf w => rw [map, h w rfl]
  | inner a ch ih =>
    rw [map]
    congr 1
    funext b
    exact ih b fun v hv => h v ⟨b, hv⟩

theorem isEmpty_map : (map g t).isEmpty = t.isEmpty := by
  cases t <;> rfl

theorem branches_map : (branches fun b => map g (ch b)) = branches ch := by
  simp only [branches, isEmpty_map]

theorem only_map : only (map g t) = (only t).map g := by
  induction t with
  | empty => rfl
  | leaf w => rfl
  | inner a ch ih =>
    rw [map, only, only, branches_map]
    split
    next b hb => exact ih b
    · rfl

theorem prune_map : prune id (map g t) = map g (prune id t) := by
  cases t with
  | empty => rfl
  | leaf w => rfl
  | inner a ch =>
    rw [map, prune, prune, branches_map]
    split
    · rfl
    next b hb =>
      rw [only_map]
      cases only (ch b) <;> rfl
    · rfl

variable (hg : ∀ v, key (g v) = key v)
include hg

theorem find_map [DecidableEq κ] : find digit key k d (map g t) = (find digit key k d t).map g := by
  induction t generalizing d with
  | empty => rfl
  | leaf w =>
    rw [map, find, find, hg]
    split <;> rfl
  | inner a ch ih => exact ih _

theorem Canon.map_leaves (h : Canon digit key d t) : Canon digit key d (map g t) := by
  have hdigit : ∀ {d : ℕ} {b : Fin n} {t : Radix n α β}, (∀ v ∈ t, digit d (key v) = b) →
      ∀ v ∈ map g t, digit d (key v) = b := by
    intro d b t hall v hv
    obtain ⟨u, hu, rfl⟩ := mem_map.mp hv
    rw [hg]
    exact hall u hu
  have hcrowded : ∀ {t : Radix n α β}, Crowded key t → Crowded key (map g t) := by
    rintro t ⟨v, hv, w, hw, hne⟩
    exact ⟨g v, mem_map.mpr ⟨v, hv, rfl⟩, g w, mem_map.mpr ⟨w, hw, rfl⟩, by rwa [hg, hg]⟩
  induction t generalizing d with
  | empty => exact canon_empty
  | leaf w => exact canon_leaf
  | inner a ch ih =>
    refine Children.canon (fun b => ⟨ih b (h.children b).1, hdigit (h.children b).2⟩) ?_
    exact hcrowded (h.crowded rfl)

theorem Children.map_leaves (h : Children digit key d ch) : Children digit key d fun b => map g (ch b) := by
  intro b
  refine ⟨(h b).1.map_leaves hg, fun v hv => ?_⟩
  obtain ⟨u, hu, rfl⟩ := mem_map.mp hv
  rw [hg]
  exact (h b).2 u hu

end Map

/-! ## The leaf that is moved up -/

theorem pulled_spec (hplaced : Placed digit key d t) (h : pulled digit k d t = some s) : s ∈ t ∧ key s ≠ k := by
  induction t generalizing d with
  | empty => cases h
  | leaf w => cases h
  | inner a ch ih =>
    rw [pulled] at h
    split at h
    · obtain ⟨hs, hne⟩ := ih _ (hplaced _).1 h
      exact ⟨⟨_, hs⟩, hne⟩
    · split at h
      · cases h
      · rcases mem_update.mp ((only_eq_some h).mpr rfl) with hs | ⟨b, hb, hs⟩
        · exact hs.elim
        · refine ⟨⟨b, hs⟩, ?_⟩
          rintro rfl
          exact hb ((hplaced b).2 s hs).symm

theorem of_not_isInner (h : ¬t.isInner = true) (digit : ℕ → κ → Fin n) (new : α) (f : β → β) (k : κ) (d : ℕ) :
    eraseWith digit new f k d t = empty ∧ pulled digit k d t = none := by
  cases t with
  | empty => exact ⟨rfl, rfl⟩
  | leaf w => exact ⟨rfl, rfl⟩
  | inner a ch => exact absurd rfl h

theorem only_annotation : only (inner a ch) = only (inner a' ch) := by
  rw [only, only]

theorem exists_of_prune_eq_leaf (h : prune f (inner a ch) = leaf v) : ∃ w, v = f w := by
  cases honly : only (inner a ch) with
  | some w =>
    rw [prune_of_only_eq_some honly] at h
    cases h
    exact ⟨w, rfl⟩
  | none =>
    rw [prune_of_only_eq_none honly] at h
    split at h <;> cases h

theorem Canon.eq_leaf (h : Canon digit key d t) (hs : s ∈ t) (hall : ∀ u ∈ t, u = s) : t = leaf s := by
  cases t with
  | empty => exact hs.elim
  | leaf w => rw [mem_leaf.mp hs]
  | inner a ch =>
    obtain ⟨u, hu, w, hw, hne⟩ := h.crowded rfl
    exact absurd (by rw [hall u hu, hall w hw]) hne

def rebuilt [DecidableEq β] (f : β → β) (s : Option β) (v : β) : β := if s = some v then f v else v

theorem rebuilt_none [DecidableEq β] : rebuilt f none v = v := if_neg (by simp)

theorem rebuilt_self [DecidableEq β] : rebuilt f (some v) v = f v := if_pos rfl

theorem rebuilt_of_ne [DecidableEq β] {s : Option β} (h : s ≠ some v) : rebuilt f s v = v := if_neg h

section Rebuild

variable [DecidableEq β]

theorem Children.eraseWith_step (h : Children digit key d ch)
    (hchild : eraseWith digit new f k (d + 1) (ch (digit d k)) =
      map (rebuilt f (pulled digit k (d + 1) (ch (digit d k)))) (erase digit new k (d + 1) (ch (digit d k)))) :
    inner new (Function.update ch (digit d k) (eraseWith digit new f k (d + 1) (ch (digit d k)))) =
      map (rebuilt f (pulled digit k (d + 1) (ch (digit d k))))
        (inner new (Function.update ch (digit d k) (erase digit new k (d + 1) (ch (digit d k))))) := by
  rw [hchild]
  congr 1
  funext b
  by_cases hb : b = digit d k
  · rw [hb, update_self, update_self]
  · rw [update_of_ne hb, update_of_ne hb]
    refine (map_congr fun v hv => rebuilt_of_ne fun hpulled => hb ?_).symm
    rw [← (h b).2 v hv, (h _).2 v (pulled_spec (h _).1.placed hpulled).1]

theorem Canon.eraseWith_eq (new : α) (hf : ∀ v, f (f v) = f v) (h : Canon digit key d t) (hd : d ≠ 0) (hv : v ∈ t)
    (hkey : key v = k) :
    eraseWith digit new f k d t = map (rebuilt f (pulled digit k d t)) (erase digit new k d t) := by
  induction t generalizing d with
  | empty => exact hv.elim
  | leaf w => rfl
  | inner a ch ih =>
    have hv' := h.children.mem_child hv hkey
    have hwith : eraseWith digit new f k d (inner a ch) = prune f
        (inner new (update ch (digit d k) (eraseWith digit new f k (d + 1) (ch (digit d k))))) :=
      if_neg hd
    have herase : erase digit new k d (inner a ch) = prune id
        (inner new (update ch (digit d k) (erase digit new k (d + 1) (ch (digit d k))))) :=
      if_neg hd
    rw [hwith, herase]
    by_cases hinner : (ch (digit d k)).isInner
    · have hpulled : pulled digit k d (inner a ch) = pulled digit k (d + 1) (ch (digit d k)) := if_pos hinner
      have hchild := ih _ (h.children _).1 d.succ_ne_zero hv'
      rw [hpulled, h.children.eraseWith_step hchild]
      obtain ⟨hmem, hcanon⟩ := (h.children _).1.erase_spec new d.succ_ne_zero hv' hkey
      generalize erase digit new k (d + 1) (ch (digit d k)) = c at hchild hmem hcanon ⊢
      generalize rebuilt f (pulled digit k (d + 1) (ch (digit d k))) = g at hchild ⊢
      have honly_map := only_map (t := inner new (update ch (digit d k) c)) (g := g)
      cases honly : only (inner new (update ch (digit d k) c)) with
      | none =>
        rw [honly] at honly_map
        rw [← prune_map]
        exact (prune_of_only_eq_none honly_map).trans (prune_of_only_eq_none honly_map).symm
      | some s =>
        -- the only leaf that is left is a leaf below, where it has been rebuilt
        obtain ⟨u, hu, huk⟩ := (h.children (digit d k)).1.exists_ne hinner k
        have hall : ∀ u ∈ c, u = s := fun u hu => (only_eq_some honly).mp (mem_update.mpr (.inl hu))
        have huc := (hmem u).mpr ⟨hu, huk⟩
        obtain rfl := hcanon.eq_leaf (hall u huc ▸ huc) hall
        have hrebuilt : ∃ w, g s = f w := by
          cases hc : ch (digit d k) with
          | inner a' ch' =>
            rw [hc, eraseWith] at hchild
            exact exists_of_prune_eq_leaf hchild
          | _ =>
            rw [hc] at hinner
            cases hinner
        obtain ⟨w, hw⟩ := hrebuilt
        rw [honly] at honly_map
        rw [prune_of_only_eq_some honly]
        refine (prune_of_only_eq_some honly_map).trans ?_
        rw [hw, hf, ← hw]
        rfl
    · have hpulled : pulled digit k d (inner a ch) = only (inner new (update ch (digit d k) empty)) := by
        rw [pulled, if_neg hinner, if_neg hd]
        exact only_annotation
      rw [hpulled, erase, (of_not_isInner hinner ..).1, (of_not_isInner hinner ..).1]
      cases honly : only (inner new (update ch (digit d k) empty)) with
      | none =>
        rw [prune_of_only_eq_none honly, prune_of_only_eq_none honly]
        exact (map_congr fun _ _ => rebuilt_none).symm
      | some s =>
        rw [prune_of_only_eq_some honly, prune_of_only_eq_some honly]
        exact congrArg leaf rebuilt_self.symm

theorem Children.eraseWith_eq (new : α) (hf : ∀ v, f (f v) = f v) (h : Children digit key 0 ch) (hv : v ∈ inner a ch)
    (hkey : key v = k) :
    eraseWith digit new f k 0 (inner a ch) =
      map (rebuilt f (pulled digit k 0 (inner a ch))) (erase digit new k 0 (inner a ch)) := by
  have hv' := h.mem_child hv hkey
  have hchild := (h _).1.eraseWith_eq new hf Nat.one_ne_zero hv' hkey
  have hpulled : pulled digit k 0 (inner a ch) = pulled digit k 1 (ch (digit 0 k)) := by
    rw [pulled]
    split
    · rfl
    next hinner => rw [if_pos rfl, (of_not_isInner hinner digit new f k 1).2]
  rw [hpulled]
  exact h.eraseWith_step hchild

end Rebuild

end Keys

end Radix
