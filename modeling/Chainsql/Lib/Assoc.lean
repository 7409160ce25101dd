import Mathlib.Algebra.BigOperators.Group.Multiset.Basic
import Mathlib.Data.Finset.Card
import Mathlib.Data.List.AList

/-!
# Association maps

The operations of an ordered map that `AList` lacks: insertion that keeps an existing entry, removal
by a predicate, and removal of the least key that satisfies a predicate. Each comes with the lemma
that says which lookups it changes. `All` is a property of every entry and is kept by them. `values`
is the multiset of the values.
-/

namespace AList

variable {α : Type*} {β : α → Type*} {m : AList β} {x a : α} {y : β x}

def size (m : AList β) : Nat := m.entries.length

def eraseIf (p : ∀ a, β a → Bool) (m : AList β) : AList β where
  entries := m.entries.filter fun e => !p e.1 e.2
  nodupKeys := m.nodupKeys.sublist List.filter_sublist

def filterMapVal (f : ∀ a, β a → Option (β a)) (m : AList β) : AList β where
  entries := m.entries.filterMap fun e => (f e.1 e.2).map fun b => ⟨e.1, b⟩
  nodupKeys := by
    have hsub : ∀ l : List (Sigma β),
        (l.filterMap fun e => (f e.1 e.2).map fun b => (⟨e.1, b⟩ : Sigma β)).keys.Sublist l.keys := by
      intro l
      induction l with
      | nil => exact .slnil
      | cons e l ih =>
        cases he : f e.1 e.2 with
        | none => simpa [he] using ih.cons e.1
        | some b => simpa [he] using ih.cons_cons e.1
    exact (hsub m.entries).nodup m.nodupKeys

def mapVal (f : ∀ a, β a → β a) (m : AList β) : AList β := m.filterMapVal fun a b => some (f a b)

def All (p : ∀ a, β a → Prop) (m : AList β) : Prop := ∀ e ∈ m.entries, p e.1 e.2

variable {p q : ∀ a, β a → Prop}

instance decidableAll [∀ a b, Decidable (p a b)] : Decidable (m.All p) :=
  inferInstanceAs (Decidable (∀ e ∈ m.entries, p e.1 e.2))

theorem all_empty : (∅ : AList β).All p := fun _ he => absurd he List.not_mem_nil

theorem All.imp (hm : m.All p) (h : ∀ a b, p a b → q a b) : m.All q :=
  fun e he => h e.1 e.2 (hm e he)

theorem All.eraseIf (hm : m.All p) (r : ∀ a, β a → Bool) : (m.eraseIf r).All p :=
  fun e he => hm e (List.mem_of_mem_filter he)

theorem All.filterMapVal {f : ∀ a, β a → Option (β a)} (hm : m.All p) (h : ∀ a b, p a b → ∀ c ∈ f a b, q a c) :
    (m.filterMapVal f).All q := by
  intro e he
  obtain ⟨e', he', hmap⟩ := List.mem_filterMap.mp he
  obtain ⟨c, hc, rfl⟩ := Option.map_eq_some_iff.mp hmap
  exact h e'.1 e'.2 (hm e' he') c hc

section DecidableKeys

variable [DecidableEq α]

def emplace (a : α) (b : β a) (m : AList β) : AList β := if a ∈ m then m else m.insert a b

variable {b : β a} {f : ∀ a, β a → β a}

theorem lookup_emplace_of_some (hx : m.lookup x = some y) : (m.emplace a b).lookup x = some y := by
  unfold emplace
  split
  · exact hx
  next ha =>
    have hne : x ≠ a := by
      rintro rfl
      rw [lookup_eq_none.mpr ha] at hx
      cases hx
    rw [lookup_insert_ne hne, hx]

theorem lookup_emplace_self : (m.emplace a b).lookup a = some ((m.lookup a).getD b) := by
  unfold emplace
  split
  next ha =>
    obtain ⟨c, hc⟩ := Option.isSome_iff_exists.mp (lookup_isSome.mpr ha)
    rw [hc, Option.getD_some]
  next ha => rw [lookup_insert, lookup_eq_none.mpr ha, Option.getD_none]

theorem lookup_emplace_ne (hne : x ≠ a) : (m.emplace a b).lookup x = m.lookup x := by
  unfold emplace
  split
  · rfl
  · exact lookup_insert_ne hne

theorem lookup_eraseIf {p : ∀ a, β a → Bool} :
    (m.eraseIf p).lookup x = some y ↔ m.lookup x = some y ∧ p x y = false := by
  rw [← Option.mem_def, ← Option.mem_def, mem_lookup_iff, mem_lookup_iff]
  simp [eraseIf, List.mem_filter]

theorem lookup_filterMapVal {f : ∀ a, β a → Option (β a)} :
    (m.filterMapVal f).lookup x = (m.lookup x).bind (f x) := by
  ext y
  rw [← Option.mem_def, ← Option.mem_def, mem_lookup_iff, Option.mem_bind_iff]
  constructor
  · intro he
    obtain ⟨⟨x', z⟩, he', hmap⟩ := List.mem_filterMap.mp he
    obtain ⟨c, hc, heq⟩ := Option.map_eq_some_iff.mp hmap
    cases heq
    exact ⟨z, mem_lookup_iff.mpr he', hc⟩
  · rintro ⟨z, hz, hy⟩
    refine List.mem_filterMap.mpr ⟨⟨x, z⟩, mem_lookup_iff.mp hz, ?_⟩
    have hy : f x z = some y := hy
    simp [hy]

theorem lookup_mapVal : (m.mapVal f).lookup x = (m.lookup x).map (f x) := by
  rw [mapVal, lookup_filterMapVal]
  exact (Option.map_eq_bind).symm

theorem mem_mapVal : x ∈ m.mapVal f ↔ x ∈ m := by
  rw [← lookup_isSome, lookup_mapVal, Option.isSome_map, lookup_isSome]

omit [DecidableEq α] in
theorem size_mapVal : (m.mapVal f).size = m.size := by
  simp [size, mapVal, filterMapVal]

omit [DecidableEq α] in
theorem size_eq_keys_length (m : AList β) : m.size = m.keys.length := (List.length_map _).symm

theorem size_eq_card {s : Finset α} (h : ∀ a, a ∈ m ↔ a ∈ s) : m.size = s.card := by
  have hkeys : m.keys.toFinset = s := by
    ext a
    rw [List.mem_toFinset, ← h a]
    rfl
  rw [size_eq_keys_length, ← hkeys, List.toFinset_card_of_nodup m.keys_nodup]

omit [DecidableEq α] in
theorem length_le_size {l : List α} (hl : l.Nodup) (h : ∀ a ∈ l, a ∈ m) : l.length ≤ m.size := by
  rw [size_eq_keys_length]
  exact (hl.subperm h).length_le

theorem eq_empty_of_lookup (h : ∀ a, m.lookup a = none) : m = ∅ := by
  refine AList.ext (List.eq_nil_iff_forall_not_mem.mpr fun e he => ?_)
  have hsome := mem_lookup_iff.mpr he
  rw [h] at hsome
  cases hsome

theorem All.lookup (hm : m.All p) (hx : m.lookup x = some y) : p x y :=
  hm ⟨x, y⟩ (mem_lookup_iff.mp hx)

theorem All.erase (hm : m.All p) (a : α) : (m.erase a).All p :=
  fun e he => hm e ((List.kerase_sublist a m.entries).subset he)

theorem All.insert_of_ne (hm : m.All fun x y => x ≠ a → p x y) (hb : p a b) : (m.insert a b).All p := by
  intro e he
  rcases List.mem_cons.mp he with rfl | he
  · exact hb
  · refine hm e ((List.kerase_sublist a m.entries).subset he) ?_
    rintro rfl
    exact List.notMem_keys_kerase e.1 m.nodupKeys (List.mem_keys_of_mem he)

theorem All.insert (hm : m.All p) (hb : p a b) : (m.insert a b).All p :=
  insert_of_ne (hm.imp fun _ _ h _ => h) hb

theorem All.emplace (hm : m.All p) (hb : p a b) : (m.emplace a b).All p := by
  unfold AList.emplace
  split
  · exact hm
  · exact hm.insert hb

end DecidableKeys

section Values

variable {γ : Type*} {m : AList fun _ : α => γ} {a : α} {c : γ}

def values (m : AList fun _ : α => γ) : Multiset γ := m.entries.map Sigma.snd

@[simp] theorem values_empty : (∅ : AList fun _ : α => γ).values = 0 := rfl

theorem card_values : m.values.card = m.keys.length := by
  rw [values, Multiset.coe_card, List.length_map, keys, List.keys, List.length_map]

variable [DecidableEq α]

theorem mem_values : c ∈ m.values ↔ ∃ a, m.lookup a = some c := by
  constructor
  · intro h
    obtain ⟨⟨a, c⟩, he, rfl⟩ := List.mem_map.mp h
    exact ⟨a, mem_lookup_iff.mpr he⟩
  · rintro ⟨a, ha⟩
    exact List.mem_map.mpr ⟨⟨a, c⟩, mem_lookup_iff.mp ha, rfl⟩

theorem values_insert : (m.insert a c).values = c ::ₘ (m.erase a).values := by
  rfl

theorem values_of_lookup (h : m.lookup a = some c) : m.values = c ::ₘ (m.erase a).values := by
  have hmem : a ∈ m.entries.keys := List.mem_keys_of_mem (mem_lookup_iff.mp h)
  obtain ⟨c', l₁, l₂, -, hl, hk⟩ := List.exists_of_kerase hmem
  have hc : c' = c := by
    have : m.lookup a = some c' := mem_lookup_iff.mpr (by rw [hl]; simp)
    rw [h] at this
    exact (Option.some.inj this).symm
  have herase : (m.erase a).entries = l₁ ++ l₂ := hk
  rw [values, values, hl, herase, hc, Multiset.cons_coe]
  simp

theorem erase_of_lookup_none (h : m.lookup a = none) : m.erase a = m := by
  refine AList.ext ?_
  exact List.kerase_of_notMem_keys (lookup_eq_none.mp h)

section Sum

variable {M : Type*} [AddCommMonoid M] (f : γ → M) (m a)

theorem sum_values_erase : ((m.erase a).values.map f).sum + (m.lookup a).elim 0 f = (m.values.map f).sum := by
  cases h : m.lookup a with
  | none =>
    rw [erase_of_lookup_none h]
    exact add_zero _
  | some c =>
    rw [values_of_lookup h, Multiset.map_cons]
    exact add_comm _ _

theorem sum_values_insert (c : γ) :
    ((m.insert a c).values.map f).sum + (m.lookup a).elim 0 f = (m.values.map f).sum + f c := by
  rw [values_insert, Multiset.map_cons, Multiset.sum_cons, add_assoc, sum_values_erase, add_comm]

end Sum

theorem count_values [DecidableEq γ] (m : AList fun _ : α => γ) (c : γ) :
    m.values.count c = (m.keys.filter fun a => m.lookup a = some c).length := by
  rw [values, Multiset.coe_count, keys, List.keys, ← List.countP_eq_length_filter, List.countP_map,
    List.count_eq_countP, List.countP_map]
  refine List.countP_congr fun e he => ?_
  have : m.lookup e.1 = some e.2 := mem_lookup_iff.mpr he
  simp [this]

end Values

section OrderedKeys

variable [LinearOrder α]

def eraseFirst (p : ∀ a, β a → Bool) (m : AList β) : AList β :=
  match ((m.entries.filter fun e => p e.1 e.2).map Sigma.fst).min? with
  | none => m
  | some a => m.erase a

/-- The key is not above that of any entry that satisfies `p`. -/
def Least (p : ∀ a, β a → Bool) (m : AList β) (x : α) : Prop :=
  ∀ (a : α) (b : β a), m.lookup a = some b → p a b = true → x ≤ a

theorem mem_keys_filter {p : ∀ a, β a → Bool} {a : α} :
    a ∈ (m.entries.filter fun e => p e.1 e.2).map Sigma.fst ↔ ∃ b, m.lookup a = some b ∧ p a b = true := by
  constructor
  · intro h
    obtain ⟨⟨k, b⟩, he, rfl⟩ := List.mem_map.mp h
    obtain ⟨he, hp⟩ := List.mem_filter.mp he
    exact ⟨b, mem_lookup_iff.mpr he, hp⟩
  · rintro ⟨b, hb, hp⟩
    exact List.mem_map.mpr ⟨⟨a, b⟩, List.mem_filter.mpr ⟨mem_lookup_iff.mp hb, hp⟩, rfl⟩

theorem lookup_eraseFirst {p : ∀ a, β a → Bool} :
    (m.eraseFirst p).lookup x = some y ↔ m.lookup x = some y ∧ ¬ (p x y = true ∧ m.Least p x) := by
  unfold eraseFirst
  split
  next hnone =>
    have hnil := List.min?_eq_none_iff.mp hnone
    refine ⟨fun hx => ⟨hx, fun hp => ?_⟩, And.left⟩
    have hmem := mem_keys_filter.mpr ⟨y, hx, hp.1⟩
    rw [hnil] at hmem
    cases hmem
  next a hmin =>
    obtain ⟨ha, hle⟩ := List.min?_eq_some_iff.mp hmin
    obtain ⟨b, hb, hpb⟩ := mem_keys_filter.mp ha
    by_cases hxa : x = a
    · subst hxa
      rw [lookup_erase]
      refine iff_of_false (Option.some_ne_none y).symm ?_
      rintro ⟨hx, hnot⟩
      rw [hb, Option.some.injEq] at hx
      subst hx
      exact hnot ⟨hpb, fun a' b' ha' hp' => hle a' (mem_keys_filter.mpr ⟨b', ha', hp'⟩)⟩
    · rw [lookup_erase_ne hxa]
      refine ⟨fun hx => ⟨hx, fun hp => ?_⟩, And.left⟩
      exact hxa (le_antisymm (hp.2 a b hb hpb) (hle x (mem_keys_filter.mpr ⟨y, hx, hp.1⟩)))

/-- Removals of first entries that do not get in each other's way. -/
theorem lookup_foldl_eraseFirst {ι : Type*} {p : ι → ∀ a, β a → Bool} {is : List ι}
    (hdisjoint : is.Pairwise fun i j => ∀ a b, p i a b = true → p j a b = false) :
    (is.foldl (fun m i => m.eraseFirst (p i)) m).lookup x = some y
      ↔ m.lookup x = some y ∧ ∀ i ∈ is, ¬ (p i x y = true ∧ m.Least (p i) x) := by
  induction is generalizing m with
  | nil => simp
  | cons i is ih =>
    obtain ⟨hfirst, hrest⟩ := List.pairwise_cons.mp hdisjoint
    -- The entries that a later predicate selects are those of the original map.
    have hleast : ∀ j ∈ is, ((m.eraseFirst (p i)).Least (p j) x ↔ m.Least (p j) x) := by
      intro j hj
      constructor
      · intro h a b hb hpb
        refine h a b (lookup_eraseFirst.mpr ⟨hb, fun hp => ?_⟩) hpb
        rw [hfirst j hj a b hp.1] at hpb
        cases hpb
      · intro h a b hb hpb
        exact h a b (lookup_eraseFirst.mp hb).1 hpb
    rw [List.foldl_cons, ih hrest, lookup_eraseFirst, List.forall_mem_cons, and_assoc]
    refine and_congr_right fun _ => and_congr_right fun _ => forall₂_congr fun j hj => ?_
    rw [hleast j hj]

end OrderedKeys

end AList
