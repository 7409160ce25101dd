import Mathlib.Data.List.Nodup
import Mathlib.Data.Option.Basic
import Mathlib.Order.Lattice

/-!
# Maps in the order of their keys

`SortedMap` is a `std::map`. The entry after a key is described by `IsNext`, which is closed under restricting
the keys and joining two sets of them.
-/

structure SortedMap (κ α : Type) [LinearOrder κ] where
  entries : List (κ × α)
  sorted : entries.Pairwise fun a b => a.1 < b.1

variable {κ α : Type} [LinearOrder κ]

/-! ## The entry after a key -/

/-- The least key after `k` with `p`, if there is one. -/
def IsNext (p : κ → Prop) (k : κ) : Option κ → Prop
  | some j => p j ∧ k < j ∧ ∀ i, p i → k < i → j ≤ i
  | none => ∀ i, p i → ¬k < i

namespace IsNext

variable {p q : κ → Prop} {k : κ} {o o' : Option κ}

theorem eq (h : IsNext p k o) (h' : IsNext p k o') : o = o' := by
  cases o with
  | none =>
    cases o' with
    | none => rfl
    | some j' => exact absurd h'.2.1 (h j' h'.1)
  | some j =>
    cases o' with
    | none => exact absurd h.2.1 (h' j h.1)
    | some j' => rw [le_antisymm (h.2.2 j' h'.1 h'.2.1) (h'.2.2 j h.1 h.2.1)]

theorem congr (h : IsNext p k o) (hpq : ∀ i, p i ↔ q i) : IsNext q k o := by
  have heq : p = q := funext fun i => propext (hpq i)
  rwa [← heq]

def least (o o' : Option κ) : Option κ :=
  match o' with
  | none => o
  | some j' => if o.all fun j => decide (j' < j) then some j' else o

theorem or (h : IsNext p k o) (h' : IsNext q k o') : IsNext (fun i => p i ∨ q i) k (least o o') := by
  cases o' with
  | none =>
    cases o with
    | none => exact fun i hi => hi.elim (h i) (h' i)
    | some j => exact ⟨.inl h.1, h.2.1, fun i hi hlt => hi.elim (fun hi => h.2.2 i hi hlt) fun hi => absurd hlt (h' i hi)⟩
  | some j' =>
    cases o with
    | none => exact ⟨.inr h'.1, h'.2.1, fun i hi hlt => hi.elim (fun hi => absurd hlt (h i hi)) fun hi => h'.2.2 i hi hlt⟩
    | some j =>
      rw [least]
      split
      next hlt =>
        have hlt := of_decide_eq_true hlt
        exact ⟨.inr h'.1, h'.2.1, fun i hi hki =>
          hi.elim (fun hi => hlt.le.trans (h.2.2 i hi hki)) fun hi => h'.2.2 i hi hki⟩
      next hge =>
        have hle := le_of_not_gt fun hlt => hge (decide_eq_true hlt)
        exact ⟨.inl h.1, h.2.1, fun i hi hki =>
          hi.elim (fun hi => h.2.2 i hi hki) fun hi => hle.trans (h'.2.2 i hi hki)⟩

/-- Keys before `last`, if there is a last one. -/
def before (last : Option κ) (i : κ) : Bool := last.all fun l => decide (i < l)

theorem before_of_le {last : Option κ} {i j : κ} (hij : i ≤ j) (hj : before last j = true) : before last i = true := by
  cases last with
  | none => rfl
  | some l => exact decide_eq_true (lt_of_le_of_lt hij (of_decide_eq_true hj))

theorem filter (h : IsNext p k o) (last : Option κ) :
    IsNext (fun i => p i ∧ before last i = true) k (o.filter (before last)) := by
  cases o with
  | none => exact fun i hi => h i hi.1
  | some j =>
    rw [Option.filter_some]
    split
    next hbefore => exact ⟨⟨h.1, hbefore⟩, h.2.1, fun i hi hlt => h.2.2 i hi.1 hlt⟩
    next hbefore => exact fun i hi hlt => hbefore (before_of_le (h.2.2 i hi.1 hlt) hi.2)

/-- The next key with `p` from which on `q` fails, at most `fuel` keys with `q` being passed. -/
def skip (next : κ → Option κ) (q : κ → Bool) : ℕ → κ → Option κ
  | 0, _ => none
  | fuel + 1, k =>
    match next k with
    | none => none
    | some j => if q j then skip next q fuel j else some j

theorem skip_spec {next : κ → Option κ} {q : κ → Bool} (size : κ → ℕ) (hnext : ∀ k, IsNext p k (next k))
    (hsize : ∀ k j, k < j → q j = true → size j < size k) {fuel : ℕ} (k : κ) (hfuel : size k < fuel) :
    IsNext (fun i => p i ∧ q i = false) k (skip next q fuel k) := by
  induction fuel generalizing k with
  | zero => exact absurd hfuel (Nat.not_lt_zero _)
  | succ fuel ih =>
    have h := hnext k
    rw [skip]
    split
    next hnone =>
      rw [hnone] at h
      exact fun i hi => h i hi.1
    next j hsome =>
      rw [hsome] at h
      split
      next hq =>
        -- a key between `k` and `j` would be the next one
        have hrest := ih j (Nat.lt_of_lt_of_le (hsize k j h.2.1 hq) (Nat.lt_succ_iff.mp hfuel))
        have hafter : ∀ i, p i ∧ q i = false → k < i → j < i := fun i hi hlt => by
          refine lt_of_le_of_ne (h.2.2 i hi.1 hlt) ?_
          rintro rfl
          rw [hq] at hi
          cases hi.2
        cases hskip : skip next q fuel j with
        | none =>
          rw [hskip] at hrest
          exact fun i hi hlt => hrest i hi (hafter i hi hlt)
        | some j' =>
          rw [hskip] at hrest
          exact ⟨hrest.1, h.2.1.trans hrest.2.1, fun i hi hlt => hrest.2.2 i hi (hafter i hi hlt)⟩
      next hq =>
        exact ⟨⟨h.1, Bool.eq_false_iff.mpr hq⟩, h.2.1, fun i hi hlt => h.2.2 i hi.1 hlt⟩

end IsNext

/-! ## Maps -/

namespace SortedMap

def empty : SortedMap κ α := ⟨[], List.Pairwise.nil⟩

def findIn (k : κ) (l : List (κ × α)) : Option α := (l.find? fun e => e.1 = k).map Prod.snd

def setIn (k : κ) (a : α) : List (κ × α) → List (κ × α)
  | [] => [(k, a)]
  | e :: rest => if k < e.1 then (k, a) :: e :: rest else if k = e.1 then (k, a) :: rest else e :: setIn k a rest

variable {k : κ} {a : α} {e : κ × α} {l : List (κ × α)}

theorem mem_setIn (h : l.Pairwise fun a b => a.1 < b.1) : e ∈ setIn k a l ↔ e = (k, a) ∨ e ∈ l ∧ e.1 ≠ k := by
  induction l with
  | nil => simp [setIn]
  | cons e' rest ih =>
    obtain ⟨hhead, hrest⟩ := List.pairwise_cons.mp h
    rw [setIn]
    split
    next hlt =>
      rw [List.mem_cons]
      refine or_congr_right ⟨fun he => ⟨he, ?_⟩, And.left⟩
      rcases List.mem_cons.mp he with rfl | he
      · exact hlt.ne'
      · exact (hlt.trans (hhead e he)).ne'
    next hnlt =>
      split
      next heq =>
        subst heq
        rw [List.mem_cons]
        refine or_congr_right ⟨fun he => ⟨List.mem_cons_of_mem _ he, (hhead e he).ne'⟩, ?_⟩
        rintro ⟨he, hne⟩
        rcases List.mem_cons.mp he with rfl | he
        · exact absurd rfl hne
        · exact he
      next hne =>
        rw [List.mem_cons, ih hrest]
        constructor
        · rintro (rfl | he | ⟨he, hek⟩)
          · exact .inr ⟨List.mem_cons_self, Ne.symm hne⟩
          · exact .inl he
          · exact .inr ⟨List.mem_cons_of_mem _ he, hek⟩
        · rintro (he | ⟨he, hek⟩)
          · exact .inr (.inl he)
          · exact (List.mem_cons.mp he).imp id fun he => .inr ⟨he, hek⟩

theorem length_setIn_le (l : List (κ × α)) : (setIn k a l).length ≤ l.length + 1 := by
  induction l with
  | nil => simp [setIn]
  | cons e rest ih =>
    rw [setIn]
    split_ifs <;> simp [ih]

theorem sorted_setIn (h : l.Pairwise fun a b => a.1 < b.1) : (setIn k a l).Pairwise fun a b => a.1 < b.1 := by
  induction l with
  | nil => exact List.pairwise_singleton _ _
  | cons e' rest ih =>
    obtain ⟨hhead, hrest⟩ := List.pairwise_cons.mp h
    rw [setIn]
    split
    next hlt =>
      refine List.pairwise_cons.mpr ⟨fun e he => ?_, h⟩
      rcases List.mem_cons.mp he with rfl | he
      · exact hlt
      · exact hlt.trans (hhead e he)
    next hnlt =>
      split
      next heq =>
        subst heq
        exact List.pairwise_cons.mpr ⟨hhead, hrest⟩
      next hne =>
        refine List.pairwise_cons.mpr ⟨fun e he => ?_, ih hrest⟩
        rcases (mem_setIn hrest).mp he with rfl | ⟨he, -⟩
        · exact lt_of_le_of_ne (le_of_not_gt hnlt) (Ne.symm hne)
        · exact hhead e he

variable (m : SortedMap κ α)

def find (k : κ) : Option α := findIn k m.entries

def set (k : κ) (a : α) : SortedMap κ α := ⟨setIn k a m.entries, sorted_setIn m.sorted⟩

def erase (k : κ) : SortedMap κ α := ⟨m.entries.filter fun e => e.1 ≠ k, m.sorted.filter _⟩

def upperBound (k : κ) : List (κ × α) := m.entries.filter fun e => k < e.1

def next (k : κ) : Option κ := (m.upperBound k).head?.map Prod.fst

variable {m} {m' : SortedMap κ α} {j : κ}

theorem findIn_eq_some (h : l.Pairwise fun a b => a.1 < b.1) : findIn k l = some a ↔ (k, a) ∈ l := by
  induction l with
  | nil => simp [findIn]
  | cons e rest ih =>
    obtain ⟨hhead, hrest⟩ := List.pairwise_cons.mp h
    rw [findIn, List.find?_cons, List.mem_cons]
    by_cases hk : e.1 = k
    · rw [decide_eq_true hk, Option.map_some, Option.some.injEq]
      constructor
      · rintro rfl
        exact .inl (by rw [← hk])
      · rintro (he | he)
        · rw [← he]
        · exact absurd (hhead (k, a) he) (by rw [hk]; exact lt_irrefl k)
    · rw [decide_eq_false hk]
      refine (ih hrest).trans ⟨.inr, fun he => he.resolve_left ?_⟩
      rintro rfl
      exact hk rfl

theorem find_eq_some : m.find k = some a ↔ (k, a) ∈ m.entries := findIn_eq_some m.sorted

theorem find_set_self : (m.set k a).find k = some a := find_eq_some.mpr ((mem_setIn m.sorted).mpr (.inl rfl))

theorem find_set_ne (h : j ≠ k) : (m.set k a).find j = m.find j := by
  refine Option.ext fun b => ?_
  rw [find_eq_some, find_eq_some, set, mem_setIn m.sorted]
  refine ⟨fun hb => ?_, fun hb => .inr ⟨hb, h⟩⟩
  rcases hb with hb | ⟨hb, -⟩
  · exact absurd (congrArg Prod.fst hb) h
  · exact hb

theorem find_erase_self : (m.erase k).find k = none := by
  refine Option.eq_none_iff_forall_not_mem.mpr fun b hb => ?_
  have hmem := List.mem_filter.mp (find_eq_some.mp hb)
  exact of_decide_eq_true hmem.2 rfl

theorem find_erase_ne (h : j ≠ k) : (m.erase k).find j = m.find j := by
  refine Option.ext fun b => ?_
  rw [find_eq_some, find_eq_some, erase, List.mem_filter]
  exact ⟨And.left, fun hb => ⟨hb, decide_eq_true h⟩⟩

theorem ext_find (h : ∀ k, m.find k = m'.find k) : m = m' := by
  have hmem : ∀ e, e ∈ m.entries ↔ e ∈ m'.entries := by
    rintro ⟨k, a⟩
    rw [← find_eq_some, ← find_eq_some, h]
  have hnodup : ∀ m : SortedMap κ α, m.entries.Nodup := fun m =>
    m.sorted.imp fun hlt heq => absurd hlt (by rw [heq]; exact lt_irrefl _)
  have hperm := (List.perm_ext_iff_of_nodup (hnodup m) (hnodup m')).mpr hmem
  have heq : m.entries = m'.entries := by
    refine hperm.eq_of_pairwise (fun a b ha hb hab hba => ?_) m.sorted m'.sorted
    exact absurd (hab.trans hba) (lt_irrefl _)
  cases m
  cases m'
  cases heq
  rfl

theorem isNext_head {p : κ × α → Bool} :
    IsNext (fun j => ∃ a, (j, a) ∈ m.entries ∧ p (j, a) = true) k
      (((m.upperBound k).filter p).head?.map Prod.fst) := by
  have hsorted : ((m.upperBound k).filter p).Pairwise fun a b => a.1 < b.1 := (m.sorted.filter _).filter _
  have hmem : ∀ e, e ∈ (m.upperBound k).filter p ↔ (e ∈ m.entries ∧ k < e.1) ∧ p e = true := by
    intro e
    rw [List.mem_filter, upperBound, List.mem_filter, decide_eq_true_iff]
  cases hl : (m.upperBound k).filter p with
  | nil =>
    rintro i ⟨a, ha, hp⟩ hlt
    have hin := (hmem (i, a)).mpr ⟨⟨ha, hlt⟩, hp⟩
    rw [hl] at hin
    cases hin
  | cons e rest =>
    have he := (hmem e).mp (hl ▸ List.mem_cons_self)
    rw [hl] at hsorted
    refine ⟨⟨e.2, he.1.1, he.2⟩, he.1.2, ?_⟩
    rintro i ⟨a, ha, hp⟩ hlt
    have hin := (hmem (i, a)).mpr ⟨⟨ha, hlt⟩, hp⟩
    rw [hl] at hin
    rcases List.mem_cons.mp hin with hin | hin
    · rw [← hin]
    · exact ((List.pairwise_cons.mp hsorted).1 _ hin).le

theorem isNext_next : IsNext (fun j => (m.find j).isSome = true) k (m.next k) := by
  have h := isNext_head (m := m) (k := k) (p := fun _ => true)
  rw [List.filter_true] at h
  refine h.congr fun j => ?_
  rw [Option.isSome_iff_exists]
  exact exists_congr fun a => by rw [find_eq_some, and_iff_left rfl]

theorem length_upperBound_lt (hlt : k < j) (hj : (m.find j).isSome = true) :
    (m.upperBound j).length < (m.upperBound k).length := by
  obtain ⟨a, ha⟩ := Option.isSome_iff_exists.mp hj
  have hin : (j, a) ∈ m.upperBound k := List.mem_filter.mpr ⟨find_eq_some.mp ha, decide_eq_true hlt⟩
  have hsub : m.upperBound j = (m.upperBound k).filter fun e => j < e.1 := by
    rw [upperBound, upperBound, List.filter_filter]
    refine List.filter_congr fun e _ => ?_
    by_cases hje : j < e.1
    · simp [hje, hlt.trans hje]
    · simp [hje]
  rw [hsub]
  exact List.length_filter_lt_length_iff_exists.mpr ⟨(j, a), hin, by simp⟩

end SortedMap
