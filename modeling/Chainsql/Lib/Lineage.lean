import Mathlib.Data.Multiset.Filter

/-!
# Lineages

Objects with a numbered history: `ancestor a s` is the id of the ancestor of `a` with number `s`, and
`mismatch a b` the first number at which two histories may differ. Under the laws of a lineage an id
fixes its number and everything before it, so that the positions `(s, id)` form a tree. `Below L p q`
says that position `p` lies on the history of position `q`. `Chain` is the lineage of all chains of
blocks, `Line` that of a single chain.
-/

class Lineage (L : Type*) (ID : outParam (Type*)) where
  genesis : L
  seq : L → Nat
  ancestor : L → Nat → ID
  mismatch : L → L → Nat

namespace Lineage

variable {L ID : Type*} [Lineage L ID]

def id (a : L) : ID := ancestor a (seq a)

def pos (a : L) : Nat × ID := (seq a, id a)

def Passes (a : L) (p : Nat × ID) : Prop := p.1 ≤ seq a ∧ ancestor a p.1 = p.2

instance [DecidableEq ID] (a : L) (p : Nat × ID) : Decidable (Passes a p) :=
  inferInstanceAs (Decidable (_ ∧ _))

variable (L) in
def Below (p q : Nat × ID) : Prop := p.1 ≤ q.1 ∧ ∃ a : L, Passes a p ∧ Passes a q

theorem passes_ancestor {a : L} {s : Nat} (hs : s ≤ seq a) : Passes a (s, ancestor a s) := ⟨hs, rfl⟩

theorem passes_pos (a : L) : Passes a (pos a) := ⟨Nat.le_refl _, rfl⟩

end Lineage

open Lineage in
class LawfulLineage (L : Type*) {ID : outParam (Type*)} [Lineage L ID] : Prop where
  seq_genesis : seq (genesis : L) = 0
  ancestor_zero : ∀ a : L, ancestor a 0 = ancestor (genesis : L) 0
  mismatch_le_left : ∀ a b : L, mismatch a b ≤ seq a + 1
  mismatch_le_right : ∀ a b : L, mismatch a b ≤ seq b + 1
  ancestor_eq : ∀ (a b : L) s, s < mismatch a b → ancestor a s = ancestor b s
  ancestor_ne : ∀ a b : L, mismatch a b ≤ seq a → mismatch a b ≤ seq b →
    ancestor a (mismatch a b) ≠ ancestor b (mismatch a b)
  unique_history : ∀ (a b : L) s p, s ≤ seq a → s ≤ seq b → ancestor a s = ancestor b s → p ≤ s →
    ancestor a p = ancestor b p
  seq_of_id : ∀ (a b : L) s t, s ≤ seq a → t ≤ seq b → ancestor a s = ancestor b t → s = t
  eq_of_id : ∀ a b : L, Lineage.id a = Lineage.id b → a = b

namespace Lineage

variable {L ID : Type*} [Lineage L ID] [LawfulLineage L] {a b : L} {s : Nat} {p q r : Nat × ID}

theorem lt_mismatch_iff (ha : s ≤ seq a) (hb : s ≤ seq b) :
    s < mismatch a b ↔ ancestor a s = ancestor b s := by
  constructor
  · exact LawfulLineage.ancestor_eq a b s
  · intro h
    by_contra hlt
    have hle : mismatch a b ≤ s := by omega
    refine LawfulLineage.ancestor_ne a b (hle.trans ha) (hle.trans hb) ?_
    exact LawfulLineage.unique_history a b s _ ha hb h hle

theorem zero_lt_mismatch (a b : L) : 0 < mismatch a b := by
  rw [lt_mismatch_iff (Nat.zero_le _) (Nat.zero_le _), LawfulLineage.ancestor_zero a,
    LawfulLineage.ancestor_zero b]

theorem Passes.of_passes (hp : Passes a p) (hq : Passes a q) (hle : p.1 ≤ q.1) (hb : Passes b q) :
    Passes b p := by
  refine ⟨hle.trans hb.1, ?_⟩
  rw [← hp.2]
  exact LawfulLineage.unique_history b a q.1 p.1 hb.1 hq.1 (hb.2.trans hq.2.symm) hle

theorem below_iff (hq : Passes a q) : Below L p q ↔ p.1 ≤ q.1 ∧ Passes a p := by
  constructor
  · rintro ⟨hle, b, hbp, hbq⟩
    exact ⟨hle, hbp.of_passes hbq hle hq⟩
  · rintro ⟨hle, hp⟩
    exact ⟨hle, a, hp, hq⟩

theorem Below.trans (hpq : Below L p q) (hqr : Below L q r) : Below L p r := by
  obtain ⟨hle, a, hp, hq⟩ := hpq
  obtain ⟨hle', b, hq', hr⟩ := hqr
  exact ⟨hle.trans hle', b, hp.of_passes hq hle hq', hr⟩

theorem below_pos_iff : Below L p (pos a) ↔ Passes a p := by
  rw [below_iff (passes_pos a)]
  exact and_iff_right_of_imp And.left

theorem pos_injective : Function.Injective (pos : L → Nat × ID) := by
  intro a b hab
  exact LawfulLineage.eq_of_id a b (congrArg Prod.snd hab)

theorem pos_eq_of_id_eq {b : L} (hs : s ≤ seq b) (h : ancestor b s = id a) : (s, ancestor b s) = pos a := by
  refine Prod.ext ?_ h
  exact LawfulLineage.seq_of_id b a s (seq a) hs (Nat.le_refl _) h

end Lineage

structure Chain (α : Type*) where
  blocks : List α
deriving DecidableEq

namespace Chain

variable {α : Type*} [DecidableEq α]

def common : List α → List α → Nat
  | a :: as, b :: bs => if a = b then common as bs + 1 else 0
  | _, _ => 0

theorem common_le (as bs : List α) : common as bs ≤ as.length ∧ common as bs ≤ bs.length := by
  induction as generalizing bs with
  | nil => simp [common]
  | cons a as ih =>
    cases bs with
    | nil => simp [common]
    | cons b bs =>
      have := ih bs
      simp only [common, List.length_cons]
      split <;> omega

theorem take_eq_iff {as bs : List α} {s : Nat} (ha : s ≤ as.length) (hb : s ≤ bs.length) :
    as.take s = bs.take s ↔ s ≤ common as bs := by
  induction as generalizing bs s with
  | nil => simp_all [common]
  | cons a as ih =>
    cases bs with
    | nil => simp_all [common]
    | cons b bs =>
      cases s with
      | zero => simp
      | succ s =>
        have ha : s ≤ as.length := by simpa using ha
        have hb : s ≤ bs.length := by simpa using hb
        have := ih ha hb
        simp only [List.take_succ_cons, List.cons.injEq, common, this]
        split <;> simp_all

instance : Lineage (Chain α) (List α) where
  genesis := ⟨[]⟩
  seq c := c.blocks.length
  ancestor c s := c.blocks.take s
  mismatch a b := common a.blocks b.blocks + 1

instance : LawfulLineage (Chain α) where
  seq_genesis := rfl
  ancestor_zero _ := rfl
  mismatch_le_left a b := Nat.succ_le_succ (common_le a.blocks b.blocks).1
  mismatch_le_right a b := Nat.succ_le_succ (common_le a.blocks b.blocks).2
  ancestor_eq a b s hs := by
    have hle := common_le a.blocks b.blocks
    have hs : s ≤ common a.blocks b.blocks := Nat.le_of_lt_succ hs
    exact (take_eq_iff (hs.trans hle.1) (hs.trans hle.2)).mpr hs
  ancestor_ne a b ha hb heq := Nat.not_succ_le_self _ ((take_eq_iff ha hb).mp heq)
  unique_history a b s p _ _ heq hp := by
    have := congrArg (List.take p) heq
    simpa only [Lineage.ancestor, List.take_take, min_eq_left hp] using this
  seq_of_id a b s t hs ht heq := by
    have hs : s ≤ a.blocks.length := hs
    have ht : t ≤ b.blocks.length := ht
    have := congrArg List.length heq
    simpa only [Lineage.ancestor, List.length_take, min_eq_left hs, min_eq_left ht] using this
  eq_of_id a b h := by
    obtain ⟨as⟩ := a
    obtain ⟨bs⟩ := b
    have h : as.take as.length = bs.take bs.length := h
    rw [List.take_length, List.take_length] at h
    rw [h]

end Chain

structure Line where
  number : Nat
deriving DecidableEq

instance : Lineage Line Nat where
  genesis := ⟨0⟩
  seq a := a.number
  ancestor _ s := s
  mismatch a b := min a.number b.number + 1

instance : LawfulLineage Line where
  seq_genesis := rfl
  ancestor_zero _ := rfl
  mismatch_le_left _ _ := Nat.succ_le_succ (Nat.min_le_left _ _)
  mismatch_le_right _ _ := Nat.succ_le_succ (Nat.min_le_right _ _)
  ancestor_eq _ _ _ _ := rfl
  ancestor_ne a b ha hb := by
    have ha : min a.number b.number + 1 ≤ a.number := ha
    have hb : min a.number b.number + 1 ≤ b.number := hb
    omega
  unique_history _ _ _ _ _ _ _ _ := rfl
  seq_of_id _ _ _ _ _ _ h := h
  eq_of_id a b h := by
    obtain ⟨a⟩ := a
    obtain ⟨b⟩ := b
    exact congrArg Line.mk h
