import Mathlib.Algebra.Ring.Parity
import Mathlib.Data.Finset.Card

/-!
# Ballots and quorums

Voters cast ballots, and a ballot that a quorum of them has cast is certified. When any two quorums
share a voter and no voter casts two ballots in one round, at most one ballot per round is certified.

Where some voters count twice, two quorums share fewer of them. `overlap_iff` says exactly when they
still share more than a given number.
-/

namespace Quorum

variable {α β ι : Type*} {voters : Finset α} {quorum : ℕ} {cast cast' : α → β → Prop} {b b' : β}

/-- A quorum of the voters has cast the ballot. -/
def Certified (voters : Finset α) (quorum : ℕ) (cast : α → β → Prop) (b : β) : Prop :=
  ∃ signers ⊆ voters, quorum ≤ signers.card ∧ ∀ a ∈ signers, cast a b

theorem Certified.mono (hb : Certified voters quorum cast b) (hle : ∀ a, cast a b → cast' a b) :
    Certified voters quorum cast' b := by
  obtain ⟨signers, hsub, hcard, hcast⟩ := hb
  exact ⟨signers, hsub, hcard, fun a ha => hle a (hcast a ha)⟩

theorem Certified.unique [DecidableEq α] (hq : voters.card < 2 * quorum) (round : β → ι)
    (honce : ∀ a b b', cast a b → cast a b' → round b = round b' → b = b')
    (hb : Certified voters quorum cast b) (hb' : Certified voters quorum cast b')
    (hround : round b = round b') : b = b' := by
  obtain ⟨signers, hsub, hcard, hcast⟩ := hb
  obtain ⟨signers', hsub', hcard', hcast'⟩ := hb'
  have hmeet : (signers ∩ signers').Nonempty :=
    Finset.inter_nonempty_of_card_lt_card_add_card hsub hsub' (by omega)
  obtain ⟨a, ha⟩ := hmeet
  rw [Finset.mem_inter] at ha
  exact honce a b b' (hcast a ha.1) (hcast' a ha.2) hround

/-! ## Voters that count twice -/

section Weight

variable [DecidableEq α] {twice s t : Finset α}

/-- The weight of a set of voters when those in `twice` count two. -/
def weight (twice s : Finset α) : ℕ := s.card + (s ∩ twice).card

theorem weight_union_add_weight_inter :
    weight twice (s ∪ t) + weight twice (s ∩ t) = weight twice s + weight twice t := by
  have hall := Finset.card_union_add_card_inter s t
  have htwice := Finset.card_union_add_card_inter (s ∩ twice) (t ∩ twice)
  rw [← Finset.union_inter_distrib_right, ← Finset.inter_inter_distrib_right] at htwice
  unfold weight
  omega

theorem weight_union (h : Disjoint s t) : weight twice (s ∪ t) = weight twice s + weight twice t := by
  rw [← weight_union_add_weight_inter, Finset.disjoint_iff_inter_eq_empty.mp h]
  rfl

theorem weight_mono (h : s ⊆ t) : weight twice s ≤ weight twice t :=
  Nat.add_le_add (Finset.card_le_card h) (Finset.card_le_card (Finset.inter_subset_inter_right h))

theorem weight_of_subset (h : s ⊆ twice) : weight twice s = 2 * s.card := by
  rw [weight, Finset.inter_eq_left.mpr h, Nat.two_mul]

theorem weight_of_disjoint (h : Disjoint s twice) : weight twice s = s.card := by
  rw [weight, Finset.disjoint_iff_inter_eq_empty.mp h]
  rfl

variable {doubles quorum shared : ℕ} {members : Finset α}

/-- Weights one and two, `doubles` and `singles` of them, fall into two heaps of at least `half` each,
unless there is nothing to spare and a two would have to be split. -/
theorem exists_halves {singles half : ℕ} (htotal : 2 * half ≤ 2 * doubles + singles)
    (hodd : ¬ (singles = 0 ∧ half = doubles ∧ Odd half)) :
    ∃ a ≤ doubles, ∃ b ≤ singles, half ≤ 2 * a + b ∧ half ≤ 2 * (doubles - a) + (singles - b) := by
  rw [Nat.odd_iff] at hodd
  by_cases hfew : doubles < half / 2
  · exact ⟨doubles, le_refl _, half - 2 * doubles, by omega, by omega, by omega⟩
  · by_cases hsingles : singles = 0
    · exact ⟨(half + 1) / 2, by omega, 0, by omega, by omega, by omega⟩
    · exact ⟨half / 2, by omega, half % 2, by omega, by omega, by omega⟩

/-- How many voters of each kind two quorums have and share: `x` and `y` are the doubles and singles
of the first one, `i` and `j` those of them that the second one has besides all others. -/
theorem exists_quorum_sizes {members : ℕ} (hdoubles : doubles ≤ members) (hshared : 2 * shared ≤ quorum)
    (htotal : 2 * quorum ≤ members + doubles + shared + min shared doubles)
    (hodd : ¬ (members = doubles ∧ doubles + shared = quorum ∧ Odd quorum)) :
    ∃ x ≤ doubles, ∃ y ≤ members - doubles, ∃ i ≤ x, ∃ j ≤ y, i + j ≤ shared ∧ quorum ≤ 2 * x + y
      ∧ quorum + (2 * x + y) ≤ members + doubles + (2 * i + j) := by
  rw [Nat.odd_iff] at hodd
  -- The shared voters are doubles as far as there are any.
  have hhalves : ∃ a ≤ doubles - min shared doubles,
      ∃ b ≤ members - doubles - (shared - min shared doubles),
        quorum - (shared + min shared doubles) ≤ 2 * a + b
        ∧ quorum - (shared + min shared doubles) ≤ 2 * (doubles - min shared doubles - a)
          + (members - doubles - (shared - min shared doubles) - b) := by
    refine exists_halves ?_ ?_
    · omega
    · rw [Nat.odd_iff]
      omega
  obtain ⟨a, ha, b, hb, hfirst, hsecond⟩ := hhalves
  refine ⟨min shared doubles + a, ?_, shared - min shared doubles + b, ?_, min shared doubles, ?_,
    shared - min shared doubles, ?_, ?_, ?_, ?_⟩ <;> omega

theorem exists_small_overlap (htwice : twice ⊆ members) (hshared : 2 * shared ≤ quorum)
    (htotal : 2 * quorum ≤ members.card + twice.card + shared + min shared twice.card)
    (hodd : ¬ (members.card = twice.card ∧ twice.card + shared = quorum ∧ Odd quorum)) :
    ∃ s ⊆ members, ∃ t ⊆ members,
      quorum ≤ weight twice s ∧ quorum ≤ weight twice t ∧ (s ∩ t).card ≤ shared := by
  obtain ⟨x, hx, y, hy, i, hi, j, hj, hij, hfirst, hsecond⟩ :=
    exists_quorum_sizes (Finset.card_le_card htwice) hshared htotal hodd
  rw [← Finset.card_sdiff_of_subset htwice] at hy
  obtain ⟨doubles, hdoubles, rfl⟩ := Finset.exists_subset_card_eq hx
  obtain ⟨singles, hsingles, rfl⟩ := Finset.exists_subset_card_eq hy
  obtain ⟨doubles', hdoubles', rfl⟩ := Finset.exists_subset_card_eq hi
  obtain ⟨singles', hsingles', rfl⟩ := Finset.exists_subset_card_eq hj
  have hapart : ∀ {u w : Finset α}, u ⊆ twice → w ⊆ members \ twice → Disjoint u w := fun hu hw =>
    Finset.disjoint_of_subset_left hu (Finset.disjoint_of_subset_right hw Finset.disjoint_sdiff)
  have hweight : ∀ {u w : Finset α}, u ⊆ twice → w ⊆ members \ twice →
      weight twice (u ∪ w) = 2 * u.card + w.card := by
    intro u w hu hw
    rw [weight_union (hapart hu hw), weight_of_subset hu,
      weight_of_disjoint (Finset.disjoint_of_subset_left hw Finset.sdiff_disjoint)]
  have hs : doubles ∪ singles ⊆ members :=
    Finset.union_subset (hdoubles.trans htwice) (hsingles.trans Finset.sdiff_subset)
  have hsub : doubles' ∪ singles' ⊆ doubles ∪ singles := Finset.union_subset_union hdoubles' hsingles'
  refine ⟨doubles ∪ singles, hs, members \ (doubles ∪ singles) ∪ (doubles' ∪ singles'),
    Finset.union_subset Finset.sdiff_subset (hsub.trans hs), ?_, ?_, ?_⟩
  · rw [hweight hdoubles hsingles]
    exact hfirst
  · have hrest : weight twice (members \ (doubles ∪ singles)) + weight twice (doubles ∪ singles)
        = weight twice members := by
      rw [← weight_union Finset.sdiff_disjoint, Finset.sdiff_union_of_subset hs]
    have hall : weight twice members = members.card + twice.card := by
      rw [weight, Finset.inter_eq_right.mpr htwice]
    rw [weight_union (Finset.disjoint_of_subset_right hsub Finset.sdiff_disjoint),
      hweight (hdoubles'.trans hdoubles) (hsingles'.trans hsingles)]
    rw [hweight hdoubles hsingles] at hrest
    omega
  · have hinter : (doubles ∪ singles) ∩ (members \ (doubles ∪ singles) ∪ (doubles' ∪ singles'))
        = doubles' ∪ singles' := by
      rw [Finset.inter_union_distrib_left, Finset.inter_sdiff_self, Finset.empty_union,
        Finset.inter_eq_right.mpr hsub]
    rw [hinter, Finset.card_union_of_disjoint (hapart (hdoubles'.trans hdoubles) (hsingles'.trans hsingles))]
    exact hij

/-- Any two sets of members with the weight of a quorum share more than `shared` members. -/
theorem overlap_iff (htwice : twice ⊆ members) (hshared : 2 * shared ≤ quorum) :
    (∀ s ⊆ members, ∀ t ⊆ members, quorum ≤ weight twice s → quorum ≤ weight twice t →
        shared < (s ∩ t).card)
      ↔ members.card + twice.card + shared + min shared twice.card < 2 * quorum
        ∨ (members.card = twice.card ∧ twice.card + shared = quorum ∧ Odd quorum) := by
  constructor
  · intro hoverlap
    by_contra hcond
    rw [not_or, not_lt] at hcond
    obtain ⟨s, hs, t, ht, hqs, hqt, hsmall⟩ := exists_small_overlap htwice hshared hcond.1 hcond.2
    exact absurd (hoverlap s hs t ht hqs hqt) (not_lt.mpr hsmall)
  · intro hcond s hs t ht hqs hqt
    have hunion : s ∪ t ⊆ members := Finset.union_subset hs ht
    rcases hcond with hcond | ⟨hall, hquorum, hodd⟩
    · by_contra hsmall
      have hsum : weight twice (s ∪ t) + weight twice (s ∩ t) = weight twice s + weight twice t :=
        weight_union_add_weight_inter
      have hweight : weight twice (s ∪ t) ≤ weight twice members := weight_mono hunion
      have hmembers : weight twice members = members.card + twice.card := by
        rw [weight, Finset.inter_eq_right.mpr htwice]
      have hinter : weight twice (s ∩ t) ≤ (s ∩ t).card + min (s ∩ t).card twice.card :=
        Nat.add_le_add_left (le_min (Finset.card_le_card Finset.inter_subset_left)
          (Finset.card_le_card Finset.inter_subset_right)) _
      omega
    · -- All members count twice, so an odd quorum is exceeded.
      have heq : twice = members := Finset.eq_of_subset_of_card_le htwice (le_of_eq hall)
      subst heq
      rw [weight_of_subset hs] at hqs
      rw [weight_of_subset ht] at hqt
      rw [Nat.odd_iff] at hodd
      have hsum := Finset.card_union_add_card_inter s t
      have hle := Finset.card_le_card hunion
      omega

end Weight

end Quorum
