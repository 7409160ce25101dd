import Mathlib.Data.Multiset.Bind
import Chainsql.Trie.LedgerTrie

/-!
# The support by sequence number

A `seqSupport` table stands for the multiset of the sequence numbers that are supported.
-/

namespace Chainsql.LedgerTrie.SeqSupport

variable {l it : List (Nat × UInt32)} {s k bound b : Nat} {count v uncommitted : UInt32} {M : Multiset Nat}

def Counts : List (Nat × UInt32) → Multiset Nat → Prop
  | [], M => M = 0
  | (k, v) :: l, M => v ≠ 0 ∧ ∃ M', M = Multiset.replicate v.toNat k + M' ∧ (∀ x ∈ M', k < x) ∧ Counts l M'

theorem Counts.positive (h : Counts l M) : ∀ e ∈ l, e.2 ≠ 0 := by
  induction l generalizing M with
  | nil => simp
  | cons e l ih =>
    obtain ⟨hv, M', -, -, hl⟩ := h
    exact List.forall_mem_cons.mpr ⟨hv, ih hl⟩

theorem Counts.lookup (h : Counts l M) (s : Nat) : ((l.lookup s).getD 0).toNat = M.count s := by
  induction l generalizing M with
  | nil => rw [h]; rfl
  | cons e l ih =>
    obtain ⟨hv, M', rfl, hlt, hl⟩ := h
    rw [Multiset.count_add, Multiset.count_replicate, List.lookup_cons]
    by_cases hs : s = e.1
    · have hnone : M'.count s = 0 := Multiset.count_eq_zero.mpr fun hmem => (hlt s hmem).ne' hs
      simp [hs, ← hs ▸ hnone]
    · rw [beq_eq_false_iff_ne.mpr hs, if_neg (Ne.symm hs), zero_add, ih hl]

theorem Counts.add (h : Counts l M) (hpos : count ≠ 0) (hcount : M.card + count.toNat < 2 ^ 32) (s : Nat) :
    Counts (add s count l) (M + Multiset.replicate count.toNat s) := by
  induction l generalizing M with
  | nil => exact ⟨hpos, 0, by rw [h, add_comm], by simp, rfl⟩
  | cons e l ih =>
    obtain ⟨k, v⟩ := e
    obtain ⟨hv, M', rfl, hlt, hl⟩ := h
    rw [Multiset.card_add, Multiset.card_replicate] at hcount
    rw [SeqSupport.add]
    split
    next hs =>
      refine ⟨hpos, _, add_comm _ _, fun x hx => ?_, hv, M', rfl, hlt, hl⟩
      rcases Multiset.mem_add.mp hx with hx | hx
      · exact hs.trans_eq (Multiset.eq_of_mem_replicate hx).symm
      · exact hs.trans (hlt x hx)
    · split
      next hs =>
        have hadd : (v + count).toNat = v.toNat + count.toNat := by
          rw [UInt32.toNat_add]
          omega
        refine ⟨fun hzero => hv ?_, M', ?_, hlt, hl⟩
        · rw [← UInt32.toNat_inj, UInt32.toNat_zero] at hzero ⊢
          omega
        · rw [hadd, Multiset.replicate_add, hs, add_right_comm]
      next hk hs =>
        refine ⟨hv, _, add_assoc _ _ _, fun x hx => ?_, ih hl (by omega)⟩
        rcases Multiset.mem_add.mp hx with hx | hx
        · exact hlt x hx
        · rw [Multiset.eq_of_mem_replicate hx]
          omega

theorem Counts.remove (h : Counts l (M + Multiset.replicate count.toNat s)) : Counts (remove s count l) M := by
  induction l generalizing M with
  | nil => exact Multiset.le_zero.mp ((Multiset.le_add_right _ _).trans_eq h)
  | cons e l ih =>
    obtain ⟨k, v⟩ := e
    obtain ⟨hv, M', heq, hlt, hl⟩ := h
    have hcount := congrArg (Multiset.count s) heq
    rw [Multiset.count_add, Multiset.count_add, Multiset.count_replicate_self, Multiset.count_replicate] at hcount
    rw [SeqSupport.remove]
    by_cases hs : s = k
    · subst hs
      have hnone : M'.count s = 0 := Multiset.count_eq_zero.mpr fun hmem => lt_irrefl s (hlt s hmem)
      rw [if_pos rfl, hnone] at hcount
      have hsub : (v - count).toNat = v.toNat - count.toNat :=
        UInt32.toNat_sub_of_le _ _ (UInt32.le_iff_toNat_le.mpr (by omega))
      have hM : M = Multiset.replicate (v - count).toNat s + M' := by
        apply add_right_cancel (b := Multiset.replicate count.toNat s)
        rw [heq, add_right_comm, ← Multiset.replicate_add, hsub, Nat.sub_add_cancel (by omega)]
      rw [if_pos rfl]
      split
      next hzero =>
        rw [hM, hzero, UInt32.toNat_zero, Multiset.replicate_zero, zero_add]
        exact hl
      next hne => exact ⟨hne, M', hM, hlt, hl⟩
    · rw [if_neg (Ne.symm hs)] at hcount
      obtain ⟨N, rfl⟩ := Multiset.le_iff_exists_add.mp (Multiset.le_count_iff_replicate_le.mp (by omega :
        count.toNat ≤ M'.count s))
      rw [add_comm _ N, ← add_assoc] at heq
      rw [if_neg hs]
      exact ⟨hv, N, add_right_cancel heq, fun x hx => hlt x (Multiset.mem_add.mpr (.inr hx)), ih (add_comm _ N ▸ hl)⟩

/-! ### Reading the table -/

/-- The numbers below `bound` are read and counted by `uncommitted`; the others are left in `it`. -/
def Cursor (M : Multiset Nat) (bound : Nat) (uncommitted : UInt32) (it : List (Nat × UInt32)) : Prop :=
  M.countP (· < bound) = uncommitted.toNat ∧ Counts it (M.filter (bound ≤ ·))

theorem Counts.cursor (h : Counts l M) : Cursor M 0 0 l := by
  refine ⟨by simp, ?_⟩
  rwa [Multiset.filter_eq_self.mpr fun x _ => Nat.zero_le x]

namespace Cursor

theorem mono (h : Cursor M bound uncommitted it) (hb : bound ≤ b) (hit : ∀ x ∈ M, bound ≤ x → b ≤ x) :
    Cursor M b uncommitted it := by
  have hiff : ∀ x ∈ M, (b ≤ x ↔ bound ≤ x) := fun x hx => ⟨hb.trans, hit x hx⟩
  rw [Cursor, Multiset.filter_congr hiff]
  refine ⟨h.1 ▸ Multiset.countP_congr rfl fun x hx => ?_, h.2⟩
  rw [← Nat.not_le, ← Nat.not_le, hiff x hx]

theorem le_of_nil (h : Cursor M bound uncommitted []) (b : Nat) : ∀ x ∈ M, bound ≤ x → b ≤ x := fun x hx hle =>
  absurd (Multiset.mem_filter.mpr ⟨hx, hle⟩) (by rw [show M.filter (bound ≤ ·) = 0 from h.2]; simp)

theorem first (h : Cursor M bound uncommitted ((k, v) :: it)) : bound ≤ k ∧ ∀ x ∈ M, bound ≤ x → k ≤ x := by
  obtain ⟨-, hv, M', heq, hlt, -⟩ := h
  constructor
  · have hk : k ∈ M.filter (bound ≤ ·) := by
      rw [heq, Multiset.mem_add, Multiset.mem_replicate]
      exact .inl ⟨fun hzero => hv (UInt32.toNat_inj.mp hzero), rfl⟩
    exact (Multiset.mem_filter.mp hk).2
  · intro x hx hle
    rcases Multiset.mem_add.mp (heq ▸ Multiset.mem_filter.mpr ⟨hx, hle⟩) with hx | hx
    · exact (Multiset.eq_of_mem_replicate hx).ge
    · exact (hlt x hx).le

theorem next (hcard : M.card < 2 ^ 32) (h : Cursor M bound uncommitted ((k, v) :: it)) :
    Cursor M (k + 1) (uncommitted + v) it := by
  obtain ⟨hle, -⟩ := h.first
  obtain ⟨hcount, hv, M', heq, hlt, hit⟩ := h
  have hrest : M.filter (k + 1 ≤ ·) = M' := by
    have hfilter : M.filter (k + 1 ≤ ·) = (M.filter (bound ≤ ·)).filter (k + 1 ≤ ·) := by
      rw [Multiset.filter_filter]
      exact Multiset.filter_congr fun x _ => ⟨fun hx => ⟨hx, by omega⟩, And.left⟩
    rw [hfilter, heq, Multiset.filter_add, Multiset.filter_eq_nil.mpr, zero_add]
    · exact Multiset.filter_eq_self.mpr hlt
    intro x hx
    rw [Multiset.eq_of_mem_replicate hx]
    omega
  have hcards : ∀ b, M.countP (· < b) + (M.filter (b ≤ ·)).card = M.card := fun b => by
    rw [Multiset.card_eq_countP_add_countP (· < b) M, Multiset.countP_eq_card_filter (¬ · < b)]
    simp only [Nat.not_lt]
  have hold := hcards bound
  have hnew := hcards (k + 1)
  rw [heq, Multiset.card_add, Multiset.card_replicate] at hold
  rw [hrest] at hnew
  refine ⟨?_, hrest ▸ hit⟩
  rw [UInt32.toNat_add]
  omega

end Cursor

theorem takeBelow_spec (hcard : M.card < 2 ^ 32) (h : Cursor M bound uncommitted it) (hb : bound ≤ b) :
    Cursor M b (takeBelow b uncommitted it).1 (takeBelow b uncommitted it).2 := by
  induction it generalizing bound uncommitted with
  | nil => exact h.mono hb (h.le_of_nil b)
  | cons e it ih =>
    rw [takeBelow]
    split
    next hk => exact ih (h.next hcard) hk
    next hk => exact h.mono hb fun x hx hle => (Nat.not_lt.mp hk).trans (h.first.2 x hx hle)

/-- The walk along a span goes on as long as the support exceeds what is not committed, where `issued`
bounds from below the sequence numbers that count as committed. -/
theorem advance_spec (hcard : M.card < 2 ^ 32) {issued stop nextSeq : Nat} (support : UInt32)
    (h : Cursor M (max nextSeq issued) uncommitted it) (hstop : nextSeq ≤ stop) :
    ∃ seq' uncommitted' it', advance stop support nextSeq uncommitted it = (seq', uncommitted', it')
      ∧ nextSeq ≤ seq' ∧ seq' ≤ stop ∧ Cursor M (max seq' issued) uncommitted' it'
      ∧ (∀ y, nextSeq ≤ y → y < seq' → M.countP (· < max y issued) < support.toNat)
      ∧ (seq' < stop → support.toNat ≤ uncommitted'.toNat) := by
  induction it generalizing nextSeq uncommitted with
  | nil =>
    rw [advance]
    by_cases hlt : nextSeq < stop ∧ support > uncommitted
    · rw [if_pos hlt]
      refine ⟨stop, uncommitted, [], rfl, hstop, Nat.le_refl _, h.mono (by omega) (h.le_of_nil _), ?_, by omega⟩
      intro y hy _
      rw [(h.mono (by omega : _ ≤ max y issued) (h.le_of_nil _)).1]
      exact UInt32.lt_iff_toNat_lt.mp hlt.2
    · rw [if_neg hlt]
      refine ⟨nextSeq, uncommitted, [], rfl, Nat.le_refl _, hstop, h, by omega, ?_⟩
      intro hseq
      exact Nat.le_of_not_lt fun hgt => hlt ⟨hseq, UInt32.lt_iff_toNat_lt.mpr hgt⟩
  | cons e it ih =>
    obtain ⟨k, v⟩ := e
    rw [advance]
    by_cases hlt : nextSeq < stop ∧ support > uncommitted
    · have hsupport : uncommitted.toNat < support.toNat := UInt32.lt_iff_toNat_lt.mp hlt.2
      obtain ⟨hge, hrest⟩ := h.first
      have hmono : ∀ y, nextSeq ≤ y → max y issued ≤ k → Cursor M (max y issued) uncommitted ((k, v) :: it) :=
        fun y hy hyk => h.mono (by omega) fun x hx hle => hyk.trans (hrest x hx hle)
      rw [if_pos hlt]
      by_cases hk : k < stop
      · rw [if_pos hk]
        have hnext := h.next hcard
        rw [show k + 1 = max (k + 1) issued by omega] at hnext
        obtain ⟨seq', u', it', heq, hle, hstop', hcur, hbelow, hdone⟩ := ih hnext hk
        refine ⟨seq', u', it', heq, by omega, hstop', hcur, fun y hy hy' => ?_, hdone⟩
        by_cases hyk : y ≤ k
        · rwa [(hmono y hy (by omega)).1]
        · exact hbelow y (by omega) hy'
      · rw [if_neg hk]
        refine ⟨stop, uncommitted, _, rfl, hstop, Nat.le_refl _, hmono stop hstop (by omega), ?_, by omega⟩
        intro y hy hy'
        rwa [(hmono y hy (by omega)).1]
    · rw [if_neg hlt]
      refine ⟨nextSeq, uncommitted, _, rfl, Nat.le_refl _, hstop, h, by omega, ?_⟩
      intro hseq
      exact Nat.le_of_not_lt fun hgt => hlt ⟨hseq, UInt32.lt_iff_toNat_lt.mpr hgt⟩

end Chainsql.LedgerTrie.SeqSupport
