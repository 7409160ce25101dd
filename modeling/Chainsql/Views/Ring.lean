import Mathlib.Data.Finset.Sort
import Chainsql.Views.Directory

/-!
# The ring of a directory

The operations change single links and lists of keys. `Ring` is stated through `nextAt`, `prevAt` and
`indexesAt`, which tell these changes apart, so that a page that is linked to itself needs no case of its own.
The pages are linked in the order of their numbers, so that the set of them says what the links are.
-/

namespace Chainsql.Views

open Function

variable {κ : Type} {d d' : Dir κ} {n m a b a' b' l : ℕ} {page : Page κ} {P : Finset ℕ} {given given' : κ → Option ℕ}

/-! ## Fields of pages -/

section Fields

variable {β : Type} {f : Page κ → β} {old : Page κ}

theorem fieldAt_set : (fun m => ((d.set n page).find m).map f) =
    Function.update (fun m => (d.find m).map f) n (some (f page)) := by
  funext m
  by_cases h : m = n
  · rw [h, update_self, SortedMap.find_set_self, Option.map_some]
  · rw [update_of_ne h, SortedMap.find_set_ne h]

theorem fieldAt_erase : (fun m => ((d.erase n).find m).map f) =
    Function.update (fun m => (d.find m).map f) n none := by
  funext m
  by_cases h : m = n
  · rw [h, update_self, SortedMap.find_erase_self, Option.map_none]
  · rw [update_of_ne h, SortedMap.find_erase_ne h]

theorem fieldAt_set_same (hold : d.find n = some old) (hsame : f page = f old) :
    (fun m => ((d.set n page).find m).map f) = fun m => (d.find m).map f := by
  rw [fieldAt_set, hsame]
  exact update_eq_self_iff.mpr (congrArg (Option.map f) hold).symm

end Fields

/-- The fields of the pages, by their numbers. -/
structure Fields (d : Dir κ) (next prev : ℕ → Option ℕ) (indexes : ℕ → Option (List κ)) : Prop where
  next_eq : nextAt d = next
  prev_eq : prevAt d = prev
  indexes_eq : indexesAt d = indexes

namespace Fields

variable {next prev : ℕ → Option ℕ} {indexes : ℕ → Option (List κ)} (h : Fields d next prev indexes)
include h

theorem exists_page {is : List κ} (hn : indexes n = some is) : ∃ page, d.find n = some page ∧ page.indexes = is := by
  rw [← h.indexes_eq] at hn
  exact Option.map_eq_some_iff.mp hn

theorem set (n : ℕ) (page : Page κ) :
    Fields (d.set n page) (Function.update next n (some page.indexNext))
      (Function.update prev n (some page.indexPrevious)) (Function.update indexes n (some page.indexes)) := by
  obtain ⟨rfl, rfl, rfl⟩ := h
  exact ⟨fieldAt_set, fieldAt_set, fieldAt_set⟩

theorem erase (n : ℕ) : Fields (d.erase n) (Function.update next n none) (Function.update prev n none)
    (Function.update indexes n none) := by
  obtain ⟨rfl, rfl, rfl⟩ := h
  exact ⟨fieldAt_erase, fieldAt_erase, fieldAt_erase⟩

theorem setNext (hpage : d.find n = some page) (b : ℕ) :
    Fields (d.set n { page with indexNext := b }) (Function.update next n (some b)) prev indexes := by
  obtain ⟨rfl, rfl, rfl⟩ := h
  exact ⟨fieldAt_set, fieldAt_set_same hpage rfl, fieldAt_set_same hpage rfl⟩

theorem setPrev (hpage : d.find n = some page) (a : ℕ) :
    Fields (d.set n { page with indexPrevious := a }) next (Function.update prev n (some a)) indexes := by
  obtain ⟨rfl, rfl, rfl⟩ := h
  exact ⟨fieldAt_set_same hpage rfl, fieldAt_set, fieldAt_set_same hpage rfl⟩

theorem setIndexes (hpage : d.find n = some page) (is : List κ) :
    Fields (d.set n { page with indexes := is }) next prev (Function.update indexes n (some is)) := by
  obtain ⟨rfl, rfl, rfl⟩ := h
  exact ⟨fieldAt_set_same hpage rfl, fieldAt_set_same hpage rfl, fieldAt_set⟩

end Fields

theorem fields (d : Dir κ) : Fields d (nextAt d) (prevAt d) (indexesAt d) := ⟨rfl, rfl, rfl⟩

/-! ## The order of the pages -/

/-- `b` is the page after `a`, or the root if `a` is the last one. -/
def Next (P : Finset ℕ) (a b : ℕ) : Prop :=
  a ∈ P ∧ b ∈ P ∧ ((a < b ∧ ∀ c ∈ P, c ≤ a ∨ b ≤ c) ∨ b = 0 ∧ ∀ c ∈ P, c ≤ a)

theorem Next.right_unique (h : Next P a b) (h' : Next P a b') : b = b' := by
  obtain ⟨-, hb, h⟩ := h
  obtain ⟨-, hb', h'⟩ := h'
  rcases h with ⟨hlt, h⟩ | ⟨rfl, h⟩ <;> rcases h' with ⟨hlt', h'⟩ | ⟨rfl, h'⟩
  · have := h b' hb'
    have := h' b hb
    omega
  · have := h' b hb
    omega
  · have := h b' hb'
    omega
  · rfl

theorem Next.left_unique (h : Next P a b) (h' : Next P a' b) : a = a' := by
  obtain ⟨ha, -, h⟩ := h
  obtain ⟨ha', -, h'⟩ := h'
  rcases h with ⟨hlt, h⟩ | ⟨hb, h⟩ <;> rcases h' with ⟨hlt', h'⟩ | ⟨hb', h'⟩
  · have := h a' ha'
    have := h' a ha
    omega
  · omega
  · omega
  · exact le_antisymm (h' a ha) (h a' ha')

theorem Next.eq_zero (h : Next P n n) : n = 0 :=
  h.2.2.elim (fun hlt => absurd hlt.1 (lt_irrefl n)) And.left

theorem Next.le_last (h : Next P l 0) : ∀ c ∈ P, c ≤ l :=
  h.2.2.elim (fun hlt => absurd hlt.1 (Nat.not_lt_zero l)) And.right

theorem exists_next (h0 : 0 ∈ P) (ha : a ∈ P) : ∃ b, Next P a b := by
  by_cases hlast : ∀ c ∈ P, c ≤ a
  · exact ⟨0, ha, h0, .inr ⟨rfl, hlast⟩⟩
  · push Not at hlast
    obtain ⟨b, hb, hmin⟩ := Finset.exists_min_image (P.filter (a < ·)) id (by simpa [Finset.Nonempty] using hlast)
    simp only [Finset.mem_filter, id] at hb hmin
    exact ⟨b, ha, hb.1, .inl ⟨hb.2, fun c hc => (le_or_gt c a).imp_right fun hlt => hmin c ⟨hc, hlt⟩⟩⟩

theorem exists_prev (h0 : 0 ∈ P) (hb : b ∈ P) : ∃ a, Next P a b := by
  by_cases hroot : b = 0
  · obtain ⟨a, ha, hmax⟩ := Finset.exists_max_image P id ⟨0, h0⟩
    exact ⟨a, ha, hb, .inr ⟨hroot, hmax⟩⟩
  · obtain ⟨a, ha, hmax⟩ := Finset.exists_max_image (P.filter (· < b)) id ⟨0, by simp [h0]; omega⟩
    simp only [Finset.mem_filter, id] at ha hmax
    exact ⟨a, ha.1, hb, .inl ⟨ha.2, fun c hc => (lt_or_ge c b).imp_left fun hlt => hmax c ⟨hc, hlt⟩⟩⟩

/-- Two pages that get neighbours were so before, or were those of the removed page. -/
theorem Next.of_erase (h : Next (P.erase n) a b) (hn : n ∈ P) : Next P a b ∨ Next P a n ∧ Next P n b := by
  obtain ⟨ha, hb, h⟩ := h
  have ha := Finset.mem_of_mem_erase ha
  have hb := Finset.mem_of_mem_erase hb
  have hother : ∀ c ∈ P, c = n ∨ c ∈ P.erase n := fun c hc =>
    (eq_or_ne c n).imp_right fun hne => Finset.mem_erase.mpr ⟨hne, hc⟩
  rcases h with ⟨hlt, hgap⟩ | ⟨rfl, hmax⟩
  · by_cases hbetween : a < n ∧ n < b
    · refine .inr ⟨⟨ha, hn, .inl ⟨hbetween.1, fun c hc => ?_⟩⟩, ⟨hn, hb, .inl ⟨hbetween.2, fun c hc => ?_⟩⟩⟩
      all_goals
        have := (hother c hc).imp_right (hgap c)
        omega
    · refine .inl ⟨ha, hb, .inl ⟨hlt, fun c hc => ?_⟩⟩
      have := (hother c hc).imp_right (hgap c)
      omega
  · by_cases hlast : a < n
    · refine .inr ⟨⟨ha, hn, .inl ⟨hlast, fun c hc => ?_⟩⟩, ⟨hn, hb, .inr ⟨rfl, fun c hc => ?_⟩⟩⟩
      all_goals
        have := (hother c hc).imp_right (hmax c)
        omega
    · refine .inl ⟨ha, hb, .inr ⟨rfl, fun c hc => ?_⟩⟩
      have := (hother c hc).imp_right (hmax c)
      omega

theorem exists_isChain (h0 : 0 ∈ P) : ∃ ps, (0 :: ps).Nodup ∧ (∀ n, n ∈ 0 :: ps ↔ n ∈ P) ∧
    List.IsChain (Next P) (0 :: (ps ++ [0])) := by
  have hsorted : P.sort.Pairwise (· < ·) := P.sortedLT_sort.pairwise
  have hmem : ∀ n, n ∈ P.sort ↔ n ∈ P := fun n => P.mem_sort _
  generalize P.sort = ns at hsorted hmem
  obtain ⟨ps, rfl⟩ : ∃ ps, ns = 0 :: ps := by
    cases ns with
    | nil => exact absurd ((hmem 0).mpr h0) List.not_mem_nil
    | cons first ps =>
      refine ⟨ps, congrArg (· :: ps) ?_⟩
      rcases List.mem_cons.mp ((hmem 0).mpr h0) with h | h
      · exact h.symm
      · exact absurd (List.rel_of_pairwise_cons hsorted h) (Nat.not_lt_zero _)
  refine ⟨ps, hsorted.imp Nat.ne_of_lt, hmem, ?_⟩
  -- from any of the pages on
  suffices hfrom : ∀ (vs us : List ℕ) (a : ℕ), 0 :: ps = us ++ a :: vs → List.IsChain (Next P) (a :: (vs ++ [0])) from
    hfrom ps [] 0 rfl
  intro vs
  induction vs with
  | nil =>
    intro us a heq
    rw [heq] at hsorted hmem
    simp only [List.pairwise_append, List.mem_append, List.mem_singleton] at hsorted hmem
    refine List.isChain_pair.mpr ⟨(hmem a).mp (.inr rfl), h0, .inr ⟨rfl, fun c hc => ?_⟩⟩
    exact ((hmem c).mpr hc).elim (fun hc => (hsorted.2.2 c hc a rfl).le) fun hc => hc.le
  | cons b vs ih =>
    intro us a heq
    refine List.isChain_cons_cons.mpr ⟨?_, ih (us ++ [a]) b (by rw [heq, List.append_assoc]; rfl)⟩
    rw [heq] at hsorted hmem
    simp only [List.pairwise_append, List.pairwise_cons, List.mem_append, List.mem_cons] at hsorted hmem
    obtain ⟨-, ⟨ha, hb, -⟩, hus⟩ := hsorted
    refine ⟨(hmem a).mp (by simp), (hmem b).mp (by simp), .inl ⟨ha b (.inl rfl), fun c hc => ?_⟩⟩
    rcases (hmem c).mpr hc with hc | rfl | rfl | hc
    · exact .inl (hus c hc a (.inl rfl)).le
    · exact .inl le_rfl
    · exact .inr le_rfl
    · exact .inr (hb c hc).le

/-! ## Rings -/

structure PageOk (given : κ → Option ℕ) (n : ℕ) (indexes : List κ) : Prop where
  nonempty : n ≠ 0 → indexes ≠ []
  bounded : indexes.length ≤ dirNodeMaxEntries
  nodup : indexes.Nodup
  keys : ∀ key, key ∈ indexes ↔ given key = some n

/-- What is at the number of a page, and at another number. -/
def PageAt (given : κ → Option ℕ) (n : ℕ) (member : Prop) : Option (List κ) → Prop
  | none => ¬member ∧ ∀ key, given key ≠ some n
  | some indexes => member ∧ PageOk given n indexes

theorem PageAt.congr {member member' : Prop} {indexes : Option (List κ)} (h : PageAt given n member indexes)
    (hmember : member' ↔ member) (hgiven : ∀ key, given' key = some n ↔ given key = some n) :
    PageAt given' n member' indexes := by
  cases indexes with
  | none => exact ⟨fun hm => h.1 (hmember.mp hm), fun key hkey => h.2 key ((hgiven key).mp hkey)⟩
  | some indexes =>
    obtain ⟨hm, hok⟩ := h
    exact ⟨hmember.mpr hm, hok.nonempty, hok.bounded, hok.nodup, fun key => (hok.keys key).trans (hgiven key).symm⟩

structure Ring (d : Dir κ) (P : Finset ℕ) (given : κ → Option ℕ) : Prop where
  root : 0 ∈ P
  links : ∀ a b, Next P a b → Link d a b
  pages : ∀ n, PageAt given n (n ∈ P) (indexesAt d n)
  numbers : ∀ n ∈ P, n < dirNodeMaxPages

theorem update_iff [DecidableEq κ] {key : κ} {p : Option ℕ} (hold : ∀ x ∈ given key, x = n) (hp : ∀ x ∈ p, x = n)
    (hm : m ≠ n) (k : κ) : Function.update given key p k = some m ↔ given k = some m := by
  by_cases hk : k = key
  · rw [hk, update_self]
    exact iff_of_false (fun h => hm (hp m h)) fun h => hm (hold m h)
  · rw [update_of_ne hk]

theorem PageOk.single [DecidableEq κ] (hnone : ∀ k, given k ≠ some n) (key : κ) :
    PageOk (Function.update given key (some n)) n [key] := by
  refine ⟨fun _ => List.cons_ne_nil _ _, Nat.le_of_ble_eq_true rfl, List.nodup_singleton key, fun k => ?_⟩
  rw [List.mem_singleton]
  by_cases hk : k = key
  · rw [hk, update_self]
    exact iff_of_true rfl rfl
  · rw [update_of_ne hk]
    exact iff_of_false hk (hnone k)

namespace Ring

variable (h : Ring d P given)
include h

theorem page_ok (hpage : d.find n = some page) : n ∈ P ∧ PageOk given n page.indexes := by
  have hat := h.pages n
  rwa [indexesAt, hpage] at hat

theorem page_none (habsent : d.find n = none) : n ∉ P ∧ ∀ key, given key ≠ some n := by
  have hat := h.pages n
  rwa [indexesAt, habsent] at hat

theorem exists_page (hn : n ∈ P) : ∃ page, d.find n = some page :=
  Option.ne_none_iff_exists'.mp fun habsent => (h.page_none habsent).1 hn

theorem exists_given {key : κ} (hgiven : given key = some n) : ∃ page, d.find n = some page :=
  Option.ne_none_iff_exists'.mp fun habsent => (h.page_none habsent).2 key hgiven

theorem setIndexes {indexes : List κ} (hpage : d.find n = some page) (hok : PageOk given' n indexes)
    (hother : ∀ key m, m ≠ n → (given' key = some m ↔ given key = some m)) :
    Ring (d.set n { page with indexes }) P given' := by
  obtain ⟨hnext, hprev, hindexes⟩ := (fields d).setIndexes hpage indexes
  refine ⟨h.root, fun a b hab => ?_, fun m => ?_, h.numbers⟩
  · rw [Link, hnext, hprev]
    exact h.links a b hab
  · rw [hindexes]
    by_cases heq : m = n
    · rw [heq, update_self]
      exact ⟨(h.page_ok hpage).1, hok⟩
    · rw [update_of_ne heq]
      exact (h.pages m).congr Iff.rfl fun key => hother key m heq

theorem append {key : κ} (hlast : Next P l 0) (hroom : l + 1 < dirNodeMaxPages) (hnew : given key = none)
    (hfields : Fields d' (Function.update (Function.update (nextAt d) l (some (l + 1))) (l + 1) (some 0))
      (Function.update (Function.update (prevAt d) 0 (some (l + 1))) (l + 1) (some l))
      (Function.update (indexesAt d) (l + 1) (some [key]))) [DecidableEq κ] :
    Ring d' (insert (l + 1) P) (Function.update given key (some (l + 1))) := by
  obtain ⟨hnext, hprev, hindexes⟩ := hfields
  have hle := hlast.le_last
  have hfresh : l + 1 ∉ P := fun hmem => Nat.not_succ_le_self l (hle _ hmem)
  refine ⟨Finset.mem_insert_of_mem h.root, fun u v huv => ?_, fun m => ?_,
    Finset.forall_mem_insert _ _ _ |>.mpr ⟨hroom, h.numbers⟩⟩
  · obtain ⟨hu, hv, huv⟩ := huv
    simp only [Link, hnext, hprev, update_apply]
    rcases Finset.mem_insert.mp hu with rfl | hu
    · obtain rfl : v = 0 := by
        rcases huv with ⟨hlt, -⟩ | ⟨hv, -⟩
        · have := (Finset.mem_insert.mp hv).imp_right (hle v)
          omega
        · exact hv
      simp
    · have hul := hle u hu
      rcases huv with ⟨hlt, hgap⟩ | ⟨-, hmax⟩
      · rcases Finset.mem_insert.mp hv with rfl | hv
        · obtain rfl : u = l := by
            have := hgap l (Finset.mem_insert_of_mem hlast.1)
            omega
          simp
        · have hvl := hle v hv
          obtain ⟨hnext', hprev'⟩ := h.links u v ⟨hu, hv, .inl ⟨hlt, fun c hc => hgap c (Finset.mem_insert_of_mem hc)⟩⟩
          rw [if_neg (by omega), if_neg (by omega), if_neg (by omega), if_neg (by omega)]
          exact ⟨hnext', hprev'⟩
      · exact absurd (hmax (l + 1) (Finset.mem_insert_self _ _)) (by omega)
  · rw [hindexes, update_apply]
    split
    next heq =>
      have hnone : d.find (l + 1) = none := Option.eq_none_iff_forall_ne_some.mpr fun page hpage =>
        hfresh (h.page_ok hpage).1
      rw [heq]
      exact ⟨Finset.mem_insert_self _ _, PageOk.single (h.page_none hnone).2 key⟩
    next hne =>
      exact (h.pages m).congr (Finset.mem_insert.trans (or_iff_right hne)) (update_iff (by simp [hnew]) (by simp) hne)

theorem next_of (hpage : d.find n = some page) : Next P n page.indexNext := by
  obtain ⟨b, hb⟩ := exists_next h.root (h.page_ok hpage).1
  have hlink := (h.links n b hb).1
  rw [nextAt, hpage] at hlink
  exact Option.some.inj hlink ▸ hb

theorem prev_of (hpage : d.find n = some page) : Next P page.indexPrevious n := by
  obtain ⟨a, ha⟩ := exists_prev h.root (h.page_ok hpage).1
  have hlink := (h.links a n ha).2
  rw [prevAt, hpage] at hlink
  exact Option.some.inj hlink ▸ ha

theorem unlink (hn : n ≠ 0) (hempty : ∀ key, given' key ≠ some n)
    (hother : ∀ key m, m ≠ n → (given' key = some m ↔ given key = some m)) (han : Next P a n) (hnb : Next P n b)
    (hfields : Fields d' (Function.update (Function.update (nextAt d) a (some b)) n none)
      (Function.update (Function.update (prevAt d) b (some a)) n none) (Function.update (indexesAt d) n none)) :
    Ring d' (P.erase n) given' := by
  obtain ⟨hnext, hprev, hindexes⟩ := hfields
  refine ⟨Finset.mem_erase.mpr ⟨hn.symm, h.root⟩, fun u v huv => ?_, fun m => ?_,
    fun m hm => h.numbers m (Finset.mem_of_mem_erase hm)⟩
  · have hun := Finset.ne_of_mem_erase huv.1
    have hvn := Finset.ne_of_mem_erase huv.2.1
    rw [Link, hnext, hprev, update_of_ne hun, update_of_ne hvn]
    rcases huv.of_erase hnb.1 with hold | ⟨hu, hv⟩
    · have hua : u ≠ a := by
        rintro rfl
        exact hvn (hold.right_unique han)
      have hvb : v ≠ b := by
        rintro rfl
        exact hun (hold.left_unique hnb)
      rw [update_of_ne hua, update_of_ne hvb]
      exact h.links u v hold
    · rw [hu.left_unique han, hv.right_unique hnb, update_self, update_self]
      exact ⟨rfl, rfl⟩
  · rw [hindexes, update_apply]
    split
    next heq =>
      rw [heq]
      exact ⟨Finset.notMem_erase n P, hempty⟩
    next hne => exact (h.pages m).congr (Finset.mem_erase.trans (and_iff_right hne)) fun key => hother key m hne

theorem root_links (hroot : d.find 0 = some page) :
    P = {0} ∧ page.indexNext = 0 ∧ page.indexPrevious = 0 ∨
      page.indexNext ∈ P ∧ page.indexNext ≠ 0 ∧ page.indexPrevious ≠ 0 := by
  have hnext := h.next_of hroot
  have hprev := h.prev_of hroot
  by_cases hzero : page.indexNext = 0
  · rw [hzero] at hnext
    exact .inl ⟨Finset.eq_singleton_iff_unique_mem.mpr ⟨h.root, fun c hc => Nat.le_zero.mp (hnext.le_last c hc)⟩, hzero,
      hprev.left_unique hnext⟩
  · refine .inr ⟨hnext.2.1, hzero, fun hprev0 => hzero ?_⟩
    rw [hprev0] at hprev
    exact hnext.right_unique hprev

end Ring

theorem erase_eq_root (hn : n ≠ 0) (hprev : Next P 0 n) (hnext : Next P n 0) : P.erase n = {0} := by
  refine Finset.eq_singleton_iff_unique_mem.mpr ⟨Finset.mem_erase.mpr ⟨hn.symm, hprev.1⟩, fun c hc => ?_⟩
  obtain ⟨hne, hc⟩ := Finset.mem_erase.mp hc
  have hle := hnext.le_last c hc
  rcases hprev.2.2 with ⟨-, hgap⟩ | ⟨hzero, -⟩
  · have := hgap c hc
    omega
  · exact absurd hzero hn

end Chainsql.Views
