import Chainsql.Views.Ring

/-!
# Runs of directory operations

Each operation takes a ring to a ring, or to no directory at all, and never stops with a broken chain.
-/

namespace Chainsql.Views

open SortedMap Function

variable {κ : Type} {d d' : Dir κ} {n m : ℕ} {page : Page κ} {P : Finset ℕ} {given given' : κ → Option ℕ}
  {key : κ}

/-! ## Whole directories -/

def Whole (d : Dir κ) (given : κ → Option ℕ) : Prop :=
  (∀ n, d.find n = none) ∧ (∀ key, given key = none) ∨ ∃ P, Ring d P given

theorem insertPage_eq (habsent : d.find n = none) : insertPage d n page = .ok (d.set n page) := by
  rw [insertPage, habsent]
  rfl

variable {old root node : Page κ} {text : String} {s : DirState κ}

theorem updatePage_eq (hold : d.find n = some old) : updatePage d n page = .ok (d.set n page) := by
  rw [updatePage, hold]
  rfl

theorem erasePage_eq (hold : d.find n = some old) : erasePage d n = .ok (d.erase n) := by
  rw [erasePage, hold]
  rfl

theorem peekPage_eq (hpage : d.find n = some page) : peekPage d n text = .ok page := by
  rw [peekPage, hpage]

theorem Ring.erase_root (h : Ring d {0} given) (hroot : d.find 0 = some page) (hempty : page.indexes = []) :
    Whole (d.erase 0) given := by
  have habsent : ∀ n, n ≠ 0 → d.find n = none := fun n hn => Option.eq_none_iff_forall_ne_some.mpr fun page hpage =>
    hn (Finset.mem_singleton.mp (h.page_ok hpage).1)
  refine .inl ⟨fun n => ?_, fun key => Option.eq_none_iff_forall_not_mem.mpr fun n hn => ?_⟩
  · by_cases hn : n = 0
    · rw [hn, find_erase_self]
    · rw [find_erase_ne hn, habsent n hn]
  · obtain rfl : n = 0 := by_contra fun hne => (h.page_none (habsent n hne)).2 key hn
    have hmem := ((h.page_ok hroot).2.keys key).mpr hn
    rw [hempty] at hmem
    cases hmem

/-! ## New pages -/

theorem Ring.new [DecidableEq κ] (habsent : ∀ n, d.find n = none) (hnone : ∀ key, given key = none) (key : κ) :
    Ring (d.set 0 ⟨[key], 0, 0⟩) {0} (Function.update given key (some 0)) := by
  have hgiven : ∀ n k, given k ≠ some n := by simp [hnone]
  refine ⟨Finset.mem_singleton_self 0, fun a b hab => ?_, fun m => ?_, by simp [dirNodeMaxPages]⟩
  · rw [Finset.mem_singleton.mp hab.1, Finset.mem_singleton.mp hab.2.1, Link, nextAt, prevAt, find_set_self]
    exact ⟨rfl, rfl⟩
  · by_cases heq : m = 0
    · rw [heq, indexesAt, find_set_self]
      exact ⟨Finset.mem_singleton_self 0, PageOk.single (hgiven 0) key⟩
    · rw [indexesAt, find_set_ne heq, habsent]
      refine ⟨fun hm => heq (Finset.mem_singleton.mp hm), fun k hk => hgiven m k ?_⟩
      exact (update_iff (by simp [hnone]) (by simp) heq k).mp hk

theorem Ring.lastPage_eq (h : Ring d P given) (hroot : d.find 0 = some root) :
    ∃ node, d.find root.indexPrevious = some node ∧ lastPage d root = .ok node := by
  obtain ⟨node, hnode⟩ := h.exists_page (h.prev_of hroot).1
  refine ⟨node, hnode, ?_⟩
  rw [lastPage]
  split
  · exact peekPage_eq hnode
  next hzero =>
    rw [not_not.mp hzero, hroot] at hnode
    exact congrArg Except.ok (Option.some.inj hnode)

theorem Ring.addPage [DecidableEq κ] {key : κ} {l : ℕ} (h : Ring d P given) (hnew : given key = none)
    (hlast : Next P l 0) (hroom : l + 1 < dirNodeMaxPages) (hnode : d.find l = some node) :
    ∃ d', addPage d l node key = .ok (some (l + 1), d') ∧
      Ring d' (insert (l + 1) P) (Function.update given key (some (l + 1))) := by
  -- the three pages that are written
  have hfields₁ := (fields d).setNext hnode (l + 1)
  set d₁ := d.set l { node with indexNext := l + 1 }
  obtain ⟨page, hpage⟩ := h.exists_page h.root
  obtain ⟨root, hroot, -⟩ := hfields₁.exists_page (congrArg (Option.map Page.indexes) hpage)
  have hfields₂ := hfields₁.setPrev hroot (l + 1)
  set d₂ := d₁.set 0 { root with indexPrevious := l + 1 }
  have habsent : d₂.find (l + 1) = none := by
    rw [find_set_ne (Nat.succ_ne_zero l), find_set_ne (Nat.succ_ne_self l)]
    exact Option.eq_none_iff_forall_ne_some.mpr fun page hpage =>
      Nat.not_succ_le_self l (hlast.le_last _ (h.page_ok hpage).1)
  have hl : (if l + 1 ≠ 1 then l + 1 - 1 else 0) = l := by
    split <;> omega
  refine ⟨d₂.set (l + 1) ⟨[key], 0, l⟩, ?_, h.append hlast hroom hnew (hfields₂.set (l + 1) ⟨[key], 0, l⟩)⟩
  rw [Views.addPage, hl, updatePage_eq hnode]
  show (peekPage d₁ 0 "" >>= _) = _
  rw [peekPage_eq hroot]
  show (updatePage d₁ 0 _ >>= _) = _
  rw [updatePage_eq hroot]
  show (insertPage d₂ (l + 1) _ >>= _) = _
  rw [insertPage_eq habsent]
  rfl

/-! ## Empty pages -/

theorem Ring.peek_next (h : Ring d P given) (hmem : root.indexNext ∈ P) (hne : root.indexNext ≠ 0) :
    ∃ last, peekPage d root.indexNext text = .ok last ∧ last.indexes ≠ [] := by
  obtain ⟨last, hlast⟩ := h.exists_page hmem
  exact ⟨last, peekPage_eq hlast, (h.page_ok hlast).2.nonempty hne⟩

theorem Ring.removeRoot (h : Ring d P given) (hroot : d.find 0 = some node) (hempty : node.indexes = [])
    (keepRoot : Bool) : ∃ d', removeRoot d node keepRoot = .ok (true, d') ∧ Whole d' given := by
  rw [Views.removeRoot]
  rcases h.root_links hroot with ⟨rfl, hnext, hprev⟩ | ⟨hmem, hnext, hprev⟩
  · rw [if_neg (fun hc => hc.2 hprev), if_neg (fun hc => hc.2 hnext), if_neg (fun hc => hc.2 hnext)]
    cases keepRoot with
    | true => exact ⟨d, rfl, .inr ⟨_, h⟩⟩
    | false =>
      refine ⟨d.erase 0, ?_, h.erase_root hroot hempty⟩
      rw [if_neg Bool.false_ne_true, if_pos ⟨hnext, hprev⟩, erasePage_eq hroot]
      rfl
  · rw [if_neg (fun hc => hnext hc.1), if_neg (fun hc => hprev hc.1)]
    refine ⟨d, ?_, .inr ⟨P, h⟩⟩
    split
    · obtain ⟨last, hpeek, hlast⟩ := h.peek_next hmem hnext
      rw [hpeek]
      exact if_pos hlast
    · split
      · rfl
      · rw [if_neg (fun hc => hnext hc.1)]

theorem Whole.emptyDirDelete (h : Whole d given) :
    ∃ deleted d', emptyDirDelete d = .ok (deleted, d') ∧ Whole d' given := by
  rw [Views.emptyDirDelete]
  rcases h with hnone | ⟨P, h⟩
  · rw [hnone.1 0]
    exact ⟨false, d, rfl, .inl hnone⟩
  obtain ⟨node, hroot⟩ := h.exists_page h.root
  rw [hroot]
  show ∃ deleted d', (if node.indexes ≠ [] then _ else _) = _ ∧ _
  split
  · exact ⟨false, d, rfl, .inr ⟨P, h⟩⟩
  next hempty =>
    rcases h.root_links hroot with ⟨rfl, hnext, hprev⟩ | ⟨hmem, hnext, hprev⟩
    · refine ⟨true, d.erase 0, ?_, h.erase_root hroot (not_not.mp hempty)⟩
      rw [if_neg (fun hc => hc.2 hprev), if_neg (fun hc => hc.2 hnext), if_neg (fun hc => hc.2 hnext),
        if_pos ⟨hnext, hprev⟩, erasePage_eq hroot]
      rfl
    · rw [if_neg (fun hc => hnext hc.1), if_neg (fun hc => hprev hc.1)]
      split
      · obtain ⟨last, hpeek, hlast⟩ := h.peek_next hmem hnext
        rw [hpeek]
        exact ⟨false, d, if_pos hlast, .inr ⟨P, h⟩⟩
      · rw [if_neg (fun hc => hnext hc.1)]
        exact ⟨true, d, rfl, .inr ⟨P, h⟩⟩

theorem Ring.unlinkPage {a b : ℕ} {is : List κ} (h : Ring d P given) (hn : n ≠ 0)
    (hnode : d.find n = some ⟨is, b, a⟩) (hempty : ∀ key, given' key ≠ some n)
    (hother : ∀ key m, m ≠ n → (given' key = some m ↔ given key = some m)) :
    ∃ prev next d', unlinkPage (d.set n ⟨[], b, a⟩) n a b = .ok (prev, next, d') ∧ Ring d' (P.erase n) given' ∧
      indexesAt d' a = some prev.indexes ∧ indexesAt d b = some next.indexes := by
  have hanext : Next P a n := h.prev_of hnode
  have hnextb : Next P n b := h.next_of hnode
  have han : a ≠ n := fun heq => hn (heq ▸ hanext).eq_zero
  have hbn : b ≠ n := fun heq => hn (heq ▸ hnextb).eq_zero
  obtain ⟨prev, hprev⟩ := h.exists_page hanext.1
  obtain ⟨pageB, hpageB⟩ := h.exists_page hnextb.2.1
  -- the directories after each of the writes
  have hfields₀ := (fields d).setIndexes hnode []
  set d₀ := d.set n ⟨[], b, a⟩
  have hprev₀ : d₀.find a = some prev := (find_set_ne han).trans hprev
  have hfields₁ := hfields₀.setNext hprev₀ b
  set d₁ := d₀.set a { prev with indexNext := b }
  have hindexes_b : indexesAt d b = some pageB.indexes := congrArg (Option.map Page.indexes) hpageB
  obtain ⟨next, hnext, hsame⟩ := hfields₁.exists_page ((update_of_ne hbn _ _).trans hindexes_b)
  have hfields := (hfields₁.setPrev hnext a).erase n
  set d₂ := d₁.set b { next with indexPrevious := a }
  have hn₂ : d₂.find n = some ⟨[], b, a⟩ := by
    rw [find_set_ne hbn.symm, find_set_ne han.symm, find_set_self]
  rw [update_idem] at hfields
  refine ⟨prev, next, d₂.erase n, ?_, h.unlink hn hempty hother hanext hnextb hfields, ?_, hsame ▸ hindexes_b⟩
  · rw [Views.unlinkPage, peekPage_eq hprev₀]
    show (updatePage d₀ a _ >>= _) = _
    rw [updatePage_eq hprev₀]
    show (peekPage d₁ b _ >>= _) = _
    rw [peekPage_eq hnext]
    show (updatePage d₁ b _ >>= _) = _
    rw [updatePage_eq hnext]
    show (erasePage d₂ n >>= _) = _
    rw [erasePage_eq hn₂]
    rfl
  · rw [hfields.indexes_eq, update_of_ne han]
    exact congrArg (Option.map Page.indexes) hprev

theorem Ring.removePage (h : Ring d P given) (hnode : d.find n = some node) (hn : n ≠ 0)
    (hempty : ∀ key, given' key ≠ some n) (hother : ∀ key m, m ≠ n → (given' key = some m ↔ given key = some m))
    (keepRoot : Bool) :
    ∃ d', removePage (d.set n { node with indexes := [] }) n { node with indexes := [] } keepRoot = .ok (true, d') ∧
      Whole d' given' := by
  obtain ⟨is, b, a⟩ := node
  have hanext : Next P a n := h.prev_of hnode
  have hnextb : Next P n b := h.next_of hnode
  have han : a ≠ n := fun heq => hn (heq ▸ hanext).eq_zero
  have hbn : b ≠ n := fun heq => hn (heq ▸ hnextb).eq_zero
  obtain ⟨prev, next, d', hunlink, hring, hprev, hnext⟩ := h.unlinkPage hn hnode hempty hother
  rw [Views.removePage, if_neg hbn, if_neg han]
  show ∃ d', (Views.unlinkPage (d.set n ⟨[], b, a⟩) n a b >>= _) = _ ∧ _
  rw [hunlink]
  show ∃ d', (if b ≠ 0 ∧ next.indexNext = 0 ∧ next.indexes = [] then _ else _) = _ ∧ _
  -- the next page is empty for no other than the root
  have hfull := h.pages b
  rw [hnext] at hfull
  rw [if_neg fun hc => hfull.2.nonempty hc.1 hc.2.2]
  split
  next hc =>
    obtain ⟨-, rfl, rfl, hprev_empty⟩ := hc
    obtain ⟨root, hroot⟩ := hring.exists_page hring.root
    rw [indexesAt, hroot, hprev_empty] at hprev
    rw [erase_eq_root hn hanext hnextb] at hring
    refine ⟨d'.erase 0, ?_, hring.erase_root hroot (Option.some.inj hprev)⟩
    show (erasePage d' 0 >>= _) = _
    rw [erasePage_eq hroot]
    rfl
  · exact ⟨d', rfl, .inr ⟨_, hring⟩⟩

/-! ## The keys of a page -/

section Ordered

variable [LinearOrder κ]

variable {indexes : List κ}

theorem addKey_spec (preserveOrder : Bool) (hnew : key ∉ indexes) :
    ∃ indexes', addKey preserveOrder key indexes = .ok indexes' ∧ indexes'.Perm (key :: indexes) := by
  cases preserveOrder with
  | true =>
    refine ⟨indexes ++ [key], if_neg hnew, ?_⟩
    exact List.perm_append_comm
  | false =>
    have hsort := List.perm_insertionSort (· ≤ ·) indexes
    have hpos : ((indexes.insertionSort (· ≤ ·)).dropWhile (· < key)).head? ≠ some key := by
      intro hhead
      exact hnew (hsort.mem_iff.mp ((List.dropWhile_sublist _).subset (List.mem_of_head? hhead)))
    refine ⟨_, if_neg hpos, ?_⟩
    refine List.perm_middle.trans (List.Perm.cons key ?_)
    rw [List.takeWhile_append_dropWhile]
    exact hsort

theorem PageOk.insert {indexes' : List κ} (h : PageOk given n indexes) (hnew : given key = none)
    (hroom : indexes.length < dirNodeMaxEntries) (hperm : indexes'.Perm (key :: indexes)) :
    PageOk (Function.update given key (some n)) n indexes' := by
  have hkey : key ∉ indexes := by
    rw [h.keys, hnew]
    exact (Option.some_ne_none n).symm
  refine ⟨fun _ heq => ?_, ?_, ?_, fun k => ?_⟩
  · rw [heq] at hperm
    exact List.cons_ne_nil _ _ hperm.nil_eq.symm
  · rw [hperm.length_eq]
    exact hroom
  · exact hperm.nodup_iff.mpr (List.nodup_cons.mpr ⟨hkey, h.nodup⟩)
  · rw [hperm.mem_iff, List.mem_cons]
    by_cases hk : k = key
    · rw [hk, update_self]
      exact iff_of_true (.inl rfl) rfl
    · rw [update_of_ne hk, ← h.keys]
      exact ⟨fun hmem => hmem.resolve_left hk, .inr⟩

theorem Whole.dirAdd (h : Whole d given) (preserveOrder : Bool) (hnew : given key = none) :
    ∃ page d', dirAdd d preserveOrder key = .ok (page, d') ∧
      Whole d' (if page.isSome then Function.update given key page else given) ∧ (page = none → Exhausted d) := by
  rcases h with ⟨habsent, hnone⟩ | ⟨P, h⟩
  · refine ⟨some 0, d.set 0 ⟨[key], 0, 0⟩, ?_, .inr ⟨_, Ring.new habsent hnone key⟩, by simp⟩
    rw [Views.dirAdd, habsent]
    show (insertPage d 0 ⟨[key], 0, 0⟩ >>= _) = Except.ok _
    rw [insertPage_eq (habsent 0)]
    rfl
  obtain ⟨root, hroot⟩ := h.exists_page h.root
  obtain ⟨node, hnode, hpage⟩ := h.lastPage_eq hroot
  have hok := (h.page_ok hnode).2
  rw [Views.dirAdd, hroot]
  show ∃ page d', (lastPage d root >>= _) = Except.ok _ ∧ _
  rw [hpage]
  show ∃ page d', (if node.indexes.length < dirNodeMaxEntries then _ else _) = Except.ok _ ∧ _
  split
  next hroom =>
    have hkey : key ∉ node.indexes := by
      rw [hok.keys, hnew]
      exact (Option.some_ne_none _).symm
    obtain ⟨indexes, hadd, hperm⟩ := addKey_spec preserveOrder hkey
    refine ⟨some root.indexPrevious, d.set root.indexPrevious { node with indexes }, ?_, .inr ⟨P, ?_⟩, by simp⟩
    · rw [hadd]
      show (updatePage d root.indexPrevious _ >>= _) = Except.ok _
      rw [updatePage_eq hnode]
      rfl
    · exact h.setIndexes hnode (hok.insert hnew hroom hperm) fun k m hm => update_iff (by simp [hnew]) (by simp) hm k
  next hfull =>
    have hlast := h.prev_of hroot
    split
    next hmax =>
      refine ⟨none, d, rfl, .inr ⟨P, h⟩, fun _ => ⟨node, ?_, (h.next_of hnode).right_unique hlast, ?_⟩⟩
      · have := h.numbers _ hlast.1
        rwa [show dirNodeMaxPages - 1 = root.indexPrevious by omega]
      · exact le_antisymm hok.bounded (Nat.le_of_not_lt hfull)
    next hroom =>
      obtain ⟨d', hadd, hring⟩ := h.addPage hnew hlast (Nat.lt_of_not_le hroom) hnode
      exact ⟨_, d', hadd, .inr ⟨_, hring⟩, by simp⟩

theorem PageOk.erase (h : PageOk given n indexes) (hleft : n ≠ 0 → indexes.erase key ≠ []) :
    PageOk (Function.update given key none) n (indexes.erase key) := by
  refine ⟨hleft, List.length_erase_le.trans h.bounded, h.nodup.erase key, fun k => ?_⟩
  rw [h.nodup.mem_erase_iff]
  by_cases hk : k = key
  · rw [hk, update_self]
    exact iff_of_false (fun hc => hc.1 rfl) (Option.some_ne_none n).symm
  · rw [update_of_ne hk, ← h.keys]
    exact ⟨fun hc => hc.2, fun hmem => ⟨hk, hmem⟩⟩

theorem Ring.dirRemove (h : Ring d P given) (hgiven : given key = some n) (keepRoot : Bool) :
    ∃ d', dirRemove d n key keepRoot = .ok (true, d') ∧ Whole d' (Function.update given key none) := by
  obtain ⟨node, hnode⟩ := h.exists_given hgiven
  have hok := (h.page_ok hnode).2
  have hother : ∀ k m, m ≠ n → (update given key none k = some m ↔ given k = some m) :=
    fun k m hm => update_iff (by simp [hgiven]) (by simp) hm k
  rw [Views.dirRemove, hnode]
  show ∃ d', (if key ∉ node.indexes then _ else _) = _ ∧ _
  rw [if_neg (not_not.mpr ((hok.keys key).mpr hgiven))]
  show ∃ d', (updatePage d n { node with indexes := node.indexes.erase key } >>= _) = _ ∧ _
  rw [updatePage_eq hnode]
  show ∃ d', (if node.indexes.erase key ≠ [] then _ else _) = _ ∧ _
  split
  next hleft => exact ⟨_, rfl, .inr ⟨P, h.setIndexes hnode (hok.erase fun _ => hleft) hother⟩⟩
  next hleft =>
    split
    next hzero =>
      subst hzero
      have hring := h.setIndexes hnode (hok.erase fun hne => absurd rfl hne) hother
      exact hring.removeRoot (find_set_self ..) (not_not.mp hleft) keepRoot
    next hzero =>
      have hleft' : node.indexes.erase key = [] := not_not.mp hleft
      have hempty : ∀ k, update given key none k ≠ some n := by
        intro k hk
        by_cases hkey : k = key
        · rw [hkey, update_self] at hk
          cases hk
        · rw [update_of_ne hkey] at hk
          have hmem := (List.mem_erase_of_ne hkey).mpr ((hok.keys k).mpr hk)
          rw [hleft'] at hmem
          cases hmem
      rw [hleft']
      exact h.removePage hnode hzero hempty hother keepRoot

end Ordered

/-! ## The walk -/

section Walk

variable {node next : Page κ} {entry fuel enough : ℕ} {tail : List κ}

theorem walkFrom_entry (hentry : node.indexes[entry]? = some key) :
    walkFrom d (fuel + 1) node entry = (walkFrom d fuel node (entry + 1)).map (key :: ·) := by
  rw [walkFrom, cdirNext, hentry]

theorem walkFrom_end (hentry : node.indexes[entry]? = none) (hnext : node.indexNext = 0) :
    walkFrom d (fuel + 1) node entry = some [] := by
  rw [walkFrom, cdirNext, hentry]
  simp only [hnext, if_true]

theorem walkFrom_next (hentry : node.indexes[entry]? = none) (hne : node.indexNext ≠ 0)
    (hnext : d.find node.indexNext = some next) (hfull : next.indexes ≠ []) :
    walkFrom d (fuel + 2) node entry = walkFrom d (fuel + 2) next 0 := by
  have hskip : cdirNext d (fuel + 2) node entry = cdirNext d (fuel + 2) next 0 := by
    obtain ⟨k, ks, hks⟩ := List.exists_cons_of_ne_nil hfull
    have hhead : next.indexes[0]? = some k := by rw [hks, List.getElem?_cons_zero]
    rw [cdirNext, hentry]
    simp only [hne, if_false, hnext]
    rw [cdirNext, cdirNext, hhead]
  rw [walkFrom, walkFrom, hskip]

theorem walkFrom_page (hend : ∀ entry fuel, enough ≤ fuel → node.indexes[entry]? = none →
    walkFrom d fuel node entry = some tail) :
    ∀ rest entry fuel, node.indexes.drop entry = rest → enough + rest.length ≤ fuel →
      walkFrom d fuel node entry = some (rest ++ tail)
  | [], entry, fuel, hrest, hfuel =>
    hend entry fuel hfuel (List.getElem?_eq_none (List.drop_eq_nil_iff.mp hrest))
  | key :: rest, entry, 0, _, hfuel => by simp at hfuel
  | key :: rest, entry, fuel + 1, hrest, hfuel => by
    have hentry : node.indexes[entry]? = some key := by
      rw [← List.head?_drop, hrest, List.head?_cons]
    have hdrop : node.indexes.drop (entry + 1) = rest := by
      rw [← List.tail_drop, hrest, List.tail_cons]
    rw [walkFrom_entry hentry, walkFrom_page hend rest (entry + 1) fuel hdrop (Nat.le_of_succ_le_succ hfuel)]
    rfl

def keysOf (d : Dir κ) (ns : List ℕ) : List κ := ns.flatMap fun n => (indexesAt d n).getD []

variable {ns : List ℕ}

theorem keysOf_cons (hnode : d.find n = some node) : keysOf d (n :: ns) = node.indexes ++ keysOf d ns := by
  rw [keysOf, List.flatMap_cons, indexesAt, hnode]
  rfl

theorem walkFrom_pages (hnode : d.find n = some node) (hchain : List.IsChain (Link d) (n :: (ns ++ [0])))
    (hne : 0 ∉ ns) (hfull : ∀ m ∈ ns, ∃ page, d.find m = some page ∧ page.indexes ≠ []) :
    ∃ enough, ∀ fuel, enough ≤ fuel → walkFrom d fuel node 0 = some (keysOf d (n :: ns)) := by
  rw [keysOf_cons hnode]
  -- what follows the last entry of the page
  suffices hend : ∃ enough, ∀ entry fuel, enough ≤ fuel → node.indexes[entry]? = none →
      walkFrom d fuel node entry = some (keysOf d ns) by
    obtain ⟨enough, hend⟩ := hend
    exact ⟨enough + node.indexes.length, fun fuel hfuel => walkFrom_page hend _ 0 fuel rfl hfuel⟩
  induction ns generalizing n node with
  | nil =>
    have hlink := (List.isChain_cons_cons.mp hchain).1.1
    rw [nextAt, hnode] at hlink
    refine ⟨1, fun entry fuel hfuel hlast => ?_⟩
    obtain ⟨fuel, rfl⟩ := Nat.exists_eq_add_of_le' hfuel
    exact walkFrom_end hlast (Option.some.inj hlink)
  | cons m ns ih =>
    obtain ⟨hlink, hrest⟩ := List.isChain_cons_cons.mp hchain
    have hnext := hlink.1
    rw [nextAt, hnode] at hnext
    obtain ⟨next, hm, hnonempty⟩ := hfull m List.mem_cons_self
    obtain ⟨enough, hend⟩ := ih hm hrest (fun hmem => hne (List.mem_cons_of_mem m hmem))
      fun m' hm' => hfull m' (List.mem_cons_of_mem m hm')
    refine ⟨enough + next.indexes.length + 2, fun entry fuel hfuel hlast => ?_⟩
    obtain ⟨fuel, rfl⟩ := Nat.exists_eq_add_of_le' (Nat.le_of_add_left_le hfuel)
    obtain rfl := Option.some.inj hnext
    rw [walkFrom_next hlast (fun heq => hne (heq ▸ List.mem_cons_self)) hm hnonempty, keysOf_cons hm]
    exact walkFrom_page hend next.indexes 0 _ rfl (by omega)

theorem forEachItem_pages (hchain : List.IsChain (Link d) (n :: (ns ++ [0]))) (hne : 0 ∉ ns)
    (hpages : ∀ m ∈ n :: ns, ∃ page, d.find m = some page) :
    forEachItem d (fuel + ns.length + 1) n = some (keysOf d (n :: ns)) := by
  induction ns generalizing n with
  | nil =>
    obtain ⟨node, hnode⟩ := hpages n List.mem_cons_self
    have hlink := (List.isChain_cons_cons.mp hchain).1.1
    rw [nextAt, hnode] at hlink
    rw [forEachItem, hnode, keysOf_cons hnode]
    simp [Option.some.inj hlink, keysOf]
  | cons m ns ih =>
    obtain ⟨node, hnode⟩ := hpages n List.mem_cons_self
    obtain ⟨hlink, hrest⟩ := List.isChain_cons_cons.mp hchain
    have hnext := hlink.1
    rw [nextAt, hnode] at hnext
    have hm : m ≠ 0 := fun heq => hne (heq ▸ List.mem_cons_self)
    have hih := ih hrest (fun hmem => hne (List.mem_cons_of_mem m hmem)) fun m' hm' => hpages m' (List.mem_cons_of_mem n hm')
    rw [List.length_cons, ← Nat.add_assoc, forEachItem, hnode, keysOf_cons hnode]
    simp only [Option.some.inj hnext, hm, if_false, hih, Option.map_some]

theorem Ring.exists_keys (h : Ring d P given) :
    ∃ ps, ((0 :: ps).Nodup ∧ List.IsChain (Link d) (0 :: (ps ++ [0])) ∧ ∀ n, n ∈ 0 :: ps ↔ n ∈ P) ∧
      (keysOf d (0 :: ps)).Nodup ∧ ∀ key, key ∈ keysOf d (0 :: ps) ↔ (given key).isSome = true := by
  obtain ⟨ps, hnodup, hps, hchain⟩ := exists_isChain h.root
  -- a key is on the page that is given for it
  have hpage : ∀ n, ((indexesAt d n).getD []).Nodup ∧ ∀ key, key ∈ (indexesAt d n).getD [] ↔ given key = some n := by
    intro n
    have hat := h.pages n
    cases hindexes : indexesAt d n with
    | none =>
      rw [hindexes] at hat
      exact ⟨List.nodup_nil, fun key => iff_of_false List.not_mem_nil (hat.2 key)⟩
    | some indexes =>
      rw [hindexes] at hat
      exact ⟨hat.2.nodup, hat.2.keys⟩
  refine ⟨ps, ⟨hnodup, hchain.imp h.links, hps⟩, List.nodup_flatMap.mpr ⟨fun n _ => (hpage n).1, ?_⟩, fun key => ?_⟩
  · refine hnodup.imp fun {n m} hnm key hkn hkm => hnm ?_
    exact Option.some.inj ((((hpage n).2 key).mp hkn).symm.trans (((hpage m).2 key).mp hkm))
  · rw [keysOf, List.mem_flatMap, Option.isSome_iff_exists]
    refine exists_congr fun n => ⟨fun hn => ((hpage n).2 key).mp hn.2, fun hn => ⟨?_, ((hpage n).2 key).mpr hn⟩⟩
    obtain ⟨page, hfind⟩ := h.exists_given hn
    exact (hps n).mpr (h.page_ok hfind).1

theorem Ring.forEachItem (h : Ring d P given) :
    ∃ keys enough, (∀ fuel, enough ≤ fuel → forEachItem d fuel 0 = some keys) ∧
      ∀ key, key ∈ keys ↔ (given key).isSome = true := by
  obtain ⟨ps, ⟨hnodup, hchain, hps⟩, -, hkeys⟩ := h.exists_keys
  refine ⟨keysOf d (0 :: ps), ps.length + 1, fun fuel hfuel => ?_, hkeys⟩
  obtain ⟨k, rfl⟩ := Nat.exists_eq_add_of_le' hfuel
  exact forEachItem_pages hchain (List.nodup_cons.mp hnodup).1 fun m hm => h.exists_page ((hps m).mp hm)

theorem Ring.walk (h : Ring d P given) : ∃ keys enough, (∀ fuel, enough ≤ fuel → walk d fuel = some keys) ∧
    keys.Nodup ∧ ∀ key, key ∈ keys ↔ (given key).isSome = true := by
  obtain ⟨root, hroot⟩ := h.exists_page h.root
  obtain ⟨ps, ⟨hnodup, hchain, hps⟩, hkeys⟩ := h.exists_keys
  have h0 : 0 ∉ ps := (List.nodup_cons.mp hnodup).1
  have hfull : ∀ m ∈ ps, ∃ page, d.find m = some page ∧ page.indexes ≠ [] := by
    intro m hm
    obtain ⟨page, hpage⟩ := h.exists_page ((hps m).mp (List.mem_cons_of_mem 0 hm))
    exact ⟨page, hpage, (h.page_ok hpage).2.nonempty fun heq => h0 (heq ▸ hm)⟩
  obtain ⟨enough, hwalk⟩ := walkFrom_pages hroot hchain h0 hfull
  refine ⟨keysOf d (0 :: ps), enough, fun fuel hfuel => ?_, hkeys⟩
  rw [Views.walk, hroot]
  exact hwalk fuel hfuel

end Walk

/-! ## Runs -/

theorem Whole.sound (h : Whole s.dir s.given) : s.Sound := by
  rcases h with ⟨habsent, hnone⟩ | ⟨P, h⟩
  · have hpage : ∀ {n page}, s.dir.find n ≠ some page := by
      intro n page hfind
      rw [habsent] at hfind
      cases hfind
    refine ⟨.inl habsent, fun n page hn => absurd hn hpage, fun n page hn => absurd hn hpage, fun key n => ?_, ?_⟩
    · rw [hnone]
      exact iff_of_false (Option.some_ne_none n).symm fun ⟨page, hfind, _⟩ => hpage hfind
    · exact fun hne => absurd (habsent 0) hne
  · obtain ⟨ps, ⟨hnodup, hchain, hps⟩, -⟩ := h.exists_keys
    refine ⟨.inr ⟨ps, hnodup, hchain, fun n => ⟨fun hne => ?_, fun hn habsent => (h.page_none habsent).1 ((hps n).mp hn)⟩⟩,
      fun n page hpage => (h.page_ok hpage).2.nonempty, fun n page hpage => (h.page_ok hpage).2.bounded,
      fun key n => ⟨fun hn => ?_, fun ⟨page, hpage, hmem⟩ => ((h.page_ok hpage).2.keys key).mp hmem⟩, fun _ => h.walk⟩
    · obtain ⟨page, hpage⟩ := Option.ne_none_iff_exists'.mp hne
      exact (hps n).mpr (h.page_ok hpage).1
    · obtain ⟨page, hpage⟩ := h.exists_given hn
      exact ⟨page, hpage, ((h.page_ok hpage).2.keys key).mpr hn⟩

theorem Whole.ring_of_given (h : Whole d given) (hgiven : given key = some n) : ∃ P, Ring d P given := by
  rcases h with ⟨-, hnone⟩ | h
  · rw [hnone] at hgiven
    cases hgiven
  · exact h

variable [LinearOrder κ]

theorem Whole.step {op : DirOp κ} (h : Whole s.dir s.given) (hlegal : s.Legal op) :
    ∃ s', s.step op = .ok s' ∧ Whole s'.dir s'.given := by
  cases op with
  | dirAdd preserveOrder key =>
    obtain ⟨page, d', hadd, hwhole, -⟩ := h.dirAdd preserveOrder hlegal
    refine ⟨⟨d', if page.isSome then update s.given key page else s.given⟩, ?_, hwhole⟩
    rw [DirState.step, hadd]
    rfl
  | dirRemove page key keepRoot =>
    obtain ⟨P, hring⟩ := h.ring_of_given hlegal
    obtain ⟨d', hremove, hwhole⟩ := hring.dirRemove hlegal keepRoot
    refine ⟨⟨d', update s.given key none⟩, ?_, hwhole⟩
    rw [DirState.step, hremove]
    rfl
  | emptyDirDelete =>
    obtain ⟨deleted, d', hdelete, hwhole⟩ := h.emptyDirDelete
    refine ⟨⟨d', s.given⟩, ?_, hwhole⟩
    rw [DirState.step, hdelete]
    rfl

/-- No operation of a run fails, every state of the run has the shape of a directory, each key that is present can be
removed from the page that has been returned for it, and a new key gets a page unless all pages have been used. -/
theorem directory_sound {ops : List (DirOp κ)} (hlegal : Run.AlongOk DirState.step DirState.Legal .init ops) :
    ∃ s, Run.reach DirState.step .init ops = .ok s ∧ s.Sound ∧
      (∀ key page keepRoot, s.given key = some page → ∃ d', dirRemove s.dir page key keepRoot = .ok (true, d')) ∧
      ∀ key preserveOrder d', s.given key = none → dirAdd s.dir preserveOrder key = .ok (none, d') → Exhausted s.dir := by
  have hinit : Whole (DirState.init : DirState κ).dir DirState.init.given := .inl ⟨fun _ => rfl, fun _ => rfl⟩
  obtain ⟨s, hreach, hwhole⟩ := hlegal.reaches (fun s => Whole s.dir s.given) hinit fun s op => Whole.step
  refine ⟨s, hreach, hwhole.sound, fun key page keepRoot hgiven => ?_, fun key preserveOrder d' hnew hnone => ?_⟩
  · obtain ⟨P, hring⟩ := hwhole.ring_of_given hgiven
    obtain ⟨d', hremove, -⟩ := hring.dirRemove hgiven keepRoot
    exact ⟨d', hremove⟩
  · obtain ⟨page, d'', hadd, -, hexhausted⟩ := hwhole.dirAdd preserveOrder hnew
    cases hnone.symm.trans hadd
    exact hexhausted rfl

def demoDirOps : List (DirOp ℕ) := (List.range 33).map (.dirAdd true) ++ [.dirRemove 0 7 false]

theorem directory_sound_demoDirOps :
    ∃ s, Run.reach DirState.step .init demoDirOps = .ok s ∧ s.Sound ∧ s.given 32 = some 1 ∧
      walk s.dir 40 = some ((List.range 33).erase 7) := by
  obtain ⟨s, hreach, hsound, -⟩ := directory_sound (show Run.AlongOk _ _ _ demoDirOps by decide +kernel)
  have hend : (Run.reach DirState.step .init demoDirOps).toOption.map (fun s => (s.given 32, walk s.dir 40)) =
    some (some 1, some ((List.range 33).erase 7)) := by decide +kernel
  rw [hreach] at hend
  exact ⟨s, hreach, hsound, Prod.ext_iff.mp (Option.some.inj hend)⟩

end Chainsql.Views
