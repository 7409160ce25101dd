import Chainsql.Lib.Run
import Chainsql.Pop.ViewChange

/-!
# What a triggered view change rests on

`shouldTriggerViewChange` counts the messages for a view by the previous ledger they name and takes
the ledger's number from the message that completes the quorum, in the order of the senders. The
number is what a quorum said if no quorum of messages names one ledger under different numbers; a
quorum that does is enough to make it wrong.
-/

namespace Chainsql.Pop

namespace ViewTable

variable {l : List ViewChange} {quorum : Nat} {seen : List HashValue} {v : ViewChange}

/-- The messages before the one that completes the quorum, for a quorum that is not complete at the
start. -/
theorem reachQuorum_spec (hseen : ∀ hash, seen.count hash < quorum) (h : reachQuorum quorum seen l = some v) :
    ∃ before after, l = before ++ v :: after
      ∧ seen.count v.prevHash + (before.filter fun u => u.prevHash = v.prevHash).length + 1 = quorum := by
  induction l generalizing seen with
  | nil => cases h
  | cons u l ih =>
    rw [reachQuorum] at h
    split at h
    next hreached =>
      cases h
      have hlt := hseen v.prevHash
      exact ⟨[], l, rfl, by simp only [List.filter_nil, List.length_nil]; omega⟩
    next hopen =>
      have hseen' : ∀ hash, (u.prevHash :: seen).count hash < quorum := by
        intro hash
        rw [List.count_cons]
        by_cases heq : u.prevHash = hash
        · subst heq
          simp only [beq_self_eq_true, if_true]
          omega
        · simpa [heq] using hseen hash
      obtain ⟨before, after, rfl, hcount⟩ := ih hseen' h
      refine ⟨u :: before, after, rfl, ?_⟩
      rw [List.count_cons] at hcount
      by_cases heq : u.prevHash = v.prevHash
      · simp only [heq, beq_self_eq_true, if_true] at hcount
        simp only [List.filter_cons, heq, decide_true, if_true, List.length_cons]
        omega
      · simpa [heq] using hcount

theorem reachQuorum_same {last : ViewChange} {earlier : List ViewChange}
    (hhash : ∀ u ∈ earlier, u.prevHash = last.prevHash)
    (hlength : seen.count last.prevHash + earlier.length + 1 = quorum) :
    reachQuorum quorum seen (earlier ++ [last]) = some last := by
  induction earlier generalizing seen with
  | nil =>
    simp only [List.length_nil] at hlength
    rw [List.nil_append, reachQuorum, if_pos (by omega)]
  | cons u earlier ih =>
    have hu := hhash u List.mem_cons_self
    simp only [List.length_cons] at hlength
    rw [List.cons_append, reachQuorum, hu, if_neg (by omega)]
    refine ih (fun w hw => hhash w (List.mem_cons_of_mem _ hw)) ?_
    rw [List.count_cons_self]
    omega

variable {table : ViewTable}

theorem mem_inOrder : v ∈ table.inOrder ↔ ∃ key, table.lookup key = some v := by
  rw [inOrder, List.mem_map]
  constructor
  · rintro ⟨⟨key, w⟩, he, rfl⟩
    exact ⟨key, AList.mem_lookup_iff.mpr ((List.mem_insertionSort _).mp he)⟩
  · rintro ⟨key, hkey⟩
    exact ⟨⟨key, v⟩, (List.mem_insertionSort _).mpr (AList.mem_lookup_iff.mp hkey), rfl⟩

theorem pairwise_inOrder (hkeys : table.All fun key v => v.nodePublic = key) :
    table.inOrder.Pairwise fun u v => u.nodePublic < v.nodePublic := by
  have hperm := List.perm_insertionSort (fun e f : (_ : PublicKey) × ViewChange => e.1 ≤ f.1) table.entries
  have hle := List.pairwise_insertionSort (fun e f : (_ : PublicKey) × ViewChange => e.1 ≤ f.1) table.entries
  have hne : (table.entries.insertionSort fun e f => e.1 ≤ f.1).Pairwise fun e f => e.1 ≠ f.1 :=
    hperm.symm.pairwise (List.nodupKeys_iff_pairwise.mp table.nodupKeys) fun h => h.symm
  rw [inOrder, List.pairwise_map]
  refine (hle.and hne).imp_of_mem fun {e f} he hf h => ?_
  rw [hkeys e ((List.mem_insertionSort _).mp he), hkeys f ((List.mem_insertionSort _).mp hf)]
  exact lt_of_le_of_ne h.1 h.2

theorem inOrder_eq (hl : l.Pairwise fun u v => u.nodePublic < v.nodePublic)
    (hentries : table.entries = (l.map fun u => ⟨u.nodePublic, u⟩).reverse) : table.inOrder = l := by
  have hkeys : table.All fun key v => v.nodePublic = key := by
    intro e he
    rw [hentries] at he
    obtain ⟨u, -, rfl⟩ := List.mem_map.mp (List.mem_reverse.mp he)
    rfl
  have hperm : table.inOrder.Perm l := by
    have hmap : (l.map fun u => (⟨u.nodePublic, u⟩ : (_ : PublicKey) × ViewChange)).map Sigma.snd = l := by
      rw [List.map_map]
      exact List.map_id l
    have hentries' : table.entries.Perm (l.map fun u => ⟨u.nodePublic, u⟩) := hentries ▸ List.reverse_perm _
    have hsorted := ((List.perm_insertionSort (fun e f => e.1 ≤ f.1) table.entries).trans hentries').map Sigma.snd
    rwa [hmap] at hsorted
  exact hperm.eq_of_pairwise (fun _ _ _ _ hlt hgt => absurd hgt (lt_asymm hlt)) (pairwise_inOrder hkeys) hl

end ViewTable

namespace ViewChangeManager

inductive Event
  | recvViewChange (v : ViewChange)
  | onNewRound (prevLedger : LedgerRef)
  | onViewChanged (newView : UInt64) (preSeq : UInt32)

def handle (m : ViewChangeManager) : Event → ViewChangeManager
  | .recvViewChange v => m.recvViewChange v
  | .onNewRound prevLedger => m.onNewRound prevLedger
  | .onViewChanged newView preSeq => m.onViewChanged newView preSeq

def Event.From (S : Set ViewChange) : Event → Prop
  | .recvViewChange v => v ∈ S
  | _ => True

def StoredFrom (S : Set ViewChange) (m : ViewChangeManager) : Prop :=
  m.viewChangeReq.All fun view table => table.All fun key v => v.toView = view ∧ v.nodePublic = key ∧ v ∈ S

variable {S : Set ViewChange} {m : ViewChangeManager}

theorem StoredFrom.tableOf (hm : m.StoredFrom S) (view : UInt64) :
    (m.tableOf view).All fun key v => v.toView = view ∧ v.nodePublic = key ∧ v ∈ S := by
  unfold ViewChangeManager.tableOf
  cases hview : m.viewChangeReq.lookup view with
  | none => exact AList.all_empty
  | some table => exact AList.All.lookup hm hview

theorem StoredFrom.purge (hm : m.StoredFrom S) (drop : ViewChange → Bool) : (m.purge drop).StoredFrom S := by
  unfold StoredFrom ViewChangeManager.purge
  dsimp only
  refine AList.All.filterMapVal hm fun view table htable kept hkept => ?_
  split at hkept
  · cases hkept
  · cases hkept
    exact htable.eraseIf _

theorem StoredFrom.handle (hm : m.StoredFrom S) {event : Event} (hevent : event.From S) :
    (m.handle event).StoredFrom S := by
  cases event with
  | recvViewChange v => exact AList.All.insert hm ((hm.tableOf v.toView).insert ⟨rfl, rfl, hevent⟩)
  | onNewRound prevLedger => exact hm.purge _
  | onViewChanged newView preSeq =>
    have hviews : StoredFrom S { viewChangeReq := m.viewChangeReq.eraseIf fun view _ => decide (view ≤ newView) } :=
      AList.All.eraseIf hm _
    exact hviews.purge _

theorem storedFrom_final {events : List Event} (hevents : ∀ event ∈ events, event.From S) (hm : m.StoredFrom S) :
    (Run.final handle m events).StoredFrom S := by
  induction events generalizing m with
  | nil => exact hm
  | cons event events ih =>
    exact ih (fun e he => hevents e (List.mem_cons_of_mem _ he)) (hm.handle (hevents event List.mem_cons_self))

def Supported (m : ViewChangeManager) (toView : UInt64) (quorum : Nat) (ledger : LedgerRef) : Prop :=
  ∃ keys : Finset PublicKey, quorum ≤ keys.card ∧ ∀ key ∈ keys, ∃ v, (m.tableOf toView).lookup key = some v
    ∧ v.prevSeq = ledger.seq ∧ v.prevHash = ledger.id

/-- A quorum of messages for the view, in the order of their senders, which all name one previous
ledger, but not under one number. -/
structure Mixed (toView : UInt64) (quorum : Nat) (earlier : List ViewChange) (last : ViewChange) : Prop where
  ordered : (earlier ++ [last]).Pairwise fun u v => u.nodePublic < v.nodePublic
  toView_eq : ∀ u ∈ earlier ++ [last], u.toView = toView
  hash_eq : ∀ u ∈ earlier, u.prevHash = last.prevHash
  complete : earlier.length + 1 = quorum
  positive : 0 < last.prevSeq
  seq_ne : ∃ u ∈ earlier, u.prevSeq ≠ last.prevSeq

variable {ledger : LedgerRef} {quorum : Nat} {toView : UInt64}

theorem shouldTriggerViewChange_eq_some :
    m.shouldTriggerViewChange toView quorum = some ledger
      ↔ quorum ≤ (m.tableOf toView).size ∧ ∃ v, ViewTable.reachQuorum quorum [] (m.tableOf toView).inOrder = some v
        ∧ 0 < v.prevSeq ∧ ledger = { id := v.prevHash, seq := v.prevSeq } := by
  unfold shouldTriggerViewChange
  dsimp only
  split
  next hsize =>
    split
    next v hv =>
      split
      next hpos => simp [hsize, hv, hpos, eq_comm]
      next hpos => simp [hsize, hv, hpos]
    next hv => simp [hv]
  next hsize =>
    simp [hsize]

theorem exists_mixed (hm : m.StoredFrom S) (htrigger : m.shouldTriggerViewChange toView quorum = some ledger)
    (hnot : ¬ m.Supported toView quorum ledger) :
    ∃ earlier last, (∀ u ∈ earlier ++ [last], u ∈ S) ∧ Mixed toView quorum earlier last := by
  obtain ⟨-, last, hlast, hpos, rfl⟩ := shouldTriggerViewChange_eq_some.mp htrigger
  have hquorum : 0 < quorum := by
    rw [Nat.pos_iff_ne_zero]
    rintro rfl
    exact hnot ⟨∅, Nat.zero_le _, fun key hkey => absurd hkey (Finset.notMem_empty key)⟩
  have htable := hm.tableOf toView
  obtain ⟨before, after, hsplit, hcount⟩ :=
    ViewTable.reachQuorum_spec (fun hash => by rwa [List.count_nil]) hlast
  rw [List.count_nil, Nat.zero_add] at hcount
  let earlier := before.filter fun u => u.prevHash = last.prevHash
  have hsub : (earlier ++ [last]).Sublist (m.tableOf toView).inOrder := by
    rw [hsplit]
    exact List.filter_sublist.append (List.singleton_sublist.mpr List.mem_cons_self)
  have hstored : ∀ u ∈ earlier ++ [last], u.toView = toView ∧ (m.tableOf toView).lookup u.nodePublic = some u ∧ u ∈ S := by
    intro u hu
    obtain ⟨key, hkey⟩ := ViewTable.mem_inOrder.mp (hsub.subset hu)
    obtain ⟨hview, rfl, hS⟩ := htable.lookup hkey
    exact ⟨hview, hkey, hS⟩
  have hordered : (earlier ++ [last]).Pairwise fun u v => u.nodePublic < v.nodePublic :=
    (ViewTable.pairwise_inOrder (htable.imp fun _ _ h => h.2.1)).sublist hsub
  have hhash : ∀ u ∈ earlier, u.prevHash = last.prevHash := fun u hu => of_decide_eq_true (List.mem_filter.mp hu).2
  refine ⟨earlier, last, fun u hu => (hstored u hu).2.2, hordered, fun u hu => (hstored u hu).1, hhash, hcount, hpos, ?_⟩
  -- If all of them gave the number of the last, their senders would be the keys asked for.
  by_contra hsame
  push Not at hsame
  refine hnot ⟨((earlier ++ [last]).map ViewChange.nodePublic).toFinset, ?_, ?_⟩
  · have hnodup : ((earlier ++ [last]).map ViewChange.nodePublic).Nodup :=
      List.pairwise_map.mpr (hordered.imp fun h => ne_of_lt h)
    rw [List.toFinset_card_of_nodup hnodup, List.length_map, List.length_append]
    exact le_of_eq hcount.symm
  · intro key hkey
    obtain ⟨u, hu, rfl⟩ := List.mem_map.mp (List.mem_toFinset.mp hkey)
    refine ⟨u, (hstored u hu).2.1, ?_⟩
    rcases List.mem_append.mp hu with hu | hu
    · exact ⟨hsame u hu, hhash u hu⟩
    · rw [List.mem_singleton.mp hu]
      exact ⟨rfl, rfl⟩

theorem entries_recvAll {l : List ViewChange} (hview : ∀ u ∈ l, u.toView = toView)
    (hsenders : l.Pairwise fun u v => u.nodePublic < v.nodePublic) :
    ((Run.final handle {} (l.map Event.recvViewChange)).tableOf toView).entries
      = (l.map fun u => ⟨u.nodePublic, u⟩).reverse := by
  induction l using List.reverseRecOn with
  | nil => rfl
  | append_singleton l v ih =>
    rw [List.pairwise_append] at hsenders
    have hrest := ih (fun u hu => hview u (List.mem_append_left _ hu)) hsenders.1
    have hv : v.toView = toView := hview v (List.mem_append_right _ (List.mem_singleton_self v))
    rw [List.map_append, Run.final_append]
    generalize Run.final handle {} (l.map Event.recvViewChange) = m at hrest
    have hnew : v.nodePublic ∉ m.tableOf toView := by
      intro hmem
      have hkey : v.nodePublic ∈ (m.tableOf toView).entries.map Sigma.fst := hmem
      rw [hrest, List.mem_map] at hkey
      obtain ⟨e, he, heq⟩ := hkey
      obtain ⟨u, hu, rfl⟩ := List.mem_map.mp (List.mem_reverse.mp he)
      exact absurd heq (ne_of_lt (hsenders.2.2 u hu v (List.mem_singleton_self v)))
    have htable : (m.recvViewChange v).tableOf toView = (m.tableOf toView).insert v.nodePublic v := by
      rw [tableOf, recvViewChange, hv, AList.lookup_insert]
      rfl
    show ((m.recvViewChange v).tableOf toView).entries = _
    rw [htable, AList.entries_insert_of_notMem hnew, hrest, List.map_append, List.reverse_append]
    rfl

theorem Mixed.unsupported {earlier : List ViewChange} {last : ViewChange} (h : Mixed toView quorum earlier last) :
    let m := Run.final handle {} ((earlier ++ [last]).map Event.recvViewChange)
    m.shouldTriggerViewChange toView quorum = some { id := last.prevHash, seq := last.prevSeq }
      ∧ ¬ m.Supported toView quorum { id := last.prevHash, seq := last.prevSeq } := by
  intro m
  have hentries := entries_recvAll h.toView_eq h.ordered
  constructor
  · refine shouldTriggerViewChange_eq_some.mpr ⟨?_, last, ?_, h.positive, rfl⟩
    · rw [AList.size, hentries, List.length_reverse, List.length_map, List.length_append]
      exact le_of_eq h.complete.symm
    · rw [ViewTable.inOrder_eq h.ordered hentries]
      exact ViewTable.reachQuorum_same h.hash_eq (by rw [List.count_nil, Nat.zero_add]; exact h.complete)
  · rintro ⟨keys, hcard, hkeys⟩
    obtain ⟨w, hw, hne⟩ := h.seq_ne
    have hsub : keys ⊆ (((earlier ++ [last]).filter fun u => u.prevSeq = last.prevSeq).map
        ViewChange.nodePublic).toFinset := by
      intro key hkey
      obtain ⟨v, hv, hseq, -⟩ := hkeys key hkey
      have hmem := AList.mem_lookup_iff.mp hv
      rw [hentries] at hmem
      obtain ⟨u, hu, heq⟩ := List.mem_map.mp (List.mem_reverse.mp hmem)
      cases heq
      exact List.mem_toFinset.mpr (List.mem_map.mpr ⟨v, List.mem_filter.mpr ⟨hu, decide_eq_true hseq⟩, rfl⟩)
    have hlt : ((earlier ++ [last]).filter fun u => u.prevSeq = last.prevSeq).length < quorum := by
      have hlength : (earlier ++ [last]).length = quorum := by
        rw [List.length_append, List.length_singleton, h.complete]
      rw [← hlength]
      exact List.length_filter_lt_length_iff_exists.mpr ⟨w, List.mem_append_left _ hw, by simpa using hne⟩
    have hle := (Finset.card_le_card hsub).trans (List.toFinset_card_le _)
    rw [List.length_map] at hle
    omega

/-- Every answer to messages from `S`, in every run, names a ledger that a quorum of the stored
messages names, with its number, if and only if `S` has no mixed quorum. -/
theorem trigger_supported_iff (S : Set ViewChange) (toView : UInt64) (quorum : Nat) :
    (∀ events : List Event, (∀ event ∈ events, event.From S) → ∀ ledger : LedgerRef,
        (Run.final handle {} events).shouldTriggerViewChange toView quorum = some ledger →
        (Run.final handle {} events).Supported toView quorum ledger)
      ↔ ¬ ∃ earlier last, (∀ u ∈ earlier ++ [last], u ∈ S) ∧ Mixed toView quorum earlier last := by
  constructor
  · rintro hall ⟨earlier, last, hS, hmixed⟩
    obtain ⟨htrigger, hnot⟩ := hmixed.unsupported
    refine hnot (hall _ ?_ _ htrigger)
    intro event hevent
    obtain ⟨u, hu, rfl⟩ := List.mem_map.mp hevent
    exact hS u hu
  · intro hnone events hevents ledger htrigger
    by_contra hnot
    exact hnone (exists_mixed (storedFrom_final hevents AList.all_empty) htrigger hnot)

/-- Two validators name ledger 70 as the previous one, under the numbers 5 and 9. The answer is number
9, which one of them gave. -/
theorem number_of_one_sender :
    let messages : List ViewChange := [⟨5, 70, 1, 1⟩, ⟨9, 70, 1, 2⟩]
    let m := Run.final handle {} (messages.map Event.recvViewChange)
    m.shouldTriggerViewChange 1 2 = some { id := 70, seq := 9 } ∧ ¬ m.Supported 1 2 { id := 70, seq := 9 } :=
  have hmixed : Mixed 1 2 [⟨5, 70, 1, 1⟩] ⟨9, 70, 1, 2⟩ :=
    ⟨by decide, by decide, by decide, rfl, by decide, ⟨5, 70, 1, 1⟩, List.mem_singleton_self _, by decide⟩
  hmixed.unsupported

end ViewChangeManager

end Chainsql.Pop
