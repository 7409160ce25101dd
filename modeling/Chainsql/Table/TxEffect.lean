import Chainsql.Lib.Effects
import Chainsql.Table.TableListSet

/-!
# What a transaction does to the tables

`Has` says that an entry is there, in the list or on its own, `entries` has them all, and `Named` says that
every entry is found by its name. `TxEffect` lists what a transaction that is applied can do to the entries
and the grants.
-/

namespace Chainsql.Table

open OwnerTables

open Evm (AccountID)

/-! ## The entries -/

namespace OwnerTables

def Has (s : OwnerTables) (entry : TableEntry) : Prop :=
  s.tables.lookup entry.tableName = some entry ∨ entry ∈ s.tableEntries

def entries (s : OwnerTables) : Multiset TableEntry := s.tables.values + s.tableEntries

/-- The entries of their own are under their names. -/
def Keyed (s : OwnerTables) : Prop := s.tables.All fun name entry => entry.tableName = name

structure Named (s : OwnerTables) : Prop where
  keyed : s.Keyed
  nodup : (s.entries.map TableEntry.tableName).Nodup

/-- What is left without the table that is found there. -/
def without (s : OwnerTables) (name : TableName) : Place → OwnerTables
  | .own => { s with tables := s.tables.erase name }
  | .list =>
    { s with tableList := some (s.tableEntries.eraseIdx (s.tableEntries.findIdx fun entry => entry.tableName == name)) }

variable {s s' : OwnerTables} {name : TableName} {entry new : TableEntry} {place : Place}

theorem Named.mem_entries (h : s.Named) : entry ∈ s.entries ↔ s.Has entry := by
  rw [entries, Multiset.mem_add, AList.mem_values]
  refine or_congr_left ⟨?_, fun hown => ⟨_, hown⟩⟩
  rintro ⟨name, hname⟩
  rwa [h.keyed.lookup hname]

theorem getTableEntry_ways (h : s.getTableEntry name = some (place, entry)) :
    (place = .own ∧ s.tables.lookup name = some entry) ∨ place = .list ∧ s.tables.lookup name = none
      ∧ (s.tableEntries.find? fun entry => entry.tableName == name) = some entry := by
  unfold getTableEntry at h
  split at h
  next hown =>
    cases h
    exact .inl ⟨rfl, hown⟩
  next hnone =>
    obtain ⟨e, he, heq⟩ := Option.map_eq_some_iff.mp h
    cases heq
    exact .inr ⟨rfl, hnone, he⟩

theorem Keyed.tableName_eq (h : s.Keyed) (hfound : s.getTableEntry name = some (place, entry)) :
    entry.tableName = name := by
  rcases getTableEntry_ways hfound with ⟨-, hown⟩ | ⟨-, -, hlist⟩
  · exact h.lookup hown
  · simpa using List.find?_some hlist

theorem findIdx_of_list (hfound : s.getTableEntry name = some (.list, entry)) :
    ∃ hlt : (s.tableEntries.findIdx fun entry => entry.tableName == name) < s.tableEntries.length,
      s.tableEntries[s.tableEntries.findIdx fun entry => entry.tableName == name] = entry := by
  rcases getTableEntry_ways hfound with ⟨h, -⟩ | ⟨-, -, hlist⟩
  · cases h
  · rw [List.find?_eq_getElem?_findIdx] at hlist
    exact List.getElem?_eq_some_iff.mp hlist

theorem entries_of_found (hfound : s.getTableEntry name = some (place, entry)) :
    s.entries = entry ::ₘ (s.without name place).entries := by
  cases place with
  | own =>
    rcases getTableEntry_ways hfound with ⟨-, hown⟩ | ⟨h, -⟩
    · rw [entries, AList.values_of_lookup hown]
      rfl
    · cases h
  | list =>
    obtain ⟨hlt, hentry⟩ := findIdx_of_list hfound
    have hperm := List.getElem_cons_eraseIdx_perm hlt
    rw [hentry] at hperm
    rw [entries, ← Multiset.coe_eq_coe.mpr hperm, ← Multiset.cons_coe, Multiset.add_cons]
    rfl

theorem Named.getTableEntry_eq_none (h : s.Named) :
    s.getTableEntry name = none ↔ ∀ e ∈ s.entries, e.tableName ≠ name := by
  constructor
  · rintro hnone e he rfl
    unfold getTableEntry at hnone
    rcases h.mem_entries.mp he with he | he
    · rw [he] at hnone
      cases hnone
    · split at hnone
      · cases hnone
      · rw [Option.map_eq_none_iff, List.find?_eq_none] at hnone
        exact hnone e he (beq_self_eq_true _)
  · intro hne
    rw [Option.eq_none_iff_forall_ne_some]
    rintro ⟨place, entry⟩ hfound
    refine hne entry ?_ (h.keyed.tableName_eq hfound)
    rw [entries_of_found hfound]
    exact Multiset.mem_cons_self _ _

theorem Named.eq_of_tableName (h : s.Named) {entry' : TableEntry} (hentry : entry ∈ s.entries)
    (hentry' : entry' ∈ s.entries) (hname : entry.tableName = entry'.tableName) : entry = entry' :=
  Multiset.inj_on_of_nodup_map h.nodup entry hentry entry' hentry' hname

theorem Named.found_iff (h : s.Named) :
    (∃ place, s.getTableEntry name = some (place, entry)) ↔ entry ∈ s.entries ∧ entry.tableName = name := by
  constructor
  · rintro ⟨place, hfound⟩
    rw [entries_of_found hfound]
    exact ⟨Multiset.mem_cons_self _ _, h.keyed.tableName_eq hfound⟩
  · rintro ⟨hentry, hname⟩
    rcases hfound : s.getTableEntry name with _ | ⟨place, e⟩
    · exact absurd hname (h.getTableEntry_eq_none.mp hfound entry hentry)
    · have he : e ∈ s.entries := by simp [entries_of_found hfound]
      rw [h.eq_of_tableName hentry he (hname.trans (h.keyed.tableName_eq hfound).symm)]
      exact ⟨place, rfl⟩

theorem Named.cons (h : s.Named) (hkeyed : s'.Keyed) (hentries : s'.entries = new ::ₘ s.entries)
    (hfree : ∀ e ∈ s.entries, e.tableName ≠ new.tableName) : s'.Named := by
  refine ⟨hkeyed, ?_⟩
  rw [hentries, Multiset.map_cons, Multiset.nodup_cons, Multiset.mem_map]
  refine ⟨?_, h.nodup⟩
  rintro ⟨e, he, heq⟩
  exact hfree e he heq

theorem Keyed.without (h : s.Keyed) : (s.without name place).Keyed := by
  cases place with
  | own => exact AList.All.erase h name
  | list => exact h

theorem Named.without (h : s.Named) (hfound : s.getTableEntry name = some (place, entry)) :
    (s.without name place).Named
      ∧ ∀ e, e ∈ (s.without name place).entries ↔ e ∈ s.entries ∧ e.tableName ≠ name := by
  have hnodup := h.nodup
  rw [entries_of_found hfound, Multiset.map_cons, Multiset.nodup_cons, h.keyed.tableName_eq hfound] at hnodup
  refine ⟨⟨h.keyed.without, hnodup.2⟩, fun e => ?_⟩
  rw [entries_of_found hfound, Multiset.mem_cons]
  constructor
  · intro he
    refine ⟨.inr he, ?_⟩
    rintro rfl
    exact hnodup.1 (Multiset.mem_map_of_mem _ he)
  · rintro ⟨rfl | he, hne⟩
    · exact absurd (h.keyed.tableName_eq hfound) hne
    · exact he

end OwnerTables

/-! ## What a transaction does -/

/-- What a transaction that is applied does to the entries, and to the grants where rights are kept in
them. -/
inductive TxEffect (env : Env) (owner : AccountID) (s : OwnerTables) (tx : Tx) (s' : OwnerTables) : Prop
  | created (op : tx.opType = .create) (free : s.getTableEntry tx.tableName = none)
      (entries : s'.entries = tx.prepareTableEntry env owner ::ₘ s.entries)
      (grants : env.featureTableGrant = true →
        s'.grants = s.grants.insert (tx.tableName, owner) (tx.newGrant owner 0))
  | dropped (op : tx.opType = .drop) (place : Place) (entry : TableEntry)
      (found : s.getTableEntry tx.tableName = some (place, entry)) (eq : s' = applyDrop env s tx place entry)
  | renamed (op : tx.opType = .rename) (place : Place) (entry : TableEntry)
      (found : s.getTableEntry tx.tableName = some (place, entry))
      (free : s.getTableEntry (tx.tableNewName.getD []) = none)
      (entries : s'.entries
        = { entry with tableName := tx.tableNewName.getD [] } ::ₘ (s.without tx.tableName place).entries)
      (grants : entry.users = none → ∀ k g, s'.grants.lookup k = some g →
        (s.grants.lookup k = some g ∧ g.nameInDB ≠ entry.nameInDB)
          ∨ ∃ k', s.grants.lookup k' = some g ∧ g.nameInDB = entry.nameInDB ∧ k = (tx.tableNewName.getD [], g.user))
  | usersSet (place : Place) (entry : TableEntry) (found : s.getTableEntry tx.tableName = some (place, entry))
      (users : List TableUser) (before : entry.users ≠ none) (eq : s' = s.setUsers tx.tableName place entry users)
  | granted (op : tx.opType = .grant ∨ tx.opType = .assign ∨ tx.opType = .cancelAssign) (place : Place)
      (entry : TableEntry) (found : s.getTableEntry tx.tableName = some (place, entry))
      (user : tx.opType = .grant → tx.user ≠ none) (own : tx.isCrossChainUpload = false) (grant : TableGrant)
      (grant_eq : (∃ old, s.grants.lookup (tx.tableName, tx.user.getD 0) = some old
          ∧ grant = { old with flags := tx.getFinalFlag (some old.flags) })
        ∨ grant = tx.newGrant owner (tx.getFinalFlag none))
      (eq : s' = { s with grants := s.grants.insert (tx.tableName, tx.user.getD 0) grant })
  | kept (op : tx.opType = .other ∨ tx.isCrossChainUpload = true
      ∧ (tx.opType = .grant ∨ tx.opType = .assign ∨ tx.opType = .cancelAssign)) (eq : s' = s)

variable {env : Env} {s s' : OwnerTables}

theorem addGrant_ok {name : TableName} {user : AccountID} {grant : TableGrant}
    (h : s.addGrant env name user grant = .ok s') : s' = { s with grants := s.grants.insert (name, user) grant } := by
  simp only [addGrant, ite_eq_iff, reduceCtorEq, and_false, false_or] at h
  exact (Except.ok.inj h.2.2).symm

variable {entry : TableEntry}

theorem addTable_ok (h : s.addTable env entry = .ok s') :
    s' = { s with tables := s.tables.insert entry.tableName entry } ∧ s'.entries = entry ::ₘ s.entries := by
  simp only [addTable, ite_eq_iff, reduceCtorEq, and_false, false_or] at h
  obtain ⟨-, hnot, heq⟩ := h
  cases heq
  refine ⟨rfl, ?_⟩
  rw [entries, AList.values_insert, AList.erase_of_lookup_none (AList.lookup_eq_none.mpr hnot)]
  rfl

theorem moveGrants_ok {newName : TableName} {nameInDB : NameInDB} {sles : List ((TableName × AccountID) × TableGrant)}
    (h : sles.foldlM (moveGrant env newName nameInDB) s = .ok s') :
    s' = { s with grants := s'.grants } ∧ ∀ k g, s'.grants.lookup k = some g →
      (s.grants.lookup k = some g ∧ ∀ sle ∈ sles, sle.1 ≠ k)
        ∨ ∃ sle ∈ sles, k = (newName, sle.2.user) ∧ g = { sle.2 with nameInDB := nameInDB } := by
  induction sles generalizing s with
  | nil =>
    cases h
    exact ⟨rfl, fun k g hg => .inl ⟨hg, by simp⟩⟩
  | cons sle sles ih =>
    obtain ⟨t, ht, h⟩ := Except.bind_eq_ok.mp h
    obtain ⟨t', ht', heq⟩ := Except.bind_eq_ok.mp ht
    cases heq
    obtain rfl := addGrant_ok ht'
    obtain ⟨hsame, hgrants⟩ := ih h
    refine ⟨hsame, fun k g hg => ?_⟩
    rcases hgrants k g hg with ⟨hk, hrest⟩ | ⟨moved, hmoved, hk⟩
    · have hne : k ≠ sle.1 := by
        rintro rfl
        rw [AList.lookup_erase] at hk
        cases hk
      rw [AList.lookup_erase_ne hne] at hk
      by_cases hnew : k = (newName, sle.2.user)
      · subst hnew
        rw [AList.lookup_insert] at hk
        cases hk
        exact .inr ⟨sle, List.mem_cons_self, rfl, rfl⟩
      · rw [AList.lookup_insert_ne hnew] at hk
        exact .inl ⟨hk, List.forall_mem_cons.mpr ⟨hne.symm, hrest⟩⟩
    · exact .inr ⟨moved, List.mem_cons_of_mem _ hmoved, hk⟩

theorem mem_getRelatedGrantSles {k : TableName × AccountID} {g : TableGrant} :
    (k, g) ∈ s.getRelatedGrantSles entry ↔ s.grants.lookup k = some g ∧ g.nameInDB = entry.nameInDB := by
  rw [getRelatedGrantSles, List.mem_map, ← Option.mem_def, AList.mem_lookup_iff]
  constructor
  · rintro ⟨⟨k', g'⟩, hmem, heq⟩
    cases heq
    simpa using hmem
  · rintro ⟨hmem, hname⟩
    exact ⟨⟨k, g⟩, List.mem_filter.mpr ⟨hmem, beq_iff_eq.mpr hname⟩, rfl⟩

variable {owner : AccountID} {tx : Tx} {place : Place}

theorem addEntry_ok (hkeyed : s.Keyed) (h : s.addEntry env entry = .ok s') :
    s'.Keyed ∧ s'.entries = entry ::ₘ s.entries ∧ s'.grants = s.grants := by
  unfold addEntry at h
  split at h
  · obtain ⟨rfl, hentries⟩ := addTable_ok h
    exact ⟨AList.All.insert hkeyed rfl, hentries, rfl⟩
  · obtain ⟨htables, hlist, hgrants⟩ : s'.tables = s.tables ∧ s'.tableEntries = s.tableEntries ++ [entry]
        ∧ s'.grants = s.grants := by
      unfold tableEntries
      split at h
      next tableEntries hsome =>
        cases h
        exact ⟨rfl, by rw [hsome]; rfl, rfl⟩
      next hnone =>
        split at h
        · cases h
        · cases h
          exact ⟨rfl, by rw [hnone]; rfl, rfl⟩
    refine ⟨by rw [OwnerTables.Keyed, htables]; exact hkeyed, ?_, hgrants⟩
    rw [entries, entries, htables, hlist, ← Multiset.add_cons, Multiset.cons_coe,
      Multiset.coe_eq_coe.mpr (List.perm_append_singleton _ _)]

theorem effect_create (hkeyed : s.Keyed) (hop : tx.opType = .create)
    (hpre : preclaimCreate env s tx = .tesSUCCESS) (h : applyCreate env owner s tx = .ok s') :
    s'.Keyed ∧ TxEffect env owner s tx s' := by
  have hnone : s.getTableEntry tx.tableName = none := by
    simp only [preclaimCreate, ite_eq_iff, reduceCtorEq, and_false, false_or] at hpre
    exact Option.not_isSome_iff_eq_none.mp hpre.2.2.1
  unfold applyCreate at h
  split at h
  · obtain ⟨t, ht, h⟩ := Except.bind_eq_ok.mp h
    obtain rfl := addGrant_ok ht
    obtain ⟨hkeyed', hentries, hgrants⟩ := addEntry_ok (by exact hkeyed) h
    exact ⟨hkeyed', .created hop hnone hentries fun _ => hgrants⟩
  next hgrant =>
    obtain ⟨hkeyed', hentries, -⟩ := addEntry_ok hkeyed h
    exact ⟨hkeyed', .created hop hnone hentries fun hon => absurd hon hgrant⟩

theorem removeGrants_eq (pEntry : TableEntry) : ∃ grants, removeGrants s pEntry = { s with grants := grants }
    ∧ ∀ k g, grants.lookup k = some g ↔
      s.grants.lookup k = some g ∧ ¬(pEntry.users = none ∧ g.nameInDB = pEntry.nameInDB) := by
  unfold removeGrants
  split
  next husers =>
    refine ⟨s.grants, rfl, fun k g => (and_iff_left ?_).symm⟩
    rintro ⟨hnone, -⟩
    simp [hnone] at husers
  next husers =>
    refine ⟨_, rfl, fun k g => AList.lookup_eraseIf.trans (and_congr_right fun _ => ?_)⟩
    simp [Option.not_isSome_iff_eq_none.mp husers]

/-- The entry that the code has a pointer to when it looks for the grants of a table that has been dropped. -/
def pointed (env : Env) (s : OwnerTables) (name : TableName) (entry : TableEntry) : Place → TableEntry
  | .own => entry
  | .list => (s.tableEntries[(s.tableEntries.findIdx fun entry => entry.tableName == name) + 1]?).getD env.erased

theorem applyDrop_eq :
    applyDrop env s tx place entry = removeGrants (s.without tx.tableName place) (pointed env s tx.tableName entry place) := by
  cases place <;> rfl

theorem renameEntry_ok (hkeyed : s.Keyed) {renamed : TableEntry}
    (hfound : s.getTableEntry tx.tableName = some (place, entry)) (hne : renamed.tableName ≠ tx.tableName)
    (h : renameEntry env s tx place renamed = .ok s') :
    s'.Keyed ∧ s'.entries = renamed ::ₘ (s.without tx.tableName place).entries ∧ s'.grants = s.grants := by
  cases place with
  | list =>
    cases h
    obtain ⟨hlt, -⟩ := findIdx_of_list hfound
    refine ⟨hkeyed, ?_, rfl⟩
    rw [entries, entries, ← Multiset.add_cons]
    exact congrArg _ (Multiset.coe_eq_coe.mpr (List.set_perm_cons_eraseIdx hlt renamed))
  | own =>
    obtain ⟨t, ht, h⟩ := Except.bind_eq_ok.mp h
    obtain ⟨rfl, hentries⟩ := addTable_ok ht
    cases h
    refine ⟨(AList.All.insert hkeyed rfl).erase _, ?_, rfl⟩
    -- both sides with the entry that is removed
    have hstill : getTableEntry { s with tables := s.tables.insert renamed.tableName renamed } tx.tableName
        = some (.own, entry) := by
      rcases getTableEntry_ways hfound with ⟨-, hown⟩ | ⟨h, -⟩
      · unfold getTableEntry
        rw [AList.lookup_insert_ne hne.symm, hown]
      · cases h
    rw [entries_of_found hstill, entries_of_found hfound, Multiset.cons_swap,
      Multiset.cons_inj_right] at hentries
    exact hentries

theorem effect_rename (hkeyed : s.Keyed) (hop : tx.opType = .rename)
    (hfound : s.getTableEntry tx.tableName = some (place, entry)) (hpre : preclaimRename s tx = .tesSUCCESS)
    (h : applyRename env s tx place entry = .ok s') : s'.Keyed ∧ TxEffect env owner s tx s' := by
  obtain ⟨hne, hnone⟩ : tx.tableNewName.getD [] ≠ tx.tableName ∧ s.getTableEntry (tx.tableNewName.getD []) = none := by
    simp only [preclaimRename, ite_eq_iff, reduceCtorEq, and_false, false_or] at hpre
    exact ⟨fun h => hpre.1 h.symm, Option.not_isSome_iff_eq_none.mp hpre.2.1⟩
  obtain ⟨t, ht, h⟩ := Except.bind_eq_ok.mp h
  obtain ⟨hkeyed', hentries, hgrants⟩ := renameEntry_ok hkeyed hfound hne ht
  split at h
  next husers =>
    cases h
    refine ⟨hkeyed', .renamed hop place entry hfound hnone hentries fun hnone => ?_⟩
    simp [hnone] at husers
  · obtain ⟨hsame, hmoved⟩ := moveGrants_ok h
    have hentries' : s'.entries = t.entries := by
      rw [hsame]
      rfl
    refine ⟨by rw [hsame]; exact hkeyed', .renamed hop place entry hfound hnone (hentries'.trans hentries)
      fun _ k g hg => ?_⟩
    rcases hmoved k g hg with ⟨hk, hkept⟩ | ⟨⟨k', g'⟩, hsle, hk, hg'⟩
    · exact .inl ⟨hgrants ▸ hk, fun hname => hkept (k, g) (mem_getRelatedGrantSles.mpr ⟨hk, hname⟩) rfl⟩
    · obtain ⟨hk', hname⟩ := mem_getRelatedGrantSles.mp hsle
      have hg : g = g' := by
        rw [hg', ← hname]
      subst hg
      exact .inr ⟨k', hgrants ▸ hk', hname, hk⟩

theorem effect_grant (hop : tx.opType = .grant ∨ tx.opType = .assign ∨ tx.opType = .cancelAssign)
    (hfound : s.getTableEntry tx.tableName = some (place, entry))
    (hpre : tx.opType = .grant → preclaimGrant env owner s tx entry = .tesSUCCESS)
    (h : applyGrant env owner s tx place entry = .ok s') : TxEffect env owner s tx s' := by
  unfold applyGrant at h
  split at h
  next hcross =>
    cases h
    exact .kept (.inr ⟨hcross, hop⟩) rfl
  next hcross =>
    have hsome : ∀ users, entry.users = some users → entry.users ≠ none := by simp +contextual
    have huser : tx.opType = .grant → tx.user ≠ none := by
      intro hgrant hnone
      have hpre := hpre hgrant
      rw [preclaimGrant, if_neg hcross, hnone] at hpre
      cases hpre
    have hcross := Bool.eq_false_of_not_eq_true hcross
    dsimp only at h
    split at h
    next users husers =>
      split at h
      · cases h
        exact .usersSet place entry hfound _ (hsome users husers) rfl
      · cases h
        exact .usersSet place entry hfound _ (hsome users husers) rfl
    · split at h
      next old hold =>
        cases h
        exact .granted hop place entry hfound huser hcross _ (.inl ⟨old, hold, rfl⟩) rfl
      · exact .granted hop place entry hfound huser hcross _ (.inr rfl) (addGrant_ok h)

theorem setUsers_ok (hkeyed : s.Keyed) {name : TableName} (hfound : s.getTableEntry name = some (place, entry))
    (users : List TableUser) :
    (s.setUsers name place entry users).Keyed
      ∧ (s.setUsers name place entry users).entries = { entry with users := some users } ::ₘ (s.without name place).entries := by
  cases place with
  | own =>
    have hname : entry.tableName = name := hkeyed.tableName_eq hfound
    refine ⟨AList.All.insert hkeyed hname, ?_⟩
    exact congrArg (· + _) AList.values_insert
  | list =>
    obtain ⟨hlt, -⟩ := findIdx_of_list hfound
    refine ⟨hkeyed, ?_⟩
    rw [entries, entries, ← Multiset.add_cons]
    exact congrArg _ (Multiset.coe_eq_coe.mpr (List.set_perm_cons_eraseIdx hlt _))

theorem TxEffect.named (heffect : TxEffect env owner s tx s') (hnamed : s.Named) (hkeyed : s'.Keyed) : s'.Named := by
  cases heffect with
  | created op free entries =>
    have hname : (tx.prepareTableEntry env owner).tableName = tx.tableName := rfl
    exact hnamed.cons hkeyed entries (hname ▸ hnamed.getTableEntry_eq_none.mp free)
  | dropped op place entry found eq =>
    obtain ⟨grants, hgrants, -⟩ :=
      removeGrants_eq (s := s.without tx.tableName place) (pointed env s tx.tableName entry place)
    rw [eq, applyDrop_eq, hgrants]
    exact ⟨(hnamed.without found).1.keyed, (hnamed.without found).1.nodup⟩
  | renamed op place entry found free entries =>
    obtain ⟨hrest, hmem⟩ := hnamed.without found
    exact hrest.cons hkeyed entries fun e he => hnamed.getTableEntry_eq_none.mp free e ((hmem e).mp he).1
  | usersSet place entry found users before eq =>
    obtain ⟨hrest, hmem⟩ := hnamed.without found
    refine hrest.cons hkeyed (eq ▸ (setUsers_ok hnamed.keyed found users).2) fun e he => ?_
    rw [hnamed.keyed.tableName_eq found]
    exact ((hmem e).mp he).2
  | granted op place entry found user own grant grant_eq eq => exact eq ▸ ⟨hnamed.keyed, hnamed.nodup⟩
  | kept op eq => exact eq ▸ hnamed

theorem applyTx_effect (hnamed : s.Named) (h : applyTx env owner s tx = .ok s') :
    s'.Named ∧ TxEffect env owner s tx s' := by
  suffices hkeyed : s'.Keyed ∧ TxEffect env owner s tx s' from ⟨hkeyed.2.named hnamed hkeyed.1, hkeyed.2⟩
  have hkeyed := hnamed.keyed
  unfold applyTx at h
  split at h
  next hpre =>
    unfold preclaimHandler at hpre
    unfold applyHandler at h
    by_cases hcreate : tx.opType = .create
    · rw [hcreate] at h hpre
      exact effect_create hkeyed hcreate hpre h
    rcases hfound : s.getTableEntry tx.tableName with _ | ⟨place, entry⟩
    · rw [hfound] at hpre
      cases hop : tx.opType with
      | create => exact absurd hop hcreate
      | assign | cancelAssign | drop | rename | grant | other =>
        rw [hop] at hpre
        cases hpre
    · rw [hfound] at h hpre
      have hgrant : (tx.opType = .grant ∨ tx.opType = .assign ∨ tx.opType = .cancelAssign) →
          (tx.opType = .grant → preclaimGrant env owner s tx entry = .tesSUCCESS) →
          applyGrant env owner s tx place entry = .ok s' → s'.Keyed ∧ TxEffect env owner s tx s' := by
        intro hop hpre h
        have heffect := effect_grant hop hfound hpre h
        refine ⟨?_, heffect⟩
        cases heffect with
        | usersSet place entry found users before eq => exact eq ▸ (setUsers_ok hkeyed found users).1
        | granted op place entry found user own grant grant_eq eq => exact eq ▸ hkeyed
        | kept op eq => exact eq ▸ hkeyed
        | created op | dropped op | renamed op => simp [op] at hop
      cases hop : tx.opType with
      | create => exact absurd hop hcreate
      | drop =>
        rw [hop] at h
        cases h
        obtain ⟨grants, hgrants, -⟩ :=
          removeGrants_eq (s := s.without tx.tableName place) (pointed env s tx.tableName entry place)
        refine ⟨?_, .dropped hop place entry hfound rfl⟩
        rw [applyDrop_eq, hgrants]
        exact hkeyed.without
      | rename =>
        rw [hop] at h hpre
        exact effect_rename hkeyed hop hfound hpre h
      | grant =>
        rw [hop] at h hpre
        exact hgrant (.inl hop) (fun _ => hpre) h
      | assign =>
        rw [hop] at h
        exact hgrant (.inr (.inl hop)) (by simp [hop]) h
      | cancelAssign =>
        rw [hop] at h
        exact hgrant (.inr (.inr hop)) (by simp [hop]) h
      | other =>
        rw [hop] at h
        cases h
        exact ⟨hkeyed, .kept (.inl hop) rfl⟩
  · cases h

/-! ## Names -/

theorem OwnerTables.Named.handle {h h' : History} {event : Env × Tx} (hnamed : h.tables.Named)
    (hstep : h.handle owner event = .ok h') : h'.tables.Named := by
  unfold History.handle at hstep
  split at hstep
  next tables happly =>
    cases hstep
    exact (applyTx_effect hnamed happly).1
  · cases hstep
    exact hnamed
  · cases hstep

theorem OwnerTables.Named.init : (({} : History).tables).Named := ⟨AList.all_empty, Multiset.nodup_zero⟩

/-- After any transactions an owner has one table of a name at most, the entries of their own are under
their names, and the lookup finds the table of a name. -/
theorem names_unique (owner : AccountID) (events : List (Env × Tx)) (h : History)
    (hreach : Run.reach (History.handle owner) {} events = .ok h) :
    (h.tables.entries.map TableEntry.tableName).Nodup
      ∧ (∀ name entry, h.tables.tables.lookup name = some entry → entry.tableName = name)
      ∧ ∀ name entry, (∃ place, h.tables.getTableEntry name = some (place, entry))
        ↔ entry ∈ h.tables.entries ∧ entry.tableName = name := by
  have hnamed : h.tables.Named :=
    @Run.reach_invariant _ _ _ _ _ _ _ (fun h => h.tables.Named) OwnerTables.Named.init
      (fun _ _ _ hnamed hstep => hnamed.handle hstep) hreach
  exact ⟨hnamed.nodup, fun name entry hentry => hnamed.keyed.lookup hentry, fun name entry => hnamed.found_iff⟩

def demoNames : List (Env × Tx) :=
  [({ featureTableSleChange := false }, { opType := .create, tableName := [1], nameInDB := 31 }),
    ({}, { opType := .create, tableName := [2], nameInDB := 32 }),
    ({}, { opType := .rename, tableName := [2], nameInDB := 32, tableNewName := some [3] })]

theorem names_unique_both_places :
    ∃ h, Run.reach (History.handle 5) {} demoNames = .ok h
      ∧ h.tables.getTableEntry [1] = some (.list, ⟨[1], 31, none⟩)
      ∧ h.tables.getTableEntry [3] = some (.own, ⟨[3], 32, none⟩)
      ∧ (h.tables.entries.map TableEntry.tableName).Nodup :=
  ⟨_, rfl, rfl, rfl, (names_unique 5 demoNames _ rfl).1⟩

end Chainsql.Table
