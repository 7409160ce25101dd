import Chainsql.Table.TxEffect

/-!
# What a drop removes

A drop removes the grants that carry the `sfNameInDB` of the entry the code has a pointer to: the entry of
the table, if it has one of its own, and the one that has moved to its place, if it was in the list. The
owner count goes down by one for the table and by the number of these grants.
-/

namespace Chainsql.Table

open Evm (AccountID)

/-- The adjustment is a signed number. -/
def confineOwnerCount (current adjustment : BitVec 32) : BitVec 32 :=
  let adjusted := current + adjustment
  if (0 : BitVec 32).slt adjustment then if adjusted < current then BitVec.allOnes 32 else adjusted
  else if current < adjusted then 0 else adjusted

/-- The grants that are removed with the table. -/
def vecDel (env : Env) (s : OwnerTables) (tx : Tx) (place : Place) (entry : TableEntry) :
    List ((TableName × AccountID) × TableGrant) :=
  let pEntry := pointed env s tx.tableName entry place
  if pEntry.users.isSome then [] else (s.without tx.tableName place).getRelatedGrantSles pEntry

/-- `sfOwnerCount` after a drop. -/
def dropOwnerCount (env : Env) (s : OwnerTables) (tx : Tx) (place : Place) (entry : TableEntry)
    (ownerCount : BitVec 32) : BitVec 32 :=
  let ownerCount := confineOwnerCount ownerCount (-1)
  if (vecDel env s tx place entry).isEmpty then ownerCount
  else confineOwnerCount ownerCount (-BitVec.ofNat 32 (vecDel env s tx place entry).length)

def OwnerTables.grantCount (s : OwnerTables) (name : TableName) : Nat :=
  s.grants.entries.countP fun e => e.1.1 == name

theorem confineOwnerCount_neg {c : BitVec 32} {n : Nat} (hn : 0 < n) :
    (confineOwnerCount c (-BitVec.ofNat 32 n)).toNat + n = c.toNat ↔ n ≤ c.toNat ∧ n ≤ 2 ^ 31 := by
  by_cases hbig : n < 2 ^ 32
  · have hneg : (-BitVec.ofNat 32 n).toNat = 2 ^ 32 - n := by
      rw [BitVec.toNat_neg, BitVec.toNat_ofNat, Nat.mod_eq_of_lt hbig, Nat.mod_eq_of_lt (by omega)]
    have hslt : (0 : BitVec 32).slt (-BitVec.ofNat 32 n) = true ↔ 2 ^ 31 < n := by
      rw [BitVec.slt_iff_toInt_lt, BitVec.toInt_eq_toNat_cond (-BitVec.ofNat 32 n)]
      split <;> simp <;> omega
    have hadd : (c + -BitVec.ofNat 32 n).toNat = (c.toNat + (2 ^ 32 - n)) % 2 ^ 32 := by
      rw [BitVec.toNat_add, hneg]
    simp only [confineOwnerCount, hslt, BitVec.lt_def]
    split
    · split
      · simp; omega
      · omega
    · split
      · simp; omega
      · omega
  · omega

section

variable {env : Env} {s s' : OwnerTables} {tx : Tx} {place : Place} {entry : TableEntry}

theorem dropOwnerCount_iff {ownerCount : BitVec 32} :
    (dropOwnerCount env s tx place entry ownerCount).toNat + (1 + (vecDel env s tx place entry).length)
        = ownerCount.toNat
      ↔ 1 + (vecDel env s tx place entry).length ≤ ownerCount.toNat ∧ (vecDel env s tx place entry).length ≤ 2 ^ 31 := by
  have hone := confineOwnerCount_neg (c := ownerCount) one_pos
  unfold dropOwnerCount
  generalize vecDel env s tx place entry = grants
  rcases grants.eq_nil_or_concat with rfl | ⟨l, a, rfl⟩
  · simp at hone ⊢; omega
  · have hall := confineOwnerCount_neg (c := confineOwnerCount ownerCount (-1)) (n := (l ++ [a]).length) (by simp)
    simp at hone hall ⊢; omega

/-- What a drop is for: the table and its grants are gone, nothing else is, and the owner count is lower by
the number of these objects. -/
def DropsOnly (s s' : OwnerTables) (name : TableName) (entry : TableEntry) (before after : BitVec 32) : Prop :=
  s.entries = entry ::ₘ s'.entries ∧ s'.getTableEntry name = none
    ∧ (∀ k g, s'.grants.lookup k = some g ↔ s.grants.lookup k = some g ∧ k.1 ≠ name)
    ∧ after.toNat + (1 + (s.grants.size - s'.grants.size)) = before.toNat

theorem grants_without : (s.without tx.tableName place).grants = s.grants := by cases place <;> rfl

theorem size_applyDrop :
    s.grants.size = (applyDrop env s tx place entry).grants.size + (vecDel env s tx place entry).length := by
  rw [applyDrop_eq, removeGrants, vecDel]
  split
  · rw [grants_without]; rfl
  · simp only [AList.size, AList.eraseIf, OwnerTables.getRelatedGrantSles, grants_without, List.length_map]
    rw [List.length_eq_length_filter_add fun e => e.2.nameInDB == _, add_comm]

/-- The grants that are removed are those of the table. -/
def FindsGrants (s : OwnerTables) (name : TableName) (pEntry : TableEntry) : Prop :=
  s.grants.All fun k g => (pEntry.users = none ∧ g.nameInDB = pEntry.nameInDB) ↔ k.1 = name

theorem FindsGrants.length_vecDel (h : FindsGrants s tx.tableName (pointed env s tx.tableName entry place)) :
    (vecDel env s tx place entry).length = s.grantCount tx.tableName := by
  rw [vecDel, OwnerTables.grantCount]
  split
  next husers =>
    obtain ⟨users, husers⟩ := Option.isSome_iff_exists.mp husers
    rw [List.length_nil, eq_comm, List.countP_eq_zero]
    intro e he
    simp [← h e he, husers]
  next husers =>
    rw [OwnerTables.getRelatedGrantSles, List.length_map, grants_without, ← List.countP_eq_length_filter]
    refine List.countP_congr fun e he => ?_
    simp [← h e he, Option.not_isSome_iff_eq_none.mp husers]

/-- A drop removes the table and its grants, and nothing else, exactly if the grants that carry the name in
the database of the entry that is pointed to are those of the table, and the owner count is not too low for
them (nor their number for a signed adjustment too high). -/
theorem drop_only_iff (hnamed : s.Named) (hop : tx.opType = .drop)
    (hfound : s.getTableEntry tx.tableName = some (place, entry)) (owner : AccountID)
    (h : applyTx env owner s tx = .ok s') (ownerCount : BitVec 32) :
    DropsOnly s s' tx.tableName entry ownerCount (dropOwnerCount env s tx place entry ownerCount)
      ↔ FindsGrants s tx.tableName (pointed env s tx.tableName entry place)
        ∧ 1 + s.grantCount tx.tableName ≤ ownerCount.toNat ∧ s.grantCount tx.tableName ≤ 2 ^ 31 := by
  have heq : s' = applyDrop env s tx place entry := by
    simp only [applyTx, preclaimHandler, applyHandler, hop, hfound, Except.ok.injEq] at h
    exact h.symm
  have hsize : s.grants.size = s'.grants.size + (vecDel env s tx place entry).length := heq ▸ size_applyDrop
  have hnone : s'.getTableEntry tx.tableName = none ↔ ∀ e ∈ s'.entries, e.tableName ≠ tx.tableName :=
    (applyTx_effect hnamed h).1.getTableEntry_eq_none
  obtain ⟨grants, hgrants, hlookup⟩ := removeGrants_eq (s := s.without tx.tableName place)
    (pointed env s tx.tableName entry place)
  rw [← applyDrop_eq, ← heq] at hgrants
  rw [grants_without] at hlookup
  have hentries : s'.entries = (s.without tx.tableName place).entries := by rw [hgrants]; rfl
  have hgrants' : s'.grants = grants := by rw [hgrants]
  have hfinds : (∀ k g, s'.grants.lookup k = some g ↔ s.grants.lookup k = some g ∧ k.1 ≠ tx.tableName)
      ↔ FindsGrants s tx.tableName (pointed env s tx.tableName entry place) := by
    simp only [hgrants', hlookup, and_congr_right_iff, not_iff_not]
    exact ⟨fun h e he => h e.1 e.2 (AList.mem_lookup_iff.mpr he), fun h k g hg => AList.All.lookup h hg⟩
  unfold DropsOnly
  rw [hfinds, hnone, hentries, ← OwnerTables.entries_of_found hfound, hsize, Nat.add_sub_cancel_left, dropOwnerCount_iff]
  constructor
  · rintro ⟨-, -, hfinds, hcount⟩
    exact ⟨hfinds, hfinds.length_vecDel ▸ hcount⟩
  · rintro ⟨hfinds, hcount⟩
    exact ⟨rfl, fun e he => ((hnamed.without hfound).2 e |>.mp he).2, hfinds, hfinds.length_vecDel ▸ hcount⟩

end

def demoTables (place : Place) : OwnerTables where
  tableList := if place = .list then some [⟨[1], 31, none⟩, ⟨[2], 32, none⟩] else none
  tables := if place = .list then ∅ else ((∅ : AList _).insert [2] ⟨[2], 32, none⟩).insert [1] ⟨[1], 31, none⟩
  grants := ((∅ : AList _).insert ([2], 8) ⟨8, lsfSelect, 32, none⟩).insert ([1], 7) ⟨7, lsfSelect, 31, none⟩

def demoDropFirst : Tx := { opType := .drop, tableName := [1], nameInDB := 31 }

theorem drop_only_iff_own :
    ∃ s', applyTx {} 5 (demoTables .own) demoDropFirst = .ok s'
      ∧ DropsOnly (demoTables .own) s' [1] ⟨[1], 31, none⟩ 4
        (dropOwnerCount {} (demoTables .own) demoDropFirst .own ⟨[1], 31, none⟩ 4) := by
  have hnamed : (demoTables .own).Named := ⟨by unfold OwnerTables.Keyed; decide, by decide⟩
  refine ⟨_, rfl, (drop_only_iff hnamed (show demoDropFirst.opType = .drop from rfl) rfl 5 rfl 4).mpr ⟨?_, by decide, by decide⟩⟩
  unfold FindsGrants
  decide

/-- In the list the grant of the next table is removed, and that of the dropped one stays. -/
theorem drop_removes_next :
    ∃ s', applyTx {} 5 (demoTables .list) demoDropFirst = .ok s'
      ∧ s'.getTableEntry [2] = some (.list, ⟨[2], 32, none⟩)
      ∧ s'.grants.lookup ([2], 8) = none ∧ s'.grants.lookup ([1], 7) = (demoTables .list).grants.lookup ([1], 7)
      ∧ ¬DropsOnly (demoTables .list) s' [1] ⟨[1], 31, none⟩ 4
        (dropOwnerCount {} (demoTables .list) demoDropFirst .list ⟨[1], 31, none⟩ 4) := by
  refine ⟨_, rfl, rfl, rfl, rfl, ?_⟩
  rintro ⟨-, -, hgrants, -⟩
  have hnext := (hgrants ([2], 8) ⟨8, lsfSelect, 32, none⟩).mpr ⟨rfl, by decide⟩
  cases hnext

end Chainsql.Table
