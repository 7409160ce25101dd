import Chainsql.Table.TxEffect

/-!
# Rights follow the table

`granted` reads off the history of an owner's transactions whether a user has been given a right on the
table that has a name now. A drop or a rename finds the grants of a table by the `sfNameInDB` in them, which
the transactions that make them and the one that creates the table carry unchecked; and a drop from the
list looks for the grants of the entry that has moved to the place of the dropped one. In runs in which the
former agree and the latter has nothing to leave behind, rights are those that have been granted.
-/

namespace Chainsql.Table

open Evm (AccountID)

/-- Whether the last `T_GRANT` that is about the bit, for this user and the table that has the name now, has
set it. The history is read backwards, from the name now to the one at the time, down to the creation. -/
def granted (user : AccountID) (i : Nat) : List Tx → TableName → Bool
  | [], _ => false
  | tx :: older, name =>
    match tx.opType with
    | .create | .drop => tx.tableName != name && granted user i older name
    | .rename =>
      if name = tx.tableNewName.getD [] then granted user i older tx.tableName
      else tx.tableName != name && granted user i older name
    | .grant =>
      if tx.tableName = name ∧ tx.user = some user ∧ tx.isCrossChainUpload = false then
        !tx.grantFlags.2.getLsbD i && (tx.grantFlags.1.getLsbD i || granted user i older name)
      else granted user i older name
    | _ => granted user i older name

/-! ## Rights in a run -/

def Backed (h : History) (name : TableName) (u : AccountID) (g : TableGrant) : Prop :=
  (∃ e ∈ h.tables.entries, e.tableName = name ∧ e.nameInDB = g.nameInDB)
    ∧ ∀ i, g.flags.getLsbD i = true → granted u i h.applied name = true

/-- The entries have different names in the database, and the grants for others are backed. -/
structure Inv (owner : AccountID) (h : History) : Prop where
  named : h.tables.Named
  users : ∀ e ∈ h.tables.entries, e.users = none
  distinct : (h.tables.entries.map TableEntry.nameInDB).Nodup
  user : ∀ k g, h.tables.grants.lookup k = some g → g.user = k.2
  backed : ∀ name u g, h.tables.grants.lookup (name, u) = some g → u ≠ owner → Backed h name u g

/-- The condition on a transaction: it is one of those that create, grant, rename and drop, a new table has
a new name in the database, a grant carries that of its table, and a table that is dropped from the list has
no grants for others. -/
def Fitting (owner : AccountID) (h : History) (event : Env × Tx) : Prop :=
  event.1.featureTableGrant = true ∧
    match event.2.opType with
    | .create => ∀ e, h.tables.Has e → e.nameInDB ≠ event.2.nameInDB
    | .grant => ∀ e, h.tables.Has e → e.tableName = event.2.tableName → e.nameInDB = event.2.nameInDB
    | .drop => ∀ e ∈ h.tables.tableEntries, e.tableName = event.2.tableName →
      ∀ u, u ≠ owner → (event.2.tableName, u) ∉ h.tables.grants
    | .assign | .cancelAssign => False
    | .rename | .other => True

section

variable {owner : AccountID} {h : History} {tx : Tx} {s' : OwnerTables} {env : Env}

theorem Inv.created (hinv : Inv owner h) (hnamed : s'.Named) (hgrant : env.featureTableGrant = true)
    (hop : tx.opType = .create) (hfree : h.tables.getTableEntry tx.tableName = none)
    (hentries : s'.entries = tx.prepareTableEntry env owner ::ₘ h.tables.entries)
    (hgrants : s'.grants = h.tables.grants.insert (tx.tableName, owner) (tx.newGrant owner 0))
    (hfit : ∀ e, h.tables.Has e → e.nameInDB ≠ tx.nameInDB) : Inv owner ⟨s', tx :: h.applied⟩ := by
  refine ⟨hnamed, ?_, ?_, fun k g hg => ?_, fun name u g hg hu => ?_⟩
  · rw [hentries, Multiset.forall_mem_cons]
    exact ⟨if_pos hgrant, hinv.users⟩
  · rw [hentries, Multiset.map_cons, Multiset.nodup_cons, Multiset.mem_map]
    refine ⟨?_, hinv.distinct⟩
    rintro ⟨e, he, heq⟩
    exact hfit e (hinv.named.mem_entries.mp he) heq
  · rw [hgrants] at hg
    by_cases hk : k = (tx.tableName, owner)
    · subst hk
      rw [AList.lookup_insert] at hg
      cases hg
      rw [Tx.newGrant, Tx.setTableGrant, hop]
      rfl
    · rw [AList.lookup_insert_ne hk] at hg
      exact hinv.user k g hg
  · -- a grant for another user is an old one
    rw [hgrants, AList.lookup_insert_ne fun heq => hu (Prod.mk.inj heq).2] at hg
    obtain ⟨⟨e, he, rfl, hdb⟩, hflags⟩ := hinv.backed name u g hg hu
    refine ⟨⟨e, by rw [hentries]; exact Multiset.mem_cons_of_mem he, rfl, hdb⟩, fun i hi => ?_⟩
    rw [granted, hop]
    rw [hflags i hi, Bool.and_true, bne_iff_ne]
    exact (hinv.named.getTableEntry_eq_none.mp hfree e he).symm

variable {entry : TableEntry} {place : Place}

theorem Inv.found (hinv : Inv owner h) (hfound : h.tables.getTableEntry tx.tableName = some (place, entry)) :
    entry ∈ h.tables.entries ∧ entry.tableName = tx.tableName :=
  hinv.named.found_iff.mp ⟨place, hfound⟩

theorem Inv.nameInDB_iff (hinv : Inv owner h) (hentry : entry ∈ h.tables.entries) {name : TableName} {u : AccountID}
    {g : TableGrant} (hg : h.tables.grants.lookup (name, u) = some g) (hu : u ≠ owner) :
    g.nameInDB = entry.nameInDB ↔ name = entry.tableName := by
  obtain ⟨⟨e, he, rfl, hdb⟩, -⟩ := hinv.backed name u g hg hu
  rw [← hdb]
  constructor
  · intro heq
    rw [Multiset.inj_on_of_nodup_map hinv.distinct e he entry hentry heq]
  · intro heq
    rw [hinv.named.eq_of_tableName he hentry heq]

theorem Inv.dropped (hinv : Inv owner h) (hnamed : (applyDrop env h.tables tx place entry).Named)
    (hop : tx.opType = .drop) (hfound : h.tables.getTableEntry tx.tableName = some (place, entry))
    (hfit : ∀ e ∈ h.tables.tableEntries, e.tableName = tx.tableName →
      ∀ u, u ≠ owner → (tx.tableName, u) ∉ h.tables.grants) :
    Inv owner ⟨applyDrop env h.tables tx place entry, tx :: h.applied⟩ := by
  obtain ⟨hentry, hname⟩ := hinv.found hfound
  have hmem := (hinv.named.without hfound).2
  have hdistinct := hinv.distinct
  rw [OwnerTables.entries_of_found hfound, Multiset.map_cons, Multiset.nodup_cons] at hdistinct
  obtain ⟨grants, heq, hgrants⟩ := removeGrants_eq (s := h.tables.without tx.tableName place)
    (pointed env h.tables tx.tableName entry place)
  rw [← applyDrop_eq] at heq
  rw [heq] at hnamed ⊢
  have hold : ∀ k g, grants.lookup k = some g → h.tables.grants.lookup k = some g := by
    intro k g hg
    have hg := ((hgrants k g).mp hg).1
    cases place <;> exact hg
  -- no grant of the table is left
  have hne : ∀ name u g, grants.lookup (name, u) = some g → u ≠ owner → name ≠ tx.tableName := by
    rintro _ u g hg hu rfl
    cases place with
    | own =>
      exact ((hgrants _ g).mp hg).2 ⟨hinv.users entry hentry, (hinv.nameInDB_iff hentry (hold _ g hg) hu).mpr hname.symm⟩
    | list =>
      obtain ⟨hlt, hget⟩ := OwnerTables.findIdx_of_list hfound
      exact hfit entry (hget ▸ List.getElem_mem hlt) hname u hu (AList.lookup_isSome.mp (by rw [hold _ g hg]; rfl))
  refine ⟨hnamed, fun e he => hinv.users e ((hmem e).mp he).1, hdistinct.2, fun k g hg => hinv.user k g (hold k g hg),
    fun name u g hg hu => ?_⟩
  obtain ⟨⟨e, he, rfl, hdb⟩, hflags⟩ := hinv.backed name u g (hold _ g hg) hu
  have hne := hne _ u g hg hu
  refine ⟨⟨e, (hmem e).mpr ⟨he, hne⟩, rfl, hdb⟩, fun i hi => ?_⟩
  rw [granted, hop]
  rw [hflags i hi, Bool.and_true, bne_iff_ne]
  exact hne.symm

theorem Inv.renamed (hinv : Inv owner h) (hnamed : s'.Named) (hop : tx.opType = .rename)
    (hfound : h.tables.getTableEntry tx.tableName = some (place, entry))
    (hfree : h.tables.getTableEntry (tx.tableNewName.getD []) = none)
    (hentries : s'.entries
      = { entry with tableName := tx.tableNewName.getD [] } ::ₘ (h.tables.without tx.tableName place).entries)
    (hgrants : ∀ k g, s'.grants.lookup k = some g →
      (h.tables.grants.lookup k = some g ∧ g.nameInDB ≠ entry.nameInDB) ∨
        ∃ k', h.tables.grants.lookup k' = some g ∧ g.nameInDB = entry.nameInDB ∧ k = (tx.tableNewName.getD [], g.user)) :
    Inv owner ⟨s', tx :: h.applied⟩ := by
  obtain ⟨hentry, hname⟩ := hinv.found hfound
  have hmem := (hinv.named.without hfound).2
  refine ⟨hnamed, ?_, ?_, fun k g hg => ?_, fun name u g hg hu => ?_⟩
  · rw [hentries, Multiset.forall_mem_cons]
    exact ⟨hinv.users entry hentry, fun e he => hinv.users e ((hmem e).mp he).1⟩
  · have hdistinct := hinv.distinct
    rw [OwnerTables.entries_of_found hfound] at hdistinct
    rw [hentries]
    exact hdistinct
  · rcases hgrants k g hg with ⟨hg, -⟩ | ⟨k', hg, -, rfl⟩
    · exact hinv.user k g hg
    · rfl
  · rcases hgrants _ g hg with ⟨hg, hdb⟩ | ⟨⟨name', u'⟩, hg', hdb, heq⟩
    · -- the other tables' grants stay, and they have other names
      have hne : name ≠ tx.tableName := fun heq => hdb ((hinv.nameInDB_iff hentry hg hu).mpr (heq.trans hname.symm))
      obtain ⟨⟨e, he, rfl, hedb⟩, hflags⟩ := hinv.backed name u g hg hu
      refine ⟨⟨e, ?_, rfl, hedb⟩, fun i hi => ?_⟩
      · rw [hentries]
        exact Multiset.mem_cons_of_mem ((hmem e).mpr ⟨he, hne⟩)
      · rw [granted, hop]
        rw [if_neg (hinv.named.getTableEntry_eq_none.mp hfree e he), hflags i hi, Bool.and_true, bne_iff_ne]
        exact hne.symm
    · -- the grants that are moved are those of the table
      obtain ⟨rfl, rfl⟩ := Prod.mk.inj heq
      have hu' : g.user = u' := hinv.user (name', u') g hg'
      subst hu'
      refine ⟨⟨{ entry with tableName := _ }, by rw [hentries]; exact Multiset.mem_cons_self _ _, rfl, hdb.symm⟩,
        fun i hi => ?_⟩
      rw [granted, hop]
      rw [if_pos rfl, ← hname, ← (hinv.nameInDB_iff hentry hg' hu).mp hdb]
      exact (hinv.backed name' _ g hg' hu).2 i hi

theorem Inv.granted (hinv : Inv owner h) (hop : tx.opType = .grant)
    (hfound : h.tables.getTableEntry tx.tableName = some (place, entry)) {user : AccountID}
    (huser : tx.user = some user) (hown : tx.isCrossChainUpload = false) {grant : TableGrant}
    (hgrant : (∃ old, h.tables.grants.lookup (tx.tableName, user) = some old
        ∧ grant = { old with flags := tx.getFinalFlag (some old.flags) })
      ∨ grant = tx.newGrant owner (tx.getFinalFlag none))
    (hfit : ∀ e, h.tables.Has e → e.tableName = tx.tableName → e.nameInDB = tx.nameInDB) :
    Inv owner ⟨{ h.tables with grants := h.tables.grants.insert (tx.tableName, user) grant }, tx :: h.applied⟩ := by
  obtain ⟨hentry, hname⟩ := hinv.found hfound
  have hnewUser : (tx.newGrant owner (tx.getFinalFlag none)).user = user := by
    simp [Tx.newGrant, Tx.setTableGrant, hop, huser]
  refine ⟨⟨hinv.named.keyed, hinv.named.nodup⟩, hinv.users, hinv.distinct, fun k g hg => ?_, fun name u g hg hu => ?_⟩
  all_goals dsimp only at hg
  · by_cases hk : k = (tx.tableName, user)
    · subst hk
      rw [AList.lookup_insert] at hg
      cases hg
      rcases hgrant with ⟨old, hold, rfl⟩ | rfl
      · exact hinv.user _ old hold
      · exact hnewUser
    · rw [AList.lookup_insert_ne hk] at hg
      exact hinv.user k g hg
  · by_cases hk : (name, u) = (tx.tableName, user)
    · obtain ⟨rfl, rfl⟩ := Prod.mk.inj hk
      rw [AList.lookup_insert] at hg
      cases hg
      refine ⟨?_, fun i hi => ?_⟩
      · rcases hgrant with ⟨old, hold, rfl⟩ | rfl
        · exact (hinv.backed _ _ old hold hu).1
        · exact ⟨entry, hentry, hname, hfit entry (hinv.named.mem_entries.mp hentry) hname⟩
      · rw [Table.granted, hop]
        dsimp only
        rw [if_pos ⟨rfl, huser, hown⟩]
        rcases hgrant with ⟨old, hold, rfl⟩ | rfl
        · have hold := (hinv.backed _ _ old hold hu).2 i
          simp only [Tx.getFinalFlag, hop, BitVec.getLsbD_and, BitVec.getLsbD_or, BitVec.getLsbD_not, Bool.and_eq_true,
            Bool.or_eq_true] at hi
          obtain ⟨hset, -, hkeep⟩ := hi
          rw [hkeep, Bool.true_and, Bool.or_eq_true]
          exact hset.symm.imp_right hold
        · simp only [Tx.newGrant, Tx.setTableGrant, Tx.getFinalFlag, hop, if_true, BitVec.getLsbD_and,
            BitVec.getLsbD_not, Bool.and_eq_true] at hi
          obtain ⟨hset, -, hkeep⟩ := hi
          rw [hkeep, hset]
          rfl
    · rw [AList.lookup_insert_ne hk] at hg
      obtain ⟨htable, hflags⟩ := hinv.backed name u g hg hu
      refine ⟨htable, fun i hi => ?_⟩
      rw [Table.granted, hop]
      dsimp only
      rw [if_neg]
      · exact hflags i hi
      · rintro ⟨rfl, hu', -⟩
        rw [huser] at hu'
        exact hk (by rw [Option.some.inj hu'])

theorem Inv.handle (hinv : Inv owner h) {event : Env × Tx} (hfit : Fitting owner h event) {h' : History}
    (hstep : h.handle owner event = .ok h') : Inv owner h' := by
  obtain ⟨env, tx⟩ := event
  obtain ⟨hgrant, hfit⟩ := hfit
  have hassign : tx.opType ≠ .assign := fun hop => by rw [hop] at hfit; exact hfit
  have hcancel : tx.opType ≠ .cancelAssign := fun hop => by rw [hop] at hfit; exact hfit
  unfold History.handle at hstep
  split at hstep
  next s' happly =>
    cases hstep
    obtain ⟨hnamed, heffect⟩ := applyTx_effect hinv.named happly
    cases heffect with
    | created op free entries grants =>
      rw [op] at hfit
      exact hinv.created hnamed hgrant op free entries (grants hgrant) hfit
    | dropped op place entry found eq =>
      rw [op] at hfit
      exact eq ▸ hinv.dropped (eq ▸ hnamed) op found hfit
    | renamed op place entry found free entries grants =>
      exact hinv.renamed hnamed op found free entries (grants (hinv.users entry (hinv.found found).1))
    | usersSet place entry found users before eq => exact absurd (hinv.users entry (hinv.found found).1) before
    | granted op place entry found user own grant grant_eq eq =>
      have hop : tx.opType = .grant := op.resolve_right (by simp [hassign, hcancel])
      obtain ⟨u, hu⟩ := Option.ne_none_iff_exists'.mp (user hop)
      rw [hu] at eq grant_eq
      rw [hop] at hfit
      exact eq ▸ hinv.granted hop found hu own grant_eq hfit
    | kept op eq =>
      subst eq
      refine ⟨hinv.named, hinv.users, hinv.distinct, hinv.user, fun name u g hg hu => ?_⟩
      obtain ⟨htable, hflags⟩ := hinv.backed name u g hg hu
      refine ⟨htable, fun i hi => ?_⟩
      rw [Table.granted, ← hflags i hi]
      dsimp only at op
      rcases op with op | ⟨hcross, op | op | op⟩
      · simp [op]
      · simp [op, hcross]
      · exact absurd op hassign
      · exact absurd op hcancel
  · cases hstep
    exact hinv
  · cases hstep

theorem Inv.init : Inv owner {} where
  named := ⟨AList.all_empty, Multiset.nodup_zero⟩
  users _ h := absurd h (Multiset.notMem_zero _)
  distinct := Multiset.nodup_zero
  user _ _ h := by cases h
  backed _ _ _ h := by cases h

end

variable {flag : Flags}

theorem exists_getLsbD_of_and_ne {x : Flags} (h : (x &&& flag != 0) = true) :
    ∃ i, x.getLsbD i = true ∧ flag.getLsbD i = true := by
  by_contra hnone
  refine bne_iff_ne.mp h (BitVec.eq_of_getLsbD_eq fun i _ => ?_)
  have hzero : (0 : Flags).getLsbD i = false := BitVec.getLsbD_zero
  rw [BitVec.getLsbD_and, hzero, Bool.and_eq_false_iff]
  by_contra hboth
  rw [not_or] at hboth
  exact hnone ⟨i, Bool.eq_true_of_not_eq_false hboth.1, Bool.eq_true_of_not_eq_false hboth.2⟩

theorem Inv.granted_of_auth {owner : AccountID} {h : History} (hinv : Inv owner h) {name : TableName}
    {user : AccountID} (huser : user ≠ owner) {flags : Flags} {token : Blob}
    (hauth : getUserAuthAndToken h.tables name user = (true, flags, token)) (hflag : (flags &&& flag != 0) = true) :
    ∃ i, flag.getLsbD i = true ∧ Table.granted user i h.applied name = true := by
  unfold getUserAuthAndToken at hauth
  split at hauth
  · cases hauth
  next place entry hfound =>
    rw [hinv.users entry (hinv.named.found_iff.mp ⟨place, hfound⟩).1] at hauth
    dsimp only at hauth
    split at hauth
    next g hg =>
      cases hauth
      obtain ⟨i, hi, hflag⟩ := exists_getLsbD_of_and_ne hflag
      exact ⟨i, hflag, (hinv.backed name user g hg huser).2 i hi⟩
    · cases hauth

/-- In a run of fitting transactions a user other than the owner has a right on a table only if it has been
granted to the user, or to everyone, on this table. -/
theorem rights_follow_table (owner : AccountID) (howner : owner ≠ noAccount) (events : List (Env × Tx))
    (hfit : Run.AlongOk (History.handle owner) (Fitting owner) {} events) (h : History)
    (hreach : Run.reach (History.handle owner) {} events = .ok h) (name : TableName) (user : AccountID)
    (huser : user ≠ owner) (flag : Flags) (hauth : hasAuthority h.tables name user flag = true) :
    ∃ i, flag.getLsbD i = true
      ∧ (granted user i h.applied name = true ∨ granted noAccount i h.applied name = true) := by
  have hinv : Inv owner h := hfit.invariant Inv.init (fun _ _ _ hinv hfit hstep => hinv.handle hfit hstep) hreach
  unfold hasAuthority at hauth
  rcases htup : getUserAuthAndToken h.tables name user with ⟨found, flags, token⟩
  rw [htup] at hauth
  cases found with
  | true =>
    obtain ⟨i, hi, hgranted⟩ := hinv.granted_of_auth huser htup hauth
    exact ⟨i, hi, .inl hgranted⟩
  | false =>
    rcases hall : getUserAuthAndToken h.tables name noAccount with ⟨foundAll, flagsAll, tokenAll⟩
    rw [hall] at hauth
    cases foundAll with
    | true =>
      obtain ⟨i, hi, hgranted⟩ := hinv.granted_of_auth howner.symm hall hauth
      exact ⟨i, hi, .inr hgranted⟩
    | false => cases hauth

def demoCreate (tableName : TableName) (nameInDB : NameInDB) : Tx := { opType := .create, tableName, nameInDB }

def demoDrop (tableName : TableName) (nameInDB : NameInDB) : Tx := { opType := .drop, tableName, nameInDB }

def demoGrant (tableName : TableName) (nameInDB : NameInDB) : Tx :=
  { opType := .grant, tableName, nameInDB, user := some 7, raw := some [[("select", true)]] }

def demoRename (tableName newName : TableName) (nameInDB : NameInDB) : Tx :=
  { opType := .rename, tableName, nameInDB, tableNewName := some newName }

theorem rights_follow_table_create_grant :
    ∃ h, Run.reach (History.handle 5) {} [({}, demoCreate [1] 21), ({}, demoGrant [1] 21)] = .ok h
      ∧ hasAuthority h.tables [1] 7 lsfSelect = true
      ∧ ∃ i, lsfSelect.getLsbD i = true
        ∧ (granted 7 i h.applied [1] = true ∨ granted noAccount i h.applied [1] = true) := by
  have hfit : Run.AlongOk (History.handle 5) (Fitting 5) {} [({}, demoCreate [1] 21), ({}, demoGrant [1] 21)] := by
    refine .cons ⟨rfl, fun e he => ?_⟩ rfl (.cons ⟨rfl, fun e he hname => ?_⟩ rfl trivial)
    · rcases he with he | he <;> cases he
    · rcases he with he | he
      · rw [show e.tableName = [1] from hname] at he
        cases he
        rfl
      · cases he
  exact ⟨_, rfl, by decide, rights_follow_table 5 (by decide) _ hfit _ rfl [1] 7 (by decide) lsfSelect (by decide)⟩

/-- A grant that carries another name in the database outlives the table and holds for the next one of the
same name. When a table is dropped from the list, the grants of the next one in the list are removed
instead, and those of the dropped one hold for any table that gets its name. -/
theorem rights_of_dropped_table :
    (∃ h, Run.reach (History.handle 5) {} [({}, demoCreate [1] 21), ({}, demoGrant [1] 22), ({}, demoDrop [1] 21),
          ({}, demoCreate [1] 23)] = .ok h
        ∧ hasAuthority h.tables [1] 7 lsfSelect = true
        ∧ ∀ i, granted 7 i h.applied [1] = false ∧ granted noAccount i h.applied [1] = false)
      ∧ ∃ h, Run.reach (History.handle 5) {} [({ featureTableSleChange := false }, demoCreate [1] 31),
          ({ featureTableSleChange := false }, demoCreate [2] 32), ({}, demoGrant [1] 31), ({}, demoDrop [1] 31),
          ({}, demoRename [2] [1] 32)] = .ok h
        ∧ hasAuthority h.tables [1] 7 lsfSelect = true
        ∧ ∀ i, granted 7 i h.applied [1] = false ∧ granted noAccount i h.applied [1] = false :=
  ⟨⟨_, rfl, by decide, fun i => ⟨rfl, rfl⟩⟩, ⟨_, rfl, by decide, fun i => ⟨rfl, rfl⟩⟩⟩

end Chainsql.Table
