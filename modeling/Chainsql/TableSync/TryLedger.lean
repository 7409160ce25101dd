import Chainsql.TableSync.DealLedger

/-!
# The tries at a ledger

The places of a ledger are the splits `pre ++ post` of its slices. `Task.place` is the database at a place,
and `Item.reload` the item that agrees with it. `Finished` lists what can have become of an item at a
slice, `Attempted` what a try at the ledger does, and `tryLedger_place` what all its tries do: as long
as each fault that is followed by another try leaves the same hash in memory and in the database, the
item stops at a place of the ledger or completes it.
-/

namespace Chainsql.TableSync

variable {α δ : Type} {store : Store α δ} {cond : SyncCond}

/-! ## What the transactions do -/

def execute (store : Store α δ) : List (Statement α) → δ → δ × Option (Statement α)
  | [], d => (d, none)
  | stmt :: rest, d =>
    match store.dispose stmt d with
    | some d => execute store rest d
    | none => (d, some stmt)

/-- A transaction whose statements are all or none takes no effect when one fails. -/
def Tx.effect (store : Store α δ) (d : δ) (tx : Tx α) : δ :=
  if tx.atomic ∧ (execute store tx.statements d).2.isSome then d else (execute store tx.statements d).1

def effects (store : Store α δ) (d : δ) (txs : List (Tx α)) : δ := txs.foldl (Tx.effect store) d

def unskipped (cond : SyncCond) (txs : List (Tx α)) : List (Tx α) :=
  txs.filter fun tx => !cond.isJumpThisTx tx.id

@[simp] theorem effects_nil (d : δ) : effects store d [] = d := rfl

@[simp] theorem effects_cons (d : δ) (tx : Tx α) (txs : List (Tx α)) :
    effects store d (tx :: txs) = effects store (tx.effect store d) txs := rfl

@[simp] theorem effects_append (d : δ) (txs later : List (Tx α)) :
    effects store d (txs ++ later) = effects store (effects store d txs) later :=
  List.foldl_append

@[simp] theorem unskipped_append (txs later : List (Tx α)) :
    unskipped cond (txs ++ later) = unskipped cond txs ++ unskipped cond later :=
  List.filter_append txs later

/-- The transaction leaves the item alone: it does not drop the table, and a table that it creates does
not exist before, in the committed data and in the data it is applied to, and is created. -/
structure Tx.Plain (store : Store α δ) (committed d : δ) (tx : Tx α) : Prop where
  not_drop : ∀ stmt ∈ tx.statements, stmt.opType ≠ .drop
  fresh : ∀ stmt ∈ tx.statements, stmt.opType = .create →
    store.dropTable committed = committed ∧ store.dropTable d = d
  created : ∀ stmt, (execute store tx.statements d).2 = some stmt → stmt.opType ≠ .create

/-- The transactions, applied in order, are plain whatever prefix of them has been committed. -/
def Plain (store : Store α δ) (d : δ) (txs : List (Tx α)) : Prop :=
  ∀ before tx after, txs = before ++ tx :: after → ∀ earlier, earlier <+: before →
    tx.Plain store (effects store d earlier) (effects store d before)

variable {txs slice : List (Tx α)} {hash : HashValue} {here next tran : Database δ} {isLastOne : Bool}
  {ledgerSeq : Nat}

theorem Plain.middle {d : δ} {before mid after : List (Tx α)} (h : Plain store d txs)
    (heq : txs = before ++ mid ++ after) : Plain store (effects store d before) mid := by
  rintro front tx back rfl earlier hearlier
  rw [← effects_append, ← effects_append]
  refine h (before ++ front) tx (back ++ after) ?_ (before ++ earlier) ((List.prefix_append_right_inj _).mpr hearlier)
  rw [heq]
  simp only [List.append_assoc, List.cons_append]

/-! ## Slices -/

/-- The kinds of slices that there are. -/
structure IsSlice (slice : List (Tx α)) : Prop where
  ne_nil : slice ≠ []
  kind : (∀ tx ∈ slice, tx.atomic = false) ∨ ∃ tx, slice = [tx]

theorem flatten_cutSlices (txSlice txs : List (Tx α)) : (cutSlices txSlice txs).flatten = txSlice ++ txs := by
  induction txs generalizing txSlice with
  | nil =>
    unfold cutSlices
    split
    next h => rw [List.isEmpty_iff.mp h]; rfl
    · simp
  | cons tx rest ih =>
    unfold cutSlices
    split
    · split
      next h => rw [List.isEmpty_iff.mp h]; simp [ih]
      · simp [ih]
    · rw [ih, List.append_assoc, List.singleton_append]

theorem isSlice_of_mem_cutSlices {txSlice : List (Tx α)} (hcommon : ∀ tx ∈ txSlice, tx.atomic = false)
    (h : slice ∈ cutSlices txSlice txs) : IsSlice slice := by
  induction txs generalizing txSlice with
  | nil =>
    unfold cutSlices at h
    split at h
    · cases h
    next hne =>
      rw [List.mem_singleton] at h
      subst h
      exact ⟨fun heq => hne (List.isEmpty_iff.mpr heq), .inl hcommon⟩
  | cons tx rest ih =>
    have hrest : slice ∈ [tx] :: cutSlices [] rest → IsSlice slice := by
      intro h
      rcases List.mem_cons.mp h with rfl | h
      · exact ⟨List.cons_ne_nil _ _, .inr ⟨tx, rfl⟩⟩
      · exact ih (by simp) h
    unfold cutSlices at h
    split at h
    · split at h
      · exact hrest h
      next hne =>
        rcases List.mem_cons.mp h with rfl | h
        · exact ⟨fun heq => hne (List.isEmpty_iff.mpr heq), .inl hcommon⟩
        · exact hrest h
    next hatomic =>
      refine ih (fun t ht => ?_) h
      rcases List.mem_append.mp ht with ht | ht
      · exact hcommon t ht
      · rw [List.mem_singleton.mp ht]
        exact Bool.eq_false_of_not_eq_true hatomic

/-! ## A transaction -/

theorem dealWithTx_plain (stmts : List (Statement α)) (lost : Option Nat) (w : Work δ)
    (hdrop : ∀ stmt ∈ stmts, stmt.opType ≠ .drop)
    (hcreate : ∀ stmt, (execute store stmts w.tran.data).2 = some stmt → stmt.opType ≠ .create) :
    (∃ tran, dealWithTx store lost stmts w = (⟨w.item, tran⟩, .lost))
      ∨ dealWithTx store lost stmts w
        = (⟨w.item, { w.tran with data := (execute store stmts w.tran.data).1 }⟩,
            .done (execute store stmts w.tran.data).2.isNone) := by
  induction stmts generalizing lost w with
  | nil =>
    right
    cases lost <;> rfl
  | cons stmt rest ih =>
    by_cases hlost : lost = some 0
    · subst hlost
      exact .inl ⟨w.tran, rfl⟩
    have htrue : ∀ w', dealTranCommonTx store w stmt = (w', true) →
        dealWithTx store lost (stmt :: rest) w = dealWithTx store (lost.map Nat.pred) rest w' := by
      intro w' h
      rw [dealWithTx, h]
      exact hlost
    have hfalse : ∀ w', dealTranCommonTx store w stmt = (w', false) →
        dealWithTx store lost (stmt :: rest) w = (w', .done false) := by
      intro w' h
      rw [dealWithTx, h]
      exact hlost
    simp only [execute] at hcreate ⊢
    cases hdispose : store.dispose stmt w.tran.data with
    | none =>
      rw [hdispose] at hcreate
      have hne : stmt.opType ≠ .create := hcreate stmt rfl
      refine .inr (hfalse w ?_)
      rw [dealTranCommonTx, hdispose]
      simp only [if_neg hne]
    | some d =>
      rw [hdispose] at hcreate
      rw [htrue { w with tran := { w.tran with data := d } }]
      · exact ih (lost.map Nat.pred) { w with tran := { w.tran with data := d } }
          (fun s hs => hdrop s (List.mem_cons_of_mem _ hs)) hcreate
      · rw [dealTranCommonTx, hdispose]
        simp only [if_neg (hdrop stmt List.mem_cons_self)]

theorem dropTables_eq (stmts : List (Statement α)) (w : Work δ)
    (h : ∀ stmt ∈ stmts, stmt.opType = .create → w.deleteTable store = w) :
    stmts.foldl (fun w stmt => if stmt.opType = .create then w.deleteTable store else w) w = w := by
  induction stmts with
  | nil => rfl
  | cons stmt rest ih =>
    have hhead : (if stmt.opType = .create then w.deleteTable store else w) = w := by
      split
      next hcreate => exact h stmt List.mem_cons_self hcreate
      · rfl
    rw [List.foldl_cons, hhead]
    exact ih fun s hs => h s (List.mem_cons_of_mem _ hs)

theorem dealWithEveryTx_plain {tx : Tx α} {w : Work δ} (lost : Option Nat) (hnamed : w.item.named = true)
    (hplain : tx.Plain store w.item.db.data w.tran.data) :
    (∃ tran, dealWithEveryTx store lost tx w = ⟨⟨w.item, tran⟩, false, true⟩)
      ∨ dealWithEveryTx store lost tx w
        = ⟨⟨w.item, { w.tran with data := (execute store tx.statements w.tran.data).1 }⟩,
            (execute store tx.statements w.tran.data).2.isSome && tx.atomic, false⟩ := by
  have hkeep : ∀ stmt ∈ tx.statements, stmt.opType = .create → w.deleteTable store = w := by
    intro stmt hstmt hcreate
    obtain ⟨hcommitted, htran⟩ := hplain.fresh stmt hstmt hcreate
    unfold Work.deleteTable
    rw [hcommitted, htran]
  unfold dealWithEveryTx Tx.getTxs
  simp only [hnamed, if_true, dropTables_eq tx.statements w hkeep]
  rcases dealWithTx_plain tx.statements lost w hplain.not_drop hplain.created with ⟨tran, h⟩ | h
  · rw [h]
    exact .inl ⟨tran, rfl⟩
  · rw [h]
    refine .inr ?_
    simp only [Option.not_isNone]

/-! ## A slice -/

theorem scanSlice_skip (store : Store α δ) (cond : SyncCond) (point : Option Point) (front txs : List (Tx α)) (j : Nat)
    (w : Work δ) (rollback : Bool) (h : ∀ tx ∈ front, tx.id ≠ w.item.uTxDBUpdateHash) :
    scanSlice store cond point j (front ++ txs) ⟨w, false, rollback⟩
      = scanSlice store cond point (j + front.length) txs ⟨w, false, rollback⟩ := by
  induction front generalizing j with
  | nil => rfl
  | cons tx rest ih =>
    rw [List.cons_append, scanSlice, decide_eq_false (h tx List.mem_cons_self),
      ih (j + 1) fun t ht => h t (List.mem_cons_of_mem _ ht), Nat.add_right_comm]
    rfl

/-- What a scan from the place after the last success does: it ends with a connection error or with the
effects of the transactions in the open transaction. -/
structure Scanned (store : Store α δ) (cond : SyncCond) (txs : List (Tx α)) (item : Item δ) (r : Scan δ × Bool) :
    Prop where
  item_eq : r.1.work.item = item
  found : r.1.bFoundLastSuccessTx = true
  commit : r.2 = false → r.1.rollback = false →
    r.1.work.tran = { item.db with data := effects store item.db.data (unskipped cond txs) }
  rollback : r.2 = false → r.1.rollback = true → effects store item.db.data (unskipped cond txs) = item.db.data

theorem unskipped_cons (tx : Tx α) (txs : List (Tx α)) :
    unskipped cond (tx :: txs)
      = if cond.isJumpThisTx tx.id then unskipped cond txs else tx :: unskipped cond txs := by
  unfold unskipped
  rw [List.filter_cons]
  cases cond.isJumpThisTx tx.id <;> rfl

theorem scanSlice_common (point : Option Point) (txs ran : List (Tx α)) (hcommon : ∀ tx ∈ txs, tx.atomic = false)
    (j : Nat) (item : Item δ) (tran : Database δ) (rollback : Bool) (hnamed : item.named = true)
    (htran : tran.data = effects store item.db.data ran)
    (hplain : Plain store item.db.data (ran ++ unskipped cond txs)) :
    ∃ tran' rollback' err, scanSlice store cond point j txs ⟨⟨item, tran⟩, true, rollback⟩
        = (⟨⟨item, tran'⟩, true, rollback'⟩, err)
      ∧ (err = false → tran' = { tran with data := effects store tran.data (unskipped cond txs) }
        ∧ (rollback' = true → rollback = true ∧ unskipped cond txs = [])) := by
  induction txs generalizing j tran rollback ran with
  | nil => exact ⟨tran, rollback, false, rfl, fun _ => ⟨rfl, fun h => ⟨h, rfl⟩⟩⟩
  | cons tx rest ih =>
    have hrest : ∀ tx ∈ rest, tx.atomic = false := fun t ht => hcommon t (List.mem_cons_of_mem _ ht)
    rw [scanSlice]
    rw [unskipped_cons] at hplain ⊢
    by_cases hjump : cond.isJumpThisTx tx.id
    · rw [if_pos hjump] at hplain ⊢
      rw [if_pos hjump]
      exact ih ran hrest (j + 1) tran rollback htran hplain
    rw [if_neg hjump] at hplain ⊢
    rw [if_neg hjump]
    have htx : tx.Plain store item.db.data tran.data := by
      rw [htran]
      exact hplain ran tx (unskipped cond rest) rfl [] List.nil_prefix
    have hatomic := hcommon tx List.mem_cons_self
    rcases dealWithEveryTx_plain (w := ⟨item, tran⟩) (lostAt point j) hnamed htx with ⟨tran', h⟩ | h
    · simp only [h]
      exact ⟨tran', false, true, rfl, fun herr => Bool.noConfusion herr⟩
    simp only [h, hatomic, Bool.and_false, Bool.false_eq_true, if_false]
    have heffect : tx.effect store tran.data = (execute store tx.statements tran.data).1 := by
      unfold Tx.effect
      rw [if_neg (by simp [hatomic])]
    rw [← heffect]
    have htran' : tx.effect store tran.data = effects store item.db.data (ran ++ [tx]) := by
      rw [effects_append, ← htran]
      rfl
    obtain ⟨tran', rollback', err, hscan, hok⟩ := ih (ran ++ [tx]) hrest (j + 1)
      { tran with data := tx.effect store tran.data } false htran' (by rw [List.append_assoc]; exact hplain)
    refine ⟨tran', rollback', err, hscan, fun herr => ⟨(hok herr).1, fun hback => ?_⟩⟩
    exact absurd ((hok herr).2 hback).1 Bool.false_ne_true

theorem scanSlice_slice (hslice : IsSlice slice) (point : Option Point) (item : Item δ) (rollback : Bool)
    (hnamed : item.named = true) (hplain : Plain store item.db.data (unskipped cond slice)) :
    Scanned store cond slice item (scanSlice store cond point 0 slice ⟨⟨item, item.db⟩, true, rollback⟩) := by
  rcases hslice.kind with hcommon | ⟨tx, rfl⟩
  · obtain ⟨tran, rollback', err, hscan, hok⟩ :=
      scanSlice_common point slice [] hcommon 0 item item.db rollback hnamed rfl hplain
    rw [hscan]
    refine ⟨rfl, rfl, fun herr _ => (hok herr).1, fun herr hback => ?_⟩
    rw [((hok herr).2 hback).2]
    rfl
  · rw [unskipped_cons] at hplain
    rw [scanSlice, if_neg (by simp)]
    by_cases hjump : cond.isJumpThisTx tx.id
    · rw [if_pos hjump]
      have hnone : unskipped cond [tx] = [] := by rw [unskipped_cons, if_pos hjump]; rfl
      refine ⟨rfl, rfl, fun _ _ => ?_, fun _ _ => ?_⟩
      · rw [hnone]; rfl
      · rw [hnone]; rfl
    rw [if_neg hjump] at hplain ⊢
    have hone : unskipped cond [tx] = [tx] := by rw [unskipped_cons, if_neg hjump]; rfl
    have htx : tx.Plain store item.db.data item.db.data := hplain [] tx [] rfl [] List.nil_prefix
    rcases dealWithEveryTx_plain (w := ⟨item, item.db⟩) (lostAt point 0) hnamed htx with ⟨tran, h⟩ | h
    · simp only [h, if_true]
      exact ⟨rfl, rfl, fun herr _ => Bool.noConfusion herr, fun herr _ => Bool.noConfusion herr⟩
    simp only [h, Bool.false_eq_true, if_false, scanSlice]
    refine ⟨rfl, rfl, fun _ hback => ?_, fun _ hback => ?_⟩
    · rw [hone, effects_cons, effects_nil, Tx.effect, if_neg]
      rintro ⟨hatomic, hsome⟩
      rw [hatomic, hsome] at hback
      cases hback
    · rw [Bool.and_eq_true] at hback
      rw [hone, effects_cons, effects_nil, Tx.effect, if_pos ⟨hback.2, hback.1⟩]

/-! ## Places in a ledger -/

def hashAt (pre : List (List (Tx α))) : HashValue := (pre.getLast?.map lastTxHash).getD zeroHash

@[simp] theorem hashAt_concat (pre : List (List (Tx α))) (slice : List (Tx α)) :
    hashAt (pre ++ [slice]) = lastTxHash slice := by
  unfold hashAt
  rw [List.getLast?_concat]
  rfl

/-- A ledger to process, and the database before it. -/
structure Task (store : Store α δ) (cond : SyncCond) where
  data : LedgerData α
  base : Database δ
  ids : (data.txNodes.map Tx.id).Nodup
  id_ne_zero : ∀ tx ∈ data.txNodes, tx.id ≠ zeroHash
  plain : Plain store base.data (unskipped cond data.txNodes)

section

variable (task : Task store cond)

abbrev Task.slices : List (List (Tx α)) := fetchLedgerTxSlices task.data

variable (pre post : List (List (Tx α)))

def Task.place : Database δ where
  data := effects store task.base.data (unskipped cond pre.flatten)
  txnUpdateHash := if post.isEmpty then zeroHash else hashAt pre
  ledgerSeq := if post.isEmpty then task.data.ledgerSeq else task.base.ledgerSeq

theorem Task.updateSyncDB_place (slice : List (Tx α)) {here tran : Database δ}
    (hhere : task.place pre (slice :: post) = here)
    (htran : tran = { here with data := effects store here.data (unskipped cond slice) }) :
    tran.updateSyncDB true post.isEmpty (lastTxHash slice) task.data.ledgerSeq = task.place (pre ++ [slice]) post := by
  subst htran hhere
  unfold Database.updateSyncDB Task.place
  cases post.isEmpty <;> simp

end

/-- What can have become of an item, at `here` before a slice and at `next` after it, and whether the
loop over the slices is left. -/
inductive Finished (here next : Database δ) : Option Point → Item δ × Bool → Prop
  | done (point) : Finished here next point (.reload next, false)
  | kept (point) : Finished here next point (.reload here, true)
  | updated : Finished here next (some (.update true)) ({ Item.reload here with db := next }, true)
  | committed : Finished here next (some (.commit true)) (.reload next, true)
  | ahead : Finished here next (some (.commit false))
      ({ Item.reload here with uTxDBUpdateHash := next.txnUpdateHash }, true)

theorem Finished.finishCommit (hnext : tran.updateSyncDB true isLastOne hash ledgerSeq = next)
    (hhash : next.txnUpdateHash = if isLastOne then zeroHash else hash) (point : Option Point) :
    Finished here next point (finishCommit point isLastOne hash ledgerSeq ⟨.reload here, tran⟩) := by
  have hset : ∀ db : Database δ, { Item.reload here with db := db }.setUpdateHash isLastOne hash
      = { Item.reload here with db := db, uTxDBUpdateHash := next.txnUpdateHash } := by
    intro db
    rw [hhash]
    rfl
  unfold TableSync.finishCommit
  simp only [hset]
  have hupdated : tran.updateSyncDB (Item.reload here).named isLastOne hash ledgerSeq = next := hnext
  rw [hupdated]
  split
  · exact .kept _
  next landed =>
    cases landed
    · exact .ahead
    · exact .committed
  · exact .done _

theorem Finished.finishRollback (hnext : here.updateSyncDB true isLastOne hash ledgerSeq = next)
    (hhash : next.txnUpdateHash = if isLastOne then zeroHash else hash) (point : Option Point) :
    Finished here next point (finishRollback point isLastOne hash ledgerSeq ⟨.reload here, tran⟩) := by
  unfold TableSync.finishRollback
  have hupdated : (Item.reload here).db.updateSyncDB (Item.reload here).named isLastOne hash ledgerSeq = next := hnext
  simp only [hupdated]
  split
  · exact .kept _
  next landed =>
    cases landed
    · exact .kept _
    · exact .updated
  · have hset : ({ Item.reload here with db := next }.setUpdateHash isLastOne hash) = .reload next := by
      unfold Item.reload
      rw [hhash]
      rfl
    rw [hset]
    exact .done _

section

variable {pre post : List (List (Tx α))} {slice : List (Tx α)}

theorem Task.runSlice_found (task : Task store cond) (hslice : IsSlice slice)
    (hplain : Plain store (task.place pre (slice :: post)).data (unskipped cond slice)) (point : Option Point)
    (rollback : Bool) :
    ∃ item rollback' left,
      runSlice store cond task.data.ledgerSeq post.isEmpty point slice
          ⟨.reload (task.place pre (slice :: post)), true, rollback⟩
        = (⟨item, true, rollback'⟩, left)
      ∧ Finished (task.place pre (slice :: post)) (task.place (pre ++ [slice]) post) point (item, left) := by
  generalize hhere : task.place pre (slice :: post) = here at hplain ⊢
  have hscan := scanSlice_slice hslice point (Item.reload here) rollback rfl hplain
  unfold runSlice
  split
  · exact ⟨_, _, _, rfl, .kept _⟩
  generalize hr : scanSlice store cond point 0 slice ⟨⟨.reload here, here⟩, true, rollback⟩ = r
  have hr' : scanSlice store cond point 0 slice ⟨⟨.reload here, (Item.reload here).db⟩, true, rollback⟩ = r := hr
  rw [hr'] at hscan ⊢
  obtain ⟨⟨⟨item, tran⟩, found, rollback'⟩, err⟩ := r
  obtain ⟨rfl, rfl, hcommit, hback⟩ := hscan
  cases err with
  | true => exact ⟨_, _, _, rfl, .kept _⟩
  | false =>
    have hhash : (task.place (pre ++ [slice]) post).txnUpdateHash = if post.isEmpty then zeroHash else lastTxHash slice := by
      rw [Task.place, hashAt_concat]
    cases rollback' with
    | false => exact ⟨_, _, _, rfl, .finishCommit (task.updateSyncDB_place pre post slice hhere (hcommit rfl rfl)) hhash point⟩
    | true =>
      have hkeep : here = { here with data := effects store here.data (unskipped cond slice) } := by
        rw [show effects store here.data (unskipped cond slice) = here.data from hback rfl rfl]
      exact ⟨_, _, _, rfl, .finishRollback (task.updateSyncDB_place pre post slice hhere hkeep) hhash point⟩

variable {here : Database δ} {point : Option Point}

theorem runSlice_skip (store : Store α δ) (cond : SyncCond) (ledgerSeq : Nat) (isLastOne : Bool)
    (point : Option Point) (rollback : Bool) (h : ∀ tx ∈ slice, tx.id ≠ here.txnUpdateHash) :
    ∃ left, runSlice store cond ledgerSeq isLastOne point slice ⟨.reload here, false, rollback⟩
      = (⟨.reload here, false, rollback⟩, left) := by
  have hscan := scanSlice_skip store cond point slice [] 0 ⟨.reload here, (Item.reload here).db⟩ rollback h
  rw [List.append_nil] at hscan
  unfold runSlice
  split
  · exact ⟨true, rfl⟩
  · exact ⟨false, by rw [hscan]; rfl⟩

theorem Finished.eq_reload {r : Item δ × Bool} (h : Finished here here point r) : r.1 = .reload here := by
  cases h <;> rfl

theorem Finished.of_not_left {next : Database δ} {item : Item δ} (h : Finished here next point (item, false)) :
    item = .reload next := by
  cases h
  rfl

theorem runSlice_find (store : Store α δ) (cond : SyncCond) {tx : Tx α} (hrecorded : here.recorded = true)
    (ledgerSeq : Nat) (point : Option Point) (h : ∀ t ∈ slice, t.id ≠ here.txnUpdateHash)
    (htx : tx.id = here.txnUpdateHash) :
    ∃ found left, runSlice store cond ledgerSeq false point (slice ++ [tx]) ⟨.reload here, false, false⟩
        = (⟨.reload here, found, false⟩, left)
      ∧ (left = false → found = true) := by
  have hlast : lastTxHash (slice ++ [tx]) = here.txnUpdateHash := by
    unfold lastTxHash
    rw [List.getLast?_concat]
    exact htx
  have hnext : here.updateSyncDB true false (lastTxHash (slice ++ [tx])) ledgerSeq = here := by
    unfold Database.updateSyncDB
    rw [hlast, if_pos (by rw [hrecorded]; rfl), if_neg Bool.false_ne_true]
  have hfinish : Finished here here point
      (finishCommit point false (lastTxHash (slice ++ [tx])) ledgerSeq ⟨.reload here, here⟩) :=
    .finishCommit hnext hlast.symm point
  have hscan : scanSlice store cond point 0 (slice ++ [tx]) ⟨⟨.reload here, (Item.reload here).db⟩, false, false⟩
      = (⟨⟨.reload here, here⟩, true, false⟩, false) := by
    rw [scanSlice_skip store cond point slice [tx] 0 _ false h, scanSlice]
    exact congrArg (fun found => (Scan.mk _ found _, _)) (decide_eq_true htx)
  unfold runSlice
  split
  · exact ⟨false, true, rfl, fun h => Bool.noConfusion h⟩
  · rw [hscan]
    exact ⟨true, _, congrArg (fun item => (Loop.mk item true false, _)) hfinish.eq_reload, fun _ => rfl⟩

end

/-! ## A ledger -/

/-- The faults that leave the same hash in memory and in the database, with so many slices in the
ledger: a commit that took effect if its slice is not the last one, and one that did not if it is the
only one. -/
def Fault.harmless (slices : Nat) (fault : Fault) : Bool :=
  match fault.point with
  | .update landed => !landed
  | .commit true => fault.slice + 1 < slices
  | .commit false => slices == 1
  | _ => true

theorem eq_of_pointAt {fault : Option Fault} {i : Nat} {point : Point} (h : pointAt fault i = some point) :
    ∃ crash, fault = some ⟨i, point, crash⟩ := by
  unfold pointAt at h
  split at h
  next f =>
    split at h
    next hi =>
      cases h
      subst hi
      exact ⟨f.crash, rfl⟩
    · cases h
  · cases h

namespace Task

/-- What a try to process a ledger does: it completes the ledger or is left at some place of it, where
the item can go on after a harmless fault. -/
structure Attempted (task : Task store cond) (fault : Option Fault) (r : Item δ × Bool) : Prop where
  done : r.2 = true → r.1 = .reload (task.place task.slices [])
  left : r.2 = false → ∃ pre post, task.slices = pre ++ post ∧ r.1.db = task.place pre post
    ∧ ((∀ f, fault = some f → f.harmless task.slices.length = true) → post ≠ [] ∧ r.1 = .reload (task.place pre post))

variable {task : Task store cond} {pre post : List (List (Tx α))} {slice : List (Tx α)} {fault : Option Fault}
  {item : Item δ}

theorem Attempted.of_reload (heq : task.slices = pre ++ post) (hpost : post ≠ []) :
    task.Attempted fault (.reload (task.place pre post), false) where
  done h := Bool.noConfusion h
  left _ := ⟨pre, post, heq, rfl, fun _ => ⟨hpost, rfl⟩⟩

theorem Attempted.of_finished (heq : task.slices = pre ++ slice :: post)
    (h : Finished (task.place pre (slice :: post)) (task.place (pre ++ [slice]) post) (pointAt fault pre.length)
      (item, true)) : task.Attempted fault (item, false) := by
  have hlen : task.slices.length = pre.length + (post.length + 1) := by rw [heq, List.length_append, List.length_cons]
  have heq' : task.slices = (pre ++ [slice]) ++ post := by rw [heq, List.append_assoc, List.singleton_append]
  refine ⟨fun h => Bool.noConfusion h, fun _ => ?_⟩
  generalize hpoint : pointAt fault pre.length = point at h
  cases h with
  | kept => exact ⟨pre, slice :: post, heq, rfl, fun _ => ⟨List.cons_ne_nil _ _, rfl⟩⟩
  | updated =>
    obtain ⟨crash, rfl⟩ := eq_of_pointAt hpoint
    exact ⟨_, post, heq', rfl, fun h => Bool.noConfusion (h _ rfl)⟩
  | committed =>
    obtain ⟨crash, rfl⟩ := eq_of_pointAt hpoint
    refine ⟨_, post, heq', rfl, fun h => ⟨?_, rfl⟩⟩
    rintro rfl
    have hlt : pre.length + 1 < task.slices.length := of_decide_eq_true (h _ rfl)
    rw [hlen, List.length_nil] at hlt
    omega
  | ahead =>
    obtain ⟨crash, rfl⟩ := eq_of_pointAt hpoint
    refine ⟨pre, slice :: post, heq, rfl, fun h => ⟨List.cons_ne_nil _ _, ?_⟩⟩
    have hone : task.slices.length = 1 := eq_of_beq (h _ rfl)
    have hpre : pre = [] := List.eq_nil_of_length_eq_zero (by omega)
    have hpost : post = [] := List.eq_nil_of_length_eq_zero (by omega)
    subst hpre hpost
    rfl

variable (task : Task store cond) (fault : Option Fault)

theorem flatten_slices : task.slices.flatten = task.data.txNodes := flatten_cutSlices [] task.data.txNodes

theorem isSlice_of_mem (h : slice ∈ task.slices) : IsSlice slice := isSlice_of_mem_cutSlices (by simp) h

theorem runSlices_found (rollback : Bool) (heq : task.slices = pre ++ post) :
    task.Attempted fault (runSlices store cond task.data.ledgerSeq fault pre.length post
      ⟨.reload (task.place pre post), true, rollback⟩) := by
  induction post generalizing pre rollback with
  | nil =>
    rw [List.append_nil] at heq
    subst heq
    exact ⟨fun _ => rfl, fun h => Bool.noConfusion h⟩
  | cons slice post ih =>
    have hslice := task.isSlice_of_mem (heq ▸ List.mem_append_right _ List.mem_cons_self)
    have hmid : unskipped cond task.data.txNodes
        = unskipped cond pre.flatten ++ unskipped cond slice ++ unskipped cond post.flatten := by
      rw [← flatten_slices, heq, List.flatten_append, List.flatten_cons, unskipped_append, unskipped_append,
        List.append_assoc]
    obtain ⟨item, rollback', left, hrun, hfinish⟩ := task.runSlice_found hslice (task.plain.middle hmid)
      (pointAt fault pre.length) rollback
    rw [runSlices, hrun]
    cases left with
    | true => exact .of_finished heq hfinish
    | false =>
      have hitem := hfinish.of_not_left
      subst hitem
      have hnext := @ih (pre ++ [slice]) rollback' (by rw [heq, List.append_assoc, List.singleton_append])
      rw [List.length_append] at hnext
      exact hnext

theorem runSlices_skip (earlier skipped : List (List (Tx α))) {front : List (Tx α)} {tx : Tx α}
    (hflat : skipped.flatten = front ++ [tx]) (htx : tx.id = (task.place (earlier ++ skipped) post).txnUpdateHash)
    (hother : ∀ t ∈ front, t.id ≠ (task.place (earlier ++ skipped) post).txnUpdateHash) (hpost : post ≠ [])
    (heq : task.slices = (earlier ++ skipped) ++ post) :
    task.Attempted fault (runSlices store cond task.data.ledgerSeq fault earlier.length (skipped ++ post)
      ⟨.reload (task.place (earlier ++ skipped) post), false, false⟩) := by
  have hleft : task.Attempted fault (.reload (task.place (earlier ++ skipped) post), false) := .of_reload heq hpost
  induction skipped generalizing earlier front with
  | nil => exact absurd hflat.symm (by simp)
  | cons slice skipped ih =>
    have hassoc : earlier ++ slice :: skipped = (earlier ++ [slice]) ++ skipped := by simp
    rw [List.flatten_cons] at hflat
    rcases List.eq_nil_or_concat' skipped.flatten with hnil | ⟨front', tx', hconcat⟩
    · -- the transaction is the last one of this slice
      obtain rfl : skipped = [] := by
        refine List.eq_nil_iff_forall_not_mem.mpr fun s hs => ?_
        refine (task.isSlice_of_mem ?_).ne_nil (List.flatten_eq_nil_iff.mp hnil s hs)
        exact heq ▸ List.mem_append_left _ (List.mem_append_right _ (List.mem_cons_of_mem _ hs))
      obtain rfl : slice = front ++ [tx] := by rw [← hflat, List.flatten_nil, List.append_nil]
      have hisEmpty : post.isEmpty = false := Bool.eq_false_iff.mpr fun h => hpost (List.isEmpty_iff.mp h)
      obtain ⟨found, left, hrun, hfound⟩ := runSlice_find store cond rfl task.data.ledgerSeq
        (pointAt fault earlier.length) hother htx
      rw [List.singleton_append, runSlices, hisEmpty, hrun]
      cases left with
      | true => exact hleft
      | false =>
        rw [hfound rfl]
        have hnext := task.runSlices_found fault false heq
        rw [List.length_append] at hnext
        exact hnext
    · rw [hconcat, ← List.append_assoc] at hflat
      obtain ⟨rfl, htx'⟩ := List.append_inj' hflat rfl
      obtain rfl := List.singleton_inj.mp htx'
      obtain ⟨left, hrun⟩ := runSlice_skip store cond task.data.ledgerSeq (skipped ++ post).isEmpty
        (pointAt fault earlier.length) false fun t ht => hother t (List.mem_append_left _ ht)
      rw [List.cons_append, runSlices, hrun]
      cases left with
      | true => exact hleft
      | false =>
        rw [hassoc] at htx hother heq hleft ⊢
        have hnext := ih (earlier ++ [slice]) hconcat htx (fun t ht => hother t (List.mem_append_right _ ht)) heq hleft
        rw [List.length_append] at hnext
        exact hnext

theorem runSlices_attempted (heq : task.slices = pre ++ post) (hpost : post ≠ []) :
    task.Attempted fault (runSlices store cond task.data.ledgerSeq fault 0 task.slices
      ⟨.reload (task.place pre post), (Item.reload (task.place pre post)).uTxDBUpdateHash == zeroHash, false⟩) := by
  have hhash : (task.place pre post).txnUpdateHash = hashAt pre := if_neg fun h => hpost (List.isEmpty_iff.mp h)
  rw [show (Item.reload (task.place pre post)).uTxDBUpdateHash = _ from hhash]
  rcases List.eq_nil_or_concat' pre with rfl | ⟨init, slice, rfl⟩
  · have hrun := task.runSlices_found fault false heq
    rw [heq]
    exact hrun
  · obtain ⟨txs, tx, rfl⟩ := (List.eq_nil_or_concat' slice).resolve_left
      (task.isSlice_of_mem (heq ▸ List.mem_append_left _ (List.mem_append_right _ List.mem_cons_self))).ne_nil
    have hid : hashAt (init ++ [txs ++ [tx]]) = tx.id := by
      rw [hashAt_concat, lastTxHash, List.getLast?_concat]
      rfl
    have hflat : (init ++ [txs ++ [tx]]).flatten = (init.flatten ++ txs) ++ [tx] := by simp
    have hnodes := task.flatten_slices
    rw [heq, List.flatten_append, hflat] at hnodes
    have hids := task.ids
    rw [← hnodes, List.map_append, List.map_append] at hids
    have hne : (tx.id == zeroHash) = false := beq_eq_false_iff_ne.mpr (task.id_ne_zero tx (by simp [← hnodes]))
    rw [hid] at hhash ⊢
    rw [hne, heq]
    refine task.runSlices_skip fault [] _ hflat hhash.symm (fun t ht => ?_) hpost heq
    rw [List.nil_append, hhash]
    exact (List.nodup_append.mp hids.of_append_left).2.2 _ (List.mem_map_of_mem ht) _ (by simp)

end Task

/-- Where the next try can be made, every fault was harmless. -/
def Recoverable (tries slices : Nat) (faults : List (Option Fault)) : Prop :=
  ∀ k, k + 1 < tries → ∀ fault, faults[k]? = some (some fault) → fault.crash = false → fault.harmless slices = true

theorem Task.tryLedger_place (task : Task store cond) {tries : Nat} {faults : List (Option Fault)}
    {pre post : List (List (Tx α))} {item : Item δ} (hfaults : Recoverable tries task.slices.length faults)
    (heq : task.slices = pre ++ post) (hpost : post ≠ [])
    (hitem : tryLedger store cond task.data tries faults (.reload (task.place pre post)) = item) :
    (item.stopped = false → item = .reload (task.place task.slices []))
      ∧ ∃ pre post, task.slices = pre ++ post ∧ item.db = task.place pre post := by
  induction tries generalizing faults pre post with
  | zero =>
    subst hitem
    exact ⟨fun h => Bool.noConfusion h, pre, post, heq, rfl⟩
  | succ tries ih =>
    have htry := task.runSlices_attempted faults.head?.join heq hpost
    unfold tryLedger at hitem
    dsimp only at hitem
    generalize runSlices store cond task.data.ledgerSeq faults.head?.join 0 task.slices _ = r at hitem htry
    obtain ⟨item', ok⟩ := r
    cases ok with
    | true =>
      subst hitem
      have hdone := htry.done rfl
      exact ⟨fun _ => hdone, _, [], (List.append_nil _).symm, congrArg Item.db hdone⟩
    | false =>
      obtain ⟨pre', post', heq', hdb, hgo⟩ := htry.left rfl
      dsimp only at hitem hdb hgo
      by_cases hcrash : faults.head?.join.any Fault.crash = true
      · rw [if_pos hcrash] at hitem
        subst hitem
        exact ⟨fun h => Bool.noConfusion h, pre', post', heq', hdb⟩
      rw [if_neg hcrash] at hitem
      cases tries with
      | zero =>
        subst hitem
        exact ⟨fun h => Bool.noConfusion h, pre', post', heq', hdb⟩
      | succ tries =>
        have hharmless : ∀ fault, faults.head?.join = some fault → fault.harmless task.slices.length = true := by
          intro fault hfault
          refine hfaults 0 (by omega) fault ?_ ?_
          · rw [← List.head?_eq_getElem?]
            exact Option.join_eq_some_iff.mp hfault
          · rw [hfault] at hcrash
            exact Bool.eq_false_of_not_eq_true hcrash
        obtain ⟨hpost', rfl⟩ := hgo hharmless
        refine ih (fun k hk fault hfault => hfaults (k + 1) (by omega) fault ?_) heq' hpost' hitem
        rw [← List.getElem?_tail]
        exact hfault

end Chainsql.TableSync
