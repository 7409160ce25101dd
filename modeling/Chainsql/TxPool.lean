import Chainsql.Digest
import Chainsql.Lib.Assoc
import Chainsql.Lib.Run
import Chainsql.Lib.SortedMap
import Mathlib.Data.Prod.Lex

/-!
# The transaction pool

`TxPool` keeps the transactions in the order of account and sequence, with an index by hash. Transactions of
ledgers under way are avoided, by sequence and by hash. An iterator into `mTxsSet` is the key it points at.
`removeExpired` has no effect on accounts here, and `timerEntry` is a `removeTxs` and an `expire`.
-/

namespace Chainsql

structure Transaction where
  id : HashValue
  account : ℕ
  sequence : ℕ
  lastLedgerSequence : Option ℕ := none
deriving DecidableEq

/-- What `transactionCompare` orders by. -/
def Transaction.key (tx : Transaction) : ℕ ×ₗ ℕ := toLex (tx.account, tx.sequence)

def Transaction.expired (tx : Transaction) (validLedgerIndex : ℕ) : Bool :=
  tx.lastLedgerSequence.any (· < validLedgerIndex)

structure SyncStatus where
  poolStartSeq : ℕ := 0
  maxAdvanceSeq : ℕ := 0
  prevHash : HashValue := zeroHash
  mapSynced : AList fun _ : ℕ => HashValue := ∅

structure TxPool where
  mTxsSet : SortedMap (ℕ ×ₗ ℕ) Transaction := .empty
  mTxsHash : AList fun _ : HashValue => ℕ ×ₗ ℕ := ∅
  mInLedgerCache : Finset HashValue := ∅
  mAvoidBySeq : AList fun _ : ℕ => Finset HashValue := ∅
  mAvoidByHash : AList fun _ : HashValue => ℕ := ∅
  mSyncStatus : SyncStatus := {}

inductive InsertResult where
  | telTxPoolFull | tesSuccess | telLocalError | tefPastSeq

namespace SyncStatus

/-- The first sequence below the last argument, going down to `start`, that was not passed. -/
def missing (mapSynced : AList fun _ : ℕ => HashValue) (start : ℕ) : ℕ → Option ℕ
  | 0 => none
  | i + 1 => if i < start then none else if i ∈ mapSynced then missing mapSynced start i else some i

/-- The part of `checkSyncStatus` for a pool that is not empty. The sequence counted down from wraps around at 0. -/
def advance (status : SyncStatus) (ledgerSeq : ℕ) (prevHash : HashValue) : SyncStatus :=
  if status.poolStartSeq = 0 then status
  else
    let maxAdvanceSeq := max status.maxAdvanceSeq ledgerSeq
    let mapSynced := status.mapSynced.insert ledgerSeq prevHash
    let seqDue := missing mapSynced status.poolStartSeq (if maxAdvanceSeq = 0 then 2 ^ 32 else maxAdvanceSeq)
    let prevHashDue := (seqDue.bind fun i => mapSynced.lookup ((i + 1) % 2 ^ 32)).getD zeroHash
    if prevHashDue = zeroHash then
      { status with maxAdvanceSeq, poolStartSeq := (maxAdvanceSeq + 1) % 2 ^ 32, mapSynced := ∅ }
    else { status with maxAdvanceSeq, mapSynced, prevHash := prevHashDue }

end SyncStatus

namespace TxPool

variable (mMaxTxsInPool : ℕ) (pool : TxPool)

def insertTx (tx : Transaction) (ledgerSeq : ℕ) : TxPool × InsertResult :=
  if mMaxTxsInPool ≤ pool.mTxsSet.entries.length then (pool, .telTxPoolFull)
  else if tx.id ∈ pool.mInLedgerCache then (pool, .tesSuccess)
  else if (pool.mTxsSet.find tx.key).isSome then (pool, .tefPastSeq)
  -- the set insertion is taken back
  else if tx.id ∈ pool.mTxsHash then (pool, .telLocalError)
  else
    ({ pool with
        mTxsSet := pool.mTxsSet.set tx.key tx
        mTxsHash := pool.mTxsHash.insert tx.id tx.key
        mSyncStatus :=
          if pool.mSyncStatus.poolStartSeq = 0 then { pool.mSyncStatus with poolStartSeq := ledgerSeq }
          else pool.mSyncStatus },
      .tesSuccess)

def eraseAt (hash : HashValue) (iter : ℕ ×ₗ ℕ) : TxPool :=
  { pool with mTxsHash := pool.mTxsHash.erase hash, mTxsSet := pool.mTxsSet.erase iter }

/-- The body of the loop of `removeTxs`. -/
def removeItem (hash : HashValue) : TxPool :=
  match pool.mTxsHash.lookup hash with
  | none => { pool with mInLedgerCache := insert hash pool.mInLedgerCache }
  | some iter => pool.eraseAt hash iter

def avoidAt (seq : ℕ) : Finset HashValue := (pool.mAvoidBySeq.lookup seq).getD ∅

def clearAvoid (seq : ℕ) : TxPool :=
  { pool with
    mAvoidByHash := pool.mAvoidByHash.eraseIf fun hash _ => hash ∈ pool.avoidAt seq
    mAvoidBySeq := pool.mAvoidBySeq.erase seq }

def checkSyncStatus (ledgerSeq : ℕ) (prevHash : HashValue) : TxPool :=
  { pool with
    mSyncStatus := if pool.mTxsSet.entries = [] then {} else pool.mSyncStatus.advance ledgerSeq prevHash }

def removeTxs (cSet : List HashValue) (ledgerSeq : ℕ) (prevHash : HashValue) : TxPool :=
  ((cSet.foldl removeItem pool).clearAvoid ledgerSeq).checkSyncStatus ledgerSeq prevHash

def avoid (seq : ℕ) (hash : HashValue) : TxPool :=
  { pool with
    mAvoidBySeq := pool.mAvoidBySeq.insert seq (insert hash (pool.avoidAt seq))
    mAvoidByHash := pool.mAvoidByHash.emplace hash seq }

def updateAvoid (map : List HashValue) (seq validLedgerIndex : ℕ) : TxPool :=
  if seq ≤ validLedgerIndex then pool else map.foldl (avoid · seq) pool

/-- The iterator is read through the entry of `mTxsHash` that has just been erased. What that gives is `read`. -/
def removeTx (hash : HashValue) (read : ℕ ×ₗ ℕ) : TxPool :=
  let pool := if hash ∈ pool.mTxsHash then pool.eraseAt hash read else pool
  match pool.mAvoidByHash.lookup hash with
  | none => pool
  | some seq =>
    let rest := (pool.avoidAt seq).erase hash
    { pool with
      mAvoidBySeq := if rest = ∅ then pool.mAvoidBySeq.erase seq else pool.mAvoidBySeq.insert seq rest
      mAvoidByHash := pool.mAvoidByHash.erase hash }

def sweep (validLedgerIndex : ℕ) : TxPool :=
  { pool with
    mTxsSet := ⟨pool.mTxsSet.entries.filter (!·.2.expired validLedgerIndex), pool.mTxsSet.sorted.filter _⟩
    mTxsHash := pool.mTxsHash.eraseIf fun hash _ =>
      pool.mTxsSet.entries.any fun e => e.2.expired validLedgerIndex && e.2.id == hash
    mAvoidByHash := pool.mAvoidByHash.eraseIf fun _ seq => seq < validLedgerIndex
    mAvoidBySeq := pool.mAvoidBySeq.eraseIf fun seq _ =>
      seq < validLedgerIndex && decide (seq ∈ pool.mAvoidByHash.values) }

/-- The hashes in the set that `topTransactions` fills, in the order of their insertion. -/
def topTransactions (limit : ℕ) : List HashValue :=
  ((pool.mTxsSet.entries.map (·.2.id)).filter (· ∉ pool.mAvoidByHash)).take limit

def getQueuedTxCountInPool : UInt64 :=
  .ofNat pool.mTxsSet.entries.length - .ofNat pool.mAvoidByHash.size

inductive Call where
  | insertTx (tx : Transaction) (ledgerSeq : ℕ)
  | removeTxs (cSet : List HashValue) (ledgerSeq : ℕ) (prevHash : HashValue)
  | removeTx (hash : HashValue)
  | updateAvoid (map : List HashValue) (seq validLedgerIndex : ℕ)
  | clearAvoid (seq : ℕ)
  | clearAvoids
  | sweep (validLedgerIndex : ℕ)
  | expire (old : Finset HashValue)

/-- A call, where the erased entry still has the iterator. -/
def step : Call → TxPool
  | .insertTx tx ledgerSeq => (pool.insertTx mMaxTxsInPool tx ledgerSeq).1
  | .removeTxs cSet ledgerSeq prevHash => pool.removeTxs cSet ledgerSeq prevHash
  | .removeTx hash => pool.removeTx hash ((pool.mTxsHash.lookup hash).getD (toLex (0, 0)))
  | .updateAvoid map seq validLedgerIndex => pool.updateAvoid map seq validLedgerIndex
  | .clearAvoid seq => pool.clearAvoid seq
  | .clearAvoids => { pool with mAvoidByHash := ∅, mAvoidBySeq := ∅ }
  | .sweep validLedgerIndex => pool.sweep validLedgerIndex
  | .expire old => { pool with mInLedgerCache := pool.mInLedgerCache \ old }

def run (calls : List Call) : TxPool := Run.final (step mMaxTxsInPool) {} calls

/-- A call, with what `removeTx` reads. -/
def stepReading (c : Call × (ℕ ×ₗ ℕ)) : TxPool :=
  match c.1 with
  | .removeTx hash => pool.removeTx hash c.2
  | call => pool.step mMaxTxsInPool call

def runReading (calls : List (Call × (ℕ ×ₗ ℕ))) : TxPool := Run.final (stepReading mMaxTxsInPool) {} calls

/-- A `removeTx` that finds its transaction reads the iterator that was stored. -/
def ReadsStored (c : Call × (ℕ ×ₗ ℕ)) : Prop :=
  ∀ hash, c.1 = .removeTx hash → ∀ iter, pool.mTxsHash.lookup hash = some iter → c.2 = iter

/-! ## The index by hash -/

variable {n : ℕ} {pool : TxPool} {set : SortedMap (ℕ ×ₗ ℕ) Transaction} {index : AList fun _ : HashValue => ℕ ×ₗ ℕ}
  {hash : HashValue} {iter : ℕ ×ₗ ℕ} {tx : Transaction}

structure Indexed (n : ℕ) (set : SortedMap (ℕ ×ₗ ℕ) Transaction) (index : AList fun _ : HashValue => ℕ ×ₗ ℕ) :
    Prop where
  hash : ∀ hash iter, index.lookup hash = some iter ↔ ∃ tx, set.find iter = some tx ∧ tx.id = hash
  key : ∀ iter tx, set.find iter = some tx → tx.key = iter
  length : set.entries.length ≤ n

namespace Indexed

variable (h : Indexed n set index)
include h

theorem lookup (htx : set.find iter = some tx) : index.lookup tx.id = some iter := (h.hash _ _).mpr ⟨tx, htx, rfl⟩

theorem erase (hiter : index.lookup hash = some iter) : Indexed n (set.erase iter) (index.erase hash) where
  hash x i := by
    have := h.hash x i
    grind [h.hash, SortedMap.find_erase_self, SortedMap.find_erase_ne, AList.lookup_erase, AList.lookup_erase_ne]
  key i tx htx := by
    grind [h.key, SortedMap.find_erase_self, SortedMap.find_erase_ne]
  length := (List.length_filter_le _ _).trans h.length

theorem insert (hkey : set.find tx.key = none) (hid : index.lookup tx.id = none) (hlt : set.entries.length < n) :
    Indexed n (set.set tx.key tx) (index.insert tx.id tx.key) where
  hash x i := by
    have := h.hash x i
    grind [h.hash, SortedMap.find_set_self, SortedMap.find_set_ne, AList.lookup_insert, AList.lookup_insert_ne]
  key i tx htx := by
    grind [h.key, SortedMap.find_set_self, SortedMap.find_set_ne]
  length := (SortedMap.length_setIn_le _).trans hlt

end Indexed

def Coherent (n : ℕ) (pool : TxPool) : Prop := Indexed n pool.mTxsSet pool.mTxsHash

theorem Coherent.sweep (h : Coherent n pool) (validLedgerIndex : ℕ) : Coherent n (pool.sweep validLedgerIndex) := by
  have hfind : ∀ iter tx, (pool.sweep validLedgerIndex).mTxsSet.find iter = some tx
      ↔ pool.mTxsSet.find iter = some tx ∧ tx.expired validLedgerIndex = false := by
    simp [SortedMap.find_eq_some, TxPool.sweep]
  refine ⟨fun hash iter => ?_, fun iter tx htx => h.key iter tx ((hfind _ _).mp htx).1,
    (List.length_filter_le _ _).trans h.length⟩
  have hlookup : (pool.sweep validLedgerIndex).mTxsHash.lookup hash = some iter
      ↔ pool.mTxsHash.lookup hash = some iter
        ∧ ∀ i tx, pool.mTxsSet.find i = some tx → tx.expired validLedgerIndex → tx.id ≠ hash := by
    simp [SortedMap.find_eq_some, TxPool.sweep, AList.lookup_eraseIf]
  have hindex : ∀ i tx, pool.mTxsSet.find i = some tx → pool.mTxsHash.lookup tx.id = some i := fun _ _ => h.lookup
  grind [h.hash]

theorem removeTx_of_mem {read : ℕ ×ₗ ℕ} (hmem : hash ∈ pool.mTxsHash) :
    (pool.removeTx hash read).mTxsSet = pool.mTxsSet.erase read ∧
      (pool.removeTx hash read).mTxsHash = pool.mTxsHash.erase hash := by
  simp only [removeTx, if_pos hmem]
  split <;> exact ⟨rfl, rfl⟩

theorem Coherent.removeTx {read : ℕ ×ₗ ℕ} (h : Coherent n pool)
    (hread : ∀ iter, pool.mTxsHash.lookup hash = some iter → read = iter) : Coherent n (pool.removeTx hash read) := by
  by_cases hmem : hash ∈ pool.mTxsHash
  · obtain ⟨iter, hiter⟩ := Option.isSome_iff_exists.mp (AList.lookup_isSome.mpr hmem)
    rw [Coherent, (removeTx_of_mem hmem).1, (removeTx_of_mem hmem).2, hread iter hiter]
    exact h.erase hiter
  · simp only [TxPool.removeTx, if_neg hmem]
    split <;> exact h

theorem Coherent.step (h : Coherent n pool) (call : Call) : Coherent n (pool.step n call) := by
  cases call with
  | insertTx tx ledgerSeq =>
    simp only [TxPool.step, insertTx]
    split_ifs with hfull _ hkey hid
    iterate 4 exact h
    all_goals exact h.insert (by simpa using hkey) (AList.lookup_eq_none.mpr hid) (Nat.lt_of_not_le hfull)
  | removeTxs cSet ledgerSeq prevHash =>
    refine List.foldlRecOn cSet _ (motive := Coherent n) h fun p hp hash _ => ?_
    unfold removeItem
    split
    · exact hp
    next iter hiter => exact hp.erase hiter
  | removeTx hash =>
    refine h.removeTx fun iter hiter => ?_
    rw [hiter, Option.getD_some]
  | updateAvoid map seq validLedgerIndex =>
    simp only [TxPool.step, updateAvoid]
    split
    · exact h
    · exact List.foldlRecOn map _ (motive := Coherent n) h fun p hp _ _ => hp
  | sweep validLedgerIndex => exact h.sweep validLedgerIndex
  | clearAvoid | clearAvoids | expire => exact h

theorem coherent_empty (n : ℕ) : Coherent n {} := by
  have hnone : ∀ iter, (SortedMap.empty : SortedMap (ℕ ×ₗ ℕ) Transaction).find iter = none := fun _ => rfl
  exact ⟨by simp [hnone], by simp [hnone], Nat.zero_le _⟩

theorem coherent_run (n : ℕ) (calls : List Call) : Coherent n (run n calls) :=
  List.foldlRecOn calls _ (motive := Coherent n) (coherent_empty n) fun _ h call _ => h.step call

theorem Coherent.stepReading_iff (h : Coherent n pool) (c : Call × (ℕ ×ₗ ℕ)) :
    Coherent n (pool.stepReading n c) ↔ pool.ReadsStored c := by
  obtain ⟨call, read⟩ := c
  cases call with
  | removeTx hash =>
    refine ⟨?_, fun hread => h.removeTx (hread hash rfl)⟩
    rintro h' _ ⟨⟩ iter hiter
    -- the transaction would be in the set still, and its hash is gone
    by_contra hne
    obtain ⟨tx, htx, hid⟩ := (h.hash hash iter).mp hiter
    have hmem : hash ∈ pool.mTxsHash := AList.lookup_isSome.mp (by rw [hiter, Option.isSome_some])
    have hlookup := (h'.hash hash iter).mpr ⟨tx, ?_, hid⟩
    · rw [stepReading, (removeTx_of_mem hmem).2, AList.lookup_erase] at hlookup
      cases hlookup
    · rw [stepReading, (removeTx_of_mem hmem).1, SortedMap.find_erase_ne (Ne.symm hne), htx]
  | _ => exact iff_of_true (h.step _) fun _ heq => by cases heq

def Distinct (pool : TxPool) : Prop :=
  pool.mTxsSet.entries.Pairwise fun e e' => (e.2.account, e.2.sequence) ≠ (e'.2.account, e'.2.sequence)

theorem Coherent.distinct (h : Coherent n pool) : pool.Distinct := by
  refine pool.mTxsSet.sorted.imp_of_mem fun {e e'} he he' hlt heq => ?_
  have hk := h.key e.1 e.2 (SortedMap.find_eq_some.mpr he)
  have hk' := h.key e'.1 e'.2 (SortedMap.find_eq_some.mpr he')
  rw [← hk, ← hk', Transaction.key, Transaction.key, heq] at hlt
  exact lt_irrefl _ hlt

/-- The index and the set hold the same transactions all along a run, at most one for an account and sequence and
no more than the limit, if and only if each `removeTx` that finds its transaction reads what the erased entry held. -/
theorem mTxsHash_mTxsSet_iff (mMaxTxsInPool : ℕ) (calls : List (Call × (ℕ ×ₗ ℕ))) :
    (∀ before, before <+: calls →
        Coherent mMaxTxsInPool (runReading mMaxTxsInPool before) ∧ (runReading mMaxTxsInPool before).Distinct) ↔
      Run.Along (stepReading mMaxTxsInPool) ReadsStored {} calls := by
  refine Run.forall_prefix_iff (fun _ pool => Coherent mMaxTxsInPool pool ∧ pool.Distinct)
    ⟨coherent_empty _, (coherent_empty mMaxTxsInPool).distinct⟩ fun before c h => ?_
  rw [← h.1.stepReading_iff c]
  exact ⟨And.left, fun h' => ⟨h', h'.distinct⟩⟩

/-- A transaction is removed from the index, and what is read does not point at it. -/
theorem removeTx_reads_freed :
    let pool := runReading 10 [(.insertTx ⟨7, 1, 1, none⟩ 5, toLex (0, 0)), (.removeTx 7, toLex (0, 0))]
    pool.mTxsHash.lookup 7 = none ∧ pool.mTxsSet.find (toLex (1, 1)) = some ⟨7, 1, 1, none⟩ := by
  decide

/-! ## The queued transactions -/

theorem Indexed.nodup (h : Indexed n set index) : (set.entries.map (·.2.id)).Nodup := by
  refine List.Nodup.map_on (fun e he e' he' hid => ?_) (set.sorted.imp fun hlt heq => ?_)
  · have hfind := SortedMap.find_eq_some.mpr he
    have hfind' := SortedMap.find_eq_some.mpr he'
    grind [→ Indexed.lookup]
  · simp [heq] at hlt

theorem Indexed.mem_ids (h : Indexed n set index) (hash : HashValue) :
    hash ∈ set.entries.map (·.2.id) ↔ hash ∈ index := by
  simp [← AList.lookup_isSome, Option.isSome_iff_exists, h.hash, SortedMap.find_eq_some]

/-- The queued count is the number of transactions to propose exactly if every avoided hash is one of the pool. -/
theorem getQueuedTxCountInPool_iff (mMaxTxsInPool : ℕ) (calls : List Call) (limit : ℕ)
    (hlimit : (run mMaxTxsInPool calls).mTxsSet.entries.length ≤ limit) (hmax : mMaxTxsInPool < 2 ^ 64)
    (havoid : (run mMaxTxsInPool calls).mAvoidByHash.size < 2 ^ 64) :
    (run mMaxTxsInPool calls).getQueuedTxCountInPool.toNat = ((run mMaxTxsInPool calls).topTransactions limit).length
      ↔ ∀ hash ∈ (run mMaxTxsInPool calls).mAvoidByHash, hash ∈ (run mMaxTxsInPool calls).mTxsHash := by
  have h := coherent_run mMaxTxsInPool calls
  generalize run mMaxTxsInPool calls = pool at h hlimit havoid ⊢
  let marked := pool.mAvoidByHash.keys.toFinset
  let ids := (pool.mTxsSet.entries.map (·.2.id)).toFinset
  have hids : ids.card = pool.mTxsSet.entries.length := by
    rw [List.toFinset_card_of_nodup h.nodup, List.length_map]
  have hmarked : pool.mAvoidByHash.size = marked.card := AList.size_eq_card fun _ => List.mem_toFinset.symm
  have htop : (pool.topTransactions limit).length = (ids \ marked).card := by
    have hle := List.length_filter_le (· ∉ pool.mAvoidByHash) (pool.mTxsSet.entries.map (·.2.id))
    rw [List.length_map] at hle
    rw [topTransactions, List.take_of_length_le (hle.trans hlimit), ← List.toFinset_card_of_nodup (h.nodup.filter _)]
    congr 1
    ext hash
    simp [ids, marked, AList.mem_keys]
  have hall : (∀ hash ∈ pool.mAvoidByHash, hash ∈ pool.mTxsHash) ↔ (marked \ ids).card = 0 := by
    rw [Finset.card_eq_zero, Finset.sdiff_eq_empty_iff_subset]
    simp only [Finset.subset_iff, ids, marked, List.mem_toFinset, h.mem_ids, AList.mem_keys]
  have hpool := Finset.card_sdiff_add_card_inter ids marked
  have havoided := Finset.card_sdiff_add_card_inter marked ids
  rw [Finset.inter_comm] at havoided
  have hle := h.length
  rw [hall, htop, getQueuedTxCountInPool, UInt64.toNat_sub, UInt64.toNat_ofNat', UInt64.toNat_ofNat']
  omega

theorem getQueuedTxCountInPool_iff_avoided :
    (run 10 [.insertTx ⟨7, 1, 1, none⟩ 5, .updateAvoid [7] 5 4]).getQueuedTxCountInPool.toNat = 0 := by
  rw [(getQueuedTxCountInPool_iff 10 [.insertTx ⟨7, 1, 1, none⟩ 5, .updateAvoid [7] 5 4] 1 (by decide) (by decide)
    (by decide)).mpr (by decide)]
  decide

/-- Marking a transaction the pool never had makes the count wrap around. -/
theorem getQueuedTxCountInPool_wraps :
    (run 10 [.updateAvoid [7] 5 4]).getQueuedTxCountInPool.toNat = 2 ^ 64 - 1 := by
  decide

end TxPool

end Chainsql
