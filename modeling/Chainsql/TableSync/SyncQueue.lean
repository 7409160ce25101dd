import Chainsql.Digest
import Chainsql.Lib.Run

/-!
# The data queues of a table

`TableSyncItem` collects the ledgers with transactions on a table from messages that may arrive in any
order. Two cursors say how far it is: the last ledger reported, and the last one with transactions. A
message that does not follow its cursor is parked in `aBlockData` until one that does has been
appended; a message whose ledger the node does not know yet is parked in `aWaitCheckData` and checked
later. `aWholeData` is the list of all that has been appended: taking data from it for execution is left
out.
-/

namespace Chainsql.TableSync

/-- `TMTableData`. A message without transactions ends a stretch of ledgers (`MakeSeekEndReply`). -/
structure TableData (τ : Type) where
  ledgerSeq : Nat
  ledgerHash : HashValue
  -- The hash that the table's entry records for its last change (`sfTxnLedgerHash`).
  ledgerCheckHash : HashValue
  lastLedgerSeq : Nat
  lastLedgerHash : HashValue
  txNodes : List τ
  seekStop : Bool
  closeTime : Nat := 0

inductive TableSyncState
  | init
  | waitData
  | blockStop
deriving DecidableEq, Repr

inductive LedgerSyncState
  | noLedger
  | waitLedger
  | gotLedger
deriving DecidableEq, Repr

structure TableSyncItem (τ : Type) where
  u32SeqLedger : Nat := 0
  uHash : HashValue := zeroHash
  uTxSeq : Nat := 0
  uTxHash : HashValue := zeroHash
  aWholeData : List (TableData τ) := []
  aBlockData : List (TableData τ) := []
  aWaitCheckData : List (TableData τ) := []
  eState : TableSyncState := .init
  lState : LedgerSyncState := .noLedger
  bGetLocalData : Bool := false

variable {τ : Type}

/-- The loop of `PushDataByOrder`: the data is put before the first one with a smaller sequence, and
dropped if there is none. -/
def insertByOrder (data : TableData τ) : List (TableData τ) → List (TableData τ)
  | [] => []
  | it :: rest =>
    if data.ledgerSeq = it.ledgerSeq then it :: rest
    else if data.ledgerSeq > it.ledgerSeq then data :: it :: rest
    else it :: insertByOrder data rest

def pushDataByOrder (aData : List (TableData τ)) (data : TableData τ) : List (TableData τ) :=
  match aData.getLast? with
  | none => [data]
  | some last =>
    if data.ledgerSeq > last.ledgerSeq then aData ++ [data]
    else if aData.length = 1 then data :: aData
    else insertByOrder data aData

namespace TableSyncItem

def setSyncLedger (item : TableSyncItem τ) (seq : Nat) (hash : HashValue) : TableSyncItem τ :=
  { item with u32SeqLedger := seq, uHash := hash }

def setSyncTxLedger (item : TableSyncItem τ) (seq : Nat) (hash : HashValue) : TableSyncItem τ :=
  { item with uTxSeq := seq, uTxHash := hash }

/-- The data is appended and the cursors moved, in `PushDataToWholeDataQueue` and in the loop of
`TransBlock2Whole` alike. -/
def append (item : TableSyncItem τ) (data : TableData τ) : TableSyncItem τ :=
  let item := { item with aWholeData := item.aWholeData ++ [data] }.setSyncLedger data.ledgerSeq data.ledgerHash
  if data.txNodes.length > 0 then item.setSyncTxLedger data.ledgerSeq data.ledgerCheckHash else item

def pushDataToWholeDataQueue (item : TableSyncItem τ) (data : TableData τ) : TableSyncItem τ :=
  let item := item.append data
  if data.seekStop && !item.bGetLocalData then { item with eState := .blockStop } else item

def pushDataToBlockDataQueue (item : TableSyncItem τ) (data : TableData τ) : TableSyncItem τ :=
  { item with aBlockData := pushDataByOrder item.aBlockData data }

def pushDataToWaitCheckQueue (item : TableSyncItem τ) (data : TableData τ) : TableSyncItem τ :=
  { item with aWaitCheckData := pushDataByOrder item.aWaitCheckData data }

/-- The loop of `TransBlock2Whole` over the parked data. Only the sequence is compared. -/
def drain (iBegin : Nat) (bHasStop : Bool) : List (TableData τ) → TableSyncItem τ → TableSyncItem τ × Bool
  | [], item => ({ item with aBlockData := [] }, bHasStop)
  | it :: rest, item =>
    if iBegin = it.lastLedgerSeq then drain it.ledgerSeq it.seekStop rest (item.append it)
    else ({ item with aBlockData := it :: rest }, bHasStop)

def transBlock2Whole (item : TableSyncItem τ) (seq : Nat) : TableSyncItem τ :=
  let (item, bHasStop) := drain seq false item.aBlockData item
  let bStop := item.aBlockData.isEmpty && bHasStop
  if bStop && !item.bGetLocalData then { item with eState := .blockStop } else item

def sendData (item : TableSyncItem τ) (data : TableData τ) : TableSyncItem τ :=
  if data.txNodes.length > 0 then
    if data.lastLedgerSeq = item.uTxSeq ∧ data.lastLedgerHash = item.uTxHash then
      let item := item.pushDataToWholeDataQueue data
      if data.seekStop then item else item.transBlock2Whole data.ledgerSeq
    else item.pushDataToBlockDataQueue data
  else if data.lastLedgerSeq = item.u32SeqLedger ∧ data.lastLedgerHash = item.uHash then
    item.pushDataToWholeDataQueue data
  else item.pushDataToBlockDataQueue data

/-- `candidate` is the ledger that ends the block of 256 of the data, and `requested` whether a request
for it could be sent. -/
def gotSyncReply (item : TableSyncItem τ) (data : TableData τ) (localHash : HashValue) (candidate : Nat)
    (requested : Bool) : TableSyncItem τ :=
  if data.ledgerSeq ≤ item.u32SeqLedger then item
  else
    let item := { item with eState := .waitData }
    if localHash = zeroHash then
      let item := item.pushDataToWaitCheckQueue data
      if item.lState ≠ .waitLedger ∧ requested = true then { item with lState := .waitLedger } else item
    else if data.ledgerHash ≠ localHash then item
    else
      let item :=
        if item.lState ≠ .waitLedger ∧ data.ledgerSeq = candidate then { item with lState := .gotLedger } else item
      item.sendData data

/-- What `TableSyncThread` does with the data that waits, once the ledger it waits for is there. -/
def dealWithWaitCheckQueue (item : TableSyncItem τ) (getLocalHash : Nat → HashValue) : TableSyncItem τ :=
  if item.lState = .waitLedger then
    let item := { item with lState := .gotLedger }
    let checked := item.aWaitCheckData.foldl
      (fun item data => if getLocalHash data.ledgerSeq = data.ledgerHash then item.sendData data else item) item
    { checked with aWaitCheckData := [] }
  else item

inductive Event (τ : Type)
  | reply (data : TableData τ) (localHash : HashValue) (candidate : Nat) (requested : Bool)
  | checkQueue (getLocalHash : Nat → HashValue)
  -- `SeekTableTxLedger` reads the node's own ledgers.
  | localData (data : TableData τ)
  | setIsDataFromLocal (bLocal : Bool)

def handle (item : TableSyncItem τ) : Event τ → TableSyncItem τ
  | .reply data localHash candidate requested => item.gotSyncReply data localHash candidate requested
  | .checkQueue getLocalHash => item.dealWithWaitCheckQueue getLocalHash
  | .localData data => item.sendData data
  | .setIsDataFromLocal bLocal => { item with bGetLocalData := bLocal }

end TableSyncItem

/-! ## Honest messages -/

structure Chain (τ : Type) where
  hash : Nat → HashValue
  checkHash : Nat → HashValue
  txs : Nat → List τ

namespace Chain

variable (chain : Chain τ)

def Quiet (low high : Nat) : Prop := ∀ seq, low < seq → seq ≤ high → chain.txs seq = []

/-- `prev` is the last ledger with transactions up to `seq`, or 0 if there is none. -/
structure LastTx (prev seq : Nat) : Prop where
  le : prev ≤ seq
  bearing : chain.txs prev ≠ [] ∨ prev = 0
  quiet : chain.Quiet prev seq

/-- What a peer with this chain sends. Data with transactions names the preceding ledger with
transactions, and data without covers the ledgers after the one it names. -/
structure Honest (data : TableData τ) : Prop where
  ledgerHash : data.ledgerHash = chain.hash data.ledgerSeq
  txNodes : data.txNodes ≠ [] → data.txNodes = chain.txs data.ledgerSeq
    ∧ data.ledgerCheckHash = chain.checkHash data.ledgerSeq
    ∧ 0 < data.ledgerSeq ∧ chain.LastTx data.lastLedgerSeq (data.ledgerSeq - 1)
    ∧ data.lastLedgerHash = chain.checkHash data.lastLedgerSeq
  seekEnd : data.txNodes = [] → data.lastLedgerSeq ≤ data.ledgerSeq
    ∧ chain.Quiet data.lastLedgerSeq data.ledgerSeq ∧ data.lastLedgerHash = chain.hash data.lastLedgerSeq

def HonestEvent : TableSyncItem.Event τ → Prop
  | .reply data _ _ _ => chain.Honest data
  | .localData data => chain.Honest data
  | _ => True

end Chain

/-- The sequence grows, but data without transactions that names its own ledger may repeat it. -/
def Later (a b : TableData τ) : Prop :=
  a.ledgerSeq < b.ledgerSeq ∨ (a.ledgerSeq = b.ledgerSeq ∧ b.txNodes = [] ∧ b.lastLedgerSeq = b.ledgerSeq)

/-- An item that has started after ledger `start` and has reported everything up to its cursor. -/
structure Sound (chain : Chain τ) (start : Nat) (item : TableSyncItem τ) : Prop where
  start_le : start ≤ item.u32SeqLedger
  lastTx : chain.LastTx item.uTxSeq item.u32SeqLedger
  whole : ∀ data ∈ item.aWholeData, chain.Honest data ∧ data.ledgerSeq ≤ item.u32SeqLedger
  ordered : item.aWholeData.Pairwise Later
  complete : ∀ seq, start < seq → seq ≤ item.u32SeqLedger → chain.txs seq ≠ [] →
    ∃ data ∈ item.aWholeData, data.ledgerSeq = seq ∧ data.txNodes = chain.txs seq
  parked : ∀ data ∈ item.aBlockData, chain.Honest data
  waiting : ∀ data ∈ item.aWaitCheckData, chain.Honest data

section

variable {chain : Chain τ} {start : Nat} {item : TableSyncItem τ} {data : TableData τ}

variable {l : List (TableData τ)} {x : TableData τ}

theorem mem_insertByOrder (h : x ∈ insertByOrder data l) : x = data ∨ x ∈ l := by
  induction l with
  | nil => cases h
  | cons it rest ih =>
    rw [insertByOrder] at h
    split at h
    · exact .inr h
    · split at h
      · exact List.mem_cons.mp h
      · rcases List.mem_cons.mp h with rfl | h
        · exact .inr List.mem_cons_self
        · exact (ih h).imp_right (List.mem_cons_of_mem it)

theorem mem_pushDataByOrder (h : x ∈ pushDataByOrder l data) : x = data ∨ x ∈ l := by
  unfold pushDataByOrder at h
  split at h
  · exact .inl (List.mem_singleton.mp h)
  · split at h
    · rcases List.mem_append.mp h with h | h
      · exact .inr h
      · exact .inl (List.mem_singleton.mp h)
    · split at h
      · exact List.mem_cons.mp h
      · exact mem_insertByOrder h

theorem u32SeqLedger_append : (item.append data).u32SeqLedger = data.ledgerSeq := by
  unfold TableSyncItem.append
  split <;> rfl

theorem u32SeqLedger_pushDataToWholeDataQueue :
    (item.pushDataToWholeDataQueue data).u32SeqLedger = data.ledgerSeq := by
  unfold TableSyncItem.pushDataToWholeDataQueue
  dsimp only
  split
  · exact u32SeqLedger_append
  · exact u32SeqLedger_append

namespace Sound

variable (h : Sound chain start item)
include h

theorem extend (hdata : chain.Honest data) {txSeq : Nat} (hle : item.u32SeqLedger ≤ data.ledgerSeq)
    (hlater : ∀ a ∈ item.aWholeData, Later a data) (hlast : chain.LastTx txSeq data.ledgerSeq)
    (hcovers : ∀ seq, item.u32SeqLedger < seq → seq ≤ data.ledgerSeq → chain.txs seq ≠ [] → data.ledgerSeq = seq ∧
      data.txNodes = chain.txs seq) (uHash uTxHash : HashValue) :
    Sound chain start { item with
      aWholeData := item.aWholeData ++ [data]
      u32SeqLedger := data.ledgerSeq
      uHash := uHash
      uTxSeq := txSeq
      uTxHash := uTxHash } := by
  refine ⟨h.start_le.trans hle, hlast, ?whole, ?ordered, ?complete, h.parked, h.waiting⟩
  case whole =>
    intro d hd
    rcases List.mem_append.mp hd with hd | hd
    · exact ⟨(h.whole d hd).1, (h.whole d hd).2.trans hle⟩
    · rw [List.mem_singleton.mp hd]
      exact ⟨hdata, le_refl _⟩
  case ordered =>
    refine List.pairwise_append.mpr ⟨h.ordered, List.pairwise_singleton _ _, fun a ha b hb => ?_⟩
    rw [List.mem_singleton.mp hb]
    exact hlater a ha
  case complete =>
    intro seq hlow hhigh hne
    by_cases hseq : seq ≤ item.u32SeqLedger
    · obtain ⟨d, hd, hfound⟩ := h.complete seq hlow hseq hne
      exact ⟨d, List.mem_append_left _ hd, hfound⟩
    · exact ⟨data, List.mem_append_right _ (List.mem_singleton_self _), hcovers seq (not_le.mp hseq) hhigh hne⟩

theorem append_txs (hdata : chain.Honest data) (htxs : data.txNodes ≠ []) (hlast : data.lastLedgerSeq = item.uTxSeq) :
    Sound chain start (item.append data) := by
  obtain ⟨hnodes, -, hpos, hprev, -⟩ := hdata.txNodes htxs
  have hbearing : chain.txs data.ledgerSeq ≠ [] := hnodes ▸ htxs
  have hprevle := hprev.le
  -- A ledger with transactions behind the cursor would have been the last one.
  have hlt : item.u32SeqLedger < data.ledgerSeq := by
    by_contra hle
    exact hbearing (h.lastTx.quiet _ (by omega) (not_lt.mp hle))
  have happend : item.append data = { item with
      aWholeData := item.aWholeData ++ [data]
      u32SeqLedger := data.ledgerSeq
      uHash := data.ledgerHash
      uTxSeq := data.ledgerSeq
      uTxHash := data.ledgerCheckHash } := by
    unfold TableSyncItem.append
    rw [if_pos (List.length_pos_of_ne_nil htxs)]
    rfl
  rw [happend]
  refine h.extend hdata (le_of_lt hlt) (fun a ha => .inl (lt_of_le_of_lt (h.whole a ha).2 hlt)) ?_ ?_ _ _
  · exact ⟨le_refl _, .inl hbearing, fun seq hlow hhigh => absurd hhigh (not_le.mpr hlow)⟩
  · intro seq hlow hhigh hne
    have hseq : data.ledgerSeq = seq := by
      by_contra hother
      have hle := h.lastTx.le
      exact hne (hprev.quiet seq (by omega) (by omega))
    exact ⟨hseq, hseq ▸ hnodes⟩

theorem append_seekEnd (hdata : chain.Honest data) (htxs : data.txNodes = [])
    (hlast : data.lastLedgerSeq = item.u32SeqLedger) : Sound chain start (item.append data) := by
  obtain ⟨hle, hquiet, -⟩ := hdata.seekEnd htxs
  rw [hlast] at hle hquiet
  have happend : item.append data = { item with
      aWholeData := item.aWholeData ++ [data]
      u32SeqLedger := data.ledgerSeq
      uHash := data.ledgerHash } := by
    unfold TableSyncItem.append
    rw [if_neg (by rw [htxs]; exact Nat.lt_irrefl 0)]
    rfl
  rw [happend]
  refine h.extend hdata hle (fun a ha => ?_) ⟨h.lastTx.le.trans hle, h.lastTx.bearing, ?_⟩ ?_ _ _
  · have hseq := (h.whole a ha).2
    rcases lt_or_eq_of_le (hseq.trans hle) with hlt | heq
    · exact .inl hlt
    · exact .inr ⟨heq, htxs, by omega⟩
  · intro seq hlow hhigh
    by_cases hseq : seq ≤ item.u32SeqLedger
    · exact h.lastTx.quiet seq hlow hseq
    · exact hquiet seq (not_le.mp hseq) hhigh
  · intro seq hlow hhigh hne
    exact absurd (hquiet seq hlow hhigh) hne

/-- Parked data that names the last ledger can be appended: if it has transactions, so has the ledger it
names, which is then the last one with transactions. -/
theorem append_parked (hdata : chain.Honest data) (hlast : data.lastLedgerSeq = item.u32SeqLedger) :
    Sound chain start (item.append data) := by
  by_cases htxs : data.txNodes = []
  · exact h.append_seekEnd hdata htxs hlast
  · obtain ⟨-, -, -, hprev, -⟩ := hdata.txNodes htxs
    refine h.append_txs hdata htxs ?_
    rw [hlast] at hprev ⊢
    have hle := h.lastTx.le
    rcases hprev.bearing with hbearing | hzero
    · by_contra hne
      exact hbearing (h.lastTx.quiet _ (by omega) (le_refl _))
    · omega

theorem withBlockData (hl : ∀ d ∈ l, chain.Honest d) : Sound chain start { item with aBlockData := l } :=
  ⟨h.start_le, h.lastTx, h.whole, h.ordered, h.complete, hl, h.waiting⟩

theorem withState (eState : TableSyncState) : Sound chain start { item with eState := eState } :=
  ⟨h.start_le, h.lastTx, h.whole, h.ordered, h.complete, h.parked, h.waiting⟩

theorem withLedgerState (lState : LedgerSyncState) : Sound chain start { item with lState := lState } :=
  ⟨h.start_le, h.lastTx, h.whole, h.ordered, h.complete, h.parked, h.waiting⟩

theorem drain (hl : ∀ d ∈ l, chain.Honest d) {iBegin : Nat} (hbegin : iBegin = item.u32SeqLedger) (bHasStop : Bool) :
    Sound chain start (TableSyncItem.drain iBegin bHasStop l item).1 := by
  induction l generalizing item iBegin bHasStop with
  | nil => exact h.withBlockData (fun d hd => absurd hd List.not_mem_nil)
  | cons it rest ih =>
    rw [TableSyncItem.drain]
    have hit := hl it List.mem_cons_self
    split
    next heq =>
      exact ih (h.append_parked hit (heq.symm.trans hbegin)) (fun d hd => hl d (List.mem_cons_of_mem _ hd))
        u32SeqLedger_append.symm _
    next => exact h.withBlockData hl

omit h in
/-- The state that is set for data that ends a stretch is of no consequence. -/
theorem pushDataToWholeDataQueue (h : Sound chain start (item.append data)) :
    Sound chain start (item.pushDataToWholeDataQueue data) := by
  unfold TableSyncItem.pushDataToWholeDataQueue
  dsimp only
  split
  · exact h.withState _
  · exact h

theorem pushDataToBlockDataQueue (hdata : chain.Honest data) :
    Sound chain start (item.pushDataToBlockDataQueue data) := by
  refine h.withBlockData fun d hd => ?_
  rcases mem_pushDataByOrder hd with rfl | hd
  · exact hdata
  · exact h.parked d hd

theorem transBlock2Whole {seq : Nat} (hseq : seq = item.u32SeqLedger) :
    Sound chain start (item.transBlock2Whole seq) := by
  have hdrain := h.drain h.parked hseq false
  unfold TableSyncItem.transBlock2Whole
  dsimp only at hdrain ⊢
  split
  · exact hdrain.withState _
  · exact hdrain

theorem sendData (hdata : chain.Honest data) : Sound chain start (item.sendData data) := by
  unfold TableSyncItem.sendData
  split
  next htxs =>
    split
    next hcur =>
      have hwhole := (h.append_txs hdata (List.ne_nil_of_length_pos htxs) hcur.1).pushDataToWholeDataQueue
      split
      · exact hwhole
      · exact hwhole.transBlock2Whole u32SeqLedger_pushDataToWholeDataQueue.symm
    next => exact h.pushDataToBlockDataQueue hdata
  next htxs =>
    split
    next hcur =>
      have hnil : data.txNodes = [] := List.eq_nil_of_length_eq_zero (Nat.le_zero.mp (not_lt.mp htxs))
      exact (h.append_seekEnd hdata hnil hcur.1).pushDataToWholeDataQueue
    next => exact h.pushDataToBlockDataQueue hdata

theorem withWaitCheckData (hl : ∀ d ∈ l, chain.Honest d) : Sound chain start { item with aWaitCheckData := l } :=
  ⟨h.start_le, h.lastTx, h.whole, h.ordered, h.complete, h.parked, hl⟩

theorem gotSyncReply (hdata : chain.Honest data) (localHash : HashValue) (candidate : Nat) (requested : Bool) :
    Sound chain start (item.gotSyncReply data localHash candidate requested) := by
  unfold TableSyncItem.gotSyncReply
  split
  · exact h
  · have hstate := h.withState .waitData
    dsimp only
    split
    · have hwait : Sound chain start
          (TableSyncItem.pushDataToWaitCheckQueue { item with eState := .waitData } data) := by
        refine hstate.withWaitCheckData fun d hd => ?_
        rcases mem_pushDataByOrder hd with rfl | hd
        · exact hdata
        · exact h.waiting d hd
      split
      · exact hwait.withLedgerState _
      · exact hwait
    · split
      · exact hstate
      · split
        · exact (hstate.withLedgerState _).sendData hdata
        · exact hstate.sendData hdata

theorem dealWithWaitCheckQueue (getLocalHash : Nat → HashValue) :
    Sound chain start (item.dealWithWaitCheckQueue getLocalHash) := by
  unfold TableSyncItem.dealWithWaitCheckQueue
  split
  · have hwaiting := h.waiting
    have hgot := h.withLedgerState .gotLedger
    refine Sound.withWaitCheckData ?_ (fun d hd => absurd hd List.not_mem_nil)
    refine List.foldlRecOn item.aWaitCheckData _ hgot fun item hitem d hd => ?_
    split
    · exact hitem.sendData (hwaiting d hd)
    · exact hitem
  · exact h

theorem handle {event : TableSyncItem.Event τ} (hevent : chain.HonestEvent event) :
    Sound chain start (item.handle event) := by
  cases event with
  | reply data localHash candidate requested => exact h.gotSyncReply hevent localHash candidate requested
  | checkQueue getLocalHash => exact h.dealWithWaitCheckQueue getLocalHash
  | localData data => exact h.sendData hevent
  | setIsDataFromLocal bLocal =>
    exact ⟨h.start_le, h.lastTx, h.whole, h.ordered, h.complete, h.parked, h.waiting⟩

end Sound

end

def TableSyncItem.startAt (chain : Chain τ) (seq prev : Nat) : TableSyncItem τ :=
  { u32SeqLedger := seq, uHash := chain.hash seq, uTxSeq := prev, uTxHash := chain.checkHash prev }

/-- Whatever the order in which honest data arrives, is delayed, repeated or lost, the ledgers appended
are in order, and no ledger with transactions between the start and the last one appended is missing. -/
theorem no_gaps (chain : Chain τ) (start prev : Nat) (hprev : chain.LastTx prev start)
    (events : List (TableSyncItem.Event τ)) (hevents : ∀ event ∈ events, chain.HonestEvent event) :
    let item := Run.final TableSyncItem.handle (.startAt chain start prev) events
    item.aWholeData.Pairwise Later
    ∧ ∀ data ∈ item.aWholeData, ∀ seq, start < seq → seq ≤ data.ledgerSeq → chain.txs seq ≠ [] →
        ∃ found ∈ item.aWholeData, found.ledgerSeq = seq ∧ found.txNodes = chain.txs seq := by
  intro item
  have hsound : Sound chain start item := by
    have hinit : Sound chain start (TableSyncItem.startAt chain start prev) := by
      refine ⟨le_refl _, hprev, fun d hd => absurd hd List.not_mem_nil, List.Pairwise.nil, ?_,
        fun d hd => absurd hd List.not_mem_nil, fun d hd => absurd hd List.not_mem_nil⟩
      intro seq hlow hhigh
      exact absurd hhigh (not_le.mpr hlow)
    exact List.foldlRecOn events _ hinit fun item h event hevent => h.handle (hevents event hevent)
  refine ⟨hsound.ordered, fun data hdata seq hlow hhigh hne => ?_⟩
  exact hsound.complete seq hlow (hhigh.trans (hsound.whole data hdata).2) hne

def demoChain : Chain Nat where
  hash := fun seq => 1000 + seq
  checkHash := fun seq => 2000 + seq
  txs := fun seq => if seq = 3 then [31, 32] else if seq = 256 then [33] else []

def dataOf (seq last : Nat) : TableData Nat :=
  { ledgerSeq := seq, ledgerHash := 1000 + seq, ledgerCheckHash := 2000 + seq, lastLedgerSeq := last
    lastLedgerHash := 2000 + last, txNodes := demoChain.txs seq, seekStop := false }

def seekEndOf (seq last : Nat) : TableData Nat :=
  { ledgerSeq := seq, ledgerHash := 1000 + seq, ledgerCheckHash := 0, lastLedgerSeq := last
    lastLedgerHash := 1000 + last, txNodes := [], seekStop := true }

theorem demoChain_quiet {low high : Nat} (h : 3 ≤ low ∧ high < 256 ∨ high < 3 ∨ 256 ≤ low) :
    demoChain.Quiet low high := by
  intro seq hlow hhigh
  show (if seq = 3 then [31, 32] else if seq = 256 then [33] else []) = []
  rw [if_neg (by omega), if_neg (by omega)]

theorem demoChain_honest :
    demoChain.Honest (dataOf 3 0) ∧ demoChain.Honest (dataOf 256 3) ∧ demoChain.Honest (seekEndOf 256 256) := by
  refine ⟨⟨rfl, fun _ => ?_, fun h => by cases h⟩, ⟨rfl, fun _ => ?_, fun h => by cases h⟩,
    ⟨rfl, fun h => absurd rfl h, fun _ => ?_⟩⟩
  · exact ⟨rfl, rfl, by decide, ⟨by decide, .inr rfl, demoChain_quiet (by decide)⟩, rfl⟩
  · exact ⟨rfl, rfl, by decide, ⟨by decide, .inl (by decide), demoChain_quiet (by decide)⟩, rfl⟩
  · exact ⟨le_refl _, demoChain_quiet (by decide), rfl⟩

theorem no_gaps_demoChain :
    let item := Run.final TableSyncItem.handle (.startAt demoChain 0 0)
      [.reply (dataOf 256 3) 1256 256 false, .reply (dataOf 3 0) 1003 256 false]
    item.aWholeData.map TableData.ledgerSeq = [3, 256] ∧ item.aWholeData.Pairwise Later := by
  refine ⟨by decide, (no_gaps demoChain 0 0 ⟨le_refl _, .inr rfl, demoChain_quiet (by decide)⟩ _ ?_).1⟩
  intro event hevent
  simp only [List.mem_cons, List.not_mem_nil, or_false] at hevent
  rcases hevent with rfl | rfl
  · exact demoChain_honest.2.1
  · exact demoChain_honest.1

/-- The ledger that ends a block of 256 has transactions: the data that ends the block is appended with
the sequence of the ledger before it. -/
theorem sequence_repeated :
    let data := [dataOf 3 0, dataOf 256 3, seekEndOf 256 256]
    (∀ d ∈ data, demoChain.Honest d)
    ∧ (Run.final TableSyncItem.handle (.startAt demoChain 0 0)
        (data.map TableSyncItem.Event.localData)).aWholeData.map TableData.ledgerSeq = [3, 256, 256] := by
  refine ⟨?_, by decide⟩
  intro d hd
  simp only [List.mem_cons, List.not_mem_nil, or_false] at hd
  rcases hd with rfl | rfl | rfl
  · exact demoChain_honest.1
  · exact demoChain_honest.2.1
  · exact demoChain_honest.2.2

/-! ## Parked data -/

/-- The list is in strict order, with one entry for each sequence that was pushed. -/
def Parked (pushed l : List (TableData τ)) : Prop :=
  l.Pairwise (fun a b => a.ledgerSeq < b.ledgerSeq)
    ∧ ∀ seq, seq ∈ l.map TableData.ledgerSeq ↔ seq ∈ pushed.map TableData.ledgerSeq

/-- The data comes after all that is parked, before a single one, or repeats the first one of several. -/
def Parkable (aData : List (TableData τ)) (data : TableData τ) : Prop :=
  match aData with
  | [] => True
  | [it] => data.ledgerSeq ≠ it.ledgerSeq
  | it :: _ => data.ledgerSeq = it.ledgerSeq ∨ ∀ other ∈ aData, other.ledgerSeq < data.ledgerSeq

variable {pushed l : List (TableData τ)} {data : TableData τ}

theorem insertByOrder_of_lt (h : ∀ it ∈ l, data.ledgerSeq < it.ledgerSeq) : insertByOrder data l = l := by
  induction l with
  | nil => rfl
  | cons it rest ih =>
    have hit := h it (by simp)
    rw [insertByOrder, if_neg (by omega), if_neg (by omega), ih fun it hit => h it (by simp [hit])]

theorem Parked.push_iff (h : Parked pushed l) :
    Parked (pushed ++ [data]) (pushDataByOrder l data) ↔ Parkable l data := by
  obtain ⟨hsorted, hmem⟩ := h
  simp only [Parked, List.map_append, List.mem_append, ← hmem, List.map_cons, List.map_nil, List.mem_singleton]
  rcases l with _ | ⟨a, _ | ⟨b, rest⟩⟩
  · simp [pushDataByOrder, Parkable]
  · by_cases hlt : a.ledgerSeq < data.ledgerSeq
    · simp [pushDataByOrder, Parkable, hlt, hlt.ne']
    · simp [pushDataByOrder, Parkable, hlt]
      grind
  · obtain ⟨init, last, hl⟩ := (List.eq_nil_or_concat' (a :: b :: rest)).resolve_left (by simp)
    have hle : ∀ it ∈ a :: b :: rest, it.ledgerSeq ≤ last.ledgerSeq := by
      rw [hl, List.pairwise_append] at hsorted
      intro it hit
      rw [hl, List.mem_append, List.mem_singleton] at hit
      rcases hit with hit | rfl
      · exact (hsorted.2.2 it hit last (by simp)).le
      · exact le_rfl
    have hlast : (a :: b :: rest).getLast? = some last := by rw [hl, List.getLast?_concat]
    have hpush : pushDataByOrder (a :: b :: rest) data =
        if last.ledgerSeq < data.ledgerSeq then a :: b :: rest ++ [data] else insertByOrder data (a :: b :: rest) := by
      simp [pushDataByOrder, hlast]
    have hfirst : ∀ it ∈ b :: rest, a.ledgerSeq < it.ledgerSeq := (List.pairwise_cons.mp hsorted).1
    rw [hpush]
    by_cases hlt : last.ledgerSeq < data.ledgerSeq
    · rw [if_pos hlt, List.pairwise_append]
      simp only [Parkable]
      grind
    rw [if_neg hlt]
    -- The scan stops at the first entry, unless that has a larger sequence, and then all have.
    rcases lt_trichotomy data.ledgerSeq a.ledgerSeq with hd | hd | hd
    · have hall : ∀ it ∈ a :: b :: rest, data.ledgerSeq < it.ledgerSeq := by grind
      rw [insertByOrder_of_lt hall]
      refine iff_of_false (fun hf => ?_) (by simp only [Parkable]; grind)
      obtain ⟨it, hit, heq⟩ := List.mem_map.mp ((hf.2 data.ledgerSeq).mpr (.inr rfl))
      exact (hall it hit).ne' heq
    · simp only [insertByOrder, Parkable, hd]
      grind
    · simp only [insertByOrder, Parkable]
      grind

/-- Whatever is pushed, the parked data is in order and complete exactly as long as each data is parkable
when it is pushed. -/
theorem parked_iff (datas : List (TableData τ)) :
    (∀ pushed, pushed <+: datas → Parked pushed (Run.final pushDataByOrder [] pushed))
      ↔ Run.Along pushDataByOrder Parkable [] datas :=
  Run.forall_prefix_iff Parked (by simp [Parked]) fun _ _ h => h.push_iff

/-- Data between two that are parked is put before them, data before two of them is dropped, and a
single one is repeated. -/
theorem parked_out_of_order :
    (Run.final pushDataByOrder [] [seekEndOf 1 0, seekEndOf 5 1, seekEndOf 3 1]).map TableData.ledgerSeq = [3, 1, 5]
      ∧ (Run.final pushDataByOrder [] [seekEndOf 3 1, seekEndOf 5 3, seekEndOf 1 0]).map TableData.ledgerSeq = [3, 5]
      ∧ (Run.final pushDataByOrder [] [seekEndOf 5 1, seekEndOf 5 1]).map TableData.ledgerSeq = [5, 5] := by
  decide

end Chainsql.TableSync
