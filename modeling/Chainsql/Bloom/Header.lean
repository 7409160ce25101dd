import Chainsql.Bloom.Bloom
import Chainsql.Tx.Apply
import Chainsql.Lib.Run

/-!
# The bloom filter of a ledger

While a ledger is built, `BloomHelper` collects the logs of successful transactions, each list with the
address of the transaction's contract. The filter in the header is made of these. A query reads the logs
back from the metadata of the transactions, with the account that emitted each log.
-/

namespace Chainsql.Bloom

open Evm (Crash TER tesSUCCESS AccountID Word LogEntry Bytes)
open Tx

def addressBytes (a : AccountID) : Bytes := (Word.ofAddress a).toBytes.drop 12

variable {σ : Type} (hash : Hash)

abbrev VecLogs := List (AccountID × List LogEntry)

def calcBloom (vecLogs : VecLogs) : UInt2048 :=
  vecLogs.foldl (fun bloom jvLog =>
    jvLog.2.foldl (fun bloom log =>
      log.topics.foldl (fun bloom topic => add hash bloom topic.toBytes) (add hash bloom (addressBytes jvLog.1)))
      bloom) fun _ => 0#8

def added (vecLogs : VecLogs) : List Bytes :=
  vecLogs.flatMap fun jvLog => jvLog.2.flatMap fun log => addressBytes jvLog.1 :: log.topics.map Word.toBytes

theorem calcBloom_eq (vecLogs : VecLogs) : calcBloom hash vecLogs = ofList hash (added vecLogs) := by
  simp only [calcBloom, ofList, added, List.foldl_flatMap, List.foldl_cons, List.foldl_map]

/-- The logs that `Helper::getLogsByLedger` reports, for the transactions that can be fetched. Only those of
contracts have any in their metadata. -/
def getLogsByLedger (fetch : Word → Bool) (view : OpenView σ) : List LogEntry :=
  view.txs.entries.flatMap fun item => if fetch item.1 then item.2.elim [] TxMeta.contractLogData else []

/-- A call of `applyTransaction` in the course of a build. -/
structure Application (σ : Type) where
  checks : Checks σ
  caller : Caller
  tx : STTx

structure Build (σ : Type) where
  view : OpenView σ
  vecLogs : VecLogs

variable [DecidableEq σ]

/-- Whether a build makes several passes or replays a ledger, it applies one transaction after another. -/
def Build.apply (b : Build σ) (a : Application σ) : Except Crash (Build σ) := do
  let (_, effect) ← applyTransaction a.checks a.caller a.tx b.view b.vecLogs
  return ⟨effect.view, effect.bloomLogs⟩

/-- `clearLogCache`, on a view without transactions. -/
def Build.start (base : OpenView σ) : Build σ := ⟨{ base with txs := ∅ }, []⟩

/-- A contract transaction that has logged anything succeeds, and only its own contract has logged. -/
def OwnLogs (b : Build σ) (a : Application σ) : Prop :=
  ∀ result effect, applyTransaction a.checks a.caller a.tx b.view b.vecLogs = .ok (result, effect) →
    effect.isApplied = true → ∀ data, effect.view.txs.lookup a.tx.id = some (some data) →
      data.contractLogData ≠ [] →
        effect.result = tesSUCCESS ∧ ∀ log ∈ data.contractLogData, a.tx.contractAddress = some log.account

/-- Every log in the metadata has been collected with the account that emitted it. -/
def Covered (b : Build σ) : Prop :=
  ∀ id data, b.view.txs.lookup id = some (some data) → ∀ log ∈ data.contractLogData,
    ∃ logs, (log.account, logs) ∈ b.vecLogs ∧ log ∈ logs

variable {a : Application σ} {b : Build σ}

/-- What a committed transaction leaves: metadata with its logs, which were collected if it succeeded. -/
theorem applyTransaction_cases {result : ApplyResult} {effect : Effect σ}
    (h : applyTransaction a.checks a.caller a.tx b.view b.vecLogs = .ok (result, effect)) :
    effect.view = b.view ∧ effect.bloomLogs = b.vecLogs ∨
      effect.isApplied = true ∧ ∃ logs,
        effect.view.txs = b.view.txs.insert a.tx.id (if b.view.isOpen then none else
          some ⟨effect.result, if isContract a.tx then logs else []⟩) ∧
        (effect.bloomLogs = b.vecLogs ∧
            ¬(effect.result = tesSUCCESS ∧ a.checks.featureBloomFilter = true ∧ logs ≠ []) ∨
          effect.result = tesSUCCESS ∧
            ∃ address, a.tx.contractAddress = some address ∧ effect.bloomLogs = b.vecLogs ++ [(address, logs)]) := by
  obtain ⟨pcresult, -, happly⟩ := applyTransaction_eq_ok h
  rcases doApply_eq_ok happly with ⟨-, rfl⟩ | hrun
  · exact .inl ⟨rfl, rfl⟩
  · rcases run_eq_ok hrun with ⟨-, rfl⟩ | ⟨_, _, logs, _, _, _, _, _, _, _, hcommit⟩
    · exact .inl ⟨rfl, rfl⟩
    · obtain ⟨-, hresult, happlied, hview, hbloom⟩ := commit_eq_ok hcommit
      rw [← hresult] at hview hbloom
      exact .inr ⟨happlied, logs, congrArg OpenView.txs (ApplyView.apply_frame hview).2, hbloom⟩

omit [DecidableEq σ] in
theorem mem_getLogsByLedger {fetch : Word → Bool} {view : OpenView σ} {log : LogEntry}
    (h : log ∈ getLogsByLedger fetch view) :
    ∃ id data, view.txs.lookup id = some (some data) ∧ log ∈ data.contractLogData := by
  obtain ⟨⟨id, item⟩, hitem, hlog⟩ := List.mem_flatMap.mp h
  split at hlog
  · cases item with
    | none => cases hlog
    | some data => exact ⟨id, data, AList.mem_lookup_iff.mpr hitem, hlog⟩
  · cases hlog

theorem Build.apply_covered {b' : Build σ} (hinv : Covered b) (henabled : a.checks.featureBloomFilter = true)
    (hown : OwnLogs b a) (h : b.apply a = .ok b') : Covered b' := by
  obtain ⟨⟨result, effect⟩, happly, h⟩ := Except.bind_eq_ok.mp h
  cases h
  intro id data hdata log hlog
  rcases applyTransaction_cases happly with ⟨hview, hlogs⟩ | ⟨happlied, logs, htxs, hlogs⟩
  · simp only [hview] at hdata
    simp only [hlogs]
    exact hinv id data hdata log hlog
  · by_cases hid : id = a.tx.id
    · subst hid
      obtain ⟨hsuccess, haccounts⟩ := hown result effect happly happlied data hdata (List.ne_nil_of_mem hlog)
      have haccount := haccounts log hlog
      simp only [htxs, AList.lookup_insert] at hdata
      split at hdata
      · cases hdata
      · cases hdata
        split at hlog
        · rcases hlogs with ⟨-, hnot⟩ | ⟨-, address, haddress, hlogs⟩
          · exact absurd ⟨hsuccess, henabled, List.ne_nil_of_mem hlog⟩ hnot
          · rw [haddress] at haccount
            cases haccount
            exact ⟨logs, by simp [hlogs], hlog⟩
        · cases hlog
    · simp only [htxs, AList.lookup_insert_ne hid] at hdata
      obtain ⟨logs', hmem, hin⟩ := hinv id data hdata log hlog
      refine ⟨logs', ?_, hin⟩
      rcases hlogs with ⟨hlogs, -⟩ | ⟨-, address, -, hlogs⟩
      · simpa only [hlogs] using hmem
      · simp only [hlogs]
        exact List.mem_append_left _ hmem

/-- In a build with bloom filters all of whose transactions meet the condition, the filter of the header
matches the address and the topics of every log that is reported. -/
theorem header_covers_logs {apps : List (Application σ)} {base : OpenView σ} {b : Build σ}
    (henabled : ∀ a ∈ apps, a.checks.featureBloomFilter = true)
    (hown : Run.AlongOk Build.apply OwnLogs (Build.start base) apps)
    (h : Run.reach Build.apply (Build.start base) apps = .ok b) (fetch : Word → Bool) :
    ∀ log ∈ getLogsByLedger fetch b.view,
      bloomLookup hash (calcBloom hash b.vecLogs) (addressBytes log.account) = true ∧
        ∀ topic ∈ log.topics, bloomLookup hash (calcBloom hash b.vecLogs) topic.toBytes = true := by
  have hcovered : Covered b := by
    refine (hown.and_mem henabled).invariant ?_ (fun s a s' hinv hok hs' => ?_) h
    · intro id data hdata
      simp [Build.start] at hdata
    · exact Build.apply_covered hinv hok.1 hok.2 hs'
  intro log hlog
  obtain ⟨id, data, hdata, hlog⟩ := mem_getLogsByLedger hlog
  obtain ⟨logs, hmem, hin⟩ := hcovered id data hdata log hlog
  have hadded : ∀ d ∈ addressBytes log.account :: log.topics.map Word.toBytes, d ∈ added b.vecLogs := by
    intro d hd
    exact List.mem_flatMap.mpr ⟨_, hmem, List.mem_flatMap.mpr ⟨log, hin, hd⟩⟩
  rw [calcBloom_eq]
  refine ⟨test_ofList_of_mem hash (hadded _ List.mem_cons_self), fun topic htopic => ?_⟩
  exact test_ofList_of_mem hash (hadded _ (List.mem_cons_of_mem _ (List.mem_map_of_mem htopic)))

def logging (account : AccountID) : Application (List AccountID) where
  checks := { content [] with doApply := fun _ _ view => .ok (tesSUCCESS, view, [⟨account, [], []⟩]) }
  caller := firstSeen
  tx := { payment with
    type := .ttCONTRACT
    isSTETx_type := Bool.noConfusion
    txnSignature := some [7]
    contractAddress := some 100 }

/-- The first bytes of the hashes of the addresses 100 and 101. -/
def sha3 : Hash := fun data i =>
  if data = addressBytes 101 then [0x29#8, 0x7d#8, 0x3a#8, 0xcf#8, 0xfb#8, 0x94#8].getD i 0#8
  else [0xc4#8, 0x92#8, 0x41#8, 0x82#8, 0x94#8, 0x46#8].getD i 0#8

theorem header_covers_logs_own :
    ∃ b, Run.reach Build.apply (Build.start notFrozen) [logging 100] = .ok b ∧
      (⟨100, [], []⟩ : LogEntry) ∈ getLogsByLedger (fun _ => true) b.view ∧
      bloomLookup sha3 (calcBloom sha3 b.vecLogs) (addressBytes 100) = true := by
  obtain ⟨b, hreach, hlog⟩ : ∃ b, Run.reach Build.apply (Build.start notFrozen) [logging 100] = .ok b ∧
      (⟨100, [], []⟩ : LogEntry) ∈ getLogsByLedger (fun _ => true) b.view := ⟨_, rfl, by decide⟩
  have hown : OwnLogs (Build.start notFrozen) (logging 100) := by
    intro result effect happly _ data hdata _
    cases happly
    cases hdata
    exact ⟨rfl, by decide⟩
  have halong : Run.AlongOk Build.apply OwnLogs (Build.start notFrozen) [logging 100] := ⟨hown, fun _ _ => trivial⟩
  have henabled : ∀ a ∈ [logging 100], a.checks.featureBloomFilter = true := by
    intro a ha
    rw [List.mem_singleton.mp ha]
    rfl
  exact ⟨b, hreach, hlog, (header_covers_logs sha3 henabled halong hreach _ _ hlog).1⟩

/-- A log of contract 101, which contract 100 has called, is reported, and the filter does not match it. -/
theorem nested_log_not_covered :
    ∃ b, Run.reach Build.apply (Build.start notFrozen) [logging 101] = .ok b ∧
      ∃ log ∈ getLogsByLedger (fun _ => true) b.view,
        bloomLookup sha3 (calcBloom sha3 b.vecLogs) (addressBytes log.account) = false :=
  ⟨_, rfl, ⟨101, [], []⟩, by decide, by decide⟩

end Chainsql.Bloom
