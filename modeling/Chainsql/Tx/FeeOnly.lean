import Chainsql.Tx.Accounting

/-!
# Failed transactions

The changes of a transaction that fails are discarded with everything else that it had in its view, and
the fee is taken from the root of its sender in the ledger before it. A transaction whose sequence number
does not fit yet, or does not fit any more, is left alone.
-/

namespace Chainsql.Tx

open Evm (Crash TER tesSUCCESS AccountID Word LogEntry)

variable {σ : Type} {t : Transactor σ} {tx : STTx} {base base' : OpenView σ} {view : ApplyView σ}

namespace ApplyView

/-- Only entries that are not written otherwise are threaded in the ledger. -/
theorem threadMods_of_written {id : Word} {seq : UInt32} {keys : List Word} {items : AList fun _ : Word => Item σ}
    (h : ∀ k ∈ keys, ∃ item, items.lookup k = some item ∧ item.action ≠ .cache) :
    threadMods id seq keys items base = base := by
  induction keys with
  | nil => rfl
  | cons k keys ih =>
    obtain ⟨item, hitem, haction⟩ := h k List.mem_cons_self
    have hstep : ¬((items.lookup k).all fun item => decide (item.action = .cache)) = true := by
      simp [hitem, haction]
    rw [threadMods, List.foldl_cons, if_neg hstep]
    exact ih fun k' hk' => h k' (List.mem_cons_of_mem _ hk')

theorem threadItems_update (id : Word) (seq : UInt32) (keys : List Word) (k : Word) (sle : SLE σ) :
    (threadItems id seq keys ((start : ApplyView σ).update k sle).items).entries =
      [⟨k, .modify, if k ∈ keys then threadItem id seq sle else sle⟩] := by
  show [(⟨k, if k ∈ keys ∧ (Action.modify = .insert ∨ Action.modify = .modify) then
    ⟨.modify, threadItem id seq sle⟩ else ⟨.modify, sle⟩⟩ : Sigma fun _ : Word => Item σ)] = _
  by_cases hk : k ∈ keys <;> simp [hk]

variable {k : Word} {old sle : SLE σ}

theorem applyItems_modify (h : applyItems base [⟨k, .modify, sle⟩] = .ok base') (hold : base.read k = some old) :
    base' = { base with entries := base.entries.insert k sle } := by
  obtain ⟨base₁, h₁, h⟩ := Except.bind_eq_ok.mp h
  cases h
  simp only [applyItem, OpenView.rawReplace, hold] at h₁
  cases h₁
  rfl

variable [DecidableEq σ] {fmt : LedgerFormat σ} {id : Word} {data : TxMeta} {destroyed : Int}

theorem apply_start (h : (start : ApplyView σ).apply fmt base id data destroyed = .ok base') :
    base.txs.lookup id = none ∧
      base' = { base with
        txs := base.txs.insert id (if base.isOpen then none else some data)
        dropsDestroyed := base.dropsDestroyed + destroyed } := by
  obtain ⟨hnew, keys, applied, hkeys, happlied, rfl⟩ := apply_eq_ok h
  have hnil : keys = [] := by
    rw [hkeys]
    split <;> rfl
  subst hnil
  cases happlied
  exact ⟨hnew, rfl⟩

theorem apply_update (hold : base.read k = some old)
    (h : ((start : ApplyView σ).update k sle).apply fmt base id data destroyed = .ok base') :
    base.txs.lookup id = none ∧
      ∃ previousTxn, (previousTxn = sle.previousTxn ∨
          previousTxn = sle.previousTxn.map fun _ => (id, base.seq)) ∧
        base' = { base with
          entries := base.entries.insert k { sle with previousTxn }
          txs := base.txs.insert id (if base.isOpen then none else some data)
          dropsDestroyed := base.dropsDestroyed + destroyed } := by
  obtain ⟨hnew, keys, applied, hkeys, happlied, rfl⟩ := apply_eq_ok h
  have hmem : ∀ k' ∈ keys, k' = k := by
    intro k' hk'
    rw [hkeys] at hk'
    split at hk'
    · cases hk'
    · change k' ∈ threads fmt base k ⟨.modify, sle⟩ ++ [] at hk'
      simp only [threads, List.append_nil] at hk'
      split at hk'
      · cases hk'
      · split at hk'
        · cases hk'
        · exact List.mem_singleton.mp hk'
  have hlookup : ((start : ApplyView σ).update k sle).items.lookup k = some ⟨.modify, sle⟩ := AList.lookup_insert _
  have hmods : threadMods id base.seq keys ((start : ApplyView σ).update k sle).items base = base := by
    refine threadMods_of_written fun k' hk' => ?_
    rw [hmem k' hk']
    exact ⟨_, hlookup, by simp⟩
  rw [hmods, threadItems_update] at happlied
  refine ⟨hnew, (if k ∈ keys then threadItem id base.seq sle else sle).previousTxn, ?_, ?_⟩
  · split
    · exact .inr rfl
    · exact .inl rfl
  · rw [applyItems_modify happlied hold]
    by_cases hk : k ∈ keys <;> simp only [hk] <;> rfl

end ApplyView

def chargeable (t : Transactor σ) (tx : STTx) (base : OpenView σ) (fee : Int) : Int :=
  (sender t tx base).elim 0 fun s => min fee s.2.balance

theorem reset_of_none (h : sender t tx base = none) (fee : Int) : reset t tx base fee = (0, .start) := by
  simp only [reset, h]

theorem reset_of_some {sle : SLE σ} {root : AccountRoot} (h : sender t tx base = some (sle, root)) (fee : Int) :
    reset t tx base fee = (min fee root.balance, ApplyView.start.update (t.account tx.account)
      (sle.withRoot (charged tx root (min fee root.balance)))) := by
  have hfee : (if root.balance < fee then root.balance else fee) = min fee root.balance := by
    split <;> omega
  simp only [reset, h, hfee]

theorem reset_fst (fee : Int) : (reset t tx base fee).1 = chargeable t tx base fee := by
  cases h : sender t tx base with
  | none => rw [reset_of_none h, chargeable, h, Option.elim]
  | some s => rw [reset_of_some h, chargeable, h, Option.elim]

theorem reset_reset (fee : Int) : reset t tx base (reset t tx base fee).1 = reset t tx base fee := by
  cases h : sender t tx base with
  | none => rw [reset_of_none h, reset_of_none h]
  | some s =>
    have hfee : min (min fee s.2.balance) s.2.balance = min fee s.2.balance := by omega
    rw [reset_of_some h, reset_of_some h, hfee]

/-- The ledger `after` is `base` with the transaction recorded and `fee` taken from the sender, as far
as the sender has it. -/
structure FeeOnly (t : Transactor σ) (tx : STTx) (fee : Int) (base after : OpenView σ) : Prop where
  other : ∀ k, k ≠ t.account tx.account → after.read k = base.read k
  absent : sender t tx base = none → after.read (t.account tx.account) = base.read (t.account tx.account)
  /-- The reference to the last transaction is updated in some cases. -/
  root : ∀ sle root, sender t tx base = some (sle, root) →
    ∃ previousTxn, (previousTxn = sle.previousTxn ∨
        previousTxn = sle.previousTxn.map fun _ => (tx.id, base.seq)) ∧
      after.read (t.account tx.account) = some ⟨.accountRoot { root with
        balance := root.balance - min fee root.balance
        sequence := if root.sequence = tx.sequence then root.sequence + 1 else root.sequence },
        previousTxn, sle.rest⟩
  recorded : ∃ data, after.txs = base.txs.insert tx.id data
  destroyed : after.dropsDestroyed = base.dropsDestroyed + if base.isOpen then 0 else chargeable t tx base fee
  storage : after.stateCache = base.stateCache

variable [DecidableEq σ] {bloomLogs : List (AccountID × List LogEntry)} {effect : Effect σ}

variable {fee : Int}

theorem feeOnly_of_reset {data : TxMeta}
    (h : (reset t tx base fee).2.apply t.fmt base tx.id data (if base.isOpen then 0 else (reset t tx base fee).1) =
      .ok base') :
    FeeOnly t tx fee base base' := by
  rw [reset_fst] at h
  cases hsender : sender t tx base with
  | none =>
    rw [reset_of_none hsender] at h
    obtain ⟨-, rfl⟩ := ApplyView.apply_start h
    exact ⟨fun _ _ => rfl, fun _ => rfl, fun sle root hsome => by simp [hsender] at hsome, ⟨_, rfl⟩, rfl, rfl⟩
  | some s =>
    obtain ⟨sle, root⟩ := s
    rw [reset_of_some hsender] at h
    obtain ⟨-, previousTxn, hprevious, rfl⟩ := ApplyView.apply_update (sender_eq_some hsender).1 h
    refine ⟨fun k hk => AList.lookup_insert_ne hk, fun hnone => by simp [hsender] at hnone, ?_, ⟨_, rfl⟩, rfl, rfl⟩
    intro sle' root' hsome
    rw [hsender] at hsome
    cases hsome
    refine ⟨previousTxn, hprevious, (AList.lookup_insert _).trans ?_⟩
    have hsequence : (if root.sequence = tx.sequence then tx.sequence + 1 else root.sequence) =
        if root.sequence = tx.sequence then root.sequence + 1 else root.sequence := by
      split
      · rw [‹root.sequence = tx.sequence›]
      · rfl
    simp only [SLE.withRoot, charged, hsequence]

omit [DecidableEq σ] in
theorem claimFee_fst (result : TER) (fee : Int) :
    reset t tx base (claimFee t tx base result view fee).1 = reset t tx base fee := by
  unfold claimFee
  split
  · rfl
  · simp only
    split <;> exact reset_reset fee

omit [DecidableEq σ] in
/-- A failure that leaves no offers removed leaves what `reset` makes of the ledger. -/
theorem settle_failed {applied : Bool} {result result' : TER} {view' : ApplyView σ} {fee' : Int}
    (happlied : applied = true → result = tesSUCCESS ∨ result = tecOVERSIZE)
    (h : settle t tx base applied result (claimFee t tx base result view fee).2 (claimFee t tx base result view fee).1
      = .ok (result', view', fee')) (hsuccess : result' ≠ tesSUCCESS) (hoversize : result' ≠ tecOVERSIZE)
    (hkilled : result' ≠ tecKILLED) :
    reset t tx base fee = (fee', view') := by
  unfold settle at h
  split at h
  next hyes =>
    obtain ⟨checked, hcheck, h⟩ := Except.bind_eq_ok.mp h
    split at h
    · rw [claimFee_fst] at h
      obtain ⟨again, -, h⟩ := Except.bind_eq_ok.mp h
      cases h
      rfl
    next hfail =>
      -- The first check cannot end with any other failure.
      cases h
      have hresult := happlied hyes
      rcases checkInvariants_eq_ok hcheck with hchecked | ⟨-, -, -, hchecked⟩
      · rcases hresult with rfl | rfl <;> exact absurd hchecked hfail
      · rw [hchecked] at hsuccess hoversize
        rcases hresult with hresult | hresult <;> contradiction
  · cases h
    rw [claimFee, if_neg hsuccess]
    simp only
    rw [if_neg (by simp [hoversize, hkilled])]

/-- What a transaction leaves that fails with any other result than those which remove offers. -/
theorem failed_run_takes_fee_only {preclaimResult : TER} (h : run t tx base preclaimResult bloomLogs = .ok effect)
    (hsuccess : effect.result ≠ tesSUCCESS) (hoversize : effect.result ≠ tecOVERSIZE)
    (hkilled : effect.result ≠ tecKILLED) :
    effect.bloomLogs = bloomLogs ∧
      ((preclaimResult = terPRE_SEQ ∨ preclaimResult = tefPAST_SEQ) ∧ effect.view = base ∨
        ¬(preclaimResult = terPRE_SEQ ∨ preclaimResult = tefPAST_SEQ) ∧
          ∃ fee, tx.fee = some fee ∧ FeeOnly t tx fee base effect.view) := by
  by_cases hseq : preclaimResult = terPRE_SEQ ∨ preclaimResult = tefPAST_SEQ
  · rw [run, if_pos hseq] at h
    cases h
    exact ⟨rfl, .inl ⟨hseq, rfl⟩⟩
  · rcases run_eq_ok h with ⟨hpre, -⟩ | ⟨result, view, logs, fee, result', view', fee', -, hfee, hsettle, hcommit⟩
    · exact absurd hpre hseq
    · obtain ⟨-, hresult, -, happly, hbloom⟩ := commit_eq_ok hcommit
      rw [hresult] at hsuccess hoversize hkilled
      have happlied : decide (result = tesSUCCESS) = true →
          (if oversizeMetaDataCap < view.size then tecOVERSIZE else result) = tesSUCCESS ∨
            (if oversizeMetaDataCap < view.size then tecOVERSIZE else result) = tecOVERSIZE := by
        intro hyes
        split
        · exact .inr rfl
        · exact .inl (of_decide_eq_true hyes)
      have hreset := settle_failed happlied hsettle hsuccess hoversize hkilled
      refine ⟨(hbloom.resolve_right fun hyes => hsuccess hyes.1).1, .inr ⟨hseq, fee, ?_, ?_⟩⟩
      · unfold STTx.zxc at hfee
        split at hfee <;> cases hfee
        assumption
      · apply feeOnly_of_reset
        rw [hreset]
        exact happly

theorem failed_run_takes_fee_only_no_destination :
    ∃ effect, run (scripted ⟨124⟩ [(8, rootOf 600 1)]) payment twoAccounts tesSUCCESS [] = .ok effect ∧
      effect.result = ⟨124⟩ ∧ effect.bloomLogs = [] ∧
      FeeOnly (scripted ⟨124⟩ [(8, rootOf 600 1)]) payment 10 twoAccounts effect.view := by
  obtain ⟨effect, hrun, hresult⟩ :
      ∃ effect, run (scripted ⟨124⟩ [(8, rootOf 600 1)]) payment twoAccounts tesSUCCESS [] = .ok effect ∧
        effect.result = ⟨124⟩ := ⟨_, rfl, rfl⟩
  obtain ⟨hbloom, ⟨hseq, -⟩ | ⟨-, fee, hfee, honly⟩⟩ :=
    failed_run_takes_fee_only hrun (by rw [hresult]; decide) (by rw [hresult]; decide) (by rw [hresult]; decide)
  · exact absurd hseq (by decide)
  · cases hfee
    exact ⟨effect, hrun, hresult, hbloom, honly⟩

/-- A payment that comes too early costs nothing, although the sender has the fee. -/
theorem early_payment_destroys_nothing :
    ∃ effect, run (scripted tesSUCCESS []) { payment with sequence := 4 } twoAccounts terPRE_SEQ [] = .ok effect ∧
      effect.result ≠ tesSUCCESS ∧ effect.result ≠ tecOVERSIZE ∧ effect.result ≠ tecKILLED ∧
      ¬FeeOnly (scripted tesSUCCESS []) { payment with sequence := 4 } 10 twoAccounts effect.view := by
  refine ⟨_, rfl, by decide, by decide, by decide, fun honly => ?_⟩
  exact absurd honly.destroyed (by decide)

end Chainsql.Tx
