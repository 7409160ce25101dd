import Chainsql.Tx.Transactor

/-!
# What a transaction costs

Whatever a transactor does to the entries of a closed ledger, the ZXC in account roots, escrows and
payment channels fall by exactly what is destroyed: on success the invariant checks see to it, and on
every other path only the fee is taken from the sender. A transaction that fails changes nothing else.
-/

namespace Chainsql.Tx

open Evm (Crash TER tesSUCCESS AccountID Word LogEntry)

variable {σ : Type} {t : Transactor σ} {tx : STTx} {base : OpenView σ} {view : ApplyView σ}

/-- Account roots are erased only when they are empty. -/
def EmptyErased (view : ApplyView σ) : Prop :=
  ∀ e ∈ view.items.entries, e.2.action = .erase → ∀ root, e.2.sle.entry = .accountRoot root → root.balance = 0

theorem addDrops_eq_ok {a b c : Int} (h : addDrops a b = .ok c) : c = a + b := by
  unfold addDrops at h
  split at h <;> cases h
  rfl

namespace ZXCNotCreated

theorem counted_false (entry : Entry) : counted false entry = entry.zxc := by
  cases entry <;> rfl

variable {drops drops' : Int}

theorem visitEntry_eq_ok {isDelete : Bool} {before : Option (SLE σ)} {after : SLE σ}
    (h : visitEntry drops isDelete before after = .ok drops') :
    drops' = drops - before.elim 0 SLE.zxc + counted isDelete after.entry := by
  obtain ⟨d, hd, h⟩ := Except.bind_eq_ok.mp h
  rw [addDrops_eq_ok h, addDrops_eq_ok hd]
  cases before with
  | none => simp
  | some sle =>
    simp only [Option.elim, counted_false, SLE.zxc]
    omega

theorem visitItem_eq_ok {k : Word} {item : Item σ}
    (hempty : item.action = .erase → ∀ root, item.sle.entry = .accountRoot root → root.balance = 0)
    (h : visitItem base drops k item = .ok drops') : drops' = drops + ApplyView.delta base k item := by
  unfold visitItem at h
  simp only [ApplyView.delta, OpenView.zxcAt]
  cases hact : item.action with
  | cache =>
    rw [hact] at h
    cases h
    simp
  | erase =>
    -- A removed root is empty, and other entries do not count when they are removed.
    have hzero : counted true item.sle.entry = 0 := by
      cases hentry : item.sle.entry with
      | accountRoot root => exact hempty hact root hentry
      | _ => rfl
    rw [hact] at h
    rw [visitEntry_eq_ok h]
    show _ = drops + -(base.read k).elim 0 SLE.zxc
    omega
  | insert =>
    rw [hact] at h
    rw [visitEntry_eq_ok h, counted_false]
    simp [SLE.zxc]
  | modify =>
    rw [hact] at h
    rw [visitEntry_eq_ok h, counted_false]
    simp only [SLE.zxc]
    omega

theorem visit_eq_ok {es : List (Sigma fun _ : Word => Item σ)}
    (hempty : ∀ e ∈ es, e.2.action = .erase → ∀ root, e.2.sle.entry = .accountRoot root → root.balance = 0)
    (h : visit base drops es = .ok drops') : drops' = drops + (es.map fun e => ApplyView.delta base e.1 e.2).sum := by
  induction es generalizing drops with
  | nil =>
    cases h
    simp
  | cons e es ih =>
    obtain ⟨d, hd, h⟩ := Except.bind_eq_ok.mp h
    rw [ih (fun e he => hempty e (List.mem_cons_of_mem _ he)) h, List.map_cons, List.sum_cons,
      visitItem_eq_ok (hempty e List.mem_cons_self) hd]
    omega

end ZXCNotCreated

theorem sender_eq_some {sle : SLE σ} {root : AccountRoot} (h : sender t tx base = some (sle, root)) :
    base.read (t.account tx.account) = some sle ∧ sle.entry = .accountRoot root := by
  unfold sender at h
  split at h
  · split at h <;> cases h
    exact ⟨‹_›, ‹_›⟩
  · cases h

theorem reset_net (fee : Int) : (reset t tx base fee).2.net base = -(reset t tx base fee).1 := by
  unfold reset
  split
  · rfl
  next sle root hsender =>
    obtain ⟨hread, hentry⟩ := sender_eq_some hsender
    generalize (if root.balance < fee then root.balance else fee) = paid
    have hzxc : base.zxcAt (t.account tx.account) = root.balance := by
      rw [OpenView.zxcAt, hread, Option.elim, SLE.zxc, hentry, Entry.zxc]
    have hnet : (ApplyView.start.update (t.account tx.account) (sle.withRoot (charged tx root paid))).net base =
        root.balance - paid - base.zxcAt (t.account tx.account) + 0 := rfl
    refine hnet.trans ?_
    show _ = -paid
    omega

variable {result result' : TER} {fee : Int} {logs : List LogEntry}

theorem claimFee_net (fee : Int) (h : result ≠ tesSUCCESS) :
    (claimFee t tx base result view fee).2.net base = -(claimFee t tx base result view fee).1 := by
  unfold claimFee
  rw [if_neg h]
  simp only
  split
  · rw [t.removeUnfundedOffers_net]
    exact reset_net fee
  · exact reset_net fee

theorem checkInvariants_eq_ok (h : checkInvariants t tx base view result fee = .ok result') :
    result' = failInvariantCheck result ∨
      ∃ drops, ZXCNotCreated.visit base 0 view.items.entries = .ok drops ∧
        ZXCNotCreated.finalize tx fee drops = true ∧ result' = result := by
  obtain ⟨drops, hvisit, h⟩ := Except.bind_eq_ok.mp h
  split at h
  · split at h
    next hpass =>
      cases h
      simp only [Bool.and_eq_true] at hpass
      exact .inr ⟨drops, hvisit, hpass.2, rfl⟩
    · cases h
      exact .inl rfl
  · cases h
    exact .inl rfl
  · cases h
  · cases h
    exact .inl rfl
  · cases h

theorem settle_net {applied : Bool} {view' : ApplyView σ} {fee' : Int}
    (htype : ¬(tx.type = .ttCONTRACT ∨ tx.type = .ttETH_TX))
    (hview : view.net base = -fee ∨ applied = true ∧ result = tesSUCCESS ∧ EmptyErased view)
    (h : settle t tx base applied result view fee = .ok (result', view', fee')) : view'.net base = -fee' := by
  unfold settle at h
  split at h
  · obtain ⟨checked, hcheck, h⟩ := Except.bind_eq_ok.mp h
    split at h
    · obtain ⟨again, -, h⟩ := Except.bind_eq_ok.mp h
      cases h
      exact reset_net fee
    next hfail =>
      cases h
      rcases hview with hnet | ⟨-, hresult, hempty⟩
      · exact hnet
      · subst hresult
        rcases checkInvariants_eq_ok hcheck with hfailed | ⟨drops, hvisit, hfinal, -⟩
        · exact absurd hfailed hfail
        · have hdrops : drops = 0 + view.net base := ZXCNotCreated.visit_eq_ok hempty hvisit
          rw [ZXCNotCreated.finalize, if_neg htype] at hfinal
          split at hfinal
          · cases hfinal
          · have hfee := of_decide_eq_true hfinal
            omega
  · cases h
    rcases hview with hnet | ⟨happlied, -⟩
    · exact hnet
    · contradiction

variable [DecidableEq σ] {bloomLogs : List (AccountID × List LogEntry)} {effect : Effect σ}

theorem commit_eq_ok (h : commit t tx base bloomLogs result view fee logs = .ok effect) :
    0 ≤ fee ∧ effect.result = result ∧ effect.isApplied = true ∧
      view.apply t.fmt base tx.id ⟨result, if isContract tx then logs else []⟩ (if base.isOpen then 0 else fee) =
        .ok effect.view ∧
      (effect.bloomLogs = bloomLogs ∧ ¬(result = tesSUCCESS ∧ t.featureBloomFilter = true ∧ logs ≠ []) ∨
        result = tesSUCCESS ∧
          ∃ address, tx.contractAddress = some address ∧ effect.bloomLogs = bloomLogs ++ [(address, logs)]) := by
  unfold commit at h
  split at h
  · cases h
  next hfee =>
    refine ⟨Int.not_lt.mp hfee, ?_⟩
    obtain ⟨applied, happly, h⟩ := Except.bind_eq_ok.mp h
    rw [happly]
    split at h
    next hlogs =>
      split at h
      next address haddress =>
        cases h
        exact ⟨rfl, rfl, rfl, .inr ⟨hlogs.1, address, haddress, rfl⟩⟩
      · cases h
    next hlogs =>
      cases h
      exact ⟨rfl, rfl, rfl, .inl ⟨rfl, hlogs⟩⟩

theorem run_eq_ok {preclaimResult : TER} (h : run t tx base preclaimResult bloomLogs = .ok effect) :
    ((preclaimResult = terPRE_SEQ ∨ preclaimResult = tefPAST_SEQ) ∧
        effect = ⟨preclaimResult, false, base, bloomLogs⟩) ∨
      ∃ result view logs fee result' view' fee',
        attempt t tx base preclaimResult = .ok (result, view, logs) ∧
          tx.zxc = .ok fee ∧
          settle t tx base (result = tesSUCCESS)
              (if oversizeMetaDataCap < view.size then tecOVERSIZE else result)
              (claimFee t tx base (if oversizeMetaDataCap < view.size then tecOVERSIZE else result) view fee).2
              (claimFee t tx base (if oversizeMetaDataCap < view.size then tecOVERSIZE else result) view fee).1 =
            .ok (result', view', fee') ∧
          commit t tx base bloomLogs result' view' fee' logs = .ok effect := by
  unfold run at h
  split at h
  next hseq =>
    cases h
    exact .inl ⟨hseq, rfl⟩
  · obtain ⟨⟨result, view, logs⟩, happly, h⟩ := Except.bind_eq_ok.mp h
    obtain ⟨fee, hfee, h⟩ := Except.bind_eq_ok.mp h
    obtain ⟨⟨result', view', fee'⟩, hsettle, h⟩ := Except.bind_eq_ok.mp h
    exact .inr ⟨result, view, logs, fee, result', view', fee', happly, hfee, hsettle, h⟩

/-- Whatever `apply` did, the ZXC that are held fall by exactly what was destroyed. -/
theorem run_lowers_total_by_destroyed {preclaimResult : TER} (hclosed : base.isOpen = false)
    (htype : ¬(tx.type = .ttCONTRACT ∨ tx.type = .ttETH_TX))
    (herased : ∀ result view logs, apply t tx base = .ok (result, view, logs) → EmptyErased view)
    (h : run t tx base preclaimResult bloomLogs = .ok effect) :
    base.total - effect.view.total = effect.view.dropsDestroyed - base.dropsDestroyed := by
  rcases run_eq_ok h with ⟨-, rfl⟩ | ⟨result, view, logs, fee, result', view', fee', happly, -, hsettle, hcommit⟩
  · simp
  · obtain ⟨-, -, -, happlied, -⟩ := commit_eq_ok hcommit
    rw [hclosed] at happlied
    have htotal := ApplyView.apply_total happlied
    have hdestroyed := congrArg OpenView.dropsDestroyed (ApplyView.apply_frame happlied).2
    suffices hnet : view'.net base = -fee' by
      rw [htotal, hdestroyed, hnet]
      simp
    generalize hresult : (if oversizeMetaDataCap < view.size then tecOVERSIZE else result) = sized at hsettle
    refine settle_net htype ?_ hsettle
    by_cases hsuccess : sized = tesSUCCESS
    · -- Nothing was reset, so that the view is the one that `apply` has made.
      right
      have hres : result = tesSUCCESS := by
        split at hresult
        · rw [← hresult] at hsuccess
          cases hsuccess
        · rw [hresult, hsuccess]
      have hpre : preclaimResult = tesSUCCESS := by
        by_contra hne
        rw [attempt, if_neg hne] at happly
        cases happly
        exact hne hres
      rw [attempt, if_pos hpre] at happly
      refine ⟨decide_eq_true hres, hsuccess, ?_⟩
      rw [claimFee, if_pos hsuccess]
      exact herased result view logs happly
    · exact .inl (claimFee_net fee hsuccess)

def scripted (result : TER) (changes : List (Word × SLE (List AccountID))) : Transactor (List AccountID) where
  fmt := ⟨fun _ => [], fun _ => false⟩
  account a := a.setWidth 256
  preChainsql _ _ view := .ok (tesSUCCESS, view)
  doApply _ _ view := .ok (result, changes.foldl (fun view c => view.update c.1 c.2) view, [])
  removeUnfundedOffers _ _ view := view
  removeUnfundedOffers_net _ _ _ := rfl
  otherInvariants _ _ _ _ := .ok true
  featureBloomFilter := true

def rootOf (balance : Int) (sequence : UInt32) : SLE (List AccountID) :=
  ⟨.accountRoot ⟨balance, sequence, none, false, none⟩, some (0, 0), []⟩

def twoAccounts : OpenView (List AccountID) :=
  ⟨false, 5, (AList.singleton 7 (rootOf 1000 3)).insert 8 (rootOf 500 1), ∅, 0, ∅⟩

def payment : STTx where
  id := 0xA
  type := .ttPAYMENT
  isSTETx := false
  isSTETx_type := Bool.noConfusion
  account := 7
  sequence := 3
  fee := some 10
  lastLedgerSequence := none
  accountTxnID := none
  signingPubKey := [7]
  txnSignature := none
  signers := none
  fullyCanonicalSig := false
  contractAddress := none
  logs := []

theorem run_lowers_total_by_destroyed_payment :
    ∃ effect, run (scripted tesSUCCESS [(7, rootOf 890 4), (8, rootOf 600 1)]) payment twoAccounts tesSUCCESS [] =
        .ok effect ∧ effect.result = tesSUCCESS ∧ effect.view.dropsDestroyed - twoAccounts.dropsDestroyed = 10 ∧
      twoAccounts.total - effect.view.total = 10 := by
  have htype : ¬(payment.type = .ttCONTRACT ∨ payment.type = .ttETH_TX) := by decide
  obtain ⟨effect, hrun, hresult, hfee⟩ :
      ∃ effect, run (scripted tesSUCCESS [(7, rootOf 890 4), (8, rootOf 600 1)]) payment twoAccounts tesSUCCESS [] =
        .ok effect ∧ effect.result = tesSUCCESS ∧ effect.view.dropsDestroyed - twoAccounts.dropsDestroyed = 10 :=
    ⟨_, rfl, rfl, rfl⟩
  refine ⟨effect, hrun, hresult, hfee, (run_lowers_total_by_destroyed rfl htype ?_ hrun).trans hfee⟩
  rintro result view logs h
  cases h
  rintro e (_ | ⟨_, _ | ⟨_, ⟨⟩⟩⟩) ⟨⟩

end Chainsql.Tx
