import Chainsql.Build.Ledger
import Chainsql.Storage.TwoNodes

/-!
# The same ledger on every node

Transactions run alike on any two nodes that answer their questions alike, as long as the ledger has its
statistics entry. A ledger without the entry gets one on the nodes that have counted their tables, and none on
the others.
-/

namespace Chainsql.Build

open Evm (AccountID Word Bytes)
open Storage (Hashes OpenView Accounts ContractHelper Intact)
open ShaMap (SHAMap)

variable {σ : Type} {H : Hashes} {values : AccountID → Word → Word} (answer answer' : ℕ → Question → Option ℕ)
  {Q : Set Question}

/-! ## Two builds side by side -/

/-- The views of two nodes, with the statistics entry. -/
structure Same (H : Hashes) (values : AccountID → Word → Word) (a b : Accum σ) : Prop where
  state : a.state = b.state
  statis : a.statis = b.statis
  present : a.statis ≠ none
  txs : a.txs = b.txs
  storage : Storage.Same H values a.storage b.storage
  asked : a.asked = b.asked

structure SameRunning (H : Hashes) (values : AccountID → Word → Word) (r q : Running σ) : Prop where
  state : r.state = q.state
  entry : ∃ sle, r.entry = .copy sle ∧ q.entry = .copy sle
  storage : Storage.Same H values r.storage q.storage
  asked : r.asked = q.asked

/-- Two nodes answer the questions alike. -/
def Agree (Q : Set Question) (answer answer' : ℕ → Question → Option ℕ) : Prop :=
  ∀ asked, ∀ question ∈ Q, answer asked question = answer' asked question

section Running

variable {a b : Accum σ} {r q : Running σ}

theorem Same.peek (h : Same H values a b) : ∃ sle, Entry.peek a.statis = .copy sle ∧ Entry.peek b.statis = .copy sle := by
  obtain ⟨sle, hsle⟩ := Option.ne_none_iff_exists'.mp h.present
  refine ⟨sle, ?_, ?_⟩
  · rw [hsle, Entry.peek]
  · rw [← h.statis, hsle, Entry.peek]

theorem Same.begin (h : Same H values a b) : SameRunning H values a.begin b.begin :=
  ⟨h.state, h.peek, h.storage.begin false, h.asked⟩

theorem SameRunning.commit (h : SameRunning H values r q) (hab : Same H values a b) (txid : TxID) (metadata : Bytes) :
    Same H values (r.commit a txid metadata) (q.commit b txid metadata) := by
  obtain ⟨sle, hr, hq⟩ := h.entry
  refine ⟨h.state, ?_, ?_, ?_, h.storage.commit, h.asked⟩
  · show r.entry.value r.promethSle = q.entry.value q.promethSle
    rw [hr, hq]
    rfl
  · show r.entry.value r.promethSle ≠ none
    rw [hr]
    exact Option.some_ne_none sle
  · show a.txs ++ [_] = b.txs ++ [_]
    rw [hr, hq, hab.txs, h.state]
    rfl

structure SameResult (H : Hashes) (values : AccountID → Word → Word) (x y : ApplyResult × Bytes × Running σ) : Prop where
  result : x.1 = y.1
  metadata : x.2.1 = y.2.1
  running : SameRunning H values x.2.2 y.2.2

theorem Prog.run_same {prog : Prog σ} (hasks : prog.AsksOnly Q) (hagree : Agree Q answer answer') (hab : Same H values a b)
    (h : SameRunning H values r q) :
    SameResult H values (prog.run H answer a r) (prog.run H answer' b q) := by
  induction prog generalizing r q with
  | done result metadata => exact ⟨rfl, rfl, h⟩
  | read next ih =>
    rw [Prog.run, Prog.run, ← h.state]
    exact ih r.state (hasks r.state) h
  | write state next ih => exact ih hasks ⟨rfl, h.entry, h.storage, h.asked⟩
  | updateContractCount state next ih =>
    obtain ⟨sle, hr, hq⟩ := h.entry
    rw [Prog.run, Prog.run, hr, hq]
    exact ih hasks ⟨h.state, ⟨sle.changeContract state, rfl, rfl⟩, h.storage, h.asked⟩
  | createContractAccount contract next ih =>
    rw [Prog.run, Prog.run, h.storage.view_eq]
    split
    · exact ih hasks h
    next hnone =>
      have hnew := Option.not_isSome_iff_eq_none.mp hnone
      exact ih hasks ⟨h.state, h.entry, h.storage.createContractAccount hnew, h.asked⟩
  | store contract key next ih =>
    rw [Prog.run, Prog.run, h.storage.view_eq]
    split
    · obtain ⟨hvalue, hstorage⟩ := h.storage.store contract key
      show SameResult H values ((next (r.storage.store H contract key).1).run H answer a _)
        ((next (q.storage.store H contract key).1).run H answer' b _)
      rw [← hvalue]
      exact ih _ (hasks _) ⟨h.state, h.entry, hstorage, h.asked⟩
    · exact ⟨rfl, rfl, h⟩
  | setStore contract key value next ih =>
    rw [Prog.run, Prog.run, h.storage.view_eq]
    split
    next hsome =>
      exact ih hasks ⟨h.state, h.entry, h.storage.setStore value (Option.isSome_iff_ne_none.mp hsome), h.asked⟩
    · exact ⟨rfl, rfl, h⟩
  | discard next ih => exact ih hasks ⟨hab.state, hab.peek, h.storage.discard, h.asked⟩
  | ask question next ih =>
    rw [Prog.run, Prog.run, ← h.asked, hagree _ question hasks.1]
    exact ih _ (hasks.2 _) ⟨h.state, h.entry, h.storage, rfl⟩

theorem applyTransaction_same {tx : Tx σ} {retryAssured : Bool} (hasks : (tx.prog retryAssured).AsksOnly Q)
    (hagree : Agree Q answer answer')
    (hab : Same H values a b) :
    (applyTransaction H answer a tx retryAssured).1 = (applyTransaction H answer' b tx retryAssured).1 ∧
      Same H values (applyTransaction H answer a tx retryAssured).2
        (applyTransaction H answer' b tx retryAssured).2 := by
  have hrun := Prog.run_same answer answer' hasks hagree hab hab.begin
  rw [applyTransaction, applyTransaction]
  generalize (tx.prog retryAssured).run H answer a a.begin = x at hrun ⊢
  generalize (tx.prog retryAssured).run H answer' b b.begin = y at hrun ⊢
  obtain ⟨result, metadata, r⟩ := x
  obtain ⟨result', metadata', q⟩ := y
  obtain ⟨rfl, rfl, hrq⟩ := hrun
  cases result with
  | Success => exact ⟨rfl, hrq.commit hab tx.txid metadata⟩
  | Fail | Retry => exact ⟨rfl, hab.state, hab.statis, hab.present, hab.txs, hrq.storage.discard, hrq.asked⟩

end Running

section Passes

structure SamePass (H : Hashes) (values : AccountID → Word → Word) (p q : Pass σ) : Prop where
  left : p.left = q.left
  failed : p.failed = q.failed
  changes : p.changes = q.changes
  accum : Same H values p.accum q.accum

variable {certainRetry : Bool} {txns : List (Tx σ)} {a b : Accum σ}

def AskOnly (Q : Set Question) (txns : List (Tx σ)) : Prop :=
  ∀ tx ∈ txns, ∀ retryAssured, (tx.prog retryAssured).AsksOnly Q

theorem Pass.step_same {p q : Pass σ} {tx : Tx σ} (hasks : (tx.prog certainRetry).AsksOnly Q) (hagree : Agree Q answer answer')
    (h : SamePass H values p q) :
    SamePass H values (p.step H answer certainRetry tx) (q.step H answer' certainRetry tx) := by
  obtain ⟨hresult, hsame⟩ := applyTransaction_same answer answer' hasks hagree h.accum
  rw [Pass.step, Pass.step]
  generalize applyTransaction H answer p.accum tx certainRetry = x at hresult hsame ⊢
  generalize applyTransaction H answer' q.accum tx certainRetry = y at hresult hsame ⊢
  obtain ⟨result, accum⟩ := x
  obtain ⟨result', accum'⟩ := y
  obtain rfl : result = result' := hresult
  cases result with
  | Success => exact ⟨h.left, h.failed, congrArg (· + 1) h.changes, hsame⟩
  | Fail => exact ⟨h.left, congrArg (List.insert tx.txid) h.failed, h.changes, hsame⟩
  | Retry => exact ⟨congrArg (· ++ [tx]) h.left, h.failed, h.changes, hsame⟩

theorem foldl_step_same {p q : Pass σ} (hasks : AskOnly Q txns) (hagree : Agree Q answer answer') (h : SamePass H values p q) :
    SamePass H values (txns.foldl (Pass.step H answer certainRetry) p)
      (txns.foldl (Pass.step H answer' certainRetry) q) := by
  induction txns generalizing p q with
  | nil => exact h
  | cons tx txns ih =>
    exact ih (fun tx' htx' => hasks tx' (List.mem_cons_of_mem _ htx'))
      (Pass.step_same answer answer' (hasks tx List.mem_cons_self certainRetry) hagree h)

theorem foldl_step_left (p : Pass σ) :
    ∀ tx ∈ (txns.foldl (Pass.step H answer certainRetry) p).left, tx ∈ p.left ∨ tx ∈ txns := by
  induction txns generalizing p with
  | nil => exact fun tx htx => .inl htx
  | cons tx₀ txns ih =>
    intro tx htx
    have hstep : ∀ tx ∈ (p.step H answer certainRetry tx₀).left, tx ∈ p.left ∨ tx = tx₀ := by
      intro tx htx
      rw [Pass.step] at htx
      split at htx
      · exact .inl htx
      · exact .inl htx
      · rcases List.mem_append.mp htx with htx | htx
        · exact .inl htx
        · exact .inr (List.mem_singleton.mp htx)
    rcases ih _ tx htx with htx | htx
    · rcases hstep tx htx with htx | rfl
      · exact .inl htx
      · exact .inr List.mem_cons_self
    · exact .inr (List.mem_cons_of_mem _ htx)

theorem applyPasses_same (passes pass : ℕ) (certainRetry : Bool) (failed : List TxID) (count : ℕ)
    (hasks : AskOnly Q txns) (hagree : Agree Q answer answer') (hab : Same H values a b) :
    (applyPasses H answer passes pass certainRetry txns failed count a).1 =
        (applyPasses H answer' passes pass certainRetry txns failed count b).1 ∧
      (applyPasses H answer passes pass certainRetry txns failed count a).2.1 =
        (applyPasses H answer' passes pass certainRetry txns failed count b).2.1 ∧
      Same H values (applyPasses H answer passes pass certainRetry txns failed count a).2.2
        (applyPasses H answer' passes pass certainRetry txns failed count b).2.2 := by
  induction passes generalizing pass certainRetry txns failed count a b with
  | zero => exact ⟨rfl, rfl, hab⟩
  | succ passes ih =>
    have hpass : SamePass H values (applyPass H answer certainRetry txns failed a)
        (applyPass H answer' certainRetry txns failed b) := 
      foldl_step_same answer answer' hasks hagree ⟨rfl, rfl, rfl, hab⟩
    rw [applyPasses, applyPasses]
    rw [← hpass.changes, ← hpass.failed, ← hpass.left]
    split
    · exact ⟨rfl, rfl, hpass.accum⟩
    · refine ih _ _ _ _ (fun tx htx => ?_) hpass.accum
      rcases foldl_step_left answer _ tx htx with htx | htx
      · exact absurd htx List.not_mem_nil
      · exact hasks tx htx

theorem Same.updateCount (hab : Same H values a b) (change : Statis → Statis) :
    Same H values (a.updateCount change) (b.updateCount change) := by
  obtain ⟨sle, hsle⟩ := Option.ne_none_iff_exists'.mp hab.present
  have hsle' : b.statis = some sle := hab.statis ▸ hsle
  rw [Accum.updateCount, Accum.updateCount, hsle, hsle']
  exact ⟨hab.state, rfl, Option.some_ne_none _, hab.txs, hab.storage, hab.asked⟩

theorem applyTransactions_same (hasks : AskOnly Q txns) (hagree : Agree Q answer answer') (hab : Same H values a b) :
    Same H values (applyTransactions H answer txns a) (applyTransactions H answer' txns b) := by
  obtain ⟨hcount, hfailed, hsame⟩ := applyPasses_same answer answer' 3 0 true [] 0 hasks hagree hab
  rw [applyTransactions, applyTransactions]
  dsimp only
  rw [hcount, hfailed]
  exact hsame.updateCount _

end Passes

/-! ## A ledger without the statistics entry -/

section Counts

/-- A property of the entry of the ledger and the object of the node that transactions keep. -/
structure CountsKept (P : Option Statis → Statis → Prop) : Prop where
  discard : ∀ {statis statis' promethSle promethSle'}, P statis promethSle → P statis' promethSle' → P statis promethSle'
  count : ∀ {entry : Entry} {promethSle} (state), P (entry.value promethSle) promethSle →
    P ((entry.updateContractCount state promethSle).1.value (entry.updateContractCount state promethSle).2)
      (entry.updateContractCount state promethSle).2

variable {P : Option Statis → Statis → Prop} (hP : CountsKept P) {a : Accum σ}
include hP

theorem Prog.run_counts (prog : Prog σ) {r : Running σ} (ha : P a.statis a.promethSle)
    (hr : P (r.entry.value r.promethSle) r.promethSle) :
    P ((prog.run H answer a r).2.2.entry.value (prog.run H answer a r).2.2.promethSle)
      (prog.run H answer a r).2.2.promethSle := by
  induction prog generalizing r with
  | done result metadata => exact hr
  | read next ih => exact ih r.state hr
  | write state next ih => exact ih hr
  | updateContractCount state next ih => exact ih (hP.count state hr)
  | createContractAccount contract next ih =>
    rw [Prog.run]
    split
    · exact ih hr
    · exact ih hr
  | store contract key next ih =>
    rw [Prog.run]
    split
    · exact ih _ hr
    · exact hr
  | setStore contract key value next ih =>
    rw [Prog.run]
    split
    · exact ih hr
    · exact hr
  | discard next ih =>
    refine ih ?_
    show P ((Entry.peek a.statis).value r.promethSle) r.promethSle
    rw [Entry.value_peek]
    exact hP.discard ha hr
  | ask question next ih => exact ih _ hr

theorem applyTransaction_counts (tx : Tx σ) (retryAssured : Bool) (ha : P a.statis a.promethSle) :
    P (applyTransaction H answer a tx retryAssured).2.statis (applyTransaction H answer a tx retryAssured).2.promethSle := by
  have hbegin : P (a.begin.entry.value a.begin.promethSle) a.begin.promethSle := by
    rw [Accum.begin, Entry.value_peek]
    exact ha
  have hrun := Prog.run_counts answer hP (tx.prog retryAssured) (H := H) ha hbegin
  rw [applyTransaction]
  split
  next hres =>
    rw [hres] at hrun
    exact hrun
  next hres =>
    rw [hres] at hrun
    exact hP.discard ha hrun

theorem Pass.step_counts (certainRetry : Bool) (tx : Tx σ) {p : Pass σ} (hp : P p.accum.statis p.accum.promethSle) :
    P (p.step H answer certainRetry tx).accum.statis (p.step H answer certainRetry tx).accum.promethSle := by
  have htx := applyTransaction_counts answer hP tx certainRetry (H := H) hp
  rw [Pass.step]
  split
  all_goals
    next hres =>
      rw [hres] at htx
      exact htx

theorem applyPasses_counts (passes pass : ℕ) (certainRetry : Bool) (txns : List (Tx σ)) (failed : List TxID) (count : ℕ)
    (ha : P a.statis a.promethSle) :
    P (applyPasses H answer passes pass certainRetry txns failed count a).2.2.statis
      (applyPasses H answer passes pass certainRetry txns failed count a).2.2.promethSle := by
  induction passes generalizing pass certainRetry txns failed count a with
  | zero => exact ha
  | succ passes ih =>
    have hpass : P (applyPass H answer certainRetry txns failed a).accum.statis
        (applyPass H answer certainRetry txns failed a).accum.promethSle :=
      List.foldlRecOn txns _ (motive := fun p : Pass σ => P p.accum.statis p.accum.promethSle) ha
        fun p hp tx _ => Pass.step_counts answer hP certainRetry tx hp
    rw [applyPasses]
    split
    · exact hpass
    · exact ih _ _ _ _ _ hpass

end Counts

section Statistics

variable {a : Accum σ} {change : Statis → Statis}

/-- Without counts in the node, the ledger gets no entry. -/
def NoEntry (statis : Option Statis) (promethSle : Statis) : Prop :=
  statis = none ∧ promethSle.isCompleteReadData = false

theorem noEntry_kept : CountsKept NoEntry := by
  refine ⟨fun h h' => ⟨h.1, h'.2⟩, fun {entry promethSle} state h => ?_⟩
  cases entry with
  | absent =>
    rw [Entry.updateContractCount, if_neg (by rw [h.2]; exact Bool.false_ne_true)]
    exact h
  | copy sle => cases h.1
  | prometh => cases h.1

theorem NoEntry.updateCount (h : NoEntry a.statis a.promethSle) (change : Statis → Statis) :
    NoEntry (a.updateCount change).statis (a.updateCount change).promethSle := by
  rw [Accum.updateCount, h.1]
  rw [if_neg (by rw [h.2]; exact Bool.false_ne_true)]
  exact h

theorem isCompleteReadData_set {sle : Statis} (h : sle.isCompleteReadData = true) (field : CountField) (count : UInt32) :
    (sle.setFieldU32 field count).isCompleteReadData = true := by
  rw [Statis.isCompleteReadData] at h ⊢
  simp only [Bool.and_eq_true] at h ⊢
  obtain ⟨⟨⟨⟨h₁, h₂⟩, h₃⟩, h₄⟩, h₅⟩ := h
  have hset : ∀ f, (sle f).isSome = true → (sle.setFieldU32 field count f).isSome = true := by
    intro f hf
    rw [Statis.setFieldU32, Function.update_apply]
    split
    · rfl
    · exact hf
  exact ⟨⟨⟨⟨hset _ h₁, hset _ h₂⟩, hset _ h₃⟩, hset _ h₄⟩, hset _ h₅⟩

theorem complete_kept : CountsKept fun _ promethSle => promethSle.isCompleteReadData = true := by
  refine ⟨fun _ h' => h', fun {entry promethSle} state h => ?_⟩
  cases entry with
  | absent =>
    rw [Entry.updateContractCount, if_pos h]
    cases state with
    | CONTRACT_CREATE => exact isCompleteReadData_set h _ _
    | CONTRACT_CALL => exact isCompleteReadData_set h _ _
    | CONTRACT_DESTORY => exact h
  | copy sle => exact h
  | prometh =>
    cases state with
    | CONTRACT_CREATE => exact isCompleteReadData_set h _ _
    | CONTRACT_CALL => exact isCompleteReadData_set h _ _
    | CONTRACT_DESTORY =>
      show (if _ = _ then promethSle else _).isCompleteReadData = true
      split
      · exact h
      · exact isCompleteReadData_set h _ _

theorem updateCount_ne_none (h : a.promethSle.isCompleteReadData = true ∨ a.statis ≠ none) (change : Statis → Statis) :
    (a.updateCount change).statis ≠ none := by
  rw [Accum.updateCount]
  cases hstatis : a.statis with
  | some sle => exact Option.some_ne_none _
  | none =>
    rcases h with h | h
    · rw [if_pos h]
      exact Option.some_ne_none _
    · exact absurd hstatis h

end Statistics

/-! ## Nodes -/

variable {parent : Ledger σ} {close : CloseData} {txns : List (Tx σ)} (chain : Chain σ) {node node' : Node}

/-- The node has the ledger with the storage of its contracts. -/
def Node.Has (H : Hashes) (values : AccountID → Word → Word) (parent : Ledger σ) (node : Node) : Prop :=
  Intact H parent.accounts ⟨fun _ => none, node.helper.nodes⟩ values

theorem buildLedger_same (hstatis : parent.statis ≠ none) (hasks : AskOnly Q txns)
    (hagree : Agree Q node.answer node'.answer) (h : node.Has H values parent)
    (h' : node'.Has H values parent) :
    (buildLedger H chain node parent close txns).1 = (buildLedger H chain node' parent close txns).1 := by
  have hstart : Same H values (Accum.start chain node parent close) (.start chain node' parent close) :=
    ⟨rfl, rfl, hstatis, rfl, ⟨_, _, rfl, Storage.inv_start h, Storage.inv_start h'⟩, rfl⟩
  have hsame := applyTransactions_same node.answer node'.answer hasks hagree hstart
  rw [buildLedger, buildLedger]
  dsimp only [Accum.updateAccountCount]
  rw [← hsame.state]
  have hend := hsame.updateCount (·.addAccount (chain.newAccountCount (chain.newLedger parent.state close)
    (applyTransactions H node.answer txns (.start chain node parent close)).state))
  rw [hend.state, hend.statis, hend.storage.applyContracts, hend.txs]

theorem buildLedger_statis_eq_none (txns : List (Tx σ)) (hstatis : parent.statis = none)
    (hcount : node.promethSle.isCompleteReadData = false) :
    (buildLedger H chain node parent close txns).1.statis = none := by
  have hstart : NoEntry parent.statis node.promethSle := ⟨hstatis, hcount⟩
  refine (NoEntry.updateCount (NoEntry.updateCount ?_ _) _).1
  exact applyPasses_counts node.answer noEntry_kept 3 0 true txns [] 0 hstart

theorem buildLedger_statis_ne_none (parent : Ledger σ) (close : CloseData) (txns : List (Tx σ))
    (hcount : node.promethSle.isCompleteReadData = true) :
    (buildLedger H chain node parent close txns).1.statis ≠ none := by
  refine updateCount_ne_none (.inr (updateCount_ne_none (.inl ?_) _)) _
  exact applyPasses_counts node.answer complete_kept 3 0 true txns [] 0 hcount

/-- A node that has just been started with this store. -/
def Node.fresh (useTables : Bool) (nodes : HashValue → Option SHAMap) : Node :=
  ⟨useTables, useTables, fun _ => 0, fun _ _ => none, fun _ => none, ⟨fun _ => none, nodes⟩⟩

def demoLedger (statis : Option Statis) : Ledger Unit :=
  ⟨⟨true, fun _ => none, ()⟩, statis, fun _ => none, [], ⟨0, true, 10⟩⟩

def demoChain : Chain Unit := ⟨fun state _ => state, fun _ _ => 0, fun state => state⟩

def countedLedger : Ledger Unit := demoLedger (some fun _ => some 0)

/-- The gas price is asked for, and a contract is created and writes to its storage. -/
def demoTx : Tx Unit :=
  ⟨1, fun _ => .ask .getFeeTrack fun _ => .createContractAccount 1 (.updateContractCount .CONTRACT_CREATE
    (.setStore 1 5 7 (.done .Success [])))⟩

section Statements

variable {tx : Statement σ} {metadata : Bytes}

/-- A statement asks about the database only where its table has a rule. -/
theorem sqlStatement_silent (hrule : ∀ s, tx.hasOperationRule s = false) (retryAssured : Bool) :
    ((sqlStatement tx metadata).prog retryAssured).AsksOnly ∅ := by
  intro s
  show (if tx.hasOperationRule s.other then _ else _ : Prog σ).AsksOnly ∅
  rw [if_neg (by rw [hrule]; exact Bool.false_ne_true)]
  intro s'
  dsimp only
  cases tx.applyHandler s' with
  | none => trivial
  | some s'' => trivial

/-- On a node without database, a statement on a table with a rule is no part of the ledger. -/
theorem sqlStatement_fail {a : Accum σ} (hrule : tx.hasOperationRule a.state.other = true)
    (hdatabase : answer a.asked .checkGlobalConnection = none) (retryAssured : Bool) :
    (applyTransaction H answer a (sqlStatement tx metadata) retryAssured).1 = .Fail := by
  have hrun : (((sqlStatement tx metadata).prog retryAssured).run H answer a a.begin).1 = .Fail := by
    show ((if tx.hasOperationRule a.state.other then _ else _ : Prog σ).run H answer a a.begin).1 = _
    rw [if_pos hrule, Prog.run, show a.begin.asked = a.asked from rfl, hdatabase]
    rfl
  rw [applyTransaction]
  split
  next hres =>
    rw [hres] at hrun
    cases hrun
  next hres =>
    rw [hres] at hrun
    exact hrun

end Statements

end Chainsql.Build
