import Chainsql.TableSync.TryLedger

/-!
# Exactly once, in order

The transactions that a table is to get are the `plan` of its chain: those of the ledgers in order,
without the ones that the condition of the synchronisation names. The database is to hold the effects
of a prefix of the plan at any time.

The hash in memory is set before the commit. When a commit fails and the item tries again in the same
process, the hash in memory can therefore say something else than the one in the database, and the
next try starts at the wrong slice. In runs in which this does not happen, the database and the item
stay at one place in the plan.
-/

namespace Chainsql.TableSync

variable {α δ : Type} {store : Store α δ} {cond : SyncCond}

def plan (cond : SyncCond) : List (LedgerData α) → List (Tx α)
  | [] => []
  | data :: rest =>
    match cond.filterLedger data with
    | .jump => plan cond rest
    | .reject => []
    | .advanced => unskipped cond data.txNodes ++ plan cond rest

/-! ## The chain -/

/-- The ledgers of a table with its transactions. -/
structure LedgerChain (α : Type) where
  ledgers : List (LedgerData α)
  increasing : ledgers.Pairwise fun a b => a.ledgerSeq < b.ledgerSeq
  pos : ∀ data ∈ ledgers, 0 < data.ledgerSeq
  ids : ∀ data ∈ ledgers, (data.txNodes.map Tx.id).Nodup
  id_ne_zero : ∀ data ∈ ledgers, ∀ tx ∈ data.txNodes, tx.id ≠ zeroHash

def Jumped (cond : SyncCond) (ledgers : List (LedgerData α)) : Prop :=
  ∀ data ∈ ledgers, cond.filterLedger data = .jump

variable {jumped rest : List (LedgerData α)} {data : LedgerData α}

theorem plan_jumped_append (h : Jumped cond jumped) (rest : List (LedgerData α)) :
    plan cond (jumped ++ rest) = plan cond rest := by
  induction jumped with
  | nil => rfl
  | cons data jumped ih =>
    rw [List.cons_append, plan, h data List.mem_cons_self]
    exact ih fun data hdata => h data (List.mem_cons_of_mem _ hdata)

theorem eq_of_jumped_append {jumped' rest' : List (LedgerData α)} {data' : LedgerData α}
    (hjumped : Jumped cond jumped) (hjumped' : Jumped cond jumped') (hdata : cond.filterLedger data = .advanced)
    (hdata' : cond.filterLedger data' = .advanced) (h : jumped ++ data :: rest = jumped' ++ data' :: rest') :
    data = data' ∧ rest = rest' := by
  have hne : ∀ {l l' : List (LedgerData α)}, Jumped cond (l ++ l') →
      ∀ {d}, cond.filterLedger d = .advanced → d ∉ l' := by
    intro l l' hl d hd hmem
    have := hl d (List.mem_append_right _ hmem)
    rw [hd] at this
    cases this
  rcases List.append_eq_append_iff.mp h with ⟨mid, rfl, hmid⟩ | ⟨mid, rfl, hmid⟩
  · cases mid with
    | nil => exact List.cons.inj hmid
    | cons d mid =>
      obtain ⟨rfl, -⟩ := List.cons.inj hmid
      exact absurd List.mem_cons_self (hne hjumped' hdata)
  · cases mid with
    | nil => exact (List.cons.inj hmid).imp Eq.symm Eq.symm
    | cons d mid =>
      obtain ⟨rfl, -⟩ := List.cons.inj hmid
      exact absurd List.mem_cons_self (hne hjumped hdata')

theorem ledgersAfter_eq {chain : List (LedgerData α)} (hchain : chain.Pairwise fun a b => a.ledgerSeq < b.ledgerSeq)
    {seq : Nat} {front : List (LedgerData α)} (h : ledgersAfter chain seq = front ++ data :: rest) :
    ledgersAfter chain data.ledgerSeq = rest := by
  have hmem : data ∈ ledgersAfter chain seq := by rw [h]; simp
  have hlt : seq < data.ledgerSeq := of_decide_eq_true (List.mem_filter.mp hmem).2
  have hagain : ledgersAfter chain data.ledgerSeq = ledgersAfter (ledgersAfter chain seq) data.ledgerSeq := by
    unfold ledgersAfter
    rw [List.filter_filter]
    refine List.filter_congr fun l _ => ?_
    by_cases hl : data.ledgerSeq < l.ledgerSeq
    · simp [hl, lt_trans hlt hl]
    · simp [hl]
  have hsorted : (ledgersAfter chain seq).Pairwise fun a b => a.ledgerSeq < b.ledgerSeq :=
    hchain.sublist List.filter_sublist
  rw [h] at hsorted
  obtain ⟨-, hrest, hfront⟩ := List.pairwise_append.mp hsorted
  rw [hagain, h]
  unfold ledgersAfter
  rw [List.filter_append, List.filter_cons, if_neg (by simp), List.filter_eq_nil_iff.mpr, List.nil_append,
    List.filter_eq_self.mpr]
  · intro l hl
    exact decide_eq_true ((List.pairwise_cons.mp hrest).1 l hl)
  · intro l hl
    have := hfront l hl data List.mem_cons_self
    simp only [decide_eq_true_eq]
    omega

/-- The database is at a place in the plan, which the row of the status table says: `past` is the plan up to
the last ledger that is done, and `pre` are the slices that are done of the next one. -/
structure Standing (store : Store α δ) (cond : SyncCond) (chain : List (LedgerData α)) (d : δ) (db : Database δ)
    (past : List (Tx α)) (pre : List (List (Tx α))) : Prop where
  recorded : db.recorded = true
  plan_eq : plan cond chain = past ++ plan cond (ledgersAfter chain db.ledgerSeq)
  started : past ++ unskipped cond pre.flatten <+: plan cond chain
  next : ∀ jumped data rest, ledgersAfter chain db.ledgerSeq = jumped ++ data :: rest → Jumped cond jumped →
    cond.filterLedger data = .advanced → ∃ post, fetchLedgerTxSlices data = pre ++ post ∧ (post = [] → pre = [])
  hash : db.txnUpdateHash = hashAt pre
  data_eq : db.data = effects store d (past ++ unskipped cond pre.flatten)

section

variable {chain : List (LedgerData α)} {d : δ} {db : Database δ} {past : List (Tx α)}
  {jumped rest : List (LedgerData α)} {data : LedgerData α} {pre post : List (List (Tx α))}

theorem Standing.between (hrecorded : db.recorded = true)
    (hplan : plan cond chain = past ++ plan cond (ledgersAfter chain db.ledgerSeq))
    (hhash : db.txnUpdateHash = zeroHash) (hdata : db.data = effects store d past) :
    Standing store cond chain d db past [] where
  recorded := hrecorded
  plan_eq := hplan
  started := by
    rw [hplan]
    exact (List.prefix_append_right_inj past).mpr List.nil_prefix
  next _ data _ _ _ _ := ⟨fetchLedgerTxSlices data, rfl, fun _ => rfl⟩
  hash := hhash
  data_eq := by rw [hdata]; exact congrArg _ (List.append_nil past).symm

variable (h : Standing store cond chain d db past pre)
  (hafter : ledgersAfter chain db.ledgerSeq = jumped ++ data :: rest) (hjumped : Jumped cond jumped)
  (hdata : cond.filterLedger data = .advanced)
include h hafter hjumped hdata

theorem Standing.plan_next : plan cond chain = past ++ unskipped cond data.txNodes ++ plan cond rest := by
  rw [h.plan_eq, hafter, plan_jumped_append hjumped, plan, hdata, List.append_assoc]

variable (hchain : chain.Pairwise fun a b => a.ledgerSeq < b.ledgerSeq)
include hchain

theorem Standing.skip (htxs : data.txNodes = []) :
    ∃ past pre, Standing store cond chain d { db with ledgerSeq := data.ledgerSeq } past pre := by
  obtain ⟨post, hslices, hpost⟩ := h.next jumped data rest hafter hjumped hdata
  have hnone : fetchLedgerTxSlices data = [] := by rw [fetchLedgerTxSlices, htxs]; rfl
  rw [hnone] at hslices
  obtain rfl := hpost (List.append_eq_nil_iff.mp hslices.symm).2
  have hplan := h.plan_next hafter hjumped hdata
  rw [htxs, ← ledgersAfter_eq hchain hafter] at hplan
  exact ⟨past ++ [], [], .between h.recorded hplan h.hash h.data_eq⟩

theorem Standing.place {task : Task store cond} (htask : task.data = data) (hseq : task.base.ledgerSeq = db.ledgerSeq)
    (hbase : task.base.data = effects store d past) {pre' : List (List (Tx α))} (hslices : task.slices = pre' ++ post) :
    ∃ past pre, Standing store cond chain d (task.place pre' post) past pre := by
  subst htask
  have hplan := h.plan_next hafter hjumped hdata
  have hflat := task.flatten_slices
  rw [hslices, List.flatten_append] at hflat
  cases post with
  | nil =>
    rw [← ledgersAfter_eq hchain hafter] at hplan
    refine ⟨_, [], .between rfl hplan rfl ?_⟩
    rw [Task.place, hbase, ← effects_append, ← hflat, List.flatten_nil, List.append_nil]
  | cons slice post =>
    refine ⟨past, pre', rfl, ?_, ?_, fun jumped' data' rest' hafter' hjumped' hdata' => ?_, rfl, ?_⟩
    · show _ = past ++ plan cond (ledgersAfter chain task.base.ledgerSeq)
      rw [hseq, h.plan_eq]
    · rw [hplan, ← hflat, unskipped_append, List.append_assoc, List.append_assoc]
      exact (List.prefix_append_right_inj past).mpr (List.prefix_append _ _)
    · rw [show (task.place pre' (slice :: post)).ledgerSeq = db.ledgerSeq from hseq, hafter] at hafter'
      obtain ⟨rfl, -⟩ := eq_of_jumped_append hjumped hjumped' hdata hdata' hafter'
      exact ⟨slice :: post, hslices, fun hnil => absurd hnil (List.cons_ne_nil _ _)⟩
    · rw [Task.place, hbase, ← effects_append]

end

/-! ## Runs -/

/-- Every fault that is followed by another try is harmless. -/
def Trouble.Mild (data : LedgerData α) (trouble : Trouble) : Prop :=
  Recoverable (maxConnRetryCount + 1) (fetchLedgerTxSlices data).length trouble.faults

/-- The item agrees with the database, and the ledgers to come are those that follow it. -/
structure InStep (cond : SyncCond) (chain : List (LedgerData α)) (item : Item δ) (pending : List (LedgerData α)) :
    Prop where
  item_eq : item = .reload item.db
  after : ∃ jumped, Jumped cond jumped ∧ ledgersAfter chain item.db.ledgerSeq = jumped ++ pending

/-- The database is at a place in the plan, and the item with it unless it has stopped. -/
structure Synced (store : Store α δ) (cond : SyncCond) (chain : List (LedgerData α)) (d : δ) (item : Item δ)
    (pending : List (LedgerData α)) : Prop where
  standing : ∃ past pre, Standing store cond chain d item.db past pre
  inStep : item.stopped = false → InStep cond chain item pending

section

variable {chain : LedgerChain α} {d : δ} {item : Item δ} {data : LedgerData α} {rest pending : List (LedgerData α)}

theorem Synced.dealWithLedger (hplain : Plain store d (plan cond chain.ledgers))
    (h : Synced store cond chain.ledgers d item (data :: rest)) (hrunning : item.stopped = false) {trouble : Trouble}
    (hmild : trouble.Mild data) :
    Synced store cond chain.ledgers d (TableSync.dealWithLedger store cond data trouble item) rest := by
  obtain ⟨hitem, jumped, hjumped, hafter⟩ := h.inStep hrunning
  obtain ⟨past, pre, hs⟩ := h.standing
  have hmem : data ∈ chain.ledgers := by
    refine (List.mem_filter.mp (?_ : data ∈ ledgersAfter chain.ledgers item.db.ledgerSeq)).1
    rw [hafter]
    simp
  unfold TableSync.dealWithLedger
  cases hfilter : cond.filterLedger data with
  | jump =>
    refine ⟨h.standing, fun _ => ⟨hitem, jumped ++ [data], ?_, ?_⟩⟩
    · intro l hl
      rcases List.mem_append.mp hl with hl | hl
      · exact hjumped l hl
      · rw [List.mem_singleton.mp hl]
        exact hfilter
    · rw [hafter, List.append_assoc, List.singleton_append]
  | reject => exact ⟨h.standing, fun hstopped => Bool.noConfusion hstopped⟩
  | advanced =>
    by_cases htxs : data.txNodes = []
    · have hnamed : item.named = true := by rw [hitem]; rfl
      have hstanding := hs.skip hafter hjumped hfilter chain.increasing htxs
      rw [if_pos (List.isEmpty_iff.mpr htxs), if_pos (by rw [hnamed, hs.recorded]; rfl)]
      cases trouble.update with
      | none =>
        refine ⟨hstanding, fun _ => ⟨?_, [], fun _ hl => absurd hl List.not_mem_nil, ?_⟩⟩
        · rw [hitem]
          rfl
        · exact ledgersAfter_eq chain.increasing hafter
      | some landed =>
        refine ⟨?_, fun hstopped => Bool.noConfusion hstopped⟩
        cases landed
        · exact h.standing
        · exact hstanding
    · rw [if_neg fun hempty => htxs (List.isEmpty_iff.mp hempty)]
      obtain ⟨post, hslices, hpre⟩ := hs.next jumped data rest hafter hjumped hfilter
      let task : Task store cond := ⟨data, { item.db with data := effects store d past }, chain.ids data hmem,
        chain.id_ne_zero data hmem, hplain.middle (hs.plan_next hafter hjumped hfilter)⟩
      have hpost : post ≠ [] := by
        rintro rfl
        obtain rfl := hpre rfl
        exact htxs (task.flatten_slices.symm.trans (congrArg List.flatten hslices))
      have hdb : item.db = task.place pre post := by
        have hrecorded := hs.recorded
        have hhash := hs.hash
        have hdata := hs.data_eq
        rw [effects_append] at hdata
        rw [Task.place, if_neg fun hnil => hpost (List.isEmpty_iff.mp hnil),
          if_neg fun hnil => hpost (List.isEmpty_iff.mp hnil), ← hhash]
        show item.db = ⟨effects store (effects store d past) _, _, _, true⟩
        rw [← hdata, ← hrecorded]
      rw [hitem, hdb]
      obtain ⟨hdone, pre', post', hslices', hdb'⟩ := task.tryLedger_place hmild hslices hpost rfl
      refine ⟨hdb' ▸ hs.place hafter hjumped hfilter chain.increasing rfl rfl rfl hslices', fun hrunning => ?_⟩
      rw [hdone hrunning]
      exact ⟨rfl, [], fun _ hl => absurd hl List.not_mem_nil, ledgersAfter_eq chain.increasing hafter⟩

theorem Synced.dealWithEveryLedgerData (hplain : Plain store d (plan cond chain.ledgers)) {troubles : List Trouble}
    (h : Synced store cond chain.ledgers d item pending) (hrunning : item.stopped = false)
    (hmild : ∀ p ∈ pending.zip troubles, p.2.Mild p.1) :
    Synced store cond chain.ledgers d (TableSync.dealWithEveryLedgerData store cond (pending.zip troubles) item)
      (pending.drop troubles.length) := by
  induction troubles generalizing pending item with
  | nil =>
    rw [List.zip_nil_right]
    exact h
  | cons trouble troubles ih =>
    cases pending with
    | nil => exact h
    | cons data rest =>
      rw [List.zip_cons_cons, TableSync.dealWithEveryLedgerData]
      have hnext := h.dealWithLedger hplain hrunning (hmild (data, trouble) List.mem_cons_self)
      split
      next hstopped => exact ⟨hnext.standing, fun hrunning' => by rw [hstopped] at hrunning'; cases hrunning'⟩
      next hgoing =>
        exact ih hnext (Bool.eq_false_of_not_eq_true hgoing) fun p hp => hmild p (List.mem_cons_of_mem _ hp)

end

/-- The condition on a step: a commit that fails is followed by another try only if the hash in memory
is the one in the database. -/
def Steady (s : Sync α δ) : SyncEvent → Prop
  | .deal troubles => ∀ p ∈ s.pending.zip troubles, p.2.Mild p.1
  | .restart => True

def Sync.start (chain : LedgerChain α) (d : δ) : Sync α δ := ⟨.reload { data := d }, chain.ledgers⟩

theorem Synced.handle {chain : LedgerChain α} {d : δ} (hplain : Plain store d (plan cond chain.ledgers))
    {s : Sync α δ} (h : Synced store cond chain.ledgers d s.item s.pending) {event : SyncEvent}
    (hsteady : Steady s event) :
    Synced store cond chain.ledgers d (s.handle store cond chain.ledgers event).item
      (s.handle store cond chain.ledgers event).pending := by
  cases event with
  | restart => exact ⟨h.standing, fun _ => ⟨rfl, [], fun _ hl => absurd hl List.not_mem_nil, rfl⟩⟩
  | deal troubles =>
    unfold Sync.handle
    dsimp only
    split
    · exact h
    next hrunning => exact h.dealWithEveryLedgerData hplain (Bool.eq_false_of_not_eq_true hrunning) hsteady

theorem Synced.start (chain : LedgerChain α) (d : δ) :
    Synced store cond chain.ledgers d (Sync.start chain d).item (Sync.start chain d).pending := by
  have hall : ledgersAfter chain.ledgers 0 = chain.ledgers :=
    List.filter_eq_self.mpr fun data hdata => decide_eq_true (chain.pos data hdata)
  refine ⟨⟨[], [], .between rfl ?_ rfl rfl⟩, fun _ => ⟨rfl, [], fun _ hl => absurd hl List.not_mem_nil, hall⟩⟩
  exact congrArg (plan cond) hall.symm

/-- In a run of steady steps the database holds, at any time, the effects of the first transactions of
the plan, each applied once and in order. -/
theorem exactly_once (store : Store α δ) (cond : SyncCond) (chain : LedgerChain α) (d : δ)
    (hplain : Plain store d (plan cond chain.ledgers)) (events : List SyncEvent)
    (hsteady : Run.Along (Sync.handle store cond chain.ledgers) Steady (Sync.start chain d) events) :
    ∃ n, (Run.final (Sync.handle store cond chain.ledgers) (Sync.start chain d) events).item.db.data
      = effects store d ((plan cond chain.ledgers).take n) := by
  have hsound : Synced store cond chain.ledgers d
      (Run.final (Sync.handle store cond chain.ledgers) (Sync.start chain d) events).item
      (Run.final (Sync.handle store cond chain.ledgers) (Sync.start chain d) events).pending :=
    hsteady.invariant (.start chain d) fun s event (h : Synced store cond chain.ledgers d s.item s.pending) hok =>
      h.handle hplain hok
  obtain ⟨past, pre, hstanding⟩ := hsound.standing
  exact ⟨_, by rw [hstanding.data_eq, ← List.prefix_iff_eq_take.mp hstanding.started]⟩

def demoStore : Store Nat (List Nat) where
  dispose stmt d := some (d ++ [stmt.body])
  dropTable d := d

def demoLedger : LedgerData Nat where
  ledgerSeq := 7
  ledgerHash := 70
  ledgerCheckHash := 70
  lastLedgerSeq := 0
  lastLedgerHash := 0
  txNodes := [⟨1, false, [⟨.create, 1⟩], [⟨.create, 1⟩]⟩, ⟨2, true, [⟨.other, 2⟩], [⟨.other, 2⟩]⟩]
  seekStop := false

def demoLedgers : LedgerChain Nat where
  ledgers := [demoLedger]
  increasing := by simp
  pos := by simp [demoLedger]
  ids := by simp [demoLedger]
  id_ne_zero := by simp [demoLedger]

theorem execute_demoStore (stmts : List (Statement Nat)) (d : List Nat) : (execute demoStore stmts d).2 = none := by
  induction stmts generalizing d with
  | nil => rfl
  | cons stmt rest ih => exact ih _

theorem plain_demoStore (d : List Nat) {txs : List (Tx Nat)}
    (h : ∀ tx ∈ txs, ∀ stmt ∈ tx.statements, stmt.opType ≠ .drop) : Plain demoStore d txs := by
  rintro before tx after rfl earlier -
  refine ⟨h tx (by simp), fun _ _ _ => ⟨rfl, rfl⟩, fun stmt hstmt => ?_⟩
  rw [execute_demoStore] at hstmt
  cases hstmt

theorem exactly_once_demoLedgers :
    ∃ n, (Run.final (Sync.handle demoStore {} demoLedgers.ledgers) (Sync.start demoLedgers [])
        [.deal [{ faults := [some ⟨0, .commit true, false⟩] }], .restart]).item.db.data
      = effects demoStore [] ((plan {} demoLedgers.ledgers).take n) := by
  refine exactly_once demoStore {} demoLedgers [] (plain_demoStore [] (by decide)) _ ⟨?_, trivial, trivial⟩
  intro p hp k _ fault hfault _
  obtain rfl : p = (demoLedger, { faults := [some ⟨0, .commit true, false⟩] }) :=
    List.mem_singleton.mp hp
  cases k with
  | zero =>
    cases hfault
    rfl
  | succ k => cases hfault

/-- A commit of the first slice that fails is taken for done by the next try: the second transaction is
applied to a table that has not been created. -/
theorem first_slice_skipped :
    ¬ ∃ n, (Run.final (Sync.handle demoStore {} demoLedgers.ledgers) (Sync.start demoLedgers [])
        [.deal [{ faults := [some ⟨0, .commit false, false⟩] }]]).item.db.data
      = effects demoStore [] ((plan {} demoLedgers.ledgers).take n) := by
  rintro ⟨n, hn⟩
  match n with
  | 0 => exact absurd hn (by decide)
  | 1 => exact absurd hn (by decide)
  | n + 2 =>
    rw [List.take_of_length_le (Nat.le_add_left 2 n)] at hn
    exact absurd hn (by decide)

end Chainsql.TableSync
