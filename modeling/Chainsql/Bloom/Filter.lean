import Chainsql.Bloom.Header
import Chainsql.Bloom.Matcher

/-!
# Queries for the logs of a range of ledgers

`Logs` asks the index for the ledgers of the range that are indexed, and scans the rest. It should report
what a scan of the whole range does.
-/

namespace Chainsql.Bloom

open Evm (AccountID Bytes LogEntry Word)

section

variable (hash : Hash)

def bloomFilter (bloom : UInt2048) (addresses : List AccountID) (topics : List (List Word)) : Bool :=
  (addresses.isEmpty || addresses.any fun address => bloomLookup hash bloom (addressBytes address)) &&
    topics.all fun sub => sub.isEmpty || sub.any fun topic => bloomLookup hash bloom topic.toBytes

def filterLogs (unfilteredLogs : List Log) (first last : Nat) (addresses : List AccountID)
    (topics : List (List Word)) : List Log :=
  unfilteredLogs.filter fun log =>
    !(0 < first && log.blockNumber < first) && !(0 < last && last < log.blockNumber) &&
      (addresses.isEmpty || addresses.contains log.entry.account) &&
      decide (topics.length ≤ log.entry.topics.length) &&
      (topics.zip log.entry.topics).all fun (sub, topic) => sub.isEmpty || sub.contains topic

/-- A filter that `newRangeFilter` has made, for a range of ledgers that have bloom filters. -/
structure RangeFilter (bloomStart : Nat) where
  from_ : Nat
  to_ : Nat
  addresses : List AccountID
  topics : List (List Word)
  bloomStart_le : bloomStart ≤ from_
  from_le : from_ ≤ to_
  to_lt : to_ < 2 ^ 32

variable {bloomStart : Nat} (q : RangeFilter bloomStart)

/-- What the matcher of the filter is made of. -/
def RangeFilter.filters : List (List Bytes) :=
  (q.addresses.map addressBytes :: q.topics.map (List.map Word.toBytes)).filter fun f => !f.isEmpty

def checkMatches (ledger : Ledger) : List Log × Bool :=
  if ledger.logs.2 then (filterLogs ledger.logs.1 0 0 q.addresses q.topics, true) else ledger.logs

def blockLogs (ledger : Ledger) : List Log × Bool :=
  if bloomFilter hash ledger.bloom q.addresses q.topics then checkMatches q ledger else ([], false)

variable (chain : LedgerMaster)

def ledgerLogs (seq : Nat) : List Log :=
  match chain seq with
  | none => []
  | some ledger => if (blockLogs hash q ledger).2 then (blockLogs hash q ledger).1 else []

/-- The loop up to `to_`. -/
def unindexedLogs : Nat → Nat → Option (List Log)
  | 0, _ => none
  | fuel + 1, seq =>
    if q.to_ < seq then some []
    else do
      let logs ← unindexedLogs fuel ((seq + 1) % 2 ^ 32)
      return ledgerLogs hash q chain seq ++ logs

variable (ix : Indexer)

/-- The logs, and the next value of `from_`. -/
def indexedLogs (fuel last : Nat) : Option (List Log × Nat) := do
  let matchedLedgers ← execute bloomStart chain ix (newMatcher hash q.filters) fuel q.from_ q.to_
  return (matchedLedgers.flatMap (ledgerLogs hash q chain), (last + 1) % 2 ^ 32)

/-- The part of `Logs` before the scan. -/
def indexedPart (fuel : Nat) : Option (List Log × Nat) :=
  let indexed := (getSectionRange bloomStart (sub32 ix.storedSections 1)).2
  if q.from_ ≤ indexed then indexedLogs hash q chain ix fuel (if q.to_ < indexed then q.to_ else indexed)
  else some ([], q.from_)

def Logs (fuel : Nat) : Option (List Log × Bool) := do
  let (logs, from_) ← indexedPart hash q chain ix fuel
  let unindexed ← unindexedLogs hash q chain fuel from_
  return (logs ++ unindexed, true)

/-- What `blockLogs` finds in the ledgers of a range, one by one. -/
def scan (first last : Nat) : List Log := (List.range' first (last + 1 - first)).flatMap (ledgerLogs hash q chain)

variable (bloomStart) in
def indexedEnd : Nat := bloomStart + ix.storedSections * DEFAULT_SECTION_SIZE

/-- The loops end. Where a part of the range is indexed, no ledger that is jumped over has logs for the
query, and for a query that matches everything no ledger after the indexed ones has any. -/
structure Exact : Prop where
  ends : q.to_ ≠ 2 ^ 32 - 1
  no_wrap : q.from_ < indexedEnd bloomStart ix →
    ¬Wraps bloomStart hash chain ix q.filters q.from_ q.to_
  none_jumped : ∀ i, q.from_ ≤ i → i ≤ q.to_ → i < indexedEnd bloomStart ix →
    Jumped bloomStart hash chain ix q.filters q.from_ i → ledgerLogs hash q chain i = []
  none_twice : q.from_ < indexedEnd bloomStart ix → q.filters = [] →
    ∀ i, indexedEnd bloomStart ix ≤ i → i ≤ q.to_ → Straight bloomStart i →
      ledgerLogs hash q chain i = []

end

variable {bloomStart : Nat} {hash : Hash} {chain : LedgerMaster} {ix : Indexer} {q : RangeFilter bloomStart}

theorem mem_filters_ne_nil : ∀ f ∈ q.filters, f ≠ [] := by
  intro f hf
  have hne := (List.mem_filter.mp hf).2
  rintro rfl
  cases hne

theorem bloomFilter_iff (bloom : UInt2048) : bloomFilter hash bloom q.addresses q.topics = true ↔
    ∀ f ∈ q.filters, ∃ datum ∈ f, bloomLookup hash bloom datum = true := by
  have hlist : ∀ f : List Bytes, ((!f.isEmpty) = true → ∃ datum ∈ f, bloomLookup hash bloom datum = true) ↔
      (f.isEmpty || f.any (bloomLookup hash bloom)) = true := by
    intro f
    cases f <;> simp
  simp only [RangeFilter.filters, List.mem_filter, and_imp, hlist, List.forall_mem_cons, List.forall_mem_map,
    List.isEmpty_map, List.any_map]
  rw [bloomFilter, Bool.and_eq_true, List.all_eq_true]
  rfl

/-! ## The loops -/

variable {seq i first : Nat}

theorem unindexedLogs_eq (hto : q.to_ < 2 ^ 32 - 1) {fuel : Nat} (hfuel : q.to_ + 1 - seq < fuel) :
    unindexedLogs hash q chain fuel seq = some (scan hash q chain seq q.to_) := by
  induction fuel generalizing seq with
  | zero => exact absurd hfuel (Nat.not_lt_zero _)
  | succ fuel ih =>
    unfold unindexedLogs scan
    by_cases hend : q.to_ < seq
    · rw [if_pos hend, show q.to_ + 1 - seq = 0 by omega]
      rfl
    · have hlen : q.to_ + 1 - seq = q.to_ + 1 - (seq + 1) + 1 := by omega
      rw [if_neg hend, Nat.mod_eq_of_lt (by omega), ih (by omega), hlen, List.range'_succ]
      rfl

theorem unindexedLogs_eq_none (hto : q.to_ = 2 ^ 32 - 1) (hseq : seq < 2 ^ 32) (fuel : Nat) :
    unindexedLogs hash q chain fuel seq = none := by
  induction fuel generalizing seq with
  | zero => rfl
  | succ fuel ih =>
    rw [unindexedLogs, if_neg (by omega), ih (Nat.mod_lt _ (by decide))]
    rfl

theorem unindexedLogs_mono (seq : Nat) : Fuel.Mono fun fuel => unindexedLogs hash q chain fuel seq := by
  intro fuel logs h
  induction fuel generalizing seq logs with
  | zero => cases h
  | succ fuel ih =>
    simp only at h ih ⊢
    unfold unindexedLogs at h ⊢
    split at h
    next hend =>
      rw [if_pos hend]
      exact h
    next hend =>
      rw [if_neg hend]
      obtain ⟨rest, hrest, h⟩ := Option.bind_eq_some_iff.mp h
      exact Option.bind_eq_some_iff.mpr ⟨rest, ih _ _ hrest, h⟩

theorem Logs_mono : Fuel.Mono (Logs hash q chain ix) := by
  have hpart : Fuel.Mono (indexedPart hash q chain ix) :=
    .ite ((execute_mono _ _ _).bind fun matched => Fuel.mono_const _) (Fuel.mono_const _)
  exact hpart.bind fun part => (unindexedLogs_mono part.2).bind fun logs => Fuel.mono_const _

theorem indexed_eq (hstart : 0 < bloomStart) (hix : Indexed bloomStart chain ix) :
    (getSectionRange bloomStart (sub32 ix.storedSections 1)).2 = indexedEnd bloomStart ix - 1 := by
  have hfits := hix.fits
  unfold getSectionRange sub32 indexedEnd
  unfold DEFAULT_SECTION_SIZE at hfits ⊢
  rcases Nat.eq_zero_or_pos ix.storedSections with hzero | hpos
  · omega
  · have hprev : (ix.storedSections + 2 ^ 32 - 1 % 2 ^ 32) % 2 ^ 32 = ix.storedSections - 1 := by omega
    rw [hprev, show ix.storedSections - 1 + 1 = ix.storedSections by omega]
    exact Nat.mod_eq_of_lt (by omega)

/-! ## The scan and the indexed part -/

theorem flatMap_filter_eq_iff {α β : Type} {l : List α} {p : α → Bool} {f : α → List β} :
    (l.filter p).flatMap f = l.flatMap f ↔ ∀ x ∈ l, p x = false → f x = [] := by
  have hsplit : (l.flatMap f).length = ((l.filter p).flatMap f).length + ((l.filter (!p ·)).flatMap f).length := by
    rw [← List.length_append, ← List.flatMap_append]
    exact ((List.filter_append_perm p l).flatMap_right f).length_eq.symm
  constructor
  · intro h x hx hp
    rw [h, Nat.left_eq_add, List.length_eq_zero_iff, List.flatMap_eq_nil_iff] at hsplit
    exact hsplit x (List.mem_filter.mpr ⟨hx, by rw [hp]; rfl⟩)
  · intro h
    refine (List.filter_sublist.flatMap f).eq_of_length ?_
    rw [hsplit, Nat.left_eq_add, List.length_eq_zero_iff, List.flatMap_eq_nil_iff]
    intro x hx
    exact h x (List.mem_of_mem_filter hx) (by simpa using List.of_mem_filter hx)

theorem ledgerLogs_of_not_found (h : ¬∀ f ∈ q.filters, Found hash chain i f) : ledgerLogs hash q chain i = [] := by
  unfold ledgerLogs
  split
  · rfl
  next ledger hledger =>
    have hfilter : ¬bloomFilter hash ledger.bloom q.addresses q.topics = true := by
      rw [bloomFilter_iff]
      intro hall
      refine h fun f hf => ?_
      obtain ⟨datum, hdatum, hlookup⟩ := hall f hf
      exact ⟨datum, hdatum, ledger, hledger, hlookup⟩
    rw [blockLogs, if_neg hfilter]
    rfl

theorem stored_iff (hi : bloomStart ≤ i) :
    (i - bloomStart) / DEFAULT_SECTION_SIZE < ix.storedSections ↔ i < indexedEnd bloomStart ix := by
  rw [Nat.div_lt_iff_lt_mul (by decide), indexedEnd]
  omega

theorem Indexed.straight (hix : Indexed bloomStart chain ix) (hi : bloomStart ≤ i)
    (hlt : i < indexedEnd bloomStart ix) : Straight bloomStart i := by
  have hsec := (stored_iff hi).mpr hlt
  have hfits := hix.fits
  refine (Nat.add_le_add_left (Nat.mul_le_mul_right _ hsec) _).trans hfits

theorem range'_split (mid : Nat) {last : Nat} (hle : first ≤ mid) (hmid : mid ≤ last + 1) :
    List.range' first (last + 1 - first) = List.range' first (mid - first) ++ List.range' mid (last + 1 - mid) := by
  have happend := List.range'_append_1 (s := first) (m := mid - first) (n := last + 1 - mid)
  rw [show first + (mid - first) = mid by omega] at happend
  rw [happend]
  congr 1
  omega

/-- The ledgers of the range that the matcher finds. -/
def Picked (hash : Hash) (q : RangeFilter bloomStart) (chain : LedgerMaster) (ix : Indexer) (p : Nat → Bool) : Prop :=
  ∀ i, q.from_ ≤ i → i ≤ q.to_ → (p i = true ↔ Straight bloomStart i ∧
    Hit bloomStart hash chain ix q.filters i ∧ ¬Jumped bloomStart hash chain ix q.filters q.from_ i)

def pickedLogs (hash : Hash) (q : RangeFilter bloomStart) (chain : LedgerMaster) (p : Nat → Bool) (mid : Nat) :
    List Log :=
  ((List.range' q.from_ (mid - q.from_)).filter p).flatMap (ledgerLogs hash q chain) ++
    ((List.range' mid (q.to_ + 1 - mid)).filter p).flatMap (ledgerLogs hash q chain)

/-- With enough fuel `Logs` is what is left of the indexed part, and the scan of the rest. -/
theorem Logs_eq (hstart : 0 < bloomStart) (hix : Indexed bloomStart chain ix) (hto : q.to_ < 2 ^ 32 - 1)
    (hfrom : q.from_ < indexedEnd bloomStart ix) (hwraps : ¬Wraps bloomStart hash chain ix q.filters q.from_ q.to_)
    {mid : Nat} (hmid : mid = min (indexedEnd bloomStart ix) (q.to_ + 1)) :
    ∃ p, Picked hash q chain ix p ∧
      ∃ fuel, Logs hash q chain ix fuel = some (pickedLogs hash q chain p mid ++ scan hash q chain mid q.to_, true) := by
  have hle := q.from_le
  obtain ⟨matched, hexecute, hsorted, hmem⟩ := execute_spec hix mem_filters_ne_nil q.bloomStart_le hle hto hwraps
    (Nat.lt_succ_self (q.to_ + 1))
  refine ⟨fun i => decide (i ∈ matched), fun i hge hle => ?_, q.to_ + 1 + 1, ?_⟩
  · rw [decide_eq_true_iff, hmem]
    exact and_iff_right ⟨hge, hle⟩
  · have hmatched : matched = (List.range' q.from_ (q.to_ + 1 - q.from_)).filter fun i => decide (i ∈ matched) := by
      refine hsorted.eq_of_mem_iff (List.Pairwise.filter _ List.pairwise_lt_range') fun i => ?_
      rw [List.mem_filter, decide_eq_true_iff, List.mem_range'_1]
      constructor
      · intro hin
        have hrange := ((hmem i).mp hin).1
        exact ⟨by omega, hin⟩
      · exact And.right
    have hpart : indexedPart hash q chain ix (q.to_ + 1 + 1) = some (matched.flatMap (ledgerLogs hash q chain), mid) := by
      have hend : ((if q.to_ < indexedEnd bloomStart ix - 1 then q.to_ else indexedEnd bloomStart ix - 1) + 1) % 2 ^ 32 =
          mid := by
        split <;> omega
      rw [indexedPart, indexed_eq hstart hix, if_pos (by omega), indexedLogs, hexecute, ← hend]
      rfl
    have hlogs := congrArg (List.flatMap (ledgerLogs hash q chain)) hmatched
    rw [range'_split mid (by omega) (by omega), List.filter_append, List.flatMap_append] at hlogs
    rw [Logs, hpart]
    change (unindexedLogs hash q chain (q.to_ + 1 + 1) mid >>= fun unindexed =>
      some (matched.flatMap (ledgerLogs hash q chain) ++ unindexed, true)) = _
    rw [unindexedLogs_eq hto (by omega), hlogs]
    rfl

theorem not_jumped_of_filters_nil (hnil : q.filters = []) : ¬Jumped bloomStart hash chain ix q.filters first i := by
  rintro ⟨-, -, hge, hquiet⟩
  rw [hnil] at hquiet
  refine hquiet (8 * (i / 8)) (by omega) rfl fun f hf => ?_
  cases hf

section Picked

variable {mid : Nat} {p : Nat → Bool} (hix : Indexed bloomStart chain ix)
  (hmid : mid = min (indexedEnd bloomStart ix) (q.to_ + 1)) (hp : Picked hash q chain ix p)
  (hfrom : q.from_ < indexedEnd bloomStart ix)
include hix hmid hp hfrom

/-- Without filters all ledgers of the range match, those behind the index as well. -/
theorem pickedLogs_eq_iff_of_filters_nil (hnil : q.filters = []) :
    pickedLogs hash q chain p mid = (List.range' q.from_ (mid - q.from_)).flatMap (ledgerLogs hash q chain) ↔
    ∀ i, indexedEnd bloomStart ix ≤ i → i ≤ q.to_ → Straight bloomStart i → ledgerLogs hash q chain i = [] := by
  have hstraight : ∀ i, q.from_ ≤ i → i ≤ q.to_ → (p i = true ↔ Straight bloomStart i) := by
    intro i hge hle
    rw [hp i hge hle]
    refine and_iff_left ⟨fun f hf => ?_, not_jumped_of_filters_nil hnil⟩
    rw [hnil] at hf
    cases hf
  have hall : (List.range' q.from_ (mid - q.from_)).filter p = List.range' q.from_ (mid - q.from_) := by
    refine List.filter_eq_self.mpr fun i hi => ?_
    rw [List.mem_range'_1] at hi
    exact (hstraight i hi.1 (by omega)).mpr (hix.straight (q.bloomStart_le.trans hi.1) (by omega))
  rw [pickedLogs, hall, List.append_right_eq_self, List.flatMap_eq_nil_iff]
  constructor
  · intro h i hge hle hs
    refine h i (List.mem_filter.mpr ⟨?_, (hstraight i (by omega) hle).mpr hs⟩)
    rw [List.mem_range'_1]
    omega
  · intro h i hi
    obtain ⟨hi, hpi⟩ := List.mem_filter.mp hi
    rw [List.mem_range'_1] at hi
    exact h i (by omega) (by omega) ((hstraight i (by omega) (by omega)).mp hpi)

theorem pickedLogs_eq_iff_of_filters_ne_nil (hne : q.filters ≠ []) :
    pickedLogs hash q chain p mid = (List.range' q.from_ (mid - q.from_)).flatMap (ledgerLogs hash q chain) ↔
    ∀ i, q.from_ ≤ i → i ≤ q.to_ → i < indexedEnd bloomStart ix →
      Jumped bloomStart hash chain ix q.filters q.from_ i → ledgerLogs hash q chain i = [] := by
  have hstart := q.bloomStart_le
  have hnone : (List.range' mid (q.to_ + 1 - mid)).filter p = [] := by
    rw [List.filter_eq_nil_iff]
    intro i hi hpi
    rw [List.mem_range'_1] at hi
    obtain ⟨f, hf⟩ := List.exists_mem_of_ne_nil _ hne
    have hstored := (((hp i (by omega) (by omega)).mp hpi).2.1 f hf).1
    rw [stored_iff (by omega)] at hstored
    omega
  rw [pickedLogs, hnone, List.flatMap_nil, List.append_nil, flatMap_filter_eq_iff]
  constructor
  · intro h i hge hle hlt hjumped
    refine h i ?_ ?_
    · rw [List.mem_range'_1]
      omega
    · rw [Bool.eq_false_iff, Ne, hp i hge hle]
      exact fun hin => hin.2.2 hjumped
  · intro h i hi hpi
    rw [List.mem_range'_1] at hi
    have hlt : i < indexedEnd bloomStart ix := by omega
    rw [Bool.eq_false_iff, Ne, hp i hi.1 (by omega)] at hpi
    by_cases hjumped : Jumped bloomStart hash chain ix q.filters q.from_ i
    · exact h i hi.1 (by omega) hlt hjumped
    · refine ledgerLogs_of_not_found fun hfound => hpi ⟨hix.straight (by omega) hlt, fun f hf => ?_, hjumped⟩
      exact ⟨(stored_iff (by omega)).mpr hlt, hfound f hf⟩

end Picked

theorem Logs_eq_none_of_last (hto : q.to_ = 2 ^ 32 - 1) (fuel : Nat) : Logs hash q chain ix fuel = none := by
  rw [Option.eq_none_iff_forall_not_mem]
  intro result hresult
  obtain ⟨⟨logs, from_⟩, hpart, hrest⟩ := Option.bind_eq_some_iff.mp hresult
  have hlt : from_ < 2 ^ 32 := by
    simp only [indexedPart] at hpart
    split at hpart
    · obtain ⟨matched, -, hpart⟩ := Option.bind_eq_some_iff.mp hpart
      cases hpart
      exact Nat.mod_lt _ (by decide)
    · cases hpart
      have hle := q.from_le
      omega
  simp only [unindexedLogs_eq_none hto hlt] at hrest
  cases hrest

theorem Logs_eq_none_of_wraps (hstart : 0 < bloomStart) (hix : Indexed bloomStart chain ix)
    (hfrom : q.from_ < indexedEnd bloomStart ix) (hwraps : Wraps bloomStart hash chain ix q.filters q.from_ q.to_)
    (fuel : Nat) : Logs hash q chain ix fuel = none := by
  rw [Logs, indexedPart, indexed_eq hstart hix, if_pos (by omega), indexedLogs,
    execute_eq_none hix mem_filters_ne_nil q.bloomStart_le q.to_lt hwraps]
  rfl

theorem Logs_eq_scan (hstart : 0 < bloomStart) (hix : Indexed bloomStart chain ix) (hto : q.to_ < 2 ^ 32 - 1)
    (hfrom : indexedEnd bloomStart ix ≤ q.from_) :
    Logs hash q chain ix (q.to_ + 1 + 1) = some (scan hash q chain q.from_ q.to_, true) := by
  have hpos : 0 < indexedEnd bloomStart ix := Nat.lt_of_lt_of_le hstart (Nat.le_add_right _ _)
  have hpart : indexedPart hash q chain ix (q.to_ + 1 + 1) = some ([], q.from_) := by
    rw [indexedPart, indexed_eq hstart hix, if_neg (by omega)]
  rw [Logs, hpart]
  change (unindexedLogs hash q chain (q.to_ + 1 + 1) q.from_ >>= fun unindexed => some ([] ++ unindexed, true)) = _
  rw [unindexedLogs_eq hto (by omega)]
  rfl

theorem Indexed.returns_scan_iff (hstart : 0 < bloomStart) (hix : Indexed bloomStart chain ix) :
    Fuel.Returns (Logs hash q chain ix) (scan hash q chain q.from_ q.to_, true) ↔ Exact hash q chain ix := by
  have hle := q.from_le
  have hlt := q.to_lt
  by_cases hto : q.to_ = 2 ^ 32 - 1
  · constructor
    · rintro ⟨fuel, h⟩
      rw [Logs_eq_none_of_last hto] at h
      cases h
    · intro h
      exact absurd hto h.ends
  by_cases hfrom : q.from_ < indexedEnd bloomStart ix
  · by_cases hwraps : Wraps bloomStart hash chain ix q.filters q.from_ q.to_
    · constructor
      · rintro ⟨fuel, h⟩
        rw [Logs_eq_none_of_wraps hstart hix hfrom hwraps] at h
        cases h
      · intro h
        exact absurd hwraps (h.no_wrap hfrom)
    · generalize hmid : min (indexedEnd bloomStart ix) (q.to_ + 1) = mid
      obtain ⟨p, hp, fuel, hlogs⟩ := Logs_eq hstart hix (by omega) hfrom hwraps hmid.symm
      have hscan : scan hash q chain q.from_ q.to_ =
          (List.range' q.from_ (mid - q.from_)).flatMap (ledgerLogs hash q chain) ++ scan hash q chain mid q.to_ := by
        rw [scan, range'_split mid (by omega) (by omega), List.flatMap_append]
        rfl
      rw [Logs_mono.returns_iff hlogs, Prod.mk.injEq, and_iff_left rfl, hscan, List.append_left_inj]
      by_cases hnil : q.filters = []
      · rw [pickedLogs_eq_iff_of_filters_nil hix hmid.symm hp hfrom hnil]
        constructor
        · intro h
          exact ⟨hto, fun _ => hwraps, fun i _ _ _ hjumped => absurd hjumped (not_jumped_of_filters_nil hnil),
            fun _ _ => h⟩
        · intro h
          exact h.none_twice hfrom hnil
      · rw [pickedLogs_eq_iff_of_filters_ne_nil hix hmid.symm hp hfrom hnil]
        constructor
        · intro h
          exact ⟨hto, fun _ => hwraps, h, fun _ h => absurd h hnil⟩
        · exact Exact.none_jumped
  · constructor
    · intro _
      exact ⟨hto, fun h => absurd h hfrom, fun i hge _ hlt _ => absurd (hge.trans_lt hlt) hfrom,
        fun h => absurd h hfrom⟩
    · intro _
      exact ⟨_, Logs_eq_scan hstart hix (by omega) (Nat.le_of_not_lt hfrom)⟩

/-- A range query reports what a scan of all ledgers of the range finds if and only if the condition holds,
whichever ledgers have been published and indexed before. -/
theorem Logs_exact_iff (hstart : 0 < bloomStart) (published : List (Published bloomStart chain)) :
    Fuel.Returns (Logs hash q chain (Run.final onPubLedger Indexer.start published))
        (scan hash q chain q.from_ q.to_, true) ↔
      Exact hash q chain (Run.final onPubLedger Indexer.start published) := by
  have hle := q.bloomStart_le
  have hle' := q.from_le
  have hlt := q.to_lt
  exact (indexed_of_run (by omega) published).returns_scan_iff hstart

def loggedAtNine : LedgerMaster := fun seq =>
  if seq = 9 then some ⟨9, ofList sha3 [addressBytes 100], [⟨9, 1, ⟨100, [], []⟩⟩], true⟩
  else some ⟨.ofNat 256 seq, fun _ => 0#8, [], true⟩

def firstSection : Published 1 loggedAtNine := ⟨4096, by decide, by decide, loggedAtNine, id⟩

def upToSixteen (first : Nat) (hfirst : 1 ≤ first) (hle : first ≤ 16) : RangeFilter 1 :=
  ⟨first, 16, [100], [], hfirst, hle, by decide⟩

theorem storedSections_firstSection : (Run.final onPubLedger Indexer.start [firstSection]).storedSections = 1 := by
  have hthere : ∀ seq, (loggedAtNine seq).isSome = true := by
    intro seq
    unfold loggedAtNine
    split <;> rfl
  rw [Run.final_cons, Run.final_nil]
  refine (storedSections_processSections hthere).trans ?_
  decide

theorem Logs_exact_iff_from_nine :
    Fuel.Returns (Logs sha3 (upToSixteen 9 (by decide) (by decide)) loggedAtNine
        (Run.final onPubLedger Indexer.start [firstSection]))
      (scan sha3 (upToSixteen 9 (by decide) (by decide)) loggedAtNine 9 16, true) := by
  refine (Logs_exact_iff (by decide) [firstSection]).mpr ⟨by decide, fun _ => ?_, fun i hge hle _ => ?_, fun _ h => ?_⟩
  · rintro ⟨-, hle, -⟩
    exact absurd hle (by decide)
  · rintro ⟨hmod, hblock, -⟩
    change 9 ≤ 8 * (i / 8) at hblock
    change i ≤ 16 at hle
    omega
  · cases h

theorem found_loggedAtNine (hi : i ≠ 9) (f : List Bytes) : ¬Found sha3 loggedAtNine i f := by
  rintro ⟨datum, -, ledger, hledger, hlookup⟩
  rw [loggedAtNine, if_neg hi] at hledger
  cases hledger
  rw [bloomLookup, test_iff] at hlookup
  have hbit := hlookup _ List.mem_cons_self
  simp [bit] at hbit

theorem jumped_nine {f : List Bytes} {filters : List (List Bytes)} :
    Jumped 1 sha3 loggedAtNine ix (f :: filters) 1 9 := by
  refine ⟨by decide, by decide, by decide, fun j hj hblock hhit => ?_⟩
  exact found_loggedAtNine (by omega) _ (hhit f List.mem_cons_self).2

/-- All ledgers are there, and their filters cover their logs. The first eight ledgers do not match, and
then the walk goes from ledger 8 to ledger 16. -/
theorem log_of_nine_jumped_over :
    (∀ seq, ∃ ledger, loggedAtNine seq = some ledger ∧
      ∀ log ∈ ledger.logs.1, bloomLookup sha3 ledger.bloom (addressBytes log.entry.account) = true) ∧
    ¬Fuel.Returns (Logs sha3 (upToSixteen 1 (by decide) (by decide)) loggedAtNine
        (Run.final onPubLedger Indexer.start [firstSection]))
      (scan sha3 (upToSixteen 1 (by decide) (by decide)) loggedAtNine 1 16, true) := by
  refine ⟨fun seq => ?_, fun hreturns => ?_⟩
  · by_cases hseq : seq = 9
    · refine ⟨_, if_pos hseq, fun log hlog => ?_⟩
      rw [List.mem_singleton.mp hlog]
      exact test_ofList_of_mem sha3 List.mem_cons_self
    · exact ⟨_, if_neg hseq, fun log hlog => by cases hlog⟩
  · have hexact := ((indexed_of_run (by decide) [firstSection]).returns_scan_iff (by decide)).mp hreturns
    have hend : 9 < indexedEnd 1 (Run.final onPubLedger Indexer.start [firstSection]) := by
      rw [indexedEnd, storedSections_firstSection]
      decide
    have hlogs : ledgerLogs sha3 (upToSixteen 1 (by decide) (by decide)) loggedAtNine 9 ≠ [] := by decide
    exact hlogs (hexact.none_jumped 9 (by decide) (by decide) hend jumped_nine)

/-! ## The matcher by itself -/

section Matcher

variable {filters : List (List Bytes)} {first last : Nat}

/-- The groups that ask for something. -/
def groups (filters : List (List Bytes)) : List (List Bytes) := filters.filter fun f => !f.isEmpty

theorem newMatcher_groups : newMatcher hash (groups filters) = newMatcher hash filters := by
  simp [newMatcher, groups, List.filter_filter]

variable (bloomStart hash chain ix filters first last) in
/-- `execute` ends, and jumps over no ledger of the range that matches. -/
structure Reached : Prop where
  ends : last ≠ 2 ^ 32 - 1
  no_wrap : ¬Wraps bloomStart hash chain ix (groups filters) first last
  none_jumped : ∀ i, first ≤ i → i ≤ last → (∀ f ∈ groups filters, Found hash chain i f) →
    ¬Jumped bloomStart hash chain ix (groups filters) first i

/-- The loop over the ledgers does not end at the greatest number. -/
theorem matchLedgers_last {blob : Blob} {i : Nat} (hi : i < 2 ^ 32) (fuel : Nat) :
    matchLedgers bloomStart blob (2 ^ 32 - 1) fuel i = none := by
  induction fuel generalizing i with
  | zero => rfl
  | succ fuel ih =>
    rw [matchLedgers, if_neg (by omega), ih (Nat.mod_lt _ (by decide)), ih (Nat.mod_lt _ (by decide))]
    split <;> rfl

theorem Indexed.execute_last (hix : Indexed bloomStart chain ix) (hfirst : bloomStart ≤ first) (hle : first ≤ last)
    (hlast : last < indexedEnd bloomStart ix) (hend : last = 2 ^ 32 - 1) (fuel : Nat)
    (filters : List (List (List Nat))) : execute bloomStart chain ix filters fuel first last = none := by
  have hstraight := hix.straight (hfirst.trans hle) hlast
  refine matchSections_eq_none (mem_sections hfirst (by omega) hle le_rfl) ?_
  rw [matchSection, getSectionRange_of_fits hstraight, if_neg]
  · have hto : bloomStart + (last - bloomStart) / DEFAULT_SECTION_SIZE * DEFAULT_SECTION_SIZE +
        (DEFAULT_SECTION_SIZE - 1) = 2 ^ 32 - 1 := by
      unfold Straight DEFAULT_SECTION_SIZE at hstraight
      unfold DEFAULT_SECTION_SIZE
      omega
    rw [hto]
    refine matchLedgers_last ?_ fuel
    split <;> omega
  · unfold Straight DEFAULT_SECTION_SIZE at hstraight
    unfold DEFAULT_SECTION_SIZE
    omega

/-- The matcher reports exactly the ledgers of an indexed range whose filters match, in order, if and only
if it ends and jumps over none of them. -/
theorem execute_exact_iff (hstart : bloomStart < 2 ^ 32) (published : List (Published bloomStart chain))
    (hfirst : bloomStart ≤ first) (hle : first ≤ last)
    (hlast : last < indexedEnd bloomStart (Run.final onPubLedger Indexer.start published)) :
    (∃ matched, Fuel.Returns (fun fuel => execute bloomStart chain (Run.final onPubLedger Indexer.start published)
        (newMatcher hash filters) fuel first last) matched ∧ matched.Pairwise (· < ·) ∧
      ∀ i, i ∈ matched ↔ (first ≤ i ∧ i ≤ last) ∧ ∀ f ∈ groups filters, Found hash chain i f) ↔
    Reached bloomStart hash chain (Run.final onPubLedger Indexer.start published) filters first last := by
  have hix := indexed_of_run hstart published
  generalize Run.final onPubLedger Indexer.start published = ix at *
  have hgroups : ∀ f ∈ groups filters, f ≠ [] := by simp [groups]
  have hlt : last < 2 ^ 32 := hlast.trans_le hix.fits
  have hin : ∀ i, first ≤ i → i ≤ last → Straight bloomStart i ∧
      (Hit bloomStart hash chain ix (groups filters) i ↔ ∀ f ∈ groups filters, Found hash chain i f) := by
    intro i hi hi'
    have hlt := hi'.trans_lt hlast
    have hsec := (stored_iff (hfirst.trans hi)).mpr hlt
    exact ⟨hix.straight (hfirst.trans hi) hlt, forall₂_congr fun f _ => and_iff_right hsec⟩
  rw [← newMatcher_groups]
  by_cases hend : last = 2 ^ 32 - 1
  · refine ⟨?_, fun h => absurd hend h.ends⟩
    rintro ⟨matched, ⟨fuel, hfuel⟩, -⟩
    cases (hix.execute_last hfirst hle hlast hend fuel _).symm.trans hfuel
  by_cases hwraps : Wraps bloomStart hash chain ix (groups filters) first last
  · refine ⟨?_, fun h => absurd hwraps h.no_wrap⟩
    rintro ⟨matched, ⟨fuel, hfuel⟩, -⟩
    cases (execute_eq_none hix hgroups hfirst hlt hwraps fuel).symm.trans hfuel
  obtain ⟨found, hfound, hsorted, hmem⟩ := execute_spec hix hgroups hfirst hle
    (by omega) hwraps (Nat.lt_succ_self _)
  simp only [(execute_mono _ _ _).returns_iff hfound, exists_eq_left', hsorted, true_and]
  constructor
  · intro h
    refine ⟨hend, hwraps, fun i hi hi' hfilters => ?_⟩
    exact ((hmem i).mp ((h i).mpr ⟨⟨hi, hi'⟩, hfilters⟩)).2.2.2
  · intro h i
    rw [hmem]
    refine and_congr_right fun ⟨hi, hi'⟩ => ?_
    rw [and_iff_right (hin i hi hi').1, (hin i hi hi').2]
    exact and_iff_left_of_imp (h.none_jumped i hi hi')

theorem lt_indexedEnd {i : Nat} (hi : i ≤ 4096) :
    i < indexedEnd 1 (Run.final onPubLedger Indexer.start [firstSection]) := by
  rw [indexedEnd, storedSections_firstSection]
  exact Nat.lt_succ_of_le hi

theorem execute_exact_iff_from_nine : ∃ matched,
    Fuel.Returns (fun fuel => execute 1 loggedAtNine (Run.final onPubLedger Indexer.start [firstSection])
      (newMatcher sha3 [[addressBytes 100]]) fuel 9 16) matched ∧ matched.Pairwise (· < ·) ∧
    ∀ i, i ∈ matched ↔ (9 ≤ i ∧ i ≤ 16) ∧ ∀ f ∈ groups [[addressBytes 100]], Found sha3 loggedAtNine i f := by
  refine (execute_exact_iff (by decide) _ (by decide) (by decide) (lt_indexedEnd (by decide))).mpr
    ⟨by decide, ?_, fun i _ hi _ => ?_⟩
  · rintro ⟨-, hle, -⟩
    exact absurd hle (by decide)
  · rintro ⟨hmod, hblock, -⟩
    omega

/-- Ledger 9 matches, but the walk goes from ledger 8 to ledger 16. -/
theorem nine_not_matched : (∀ f ∈ groups [[addressBytes 100]], Found sha3 loggedAtNine 9 f) ∧
    ∃ matched, Fuel.Returns (fun fuel => execute 1 loggedAtNine (Run.final onPubLedger Indexer.start [firstSection])
      (newMatcher sha3 [[addressBytes 100]]) fuel 1 16) matched ∧ 9 ∉ matched := by
  refine ⟨fun f hf => ?_, ?_⟩
  · cases List.mem_singleton.mp hf
    exact ⟨_, List.mem_cons_self, _, rfl, test_ofList_of_mem sha3 List.mem_cons_self⟩
  · obtain ⟨matched, hmatched, -, hmem⟩ := @execute_spec 1 sha3 loggedAtNine _ [[addressBytes 100]]
      (indexed_of_run (by decide) [firstSection]) (by decide) _ 1 16 (by decide) (by decide) (by decide)
      (by rintro ⟨-, hle, -⟩; exact absurd hle (by decide)) (Nat.lt_succ_self _)
    exact ⟨matched, ⟨_, hmatched⟩, fun h => ((hmem 9).mp h).2.2.2 jumped_nine⟩

end Matcher

end Chainsql.Bloom
