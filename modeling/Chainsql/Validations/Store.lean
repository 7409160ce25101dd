import Chainsql.LedgerInfo
import Chainsql.Lib.Assoc
import Chainsql.ValidatorList

/-!
# The store of validations

`Validations` keeps what validators have signed: by node, by ledger and by sequence, and apart from
these the list of validations that made the last ledger fully validated. A node id is written as the
master key it is computed from. The trie of ledger ancestry is left out.
-/

namespace Chainsql

structure STValidation where
  signerPublic : PublicKey
  ledgerHash : HashValue
  ledgerSequence : Option UInt32
  signTime : Int
  seenTime : Int := 0
  isFull : Bool := true
  cookie : UInt64 := 0
  -- `sfSignature`, a signature of the ledger hash alone.
  signature : Nat := 0
  isTrusted : Bool := false
deriving DecidableEq, Repr

def STValidation.seq (v : STValidation) : UInt32 := v.ledgerSequence.getD 0

structure ValidationParms where
  validationCurrentWall : Int := 300
  validationCurrentLocal : Int := 180
  validationCurrentEarly : Int := 180

def isCurrent (p : ValidationParms) (now signTime seenTime : Int) : Bool :=
  decide (signTime > now - p.validationCurrentEarly) && decide (signTime < now + p.validationCurrentWall)
    && (decide (seenTime = 0) || decide (seenTime < now + p.validationCurrentLocal))

structure ValidationClock where
  parms : ValidationParms := {}
  closeTime : Int := 0
  now : Int := 0
  valSeqExpires : Int := 600000

structure SeqEnforcer where
  seq : UInt32 := 0
  time : Int := 0

/-- `SeqEnforcer::operator()`. An expired number is forgotten even if the new one is refused. -/
def SeqEnforcer.advance (e : SeqEnforcer) (clock : ValidationClock) (s : UInt32) : SeqEnforcer × Bool :=
  let e := if clock.now > e.time + clock.valSeqExpires then { e with seq := 0 } else e
  if s ≤ e.seq then (e, false) else ({ seq := s, time := clock.now }, true)

inductive ValStatus where
  | current
  | stale
  | badSeq
  | multiple
  | conflicting
deriving DecidableEq, Repr

structure LastValidations where
  seq : UInt32 := 0
  hash : HashValue := zeroHash
  validations : List STValidation := []

abbrev NodeValidations := AList (fun _ : PublicKey => STValidation)

structure Validations where
  current : NodeValidations := ∅
  seqEnforcers : AList (fun _ : PublicKey => SeqEnforcer) := ∅
  byLedger : AList (fun _ : HashValue => NodeValidations) := ∅
  bySequence : AList (fun _ : UInt32 => NodeValidations) := ∅
  lastValidations : LastValidations := {}

namespace Validations

variable (m : Validations) (clock : ValidationClock)

/-- The validation of the node that is tracked for a sequence: the first one, unless that was signed
long before the new one. -/
def track (old : Option STValidation) (val : STValidation) : STValidation :=
  match old with
  | none => val
  | some old =>
    let diff := max old.signTime val.signTime - min old.signTime val.signTime
    if 1000 * diff > clock.valSeqExpires ∧ val.signTime > old.signTime then val else old

def refusal (tracked val : STValidation) : ValStatus :=
  if tracked.seq = val.seq then
    if tracked.ledgerHash ≠ val.ledgerHash then .conflicting
    else if tracked.cookie ≠ val.cookie then .multiple
    else .badSeq
  else .badSeq

def store (nodeID : PublicKey) (val : STValidation) : Validations × ValStatus :=
  let table := (m.byLedger.lookup val.ledgerHash).getD ∅
  let m := { m with byLedger := m.byLedger.insert val.ledgerHash (table.insert nodeID val) }
  match m.current.lookup nodeID with
  | none => ({ m with current := m.current.insert nodeID val }, .current)
  | some old =>
    if val.signTime > old.signTime then ({ m with current := m.current.insert nodeID val }, .current)
    else (m, .stale)

def add (nodeID : PublicKey) (val : STValidation) : Validations × ValStatus :=
  if isCurrent clock.parms clock.closeTime val.signTime val.seenTime = false then (m, .stale)
  else
    let table := (m.bySequence.lookup val.seq).getD ∅
    let tracked := track clock (table.lookup nodeID) val
    let m := { m with bySequence := m.bySequence.insert val.seq (table.insert nodeID tracked) }
    match ((m.seqEnforcers.lookup nodeID).getD {}).advance clock val.seq with
    | (enforcer, false) =>
      ({ m with seqEnforcers := m.seqEnforcers.insert nodeID enforcer }, refusal tracked val)
    | (enforcer, true) => store { m with seqEnforcers := m.seqEnforcers.insert nodeID enforcer } nodeID val

def setLastValidations (validations : List STValidation) : Validations :=
  match validations with
  | [] => m
  | first :: _ =>
    if m.lastValidations.validations.length ≠ 0 ∧ ¬ first.seq ≥ m.lastValidations.seq then m
    else { m with lastValidations := ⟨first.seq, first.ledgerHash, validations⟩ }

def getLastValidationsFromCache (seq : UInt32) (id : HashValue) : List STValidation :=
  if seq = m.lastValidations.seq ∧ id = m.lastValidations.hash then m.lastValidations.validations else []

def expire (oldLedger : HashValue → Bool) (oldSeq : UInt32 → Bool) : Validations :=
  { m with
    byLedger := m.byLedger.eraseIf fun id _ => oldLedger id
    bySequence := m.bySequence.eraseIf fun seq _ => oldSeq seq }

def retrust (added removed : Finset PublicKey) (nodeID : PublicKey) (v : STValidation) : STValidation :=
  if nodeID ∈ added then { v with isTrusted := true }
  else if nodeID ∈ removed then { v with isTrusted := false }
  else v

def retrustAll (added removed : Finset PublicKey) (table : NodeValidations) : NodeValidations :=
  table.filterMapVal fun nodeID v => some (retrust added removed nodeID v)

def trustChanged (added removed : Finset PublicKey) : Validations :=
  { m with
    current := retrustAll added removed m.current
    byLedger := m.byLedger.filterMapVal fun _ table => some (retrustAll added removed table) }

def currentTrusted : Validations × List STValidation :=
  let m := { m with
    current := m.current.eraseIf fun _ v =>
      !isCurrent clock.parms clock.closeTime v.signTime v.seenTime }
  (m, (m.current.entries.map Sigma.snd).filter fun v => v.isTrusted && v.isFull)

def getTrustedForLedger (ledgerID : HashValue) : List STValidation :=
  match m.byLedger.lookup ledgerID with
  | none => []
  | some table => (table.entries.map Sigma.snd).filter fun v => v.isTrusted && v.isFull

/-! ## What the operations change -/

theorem byLedger_add (nodeID : PublicKey) (val : STValidation) :
    (m.add clock nodeID val).1.byLedger = m.byLedger
      ∨ (m.add clock nodeID val).1.byLedger
        = m.byLedger.insert val.ledgerHash (((m.byLedger.lookup val.ledgerHash).getD ∅).insert nodeID val) := by
  unfold add
  split
  · exact .inl rfl
  · dsimp only
    split
    · exact .inl rfl
    · unfold store
      dsimp only
      split
      · exact .inr rfl
      · split <;> exact .inr rfl

theorem lastValidations_add (nodeID : PublicKey) (val : STValidation) :
    (m.add clock nodeID val).1.lastValidations = m.lastValidations := by
  unfold add
  split
  · rfl
  · dsimp only
    split
    · rfl
    · unfold store
      dsimp only
      split
      · rfl
      · split <;> rfl

theorem byLedger_setLastValidations (validations : List STValidation) :
    (m.setLastValidations validations).byLedger = m.byLedger := by
  unfold setLastValidations
  split
  · rfl
  · split <;> rfl

theorem lastValidations_setLastValidations (validations : List STValidation) :
    (m.setLastValidations validations).lastValidations = m.lastValidations
      ∨ ∃ first ∈ validations, (m.setLastValidations validations).lastValidations
        = ⟨first.seq, first.ledgerHash, validations⟩ := by
  unfold setLastValidations
  split
  · exact .inl rfl
  next first rest =>
    split
    · exact .inl rfl
    · exact .inr ⟨first, List.mem_cons_self, rfl⟩

variable {m} in
theorem all_byLedger_trustChanged {p q : HashValue → PublicKey → STValidation → Prop}
    {added removed : Finset PublicKey} (hm : m.byLedger.All fun hash table => table.All (p hash))
    (himp : ∀ hash nodeID v, p hash nodeID v → q hash nodeID (retrust added removed nodeID v)) :
    (m.trustChanged added removed).byLedger.All fun hash table => table.All (q hash) := by
  have htables : (m.byLedger.filterMapVal fun _ table => some (retrustAll added removed table)).All
      fun hash table => table.All (q hash) := by
    refine hm.filterMapVal ?_
    rintro hash table htable _ ⟨⟩
    refine htable.filterMapVal ?_
    rintro nodeID v hv _ ⟨⟩
    exact himp hash nodeID v hv
  exact htables

end Validations

end Chainsql
