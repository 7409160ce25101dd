import Chainsql.Json
import Chainsql.Lib.Effects

/-!
# SQL transactions

`SqlTransaction::handleEachTx` runs the statements of a transaction one after the other. The handlers of
`TableListSet` and `SqlStatement` and the construction of a transaction from its JSON form are
parameters, as is the view they work on. A handler that throws may have written to the view before.

`Executed` says that every statement passed its checks on the view the statements before it left and was
applied to that view. A result `tesSUCCESS` means this exactly if no statement on the way throws and
none is of a type that the loop has no handlers for.
-/

namespace Chainsql.Sql

open Evm (Crash TER tesSUCCESS AccountID Word)

def T_ASSIGN : Int := 4
def T_CANCELASSIGN : Int := 5
def T_ASSERT : Int := 10
def T_GRANT : Int := 11

def isTableListSetOpType (eType : Int) : Bool := (1 ≤ eType ∧ eType < 6) ∨ (11 ≤ eType ∧ eType ≤ 18)

def ttTABLELISTSET : UInt16 := 21
def ttSQLSTATEMENT : UInt16 := 22
def ttSQLTRANSACTION : UInt16 := 23

def temBAD_OPTYPE_IN_TRANSACTION : TER := ⟨241⟩
def temBAD_NEEDVERIFY_OPERRULE : TER := ⟨255⟩

/-- The fields that mark a transaction as one of another chain. -/
structure CrossChain where
  originalAddress : Option AccountID
  txnLgrSeq : Option UInt32
  curTxHash : Option Word
  futureTxHash : Option Word

def CrossChain.isCrossChainUpload (c : CrossChain) : Bool :=
  c.originalAddress.isSome || c.txnLgrSeq.isSome || c.curTxHash.isSome || c.futureTxHash.isSome

/-- The transaction of a statement. `opType` is missing in the formats that have no such field, `rest`
are the fields that only the handlers read. -/
structure STTx (β : Type) where
  txnType : UInt16
  opType : Option UInt16
  parentTxID : Option Word
  crossChain : CrossChain
  rest : β

structure Parent where
  account : String
  realTxID : Word
  needVerify : UInt32
  crossChain : CrossChain

variable {V β : Type}

structure Handlers (V β : Type) where
  preflightHandler : STTx β → Except Crash TER
  preclaimHandler : V → STTx β → Except Crash TER
  applyHandler : V → STTx β → Except Crash TER × V

structure Env (V β : Type) where
  parsed : Json → Option (STTx β)
  /-- A member that the format of the transaction does not have is an error, and so is a missing field
  that it requires. -/
  opType_isSome : ∀ obj tx, parsed obj = some tx →
    obj.isMember "OpType" ∨ tx.txnType = ttTABLELISTSET ∨ tx.txnType = ttSQLSTATEMENT → tx.opType.isSome
  tableListSet : Handlers V β
  sqlStatement : Handlers V β
  hasOperationRule : V → STTx β → Except Crash Bool

/-- How a pass of the loop ends: it goes on, or it is left with a result by a `break` or `return`, or
through the `catch` clause. -/
inductive Pass (V : Type) where
  | next (result : TER) (view : V)
  | leave (result : TER) (view : V)
  | caught (result : TER) (view : V)

/-- The rest of a pass after something that may throw. -/
def attempt {α : Type} (result : TER) (view : V) (x : Except Crash α)
    (k : α → Except Crash (Pass V)) : Except Crash (Pass V) :=
  match x with
  | .ok a => k a
  | .error .exception => .ok (.caught result view)
  | .error crash => .error crash

def Handlers.handle (h : Handlers V β) (amend : STTx β → STTx β) (result : TER) (view : V) (tx : STTx β) :
    Except Crash (Pass V) :=
  attempt result view (h.preflightHandler tx) fun result =>
    if result ≠ tesSUCCESS then .ok (.leave result view)
    else
      attempt result view (h.preclaimHandler view (amend tx)) fun result =>
        if result ≠ tesSUCCESS then .ok (.leave result view)
        else
          let (applied, view) := h.applyHandler view (amend tx)
          attempt result view applied fun result =>
            if result ≠ tesSUCCESS then .ok (.leave result view) else .ok (.next result view)

section

variable (env : Env V β) (ctx : Parent)

def opTypeOf (obj : Json) : Except Crash Int := do
  let (member, _) ← obj.resolveReference "OpType"
  return (← member.asInt).toInt

def isSqlTransaction (obj : Json) : Bool :=
  match obj.member "TransactionType" with
  | some (.string name) => name = "SQLTransaction"
  | _ => false

/-- The type that a statement gets if it does not give one, and the object, which has a member `OpType`
once this was looked at. -/
def deducedType (obj : Json) : Except Crash (UInt16 × Json) :=
  if isSqlTransaction obj then .ok (ttSQLTRANSACTION, obj)
  else do
    let type ← opTypeOf obj
    let (_, obj) ← obj.resolveReference "OpType"
    return (if isTableListSetOpType type then ttTABLELISTSET else ttSQLSTATEMENT, obj)

/-- The second component is the object with the members that were added to it. -/
def parseSTTx (obj : Json) : Except Crash (Option (STTx β) × Json) := do
  let (transactionType, obj) ← deducedType obj
  let obj ← obj.assignDefault "TransactionType" (.int (.ofNat transactionType.toNat))
  let obj ← obj.assignDefault "Account" (.string ctx.account)
  let obj ← obj.assignDefault "Fee" (.int 0)
  let obj ← obj.assignDefault "Sequence" (.int 0)
  return (env.parsed obj, obj)

/-- The fields of another chain are handed down to a grant. -/
def crossChainFields (opType : Int) (tx : STTx β) : STTx β :=
  if ctx.crossChain.isCrossChainUpload ∧ (opType = T_GRANT ∨ opType = T_ASSIGN ∨ opType = T_CANCELASSIGN) then
    { tx with crossChain :=
      ⟨some (ctx.crossChain.originalAddress.getD 0), some (ctx.crossChain.txnLgrSeq.getD 0),
        some (ctx.crossChain.curTxHash.getD 0), some (ctx.crossChain.futureTxHash.getD 0)⟩ }
  else tx

def STTx.getOpType (tx : STTx β) : Except Crash Int :=
  match tx.opType with
  | some opType => .ok opType.toNat
  | none => .error .exception

/-- A statement that is not an assertion. Its handlers are chosen by its type. -/
def dispatch (opType : Int) (result : TER) (view : V) (tx : STTx β) : Except Crash (Pass V) :=
  if tx.txnType = ttTABLELISTSET then
    env.tableListSet.handle (crossChainFields ctx opType) result view tx
  else if tx.txnType = ttSQLSTATEMENT then
    attempt result view (env.hasOperationRule view tx) fun hasRule =>
      if hasRule ∧ ctx.needVerify ≠ 1 then .ok (.leave temBAD_NEEDVERIFY_OPERRULE view)
      else env.sqlStatement.handle id result view tx
  else .ok (.next result view)

/-- One pass of the loop. The pointer to the transaction is used without a check that there is one. -/
def handleTx (result : TER) (view : V) (obj : Json) : Except Crash (Pass V) :=
  attempt result view (parseSTTx env ctx obj) fun (tx, obj) =>
    match tx with
    | none => .error .undefined
    | some tx =>
      attempt result view tx.getOpType fun txOpType =>
        if isTableListSetOpType txOpType ∧ txOpType ≠ T_GRANT then
          .ok (.leave temBAD_OPTYPE_IN_TRANSACTION view)
        else
          let tx := { tx with parentTxID := some ctx.realTxID }
          attempt result view (opTypeOf obj) fun opType =>
            if opType ≠ T_ASSERT then dispatch env ctx opType result view tx else .ok (.next result view)

def handleEach : TER → V → List Json → Except Crash (TER × V)
  | result, view, [] => .ok (result, view)
  | result, view, obj :: objs => do
    match ← handleTx env ctx result view obj with
    | .next result view => handleEach result view objs
    | .leave result view => .ok (result, view)
    | .caught result view => .ok (result, view)

/-- `objs` is what the reader makes of the text of `sfStatements`. -/
def handleEachTx (view : V) (objs : Json) : Except Crash (TER × V) :=
  handleEach env ctx tesSUCCESS view objs.elements

structure Handlers.Passes (h : Handlers V β) (amend : STTx β → STTx β) (view : V) (tx : STTx β)
    (view' : V) : Prop where
  preflight : h.preflightHandler tx = .ok tesSUCCESS
  preclaim : h.preclaimHandler view (amend tx) = .ok tesSUCCESS
  apply : h.applyHandler view (amend tx) = (.ok tesSUCCESS, view')

inductive Performed (obj : Json) (view view' : V) : Prop where
  | tableListSet {tx : STTx β} {obj' : Json} {opType : Int}
      (parsed : parseSTTx env ctx obj = .ok (some tx, obj')) (type : tx.txnType = ttTABLELISTSET)
      (op : opTypeOf obj = .ok opType)
      (passes : env.tableListSet.Passes (crossChainFields ctx opType) view
        { tx with parentTxID := some ctx.realTxID } view')
  | sqlStatement {tx : STTx β} {obj' : Json} {opType : Int} {hasRule : Bool}
      (parsed : parseSTTx env ctx obj = .ok (some tx, obj')) (type : tx.txnType = ttSQLSTATEMENT)
      (op : opTypeOf obj = .ok opType)
      (rule : env.hasOperationRule view { tx with parentTxID := some ctx.realTxID } = .ok hasRule)
      (verified : ¬(hasRule ∧ ctx.needVerify ≠ 1))
      (passes : env.sqlStatement.Passes id view { tx with parentTxID := some ctx.realTxID } view')

/-- Every statement other than an assertion was applied to what the ones before it left. -/
inductive Executed : List Json → V → V → Prop where
  | nil (view : V) : Executed [] view view
  | assert {obj : Json} {objs : List Json} {view view' : V} (op : opTypeOf obj = .ok T_ASSERT)
      (rest : Executed objs view view') : Executed (obj :: objs) view view'
  | statement {obj : Json} {objs : List Json} {view view₁ view' : V} (op : opTypeOf obj ≠ .ok T_ASSERT)
      (performed : Performed env ctx obj view view₁) (rest : Executed objs view₁ view') :
      Executed (obj :: objs) view view'

/-- An assertion, or of a type that the loop has handlers for. -/
def Supported (obj : Json) : Prop :=
  opTypeOf obj = .ok T_ASSERT ∨ ∀ tx obj', parseSTTx env ctx obj = .ok (some tx, obj') →
    tx.txnType = ttTABLELISTSET ∨ tx.txnType = ttSQLSTATEMENT

/-- Every statement that is reached is supported and does not throw. -/
def Orderly : List Json → V → Prop
  | [], _ => True
  | obj :: objs, view =>
    (∀ result view', handleTx env ctx tesSUCCESS view obj ≠ .ok (.caught result view')) ∧
      Supported env ctx obj ∧
      ∀ view', handleTx env ctx tesSUCCESS view obj = .ok (.next tesSUCCESS view') → Orderly objs view'

end

section

variable {env : Env V β} {ctx : Parent} {obj obj' : Json} {objs : List Json} {result : TER}
  {view view' : V} {pass : Pass V} {α : Type}

theorem attempt_eq_ok {x : Except Crash α} {k : α → Except Crash (Pass V)} :
    attempt result view x k = .ok pass ↔
      (∃ a, x = .ok a ∧ k a = .ok pass) ∨ (x = .error .exception ∧ pass = .caught result view) := by
  unfold attempt
  split
  next a => simp
  next => simp [eq_comm]
  next c hc =>
    constructor
    · intro h
      cases h
    · rintro (⟨a, h, -⟩ | ⟨h, -⟩)
      · cases h
      · cases h
        exact absurd rfl hc

/-- The loop goes on with a result and a view for which `P` holds. If it is left without an exception, it is
with a failure. -/
def Pass.Yields (P : TER → V → Prop) : Pass V → Prop
  | .next result view => P result view
  | .leave result _ => result ≠ tesSUCCESS
  | .caught _ _ => True

section Yields

variable {P : TER → V → Prop}

theorem attempt_yields {x : Except Crash α} {k : α → Except Crash (Pass V)} (h : attempt result view x k = .ok pass)
    (hk : ∀ a, x = .ok a → k a = .ok pass → pass.Yields P) : pass.Yields P := by
  rcases attempt_eq_ok.mp h with ⟨a, hx, ha⟩ | ⟨-, rfl⟩
  · exact hk a hx ha
  · trivial

theorem guard_yields {k : Except Crash (Pass V)}
    (h : (if result ≠ tesSUCCESS then .ok (.leave result view) else k) = .ok pass)
    (hk : result = tesSUCCESS → k = .ok pass → pass.Yields P) : pass.Yields P := by
  split at h
  next hr =>
    cases h
    exact hr
  next hr => exact hk (not_not.mp hr) h

end Yields

theorem opTypeOf_eq (obj : Json) :
    opTypeOf obj = match obj.member "OpType" with
      | some v => v.asInt.map Int32.toInt
      | none => .error .undefined := by
  unfold opTypeOf
  cases obj with
  | object members =>
    simp only [Json.resolveReference, Json.member]
    split <;> rename_i h <;> simp only [h, Option.getD] <;> rfl
  | _ => rfl

theorem deducedType_keeps {type : UInt16} (h : deducedType obj = .ok (type, obj')) :
    obj'.member "OpType" = obj.member "OpType" ∧ (obj.isMember "OpType" → obj'.isMember "OpType") := by
  unfold deducedType at h
  split at h
  · cases h
    exact ⟨rfl, id⟩
  · obtain ⟨t, ht, h⟩ := Except.bind_eq_ok.mp h
    obtain ⟨⟨v, o⟩, ho, h⟩ := Except.bind_eq_ok.mp h
    cases h
    obtain ⟨-, hmember, his⟩ := Json.member_of_resolveReference ho
    exact ⟨hmember, fun _ => his⟩

theorem parseSTTx_keeps {tx : Option (STTx β)} (h : parseSTTx env ctx obj = .ok (tx, obj')) :
    obj'.member "OpType" = obj.member "OpType" ∧ (obj.isMember "OpType" → obj'.isMember "OpType") ∧
      env.parsed obj' = tx := by
  obtain ⟨⟨type, o⟩, ho, h⟩ := Except.bind_eq_ok.mp h
  obtain ⟨o₁, h₁, h⟩ := Except.bind_eq_ok.mp h
  obtain ⟨o₂, h₂, h⟩ := Except.bind_eq_ok.mp h
  obtain ⟨o₃, h₃, h⟩ := Except.bind_eq_ok.mp h
  obtain ⟨o₄, h₄, h⟩ := Except.bind_eq_ok.mp h
  cases h
  obtain ⟨m₀, i₀⟩ := deducedType_keeps ho
  obtain ⟨m₁, i₁⟩ := Json.of_assignDefault (by decide : "OpType" ≠ "TransactionType") h₁
  obtain ⟨m₂, i₂⟩ := Json.of_assignDefault (by decide : "OpType" ≠ "Account") h₂
  obtain ⟨m₃, i₃⟩ := Json.of_assignDefault (by decide : "OpType" ≠ "Fee") h₃
  obtain ⟨m₄, i₄⟩ := Json.of_assignDefault (by decide : "OpType" ≠ "Sequence") h₄
  refine ⟨by rw [m₄, m₃, m₂, m₁, m₀], ?_, rfl⟩
  rw [i₄, i₃, i₂, i₁]
  exact i₀

theorem opTypeOf_parse {tx : Option (STTx β)} (h : parseSTTx env ctx obj = .ok (tx, obj')) :
    opTypeOf obj' = opTypeOf obj := by
  rw [opTypeOf_eq, opTypeOf_eq, (parseSTTx_keeps h).1]

theorem Performed.supported (hp : Performed env ctx obj view view') : Supported env ctx obj := by
  refine .inr ?_
  intro tx obj' hparse
  cases hp with
  | tableListSet hparse' htype =>
    cases hparse.symm.trans hparse'
    exact .inl htype
  | sqlStatement hparse' htype =>
    cases hparse.symm.trans hparse'
    exact .inr htype

variable {amend : STTx β → STTx β} {h : Handlers V β} {tx : STTx β} {opType : Int}

theorem Handlers.handle_yields (hh : h.handle amend result view tx = .ok pass) :
    pass.Yields fun r v => r = tesSUCCESS ∧ h.Passes amend view tx v := by
  refine attempt_yields hh fun r hpre hh => guard_yields hh fun hr hh => ?_
  subst hr
  refine attempt_yields hh fun r hclaim hh => guard_yields hh fun hr hh => ?_
  subst hr
  refine attempt_yields hh fun r happ hh => guard_yields hh fun hr hh => ?_
  subst hr
  cases hh
  exact ⟨rfl, hpre, hclaim, Prod.ext happ rfl⟩

theorem Pass.Yields.imp {P Q : TER → V → Prop} (hp : pass.Yields P) (himp : ∀ r v, P r v → Q r v) : pass.Yields Q := by
  cases pass with
  | next r v => exact himp r v hp
  | leave r v => exact hp
  | caught r v => trivial

theorem Handlers.handle_of_passes (hp : h.Passes amend view tx view') :
    h.handle amend result view tx = .ok (.next tesSUCCESS view') := by
  simp [handle, attempt, hp.preflight, hp.preclaim, hp.apply]

theorem dispatch_yields (hparse : parseSTTx env ctx obj = .ok (some tx, obj')) (hop : opTypeOf obj = .ok opType)
    (htype : tx.txnType = ttTABLELISTSET ∨ tx.txnType = ttSQLSTATEMENT)
    (h : dispatch env ctx opType result view { tx with parentTxID := some ctx.realTxID } = .ok pass) :
    pass.Yields fun r v => r = tesSUCCESS ∧ Performed env ctx obj view v := by
  unfold dispatch at h
  split at h
  next htype => exact (Handlers.handle_yields h).imp fun _ _ => And.imp_right (.tableListSet hparse htype hop)
  next hother =>
    have htype := htype.resolve_left hother
    rw [if_pos htype] at h
    refine attempt_yields h fun hasRule hrule h => ?_
    split at h
    · cases h
      exact (by decide : temBAD_NEEDVERIFY_OPERRULE ≠ tesSUCCESS)
    next hver =>
      exact (Handlers.handle_yields h).imp fun _ _ => And.imp_right (.sqlStatement hparse htype hop hrule hver)

theorem dispatch_of_performed (hparse : parseSTTx env ctx obj = .ok (some tx, obj')) (hop : opTypeOf obj = .ok opType)
    (hp : Performed env ctx obj view view') :
    dispatch env ctx opType result view { tx with parentTxID := some ctx.realTxID } =
      .ok (.next tesSUCCESS view') := by
  unfold dispatch
  cases hp with
  | tableListSet hparse' htype hop' hpass =>
    cases hparse.symm.trans hparse'
    cases hop.symm.trans hop'
    rw [if_pos htype]
    exact Handlers.handle_of_passes hpass
  | sqlStatement hparse' htype hop' hrule hver hpass =>
    cases hparse.symm.trans hparse'
    rw [if_neg (by rw [htype]; decide), if_pos htype]
    exact attempt_eq_ok.mpr (.inl ⟨_, hrule, by rw [if_neg hver]; exact Handlers.handle_of_passes hpass⟩)

theorem handleTx_yields (hs : Supported env ctx obj) (h : handleTx env ctx result view obj = .ok pass) :
    pass.Yields fun r v => r = result ∧ view = v ∧ opTypeOf obj = .ok T_ASSERT ∨
      opTypeOf obj ≠ .ok T_ASSERT ∧ r = tesSUCCESS ∧ Performed env ctx obj view v := by
  refine attempt_yields h fun (tx, obj') hparse h => ?_
  cases tx with
  | none => cases h
  | some tx =>
    refine attempt_yields h fun txOpType _ h => ?_
    split at h
    · cases h
      exact (by decide : temBAD_OPTYPE_IN_TRANSACTION ≠ tesSUCCESS)
    · refine attempt_yields h fun opType hop h => ?_
      rw [opTypeOf_parse hparse] at hop
      split at h
      next hne =>
        have hop' : opTypeOf obj ≠ .ok T_ASSERT := by
          rw [hop]
          exact fun heq => hne (Except.ok.inj heq)
        exact (dispatch_yields hparse hop (hs.resolve_left hop' tx obj' hparse) h).imp fun _ _ hp => .inr ⟨hop', hp⟩
      next hassert =>
        cases h
        rw [not_not] at hassert
        exact .inl ⟨rfl, rfl, by rw [hop, hassert]⟩

theorem isMember_of_opTypeOf (h : opTypeOf obj = .ok opType) (hne : opType ≠ 0) : obj.isMember "OpType" := by
  rw [opTypeOf_eq] at h
  cases obj with
  | null =>
    cases h
    exact absurd rfl hne
  | object members =>
    simp only [Json.member, Json.isMember] at h ⊢
    cases hl : Json.lookup "OpType" members with
    | none =>
      rw [hl] at h
      cases h
      exact absurd rfl hne
    | some v => rfl
  | _ => cases h

theorem assignDefault_error {key : String} {value : Json} {crash : Crash}
    (h : obj.assignDefault key value = .error crash) : crash = .undefined := by
  unfold Json.assignDefault at h
  split at h
  · cases h
  · cases obj <;> cases h
    all_goals rfl

theorem parseSTTx_exception (h : parseSTTx env ctx obj = .error .exception) :
    opTypeOf obj = .error .exception := by
  have hassign : ∀ {key : String} {o value : Json}, o.assignDefault key value ≠ .error .exception := by
    intro key o value heq
    cases assignDefault_error heq
  rcases Except.bind_eq_error.mp h with h | ⟨⟨type, o⟩, -, h⟩
  · unfold deducedType at h
    split at h
    · cases h
    · rcases Except.bind_eq_error.mp h with h | ⟨type, -, h⟩
      · exact h
      · rcases Except.bind_eq_error.mp h with h | ⟨_, -, h⟩
        · cases obj with
          | object members =>
            simp only [Json.resolveReference] at h
            split at h <;> cases h
          | _ => cases h
        · cases h
  · obtain ⟨_, -, h⟩ := (Except.bind_eq_error.mp h).resolve_left hassign
    obtain ⟨_, -, h⟩ := (Except.bind_eq_error.mp h).resolve_left hassign
    obtain ⟨_, -, h⟩ := (Except.bind_eq_error.mp h).resolve_left hassign
    obtain ⟨_, -, h⟩ := (Except.bind_eq_error.mp h).resolve_left hassign
    cases h

theorem getOpType_parse (h : parseSTTx env ctx obj = .ok (some tx, obj'))
    (hm : obj.isMember "OpType" ∨ tx.txnType = ttTABLELISTSET ∨ tx.txnType = ttSQLSTATEMENT) :
    ∃ opType, tx.getOpType = .ok opType := by
  obtain ⟨-, his, hparsed⟩ := parseSTTx_keeps h
  obtain ⟨opType, hop⟩ := Option.isSome_iff_exists.mp (env.opType_isSome obj' tx hparsed (hm.imp_left his))
  exact ⟨opType.toNat, by rw [STTx.getOpType, hop]⟩

theorem handleTx_parsed (hparse : parseSTTx env ctx obj = .ok (some tx, obj')) (hop : opTypeOf obj = .ok opType)
    (hm : obj.isMember "OpType" ∨ tx.txnType = ttTABLELISTSET ∨ tx.txnType = ttSQLSTATEMENT)
    (h : handleTx env ctx result view obj = .ok pass) :
    (if opType ≠ T_ASSERT then dispatch env ctx opType result view { tx with parentTxID := some ctx.realTxID }
      else .ok (.next result view)) = .ok pass ∨ pass = .leave temBAD_OPTYPE_IN_TRANSACTION view := by
  obtain ⟨txOpType, htx⟩ := getOpType_parse hparse hm
  simp only [handleTx, hparse, attempt, htx, opTypeOf_parse hparse, hop] at h
  split at h
  · cases h
    exact .inr rfl
  · exact .inl h

theorem handleTx_assert (hop : opTypeOf obj = .ok T_ASSERT) (h : handleTx env ctx result view obj = .ok pass) :
    pass = .next result view ∨ pass = .leave temBAD_OPTYPE_IN_TRANSACTION view := by
  rcases attempt_eq_ok.mp h with ⟨⟨tx, obj'⟩, hparse, hk⟩ | ⟨hthrow, -⟩
  · cases tx with
    | none => cases hk
    | some tx =>
      refine (handleTx_parsed hparse hop (.inl (isMember_of_opTypeOf hop (by decide))) h).imp_left ?_
      intro h
      cases h
      rfl
  · rw [parseSTTx_exception hthrow] at hop
    cases hop

theorem handleTx_performed (hne : opTypeOf obj ≠ .ok T_ASSERT) (hp : Performed env ctx obj view view')
    (h : handleTx env ctx result view obj = .ok pass) :
    pass = .next tesSUCCESS view' ∨ pass = .leave temBAD_OPTYPE_IN_TRANSACTION view := by
  obtain ⟨tx, obj', opType, hparse, hop, htype⟩ : ∃ tx obj' opType,
      parseSTTx env ctx obj = .ok (some tx, obj') ∧ opTypeOf obj = .ok opType ∧
      (tx.txnType = ttTABLELISTSET ∨ tx.txnType = ttSQLSTATEMENT) := by
    cases hp with
    | tableListSet hparse htype hop => exact ⟨_, _, _, hparse, hop, .inl htype⟩
    | sqlStatement hparse htype hop => exact ⟨_, _, _, hparse, hop, .inr htype⟩
  refine (handleTx_parsed hparse hop (.inr htype) h).imp_left ?_
  intro h
  rw [hop] at hne
  rw [if_pos fun heq => hne (congrArg Except.ok heq), dispatch_of_performed hparse hop hp] at h
  exact (Except.ok.inj h).symm

theorem executed_iff_orderly (h : handleEach env ctx tesSUCCESS view objs = .ok (tesSUCCESS, view')) :
    Executed env ctx objs view view' ↔ Orderly env ctx objs view := by
  induction objs generalizing view with
  | nil =>
    cases h
    exact ⟨fun _ => trivial, fun _ => .nil _⟩
  | cons obj objs ih =>
    obtain ⟨pass, hpass, h⟩ := Except.bind_eq_ok.mp h
    constructor
    · intro hex
      -- The pass of an executed statement goes on, since a `leave` has another result than success.
      obtain ⟨v, rfl, hsup, hrest⟩ :
          ∃ v, pass = .next tesSUCCESS v ∧ Supported env ctx obj ∧ Executed env ctx objs v view' := by
        cases hex with
        | assert hop hrest =>
          rcases handleTx_assert hop hpass with rfl | rfl
          · exact ⟨view, rfl, .inl hop, hrest⟩
          · cases h
        | statement hop hp hrest =>
          rcases handleTx_performed hop hp hpass with rfl | rfl
          · exact ⟨_, rfl, hp.supported, hrest⟩
          · cases h
      refine ⟨?_, hsup, ?_⟩
      · intro r v' hcaught
        cases hpass.symm.trans hcaught
      · intro v' hnext
        cases hpass.symm.trans hnext
        exact (ih h).mp hrest
    · rintro ⟨hcaught, hsup, hrest⟩
      have hyields := handleTx_yields hsup hpass
      cases pass with
      | next r v =>
        rcases hyields with ⟨rfl, rfl, hop⟩ | ⟨hop, rfl, hp⟩
        · exact .assert hop ((ih h).mpr (hrest _ hpass))
        · exact .statement hop hp ((ih h).mpr (hrest v hpass))
      | leave r v =>
        cases h
        exact absurd rfl hyields
      | caught r v => exact absurd hpass (hcaught r v)

/-- A result of success means that every statement was applied, in order and with nothing left out,
exactly if no statement on the way throws or has a type without handlers. -/
theorem success_means_executed_iff (objs : Json)
    (h : handleEachTx env ctx view objs = .ok (tesSUCCESS, view')) :
    Executed env ctx objs.elements view view' ↔ Orderly env ctx objs.elements view :=
  executed_iff_orderly h

end

def countRows : Handlers Nat Unit where
  preflightHandler _ := .ok tesSUCCESS
  preclaimHandler _ _ := .ok tesSUCCESS
  applyHandler rows _ := (.ok tesSUCCESS, rows + 1)

def insertTx : STTx Unit := ⟨ttSQLSTATEMENT, some 6, none, ⟨none, none, none, none⟩, ()⟩

def insertOnly : Env Nat Unit where
  parsed _ := some insertTx
  opType_isSome := fun _ _ h _ => Option.some.inj h ▸ rfl
  tableListSet := countRows
  sqlStatement := countRows
  hasOperationRule _ _ := .ok false

def sender : Parent := ⟨"zHb9CJAWyB4zj91VRWn96DkukG4bwdtyTh", 1, 0, ⟨none, none, none, none⟩⟩

def insertStatement : Json :=
  .object [("OpType", .int 6), ("Owner", .string "zHb9CJAWyB4zj91VRWn96DkukG4bwdtyTh"),
    ("Raw", .string "5B7B226964223A317D5D"),
    ("Tables", .array [.object [("Table", .object [("TableName", .string "74")])]])]

theorem success_means_executed_iff_insert :
    handleEachTx insertOnly sender 0 (.array [insertStatement, insertStatement]) = .ok (tesSUCCESS, 2) ∧
      (Executed insertOnly sender [insertStatement, insertStatement] 0 2 ↔
        Orderly insertOnly sender [insertStatement, insertStatement] 0) :=
  ⟨rfl, success_means_executed_iff (.array [insertStatement, insertStatement]) rfl⟩

/-- The second statement has an object where the type of the operation should be. The third is skipped,
and the transaction succeeds. -/
theorem statement_after_exception_skipped :
    let objs := [insertStatement, .object [("OpType", .object [])], insertStatement]
    handleEachTx insertOnly sender 0 (.array objs) = .ok (tesSUCCESS, 1) ∧
      ¬Executed insertOnly sender objs 0 1 := by
  refine ⟨rfl, ?_⟩
  intro hex
  obtain ⟨-, -, hrest⟩ := (executed_iff_orderly rfl).mp hex
  exact (hrest 1 rfl).1 tesSUCCESS 1 rfl

end Chainsql.Sql
