import Chainsql.Evm.Ledger
import Chainsql.Lib.Effects
import Chainsql.Lib.Run

/-!
# The registry of schemas

`SchemaCreate`, `SchemaModify` and `SchemaDelete`. A schema has validators and peers, one peer for each
validator. What the three transactors check is spread over `preflight`, `preclaim` and `doApply`; a
transaction that fails in any of them leaves the registry as it was.
-/

namespace Chainsql.Schema

open Evm (AccountID Bytes Crash TER Word tesSUCCESS tecDIR_FULL)

def temMALFORMED : TER := ⟨200⟩
def temBAD_OPTYPE : TER := ⟨240⟩
def temBAD_VALIDATOR : TER := ⟨256⟩
def temBAD_PEERLIST : TER := ⟨257⟩
def temBAD_ANCHORLEDGER : TER := ⟨258⟩
def temBAD_SIGNERFORVAL : TER := ⟨259⟩
def temBAD_SCHEMAADMIN : TER := ⟨260⟩
def tefBAD_LEDGER : TER := ⟨304⟩
def tefSCHEMA_VALIDATOREXIST : TER := ⟨343⟩
def tefSCHEMA_NOVALIDATOR : TER := ⟨344⟩
def tefSCHEMA_PEEREXIST : TER := ⟨345⟩
def tefSCHEMA_NOPEER : TER := ⟨346⟩
def tefBAD_SCHEMAID : TER := ⟨347⟩
def tefBAD_SCHEMAADMIN : TER := ⟨348⟩
def tefBAD_SCHEMAACCOUNT : TER := ⟨349⟩
def tefSCHEMA_TX_FORBIDDEN : TER := ⟨350⟩
def tefBAD_DUPLACATE_ITEM : TER := ⟨352⟩
def tefSCHEMA_NODE_COUNT : TER := ⟨353⟩
def tefSCHEMA_MAX_SCHEMAS : TER := ⟨354⟩

def MIN_NODE_COUNT_SCHEMA : Nat := 3

def MAX_VALIDATOR_SCHEMA_COUNT : Nat := 5

/-- `SchemaStragegy::with_state`. -/
def with_state : UInt8 := 2

/-- `SchemaModifyOp::add`. -/
def opAdd : UInt16 := 1

/-- `SchemaModifyOp::del`. -/
def opDel : UInt16 := 2

inductive TxType where
  | ttSCHEMA_CREATE | ttSCHEMA_MODIFY | ttSCHEMA_DELETE
deriving DecidableEq

/-- A member of `sfValidators` or `sfPeerList`: the number of its fields, and its `sfPublicKey` or
`sfEndpoint`. -/
structure InnerObject where
  count : Nat
  field : Option Bytes
deriving DecidableEq

def InnerObject.getFieldVL (o : InnerObject) : Bytes := o.field.getD []

structure SchemaTx where
  type : TxType
  account : AccountID
  signingPubKey : Bytes
  signers : List Bytes
  schemaName : Option Bytes
  schemaStrategy : Option UInt8
  schemaAdmin : Option AccountID
  anchorLedgerHash : Option Word
  validators : Option (List InnerObject)
  peerList : Option (List InnerObject)
  opType : Option UInt16
  schemaID : Option Word

structure Validator where
  publicKey : Bytes
  signed : Bool
deriving DecidableEq

/-- The parts of an entry that the transactors read again. -/
structure SchemaEntry where
  account : AccountID
  schemaAdmin : Option AccountID
  validators : List Validator
  peerList : List Bytes
deriving DecidableEq

def SchemaEntry.keys (s : SchemaEntry) : List Bytes := s.validators.map Validator.publicKey

structure Registry where
  schemas : AList fun _ : Word => SchemaEntry
  /-- `sfSchemaIndexes`. A schema that is deleted stays in it. -/
  schemaIndexes : List Word

/-- What the transactors read of the node and of the rest of the ledger when a transaction is applied. -/
structure Context where
  preflight1 : SchemaTx → TER
  preflight2 : SchemaTx → TER
  schemaId : Word
  getLedgerByHash : Word → Bool
  accountExists : AccountID → Bool
  publicKeyType : Bytes → Bool
  schemaKey : SchemaTx → Word
  /-- Whether the owner directory has room. -/
  dirAdd : Bool
  dirRemove : Bool

variable (ctx : Context) (tx : SchemaTx) (r : Registry)

def SchemaTx.vals : List InnerObject := tx.validators.getD []

def SchemaTx.peers : List InnerObject := tx.peerList.getD []

/-! ## `preflight` -/

/-- All three transactors check the presence of their fields. -/
def fieldsPresent : Bool :=
  match tx.type with
  | .ttSCHEMA_CREATE =>
    tx.schemaName.isSome && tx.schemaStrategy.isSome && tx.validators.isSome && tx.peerList.isSome
  | .ttSCHEMA_MODIFY => tx.opType.isSome && tx.validators.isSome && tx.peerList.isSome && tx.schemaID.isSome
  | .ttSCHEMA_DELETE => tx.schemaID.isSome

def preflight : TER :=
  if ctx.preflight1 tx ≠ tesSUCCESS then ctx.preflight1 tx
  else if !fieldsPresent tx then temMALFORMED
  else if ctx.schemaId ≠ 0 then tefSCHEMA_TX_FORBIDDEN
  else ctx.preflight2 tx

/-! ## `preclaim` -/

/-- The loops of `preClaimCommon` over validators and peers. -/
def checkItems (bad : TER) (valid : Bytes → Bool) : List InnerObject → List Bytes → Except TER (List Bytes)
  | [], found => .ok found
  | o :: rest, found =>
    if o.count ≠ 1 ∨ o.field.isNone ∨ o.getFieldVL = [] ∨ !valid o.getFieldVL then .error bad
    else if found.contains o.getFieldVL then .error tefBAD_DUPLACATE_ITEM
    else checkItems bad valid rest (found ++ [o.getFieldVL])

/-- Counts keys until one has been counted too often. -/
def countValidators : List Bytes → (Bytes → Nat) → Option (Bytes → Nat)
  | [], count => some count
  | key :: rest, count =>
    if MAX_VALIDATOR_SCHEMA_COUNT < count key + 1 then none
    else countValidators rest (Function.update count key (count key + 1))

def indexedKeys : List Bytes :=
  r.schemaIndexes.flatMap fun index => ((r.schemas.lookup index).map SchemaEntry.keys).getD []

def checkCountsForValidator (validators : List Bytes) : TER :=
  if tx.type = .ttSCHEMA_MODIFY ∧ tx.opType = some opDel then tesSUCCESS
  else if (countValidators (indexedKeys r) fun key => validators.count key).isNone then tefSCHEMA_MAX_SCHEMAS
  else tesSUCCESS

def preClaimCommon : TER :=
  match checkItems temBAD_VALIDATOR ctx.publicKeyType tx.vals [] with
  | .error ter => ter
  | .ok validators =>
    match checkItems temBAD_PEERLIST (fun _ => true) tx.peers [] with
    | .error ter => ter
    | .ok peerList =>
      if validators.length ≠ peerList.length then temMALFORMED else checkCountsForValidator tx r validators

def checkMulsignValid (vals : List Bytes) : TER :=
  if tx.signers.all fun spk => vals.contains spk then tesSUCCESS else temBAD_SIGNERFORVAL

def createPreclaim : TER :=
  if tx.schemaStrategy = some with_state ∧ tx.anchorLedgerHash.any (fun hash => !ctx.getLedgerByHash hash) then
    temBAD_ANCHORLEDGER
  else if tx.vals.length = 0 ∨ tx.peers.length = 0 then temMALFORMED
  else if tx.vals.length < MIN_NODE_COUNT_SCHEMA ∨ tx.peers.length < MIN_NODE_COUNT_SCHEMA then tefSCHEMA_NODE_COUNT
  else if tx.schemaAdmin.any (fun admin => !ctx.accountExists admin) then temBAD_SCHEMAADMIN
  else if preClaimCommon ctx tx r ≠ tesSUCCESS then preClaimCommon ctx tx r
  else checkMulsignValid tx (tx.vals.map InnerObject.getFieldVL)

def modifyPreclaim : TER :=
  if tx.opType ≠ some opAdd ∧ tx.opType ≠ some opDel then temBAD_OPTYPE
  else if tx.vals.length = 0 ∧ tx.peers.length = 0 then temMALFORMED
  else preClaimCommon ctx tx r

def preclaim : TER :=
  match tx.type with
  | .ttSCHEMA_CREATE => createPreclaim ctx tx r
  | .ttSCHEMA_MODIFY => modifyPreclaim ctx tx r
  | .ttSCHEMA_DELETE => tesSUCCESS

/-! ## `doApply` -/

def setVavlidValInfo (val : InnerObject) : Validator :=
  ⟨val.getFieldVL, tx.signingPubKey.isEmpty && tx.signers.contains val.getFieldVL⟩

def createApply : Except Crash (TER × Registry) :=
  let key := ctx.schemaKey tx
  match r.schemas.lookup key with
  | some _ => .error .terminate
  | none =>
    let entry := ⟨tx.account, tx.schemaAdmin, tx.vals.map (setVavlidValInfo tx), tx.peers.map InnerObject.getFieldVL⟩
    let r := ⟨r.schemas.insert key entry, r.schemaIndexes ++ [key]⟩
    .ok (if ctx.dirAdd then tesSUCCESS else tecDIR_FULL, r)

/-- The loops over the validators and the peers of a modification. -/
def modifyItems {α : Type} (key : α → Bytes) (add : Bool) (exist missing : TER) :
    List α → List α → Except TER (List α)
  | [], items => .ok items
  | item :: rest, items =>
    let present := items.any fun i => key i == key item
    if add then
      if present then .error exist else modifyItems key add exist missing rest (items ++ [item])
    else if present then modifyItems key add exist missing rest (items.eraseP fun i => key i == key item)
    else .error missing

/-- Who may modify or delete a schema. -/
def checkSender (schema : SchemaEntry) : TER :=
  if tx.signingPubKey ≠ [] then if schema.schemaAdmin ≠ some tx.account then tefBAD_SCHEMAADMIN else tesSUCCESS
  else if schema.account ≠ tx.account then tefBAD_SCHEMAACCOUNT
  else checkMulsignValid tx schema.keys

/-- The subtraction of the sizes is one of unsigned numbers of 64 bits. -/
def modifyEntry (schema : SchemaEntry) : Except TER SchemaEntry :=
  let add := tx.opType == some opAdd
  if tx.opType = some opDel ∧
      (schema.validators.length + 2 ^ 64 - tx.vals.length) % 2 ^ 64 < MIN_NODE_COUNT_SCHEMA then
    .error tefSCHEMA_NODE_COUNT
  else do
    let validators ← modifyItems Validator.publicKey add tefSCHEMA_VALIDATOREXIST tefSCHEMA_NOVALIDATOR
      (tx.vals.map (setVavlidValInfo tx)) schema.validators
    let peerList ← modifyItems id add tefSCHEMA_PEEREXIST tefSCHEMA_NOPEER
      (tx.peers.map InnerObject.getFieldVL) schema.peerList
    return { schema with validators, peerList }

def modifyApply : TER × Registry :=
  let id := tx.schemaID.getD 0
  match r.schemas.lookup id with
  | none => (tefBAD_SCHEMAID, r)
  | some schema =>
    if checkSender tx schema ≠ tesSUCCESS then (checkSender tx schema, r)
    else
      match modifyEntry tx schema with
      | .error ter => (ter, r)
      | .ok schema => (tesSUCCESS, { r with schemas := r.schemas.insert id schema })

def deleteApply : TER × Registry :=
  let id := tx.schemaID.getD 0
  match r.schemas.lookup id with
  | none => (tefBAD_SCHEMAID, r)
  | some schema =>
    if checkSender tx schema ≠ tesSUCCESS then (checkSender tx schema, r)
    else if !ctx.dirRemove then (tefBAD_LEDGER, r)
    else (tesSUCCESS, { r with schemas := r.schemas.erase id })

def doApply : Except Crash (TER × Registry) :=
  match tx.type with
  | .ttSCHEMA_CREATE => createApply ctx tx r
  | .ttSCHEMA_MODIFY => .ok (modifyApply tx r)
  | .ttSCHEMA_DELETE => .ok (deleteApply ctx tx r)

/-- One transaction. Only what a successful one has changed is written to the ledger. -/
def apply (r : Registry) (action : Context × SchemaTx) : Except Crash Registry :=
  let (ctx, tx) := action
  if preflight ctx tx ≠ tesSUCCESS then .ok r
  else if preclaim ctx tx r ≠ tesSUCCESS then .ok r
  else do
    let (ter, r') ← doApply ctx tx r
    return if ter = tesSUCCESS then r' else r

def Registry.empty : Registry := ⟨∅, []⟩

/-! ## Shape -/

def Registry.schemasOf (r : Registry) (key : Bytes) : Nat := r.schemas.values.countP fun s => key ∈ s.keys

structure SchemaEntry.Valid (s : SchemaEntry) : Prop where
  validators_distinct : s.keys.Nodup
  peers_distinct : s.peerList.Nodup
  same_number : s.validators.length = s.peerList.length
  enough : MIN_NODE_COUNT_SCHEMA ≤ s.validators.length

structure Registry.Valid (r : Registry) : Prop where
  schemas : r.schemas.All fun _ s => s.Valid
  bounded : ∀ key, r.schemasOf key ≤ MAX_VALIDATOR_SCHEMA_COUNT

variable {ctx tx r}

/-! ### The checks -/

variable {bad ter : TER} {found : List Bytes} {os : List InnerObject} {valid : Bytes → Bool} {key : Bytes}
  {entry : SchemaEntry} {id : Word} {r' : Registry}

theorem checkItems_eq_ok {found' : List Bytes} (hnodup : found.Nodup) (h : checkItems bad valid os found = .ok found') :
    found' = found ++ os.map InnerObject.getFieldVL ∧ found'.Nodup := by
  induction os generalizing found with
  | nil =>
    cases h
    exact ⟨(List.append_nil _).symm, hnodup⟩
  | cons o os ih =>
    unfold checkItems at h
    split at h
    · cases h
    · split at h
      · cases h
      next hnot =>
        have hnew : o.getFieldVL ∉ found := by simpa using hnot
        obtain ⟨heq, hnodup'⟩ := ih (List.concat_eq_append ▸ hnodup.concat hnew) h
        refine ⟨?_, hnodup'⟩
        rw [heq, List.append_assoc]
        rfl

theorem countValidators_eq_some {keys : List Bytes} {count count' : Bytes → Nat}
    (h : countValidators keys count = some count') (hkey : key ∈ keys) :
    count key + keys.count key ≤ MAX_VALIDATOR_SCHEMA_COUNT := by
  induction keys generalizing count with
  | nil => cases hkey
  | cons k keys ih =>
    unfold countValidators at h
    split at h
    · cases h
    next hle =>
      by_cases hmem : key ∈ keys
      · have hrest := ih h hmem
        by_cases heq : key = k
        · subst heq
          rw [Function.update_self] at hrest
          rw [List.count_cons_self]
          omega
        · rw [Function.update_of_ne heq] at hrest
          rw [List.count_cons_of_ne (Ne.symm heq)]
          exact hrest
      · have heq : key = k := (List.mem_cons.mp hkey).resolve_right hmem
        subst heq
        rw [List.count_cons_self, List.count_eq_zero.mpr hmem]
        omega

structure Checked (tx : SchemaTx) (r : Registry) : Prop where
  validators_distinct : (tx.vals.map InnerObject.getFieldVL).Nodup
  peers_distinct : (tx.peers.map InnerObject.getFieldVL).Nodup
  same_number : tx.vals.length = tx.peers.length
  bounded : ¬(tx.type = .ttSCHEMA_MODIFY ∧ tx.opType = some opDel) →
    ∀ key ∈ tx.vals.map InnerObject.getFieldVL, (indexedKeys r).count key + 1 ≤ MAX_VALIDATOR_SCHEMA_COUNT

theorem checkItems_eq_error (h : checkItems bad valid os found = .error ter) :
    ter = bad ∨ ter = tefBAD_DUPLACATE_ITEM := by
  induction os generalizing found with
  | nil => cases h
  | cons o os ih =>
    unfold checkItems at h
    split at h
    · cases h
      exact .inl rfl
    · split at h
      · cases h
        exact .inr rfl
      · exact ih h

theorem checked_of_preClaimCommon (h : preClaimCommon ctx tx r = tesSUCCESS) : Checked tx r := by
  unfold preClaimCommon at h
  split at h
  next ter hter =>
    rcases checkItems_eq_error hter with rfl | rfl
    · cases h
    · cases h
  next validators hvalidators =>
    obtain ⟨rfl, hvalidators⟩ := checkItems_eq_ok List.nodup_nil hvalidators
    split at h
    next ter hter =>
      rcases checkItems_eq_error hter with rfl | rfl
      · cases h
      · cases h
    next peerList hpeers =>
      obtain ⟨rfl, hpeers⟩ := checkItems_eq_ok List.nodup_nil hpeers
      split at h
      · cases h
      next hlen =>
        rw [List.nil_append] at hvalidators hpeers h
        refine ⟨hvalidators, hpeers, by simpa using hlen, fun hop key hkey => ?_⟩
        rw [checkCountsForValidator, if_neg hop] at h
        split at h
        · cases h
        next hsome =>
          obtain ⟨count, hcount⟩ := Option.ne_none_iff_exists'.mp (by simpa using hsome)
          by_cases hin : key ∈ indexedKeys r
          · have hle := countValidators_eq_some hcount hin
            rw [List.count_eq_one_of_mem hvalidators hkey] at hle
            omega
          · rw [List.count_eq_zero.mpr hin]
            decide

/-! ### The loops of a modification -/

section

variable {α : Type} {key : α → Bytes} {exist missing : TER} {new items items' : List α}

theorem modifyItems_add (hnodup : (items.map key).Nodup)
    (h : modifyItems key true exist missing new items = .ok items') :
    items' = items ++ new ∧ (items'.map key).Nodup := by
  induction new generalizing items with
  | nil =>
    cases h
    exact ⟨(List.append_nil _).symm, hnodup⟩
  | cons item new ih =>
    simp only [modifyItems, if_true] at h
    split at h
    · cases h
    next hnot =>
      have hnew : key item ∉ items.map key := by
        intro hmem
        obtain ⟨i, hi, heq⟩ := List.mem_map.mp hmem
        exact hnot (List.any_eq_true.mpr ⟨i, hi, beq_iff_eq.mpr heq⟩)
      have hnodup' : ((items ++ [item]).map key).Nodup := by
        rw [List.map_append, List.map_singleton, ← List.concat_eq_append]
        exact hnodup.concat hnew
      obtain ⟨heq, hnodup''⟩ := ih hnodup' h
      refine ⟨?_, hnodup''⟩
      rw [heq, List.append_assoc]
      rfl

theorem modifyItems_del (h : modifyItems key false exist missing new items = .ok items') :
    items'.length + new.length = items.length ∧ items'.Sublist items := by
  induction new generalizing items with
  | nil =>
    cases h
    exact ⟨rfl, List.Sublist.refl _⟩
  | cons item new ih =>
    simp only [modifyItems, Bool.false_eq_true, if_false] at h
    split at h
    next hany =>
      obtain ⟨hlen, hsub⟩ := ih h
      obtain ⟨i, hi, heq⟩ := List.any_eq_true.mp hany
      have herase := List.length_eraseP_of_mem (p := fun i => key i == key item) hi heq
      have hpos := List.length_pos_of_mem hi
      refine ⟨?_, hsub.trans List.eraseP_sublist⟩
      rw [List.length_cons]
      omega
    · cases h

end

/-! ### The registry -/

/-- Every schema is in the index, so that what is counted there is enough. -/
structure Registry.Sound (r : Registry) : Prop extends r.Valid where
  indexed : ∀ id ∈ r.schemas, id ∈ r.schemaIndexes

theorem length_filter_le_count_flatMap {ι : Type} (is : List ι) (f : ι → List Bytes) (key : Bytes) :
    (is.filter fun i => decide (key ∈ f i)).length ≤ (is.flatMap f).count key := by
  induction is with
  | nil => exact le_rfl
  | cons i is ih =>
    rw [List.flatMap_cons, List.count_append]
    by_cases hi : key ∈ f i
    · have hpos := List.count_pos_iff.mpr hi
      rw [List.filter_cons_of_pos (by simpa using hi), List.length_cons]
      omega
    · rw [List.filter_cons_of_neg (by simpa using hi)]
      omega

theorem Registry.Sound.schemasOf_le (h : r.Sound) (key : Bytes) : r.schemasOf key ≤ (indexedKeys r).count key := by
  let ids : List Word := (r.schemas.entries.filter fun e => decide (key ∈ e.2.keys)).map Sigma.fst
  have hids : ids.Nodup := List.Nodup.sublist (List.filter_sublist.map Sigma.fst) r.schemas.nodupKeys
  have hlength : r.schemasOf key = ids.length := by
    rw [List.length_map, ← List.countP_eq_length_filter]
    exact List.countP_map
  have hsub : ids ⊆ r.schemaIndexes.filter fun id =>
      decide (key ∈ ((r.schemas.lookup id).map SchemaEntry.keys).getD []) := by
    intro id hid
    obtain ⟨⟨id, entry⟩, he, rfl⟩ := List.mem_map.mp hid
    obtain ⟨he, hkey⟩ := List.mem_filter.mp he
    have hlookup : r.schemas.lookup id = some entry := AList.mem_lookup_iff.mpr he
    refine List.mem_filter.mpr ⟨h.indexed id (List.mem_keys_of_mem he), ?_⟩
    rw [hlookup]
    exact hkey
  rw [hlength]
  exact (List.subperm_of_subset hids hsub).length_le.trans (length_filter_le_count_flatMap _ _ _)

theorem schemasOf_of_lookup (key : Bytes) (hid : r.schemas.lookup id = some entry) :
    r.schemasOf key = (r.schemas.erase id).values.countP (fun s => key ∈ s.keys) + if key ∈ entry.keys then 1 else 0 := by
  rw [Registry.schemasOf, AList.values_of_lookup hid, Multiset.countP_cons]

theorem SchemaEntry.Valid.of_create (hchecked : Checked tx r) (hmin : MIN_NODE_COUNT_SCHEMA ≤ tx.vals.length) :
    SchemaEntry.Valid ⟨tx.account, tx.schemaAdmin, tx.vals.map (setVavlidValInfo tx),
      tx.peers.map InnerObject.getFieldVL⟩ := by
  have hkeys : (tx.vals.map (setVavlidValInfo tx)).map Validator.publicKey = tx.vals.map InnerObject.getFieldVL := by
    rw [List.map_map]
    rfl
  refine ⟨?_, hchecked.peers_distinct, ?_, ?_⟩
  · rw [SchemaEntry.keys, hkeys]
    exact hchecked.validators_distinct
  · rw [List.length_map, List.length_map]
    exact hchecked.same_number
  · rw [List.length_map]
    exact hmin

theorem Registry.Sound.create (h : r.Sound) (hpreclaim : createPreclaim ctx tx r = tesSUCCESS)
    (htype : tx.type = .ttSCHEMA_CREATE) (happly : createApply ctx tx r = .ok (ter, r')) : r'.Sound := by
  unfold createPreclaim at hpreclaim
  split at hpreclaim
  · cases hpreclaim
  split at hpreclaim
  · cases hpreclaim
  split at hpreclaim
  · cases hpreclaim
  rename_i hcount
  split at hpreclaim
  · cases hpreclaim
  split at hpreclaim
  next hne => exact absurd hpreclaim hne
  rename_i hcommon
  have hchecked := checked_of_preClaimCommon (not_not.mp hcommon)
  have hvalid := SchemaEntry.Valid.of_create hchecked (Nat.le_of_not_lt fun hlt => hcount (.inl hlt))
  unfold createApply at happly
  dsimp only at happly
  split at happly
  · cases happly
  next hfresh =>
    cases happly
    refine ⟨⟨h.schemas.insert hvalid, fun key => ?_⟩, fun id hid => ?_⟩
    · rw [Registry.schemasOf, AList.values_insert, AList.erase_of_lookup_none hfresh, Multiset.countP_cons]
      split
      next hkey =>
        have hkey : key ∈ tx.vals.map InnerObject.getFieldVL := by
          rw [SchemaEntry.keys, List.map_map] at hkey
          exact hkey
        have hle := hchecked.bounded (fun hop => by simp [htype] at hop) key hkey
        exact (Nat.add_le_add_right (h.schemasOf_le key) 1).trans hle
      · exact h.bounded key
    · rcases (AList.mem_insert _).mp hid with rfl | hid
      · exact List.mem_append_right _ List.mem_cons_self
      · exact List.mem_append_left _ (h.indexed id hid)

/-- A schema stays valid under a modification, and belongs only to new validators of the transaction. -/
theorem modifyEntry_eq_ok {schema schema' : SchemaEntry} (hvalid : schema.Valid) (hchecked : Checked tx r)
    (hop : tx.opType = some opAdd ∨ tx.opType = some opDel) (h : modifyEntry tx schema = .ok schema') :
    schema'.Valid ∧ ∀ key ∈ schema'.keys, key ∈ schema.keys ∨
      tx.opType = some opAdd ∧ key ∈ tx.vals.map InnerObject.getFieldVL := by
  unfold modifyEntry at h
  split at h
  · cases h
  rename_i hsize
  obtain ⟨validators, hvalidators, h⟩ := Except.bind_eq_ok.mp h
  obtain ⟨peerList, hpeers, h⟩ := Except.bind_eq_ok.mp h
  cases h
  rcases hop with hop | hop
  · rw [hop] at hvalidators hpeers
    obtain ⟨rfl, hkeys⟩ := modifyItems_add hvalid.validators_distinct hvalidators
    obtain ⟨rfl, hpeerKeys⟩ := modifyItems_add (by simpa using hvalid.peers_distinct) hpeers
    refine ⟨⟨hkeys, by simpa using hpeerKeys, ?_, ?_⟩, fun key hkey => ?_⟩
    · simp [hvalid.same_number, hchecked.same_number]
    · rw [List.length_append]
      exact hvalid.enough.trans (Nat.le_add_right _ _)
    · rw [SchemaEntry.keys, List.map_append, List.mem_append, List.map_map] at hkey
      exact hkey.imp id fun hkey => ⟨hop, hkey⟩
  · rw [hop] at hvalidators hpeers
    obtain ⟨hlen, hsub⟩ := modifyItems_del hvalidators
    obtain ⟨hpeerLen, hpeerSub⟩ := modifyItems_del hpeers
    rw [List.length_map] at hlen hpeerLen
    have hsame := hvalid.same_number
    have hsame' := hchecked.same_number
    refine ⟨⟨hvalid.validators_distinct.sublist (hsub.map _), hvalid.peers_distinct.sublist hpeerSub, ?_, ?_⟩,
      fun key hkey => .inl ((hsub.map _).subset hkey)⟩
    · dsimp only
      omega
    · -- a deletion of more validators than there are passes the check of sizes, but not the loop
      have hge := Nat.le_of_not_lt fun hlt => hsize ⟨hop, hlt⟩
      have hsub : schema.validators.length + 2 ^ 64 - tx.vals.length = validators.length + 2 ^ 64 := by omega
      rw [hsub, Nat.add_mod_right] at hge
      exact hge.trans (Nat.mod_le _ _)

theorem Registry.Sound.modify (h : r.Sound) (hpreclaim : modifyPreclaim ctx tx r = tesSUCCESS) :
    (modifyApply tx r).2.Sound := by
  unfold modifyPreclaim at hpreclaim
  split at hpreclaim
  · cases hpreclaim
  rename_i hop
  split at hpreclaim
  · cases hpreclaim
  have hchecked := checked_of_preClaimCommon hpreclaim
  unfold modifyApply
  dsimp only
  split
  · exact h
  next schema hschema =>
    split
    · exact h
    · split
      · exact h
      next schema' hschema' =>
        have hop' : tx.opType = some opAdd ∨ tx.opType = some opDel := by
          by_contra hnot
          exact hop (not_or.mp hnot)
        obtain ⟨hvalid, hkeys⟩ := modifyEntry_eq_ok (h.schemas.lookup hschema) hchecked hop' hschema'
        refine ⟨⟨h.schemas.insert hvalid, fun key => ?_⟩, fun id hid => ?_⟩
        · have hbefore := schemasOf_of_lookup key hschema
          have hold := h.bounded key
          have hindexed := h.schemasOf_le key
          rw [Registry.schemasOf, AList.values_insert, Multiset.countP_cons]
          split
          next hkey =>
            rcases hkeys key hkey with hkey | ⟨hadd, hkey⟩
            · rw [if_pos hkey] at hbefore
              omega
            · have hle := hchecked.bounded (fun hdel => by rw [hadd] at hdel; simp [opAdd, opDel] at hdel) key hkey
              omega
          · omega
        · rcases (AList.mem_insert _).mp hid with rfl | hid
          · exact h.indexed _ (AList.lookup_isSome.mp (by rw [hschema]; rfl))
          · exact h.indexed id hid

theorem Registry.Sound.delete (h : r.Sound) : (deleteApply ctx tx r).2.Sound := by
  unfold deleteApply
  dsimp only
  split
  · exact h
  next schema hschema =>
    split
    · exact h
    · split
      · exact h
      · refine ⟨⟨h.schemas.erase _, fun key => ?_⟩, fun id hid => h.indexed id (AList.mem_erase.mp hid).2⟩
        have hbefore := schemasOf_of_lookup key hschema
        have hold := h.bounded key
        exact (Nat.le_add_right _ _).trans (hbefore.symm.le.trans hold)

theorem Registry.Sound.apply {action : Context × SchemaTx} (h : r.Sound) (happly : Schema.apply r action = .ok r') :
    r'.Sound := by
  obtain ⟨ctx, tx⟩ := action
  unfold Schema.apply at happly
  dsimp only at happly
  split at happly
  · cases happly
    exact h
  split at happly
  · cases happly
    exact h
  rename_i hpreclaim
  have hpreclaim := not_not.mp hpreclaim
  obtain ⟨⟨ter, r''⟩, hdo, happly⟩ := Except.bind_eq_ok.mp happly
  have hsound : r''.Sound := by
    unfold doApply at hdo
    unfold preclaim at hpreclaim
    split at hdo
    next htype =>
      rw [htype] at hpreclaim
      exact h.create hpreclaim htype hdo
    next htype =>
      rw [htype] at hpreclaim
      have heq : (modifyApply tx r).2 = r'' := congrArg Prod.snd (Except.ok.inj hdo)
      exact heq ▸ h.modify hpreclaim
    · have heq : (deleteApply ctx tx r).2 = r'' := congrArg Prod.snd (Except.ok.inj hdo)
      exact heq ▸ h.delete
  cases happly
  split
  · exact hsound
  · exact h

theorem sound_empty : Registry.empty.Sound := by
  refine ⟨⟨AList.all_empty, fun key => ?_⟩, fun id hid => ?_⟩
  · exact Nat.zero_le _
  · cases hid

/-! ### Runs -/

def demoContext : Context where
  preflight1 _ := tesSUCCESS
  preflight2 _ := tesSUCCESS
  schemaId := 0
  getLedgerByHash _ := true
  accountExists _ := true
  publicKeyType _ := true
  schemaKey _ := 7
  dirAdd := true
  dirRemove := true

def demoItems (keys : List UInt8) : Option (List InnerObject) := some (keys.map fun key => ⟨1, some [key]⟩)

def demoCreate : SchemaTx where
  type := .ttSCHEMA_CREATE
  account := 1
  signingPubKey := [9]
  signers := []
  schemaName := some [1]
  schemaStrategy := some 1
  schemaAdmin := some 1
  anchorLedgerHash := none
  validators := demoItems [1, 2, 3]
  peerList := demoItems [1, 2, 3]
  opType := none
  schemaID := none

def demoModify (op : UInt16) (key : UInt8) : SchemaTx :=
  { demoCreate with
    type := .ttSCHEMA_MODIFY, validators := demoItems [key], peerList := demoItems [key],
    opType := some op, schemaID := some 7 }

def demoActions : List (Context × SchemaTx) :=
  [(demoContext, demoCreate), (demoContext, demoModify opAdd 4), (demoContext, demoModify opDel 1)]

/-- After any transactions, every schema is well formed and no validator belongs to too many. -/
theorem registry_valid (actions : List (Context × SchemaTx)) (h : Run.reach Schema.apply .empty actions = .ok r) :
    r.Valid :=
  (Run.reach_invariant sound_empty (fun _ _ _ hs happly => hs.apply happly) h).toValid

theorem registry_valid_demoActions :
    ∃ r, Run.reach Schema.apply .empty demoActions = .ok r ∧
      (r.schemas.lookup 7).map SchemaEntry.keys = some [[2], [3], [4]] ∧ r.Valid :=
  ⟨_, rfl, rfl, registry_valid demoActions rfl⟩

/-- The index, in which the schemas of a validator are counted, lists every schema. -/
theorem schemas_indexed (actions : List (Context × SchemaTx)) (h : Run.reach Schema.apply .empty actions = .ok r) :
    ∀ id ∈ r.schemas, id ∈ r.schemaIndexes :=
  (Run.reach_invariant sound_empty (fun _ _ _ hs happly => hs.apply happly) h).indexed

theorem schemas_indexed_demoActions :
    ∃ r, Run.reach Schema.apply .empty demoActions = .ok r ∧ ∀ id ∈ r.schemas, id ∈ r.schemaIndexes :=
  ⟨_, rfl, schemas_indexed demoActions rfl⟩

end Chainsql.Schema
