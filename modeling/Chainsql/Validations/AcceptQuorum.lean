import Chainsql.Lib.Run
import Chainsql.Validations.Adaptor

/-!
# The quorum behind an accepted ledger

A ledger should become fully validated only if as many trusted master keys as needed have signed a
validation of exactly that ledger and sequence. The store counts by node and drops what is not
trusted; the list kept for the last accepted ledger does neither. The result is about runs in which
validations name the sequence of their ledger, a set of validations has different trusted signers,
and no counted signer loses trust unnoticed.
-/

namespace Chainsql

variable {reg : Registry} {trusted : Finset PublicKey} {received received' : List Received}
  {validations validations' : List STValidation} {ledger : LedgerRef}

structure Genuine (reg : Registry) (trusted : Finset PublicKey) (received : List Received)
    (validations : List STValidation) : Prop where
  nodup : (validations.map reg.signer).Nodup
  trusted : ∀ v ∈ validations, reg.signer v ∈ trusted
  received : ∀ v ∈ validations, ⟨reg.signer v, v.seq, v.ledgerHash⟩ ∈ received

theorem Genuine.nil : Genuine reg trusted received [] := ⟨List.nodup_nil, nofun, nofun⟩

theorem Genuine.sublist (h : Genuine reg trusted received validations)
    (hsub : validations'.Sublist validations) : Genuine reg trusted received validations' where
  nodup := (hsub.map reg.signer).nodup h.nodup
  trusted v hv := h.trusted v (hsub.subset hv)
  received v hv := h.received v (hsub.subset hv)

theorem Genuine.mono (h : Genuine reg trusted received validations) (hsub : received ⊆ received') :
    Genuine reg trusted received' validations :=
  { h with received := fun v hv => hsub (h.received v hv) }

def AllFor (ledger : LedgerRef) (validations : List STValidation) : Prop :=
  ∀ v ∈ validations, v.seq = ledger.seq ∧ v.ledgerHash = ledger.id

/-- As many keys as needed, trusted at that moment, have signed a validation of the accepted ledger. -/
def AcceptedLedger.Backed (received : List Received) (a : AcceptedLedger) : Prop :=
  ∃ keys ⊆ a.trusted, a.needed ≤ keys.card ∧ ∀ key ∈ keys, ⟨key, a.ledger.seq, a.ledger.id⟩ ∈ received

theorem AcceptedLedger.Backed.mono {a : AcceptedLedger} (h : a.Backed received) (hsub : received ⊆ received') :
    a.Backed received' := by
  obtain ⟨keys, htrusted, hcard, hreceived⟩ := h
  exact ⟨keys, htrusted, hcard, fun key hkey => hsub (hreceived key hkey)⟩

theorem Genuine.backed (h : Genuine reg trusted received validations) (hall : AllFor ledger validations)
    {needed : Nat} (hlength : needed ≤ validations.length) :
    AcceptedLedger.Backed received ⟨ledger, needed, trusted⟩ := by
  refine ⟨(validations.map reg.signer).toFinset, ?_, ?_, ?_⟩
  · intro key hkey
    obtain ⟨v, hv, rfl⟩ := List.mem_map.mp (List.mem_toFinset.mp hkey)
    exact h.trusted v hv
  · rw [List.toFinset_card_of_nodup h.nodup, List.length_map]
    exact hlength
  · intro key hkey
    obtain ⟨v, hv, rfl⟩ := List.mem_map.mp (List.mem_toFinset.mp hkey)
    obtain ⟨hseq, hid⟩ := hall v hv
    rw [← hseq, ← hid]
    exact h.received v hv

/-- A stored validation: under its signer and its ledger, and flagged only if the signer is trusted. -/
structure Stored (reg : Registry) (trusted : Finset PublicKey) (received : List Received) (hash : HashValue)
    (node : PublicKey) (v : STValidation) : Prop where
  signer : reg.signer v = node
  ledgerHash : v.ledgerHash = hash
  seq : v.seq = reg.seqOf hash
  flag : v.isTrusted = true → node ∈ trusted
  received : ⟨node, v.seq, hash⟩ ∈ received

theorem Stored.retrust {hash : HashValue} {node : PublicKey} {v : STValidation}
    (h : Stored reg trusted received hash node v) (later : Finset PublicKey) :
    Stored reg later received hash node
      (Validations.retrust (later \ trusted) (trusted \ later) node v) := by
  unfold Validations.retrust
  split
  next hadded => exact ⟨h.signer, h.ledgerHash, h.seq, fun _ => (Finset.mem_sdiff.mp hadded).1, h.received⟩
  · split
    · exact ⟨h.signer, h.ledgerHash, h.seq, nofun, h.received⟩
    next hkept =>
      refine { h with flag := fun hflag => ?_ }
      by_contra hlost
      exact hkept (Finset.mem_sdiff.mpr ⟨h.flag hflag, hlost⟩)

namespace RpcaPopAdaptor

variable {env : RpcaPopEnv} {s t : RpcaPopAdaptor}

structure Sound (reg : Registry) (s : RpcaPopAdaptor) : Prop where
  stored : s.validations.byLedger.All fun hash table => table.All fun node v =>
    Stored reg s.trusted s.received hash node v
  kept : Genuine reg s.trusted s.received s.validations.lastValidations.validations
  keptFor : AllFor ⟨s.validations.lastValidations.hash, s.validations.lastValidations.seq⟩
    s.validations.lastValidations.validations
  saved : Genuine reg s.trusted s.received s.lastValidationsDB
  accepted : ∀ a ∈ s.accepted, a.Backed s.received

/-! ## The two sources of validations -/

theorem ledger_of_findLedger {info : LedgerRef} (h : s.findLedger reg env info = some ledger) :
    reg.ledger ledger.id = ledger := by
  unfold findLedger at h
  split_ifs at h
  cases h
  rfl

variable {val : STValidation} {set : STValidationSet}

/-- The validation names the sequence of its ledger, and is flagged only if its signer is trusted. -/
def Truthful (reg : Registry) (s : RpcaPopAdaptor) (val : STValidation) : Prop :=
  (val.ledgerSequence.isSome = true → val.seq = reg.seqOf val.ledgerHash)
    ∧ (val.isTrusted = true → reg.signer val ∈ s.trusted)

instance decidableTruthful (reg : Registry) (s : RpcaPopAdaptor) (val : STValidation) :
    Decidable (Truthful reg s val) :=
  inferInstanceAs (Decidable (_ ∧ _))

theorem Truthful.mark (h : Truthful reg s val) : Truthful reg s (s.mark reg val) := by
  unfold RpcaPopAdaptor.mark
  split
  next htrusted => exact ⟨h.1, fun _ => htrusted⟩
  · exact h

/-- The counted signers stay trusted: those of the kept and saved lists, and those of the flagged
validations unless the store is told. -/
def TrustKept (reg : Registry) (s : RpcaPopAdaptor) (trusted : Finset PublicKey) (told : Bool) : Prop :=
  (∀ v ∈ s.validations.lastValidations.validations ++ s.lastValidationsDB, reg.signer v ∈ trusted)
    ∧ (told = true ∨ s.validations.byLedger.All fun _ table => table.All fun node v =>
      v.isTrusted = true → node ∈ trusted)

instance decidableTrustKept (reg : Registry) (s : RpcaPopAdaptor) (trusted : Finset PublicKey) (told : Bool) :
    Decidable (TrustKept reg s trusted told) :=
  inferInstanceAs (Decidable (_ ∧ _))

def Vetted (reg : Registry) (s : RpcaPopAdaptor) (e : Event) : Prop :=
  match e.action with
  | .validate val => Truthful reg s val
  | .peerValidation isTrusted val =>
    Truthful reg s val ∧ (isTrusted = true → reg.signer val ∈ s.trusted)
  | .peerValidationSetData _ set =>
    ((verified e.env set.validations).map reg.signer).Nodup
      ∧ ∀ v ∈ verified e.env set.validations, reg.signer v ∈ s.trusted
  | .updateTrusted trusted _ told => TrustKept reg s trusted told
  | _ => True

instance decidableVetted (reg : Registry) (s : RpcaPopAdaptor) (e : Event) : Decidable (Vetted reg s e) := by
  unfold Vetted
  split <;> infer_instance

namespace Sound

variable (hs : s.Sound reg)
include hs

theorem getTrustedForLedger (hash : HashValue) :
    Genuine reg s.trusted s.received (s.validations.getTrustedForLedger hash)
      ∧ AllFor (reg.ledger hash) (s.validations.getTrustedForLedger hash) := by
  unfold Validations.getTrustedForLedger
  split
  · exact ⟨.nil, nofun⟩
  next table htable =>
    have hstored := hs.stored.lookup htable
    have hentry : ∀ v ∈ (table.entries.map Sigma.snd).filter (fun v => v.isTrusted && v.isFull),
        v.isTrusted = true ∧ Stored reg s.trusted s.received hash (reg.signer v) v := by
      intro v hv
      obtain ⟨hmem, hflags⟩ := List.mem_filter.mp hv
      obtain ⟨e, he, rfl⟩ := List.mem_map.mp hmem
      have hentry := hstored e he
      rw [Bool.and_eq_true] at hflags
      exact ⟨hflags.1, hentry.signer.symm ▸ hentry⟩
    have hkeys : (table.entries.map Sigma.snd).map reg.signer = table.keys := by
      rw [List.map_map]
      exact List.map_congr_left fun e he => (hstored e he).signer
    refine ⟨⟨?_, ?_, ?_⟩, ?_⟩
    · refine (List.filter_sublist.map reg.signer).nodup ?_
      rw [hkeys]
      exact table.nodupKeys
    · exact fun v hv => (hentry v hv).2.flag (hentry v hv).1
    · intro v hv
      rw [(hentry v hv).2.ledgerHash]
      exact (hentry v hv).2.received
    · exact fun v hv => ⟨(hentry v hv).2.seq, (hentry v hv).2.ledgerHash⟩

theorem getLastValidations (ledger : LedgerRef) :
    Genuine reg s.trusted s.received (s.getLastValidations ledger.seq ledger.id)
      ∧ AllFor ledger (s.getLastValidations ledger.seq ledger.id) := by
  unfold RpcaPopAdaptor.getLastValidations
  dsimp only
  split
  · refine ⟨hs.saved.sublist List.filter_sublist, fun v hv => ?_⟩
    simpa using (List.mem_filter.mp hv).2
  · unfold Validations.getLastValidationsFromCache
    split
    next hmatch =>
      refine ⟨hs.kept, fun v hv => ?_⟩
      rw [hmatch.1, hmatch.2]
      exact hs.keptFor v hv
    · exact ⟨.nil, nofun⟩

theorem setLastValidations (hgenuine : Genuine reg s.trusted s.received validations)
    (hall : AllFor ledger validations) :
    { s with validations := s.validations.setLastValidations validations }.Sound reg := by
  have hkept := s.validations.lastValidations_setLastValidations validations
  have hstored := s.validations.byLedger_setLastValidations validations
  refine { hs with stored := by rw [hstored]; exact hs.stored, kept := ?_, keptFor := ?_ }
  · rcases hkept with hkept | ⟨first, -, hkept⟩
    · rw [hkept]
      exact hs.kept
    · rw [hkept]
      exact hgenuine
  · rcases hkept with hkept | ⟨first, hfirst, hkept⟩
    · rw [hkept]
      exact hs.keptFor
    · rw [hkept]
      intro v hv
      exact ⟨(hall v hv).1.trans (hall first hfirst).1.symm, (hall v hv).2.trans (hall first hfirst).2.symm⟩

/-! ## Accepting -/

theorem countedFor (env : RpcaPopEnv) (hledger : reg.ledger ledger.id = ledger) :
    Genuine reg s.trusted s.received (s.countedFor reg env ledger)
      ∧ AllFor ledger (s.countedFor reg env ledger) := by
  unfold RpcaPopAdaptor.countedFor
  dsimp only
  split
  · exact hs.getLastValidations ledger
  · obtain ⟨hgenuine, hall⟩ := hs.getTrustedForLedger ledger.id
    rw [hledger] at hall
    exact ⟨hgenuine.sublist List.filter_sublist, fun v hv => hall v (List.mem_of_mem_filter hv)⟩

theorem checkLedgerAccept (env : RpcaPopEnv) (info : LedgerRef) : (s.checkLedgerAccept reg env info).1.Sound reg := by
  unfold RpcaPopAdaptor.checkLedgerAccept
  split
  · exact hs
  next ledger hfound =>
    obtain ⟨hgenuine, hall⟩ := hs.countedFor env (ledger_of_findLedger hfound)
    dsimp only
    split
    · exact hs
    next hmany =>
      refine { hs.setLastValidations hgenuine hall with accepted := ?_ }
      intro a ha
      rcases List.mem_cons.mp ha with rfl | ha
      · exact hgenuine.backed hall (Nat.le_of_not_lt hmany)
      · exact hs.accepted a ha

theorem tryAccept (env : RpcaPopEnv) (info : LedgerRef) : (s.tryAccept reg env info).Sound reg := by
  have hchecked := hs.checkLedgerAccept env info
  unfold RpcaPopAdaptor.tryAccept
  generalize s.checkLedgerAccept reg env info = checked at hchecked
  obtain ⟨s', _ | ledger⟩ := checked
  · exact hchecked
  · exact { hchecked with }

theorem tryAcceptHash (hash : HashValue) (seq : UInt32) : (s.tryAcceptHash reg env hash seq).Sound reg := by
  unfold RpcaPopAdaptor.tryAcceptHash
  split
  · exact hs
  · split
    · exact hs.tryAccept _ _
    · exact hs

/-! ## Validations of peers -/

theorem receive (news : List Received) : { s with received := news ++ s.received }.Sound reg := by
  have hsub : s.received ⊆ news ++ s.received := List.subset_append_right news s.received
  exact {
    stored := hs.stored.imp fun _ _ htable => htable.imp fun _ _ h => { h with received := hsub h.received }
    kept := hs.kept.mono hsub
    keptFor := hs.keptFor
    saved := hs.saved.mono hsub
    accepted := fun a ha => (hs.accepted a ha).mono hsub }

theorem add (clock : ValidationClock) {node : PublicKey}
    (hval : Stored reg s.trusted s.received val.ledgerHash node val) :
    { s with validations := (s.validations.add clock node val).1 }.Sound reg := by
  have hkept := s.validations.lastValidations_add clock node val
  have hstored := s.validations.byLedger_add clock node val
  refine { hs with stored := ?_, kept := by rw [hkept]; exact hs.kept, keptFor := by rw [hkept]; exact hs.keptFor }
  rcases hstored with hstored | hstored
  · rw [hstored]
    exact hs.stored
  · rw [hstored]
    refine hs.stored.insert (AList.All.insert ?_ hval)
    cases hlookup : s.validations.byLedger.lookup val.ledgerHash with
    | none => exact AList.all_empty
    | some table => exact hs.stored.lookup hlookup

theorem handleNewValidation (hval : Truthful reg s val) : (s.handleNewValidation reg env val).Sound reg := by
  have hmarked := hval.mark
  unfold RpcaPopAdaptor.handleNewValidation
  generalize s.mark reg val = v at hmarked
  have hreceived := hs.receive [⟨reg.signer v, v.seq, v.ledgerHash⟩]
  dsimp only
  split
  · exact hreceived
  next hsome =>
    split
    · exact hreceived
    · have hseq : v.seq = reg.seqOf v.ledgerHash :=
        hmarked.1 (Option.isSome_iff_ne_none.mpr fun hnone => hsome (by rw [hnone]; rfl))
      have hstored : Stored reg s.trusted (⟨reg.signer v, v.seq, v.ledgerHash⟩ :: s.received) v.ledgerHash
          (reg.signer v) v :=
        ⟨rfl, rfl, hseq, hmarked.2, List.mem_cons_self⟩
      have hadded := hreceived.add env.clock hstored
      split
      · exact hadded.tryAcceptHash _ _
      · exact hadded

theorem peerValidation {isTrusted : Bool} (hval : Truthful reg s val)
    (hsender : isTrusted = true → reg.signer val ∈ s.trusted) :
    (s.peerValidation reg env isTrusted val).Sound reg := by
  have hflagged : Truthful reg s (if isTrusted then { val with isTrusted := true } else val) := by
    split
    next hflag => exact ⟨hval.1, fun _ => hsender hflag⟩
    · exact hval
  unfold RpcaPopAdaptor.peerValidation
  generalize (if isTrusted then { val with isTrusted := true } else val) = v at hflagged
  dsimp only
  split
  · exact hs
  · exact hs.handleNewValidation hflagged

theorem acceptSet (hall : AllFor ⟨set.hash, set.seq⟩ set.validations)
    (hnodup : ((verified env set.validations).map reg.signer).Nodup)
    (htrusted : ∀ v ∈ verified env set.validations, reg.signer v ∈ s.trusted) :
    (s.acceptSet reg env set).Sound reg := by
  have hverified : AllFor ⟨set.hash, set.seq⟩ (verified env set.validations) :=
    fun v hv => hall v (List.mem_of_mem_filter hv)
  have hreceived := hs.receive
    ((verified env set.validations).map fun v => ⟨reg.signer v, v.seq, v.ledgerHash⟩)
  have hgenuine : Genuine reg s.trusted
      ((verified env set.validations).map (fun v => ⟨reg.signer v, v.seq, v.ledgerHash⟩) ++ s.received)
      (verified env set.validations) :=
    ⟨hnodup, htrusted, fun v hv => List.mem_append_left _ (List.mem_map_of_mem hv)⟩
  unfold RpcaPopAdaptor.acceptSet
  dsimp only
  split
  · have hkept := hreceived.setLastValidations hgenuine hverified
    split
    · exact hkept.tryAccept _ _
    · exact hkept
  · exact hreceived

theorem peerValidationSetData {sender : PublicKey} (hnodup : ((verified env set.validations).map reg.signer).Nodup)
    (htrusted : ∀ v ∈ verified env set.validations, reg.signer v ∈ s.trusted) :
    (s.peerValidationSetData reg env sender set).Sound reg := by
  unfold RpcaPopAdaptor.peerValidationSetData
  split
  · exact hs
  · split
    · exact hs
    · split
      · exact hs
      · split
        · exact hs
        next hany =>
          refine hs.acceptSet ?_ hnodup htrusted
          intro v hv
          simp only [List.any_eq_true, not_exists, not_and, Bool.or_eq_true, decide_eq_true_eq, not_or,
            not_not] at hany
          exact ⟨(hany v hv).1.symm, (hany v hv).2.symm⟩

/-! ## Other steps -/

theorem consensusBuilt (hash : HashValue) : (s.consensusBuilt reg env hash).Sound reg := by
  unfold RpcaPopAdaptor.consensusBuilt
  dsimp only
  split
  · exact hs
  · split
    · exact hs
    · have haccepted := hs.tryAccept env (reg.ledger hash)
      split
      · exact haccepted
      · have hcurrent : { s.tryAccept reg env (reg.ledger hash) with
            validations := ((s.tryAccept reg env (reg.ledger hash)).validations.currentTrusted env.clock).1
            }.Sound reg := { haccepted with }
        split
        · exact hcurrent.tryAcceptHash _ _
        · exact hcurrent

theorem updateTrusted {trusted : Finset PublicKey} (listed : Finset PublicKey) {told : Bool}
    (hkept : TrustKept reg s trusted told) : (s.updateTrusted trusted listed told).Sound reg := by
  obtain ⟨hlists, hflags⟩ := hkept
  have hsaved : Genuine reg trusted s.received s.lastValidationsDB :=
    { hs.saved with trusted := fun v hv => hlists v (List.mem_append_right _ hv) }
  have hlast : Genuine reg trusted s.received s.validations.lastValidations.validations :=
    { hs.kept with trusted := fun v hv => hlists v (List.mem_append_left _ hv) }
  cases told with
  | true =>
    refine ⟨?_, hlast, hs.keptFor, hsaved, hs.accepted⟩
    exact Validations.all_byLedger_trustChanged hs.stored fun _ _ _ hv => hv.retrust trusted
  | false =>
    have hflags := hflags.resolve_left (by simp)
    refine ⟨?_, hlast, hs.keptFor, hsaved, hs.accepted⟩
    exact fun e he f hf => { hs.stored e he f hf with flag := hflags e he f hf }

theorem saveValidatedLedger (ledger : LedgerRef) : (s.saveValidatedLedger ledger).Sound reg := by
  refine { hs with saved := ?_ }
  unfold RpcaPopAdaptor.saveValidatedLedger Validations.getLastValidationsFromCache
  split
  · exact hs.kept
  · exact .nil

/-! ## Runs -/

theorem step {e : Event} (hok : Vetted reg s e) : (s.step reg e).Sound reg := by
  unfold RpcaPopAdaptor.step
  unfold Vetted at hok
  split
  next haction =>
    rw [haction] at hok
    exact hs.handleNewValidation hok
  next haction =>
    rw [haction] at hok
    exact hs.peerValidation hok.1 hok.2
  next haction =>
    rw [haction] at hok
    exact hs.peerValidationSetData hok.1 hok.2
  · exact hs.consensusBuilt _
  · exact hs.tryAccept _ _
  next haction =>
    rw [haction] at hok
    exact hs.updateTrusted _ hok
  · exact hs.saveValidatedLedger _
  · exact { hs with stored := hs.stored.eraseIf _ }
  · exact { hs with }

end Sound

def fresh (trusted listed : Finset PublicKey) : RpcaPopAdaptor where
  trusted := trusted
  listed := listed

theorem sound_fresh (trusted listed : Finset PublicKey) : (fresh trusted listed).Sound reg :=
  ⟨AList.all_empty, .nil, nofun, .nil, nofun⟩

def sixHundred : Registry where
  seqOf hash := if hash = 600 then 6 else 5

def atHand : RpcaPopEnv where
  quorum := 3
  verifyDigest _ _ _ := true
  getLedgerByHash _ := true
  clock := { closeTime := 1000, now := 1 }

def validationOf (key : PublicKey) : STValidation where
  signerPublic := key
  ledgerHash := 600
  ledgerSequence := some 6
  signTime := 1000

def validatedFive : Event := ⟨.setValidLedger ⟨500, 5⟩, atHand⟩

end RpcaPopAdaptor

end Chainsql
