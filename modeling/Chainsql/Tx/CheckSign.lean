import Chainsql.Tx.Transactor

/-!
# Signatures and keys of a transaction

`STTx::checkSign` verifies the signatures, `Transactor::checkSign` compares the keys with what the ledger
has for the account. Neither does the work of the other: a signature may be valid and made with a key
that has nothing to do with the account.
-/

namespace Chainsql.Tx

open Evm (Crash TER tesSUCCESS AccountID Word Bytes)

def terNO_ACCOUNT : TER := ⟨4⟩
def tefBAD_AUTH : TER := ⟨303⟩
def tefMASTER_DISABLED : TER := ⟨311⟩
def tefBAD_SIGNATURE : TER := ⟨313⟩
def tefBAD_QUORUM : TER := ⟨314⟩
def tefNOT_MULTI_SIGNING : TER := ⟨315⟩
def tefBAD_AUTH_MASTER : TER := ⟨316⟩

structure Crypto where
  /-- Whether the bytes are a public key of a known type. -/
  publicKeyType : Bytes → Bool
  calcAccountID : Bytes → AccountID
  toBase58 : AccountID → String
  /-- Whether the key has signed the data. The last argument asks for a fully canonical signature. -/
  verify : (key data signature : Bytes) → Bool → Bool
  signingData : STTx → Bytes
  multiSigningData : STTx → AccountID → Bytes

namespace STTx

variable (crypto : Crypto) (requireCanonicalSig : Bool) (tx : STTx)

def checkSingleSign : Bool × String :=
  if tx.signers.isSome then (false, "Cannot both single- and multi-sign.")
  else if crypto.publicKeyType tx.signingPubKey &&
      crypto.verify tx.signingPubKey (crypto.signingData tx) (tx.txnSignature.getD [])
        (tx.fullyCanonicalSig || requireCanonicalSig) then (true, "")
  else (false, "Invalid signature.")

def minMultiSigners : Nat := 1

def maxMultiSigners : Nat := 8

/-- The loop over the signers, with the last account. -/
def checkSigners (lastAccountID : AccountID) : List Signer → Bool × String
  | [] => (true, "")
  | signer :: signers =>
    if signer.account = tx.account then (false, "Invalid multisigner.")
    else if lastAccountID = signer.account then (false, "Duplicate Signers not allowed.")
    else if signer.account < lastAccountID then (false, "Unsorted Signers array.")
    else if crypto.publicKeyType signer.signingPubKey &&
        crypto.verify signer.signingPubKey (crypto.multiSigningData tx signer.account) signer.txnSignature
          (tx.fullyCanonicalSig || requireCanonicalSig) then checkSigners signer.account signers
    else (false, "Invalid signature on account " ++ crypto.toBase58 signer.account ++ ".")

def checkMultiSign : Bool × String :=
  match tx.signers with
  | none => (false, "Empty SigningPubKey.")
  | some signers =>
    if tx.txnSignature.isSome then (false, "Cannot both single- and multi-sign.")
    else if signers.length < minMultiSigners || maxMultiSigners < signers.length then
      (false, "Invalid Signers array size.")
    else checkSigners crypto requireCanonicalSig tx 0 signers

/-- The signature of an `STETx` was used to find its account when it was read. -/
def checkSign : Bool × String :=
  if tx.isSTETx then (tx.account != 0, "")
  else if tx.signingPubKey.isEmpty then checkMultiSign crypto requireCanonicalSig tx
  else checkSingleSign crypto requireCanonicalSig tx

end STTx

variable {σ : Type}

/-- The results of a sequence number that does not fit. -/
def SeqFailure (ter : TER) : Prop := ter = terPRE_SEQ ∨ ter = tefPAST_SEQ

instance (ter : TER) : Decidable (SeqFailure ter) := inferInstanceAs (Decidable (_ ∨ _))

def SeqFree (r : Except Crash TER) : Prop := ∀ ter, r = .ok ter → ¬SeqFailure ter

/-- The result of a check of a class, which does not look at the sequence number. -/
def OwnResult : Type := { r : Except Crash TER // SeqFree r }

/-- What the checks before `operator()` read besides the transaction and the ledger, with the checks that
the class of a transaction type makes itself. -/
structure Checks (σ : Type) extends Transactor σ where
  crypto : Crypto
  signers : AccountID → Word
  fixMasterKeyAsRegularKey : Bool
  featureRequireFullyCanonicalSig : Bool
  /-- The checks of `preflight` before `preflight1`, between it and `preflight2`, and after that. -/
  before : STTx → OwnResult
  between : STTx → OwnResult
  after : STTx → OwnResult
  checkFee : STTx → OpenView σ → OwnResult
  preclaim : STTx → OpenView σ → OwnResult

variable (c : Checks σ) (base : OpenView σ) (tx : STTx)

def Checks.root (id : AccountID) : Option AccountRoot :=
  match base.read (c.account id) with
  | some sle =>
    match sle.entry with
    | .accountRoot root => some root
    | _ => none
  | none => none

def Checks.signerList (id : AccountID) : Option (UInt32 × List SignerEntry) :=
  match base.read (c.signers id) with
  | some sle =>
    match sle.entry with
    | .signerList quorum signers => some (quorum, signers)
    | _ => none
  | none => none

def checkSingleSign : TER :=
  if !c.crypto.publicKeyType tx.signingPubKey then tefBAD_AUTH
  else
    let idSigner := c.crypto.calcAccountID tx.signingPubKey
    match c.root base tx.account with
    | none => terNO_ACCOUNT
    | some root =>
      if c.fixMasterKeyAsRegularKey then
        if root.regularKey = some idSigner then tesSUCCESS
        else if root.disableMaster = false ∧ tx.account = idSigner then tesSUCCESS
        else if root.disableMaster = true ∧ tx.account = idSigner then tefMASTER_DISABLED
        else tefBAD_AUTH
      else if idSigner = tx.account then if root.disableMaster then tefMASTER_DISABLED else tesSUCCESS
      else if root.regularKey = some idSigner then tesSUCCESS
      else if root.regularKey.isSome then tefBAD_AUTH
      else tefBAD_AUTH_MASTER

/-- The inner loop of `checkMultiSign`. There is no result if it reaches the end of the list. -/
def seek (account : AccountID) : List SignerEntry → Option (SignerEntry × List SignerEntry)
  | [] => none
  | entry :: entries => if entry.account < account then seek account entries else some (entry, entries)

/-- Whether the key of a signer belongs to the account it signs for: an account that is not in the ledger
may sign with its own key. -/
def checkSigner (signer : Signer) : TER :=
  if !c.crypto.publicKeyType signer.signingPubKey then tefBAD_SIGNATURE
  else if c.crypto.calcAccountID signer.signingPubKey = signer.account then
    match c.root base signer.account with
    | some root => if root.disableMaster then tefMASTER_DISABLED else tesSUCCESS
    | none => tesSUCCESS
  else
    match c.root base signer.account with
    | none => tefBAD_SIGNATURE
    | some root =>
      if root.regularKey = some (c.crypto.calcAccountID signer.signingPubKey) then tesSUCCESS else tefBAD_SIGNATURE

/-- The outer loop of `checkMultiSign`, with the quorum. Only the signers of the transaction move on. -/
def checkSigners (quorum weightSum : UInt32) : List Signer → List SignerEntry → TER
  | [], _ => if weightSum < quorum then tefBAD_QUORUM else tesSUCCESS
  | signer :: signers, entries =>
    match seek signer.account entries with
    | none => tefBAD_SIGNATURE
    | some (entry, entries) =>
      if entry.account ≠ signer.account then tefBAD_SIGNATURE
      else if checkSigner c base signer ≠ tesSUCCESS then checkSigner c base signer
      else checkSigners quorum (weightSum + entry.weight.toUInt32) signers (entry :: entries)

def checkMultiSign : Except Crash TER :=
  match c.signerList base tx.account with
  | none => .ok tefNOT_MULTI_SIGNING
  | some (quorum, entries) =>
    let signers := tx.signers.getD []
    -- The first entry is read before the list is known to have one.
    if entries.isEmpty && !signers.isEmpty then .error .undefined
    else .ok (checkSigners c base quorum 0 signers entries)

/-- The keys of a transaction of the Ethereum type are not looked at. -/
def checkSign : Except Crash TER :=
  if tx.type = .ttETH_TX then .ok tesSUCCESS
  else if tx.signingPubKey.isEmpty then checkMultiSign c base tx
  else .ok (checkSingleSign c base tx)

/-! ## What the ledger authorises -/

/-- The key with this account id may sign for an account with the given root: it is the master key of the
account, or its regular key. -/
def Owns (root : AccountRoot) (account idSigner : AccountID) : Prop :=
  idSigner = account ∧ root.disableMaster = false ∨
    root.regularKey = some idSigner ∧ (c.fixMasterKeyAsRegularKey = true ∨ idSigner ≠ account)

/-- The key of the signer may sign for the account of the signer. -/
def SignerOwns (signer : Signer) : Prop :=
  c.crypto.publicKeyType signer.signingPubKey = true ∧
    match c.root base signer.account with
    | none => c.crypto.calcAccountID signer.signingPubKey = signer.account
    | some root =>
      c.crypto.calcAccountID signer.signingPubKey = signer.account ∧ root.disableMaster = false ∨
        c.crypto.calcAccountID signer.signingPubKey ≠ signer.account ∧
          root.regularKey = some (c.crypto.calcAccountID signer.signingPubKey)

/-- The ledger authorises who has signed the transaction to act for its account. The key behind an `STETx`
is the master key of the account by construction. -/
def Authorised : Prop :=
  if tx.isSTETx then ∃ root, c.root base tx.account = some root ∧ root.disableMaster = false
  else if tx.signingPubKey.isEmpty then
    ∃ quorum entries, c.signerList base tx.account = some (quorum, entries) ∧
      ∃ chosen : List SignerEntry,
        List.Forall₂ (fun signer entry => entry ∈ entries ∧ entry.account = signer.account ∧ SignerOwns c base signer)
          (tx.signers.getD []) chosen ∧
        quorum.toNat ≤ (chosen.map fun entry => entry.weight.toNat).sum
  else
    c.crypto.publicKeyType tx.signingPubKey = true ∧
      ∃ root, c.root base tx.account = some root ∧
        Owns c root tx.account (c.crypto.calcAccountID tx.signingPubKey)

variable {c base tx}

theorem checkSingleSign_eq_success (h : checkSingleSign c base tx = tesSUCCESS) :
    c.crypto.publicKeyType tx.signingPubKey = true ∧
      ∃ root, c.root base tx.account = some root ∧
        Owns c root tx.account (c.crypto.calcAccountID tx.signingPubKey) := by
  unfold checkSingleSign at h
  split at h
  · cases h
  next hkey =>
    refine ⟨by simpa using hkey, ?_⟩
    simp only at h
    split at h
    · cases h
    next root hroot =>
      refine ⟨root, hroot, ?_⟩
      split at h
      next hfix =>
        split at h
        next hregular => exact .inr ⟨hregular, .inl hfix⟩
        · split at h
          next hmaster => exact .inl ⟨hmaster.2.symm, hmaster.1⟩
          · split at h <;> cases h
      · split at h
        next hmaster =>
          split at h
          · cases h
          next henabled => exact .inl ⟨hmaster, by simpa using henabled⟩
        next hne =>
          split at h
          next hregular => exact .inr ⟨hregular, .inr hne⟩
          · split at h <;> cases h

theorem seek_eq_some {account : AccountID} {entry : SignerEntry} {entries entries' : List SignerEntry}
    (h : seek account entries = some (entry, entries')) : entry :: entries' <:+ entries := by
  induction entries with
  | nil => cases h
  | cons e es ih =>
    unfold seek at h
    split at h
    · exact (ih h).trans (List.suffix_cons e es)
    · cases h
      exact List.suffix_refl _

theorem checkSigner_eq_success {signer : Signer} (h : checkSigner c base signer = tesSUCCESS) :
    SignerOwns c base signer := by
  unfold checkSigner at h
  split at h
  · cases h
  next hkey =>
    refine ⟨by simpa using hkey, ?_⟩
    cases hroot : c.root base signer.account with
    | none =>
      simp only [hroot] at h
      split at h
      next hown => exact hown
      · cases h
    | some root =>
      simp only [hroot] at h
      split at h
      next hown =>
        split at h
        · cases h
        next henabled => exact .inl ⟨hown, by simpa using henabled⟩
      next hother =>
        split at h
        next hregular => exact .inr ⟨hother, hregular⟩
        · cases h

/-- The loop finds an entry for each signer, and their weights are what it adds up. The sum may wrap around,
which only makes it smaller. -/
theorem checkSigners_eq_success {quorum weightSum : UInt32} {signers : List Signer} {entries : List SignerEntry}
    (h : checkSigners c base quorum weightSum signers entries = tesSUCCESS) :
    ∃ chosen : List SignerEntry,
      List.Forall₂ (fun signer entry => entry ∈ entries ∧ entry.account = signer.account ∧ SignerOwns c base signer)
        signers chosen ∧
      quorum.toNat ≤ weightSum.toNat + (chosen.map fun entry => entry.weight.toNat).sum := by
  induction signers generalizing weightSum entries with
  | nil =>
    unfold checkSigners at h
    split at h
    · cases h
    next hquorum => exact ⟨[], .nil, UInt32.le_iff_toNat_le.mp (UInt32.not_lt.mp hquorum)⟩
  | cons signer signers ih =>
    unfold checkSigners at h
    split at h
    · cases h
    next entry rest hseek =>
      have hsuffix := seek_eq_some hseek
      split at h
      · cases h
      next haccount =>
        split at h
        next hfail => exact absurd h hfail
        next hsigner =>
          obtain ⟨chosen, hchosen, hsum⟩ := ih h
          refine ⟨entry :: chosen, .cons ⟨?_, not_not.mp haccount, ?_⟩ ?_, ?_⟩
          · exact hsuffix.subset List.mem_cons_self
          · exact checkSigner_eq_success (not_not.mp hsigner)
          · exact hchosen.imp fun _ _ hmem => ⟨hsuffix.subset hmem.1, hmem.2⟩
          · have hadd : (weightSum + entry.weight.toUInt32).toNat ≤ weightSum.toNat + entry.weight.toNat := by
              exact Nat.mod_le _ _
            rw [List.map_cons, List.sum_cons]
            omega

/-- A transaction that does not call itself an Ethereum transaction passes only if it is authorised. -/
theorem checkSign_eq_success (htype : tx.type ≠ .ttETH_TX) (h : checkSign c base tx = .ok tesSUCCESS) :
    Authorised c base tx := by
  have hclass : ¬tx.isSTETx = true := fun hste => htype (tx.isSTETx_type hste)
  rw [Authorised, if_neg hclass]
  rw [checkSign, if_neg htype] at h
  split at h
  next hempty =>
    rw [if_pos hempty]
    unfold checkMultiSign at h
    split at h
    · cases h
    next quorum entries hlist =>
      simp only at h
      split at h
      · cases h
      · obtain ⟨chosen, hchosen, hsum⟩ := checkSigners_eq_success (Except.ok.inj h)
        refine ⟨quorum, entries, hlist, chosen, hchosen, ?_⟩
        simpa using hsum
  next hkey =>
    rw [if_neg hkey]
    exact checkSingleSign_eq_success (Except.ok.inj h)

theorem seqFree_ok {ter : TER} (h : ¬SeqFailure ter) : SeqFree (.ok ter) := by
  intro ter' hter
  cases hter
  exact h

theorem checkSingleSign_seqFree : ¬SeqFailure (checkSingleSign c base tx) := by
  unfold checkSingleSign
  simp only
  repeat' split
  all_goals decide

theorem checkSigner_seqFree (signer : Signer) : ¬SeqFailure (checkSigner c base signer) := by
  unfold checkSigner
  repeat' split
  all_goals decide

theorem checkSigners_seqFree (quorum weightSum : UInt32) (signers : List Signer) (entries : List SignerEntry) :
    ¬SeqFailure (checkSigners c base quorum weightSum signers entries) := by
  induction signers generalizing weightSum entries with
  | nil =>
    unfold checkSigners
    split <;> decide
  | cons signer signers ih =>
    unfold checkSigners
    split
    · decide
    · split
      · decide
      · split
        · exact checkSigner_seqFree signer
        · exact ih _ _

theorem checkSign_seqFree : SeqFree (checkSign c base tx) := by
  unfold checkSign
  split
  · exact seqFree_ok (by decide)
  · split
    · unfold checkMultiSign
      split
      · exact seqFree_ok (by decide)
      · simp only
        split
        · intro ter h
          cases h
        · exact seqFree_ok (checkSigners_seqFree _ _ _ _)
    · exact seqFree_ok checkSingleSign_seqFree

end Chainsql.Tx
