import Chainsql.Hotstuff.Network
import Chainsql.Hotstuff.StorageRun
import Chainsql.Hotstuff.VoteSafety
import Chainsql.Lib.Quorum

/-!
# Where blocks, votes and certificates come from

A history records, for each validator of a cluster, the blocks it has signed a vote for. Without
forged messages everything a validator holds or receives stems from a history: a vote was signed for
a block of its author's history, a certificate is that of the genesis block or of a block a quorum has
voted for, and a block extends a certified block by exactly one round. The last point holds because no
timeout certificate is ever formed, so a round is entered only by a certificate of the round before.

`SoundStorage` states this for the block store, and the lemmas here say that the operations of the
store keep it.
-/

namespace Chainsql.Hotstuff

open QuorumCertificate

/-- What a vote says about the block it is for. The signed digest covers the two ids; the round is
covered by the id. -/
structure Ballot where
  round : Int
  id : HashValue
  parent : HashValue

def Block.ballot (b : Block) : Ballot := ⟨b.round, b.id, b.quorumCert.certifiedBlock.id⟩

/-- The blocks each validator has signed a vote for, newest first. -/
abbrev History := Author → List Block

def History.Cast (H : History) (a : Author) (ballot : Ballot) : Prop := ∃ b ∈ H a, b.ballot = ballot

/-- Every validator votes at most once per round, in increasing rounds. -/
def History.Once (H : History) : Prop := ∀ a, (H a).Pairwise fun b b' => b'.round < b.round

namespace Cluster

variable (c : Cluster) (H : History)

def genesisBlock : Block := Block.newGenesisBlock c.hasher c.initLedgerInfo c.epoch

def Certified (b : Block) : Prop :=
  Quorum.Certified c.validators.toFinset (calculateQuorum true c.validators.length) H.Cast b.ballot

def SoundVoteData (d : VoteData) : Prop :=
  d = c.genesisBlock.quorumCert.voteData ∨ ∃ a, ∃ b ∈ H a, d.VotesFor b ∧ c.Certified H b

structure SoundBlock (b : Block) : Prop where
  id : b.id = b.blockData.hash c.hasher
  blockType : b.blockData.blockType ≠ .genesis
  round : b.round = b.quorumCert.certifiedBlock.round + 1
  round_pos : 0 < b.round
  cert : c.SoundVoteData H b.quorumCert.voteData

def SoundCommit (info : BlockInfo) : Prop :=
  info.round ≤ 0 ∨ ∃ a, ∃ b ∈ H a, c.Certified H b ∧ info.id = b.id

structure SoundCert (qc : QuorumCertificate) : Prop where
  voteData : c.SoundVoteData H qc.voteData
  commit : c.SoundCommit H qc.commitInfo

structure SoundVote (vote : Vote) : Prop where
  digest : vote.ledgerInfo.consensusDataHash = vote.voteData.hash c.hasher
  block : ∃ b ∈ H vote.author, vote.voteData.VotesFor b
  commit : c.SoundCommit H vote.ledgerInfo.commitInfo

structure SoundSync (sync : SyncInfo) : Prop where
  quorumCert : c.SoundCert H sync.highestQuorumCert
  commitCert : ∀ qc ∈ sync.highestCommitCert?, c.SoundCert H qc

structure SoundHistory : Prop where
  member : ∀ a, ∀ b ∈ H a, a ∈ c.validators
  block : ∀ a, ∀ b ∈ H a, c.SoundBlock H b

structure SoundStorage (s : BlockStorage) : Prop where
  cache : ∀ id e, s.blockOf id = some e →
    e.block.id = id ∧ (c.SoundBlock H e.block ∨ e.block = c.genesisBlock)
  quorumCert : c.SoundCert H s.highestQuorumCert
  commitCert : c.SoundCert H s.highestCommitCert
  timeoutCert : s.highestTimeoutCert = none
  committedRound : 0 ≤ s.committedRound
  committed : ∀ e ∈ s.committed, c.SoundBlock H e.block ∧ ∃ a, ∃ b ∈ H a, c.Certified H b ∧ e.block.id = b.id

variable {c H} {H' : History} {b b' : Block} {d : VoteData} {info : BlockInfo} {vote : Vote}
  {qc : QuorumCertificate} {sync : SyncInfo} {s : BlockStorage} {executed : ExecutedBlock}

/-! ## Growing histories -/

section Mono

variable (hle : ∀ a, H a ⊆ H' a)
include hle

theorem Certified.mono (hb : c.Certified H b) : c.Certified H' b :=
  Quorum.Certified.mono hb fun a ⟨b, hb, hballot⟩ => ⟨b, hle a hb, hballot⟩

theorem SoundVoteData.mono (hd : c.SoundVoteData H d) : c.SoundVoteData H' d := by
  rcases hd with hgen | ⟨a, b, hb, hfor, hcert⟩
  · exact .inl hgen
  · exact .inr ⟨a, b, hle a hb, hfor, hcert.mono hle⟩

theorem SoundBlock.mono (hb : c.SoundBlock H b) : c.SoundBlock H' b :=
  ⟨hb.id, hb.blockType, hb.round, hb.round_pos, hb.cert.mono hle⟩

theorem SoundCommit.mono (hinfo : c.SoundCommit H info) : c.SoundCommit H' info := by
  rcases hinfo with hround | ⟨a, b, hb, hcert, hid⟩
  · exact .inl hround
  · exact .inr ⟨a, b, hle a hb, hcert.mono hle, hid⟩

theorem SoundCert.mono (hqc : c.SoundCert H qc) : c.SoundCert H' qc :=
  ⟨hqc.voteData.mono hle, hqc.commit.mono hle⟩

theorem SoundVote.mono (hvote : c.SoundVote H vote) : c.SoundVote H' vote := by
  obtain ⟨b, hb, hfor⟩ := hvote.block
  exact ⟨hvote.digest, ⟨b, hle _ hb, hfor⟩, hvote.commit.mono hle⟩

theorem SoundSync.mono (hsync : c.SoundSync H sync) : c.SoundSync H' sync :=
  ⟨hsync.quorumCert.mono hle, fun qc hqc => (hsync.commitCert qc hqc).mono hle⟩

theorem SoundStorage.mono (hs : c.SoundStorage H s) : c.SoundStorage H' s where
  cache := fun id e he => ⟨(hs.cache id e he).1, (hs.cache id e he).2.imp_left (.mono hle)⟩
  quorumCert := hs.quorumCert.mono hle
  commitCert := hs.commitCert.mono hle
  timeoutCert := hs.timeoutCert
  committedRound := hs.committedRound
  committed := fun e he => by
    obtain ⟨hblock, a, b, hb, hcert, hid⟩ := hs.committed e he
    exact ⟨hblock.mono hle, a, b, hle a hb, hcert.mono hle, hid⟩

end Mono

/-! ## What an id determines -/

theorem hash_inj_round {d d' : BlockData} (heq : d.hash c.hasher = d'.hash c.hasher) : d.round = d'.round := by
  have hitems := c.hasher_ideal.inj heq
  unfold BlockData.hashItems at hitems
  simp only [List.cons_append, List.cons.injEq, HashItem.i64.injEq] at hitems
  exact hitems.2.1

theorem SoundBlock.round_eq (hb : c.SoundBlock H b) (hb' : c.SoundBlock H b') (hid : b.id = b'.id) :
    b.round = b'.round := by
  rw [hb.id, hb'.id] at hid
  exact hash_inj_round hid

theorem SoundBlock.id_ne_zero (hb : c.SoundBlock H b) : b.id ≠ zeroHash :=
  hb.id ▸ c.hasher_ideal.ne_zero _

theorem SoundBlock.id_ne_genesis (hb : c.SoundBlock H b) : b.id ≠ c.genesisBlock.id := by
  intro hid
  rw [hb.id] at hid
  have hitems := c.hasher_ideal.inj hid
  unfold BlockData.hashItems at hitems
  simp only [List.cons_append, List.cons.injEq, HashItem.u32.injEq] at hitems
  have htype := hitems.2.2.2.1
  have hne := hb.blockType
  cases hty : b.blockData.blockType with
  | genesis => exact hne hty
  | proposal => rw [hty] at htype; exact absurd htype (by decide)
  | nilBlock => rw [hty] at htype; exact absurd htype (by decide)

/-! ## One certified block per round -/

theorem Certified.ballot_eq (honce : H.Once) (hb : c.Certified H b) (hb' : c.Certified H b')
    (hne : c.validators ≠ []) (hround : b.round = b'.round) : b.ballot = b'.ballot := by
  have hcard : c.validators.toFinset.card < 2 * calculateQuorum true c.validators.length := by
    rw [List.toFinset_card_of_nodup c.validators_nodup]
    exact lt_two_mul_calculateQuorum (List.length_pos_iff.mpr hne)
  refine Quorum.Certified.unique hcard Ballot.round ?_ hb hb' hround
  rintro a _ _ ⟨u, hu, rfl⟩ ⟨v, hv, rfl⟩ huv
  -- The votes of one validator are of distinct rounds.
  by_contra hballot
  have hne : u ≠ v := fun heq => hballot (heq ▸ rfl)
  have hlt : u.round < v.round ∨ v.round < u.round :=
    List.Pairwise.forall_of_forall_of_flip
      (R := fun u v => u ≠ v → u.round < v.round ∨ v.round < u.round) (fun _ _ h => absurd rfl h)
      ((honce a).imp fun h _ => .inr h) ((honce a).imp fun h _ => .inl h) hu hv hne
  have huv : u.round = v.round := huv
  omega

theorem SoundVoteData.commit_parent (hH : c.SoundHistory H) (hd : c.SoundVoteData H d) :
    c.SoundCommit H d.parent := by
  rcases hd with rfl | ⟨a, b, hb, hfor, -⟩
  · exact .inl (le_refl 0)
  · rw [hfor.parent]
    rcases (hH.block a b hb).cert with hgen | ⟨a', b', hb', hfor', hcert'⟩
    · refine .inl ?_
      rw [certifiedBlock, hgen]
      exact le_refl 0
    · exact .inr ⟨a', b', hb', hcert', hfor'.id⟩

/-- A certificate aggregated from sound votes is sound: the votes share a digest, the digest fixes the
ids of the block and its parent, and the id of the block fixes its round. -/
theorem SoundCert.of_aggregated (hH : c.SoundHistory H) {a : Author} (ha : a ∈ c.validators)
    (hvote : c.SoundVote H vote)
    (hqc : PendingVotes.Aggregated (c.SoundVote H) (c.verifier a) vote qc) : c.SoundCert H qc := by
  obtain ⟨b, hb, hfor⟩ := hvote.block
  have hsigner : ∀ e ∈ qc.signatures.entries, H.Cast e.1 b.ballot := by
    rintro ⟨signer, sig⟩ he
    obtain ⟨u, hu, hdigest, rfl, -⟩ := hqc.signatures signer sig (AList.mem_lookup_iff.mpr he)
    obtain ⟨b', hb', hfor'⟩ := hu.block
    refine ⟨b', hb', ?_⟩
    rw [hu.digest, hvote.digest] at hdigest
    have hitems := c.hasher_ideal.inj hdigest
    unfold VoteData.hashItems at hitems
    simp only [List.cons_append, List.cons.injEq, HashItem.u256.injEq] at hitems
    obtain ⟨hid, hparent, -⟩ := hitems
    rw [hfor'.id, hfor.id] at hid
    rw [hfor'.parent, hfor.parent] at hparent
    have hround := (hH.block _ b' hb').round_eq (hH.block _ b hb) hid
    simp only [Block.ballot, hround, hid, hparent]
  constructor
  · rw [hqc.voteData]
    refine .inr ⟨vote.author, b, hb, hfor, qc.signatures.keys.toFinset, ?_, ?_, ?_⟩
    · intro signer hs
      obtain ⟨e, he, rfl⟩ := List.mem_map.mp (List.mem_toFinset.mp hs)
      obtain ⟨b', hb', -⟩ := hsigner e he
      exact List.mem_toFinset.mpr (hH.member _ b' hb')
    · rw [List.toFinset_card_of_nodup (AList.keys_nodup _), ← c.quorum_eq a ha]
      have hsize : qc.signatures.keys.length = qc.signatures.size := List.length_map _
      rw [hsize]
      exact hqc.quorum
    · intro signer hs
      obtain ⟨e, he, rfl⟩ := List.mem_map.mp (List.mem_toFinset.mp hs)
      exact hsigner e he
  · obtain ⟨u, hu, -, hledger⟩ := hqc.ledger
    rw [commitInfo, hledger]
    exact hu.commit

/-! ## The block store -/

theorem SoundVoteData.round_nonneg (hH : c.SoundHistory H) (hd : c.SoundVoteData H d) :
    0 ≤ d.proposed.round := by
  rcases hd with rfl | ⟨a, b, hb, hfor, -⟩
  · exact le_refl 0
  · rw [hfor.round]
    exact le_of_lt (hH.block a b hb).round_pos

theorem SoundSync.highestCommitCert (hsync : c.SoundSync H sync) : c.SoundCert H sync.highestCommitCert := by
  unfold SyncInfo.highestCommitCert
  cases hqc : sync.highestCommitCert? with
  | none => exact hsync.quorumCert
  | some qc => exact hsync.commitCert qc hqc

namespace SoundStorage

variable (hs : c.SoundStorage H s)
include hs

theorem block_of_id (hb : c.SoundBlock H b) (he : s.blockOf b.id = some executed) :
    c.SoundBlock H executed.block ∧ executed.block.id = b.id := by
  obtain ⟨hid, hsound | hgen⟩ := hs.cache b.id executed he
  · exact ⟨hsound, hid⟩
  · rw [hgen] at hid
    exact absurd hid.symm hb.id_ne_genesis

theorem addExecutedBlock (executed : ExecutedBlock) (hb : c.SoundBlock H executed.block) :
    c.SoundStorage H (s.addExecutedBlock executed) := by
  refine { hs with cache := ?_ }
  intro id e he
  unfold BlockStorage.blockOf BlockStorage.addExecutedBlock at he
  by_cases hid : id = executed.block.id
  · subst hid
    rw [AList.lookup_emplace_self, Option.some.injEq] at he
    cases hold : s.cacheBlocks.lookup executed.block.id with
    | none =>
      rw [hold] at he
      subst he
      exact ⟨rfl, .inl hb⟩
    | some old =>
      rw [hold] at he
      subst he
      exact hs.cache _ old hold
  · rw [AList.lookup_emplace_ne hid] at he
    exact hs.cache id e he

theorem executeAndAddBlock (hb : c.SoundBlock H b) (app : Application) :
    c.SoundStorage H (s.executeAndAddBlock app b).1
    ∧ ((s.executeAndAddBlock app b).2 = {}
      ∨ c.SoundBlock H (s.executeAndAddBlock app b).2.block
        ∧ (s.executeAndAddBlock app b).2.block.id = b.id) := by
  unfold BlockStorage.executeAndAddBlock
  cases hcached : s.blockOf b.id with
  | some executed => exact ⟨hs, .inr (hs.block_of_id hb hcached)⟩
  | none =>
    cases hresult : app.compute b with
    | none => exact ⟨hs, .inl rfl⟩
    | some result =>
      exact ⟨hs.addExecutedBlock { block := b, stateComputeResult := result } hb, .inr ⟨hb, rfl⟩⟩

theorem updateQuorumCert (hqc : c.SoundCert H qc) (round : Int) : c.SoundStorage H (s.updateQuorumCert round qc) := by
  rw [BlockStorage.updateQuorumCert_eq, BlockStorage.nextHighest]
  refine { hs with quorumCert := ?_, commitCert := ?_ }
  · dsimp only
    split
    · exact hqc
    · exact hs.quorumCert
  · dsimp only
    split
    · exact hqc
    · exact hs.commitCert

theorem commit (hH : c.SoundHistory H) (hqc : c.SoundCommit H qc.commitInfo)
    (hlt : s.committedRound < qc.commitInfo.round) : c.SoundStorage H (s.commit qc.signedLedgerInfo) := by
  rcases BlockStorage.commit_eq (s := s) qc.signedLedgerInfo with h | ⟨executed, -, he, h⟩
  · rw [h]
    exact hs
  · have hpos := hs.committedRound
    obtain hround | ⟨a, b, hb, hcert, hid⟩ := hqc
    · omega
    · have hsound := hH.block a b hb
      have htarget : s.commitTarget qc.commitInfo = b.id := by
        unfold BlockStorage.commitTarget
        rw [if_neg fun hzero => hsound.id_ne_zero (hid ▸ hzero.1)]
        exact hid
      rw [← commitInfo, htarget] at he
      obtain ⟨hblock, hbid⟩ := hs.block_of_id hsound he
      rw [h]
      refine { hs with committedRound := le_of_lt hblock.round_pos, committed := ?_ }
      intro e he
      rcases List.mem_cons.mp he with rfl | he
      · exact ⟨hblock, a, b, hb, hcert, hbid⟩
      · exact hs.committed e he

theorem preCommit (hH : c.SoundHistory H) (hqc : c.SoundCommit H qc.commitInfo) :
    c.SoundStorage H (s.preCommit qc) := by
  unfold BlockStorage.preCommit
  split
  next hlt =>
    have hcommit := hs.commit hH hqc hlt
    exact { hcommit with cache := fun id e he => hcommit.cache id e (BlockStorage.lookup_gcBlocks_iff.mp he).1 }
  · exact hs

theorem certified_round (hH : c.SoundHistory H) (hqc : c.SoundVoteData H qc.voteData)
    (he : s.blockOf qc.certifiedBlock.id = some executed) : qc.certifiedBlock.round = executed.block.round := by
  rcases hqc with hgen | ⟨a, b, hb, hfor, -⟩
  · -- The genesis certificate names the zero id, under which nothing is cached.
    have hzero : qc.certifiedBlock.id = zeroHash := by
      rw [certifiedBlock, hgen]
      rfl
    obtain ⟨hid, hsound | hblock⟩ := hs.cache _ executed he
    · exact absurd (hid.trans hzero) hsound.id_ne_zero
    · rw [hblock] at hid
      exact absurd (hid.trans hzero) (c.hasher_ideal.ne_zero _)
  · have hsound := hH.block a b hb
    rw [certifiedBlock, hfor.id] at he
    obtain ⟨hblock, hid⟩ := hs.block_of_id hsound he
    rw [certifiedBlock, hfor.round]
    exact hsound.round_eq hblock hid.symm

theorem insertQuorumCert (hH : c.SoundHistory H) (hqc : c.SoundCert H qc) :
    c.SoundStorage H (s.insertQuorumCert qc).1
    ∧ s.highestQuorumCert.certifiedBlock.round
      ≤ (s.insertQuorumCert qc).1.highestQuorumCert.certifiedBlock.round := by
  unfold BlockStorage.insertQuorumCert
  cases he : s.blockOf qc.certifiedBlock.id with
  | none => exact ⟨hs, le_refl _⟩
  | some executed =>
    refine ⟨(hs.updateQuorumCert hqc _).preCommit hH hqc.commit, ?_⟩
    rw [BlockStorage.highestQuorumCert_preCommit, BlockStorage.updateQuorumCert_eq, BlockStorage.nextHighest]
    dsimp only
    split
    next hlt =>
      rw [hs.certified_round hH hqc.voteData he]
      exact le_of_lt hlt
    · exact le_refl _

theorem addCerts (hH : c.SoundHistory H) (hsync : c.SoundSync H sync) :
    c.SoundStorage H (s.addCerts sync)
    ∧ s.highestQuorumCert.certifiedBlock.round
      ≤ (s.addCerts sync).highestQuorumCert.certifiedBlock.round := by
  obtain ⟨hs₁, hle₁⟩ := hs.insertQuorumCert hH hsync.highestCommitCert
  obtain ⟨hs₂, hle₂⟩ := hs₁.insertQuorumCert hH hsync.quorumCert
  exact ⟨hs₂, hle₁.trans hle₂⟩

theorem syncInfo : c.SoundSync H s.syncInfo := by
  refine ⟨hs.quorumCert, ?_⟩
  intro qc hqc
  unfold BlockStorage.syncInfo SyncInfo.new at hqc
  split at hqc
  · cases hqc
  · cases hqc
    exact hs.commitCert

theorem highestRound_syncInfo : s.syncInfo.highestRound = s.highestQuorumCert.certifiedBlock.round := by
  unfold SyncInfo.highestRound BlockStorage.syncInfo SyncInfo.new
  rw [hs.timeoutCert]
  rfl

end SoundStorage

theorem SoundStorage.updateCertificates (app : Application) :
    c.SoundStorage H (BlockStorage.updateCertificates {} app c.genesisBlock) := by
  have hgenesis : c.SoundCert H c.genesisBlock.quorumCert := ⟨.inl rfl, .inl (le_refl 0)⟩
  unfold BlockStorage.updateCertificates BlockStorage.executeAndAddBlock BlockStorage.blockOf
  dsimp only
  rw [AList.lookup_empty]
  cases app.compute c.genesisBlock with
  | none => exact ⟨by simp [BlockStorage.blockOf], hgenesis, hgenesis, rfl, le_refl 0, by simp⟩
  | some result =>
    refine ⟨?_, hgenesis, hgenesis, rfl, le_refl 0, by simp [BlockStorage.addExecutedBlock]⟩
    intro id e he
    unfold BlockStorage.blockOf BlockStorage.addExecutedBlock at he
    by_cases hid : id = c.genesisBlock.id
    · subst hid
      rw [AList.lookup_emplace_self, AList.lookup_empty, Option.some.injEq] at he
      subst he
      exact ⟨rfl, .inr rfl⟩
    · rw [AList.lookup_emplace_ne hid] at he
      cases he

end Cluster

end Chainsql.Hotstuff
