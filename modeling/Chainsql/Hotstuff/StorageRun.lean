import Chainsql.Hotstuff.BlockStorage
import Chainsql.Lib.Run

/-!
# Runs of the block store

A certificate claims the rounds of the block it certifies and of the block it commits, and neither is
covered by the digest that is signed. The store compares the round of the stored block but keeps the
claimed one, and tests the claimed commit round but records the round of the committed block. The
rounds it reports are therefore monotone in runs in which the claims agree with the stored blocks
wherever the store acts on them.
-/

namespace Chainsql.Hotstuff

namespace BlockStorage

variable {s : BlockStorage} {qc : QuorumCertificate} {executed : ExecutedBlock} {id : HashValue}

def Collected (epoch round : Int) (executed : ExecutedBlock) : Prop :=
  executed.block.epoch < epoch
    ∨ (60 ≤ round ∧ executed.block.epoch = epoch
      ∧ round - 60 ≤ executed.block.round ∧ executed.block.round < round - 10)

instance (epoch round : Int) (executed : ExecutedBlock) : Decidable (Collected epoch round executed) :=
  inferInstanceAs (Decidable (_ ∨ _))

def FirstOfRound (cache : BlockCache) (id : HashValue) (executed : ExecutedBlock) : Prop :=
  cache.Least (fun _ other => isOfRound executed.block.epoch executed.block.round other) id

variable {epoch round : Int} {cache : BlockCache}

theorem isOfRound_iff :
    isOfRound epoch round executed = true ↔ executed.block.epoch = epoch ∧ executed.block.round = round := by
  rw [isOfRound, Bool.and_eq_true, beq_iff_eq, beq_iff_eq]

theorem lookup_gcBlocks_iff :
    (gcBlocks cache epoch round).lookup id = some executed
      ↔ cache.lookup id = some executed ∧ ¬ executed.block.epoch < epoch
        ∧ ¬ (60 ≤ round ∧ executed.block.epoch = epoch ∧ round - 60 ≤ executed.block.round
          ∧ executed.block.round < round - 10 ∧ FirstOfRound cache id executed) := by
  have hold : ∀ {id executed}, (cache.eraseIf fun _ e => decide (e.block.epoch < epoch)).lookup id = some executed
      ↔ cache.lookup id = some executed ∧ ¬ executed.block.epoch < epoch := by
    intro id executed
    rw [AList.lookup_eraseIf, decide_eq_false_iff_not]
  by_cases hround : 60 ≤ round
  · have hopen : gcBlocks cache epoch round = (List.range 50).foldl
        (fun cache (i : Nat) => cache.eraseFirst fun _ e => isOfRound epoch (round - 10 - 50 + i) e)
        (cache.eraseIf fun _ e => decide (e.block.epoch < epoch)) := by
      unfold gcBlocks
      rw [if_neg (by omega), if_neg (by omega)]
    have hdisjoint : (List.range 50).Pairwise fun i j : Nat => ∀ (_ : HashValue) (e : ExecutedBlock),
        isOfRound epoch (round - 10 - 50 + i) e = true → isOfRound epoch (round - 10 - 50 + j) e = false := by
      refine List.nodup_range.imp fun {i j} hne _ e hi => Bool.eq_false_iff.mpr fun hj => hne ?_
      rw [isOfRound_iff] at hi hj
      omega
    -- Blocks of older epochs are not of the epoch that is collected round by round.
    have hleast : ∀ i : Nat, ((cache.eraseIf fun _ e => decide (e.block.epoch < epoch)).Least
          (fun _ e => isOfRound epoch (round - 10 - 50 + i) e) id
        ↔ cache.Least (fun _ e => isOfRound epoch (round - 10 - 50 + i) e) id) := by
      intro i
      constructor
      · intro h a b hb hpb
        exact h a b (hold.mpr ⟨hb, by rw [(isOfRound_iff.mp hpb).1]; exact lt_irrefl _⟩) hpb
      · intro h a b hb hpb
        exact h a b (hold.mp hb).1 hpb
    rw [hopen, AList.lookup_foldl_eraseFirst hdisjoint, hold, and_assoc]
    refine and_congr_right fun _ => and_congr_right fun _ => ?_
    constructor
    · rintro hall ⟨-, hepoch, hlow, hhigh, hfirst⟩
      obtain ⟨i, hi⟩ := Int.eq_ofNat_of_zero_le (Int.sub_nonneg.mpr hlow)
      have hof : isOfRound epoch (round - 10 - 50 + i) executed = true := isOfRound_iff.mpr ⟨hepoch, by omega⟩
      refine hall i (List.mem_range.mpr (by omega)) ⟨hof, (hleast i).mpr ?_⟩
      rw [FirstOfRound, (isOfRound_iff.mp hof).1, (isOfRound_iff.mp hof).2] at hfirst
      exact hfirst
    · rintro hnot i hi ⟨hof, hfirst⟩
      have hi := List.mem_range.mp hi
      obtain ⟨hepoch, heq⟩ := isOfRound_iff.mp hof
      refine hnot ⟨hround, hepoch, by omega, by omega, ?_⟩
      rw [FirstOfRound, hepoch, heq]
      exact (hleast i).mp hfirst
  · have hshort : gcBlocks cache epoch round = cache.eraseIf fun _ e => decide (e.block.epoch < epoch) := by
      unfold gcBlocks
      dsimp only
      split
      · rfl
      · rw [if_pos (by omega)]
    rw [hshort, hold]
    refine and_congr_right fun _ => (and_iff_left ?_).symm
    exact fun h => hround h.1

theorem lookup_gcBlocks (hid : cache.lookup id = some executed) (hkeep : ¬ Collected epoch round executed) :
    (gcBlocks cache epoch round).lookup id = some executed := by
  rw [Collected, not_or] at hkeep
  refine lookup_gcBlocks_iff.mpr ⟨hid, hkeep.1, ?_⟩
  rintro ⟨hround, hepoch, hlow, hhigh, -⟩
  exact hkeep.2 ⟨hround, hepoch, hlow, hhigh⟩

/-! ## The updates -/

def nextHighest (s : BlockStorage) (round : Int) (qc : QuorumCertificate) : QuorumCertificate :=
  if s.highestQuorumCert.certifiedBlock.round < round then qc else s.highestQuorumCert

theorem updateQuorumCert_eq (round : Int) :
    s.updateQuorumCert round qc = { s with
      highestQuorumCert := s.nextHighest round qc
      highestCommitCert :=
        if s.highestCommitCert.commitInfo.round < qc.commitInfo.round then qc else s.highestCommitCert } := by
  unfold updateQuorumCert nextHighest
  dsimp only
  split <;> split <;> simp_all

theorem commit_eq (ledgerInfo : LedgerInfoWithSignatures) :
    s.commit ledgerInfo = s
    ∨ ∃ executed, s.commitTarget ledgerInfo.ledgerInfo.commitInfo ≠ zeroHash
      ∧ s.blockOf (s.commitTarget ledgerInfo.ledgerInfo.commitInfo) = some executed
      ∧ s.commit ledgerInfo
        = { s with committed := executed :: s.committed, committedRound := executed.block.round } := by
  unfold commit
  dsimp only
  split
  · exact .inl rfl
  next hne =>
    cases htarget : s.blockOf (s.commitTarget ledgerInfo.ledgerInfo.commitInfo) with
    | none => exact .inl rfl
    | some executed => exact .inr ⟨executed, hne, rfl, rfl⟩

theorem commit_of_blockOf {ledgerInfo : LedgerInfoWithSignatures}
    (hne : s.commitTarget ledgerInfo.ledgerInfo.commitInfo ≠ zeroHash)
    (hc : s.blockOf (s.commitTarget ledgerInfo.ledgerInfo.commitInfo) = some executed) :
    s.commit ledgerInfo
      = { s with committed := executed :: s.committed, committedRound := executed.block.round } := by
  unfold commit
  simp only [if_neg hne, hc]

theorem preCommit_cases (s : BlockStorage) (qc : QuorumCertificate) :
    s.preCommit qc = s ∨ s.committedRound < qc.commitInfo.round ∧ ∃ committed round,
      s.preCommit qc = { s with
        committed := committed
        committedRound := round
        cacheBlocks := gcBlocks s.cacheBlocks qc.commitInfo.epoch qc.commitInfo.round }
      ∧ (round = s.committedRound
        ∨ ∃ c, s.blockOf (s.commitTarget qc.commitInfo) = some c ∧ round = c.block.round) := by
  unfold preCommit
  split
  next hlt =>
    refine .inr ⟨hlt, ?_⟩
    rcases commit_eq (s := s) qc.signedLedgerInfo with h | ⟨c, -, hc, h⟩
    · rw [h]
      exact ⟨_, _, rfl, .inl rfl⟩
    · rw [h]
      exact ⟨_, _, rfl, .inr ⟨c, hc, rfl⟩⟩
  · exact .inl rfl

theorem highestQuorumCert_preCommit : (s.preCommit qc).highestQuorumCert = s.highestQuorumCert := by
  rcases preCommit_cases s qc with h | ⟨-, _, _, h, -⟩ <;> rw [h]

/-! ## Consistent certificates -/

/-- What the store takes on trust from a certificate it inserts. If the certificate becomes the
highest, the round it claims is that of the stored block. If it advances the commit, the block it
names is not below the committed round, and the block of the highest certificate is outside the
range that is collected. -/
def Consistent (s : BlockStorage) (qc : QuorumCertificate) : Prop :=
  ∀ executed ∈ s.blockOf qc.certifiedBlock.id,
    (s.highestQuorumCert.certifiedBlock.round < executed.block.round →
      qc.certifiedBlock.round = executed.block.round)
    ∧ (s.committedRound < qc.commitInfo.round →
      (∀ c ∈ s.blockOf (s.commitTarget qc.commitInfo), s.committedRound ≤ c.block.round)
      ∧ ∀ c ∈ s.blockOf (s.nextHighest executed.block.round qc).certifiedBlock.id,
          ¬ Collected qc.commitInfo.epoch qc.commitInfo.round c)

instance (s : BlockStorage) (qc : QuorumCertificate) : Decidable (s.Consistent qc) :=
  inferInstanceAs (Decidable (∀ executed ∈ s.blockOf qc.certifiedBlock.id, _))

structure RoundsLE (s t : BlockStorage) : Prop where
  highestQuorumCert :
    s.highestQuorumCert.certifiedBlock.round ≤ t.highestQuorumCert.certifiedBlock.round
  highestCommitCert : s.highestCommitCert.commitInfo.round ≤ t.highestCommitCert.commitInfo.round
  committedRound : s.committedRound ≤ t.committedRound

theorem RoundsLE.refl (s : BlockStorage) : RoundsLE s s := ⟨le_refl _, le_refl _, le_refl _⟩

theorem RoundsLE.trans {r s t : BlockStorage} (h₁ : RoundsLE r s) (h₂ : RoundsLE s t) : RoundsLE r t :=
  ⟨h₁.1.trans h₂.1, h₁.2.trans h₂.2, h₁.3.trans h₂.3⟩

/-- The highest certificate is the genesis certificate, or the block it certifies is cached and of
the round it claims. -/
def HighestCached (genesis : QuorumCertificate) (s : BlockStorage) : Prop :=
  s.highestQuorumCert = genesis
    ∨ ∃ executed, s.blockOf s.highestQuorumCert.certifiedBlock.id = some executed
      ∧ executed.block.round = s.highestQuorumCert.certifiedBlock.round

variable {genesis : QuorumCertificate}

theorem HighestCached.addExecutedBlock (hs : s.HighestCached genesis) (executed : ExecutedBlock) :
    (s.addExecutedBlock executed).HighestCached genesis := by
  rcases hs with hs | ⟨b, hb, hround⟩
  · exact .inl hs
  · exact .inr ⟨b, AList.lookup_emplace_of_some hb, hround⟩

theorem executeAndAddBlock_eq (app : Application) (block : Block) :
    (s.executeAndAddBlock app block).1 = s
    ∨ ∃ executed, (s.executeAndAddBlock app block).1 = s.addExecutedBlock executed := by
  unfold executeAndAddBlock
  split
  · exact .inl rfl
  · split
    · exact .inr ⟨_, rfl⟩
    · exact .inl rfl

theorem insertQuorumCert_step (hs : s.HighestCached genesis) (hqc : s.Consistent qc) :
    (s.insertQuorumCert qc).1.HighestCached genesis ∧ RoundsLE s (s.insertQuorumCert qc).1 := by
  unfold insertQuorumCert
  cases hcert : s.blockOf qc.certifiedBlock.id with
  | none => exact ⟨hs, .refl s⟩
  | some executed =>
    obtain ⟨hclaim, hcommit⟩ := hqc executed hcert
    have hmono : s.highestQuorumCert.certifiedBlock.round
        ≤ (s.nextHighest executed.block.round qc).certifiedBlock.round := by
      unfold nextHighest
      split
      next hlt => rw [hclaim hlt]; exact le_of_lt hlt
      · exact le_refl _
    -- The highest certificate after the update, before blocks are collected.
    have hcached : s.nextHighest executed.block.round qc = genesis
        ∨ ∃ b, s.blockOf (s.nextHighest executed.block.round qc).certifiedBlock.id = some b
          ∧ b.block.round = (s.nextHighest executed.block.round qc).certifiedBlock.round := by
      unfold nextHighest
      split
      next hlt => exact .inr ⟨executed, hcert, (hclaim hlt).symm⟩
      · exact hs
    have hcommitCert : s.highestCommitCert.commitInfo.round ≤ (if s.highestCommitCert.commitInfo.round
        < qc.commitInfo.round then qc else s.highestCommitCert).commitInfo.round := by
      split
      next hlt => exact le_of_lt hlt
      · exact le_refl _
    dsimp only
    rw [updateQuorumCert_eq]
    rcases preCommit_cases _ qc with h | ⟨hlt, committed, round, h, hround⟩
    · rw [h]
      exact ⟨hcached, hmono, hcommitCert, le_refl _⟩
    · rw [h]
      obtain ⟨htarget, hkeep⟩ := hcommit hlt
      refine ⟨hcached.imp_right ?_, hmono, hcommitCert, ?_⟩
      · rintro ⟨b, hb, hround⟩
        exact ⟨b, lookup_gcBlocks hb (hkeep b hb), hround⟩
      · rcases hround with rfl | ⟨c, hc, rfl⟩
        · exact le_refl _
        · exact htarget c hc

/-! ## Runs -/

inductive Op where
  | executeAndAddBlock (app : Application) (block : Block)
  | addExecutedBlock (executed : ExecutedBlock)
  | insertQuorumCert (qc : QuorumCertificate)
  | addCerts (sync : SyncInfo)

def step (s : BlockStorage) : Op → BlockStorage
  | .executeAndAddBlock app block => (s.executeAndAddBlock app block).1
  | .addExecutedBlock executed => s.addExecutedBlock executed
  | .insertQuorumCert qc => (s.insertQuorumCert qc).1
  | .addCerts sync => s.addCerts sync

def ConsistentOp (s : BlockStorage) : Op → Prop
  | .insertQuorumCert qc => s.Consistent qc
  | .addCerts sync =>
    s.Consistent sync.highestCommitCert
      ∧ (s.insertQuorumCert sync.highestCommitCert).1.Consistent sync.highestQuorumCert
  | _ => True

instance (s : BlockStorage) (op : Op) : Decidable (s.ConsistentOp op) :=
  match op with
  | .executeAndAddBlock _ _ => inferInstanceAs (Decidable True)
  | .addExecutedBlock _ => inferInstanceAs (Decidable True)
  | .insertQuorumCert qc => inferInstanceAs (Decidable (s.Consistent qc))
  | .addCerts _ => inferInstanceAs (Decidable (_ ∧ _))

theorem step_consistent {op : Op} (hs : s.HighestCached genesis) (hop : s.ConsistentOp op) :
    (s.step op).HighestCached genesis ∧ RoundsLE s (s.step op) := by
  cases op with
  | executeAndAddBlock app block =>
    simp only [step]
    rcases executeAndAddBlock_eq (s := s) app block with h | ⟨executed, h⟩
    · rw [h]
      exact ⟨hs, .refl s⟩
    · rw [h]
      exact ⟨hs.addExecutedBlock executed, le_refl _, le_refl _, le_refl _⟩
  | addExecutedBlock executed => exact ⟨hs.addExecutedBlock executed, le_refl _, le_refl _, le_refl _⟩
  | insertQuorumCert qc => exact insertQuorumCert_step hs hop
  | addCerts sync =>
    obtain ⟨hcached, hle⟩ := insertQuorumCert_step hs hop.1
    obtain ⟨hcached', hle'⟩ := insertQuorumCert_step hcached hop.2
    exact ⟨hcached', hle.trans hle'⟩

theorem highestQuorumCert_updateCertificates (app : Application) (block : Block) :
    (s.updateCertificates app block).highestQuorumCert = block.quorumCert := by
  unfold updateCertificates
  rcases executeAndAddBlock_eq app block with h | ⟨_, h⟩
  · rw [h]
  · rw [h, addExecutedBlock]

/-- In every run of the store from its genesis block in which each certificate is consistent when it
is inserted, no call decreases the round of the highest certificate, the commit round of the highest
commit certificate or the committed round, and the highest certificate, unless it still is the genesis
certificate, is of the round of the cached block with its id. -/
theorem rounds_monotone (app : Application) (block : Block) (ops later : List Op)
    (hrun : Run.Along step ConsistentOp (updateCertificates {} app block) (ops ++ later)) :
    RoundsLE (Run.final step (updateCertificates {} app block) ops)
      (Run.final step (updateCertificates {} app block) (ops ++ later))
    ∧ HighestCached block.quorumCert
      (Run.final step (updateCertificates {} app block) (ops ++ later)) := by
  obtain ⟨hops, hlater⟩ := Run.along_append.mp hrun
  have hinit : HighestCached block.quorumCert (updateCertificates {} app block) :=
    .inl (highestQuorumCert_updateCertificates app block)
  have hmid := hops.invariant hinit fun s op hs hop => (step_consistent hs hop).1
  rw [Run.final_append]
  exact ⟨hlater.le_final .refl (fun _ _ _ => .trans) hmid fun _ _ => step_consistent,
    hlater.invariant hmid fun s op hs hop => (step_consistent hs hop).1⟩

def claimingCert (block : Block) (round parentRound : Int) (commitInfo : BlockInfo) :
    QuorumCertificate :=
  let voteData : VoteData :=
    { proposed := { id := block.id, round := round }, parent := { id := 2, round := parentRound } }
  let hash := voteData.hash codeHasher
  { voteData := voteData
    signedLedgerInfo :=
      { ledgerInfo := { commitInfo := commitInfo, consensusDataHash := hash }
        signatures := [1, 2, 3].foldr (fun a sigs => sigs.insert a (Nat.pair a hash)) ∅ } }

def genesisStore : BlockStorage :=
  updateCertificates {} (.idle {}) (Block.newGenesisBlock codeHasher {} 0)

def nilOfRound (round : Int) : Block :=
  Block.nilBlock codeHasher round (Block.genesisQuorumCert codeHasher {} 0)

theorem rounds_monotone_one_block :
    RoundsLE
      (Run.final step genesisStore [.addExecutedBlock { block := nilOfRound 5 }])
      (Run.final step genesisStore
        [.addExecutedBlock { block := nilOfRound 5 },
          .insertQuorumCert (claimingCert (nilOfRound 5) 5 4 {})]) :=
  (rounds_monotone (.idle {}) (Block.newGenesisBlock codeHasher {} 0)
    [.addExecutedBlock { block := nilOfRound 5 }]
    [.insertQuorumCert (claimingCert (nilOfRound 5) 5 4 {})]
    ⟨trivial, by decide +kernel, trivial⟩).1

/-- The certificate of a block of round 7 claims round 1 and, as its commit decision, that round 9
commits a block of round 2. Inserted after a certificate of round 5 that commits round 5, it takes the
highest round from 5 to 1 and the committed round from 5 to 2. All certificates verify. -/
theorem rounds_decrease :
    let qc₅ := claimingCert (nilOfRound 5) 5 4 { id := (nilOfRound 5).id, round := 5 }
    let qc₇ := claimingCert (nilOfRound 7) 1 0 { id := (nilOfRound 2).id, round := 9 }
    let s := Run.final step genesisStore
      [.addExecutedBlock { block := nilOfRound 2 }, .addExecutedBlock { block := nilOfRound 5 },
        .addExecutedBlock { block := nilOfRound 7 }, .insertQuorumCert qc₅]
    let t := s.step (.insertQuorumCert qc₇)
    qc₅.verify codeHasher (codeVerifier {1, 2, 3, 4} 3 4) = true
    ∧ qc₇.verify codeHasher (codeVerifier {1, 2, 3, 4} 3 4) = true
    ∧ s.highestQuorumCert.certifiedBlock.round = 5 ∧ s.committedRound = 5
    ∧ t.highestQuorumCert.certifiedBlock.round = 1 ∧ t.committedRound = 2
    ∧ (t.blockOf t.highestQuorumCert.certifiedBlock.id).map (·.block.round) = some 7 := by
  decide +kernel

end BlockStorage

end Chainsql.Hotstuff
