import Chainsql.Hotstuff.Provenance

/-!
# Every handler keeps a validator sound

`SoundReplica` extends the soundness of the block store to all a validator holds: its safety data, its
pending and sent votes, its queues and its outgoing messages. One lemma per handler says that it is
kept; the history grows only where a vote is signed, and it stays one of at most one vote per round if
that call is fresh.
-/

namespace Chainsql.Hotstuff

open Function HotstuffCore

namespace Cluster

variable (c : Cluster) (H : History)

/-- A proposal in circulation. The empty block stands for one that the proposer refused to sign. -/
def SoundProposal (b : Block) : Prop := c.SoundBlock H b ∨ b = Block.empty

def SoundMessage : Message → Prop
  | .proposal block sync => c.SoundProposal H block ∧ c.SoundSync H sync
  | .vote _ vote sync => c.SoundVote H vote ∧ c.SoundSync H sync
  | .blockData executed => c.SoundBlock H executed.block ∨ executed.block = c.genesisBlock

def SoundHandler : Handler → Prop
  | .proposal block sync => c.SoundProposal H block ∧ c.SoundSync H sync
  | .vote vote sync => c.SoundVote H vote ∧ c.SoundSync H sync

def SoundOwnVote (a : Author) (vote : Vote) : Prop := vote.author = a ∧ c.SoundVote H vote

structure SoundSafety (a : Author) (s : SafetyData) : Prop where
  own : ∀ v ∈ s.lastVote, c.SoundOwnVote H a v
  newest : ∀ b ∈ (H a).head?, ∃ v ∈ s.lastVote, v.voteData.VotesFor b

structure SoundRoundState (a : Author) (rs : RoundState) : Prop where
  pendingVotes : rs.pendingVotes.From (c.SoundVote H)
  sendVote : ∀ v ∈ rs.sendVote, c.SoundOwnVote H a v

structure SoundReplica (a : Author) (r : Replica) : Prop where
  started : r.started = true
  voted : r.voted = H a
  safety : c.SoundSafety H a r.safety
  storage : c.SoundStorage H r.storage
  roundState : c.SoundRoundState H a r.roundState
  currentRound : r.roundState.currentRound ≤ r.storage.highestQuorumCert.certifiedBlock.round + 1
  timers : ∀ t ∈ r.proposalTimers, t ≤ r.storage.highestQuorumCert.certifiedBlock.round + 1
  jobs : ∀ b ∈ r.jobs, c.SoundProposal H b
  proposalCache : ∀ b ∈ r.proposalCache, c.SoundProposal H b
  acquiring : r.acquiring.All fun _ handlers => ∀ h ∈ handlers, c.SoundHandler H h
  sent : ∀ m ∈ r.sent, c.SoundMessage H m

variable {c H} {H' : History} {a : Author} {r : Replica} {b : Block} {vote : Vote}
  {sync : SyncInfo} {qc : QuorumCertificate} {m : Message} {round : Int} {executed : ExecutedBlock}
  {fresh fresh' : Prop}

/-! ## Growing histories -/

section Mono

variable (hle : ∀ a, H a ⊆ H' a)
include hle

theorem SoundProposal.mono (hb : c.SoundProposal H b) : c.SoundProposal H' b := hb.imp_left (.mono hle)

theorem SoundMessage.mono (hm : c.SoundMessage H m) : c.SoundMessage H' m := by
  cases m with
  | proposal block sync => exact ⟨hm.1.mono hle, hm.2.mono hle⟩
  | vote dest vote sync => exact ⟨hm.1.mono hle, hm.2.mono hle⟩
  | blockData executed => exact hm.imp_left (.mono hle)

theorem SoundHandler.mono {h : Handler} (hh : c.SoundHandler H h) : c.SoundHandler H' h := by
  cases h with
  | proposal block sync => exact ⟨hh.1.mono hle, hh.2.mono hle⟩
  | vote vote sync => exact ⟨hh.1.mono hle, hh.2.mono hle⟩

theorem SoundOwnVote.mono (hv : c.SoundOwnVote H a vote) : c.SoundOwnVote H' a vote := ⟨hv.1, hv.2.mono hle⟩

theorem SoundRoundState.mono {rs : RoundState} (hrs : c.SoundRoundState H a rs) :
    c.SoundRoundState H' a rs :=
  ⟨hrs.pendingVotes.mono fun _ hu => hu.mono hle, fun v hv => (hrs.sendVote v hv).mono hle⟩

theorem SoundReplica.grow (hr : c.SoundReplica H a r) {safety : SafetyData} {voted : List Block}
    (hvoted : voted = H' a) (hsafety : c.SoundSafety H' a safety) :
    c.SoundReplica H' a { r with safety := safety, voted := voted } where
  started := hr.started
  voted := hvoted
  safety := hsafety
  storage := hr.storage.mono hle
  roundState := hr.roundState.mono hle
  currentRound := hr.currentRound
  timers := hr.timers
  jobs := fun b hb => (hr.jobs b hb).mono hle
  proposalCache := fun b hb => (hr.proposalCache b hb).mono hle
  acquiring := hr.acquiring.imp fun _ _ hhandlers h hh => (hhandlers h hh).mono hle
  sent := fun m hm => (hr.sent m hm).mono hle

theorem SoundReplica.mono (hr : c.SoundReplica H a r) (heq : H' a = H a) : c.SoundReplica H' a r :=
  hr.grow hle (hr.voted.trans heq.symm)
    ⟨fun v hv => (hr.safety.own v hv).mono hle, heq ▸ hr.safety.newest⟩

end Mono

theorem SoundRoundState.insertVote {rs : RoundState} (hrs : c.SoundRoundState H a rs)
    (hvote : c.SoundVote H vote) (v : ValidatorVerifier) :
    c.SoundRoundState H a (rs.insertVote v vote).1
    ∧ (rs.insertVote v vote).1.currentRound = rs.currentRound
    ∧ ∀ qc, (rs.insertVote v vote).2 = .newQuorumCertificate qc →
      PendingVotes.Aggregated (c.SoundVote H) v vote qc := by
  obtain ⟨hfrom, hagg⟩ := hrs.pendingVotes.insertVote hvote v
  unfold RoundState.insertVote
  split
  · exact ⟨hrs, rfl, fun qc h => by cases h⟩
  · exact ⟨⟨hfrom, hrs.sendVote⟩, rfl, hagg⟩

theorem SoundSafety.congr {s s' : SafetyData} (hs : c.SoundSafety H a s) (hlast : s'.lastVote = s.lastVote) :
    c.SoundSafety H a s' :=
  ⟨hlast ▸ hs.own, hlast ▸ hs.newest⟩

/-- `H'` is `H` after validator `a` has voted at most once more, and in a new round if the call was
`fresh`. -/
structure Grows (c : Cluster) (fresh : Prop) (H : History) (a : Author) (H' : History) : Prop where
  le : ∀ a, H a ⊆ H' a
  others : ∀ a' ≠ a, H' a' = H a'
  sound : c.SoundHistory H'
  once : fresh → H.Once → H'.Once

theorem Grows.refl (hH : c.SoundHistory H) : c.Grows fresh H a H :=
  ⟨fun _ => List.Subset.refl _, fun _ _ => rfl, hH, fun _ => id⟩

theorem Grows.imp (hgrows : c.Grows fresh H a H') (himp : fresh' → fresh) : c.Grows fresh' H a H' :=
  { hgrows with once := fun hfresh => hgrows.once (himp hfresh) }

theorem SoundHistory.addVote (hH : c.SoundHistory H) (ha : a ∈ c.validators) (hb : c.SoundBlock H b)
    (hnew : fresh → H.Once → ∀ b' ∈ H a, b'.round < b.round) :
    c.Grows fresh H a (Function.update H a (b :: H a)) := by
  have hle : ∀ a', H a' ⊆ update H a (b :: H a) a' := by
    intro a' b' hb'
    by_cases heq : a' = a
    · subst heq
      rw [update_self]
      exact List.mem_cons_of_mem _ hb'
    · rwa [update_of_ne heq]
  have hcases : ∀ a', ∀ b' ∈ update H a (b :: H a) a', (a' = a ∧ b' = b) ∨ b' ∈ H a' := by
    intro a' b' hb'
    by_cases heq : a' = a
    · subst heq
      rw [update_self] at hb'
      exact (List.mem_cons.mp hb').imp_left fun h => ⟨rfl, h⟩
    · rw [update_of_ne heq] at hb'
      exact .inr hb'
  refine ⟨hle, fun a' hne => update_of_ne hne _ _, ⟨?_, ?_⟩, ?_⟩
  · intro a' b' hb'
    rcases hcases a' b' hb' with ⟨rfl, -⟩ | hold
    · exact ha
    · exact hH.member a' b' hold
  · intro a' b' hb'
    rcases hcases a' b' hb' with ⟨-, rfl⟩ | hold
    · exact hb.mono hle
    · exact (hH.block a' b' hold).mono hle
  · intro hfresh honce a'
    by_cases heq : a' = a
    · subst heq
      rw [update_self]
      exact List.pairwise_cons.mpr ⟨hnew hfresh honce, honce a'⟩
    · rw [update_of_ne heq]
      exact honce a'

def SoundNext (c : Cluster) (fresh : Prop) (H : History) (a : Author) (r : Replica) (vote : Option Vote) :
    Prop :=
  ∃ H', c.Grows fresh H a H' ∧ c.SoundReplica H' a r ∧ ∀ v ∈ vote, c.SoundOwnVote H' a v

namespace SoundReplica

variable (env : Environment) (hH : c.SoundHistory H) (ha : a ∈ c.validators) (hr : c.SoundReplica H a r)
include hH hr

omit hH in
theorem send (hm : c.SoundMessage H m) : c.SoundReplica H a (r.send m) :=
  { hr with sent := List.forall_mem_append.mpr ⟨hr.sent, List.forall_mem_singleton.mpr hm⟩ }

/-! ## Proposals of its own -/

omit hH hr in
theorem ensureHighestQuorumCert_eq (hqc : r.ensureHighestQuorumCert round = some qc) :
    qc = r.storage.highestQuorumCert ∧ qc.certifiedBlock.round < round := by
  unfold Replica.ensureHighestQuorumCert at hqc
  dsimp only at hqc
  split at hqc
  · cases hqc
  next hlt =>
    split at hqc
    · cases hqc
    · cases hqc
      exact ⟨rfl, not_le.mp hlt⟩

/-- A block of at most the next round, on a certificate of a lower round, extends the highest
certificate by one round. -/
theorem soundBlock_of_data {d : BlockData} (hlt : r.storage.highestQuorumCert.certifiedBlock.round < d.round)
    (hround : d.round ≤ r.storage.highestQuorumCert.certifiedBlock.round + 1)
    (hvoteData : d.quorumCert.voteData = r.storage.highestQuorumCert.voteData) (htype : d.blockType ≠ .genesis)
    (signature : Option Signature) :
    c.SoundBlock H { id := d.hash c.hasher, blockData := d, signature := signature } := by
  have hcert := hr.storage.quorumCert.voteData
  have hnonneg := hcert.round_nonneg hH
  have hsame : d.quorumCert.certifiedBlock = r.storage.highestQuorumCert.certifiedBlock :=
    congrArg VoteData.proposed hvoteData
  have hsucc : d.round = d.quorumCert.certifiedBlock.round + 1 := by
    rw [hsame]
    omega
  refine ⟨rfl, htype, hsucc, lt_of_le_of_lt hnonneg hlt, ?_⟩
  rw [Block.quorumCert, hvoteData]
  exact hcert

theorem generateNilBlock (hround : round ≤ r.storage.highestQuorumCert.certifiedBlock.round + 1)
    (hb : r.generateNilBlock (c.node a) round = some b) : c.SoundBlock H b ∧ b.round = round := by
  unfold Replica.generateNilBlock at hb
  cases hqc : r.ensureHighestQuorumCert round with
  | none => rw [hqc] at hb; cases hb
  | some qc =>
    rw [hqc] at hb
    cases hb
    obtain ⟨rfl, hlt⟩ := ensureHighestQuorumCert_eq hqc
    exact ⟨hr.soundBlock_of_data hH hlt hround rfl (by simp [BlockData.setLedgerInfo]) none, rfl⟩

theorem proposal (hround : round ≤ r.storage.highestQuorumCert.certifiedBlock.round + 1) {d : BlockData}
    (hd : r.proposal (c.node a) env round = some d) (signature : Option Signature) :
    c.SoundBlock H { id := d.hash c.hasher, blockData := d, signature := signature } := by
  unfold Replica.proposal at hd
  cases hqc : r.ensureHighestQuorumCert round with
  | none => rw [hqc] at hd; cases hd
  | some qc =>
    rw [hqc] at hd
    obtain ⟨rfl, hlt⟩ := ensureHighestQuorumCert_eq hqc
    dsimp only at hd
    split at hd
    · cases hd
      exact hr.soundBlock_of_data hH hlt hround rfl (by simp) signature
    · split at hd
      · cases hd
      · cases hd
        exact hr.soundBlock_of_data hH hlt hround rfl (by simp [BlockData.setLedgerInfo]) signature

theorem generateProposal (hround : round ≤ r.storage.highestQuorumCert.certifiedBlock.round + 1) :
    c.SoundReplica H a (r.generateProposal (c.node a) env round).1
    ∧ ∀ b ∈ (r.generateProposal (c.node a) env round).2, c.SoundProposal H b := by
  have hgen : c.SoundReplica H a { r with lastRoundGenerated := round } := { hr with }
  unfold Replica.generateProposal
  dsimp only
  split
  · refine ⟨hgen, ?_⟩
    intro b hb
    obtain ⟨d, hd, rfl⟩ := Option.map_eq_some_iff.mp hb
    unfold signProposal
    split
    · exact .inr rfl
    · split
      · exact .inr rfl
      · exact .inl (hgen.proposal env hH hround hd _)
  · exact ⟨hgen, by simp⟩

omit hH in
theorem broadcastProposal (hb : c.SoundProposal H b) : c.SoundReplica H a (r.broadcastProposal b) := by
  have hsent := hr.send (m := .proposal b r.syncInfo) ⟨hb, hr.storage.syncInfo⟩
  exact { hsent with jobs := List.forall_mem_cons.mpr ⟨hb, hr.jobs⟩ }

theorem generateThenBroadcastProposal (hround : round ≤ r.storage.highestQuorumCert.certifiedBlock.round + 1) :
    c.SoundReplica H a (r.generateThenBroadcastProposal (c.node a) env round) := by
  unfold Replica.generateThenBroadcastProposal
  split
  · obtain ⟨hr', hb⟩ := hr.generateProposal env hH hround
    generalize r.generateProposal (c.node a) env round = generated at hr' hb
    obtain ⟨r', _ | b⟩ := generated
    · exact hr'
    · exact hr'.broadcastProposal (hb b rfl)
  · exact { hr with timers := List.forall_mem_cons.mpr ⟨hround, hr.timers⟩ }

/-! ## Rounds and certificates -/

theorem processNewRoundEvent (hround : round ≤ r.storage.highestQuorumCert.certifiedBlock.round + 1) :
    c.SoundReplica H a (r.processNewRoundEvent (c.node a) env round) := by
  have htimer : c.SoundReplica H a { r with roundTimer := some round } := { hr with }
  unfold Replica.processNewRoundEvent
  dsimp only
  split
  · exact htimer
  · split
    · exact htimer
    · exact htimer.generateThenBroadcastProposal env hH hround

theorem processCertificates : c.SoundReplica H a (r.processCertificates (c.node a) env) := by
  unfold Replica.processCertificates
  cases hrs : r.roundState.processCertificates r.syncInfo with
  | none => exact hr
  | some rs =>
    unfold RoundState.processCertificates at hrs
    rw [Replica.syncInfo, hr.storage.highestRound_syncInfo] at hrs
    dsimp only at hrs
    split at hrs
    · cases hrs
      have hopen : c.SoundRoundState H a
          { currentRound := r.storage.highestQuorumCert.certifiedBlock.round + 1 } :=
        ⟨.empty, by simp⟩
      exact processNewRoundEvent env hH { hr with roundState := hopen, currentRound := le_refl _ } (le_refl _)
    · cases hrs

omit hH in
theorem withStorage {s : BlockStorage} (hs : c.SoundStorage H s)
    (hle : r.storage.highestQuorumCert.certifiedBlock.round ≤ s.highestQuorumCert.certifiedBlock.round) :
    c.SoundReplica H a { r with storage := s } :=
  { hr with
    storage := hs
    currentRound := hr.currentRound.trans (by dsimp only; omega)
    timers := fun t ht => (hr.timers t ht).trans (by dsimp only; omega) }

omit hH in
theorem withRoundState {rs : RoundState} (hrs : c.SoundRoundState H a rs)
    (hround : rs.currentRound = r.roundState.currentRound) : c.SoundReplica H a { r with roundState := rs } :=
  { hr with roundState := hrs, currentRound := hround ▸ hr.currentRound }

theorem syncUp (hsync : c.SoundSync H sync) : c.SoundReplica H a (r.syncUp (c.node a) env sync).1 := by
  unfold Replica.syncUp
  split
  · split
    · exact hr
    · obtain ⟨hs, hle⟩ := hr.storage.addCerts hH hsync
      exact (hr.withStorage hs hle).processCertificates env hH
  · exact hr

theorem ensureRoundAndSyncUp (round : Int) (hsync : c.SoundSync H sync) :
    c.SoundReplica H a (r.ensureRoundAndSyncUp (c.node a) env round sync).1 := by
  unfold Replica.ensureRoundAndSyncUp
  split
  · exact hr
  · have hup := hr.syncUp env hH hsync
    generalize r.syncUp (c.node a) env sync = up at hup
    obtain ⟨r', _ | _⟩ := up
    · exact hup
    · exact hup

omit hH in
theorem asyncExpectBlock (id : HashValue) {h : Handler} (hh : c.SoundHandler H h) :
    c.SoundReplica H a (r.asyncExpectBlock id h) := by
  refine { hr with acquiring := hr.acquiring.insert ?_ }
  have hold : ∀ h ∈ (r.acquiring.lookup id).getD [], c.SoundHandler H h := by
    cases hid : r.acquiring.lookup id with
    | none => simp
    | some handlers => exact hr.acquiring.lookup hid
  exact List.forall_mem_append.mpr ⟨hold, List.forall_mem_singleton.mpr hh⟩

/-! ## Voting -/

omit hH hr in
theorem id_ne_zero_of_verify {app : Application} {block : Block} {result : StateComputeResult}
    (hverify : app.verify block result = true) : block.id ≠ zeroHash := by
  intro hzero
  unfold Application.verify at hverify
  rw [if_pos hzero] at hverify
  cases hverify

omit hr in
theorem soundCommit_constructLedgerInfo (hb : c.SoundBlock H b) :
    c.SoundCommit H (HotstuffCore.constructLedgerInfo b).commitInfo := by
  unfold constructLedgerInfo
  dsimp only
  split
  · exact hb.cert.commit_parent hH
  · exact .inl (le_refl 0)

omit hH hr in
theorem round_lt_of_signed {s : SafetyData} (honce : H.Once) (hs : c.SoundSafety H a s) (hfresh : s.Fresh executed.block.round)
    (hchecked : ∀ last, s.lastVote = some last → 0 < last.parentRound →
      last.round ≠ executed.block.round ∧ s.lastVotedRound < executed.block.round) :
    ∀ b ∈ H a, b.round < executed.block.round := by
  intro b hb
  cases hvotes : H a with
  | nil =>
    rw [hvotes] at hb
    cases hb
  | cons newest older =>
    obtain ⟨last, hlast, hfor⟩ := hs.newest newest (by rw [hvotes]; rfl)
    have hlt : newest.round < executed.block.round := by
      rw [← hfor.round]
      exact last_round_lt_of_signed hfresh hchecked hlast
    have hrounds := honce a
    rw [hvotes] at hb hrounds
    rcases List.mem_cons.mp hb with rfl | hb
    · exact hlt
    · exact ((List.pairwise_cons.mp hrounds).1 b hb).trans hlt

omit hH in
theorem addVote (hle : ∀ a', H a' ⊆ Function.update H a (b :: H a) a') {safety : SafetyData}
    (hlast : safety.lastVote = some vote) (hvote : c.SoundOwnVote (Function.update H a (b :: H a)) a vote)
    (hfor : vote.voteData.VotesFor b) :
    c.SoundReplica (Function.update H a (b :: H a)) a { r with safety := safety, voted := b :: r.voted } := by
  refine hr.grow hle (by rw [update_self, hr.voted]) ⟨?_, ?_⟩
  · intro v hv
    rw [hlast] at hv
    cases hv
    exact hvote
  · intro newest hnewest
    rw [update_self] at hnewest
    cases hnewest
    exact ⟨vote, hlast, hfor⟩

include ha

theorem executeAndVote (hb : c.SoundBlock H b) :
    c.SoundNext (r.safety.Fresh b.round) H a (r.executeAndVote (c.node a) env b).1 (r.executeAndVote (c.node a) env b).2 := by
  obtain ⟨hs, hexecuted⟩ := hr.storage.executeAndAddBlock hb env.app
  have hqc : (r.storage.executeAndAddBlock env.app b).1.highestQuorumCert = r.storage.highestQuorumCert := by
    rcases BlockStorage.executeAndAddBlock_eq (s := r.storage) env.app b with h | ⟨_, h⟩
    · rw [h]
    · rw [h]
      rfl
  unfold Replica.executeAndVote
  generalize r.storage.executeAndAddBlock env.app b = out at hs hexecuted hqc
  obtain ⟨storage, executed⟩ := out
  dsimp only at hs hexecuted hqc ⊢
  have hr' : c.SoundReplica H a { r with storage := storage } := hr.withStorage hs (by rw [hqc])
  split
  · exact ⟨H, .refl hH, hr', by simp⟩
  · have houtcome := constructAndSignVote_outcome ((c.node a).core env) r.safety executed
    generalize ((c.node a).core env).constructAndSignVote r.safety executed = call at houtcome
    obtain ⟨safety, result⟩ := call
    cases houtcome with
    | failed hlast =>
      exact ⟨H, .refl hH, { hr' with safety := hr.safety.congr hlast }, by simp [VoteResult.vote?]⟩
    | @lastVote last hlast hlast' =>
      refine ⟨H, .refl hH, { hr' with safety := hr.safety.congr (hlast'.trans hlast.symm) }, ?_⟩
      intro v hv
      cases hv
      exact hr.safety.own last hlast
    | @signed voteData hext hlast' hchecked =>
      obtain ⟨hverify, hfor⟩ := votesFor_of_extensionCheck hext
      have hverify : env.app.verify executed.block executed.stateComputeResult = true := hverify
      -- The application accepts no result for the empty block.
      have hblock : c.SoundBlock H executed.block ∧ executed.block.id = b.id := by
        rcases hexecuted with hempty | hsound
        · rw [hempty] at hverify
          exact absurd rfl (id_ne_zero_of_verify hverify)
        · exact hsound
      obtain ⟨hsound, hid⟩ := hblock
      have hround : executed.block.round = b.round := hsound.round_eq hb hid
      have hgrows : c.Grows (r.safety.Fresh b.round) H a _ := hH.addVote ha hsound
        fun hfresh honce => round_lt_of_signed honce hr.safety (hround ▸ hfresh) hchecked
      have hauthor : (c.verifier a).self = a := c.self_eq a ha
      have hvote : c.SoundOwnVote (update H a (executed.block :: H a)) a
          (((c.node a).core env).newVote voteData (constructLedgerInfo executed.block)) := by
        refine ⟨hauthor, rfl, ⟨executed.block, ?_, hfor⟩, ?_⟩
        · simp only [newVote, Node.core, Cluster.node, hauthor, update_self]
          exact List.mem_cons_self
        · exact (soundCommit_constructLedgerInfo hH hsound).mono hgrows.le
      refine ⟨_, hgrows, hr'.addVote hgrows.le hlast' hvote hfor, ?_⟩
      intro v hv
      cases hv
      exact hvote

omit hH ha in
theorem recordAndSend (hvote : c.SoundOwnVote H a vote) (dest : Option Author) :
    c.SoundReplica H a (r.recordAndSend dest vote) := by
  have hrs : c.SoundRoundState H a (r.roundState.recordVote vote) := by
    refine ⟨hr.roundState.pendingVotes, ?_⟩
    intro v hv
    cases hv
    exact hvote
  have hrecorded := hr.withRoundState hrs rfl
  exact hrecorded.send ⟨hvote.2, hrecorded.storage.syncInfo⟩

theorem processProposal (hb : c.SoundProposal H b) :
    ∃ H', c.Grows (r.safety.Fresh b.round) H a H' ∧ c.SoundReplica H' a (r.processProposal (c.node a) env b) := by
  unfold Replica.processProposal
  split
  · exact ⟨H, .refl hH, hr⟩
  next hvalid =>
    split
    · exact ⟨H, .refl hH, hr⟩
    · -- The empty block is a nil block, and those are never proposals.
      have hsound : c.SoundBlock H b := by
        rcases hb with hsound | rfl
        · exact hsound
        · exact absurd rfl hvalid
      obtain ⟨H', hgrows, hr', hvote⟩ := hr.executeAndVote env hH ha hsound
      generalize r.executeAndVote (c.node a) env b = out at hr' hvote
      obtain ⟨r', _ | vote⟩ := out
      · exact ⟨H', hgrows, hr'⟩
      · exact ⟨H', hgrows, hr'.recordAndSend (hvote vote rfl) _⟩

omit hH hr in
theorem soundVote_resetVoteTimeoutCount (hvote : c.SoundOwnVote H a vote) (tc : Nat) :
    c.SoundOwnVote H a (((c.node a).core env).resetVoteTimeoutCount vote tc) := by
  obtain ⟨hauthor, hsound⟩ := hvote
  obtain ⟨b, hb, hfor⟩ := hsound.block
  have hself : (c.verifier a).self = a := c.self_eq a ha
  refine ⟨hself, rfl, ⟨b, ?_, ⟨hfor.id, hfor.epoch, hfor.round, hfor.timestamp, hfor.version, hfor.parent⟩⟩,
    hsound.commit⟩
  rw [hauthor] at hb
  simp only [resetVoteTimeoutCount, newVote, Node.core, Cluster.node, hself]
  exact hb

omit hH ha hr in
theorem soundVote_addTimeoutSignature (hvote : c.SoundOwnVote H a vote) :
    c.SoundOwnVote H a (Replica.addTimeoutSignature (c.node a) vote) := by
  unfold Replica.addTimeoutSignature
  split
  · exact hvote
  · exact ⟨hvote.1, hvote.2.digest, hvote.2.block, hvote.2.commit⟩

theorem voteForNilBlock (hround : round ≤ r.storage.highestQuorumCert.certifiedBlock.round + 1) :
    c.SoundNext (r.safety.Fresh round) H a
      (r.voteForNilBlock (c.node a) env round).1 (r.voteForNilBlock (c.node a) env round).2 := by
  unfold Replica.voteForNilBlock
  cases hgen : r.generateNilBlock (c.node a) round with
  | none => exact ⟨H, .refl hH, hr, by simp⟩
  | some b =>
    obtain ⟨hb, hbround⟩ := hr.generateNilBlock hH hround hgen
    exact hbround ▸ hr.executeAndVote env hH ha hb

theorem timeoutVote (hround : round ≤ r.storage.highestQuorumCert.certifiedBlock.round + 1) :
    c.SoundNext
      (r.roundState.sendVote.any (fun v => decide (0 < v.parentRound)) = false → r.safety.Fresh round) H a
      (r.timeoutVote (c.node a) env round).1 (r.timeoutVote (c.node a) env round).2 := by
  obtain ⟨H', hgrows, hnil⟩ := hr.voteForNilBlock env hH ha hround
  unfold Replica.timeoutVote
  cases hsend : r.roundState.sendVote with
  | none => exact ⟨H', hgrows.imp fun hfresh => hfresh rfl, hnil⟩
  | some sent =>
    have hown := hr.roundState.sendVote sent hsend
    dsimp only
    split
    · refine ⟨H, .refl hH, hr, ?_⟩
      intro v hv
      cases hv
      split
      · exact soundVote_resetVoteTimeoutCount env ha hown _
      · exact hown
    next hparent =>
      exact ⟨H', hgrows.imp fun hfresh => hfresh (by simpa using hparent), hnil⟩

theorem processLocalTimeout :
    ∃ H', c.Grows (r.roundState.sendVote.any (fun v => decide (0 < v.parentRound)) = false →
        r.safety.Fresh r.roundState.currentRound) H a H'
      ∧ c.SoundReplica H' a (r.processLocalTimeout (c.node a) env) := by
  unfold Replica.processLocalTimeout
  split
  · exact ⟨H, .refl hH, hr⟩
  next round _ =>
    split
    · exact ⟨H, .refl hH, hr⟩
    next hround =>
      have hround : round = r.roundState.currentRound := not_not.mp hround
      obtain ⟨H', hgrows, hr', hvote⟩ := hr.timeoutVote env hH ha (hround ▸ hr.currentRound)
      rw [hround] at hgrows
      generalize r.timeoutVote (c.node a) env round = out at hr' hvote
      obtain ⟨r', _ | vote⟩ := out
      · exact ⟨H', hgrows, hr'⟩
      · exact ⟨H', hgrows, hr'.recordAndSend (soundVote_addTimeoutSignature (hvote vote rfl)) _⟩

/-! ## Messages -/

omit ha in
theorem newQCAggregated (hqc : c.SoundCert H qc) : c.SoundReplica H a (r.newQCAggregated (c.node a) env qc) := by
  obtain ⟨hs, hle⟩ := hr.storage.insertQuorumCert hH hqc
  have hstored := hr.withStorage hs hle
  unfold Replica.newQCAggregated
  generalize r.storage.insertQuorumCert qc = inserted at hstored
  obtain ⟨storage, _ | code⟩ := inserted
  · exact hstored.processCertificates env hH
  · exact hstored

theorem processVote (hvote : c.SoundVote H vote) : c.SoundReplica H a (r.processVote (c.node a) env vote) := by
  unfold Replica.processVote
  split
  · exact hr
  · obtain ⟨hrs, hround, hagg⟩ := hr.roundState.insertVote hvote (c.node a).verifier
    have hr' := hr.withRoundState hrs hround
    generalize r.roundState.insertVote (c.node a).verifier vote = inserted at hr' hagg
    obtain ⟨rs, result⟩ := inserted
    cases result with
    | newQuorumCertificate qc =>
      exact hr'.newQCAggregated env hH (.of_aggregated hH ha hvote (hagg qc rfl))
    | voteAdded => exact hr'
    | duplicateVote => exact hr'
    | equivocateVote => exact hr'
    | qcHasAlreadyProcessed => exact hr'

theorem handleCacheVotes (id : HashValue) : c.SoundReplica H a (r.handleCacheVotes (c.node a) env id) := by
  obtain ⟨hfrom, hvotes⟩ := hr.roundState.pendingVotes.getAndRemoveCachedVotes id
  unfold Replica.handleCacheVotes
  generalize r.roundState.pendingVotes.getAndRemoveCachedVotes id = removed at hfrom hvotes
  obtain ⟨pending, votes⟩ := removed
  dsimp only at hfrom hvotes ⊢
  have hrs : c.SoundReplica H a { r with roundState := { r.roundState with pendingVotes := pending } } :=
    hr.withRoundState ⟨hfrom, hr.roundState.sendVote⟩ rfl
  generalize ({ r with roundState := { r.roundState with pendingVotes := pending } } : Replica) = r at hrs
  induction votes generalizing r with
  | nil => exact hrs
  | cons vote votes ih =>
    exact ih (fun v hv => hvotes v (List.mem_cons_of_mem _ hv)) _
      (hrs.processVote env hH ha (hvotes vote List.mem_cons_self))

theorem preProcessVote (hvote : c.SoundVote H vote) (hsync : c.SoundSync H sync) :
    c.SoundReplica H a (r.preProcessVote (c.node a) env vote sync) := by
  have hup := hr.ensureRoundAndSyncUp env hH vote.round hsync
  unfold Replica.preProcessVote
  generalize r.ensureRoundAndSyncUp (c.node a) env vote.round sync = up at hup
  obtain ⟨r', _ | _⟩ := up
  · exact hup
  · dsimp only
    split
    · exact hup
    · split
      · unfold RoundState.cacheVote
        split
        · exact hup
        · exact hup.withRoundState
            ⟨hup.roundState.pendingVotes.cacheVote hvote, hup.roundState.sendVote⟩ rfl
      · exact (hup.handleCacheVotes env hH ha _).processVote env hH ha hvote

omit ha in
theorem preProcessProposal (b : Block) (hsync : c.SoundSync H sync) :
    c.SoundReplica H a (r.preProcessProposal (c.node a) env b sync).1 := by
  have hup := hr.ensureRoundAndSyncUp env hH b.round hsync
  unfold Replica.preProcessProposal
  generalize r.ensureRoundAndSyncUp (c.node a) env b.round sync = up at hup
  obtain ⟨r', _ | _⟩ := up
  · exact hup
  · dsimp only
    split <;> exact hup

omit hH ha in
theorem queueProposal (hb : c.SoundProposal H b) : c.SoundReplica H a (r.queueProposal b) := by
  have hcons : ∀ blocks : List Block, (∀ b ∈ blocks, c.SoundProposal H b) →
      ∀ b' ∈ b :: blocks, c.SoundProposal H b' :=
    fun blocks hblocks => List.forall_mem_cons.mpr ⟨hb, hblocks⟩
  exact { hr with jobs := hcons _ hr.jobs, proposalCache := hcons _ hr.proposalCache }

omit ha in
theorem checkProposal (hb : c.SoundProposal H b) (hsync : c.SoundSync H sync) :
    c.SoundReplica H a (r.checkProposal (c.node a) env b sync).1 := by
  unfold Replica.checkProposal
  split
  · exact hr
  · split
    · split
      · exact hr
      · exact hr.asyncExpectBlock _ ⟨hb, hsync⟩
    · exact hr.preProcessProposal env hH b hsync

omit ha in
theorem peerProposal (hb : c.SoundProposal H b) (hsync : c.SoundSync H sync) :
    c.SoundReplica H a (r.peerProposal (c.node a) env b sync) := by
  have hchecked := hr.checkProposal env hH hb hsync
  unfold Replica.peerProposal
  generalize r.checkProposal (c.node a) env b sync = checked at hchecked
  obtain ⟨r', _ | _⟩ := checked
  · dsimp only
    split
    · exact { hchecked with proposalCache := List.forall_mem_cons.mpr ⟨hb, hchecked.proposalCache⟩ }
    · exact hchecked
  · exact hchecked.queueProposal hb

theorem peerVote (hvote : c.SoundVote H vote) (hsync : c.SoundSync H sync) :
    c.SoundReplica H a (r.peerVote (c.node a) env vote sync) := by
  unfold Replica.peerVote
  split
  · exact hr
  · split
    · split
      · exact hr
      · exact hr.asyncExpectBlock _ ⟨hvote, hsync⟩
    · exact hr.preProcessVote env hH ha hvote hsync

theorem runHandler (hexecuted : c.SoundBlock H executed.block) {h : Handler} (hh : c.SoundHandler H h) :
    c.SoundReplica H a (Replica.runHandler (c.node a) env executed r h) := by
  have hadded := hr.withStorage (hr.storage.addExecutedBlock executed hexecuted) (le_refl _)
  unfold Replica.runHandler
  cases h with
  | proposal block sync =>
    have hchecked := hadded.preProcessProposal env hH block hh.2
    dsimp only
    generalize Replica.preProcessProposal (c.node a) env
      { r with storage := r.storage.addExecutedBlock executed } block sync = checked at hchecked
    obtain ⟨r', _ | _⟩ := checked
    · exact hchecked
    · exact hchecked.queueProposal hh.1
  | vote vote sync => exact hadded.preProcessVote env hH ha hh.1 hh.2

theorem runHandlers (hexecuted : c.SoundBlock H executed.block) {handlers : List Handler}
    (hhandlers : ∀ h ∈ handlers, c.SoundHandler H h) :
    c.SoundReplica H a (handlers.foldl (Replica.runHandler (c.node a) env executed) r) := by
  induction handlers generalizing r with
  | nil => exact hr
  | cons h handlers ih =>
    obtain ⟨hh, hrest⟩ := List.forall_mem_cons.mp hhandlers
    exact ih (hr.runHandler env hH ha hexecuted hh) hrest

omit hH ha hr in
theorem not_verify_genesisBlock (app : Application) (result : StateComputeResult) :
    app.verify c.genesisBlock result = false := by
  unfold Application.verify
  split
  · rfl
  · split <;> rfl

theorem peerBlockData (hexecuted : c.SoundBlock H executed.block ∨ executed.block = c.genesisBlock) :
    c.SoundReplica H a (r.peerBlockData (c.node a) env executed) := by
  unfold Replica.peerBlockData
  split
  · exact hr
  next hverify =>
    cases hhandlers : r.acquiring.lookup executed.block.id with
    | none => exact hr
    | some handlers =>
      have hsound : c.SoundBlock H executed.block := by
        rcases hexecuted with hsound | hgen
        · exact hsound
        · rw [hgen, not_verify_genesisBlock] at hverify
          exact absurd rfl hverify
      have hr' := hr.runHandlers env hH ha hsound (hr.acquiring.lookup hhandlers)
      exact { hr' with acquiring := hr'.acquiring.erase _ }

omit hH ha in
theorem peerAcquireBlock (id : HashValue) : c.SoundReplica H a (r.peerAcquireBlock id) := by
  unfold Replica.peerAcquireBlock
  cases hid : r.storage.blockOf id with
  | none => exact hr
  | some executed => exact hr.send (m := .blockData executed) (hr.storage.cache id executed hid).2

theorem receive (sender : Author) (hm : c.SoundMessage H m) :
    c.SoundReplica H a (r.receive (c.node a) env sender m) := by
  unfold Replica.receive
  cases m with
  | proposal block sync =>
    dsimp only
    split
    · exact hr
    · exact hr.peerProposal env hH hm.1 hm.2
  | vote dest vote sync =>
    dsimp only
    split
    · exact hr
    · exact hr.peerVote env hH ha hm.1 hm.2
  | blockData executed => exact hr.peerBlockData env hH ha hm

/-! ## Queued work -/

theorem runJob (k : Nat) :
    ∃ H', c.Grows (∀ b ∈ r.jobs[k]?, r.safety.Fresh b.round) H a H' ∧ c.SoundReplica H' a (r.runJob (c.node a) env k) := by
  unfold Replica.runJob
  cases hk : r.jobs[k]? with
  | none => exact ⟨H, .refl hH, hr⟩
  | some b =>
    have hr' : c.SoundReplica H a { r with jobs := r.jobs.eraseIdx k } :=
      { hr with jobs := fun b hb => hr.jobs b (List.mem_of_mem_eraseIdx hb) }
    obtain ⟨H', hgrows, hdone⟩ := hr'.processProposal env hH ha (hr.jobs b (List.mem_of_getElem? hk))
    exact ⟨H', hgrows.imp fun hfresh => hfresh b rfl, hdone⟩

omit hH ha in
theorem requeueProposal (k : Nat) : c.SoundReplica H a (r.requeueProposal k) := by
  unfold Replica.requeueProposal
  cases hk : r.proposalCache[k]? with
  | none => exact hr
  | some b =>
    exact { hr with
      jobs := List.forall_mem_cons.mpr ⟨hr.proposalCache b (List.mem_of_getElem? hk), hr.jobs⟩ }

omit ha in
theorem proposalTimer (round : Int) : c.SoundReplica H a (r.proposalTimer (c.node a) env round) := by
  unfold Replica.proposalTimer
  split
  next hround =>
    have hr' : c.SoundReplica H a { r with proposalTimers := r.proposalTimers.erase round } :=
      { hr with timers := fun t ht => hr.timers t (List.mem_of_mem_erase ht) }
    exact hr'.generateThenBroadcastProposal env hH (hr.timers round hround)
  · exact hr

omit hH ha hr in
theorem start (hH : c.SoundHistory H) (hvoted : H a = []) (validating : Bool) :
    c.SoundReplica H a (Replica.start (c.node a) env {} validating) := by
  have hnone : ∀ b ∈ (H a).head?, ∃ v ∈ (none : Option Vote), v.voteData.VotesFor b := by simp [hvoted]
  refine processCertificates env hH ⟨rfl, hvoted.symm, ⟨by simp [SafetyData.initializeAt], hnone⟩,
    .updateCertificates env.app, ⟨.empty, by simp⟩, ?_, by simp, by simp, by simp, AList.all_empty, by simp⟩
  rw [BlockStorage.highestQuorumCert_updateCertificates]
  exact Int.zero_le_ofNat 1

end SoundReplica

end Cluster

end Chainsql.Hotstuff
