import Mathlib.Algebra.BigOperators.Group.Finset.Piecewise
import Mathlib.Algebra.Order.BigOperators.Group.Finset
import Chainsql.Lib.Quorum
import Chainsql.ManifestCache
import Chainsql.Hotstuff.QuorumCert

/-!
# Signature maps and validators

`verifyLedgerInfo` asks for each signer whether its master key is trusted, and then counts the signing
keys, not the master keys. A validator with a manifest has two keys that pass, so it can be counted
twice. How many validators two accepted signature maps share depends on how many of them have two
keys, and `quorums_share_iff` says when it is more than the number of faults that is tolerated.
-/

namespace Chainsql.Hotstuff

open ValidatorVerifier ManifestCache

structure DigestSignatures where
  signDigest : Author → HashValue → Signature
  verifyDigest : Author → HashValue → Signature → Bool
  verify_sign : ∀ author digest, verifyDigest author digest (signDigest author digest) = true

/-- A validator that trusts the given master keys, all of whose publishers are available. -/
def ValidatorVerifier.ofManifests (scheme : DigestSignatures) (cache : ManifestCache)
    (trusted : Finset PublicKey) (self : Author) : ValidatorVerifier where
  self := self
  getMasterKey := cache.getMasterKey
  trustedMasterKeys := trusted
  quorum := calculateQuorum true trusted.card
  signDigest := scheme.signDigest self
  verifyDigest := scheme.verifyDigest

def ValidatorVerifier.masterKeys (v : ValidatorVerifier) (signatures : Signatures) : Finset Author :=
  signatures.keys.toFinset.image v.getMasterKey

/-- The number of faulty validators that a quorum allows for. -/
def faults (unlSize : Nat) : Nat := (unlSize - 1) / 3

theorem two_mul_faults_le (n : Nat) : 2 * faults n ≤ calculateQuorum true n := by
  unfold faults calculateQuorum
  rw [if_neg (by decide)]
  split <;> omega

def usable (cache : ManifestCache) (trusted : Finset PublicKey) : Finset PublicKey :=
  trusted.filter fun master => 1 ≤ (cache.keysOf master).card

/-- The trusted master keys that two keys stand for. -/
def countedTwice (cache : ManifestCache) (trusted : Finset PublicKey) : Finset PublicKey :=
  trusted.filter fun master => (cache.keysOf master).card = 2

theorem countedTwice_subset (cache : ManifestCache) (trusted : Finset PublicKey) :
    countedTwice cache trusted ⊆ usable cache trusted := by
  intro master h
  rw [countedTwice, Finset.mem_filter] at h
  exact Finset.mem_filter.mpr ⟨h.1, by omega⟩

section

variable {scheme : DigestSignatures} {cache : ManifestCache} {trusted : Finset PublicKey} {self : Author}

variable {masters : Finset PublicKey} {digest : HashValue} {info : BlockInfo} {signatures : Signatures}

theorem sum_card_keysOf (h : masters ⊆ usable cache trusted) :
    ∑ master ∈ masters, (cache.keysOf master).card = Quorum.weight (countedTwice cache trusted) masters := by
  rw [Quorum.weight, ← Finset.filter_mem_eq_inter, Finset.card_filter, Finset.card_eq_sum_ones,
    ← Finset.sum_add_distrib]
  refine Finset.sum_congr rfl fun master hmaster => ?_
  have husable := Finset.mem_filter.mp (h hmaster)
  have hle : (cache.keysOf master).card ≤ 2 := card_keysOf_le
  have hmem : master ∈ countedTwice cache trusted ↔ (cache.keysOf master).card = 2 := by
    rw [countedTwice, Finset.mem_filter, and_iff_right husable.1]
  split
  next htwice => rw [hmem.mp htwice]
  next honce =>
    rw [hmem] at honce
    omega

theorem verifyLedgerInfo_iff {v : ValidatorVerifier} :
    v.verifyLedgerInfo info digest signatures = true
      ↔ (∀ e ∈ signatures.entries, v.getMasterKey e.1 ∈ v.trustedMasterKeys ∧ v.verifyDigest e.1 digest e.2 = true)
        ∧ v.quorum ≤ signatures.size := by
  simp [verifyLedgerInfo, trusted]

theorem masterKeys_of_verify
    (h : (ValidatorVerifier.ofManifests scheme cache trusted self).verifyLedgerInfo info digest signatures = true) :
    let masters := (ofManifests scheme cache trusted self).masterKeys signatures
    masters ⊆ usable cache trusted
      ∧ calculateQuorum true trusted.card ≤ Quorum.weight (countedTwice cache trusted) masters := by
  intro masters
  obtain ⟨hsigners, hsize⟩ := verifyLedgerInfo_iff.mp h
  have hsub : masters ⊆ usable cache trusted := by
    intro master hmaster
    obtain ⟨key, hkey, rfl⟩ := Finset.mem_image.mp hmaster
    obtain ⟨e, he, rfl⟩ := List.mem_map.mp (List.mem_toFinset.mp hkey)
    exact Finset.mem_filter.mpr ⟨(hsigners e he).1, Finset.card_pos.mpr ⟨e.1, mem_keysOf.mpr rfl⟩⟩
  refine ⟨hsub, ?_⟩
  have hkeys : signatures.keys.toFinset ⊆ masters.biUnion cache.keysOf := by
    intro key hkey
    exact Finset.mem_biUnion.mpr ⟨cache.getMasterKey key, Finset.mem_image_of_mem _ hkey,
      mem_keysOf.mpr rfl⟩
  calc calculateQuorum true trusted.card
      ≤ signatures.size := hsize
    _ = signatures.keys.toFinset.card := by
        rw [AList.size_eq_keys_length, List.toFinset_card_of_nodup signatures.keys_nodup]
    _ ≤ (masters.biUnion cache.keysOf).card := Finset.card_le_card hkeys
    _ ≤ ∑ master ∈ masters, (cache.keysOf master).card := Finset.card_biUnion_le
    _ = Quorum.weight (countedTwice cache trusted) masters := sum_card_keysOf hsub

/-- The map with the signatures of all keys of some master keys. -/
noncomputable def signedByAll (scheme : DigestSignatures) (cache : ManifestCache) (masters : Finset PublicKey)
    (digest : HashValue) : Signatures where
  entries := (masters.biUnion cache.keysOf).toList.map fun key => ⟨key, scheme.signDigest key digest⟩
  nodupKeys := by
    have hkeys : ((masters.biUnion cache.keysOf).toList.map fun key =>
        (⟨key, scheme.signDigest key digest⟩ : (_ : Author) × Signature)).keys
          = (masters.biUnion cache.keysOf).toList := by
      rw [List.keys, List.map_map]
      exact List.map_id _
    rw [List.NodupKeys, hkeys]
    exact Finset.nodup_toList _

theorem signedByAll_spec (scheme : DigestSignatures) (self : Author) (hsub : masters ⊆ usable cache trusted)
    (hquorum : calculateQuorum true trusted.card ≤ Quorum.weight (countedTwice cache trusted) masters)
    (digest : HashValue) : let v := ofManifests scheme cache trusted self
    v.verifyLedgerInfo {} digest (signedByAll scheme cache masters digest) = true
      ∧ v.masterKeys (signedByAll scheme cache masters digest) = masters := by
  intro v
  have hentry : ∀ {e}, e ∈ (signedByAll scheme cache masters digest).entries ↔
      ∃ key, cache.getMasterKey key ∈ masters ∧ ⟨key, scheme.signDigest key digest⟩ = e := by
    intro e
    simp only [signedByAll, List.mem_map, Finset.mem_toList, Finset.mem_biUnion, mem_keysOf,
      exists_eq_right']
  constructor
  · refine verifyLedgerInfo_iff.mpr ⟨?_, ?_⟩
    · intro e he
      obtain ⟨key, hkey, rfl⟩ := hentry.mp he
      exact ⟨(Finset.mem_filter.mp (hsub hkey)).1, scheme.verify_sign key digest⟩
    · have hsize : (signedByAll scheme cache masters digest).size = (masters.biUnion cache.keysOf).card := by
        rw [AList.size, signedByAll, List.length_map, Finset.length_toList]
      rw [hsize, Finset.card_biUnion fun _ _ _ _ hne => disjoint_keysOf hne, sum_card_keysOf hsub]
      exact hquorum
  · ext master
    rw [masterKeys, Finset.mem_image]
    constructor
    · rintro ⟨key, hkey, rfl⟩
      obtain ⟨e, he, rfl⟩ := List.mem_map.mp (List.mem_toFinset.mp hkey)
      obtain ⟨key, hmaster, rfl⟩ := hentry.mp he
      exact hmaster
    · intro hmaster
      obtain ⟨key, hkey⟩ := Finset.card_pos.mp (Finset.mem_filter.mp (hsub hmaster)).2
      rw [mem_keysOf] at hkey
      have he := hentry.mpr ⟨key, hkey ▸ hmaster, rfl⟩
      exact ⟨key, List.mem_toFinset.mpr (List.mem_map.mpr ⟨_, he, rfl⟩), hkey⟩

end

/-- Any two accepted signature maps have more than `faults` master keys in common, if and only if few
enough of the trusted master keys are counted twice. -/
theorem quorums_share_iff (scheme : DigestSignatures) (cache : ManifestCache) (trusted : Finset PublicKey)
    (self : Author) :
    let v := ofManifests scheme cache trusted self
    let f := faults trusted.card
    let u := (usable cache trusted).card
    let d := (countedTwice cache trusted).card
    (∀ info info' digest digest' signatures signatures', v.verifyLedgerInfo info digest signatures = true →
        v.verifyLedgerInfo info' digest' signatures' = true →
        f < (v.masterKeys signatures ∩ v.masterKeys signatures').card)
      ↔ u + d + f + min f d < 2 * v.quorum ∨ (u = d ∧ d + f = v.quorum ∧ Odd v.quorum) := by
  intro v f u d
  refine Iff.trans ?_ (Quorum.overlap_iff (countedTwice_subset cache trusted) (two_mul_faults_le trusted.card))
  constructor
  · intro hshare s hs t ht hqs hqt
    obtain ⟨haccept, hmasters⟩ := signedByAll_spec scheme self hs hqs zeroHash
    obtain ⟨haccept', hmasters'⟩ := signedByAll_spec scheme self ht hqt zeroHash
    have hcommon := hshare _ _ _ _ _ _ haccept haccept'
    rwa [hmasters, hmasters'] at hcommon
  · intro hoverlap info info' digest digest' signatures signatures' haccept haccept'
    obtain ⟨hs, hqs⟩ := masterKeys_of_verify haccept
    obtain ⟨ht, hqt⟩ := masterKeys_of_verify haccept'
    exact hoverlap _ hs _ ht hqs hqt

def pairSignatures : DigestSignatures where
  signDigest := Nat.pair
  verifyDigest := fun author digest signature => signature == Nat.pair author digest
  verify_sign := fun _ _ => beq_self_eq_true _

def pairMap (keys : List Author) (digest : HashValue) : Signatures :=
  keys.foldr (fun key signatures => signatures.insert key (Nat.pair key digest)) ∅

/-- Of the validators 1 to 4 the first has a manifest for key 11. Two maps with three signatures, two of
them by validator 1, have only that validator in common, who may be the one faulty validator. -/
theorem one_validator_in_common :
    let cache := (empty.applyManifest ⟨1, 11, 1, true⟩).1
    let v := ofManifests pairSignatures cache {1, 2, 3, 4} 4
    v.quorum = 3 ∧ faults 4 = 1
    ∧ v.verifyLedgerInfo {} 70 (pairMap [1, 11, 2] 70) = true
    ∧ v.verifyLedgerInfo {} 71 (pairMap [1, 11, 3] 71) = true
    ∧ v.masterKeys (pairMap [1, 11, 2] 70) ∩ v.masterKeys (pairMap [1, 11, 3] 71) = {1} := by
  decide +kernel

end Chainsql.Hotstuff
