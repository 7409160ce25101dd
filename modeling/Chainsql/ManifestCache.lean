import Chainsql.Lib.Assoc
import Chainsql.ValidatorList

/-!
# Manifests

`ManifestCache`: a manifest names the ephemeral key with which the holder of a master key signs, and
the cache knows the newest manifest of each master key. A key the cache does not know as a signing key
stands for itself, so the master key of a validator goes on to count as a key of that validator.
-/

namespace Chainsql

open AList

structure Manifest where
  masterKey : PublicKey
  -- The empty key in a revocation.
  signingKey : PublicKey
  sequence : UInt32
  -- Whether `Manifest::verify` finds the signatures of both keys.
  verify : Bool
deriving DecidableEq, Repr

/-- A manifest with the greatest sequence number revokes the master key. -/
def Manifest.revoked (m : Manifest) : Bool := m.sequence == 4294967295

inductive ManifestDisposition
  | accepted
  | stale
  | invalid
deriving DecidableEq, Repr

/-- Every signing key is the one that the newest manifest of its master key names. -/
structure ManifestCache where
  map : AList (fun _ : PublicKey => Manifest)
  signingToMasterKeys : AList (fun _ : PublicKey => PublicKey)
  newest : ∀ key master, signingToMasterKeys.lookup key = some master →
    ∃ m, map.lookup master = some m ∧ m.signingKey = key

namespace ManifestCache

def empty : ManifestCache where
  map := ∅
  signingToMasterKeys := ∅
  newest := fun _ _ h => by cases h

def getMasterKey (c : ManifestCache) (key : PublicKey) : PublicKey := (c.signingToMasterKeys.lookup key).getD key

/-- The signing keys without the one that the manifest replaces. -/
def withoutReplaced (c : ManifestCache) (m : Manifest) : AList (fun _ : PublicKey => PublicKey) :=
  match c.map.lookup m.masterKey with
  | none => c.signingToMasterKeys
  | some old => c.signingToMasterKeys.erase old.signingKey

variable {c : ManifestCache} {m : Manifest} {key master : PublicKey}

theorem lookup_withoutReplaced (h : (c.withoutReplaced m).lookup key = some master) :
    c.signingToMasterKeys.lookup key = some master ∧ master ≠ m.masterKey := by
  unfold withoutReplaced at h
  cases hold : c.map.lookup m.masterKey with
  | none =>
    rw [hold] at h
    refine ⟨h, ?_⟩
    rintro rfl
    obtain ⟨old, hmap, -⟩ := c.newest key _ h
    rw [hold] at hmap
    cases hmap
  | some old =>
    rw [hold] at h
    by_cases hkey : key = old.signingKey
    · rw [hkey, lookup_erase] at h
      cases h
    · rw [lookup_erase_ne hkey] at h
      refine ⟨h, ?_⟩
      rintro rfl
      obtain ⟨newest, hmap, hsigning⟩ := c.newest key _ h
      rw [hold] at hmap
      cases hmap
      exact hkey hsigning.symm

def record (c : ManifestCache) (m : Manifest) : ManifestCache where
  map := c.map.insert m.masterKey m
  signingToMasterKeys :=
    if m.revoked then c.withoutReplaced m else (c.withoutReplaced m).insert m.signingKey m.masterKey
  newest := by
    have hkept : ∀ key master, (c.withoutReplaced m).lookup key = some master →
        ∃ m', (c.map.insert m.masterKey m).lookup master = some m' ∧ m'.signingKey = key := by
      intro key master h
      obtain ⟨hbefore, hne⟩ := lookup_withoutReplaced h
      rw [AList.lookup_insert_ne hne]
      exact c.newest key master hbefore
    intro key master h
    split at h
    · exact hkept key master h
    · by_cases hkey : key = m.signingKey
      · rw [hkey, AList.lookup_insert] at h
        cases h
        exact ⟨m, AList.lookup_insert _, hkey.symm⟩
      · rw [AList.lookup_insert_ne hkey] at h
        exact hkept key master h

theorem signingToMasterKeys_record : (c.record m).signingToMasterKeys =
    if m.revoked then c.withoutReplaced m else (c.withoutReplaced m).insert m.signingKey m.masterKey :=
  rfl

def isStale (c : ManifestCache) (m : Manifest) : Bool :=
  match c.map.lookup m.masterKey with
  | none => false
  | some old => decide (m.sequence ≤ old.sequence)

def applyManifest (c : ManifestCache) (m : Manifest) : ManifestCache × ManifestDisposition :=
  if c.isStale m then (c, .stale)
  else if m.verify = false then (c, .invalid)
  else (c.record m, .accepted)

/-- The keys that stand for a master key: itself and its signing key, if nobody else uses them. -/
def keysOf (c : ManifestCache) (master : PublicKey) : Finset PublicKey :=
  ((master :: ((c.map.lookup master).map Manifest.signingKey).toList).filter
    fun key => c.getMasterKey key = master).toFinset

theorem mem_keysOf : key ∈ c.keysOf master ↔ c.getMasterKey key = master := by
  rw [keysOf, List.mem_toFinset, List.mem_filter, decide_eq_true_eq]
  refine and_iff_right_of_imp fun h => ?_
  unfold getMasterKey at h
  cases hlookup : c.signingToMasterKeys.lookup key with
  | none =>
    rw [hlookup] at h
    exact List.mem_cons.mpr (.inl h)
  | some found =>
    rw [hlookup] at h
    obtain rfl : found = master := h
    obtain ⟨m, hmap, rfl⟩ := c.newest key found hlookup
    rw [hmap]
    exact List.mem_cons_of_mem _ List.mem_cons_self

theorem card_keysOf_le : (c.keysOf master).card ≤ 2 := by
  have hlength : (master :: ((c.map.lookup master).map Manifest.signingKey).toList).length ≤ 2 := by
    cases c.map.lookup master with
    | none => exact Nat.le_succ 1
    | some m => exact le_refl 2
  exact ((List.toFinset_card_le _).trans (List.length_filter_le _ _)).trans hlength

theorem disjoint_keysOf {other : PublicKey} (h : master ≠ other) :
    Disjoint (c.keysOf master) (c.keysOf other) := by
  rw [Finset.disjoint_left]
  intro key hkey hother
  exact h ((mem_keysOf.mp hkey).symm.trans (mem_keysOf.mp hother))

/-! ## Histories -/

def getSigningKey (c : ManifestCache) (master : PublicKey) : PublicKey :=
  match c.map.lookup master with
  | some m => if m.revoked then master else m.signingKey
  | none => master

def after : List Manifest → ManifestCache
  | [] => empty
  | m :: history => ((after history).applyManifest m).1

def leads (m : Manifest) (history : List Manifest) : Bool :=
  history.all fun old => decide (old.masterKey ≠ m.masterKey ∨ old.sequence < m.sequence)

def leading : List Manifest → List Manifest
  | [] => []
  | m :: history => if leads m history then m :: leading history else leading history

def signingKeys (history : List Manifest) : List PublicKey :=
  ((leading history).filter fun m => !m.revoked).map Manifest.signingKey

/-- Signing keys lead back to their master keys, and those of replaced manifests to none. -/
structure KeysInverse (history : List Manifest) : Prop where
  inverse : ∀ master m, (after history).map.lookup master = some m → m.revoked = false →
    (after history).getMasterKey ((after history).getSigningKey master) = master
  replaced : ∀ m ∈ leading history, m.revoked = false → (after history).map.lookup m.masterKey ≠ some m →
    (after history).signingToMasterKeys.lookup m.signingKey = none

/-- The sequence number of a master key does not decrease, and a revocation stays. -/
def NeverBack (earlier history : List Manifest) : Prop :=
  ∀ master old, (after earlier).map.lookup master = some old →
    ∃ m, (after history).map.lookup master = some m ∧ old.sequence ≤ m.sequence ∧ (old.revoked = true → m = old)

theorem getMasterKey_of_lookup (h : c.signingToMasterKeys.lookup key = some master) :
    c.getMasterKey key = master := by
  rw [getMasterKey, h, Option.getD_some]

theorem getSigningKey_of_lookup (h : c.map.lookup master = some m) (hrevoked : m.revoked = false) :
    c.getSigningKey master = m.signingKey := by
  simp [getSigningKey, h, hrevoked]

variable {history earlier : List Manifest}

theorem leads_iff : leads m history = true ↔
    ∀ old ∈ history, old.masterKey = m.masterKey → old.sequence < m.sequence := by
  simp only [leads, List.all_eq_true, decide_eq_true_eq, ← imp_iff_not_or]

theorem leads_eq_false : leads m history = false ↔
    ∃ old ∈ history, old.masterKey = m.masterKey ∧ m.sequence ≤ old.sequence := by
  simp only [leads, List.all_eq_false, decide_eq_true_eq, not_or, not_not, UInt32.not_lt]

theorem mem_of_mem_leading (h : m ∈ leading history) : m ∈ history := by
  induction history with
  | nil => exact h
  | cons old history ih =>
    rw [leading] at h
    split at h
    · rcases List.mem_cons.mp h with rfl | h
      · exact List.mem_cons_self
      · exact List.mem_cons_of_mem _ (ih h)
    · exact List.mem_cons_of_mem _ (ih h)

structure Newest (history : List Manifest) (master : PublicKey) (m : Manifest) : Prop where
  leading : m ∈ leading history
  masterKey : m.masterKey = master
  sequence_le : ∀ old ∈ history, old.masterKey = master → old.sequence ≤ m.sequence

def Stores (history : List Manifest) : Prop := ∀ master,
  (∀ m, (after history).map.lookup master = some m → Newest history master m) ∧
    ((after history).map.lookup master = none → ∀ old ∈ history, old.masterKey ≠ master)

theorem Stores.isStale (h : Stores history) (m : Manifest) : (after history).isStale m = !leads m history := by
  rw [ManifestCache.isStale, Bool.eq_iff_iff, Bool.not_eq_true', leads_eq_false]
  cases hlookup : (after history).map.lookup m.masterKey with
  | none =>
    refine iff_of_false Bool.false_ne_true ?_
    rintro ⟨old, hold, hmaster, -⟩
    exact (h _).2 hlookup old hold hmaster
  | some newest =>
    have hnewest := (h _).1 newest hlookup
    rw [decide_eq_true_eq]
    constructor
    · exact fun hle => ⟨newest, mem_of_mem_leading hnewest.leading, hnewest.masterKey, hle⟩
    · rintro ⟨old, hold, hmaster, hle⟩
      exact UInt32.le_trans hle (hnewest.sequence_le old hold hmaster)

theorem Stores.after_cons (h : Stores history) (hverify : m.verify = true) :
    after (m :: history) = if leads m history then (after history).record m else after history := by
  rw [after, applyManifest, h.isStale, hverify]
  cases leads m history <;> rfl

theorem Stores.cons (h : Stores history) (hverify : m.verify = true) : Stores (m :: history) := by
  intro master
  rw [h.after_cons hverify]
  cases hlead : leads m history with
  | false =>
    obtain ⟨old, hold, hmaster, hle⟩ := leads_eq_false.mp hlead
    have hkeys : leading (m :: history) = leading history := by rw [leading, hlead, if_neg Bool.false_ne_true]
    refine ⟨fun newest hlookup => ?_, fun hlookup m' hm' hmaster' => ?_⟩
    · have hnewest := (h master).1 newest hlookup
      refine ⟨hkeys ▸ hnewest.leading, hnewest.masterKey, fun m' hm' hmaster' => ?_⟩
      rcases List.mem_cons.mp hm' with rfl | hm'
      · exact UInt32.le_trans hle (hnewest.sequence_le old hold (hmaster.trans hmaster'))
      · exact hnewest.sequence_le m' hm' hmaster'
    · rcases List.mem_cons.mp hm' with rfl | hm'
      · exact (h master).2 hlookup old hold (hmaster.trans hmaster')
      · exact (h master).2 hlookup m' hm' hmaster'
  | true =>
    have hlt := leads_iff.mp hlead
    have hkeys : leading (m :: history) = m :: leading history := by rw [leading, hlead, if_pos rfl]
    rw [if_pos rfl, record]
    by_cases hmaster : master = m.masterKey
    · subst hmaster
      rw [lookup_insert]
      refine ⟨fun newest hlookup => ?_, fun hlookup => ?_⟩
      · obtain rfl := Option.some.inj hlookup
        refine ⟨hkeys ▸ List.mem_cons_self, rfl, fun m' hm' hmaster' => ?_⟩
        rcases List.mem_cons.mp hm' with rfl | hm'
        · exact UInt32.le_refl _
        · exact UInt32.le_of_lt (hlt m' hm' hmaster')
      · cases hlookup
    · rw [lookup_insert_ne hmaster]
      refine ⟨fun newest hlookup => ?_, fun hlookup m' hm' hmaster' => ?_⟩
      · have hnewest := (h master).1 newest hlookup
        refine ⟨hkeys ▸ List.mem_cons_of_mem _ hnewest.leading, hnewest.masterKey, fun m' hm' hmaster' => ?_⟩
        rcases List.mem_cons.mp hm' with rfl | hm'
        · exact absurd hmaster'.symm hmaster
        · exact hnewest.sequence_le m' hm' hmaster'
      · rcases List.mem_cons.mp hm' with rfl | hm'
        · exact hmaster hmaster'.symm
        · exact (h master).2 hlookup m' hm' hmaster'

def Exact (c : ManifestCache) : Prop := ∀ key master, c.signingToMasterKeys.lookup key = some master ↔
  ∃ m, c.map.lookup master = some m ∧ m.revoked = false ∧ m.signingKey = key

theorem Exact.record (h : c.Exact) (hfresh : ∀ master old, c.map.lookup master = some old → old.revoked = false →
    m.revoked = false → master ≠ m.masterKey → old.signingKey ≠ m.signingKey)
    (hold : ∀ old, c.map.lookup m.masterKey = some old → old.revoked = false) : (c.record m).Exact := by
  have hwithout : ∀ key master, (c.withoutReplaced m).lookup key = some master ↔
      c.signingToMasterKeys.lookup key = some master ∧ master ≠ m.masterKey := by
    intro key master
    refine ⟨lookup_withoutReplaced, fun ⟨hkey, hne⟩ => ?_⟩
    rw [withoutReplaced]
    split
    · exact hkey
    next old hlookup =>
      rw [lookup_erase_ne, hkey]
      rintro rfl
      have hown := (h old.signingKey m.masterKey).mpr ⟨old, hlookup, hold old hlookup, rfl⟩
      exact hne (Option.some.inj (hkey.symm.trans hown))
  have hother : ∀ key master, master ≠ m.masterKey → (c.signingToMasterKeys.lookup key = some master ↔
      ∃ m', (c.map.insert m.masterKey m).lookup master = some m' ∧ m'.revoked = false ∧ m'.signingKey = key) := by
    intro key master hne
    rw [lookup_insert_ne hne]
    exact h key master
  intro key master
  rw [signingToMasterKeys_record, ManifestCache.record]
  by_cases hmaster : master = m.masterKey
  · subst hmaster
    rw [lookup_insert]
    cases hrevoked : m.revoked with
    | true => simp [hwithout, hrevoked]
    | false =>
      by_cases hkey : key = m.signingKey
      · subst hkey
        simp [hrevoked]
      · simp [lookup_insert_ne hkey, hwithout, hrevoked, Ne.symm hkey]
  · rw [← hother key master hmaster]
    cases hrevoked : m.revoked with
    | true => simp [hwithout, hmaster]
    | false =>
      by_cases hkey : key = m.signingKey
      · subst hkey
        rw [if_neg Bool.false_ne_true, lookup_insert]
        refine iff_of_false (fun heq => hmaster (Option.some.inj heq).symm) fun hlookup => ?_
        obtain ⟨old, hmap, hrev, hsigning⟩ := (h _ _).mp hlookup
        exact hfresh master old hmap hrev hrevoked hmaster hsigning
      · simp [lookup_insert_ne hkey, hwithout, hmaster]

theorem signingKeys_sublist (h : earlier <:+ history) : (signingKeys earlier).Sublist (signingKeys history) := by
  refine ((?_ : (leading earlier).Sublist (leading history)).filter _).map _
  obtain ⟨newer, rfl⟩ := h
  induction newer with
  | nil => exact List.Sublist.refl _
  | cons m newer ih =>
    rw [List.cons_append, leading]
    split
    · exact ih.cons m
    · exact ih

theorem revoked_eq_false_of_lt {old : Manifest} (h : old.sequence < m.sequence) : old.revoked = false := by
  rw [Manifest.revoked, beq_eq_false_iff_ne]
  intro heq
  rw [heq, UInt32.lt_iff_toNat_lt] at h
  have := m.sequence.toNat_lt
  have hmax : (4294967295 : UInt32).toNat = 4294967295 := rfl
  omega

section

variable (hverify : ∀ m ∈ history, m.verify = true)
include hverify

theorem stores : Stores history := by
  induction history with
  | nil => exact fun master => ⟨fun m h => (by cases h), fun _ old hold => (by cases hold)⟩
  | cons m history ih =>
    exact (ih fun m hm => hverify m (List.mem_cons_of_mem _ hm)).cons (hverify m List.mem_cons_self)

theorem exact_after (hnodup : (signingKeys history).Nodup) : (after history).Exact := by
  induction history with
  | nil => exact fun key master => ⟨fun h => (by cases h), fun ⟨m, h, _⟩ => (by cases h)⟩
  | cons m history ih =>
    have hverify' : ∀ m ∈ history, m.verify = true := fun m hm => hverify m (List.mem_cons_of_mem _ hm)
    have hstores := stores hverify'
    rw [hstores.after_cons (hverify m List.mem_cons_self)]
    rw [signingKeys, leading] at hnodup
    cases hlead : leads m history with
    | false =>
      rw [hlead] at hnodup
      exact ih hverify' hnodup
    | true =>
      rw [hlead, if_pos rfl, List.filter_cons] at hnodup
      have hrest : (signingKeys history).Nodup := by
        split at hnodup
        · exact (List.nodup_cons.mp hnodup).2
        · exact hnodup
      refine (ih hverify' hrest).record (fun master old hmap hrev hm hne heq => ?_) fun old hmap => ?_
      · rw [hm] at hnodup
        refine (List.nodup_cons.mp hnodup).1 (List.mem_map.mpr ⟨old, ?_, heq⟩)
        exact List.mem_filter.mpr ⟨((hstores master).1 old hmap).leading, by rw [hrev]; rfl⟩
      · have hnewest := (hstores _).1 old hmap
        exact revoked_eq_false_of_lt (leads_iff.mp hlead old (mem_of_mem_leading hnewest.leading) hnewest.masterKey)

theorem neverBack (h : earlier <:+ history) : NeverBack earlier history := by
  obtain ⟨newer, rfl⟩ := h
  induction newer with
  | nil => exact fun master old hold => ⟨old, hold, UInt32.le_refl _, fun _ => rfl⟩
  | cons m newer ih =>
    intro master old hold
    have hverify' : ∀ m ∈ newer ++ earlier, m.verify = true := fun m hm => hverify m (List.mem_cons_of_mem _ hm)
    obtain ⟨last, hlast, hle, hfinal⟩ := ih hverify' master old hold
    rw [List.cons_append, (stores hverify').after_cons (hverify m List.mem_cons_self)]
    cases hlead : leads m (newer ++ earlier) with
    | false => exact ⟨last, hlast, hle, hfinal⟩
    | true =>
      by_cases hmaster : master = m.masterKey
      · subst hmaster
        have hnewest := (stores hverify' _).1 last hlast
        have hlt := leads_iff.mp hlead last (mem_of_mem_leading hnewest.leading) hnewest.masterKey
        refine ⟨m, lookup_insert _, UInt32.le_trans hle (UInt32.le_of_lt hlt), fun hrevoked => ?_⟩
        have hlast' := revoked_eq_false_of_lt hlt
        rw [hfinal hrevoked, hrevoked] at hlast'
        cases hlast'
      · exact ⟨last, (lookup_insert_ne hmaster).trans hlast, hle, hfinal⟩

theorem Exact.keysInverse (h : (after history).Exact) (hnodup : (signingKeys history).Nodup) : KeysInverse history where
  inverse master m hmap hrevoked := by
    have hkey := (h m.signingKey master).mpr ⟨m, hmap, hrevoked, rfl⟩
    rw [getSigningKey_of_lookup hmap hrevoked, getMasterKey_of_lookup hkey]
  replaced m hm hrevoked hmap := by
    rw [Option.eq_none_iff_forall_ne_some]
    intro master hkey
    obtain ⟨newest, hnewest, hrevoked', hsigning⟩ := (h _ _).mp hkey
    have hstored := (stores hverify master).1 newest hnewest
    obtain rfl : newest = m := by
      refine List.inj_on_of_nodup_map hnodup (List.mem_filter.mpr ⟨hstored.leading, ?_⟩)
        (List.mem_filter.mpr ⟨hm, ?_⟩) hsigning
      · rw [hrevoked']; rfl
      · rw [hrevoked]; rfl
    exact hmap (hstored.masterKey ▸ hnewest)

/-- A key named again by a manifest that is ahead leads to the wrong master key or has not been retired. -/
theorem KeysInverse.not_mem_signingKeys (h : KeysInverse (m :: history)) (hm : m.verify = true)
    (hlead : leads m history = true) (hrevoked : m.revoked = false) : m.signingKey ∉ signingKeys history := by
  intro hmem
  obtain ⟨old, hold, hsigning⟩ := List.mem_map.mp hmem
  obtain ⟨hold, hrev⟩ := List.mem_filter.mp hold
  rw [Bool.not_eq_true'] at hrev
  have hafter : after (m :: history) = (after history).record m := by
    rw [(stores hverify).after_cons hm, hlead, if_pos rfl]
  have hkey : (after (m :: history)).signingToMasterKeys.lookup old.signingKey = some m.masterKey := by
    rw [hafter, signingToMasterKeys_record, hrevoked, if_neg Bool.false_ne_true, hsigning, lookup_insert]
  by_cases hmap : (after (m :: history)).map.lookup old.masterKey = some old
  · have hinverse := h.inverse _ old hmap hrev
    rw [getSigningKey_of_lookup hmap hrev, getMasterKey_of_lookup hkey] at hinverse
    rw [hafter, ← hinverse, record, lookup_insert] at hmap
    obtain rfl := Option.some.inj hmap
    exact UInt32.lt_irrefl _ (leads_iff.mp hlead m (mem_of_mem_leading hold) rfl)
  · have hleading : old ∈ leading (m :: history) := by
      rw [leading, hlead]
      exact List.mem_cons_of_mem _ hold
    rw [h.replaced old hleading hrev hmap] at hkey
    cases hkey

end

/-- The two maps are inverse after every manifest of a history exactly if no two manifests that were ahead
name the same signing key. That sequence numbers go up and revocations stay holds without it. -/
theorem keysInverse_iff (history : List Manifest) (hverify : ∀ m ∈ history, m.verify = true) :
    (∀ t, t <:+ history → KeysInverse t ∧ ∀ earlier, earlier <:+ t → NeverBack earlier t) ↔
      (signingKeys history).Nodup := by
  have hsuffix : ∀ t, t <:+ history → ∀ m ∈ t, m.verify = true := fun t ht m hm => hverify m (ht.subset hm)
  constructor
  · intro h
    induction history with
    | nil => exact List.nodup_nil
    | cons m history ih =>
      have hrest := ih (fun m hm => hverify m (List.mem_cons_of_mem _ hm))
        (fun t ht => hsuffix t (ht.trans (List.suffix_cons _ _))) fun t ht => h t (ht.trans (List.suffix_cons _ _))
      rw [signingKeys, leading]
      cases hlead : leads m history with
      | false => exact hrest
      | true =>
        rw [if_pos rfl, List.filter_cons]
        cases hrevoked : m.revoked with
        | true => exact hrest
        | false =>
          refine List.nodup_cons.mpr ⟨?_, hrest⟩
          exact (h _ List.suffix_rfl).1.not_mem_signingKeys (hsuffix _ (List.suffix_cons _ _))
            (hverify m List.mem_cons_self) hlead hrevoked
  · intro hnodup t ht
    have hnodup' : (signingKeys t).Nodup := hnodup.sublist (signingKeys_sublist ht)
    exact ⟨(exact_after (hsuffix t ht) hnodup').keysInverse (hsuffix t ht) hnodup',
      fun earlier hearlier => neverBack (hsuffix t ht) hearlier⟩

/-- The first master key rotates its signing key and the second one then takes the old key of the first. -/
def reused : List Manifest := [⟨2, 11, 1, true⟩, ⟨1, 12, 2, true⟩, ⟨1, 11, 1, true⟩]

theorem keysInverse_rotation : (∀ m ∈ reused.tail, m.verify = true) ∧
    ∀ t, t <:+ reused.tail → KeysInverse t ∧ ∀ earlier, earlier <:+ t → NeverBack earlier t :=
  ⟨by decide, (keysInverse_iff reused.tail (by decide)).mpr (by decide)⟩

/-- A second master key names the signing key of the first, and the first one's next manifest makes the cache
forget the second one's key. -/
theorem shared_key_forgotten :
    let history : List Manifest := [⟨1, 12, 2, true⟩, ⟨2, 11, 1, true⟩, ⟨1, 11, 1, true⟩]
    (∀ m ∈ history, m.verify = true) ∧ (after history).map.lookup 2 = some ⟨2, 11, 1, true⟩ ∧
      (after history).getSigningKey 2 = 11 ∧ (after history).getMasterKey 11 = 11 ∧
        (after history.tail).getMasterKey ((after history.tail).getSigningKey 1) = 2 := by
  decide

end ManifestCache

end Chainsql
