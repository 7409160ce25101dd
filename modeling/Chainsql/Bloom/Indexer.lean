import Chainsql.Bloom.Bloom
import Chainsql.Evm.Ledger
import Chainsql.Lib.Run

/-!
# The index of bloom filters

The filters of 4096 ledgers in a row form a section. For each of the 2048 bits the index has a vector with
one bit for each ledger of the section. Sections are indexed one after another when the ledgers are there.
-/

namespace Chainsql.Bloom

open Evm (Bytes Word LogEntry)

def BLOOM_LENGTH : Nat := 2048

def DEFAULT_SECTION_SIZE : Nat := 4096

abbrev Blob := List (BitVec 8)

/-- A log as queries report it, with the fields that `getLogsByLedger` adds. -/
structure Log where
  blockNumber : Nat
  transactionHash : Word
  entry : LogEntry
deriving DecidableEq

/-- What queries read of a ledger. `logs` is what `getLogsByLedger` gives for it. -/
structure Ledger where
  hash : Word
  bloom : UInt2048
  logs : List Log × Bool

abbrev LedgerMaster := Nat → Option Ledger

/-! ## `BloomGenerator` -/

/-- The vectors of a section, by the number of the bit and the index of a byte. -/
abbrev Generator := Nat → Nat → BitVec 8

def orByte (blooms : Generator) (byteIndex : Nat) (w : Nat × BitVec 8) : Generator :=
  Function.update blooms w.1 (Function.update (blooms w.1) byteIndex (blooms w.1 byteIndex ||| w.2))

/-- The assignments of the loop of `addBloom`. -/
def bloomWrites (bitIndex : Nat) (bloom : UInt2048) : List (Nat × BitVec 8) :=
  (List.range (BLOOM_LENGTH / 8)).flatMap fun byt =>
    let bloomByte := byteAt bloom (BLOOM_LENGTH / 8 - 1 - byt)
    if bloomByte = 0#8 then []
    else [7, 6, 5, 4, 3, 2, 1, 0].map fun k => (8 * byt + k, (bloomByte >>> k &&& 1#8) <<< bitIndex)

def addBloom (blooms : Generator) (index : Nat) (bloom : UInt2048) : Generator :=
  (bloomWrites (7 - index % 8) bloom).foldl (fun blooms w => orByte blooms (index / 8) w) blooms

def bitSet (blooms : Generator) (i : Nat) : Blob := (List.range (DEFAULT_SECTION_SIZE / 8)).map (blooms i)

/-! ## `BloomIndexer` -/

/-- `db` is addressed by what `bloomBitsKey` hashes. -/
structure Indexer where
  storedSections : Nat
  db : Nat → Nat → Word → Option Blob

variable (bloomStart : Nat)

/-- The numbers are of 32 bits, and wrap around. -/
def getSectionRange (sec : Nat) : Nat × Nat :=
  ((bloomStart + sec * DEFAULT_SECTION_SIZE) % 2 ^ 32,
    (bloomStart + (sec + 1) * DEFAULT_SECTION_SIZE - 1) % 2 ^ 32)

variable (lm : LedgerMaster)

def getBloomBits (ix : Indexer) (bit sec : Nat) : Blob :=
  match lm (getSectionRange bloomStart sec).2 with
  | none => []
  | some ledger => (ix.db bit sec ledger.hash).getD []

/-- The filters of the ledgers from `start` on, added to the vectors of a section. -/
def generate (start : Nat) : Nat → Generator → Option Generator
  | 0, blooms => some blooms
  | n + 1, blooms => do
    let blooms ← generate start n blooms
    let ledger ← lm (start + n)
    return addBloom blooms n ledger.bloom

/-- There is no result if a ledger is missing. The source counts in 32 bits, and its loop does not end for a section
that ends at `2 ^ 32 - 1`. -/
def processSection (ix : Indexer) (sec : Nat) : Option Indexer := do
  let (start, last) := getSectionRange bloomStart sec
  let blooms ← generate lm start (last + 1 - start) fun _ _ => 0#8
  let ledger ← lm last
  return { ix with
    db := fun bit s hash =>
      if bit < BLOOM_LENGTH ∧ s = sec ∧ hash = ledger.hash then some (bitSet blooms bit) else ix.db bit s hash }

/-- The loop of `processSections`, with the number of sections that are known beyond the stored ones. -/
def processSections : Nat → Indexer → Indexer
  | 0, ix => ix
  | n + 1, ix =>
    match processSection bloomStart lm ix ix.storedSections with
    | none => ix
    | some ix => processSections n { ix with storedSections := ix.storedSections + 1 }

/-- A ledger is published. It has a filter. The ledgers that are at hand belong to the chain. -/
structure Published (chain : LedgerMaster) where
  seq : Nat
  bloomStart_le : bloomStart ≤ seq
  seq_lt : seq < 2 ^ 32
  ledgers : LedgerMaster
  ledgers_mem : ∀ {seq ledger}, ledgers seq = some ledger → chain seq = some ledger

variable {bloomStart} {chain : LedgerMaster}

/-- The job that `onPubLedger` adds runs to its end before the next one. -/
def onPubLedger (ix : Indexer) (accepted : Published bloomStart chain) : Indexer :=
  let knownSections := (accepted.seq - bloomStart + 1) / DEFAULT_SECTION_SIZE
  processSections bloomStart accepted.ledgers (knownSections - ix.storedSections) ix

def Indexer.start : Indexer := ⟨0, fun _ _ _ => none⟩

/-! ## What the vectors say -/

variable {m b x n sec : Nat} {blooms : Generator} {ix : Indexer}

theorem getLsbD_write (k t : Nat) (x : BitVec 8) (hm : m < 8) :
    ((x >>> k &&& 1#8) <<< t).getLsbD m = (decide (m = t) && x.getLsbD k) := by
  by_cases hmt : m = t
  · subst hmt
    simp [hm]
  · simp [hmt]
    omega

theorem exists_mem_bloomWrites {t : Nat} (hm : m < 8) (bloom : UInt2048) :
    (∃ v, (b, v) ∈ bloomWrites t bloom ∧ v.getLsbD m = true) ↔ b < BLOOM_LENGTH ∧ m = t ∧ bit bloom b = true := by
  have hbit : ∀ byt k, k < 8 → bit bloom (8 * byt + k) = (byteAt bloom (255 - byt)).getLsbD k := by
    intro byt k hk
    rw [byteAt, bit, Nat.mul_add_div (by decide), Nat.div_eq_of_lt hk, Nat.add_zero, Nat.mul_add_mod, Nat.mod_eq_of_lt hk]
  constructor
  · rintro ⟨v, hv, hget⟩
    obtain ⟨byt, hbyt, hv⟩ := List.mem_flatMap.mp hv
    rw [List.mem_range] at hbyt
    simp only at hv
    split at hv
    · cases hv
    · obtain ⟨k, hk, heq⟩ := List.mem_map.mp hv
      have hk : k < 8 := by
        simp only [List.mem_cons, List.not_mem_nil, or_false] at hk
        omega
      cases heq
      rw [getLsbD_write k t _ hm, Bool.and_eq_true, decide_eq_true_iff] at hget
      refine ⟨?_, hget.1, ?_⟩
      · omega
      · rw [hbit byt k hk]
        exact hget.2
  · rintro ⟨hb, rfl, hget⟩
    have hb' : b = 8 * (b / 8) + b % 8 := (Nat.div_add_mod b 8).symm
    have hk : b % 8 < 8 := Nat.mod_lt _ (by decide)
    rw [hb', hbit _ _ hk] at hget
    refine ⟨(byteAt bloom (255 - b / 8) >>> (b % 8) &&& 1#8) <<< m, ?_, ?_⟩
    · refine List.mem_flatMap.mpr ⟨b / 8, ?_, ?_⟩
      · rw [List.mem_range]
        unfold BLOOM_LENGTH at hb ⊢
        omega
      · have hne : ¬byteAt bloom (BLOOM_LENGTH / 8 - 1 - b / 8) = 0#8 := by
          intro hzero
          rw [show BLOOM_LENGTH / 8 - 1 - b / 8 = 255 - b / 8 from rfl] at hzero
          rw [hzero, BitVec.getLsbD_zero] at hget
          cases hget
        simp only [if_neg hne]
        refine List.mem_map.mpr ⟨b % 8, ?_, ?_⟩
        · simp only [List.mem_cons, List.not_mem_nil, or_false]
          omega
        · rw [← hb']
          rfl
    · rw [getLsbD_write _ _ _ hm, hget]
      simp

theorem getLsbD_foldl_orByte {byteIndex y : Nat} {ws : List (Nat × BitVec 8)} :
    (ws.foldl (fun blooms w => orByte blooms byteIndex w) blooms b y).getLsbD m = true ↔
      (blooms b y).getLsbD m = true ∨ y = byteIndex ∧ ∃ v, (b, v) ∈ ws ∧ v.getLsbD m = true := by
  induction ws generalizing blooms with
  | nil => simp
  | cons w ws ih =>
    obtain ⟨b', v'⟩ := w
    rw [List.foldl_cons, ih]
    unfold orByte
    by_cases hb : b = b'
    · subst hb
      rw [Function.update_self]
      by_cases hy : y = byteIndex
      · subst hy
        rw [Function.update_self, BitVec.getLsbD_or, Bool.or_eq_true]
        simp only [List.mem_cons, Prod.mk.injEq, true_and, or_assoc, or_and_right, exists_or, exists_eq_left]
      · simp [hy]
    · simp [hb]

/-- The bit of the ledger with the given index in a section, in the vector of bit `b`. -/
def Generator.bitAt (blooms : Generator) (b x : Nat) : Prop := (blooms b (x / 8)).getLsbD (7 - x % 8) = true

theorem bitAt_addBloom {index : Nat} (bloom : UInt2048) :
    (addBloom blooms index bloom).bitAt b x ↔
      blooms.bitAt b x ∨ x = index ∧ b < BLOOM_LENGTH ∧ bit bloom b = true := by
  rw [Generator.bitAt, addBloom, getLsbD_foldl_orByte, exists_mem_bloomWrites (by omega)]
  refine or_congr Iff.rfl ?_
  constructor
  · rintro ⟨hbyte, hb, hbit, hset⟩
    exact ⟨by omega, hb, hset⟩
  · rintro ⟨rfl, hb, hset⟩
    exact ⟨rfl, hb, rfl, hset⟩

variable {lm}

def HasBit (lm : LedgerMaster) (seq b : Nat) : Prop := ∃ ledger, lm seq = some ledger ∧ bit ledger.bloom b = true

theorem bitAt_generate {start : Nat} (h : generate lm start n (fun _ _ => 0#8) = some blooms) :
    (∀ x < n, (lm (start + x)).isSome = true) ∧
      ∀ b < BLOOM_LENGTH, ∀ x, blooms.bitAt b x ↔ x < n ∧ HasBit lm (start + x) b := by
  induction n generalizing blooms with
  | zero =>
    cases h
    exact ⟨fun x hx => absurd hx (Nat.not_lt_zero x), fun b _ x => by simp [Generator.bitAt]⟩
  | succ n ih =>
    obtain ⟨before, hbefore, h⟩ := Option.bind_eq_some_iff.mp h
    obtain ⟨ledger, hledger, h⟩ := Option.bind_eq_some_iff.mp h
    cases h
    obtain ⟨hthere, hbits⟩ := ih hbefore
    refine ⟨fun x hx => ?_, fun b hb x => ?_⟩
    · rcases Nat.lt_succ_iff_lt_or_eq.mp hx with hlt | rfl
      · exact hthere x hlt
      · rw [hledger]
        rfl
    · rw [bitAt_addBloom, hbits b hb x]
      constructor
      · rintro (⟨hx, hhas⟩ | ⟨rfl, -, hset⟩)
        · exact ⟨Nat.lt_succ_of_lt hx, hhas⟩
        · exact ⟨Nat.lt_succ_self x, ledger, hledger, hset⟩
      · rintro ⟨hx, hhas⟩
        rcases Nat.lt_succ_iff_lt_or_eq.mp hx with hlt | rfl
        · exact .inl ⟨hlt, hhas⟩
        · obtain ⟨ledger', hledger', hset⟩ := hhas
          rw [hledger] at hledger'
          cases hledger'
          exact .inr ⟨rfl, hb, hset⟩

def Blob.bitAt (blob : Blob) (x : Nat) : Prop := (blob.getD (x / 8) 0#8).getLsbD (7 - x % 8) = true

theorem bitAt_bitSet (blooms : Generator) (b : Nat) (hx : x < DEFAULT_SECTION_SIZE) :
    Blob.bitAt (bitSet blooms b) x ↔ blooms.bitAt b x := by
  have hlt : x / 8 < DEFAULT_SECTION_SIZE / 8 := by
    unfold DEFAULT_SECTION_SIZE at hx ⊢
    omega
  rw [Blob.bitAt, bitSet, List.getD_eq_getElem?_getD, List.getElem?_map, List.getElem?_range hlt]
  rfl

variable (bloomStart chain) in
/-- The vectors of a section are in the index, under the hash of its last ledger. -/
structure SectionStored (ix : Indexer) (sec : Nat) : Prop where
  there : ∀ x < DEFAULT_SECTION_SIZE, (chain (bloomStart + sec * DEFAULT_SECTION_SIZE + x)).isSome = true
  bits : ∀ b < BLOOM_LENGTH,
    (getBloomBits bloomStart chain ix b sec).length = DEFAULT_SECTION_SIZE / 8 ∧
      ∀ x < DEFAULT_SECTION_SIZE, Blob.bitAt (getBloomBits bloomStart chain ix b sec) x ↔
        HasBit chain (bloomStart + sec * DEFAULT_SECTION_SIZE + x) b

variable (bloomStart chain) in
/-- Exactly the first sections are stored. -/
structure Indexed (ix : Indexer) : Prop where
  fits : bloomStart + ix.storedSections * DEFAULT_SECTION_SIZE ≤ 2 ^ 32
  stored : ∀ sec < ix.storedSections, SectionStored bloomStart chain ix sec
  fresh : ∀ sec, ix.storedSections ≤ sec → ∀ b hash, ix.db b sec hash = none

theorem getSectionRange_of_fits (h : bloomStart + (sec + 1) * DEFAULT_SECTION_SIZE ≤ 2 ^ 32) :
    getSectionRange bloomStart sec = (bloomStart + sec * DEFAULT_SECTION_SIZE,
      bloomStart + sec * DEFAULT_SECTION_SIZE + (DEFAULT_SECTION_SIZE - 1)) := by
  unfold DEFAULT_SECTION_SIZE at h
  unfold getSectionRange DEFAULT_SECTION_SIZE
  rw [Nat.mod_eq_of_lt (by omega)]
  congr 1
  omega

theorem Indexed.getBloomBits_fresh (hix : Indexed bloomStart chain ix) (hsec : ix.storedSections ≤ sec) (b : Nat) :
    getBloomBits bloomStart chain ix b sec = [] := by
  unfold getBloomBits
  split
  · rfl
  · rw [hix.fresh sec hsec]
    rfl

theorem HasBit.congr {seq : Nat} (hthere : (lm seq).isSome = true)
    (hmem : ∀ {seq ledger}, lm seq = some ledger → chain seq = some ledger) :
    HasBit lm seq b ↔ HasBit chain seq b := by
  obtain ⟨ledger, hledger⟩ := Option.isSome_iff_exists.mp hthere
  simp only [HasBit, hledger, hmem hledger]

theorem Indexed.processSection {ix' : Indexer} (hix : Indexed bloomStart chain ix)
    (hmem : ∀ {seq ledger}, lm seq = some ledger → chain seq = some ledger)
    (hfits : bloomStart + (ix.storedSections + 1) * DEFAULT_SECTION_SIZE ≤ 2 ^ 32)
    (h : processSection bloomStart lm ix ix.storedSections = some ix') :
    Indexed bloomStart chain { ix' with storedSections := ix'.storedSections + 1 } := by
  have hsize : bloomStart + ix.storedSections * DEFAULT_SECTION_SIZE + (DEFAULT_SECTION_SIZE - 1) + 1 -
      (bloomStart + ix.storedSections * DEFAULT_SECTION_SIZE) = DEFAULT_SECTION_SIZE := by
    unfold DEFAULT_SECTION_SIZE
    omega
  rw [Bloom.processSection, getSectionRange_of_fits hfits] at h
  obtain ⟨blooms, hgen, h⟩ := Option.bind_eq_some_iff.mp h
  obtain ⟨ledger, hledger, h⟩ := Option.bind_eq_some_iff.mp h
  cases h
  rw [hsize] at hgen
  obtain ⟨hthere, hbits⟩ := bitAt_generate hgen
  refine ⟨hfits, fun sec hsec => ?_, fun sec hsec b hash => ?_⟩
  · rcases Nat.lt_succ_iff_lt_or_eq.mp hsec with hlt | rfl
    · obtain ⟨hthere, hbits⟩ := hix.stored sec hlt
      refine ⟨hthere, fun b hb => ?_⟩
      have hsame : ∀ hash, ¬(b < BLOOM_LENGTH ∧ sec = ix.storedSections ∧ hash = ledger.hash) :=
        fun hash hin => absurd hin.2.1 hlt.ne
      simpa only [getBloomBits, if_neg (hsame _)] using hbits b hb
    · refine ⟨fun x hx => ?_, fun b hb => ?_⟩
      · obtain ⟨ledger', hledger'⟩ := Option.isSome_iff_exists.mp (hthere x hx)
        rw [hmem hledger']
        rfl
      · have hget : getBloomBits bloomStart chain { ix with
            storedSections := ix.storedSections + 1,
            db := fun bit s hash =>
              if bit < BLOOM_LENGTH ∧ s = ix.storedSections ∧ hash = ledger.hash then some (bitSet blooms bit)
              else ix.db bit s hash } b ix.storedSections = bitSet blooms b := by
          unfold getBloomBits
          rw [getSectionRange_of_fits hfits]
          simp only [hmem hledger, hb, and_self, if_true, Option.getD_some]
        rw [hget]
        refine ⟨by simp [bitSet], fun x hx => ?_⟩
        rw [bitAt_bitSet blooms b hx, hbits b hb x, HasBit.congr (hthere x hx) hmem]
        exact and_iff_right hx
  · have hne : ¬(b < BLOOM_LENGTH ∧ sec = ix.storedSections ∧ hash = ledger.hash) :=
      fun hin => absurd hin.2.1 (Nat.lt_of_succ_le hsec).ne'
    simp only [if_neg hne]
    exact hix.fresh sec (Nat.le_of_succ_le hsec) b hash

theorem Indexed.processSections (hix : Indexed bloomStart chain ix)
    (hmem : ∀ {seq ledger}, lm seq = some ledger → chain seq = some ledger)
    (hfits : n ≠ 0 → bloomStart + (ix.storedSections + n) * DEFAULT_SECTION_SIZE ≤ 2 ^ 32) :
    Indexed bloomStart chain (processSections bloomStart lm n ix) := by
  induction n generalizing ix with
  | zero => exact hix
  | succ n ih =>
    have hall := hfits (Nat.succ_ne_zero n)
    have hnext : bloomStart + (ix.storedSections + 1) * DEFAULT_SECTION_SIZE ≤ 2 ^ 32 :=
      (Nat.add_le_add_left (Nat.mul_le_mul_right _ (by omega)) _).trans hall
    unfold Bloom.processSections
    split
    · exact hix
    next ix' hix' =>
      refine ih (hix.processSection hmem hnext hix') fun _ => ?_
      have hsections : ix'.storedSections = ix.storedSections := by
        obtain ⟨blooms, -, h⟩ := Option.bind_eq_some_iff.mp hix'
        obtain ⟨ledger, -, h⟩ := Option.bind_eq_some_iff.mp h
        cases h
        rfl
      rw [hsections, Nat.add_right_comm]
      exact hall

theorem Indexed.onPubLedger (hix : Indexed bloomStart chain ix) (accepted : Published bloomStart chain) :
    Indexed bloomStart chain (onPubLedger ix accepted) := by
  refine hix.processSections accepted.ledgers_mem fun hn => ?_
  have hseq := accepted.seq_lt
  unfold DEFAULT_SECTION_SIZE at hn ⊢
  omega

/-- In every state of the indexer that is reached, the index agrees with the filters of the chain. -/
theorem indexed_of_run (hstart : bloomStart < 2 ^ 32) (published : List (Published bloomStart chain)) :
    Indexed bloomStart chain (Run.final Bloom.onPubLedger Indexer.start published) := by
  have hinit : Indexed bloomStart chain Indexer.start := by
    refine ⟨?_, fun sec hsec => absurd hsec (Nat.not_lt_zero sec), fun _ _ _ _ => rfl⟩
    exact hstart.le
  induction published using List.reverseRecOn with
  | nil => exact hinit
  | append_singleton published accepted ih =>
    rw [Run.final_append]
    exact ih.onPubLedger accepted

theorem exists_generate (hthere : ∀ seq, (lm seq).isSome = true) (start n : Nat) (blooms : Generator) :
    ∃ blooms', generate lm start n blooms = some blooms' := by
  induction n with
  | zero => exact ⟨blooms, rfl⟩
  | succ n ih =>
    obtain ⟨before, hbefore⟩ := ih
    obtain ⟨ledger, hledger⟩ := Option.isSome_iff_exists.mp (hthere (start + n))
    exact ⟨_, Option.bind_eq_some_iff.mpr ⟨before, hbefore, Option.bind_eq_some_iff.mpr ⟨ledger, hledger, rfl⟩⟩⟩

theorem storedSections_processSections (hthere : ∀ seq, (lm seq).isSome = true) :
    (processSections bloomStart lm n ix).storedSections = ix.storedSections + n := by
  induction n generalizing ix with
  | zero => rfl
  | succ n ih =>
    obtain ⟨blooms, hblooms⟩ := exists_generate hthere (getSectionRange bloomStart ix.storedSections).1
      ((getSectionRange bloomStart ix.storedSections).2 + 1 - (getSectionRange bloomStart ix.storedSections).1)
      fun _ _ => 0#8
    obtain ⟨ledger, hledger⟩ := Option.isSome_iff_exists.mp (hthere (getSectionRange bloomStart ix.storedSections).2)
    obtain ⟨ix', hix', hsame⟩ : ∃ ix', processSection bloomStart lm ix ix.storedSections = some ix' ∧
        ix'.storedSections = ix.storedSections :=
      ⟨_, Option.bind_eq_some_iff.mpr ⟨blooms, hblooms, Option.bind_eq_some_iff.mpr ⟨ledger, hledger, rfl⟩⟩, rfl⟩
    rw [processSections, hix']
    refine ih.trans ?_
    rw [hsame]
    exact Nat.succ_add_eq_add_succ _ _

end Chainsql.Bloom
