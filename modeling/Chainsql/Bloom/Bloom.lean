import Chainsql.Evm.Word
import Mathlib.Data.Set.Lattice

/-!
# Bloom filters of 2048 bits

A datum sets three bits that its hash selects. The bytes of the filter are counted from the last one, so
that `bit` is the numbering of the bits that all users of a filter agree on.
-/

namespace Chainsql.Bloom

open Evm (Bytes)

/-- `sha512Half<CommonKey::sha3>`. -/
abbrev Hash := Bytes → Fin 32 → BitVec 8

/-- `uint2048`, as the bytes of `data()`. -/
abbrev UInt2048 := Fin 256 → BitVec 8

def BloomByteLength : Nat := 256

def toBigEndian (b₀ b₁ : BitVec 8) : BitVec 16 := b₁.setWidth 16 ||| b₀.setWidth 16 <<< 8

/-- One of the pairs of `bloomValues`: the index of a byte, and the bit to set in it. -/
def bloomValue (b₀ b₁ : BitVec 8) : Fin 256 × BitVec 8 :=
  (.ofNat 256 (BloomByteLength - ((toBigEndian b₀ b₁ &&& 0x7ff#16) >>> 3).toNat - 1), 1#8 <<< (b₁ &&& 7#8).toNat)

variable (hash : Hash) (bloom : UInt2048) (data : Bytes)

def bloomValues : List (Fin 256 × BitVec 8) :=
  let hashbuf := hash data
  [bloomValue (hashbuf 0) (hashbuf 1), bloomValue (hashbuf 2) (hashbuf 3), bloomValue (hashbuf 4) (hashbuf 5)]

def add : UInt2048 :=
  (bloomValues hash data).foldl (fun bloom v => Function.update bloom v.1 (bloom v.1 ||| v.2)) bloom

def test : Bool := (bloomValues hash data).all fun v => v.2 == v.2 &&& bloom v.1

def bloomLookup : Bool := test hash bloom data

def hashByte (i : Nat) : BitVec 8 := hash data (.ofNat 32 i)

def byteAt (i : Nat) : BitVec 8 := bloom (.ofNat 256 i)

def bit (i : Nat) : Bool := (bloom (.ofNat 256 (255 - i / 8))).getLsbD (i % 8)

/-- The number of a bit that two bytes of a hash select. -/
def position (b₀ b₁ : BitVec 8) : Nat := (b₀.toNat * 256 + b₁.toNat) % 2048

def positions : List Nat :=
  [position (hash data 0) (hash data 1), position (hash data 2) (hash data 3), position (hash data 4) (hash data 5)]

theorem position_lt (b₀ b₁ : BitVec 8) : position b₀ b₁ < 2048 := Nat.mod_lt _ (by decide)

theorem toBigEndian_toNat (b₀ b₁ : BitVec 8) : (toBigEndian b₀ b₁).toNat = b₀.toNat * 256 + b₁.toNat := by
  have h₁ := b₁.isLt
  have hshift : (b₀.setWidth 16 <<< 8).toNat = b₀.toNat <<< 8 := by
    simp only [BitVec.toNat_shiftLeft, BitVec.toNat_setWidth, Nat.shiftLeft_eq]
    omega
  rw [toBigEndian, BitVec.toNat_or, hshift, Nat.or_comm, BitVec.toNat_setWidth, Nat.mod_eq_of_lt (by omega),
    ← Nat.shiftLeft_add_eq_or_of_lt h₁, Nat.shiftLeft_eq]

theorem bloomValue_eq (b₀ b₁ : BitVec 8) :
    bloomValue b₀ b₁ = (.ofNat 256 (255 - position b₀ b₁ / 8), 1#8 <<< (position b₀ b₁ % 8)) := by
  have hindex : (toBigEndian b₀ b₁ &&& 0x7ff#16).toNat = position b₀ b₁ := by
    rw [BitVec.toNat_and, toBigEndian_toNat]
    exact Nat.and_two_pow_sub_one_eq_mod _ 11
  have hbit : (b₁ &&& 7#8).toNat = position b₀ b₁ % 8 := by
    refine (Nat.and_two_pow_sub_one_eq_mod b₁.toNat 3).trans ?_
    unfold position
    omega
  have hbyte : BloomByteLength - ((toBigEndian b₀ b₁ &&& 0x7ff#16) >>> 3).toNat - 1 =
      255 - position b₀ b₁ / 8 := by
    rw [BitVec.toNat_ushiftRight, BloomByteLength]
    omega
  rw [bloomValue, hbyte, hbit]

theorem bloomValues_eq : bloomValues hash data =
    (positions hash data).map fun i => (.ofNat 256 (255 - i / 8), 1#8 <<< (i % 8)) := by
  simp only [bloomValues, positions, bloomValue_eq, List.map_cons, List.map_nil]

variable {k i j : Nat} {datas : List Bytes} {d : Bytes}

theorem getLsbD_one_shiftLeft {m : Nat} (hk : k < 8) (hm : m < 8) : (1#8 <<< k).getLsbD m = decide (k = m) := by
  have h : ∀ k m : Fin 8, (1#8 <<< k.val).getLsbD m.val = decide (k.val = m.val) := by decide
  exact h ⟨k, hk⟩ ⟨m, hm⟩

theorem bit_update (hi : i < 2048) (hj : j < 2048) :
    bit (Function.update bloom (.ofNat 256 (255 - i / 8))
      (bloom (.ofNat 256 (255 - i / 8)) ||| 1#8 <<< (i % 8))) j = (bit bloom j || decide (i = j)) := by
  unfold bit
  have hbyte : (Fin.ofNat 256 (255 - j / 8) = Fin.ofNat 256 (255 - i / 8)) ↔ j / 8 = i / 8 := by
    rw [Fin.ext_iff, Fin.val_ofNat, Fin.val_ofNat]
    omega
  by_cases heq : j / 8 = i / 8
  · rw [hbyte.mpr heq, Function.update_self, BitVec.getLsbD_or,
      getLsbD_one_shiftLeft (Nat.mod_lt _ (by decide)) (Nat.mod_lt _ (by decide))]
    congr 1
    rw [decide_eq_decide]
    omega
  · rw [Function.update_of_ne (mt hbyte.mp heq)]
    have hne : i ≠ j := by omega
    simp [hne]

theorem bit_foldl {is : List Nat} (his : ∀ i ∈ is, i < 2048) (hj : j < 2048) :
    bit ((is.map fun i => ((.ofNat 256 (255 - i / 8), 1#8 <<< (i % 8)) : Fin 256 × BitVec 8)).foldl
      (fun bloom v => Function.update bloom v.1 (bloom v.1 ||| v.2)) bloom) j =
        (bit bloom j || decide (j ∈ is)) := by
  induction is generalizing bloom with
  | nil => simp
  | cons i is ih =>
    rw [List.map_cons, List.foldl_cons, ih _ fun i hi => his i (List.mem_cons_of_mem _ hi),
      bit_update bloom (his i List.mem_cons_self) hj, Bool.or_assoc]
    congr 1
    simp only [List.mem_cons, Bool.decide_or, eq_comm]

theorem positions_lt (hi : i ∈ positions hash data) : i < 2048 := by
  simp only [positions, List.mem_cons, List.not_mem_nil, or_false] at hi
  rcases hi with rfl | rfl | rfl <;> exact position_lt _ _

theorem bit_add (hj : j < 2048) :
    bit (add hash bloom data) j = (bit bloom j || decide (j ∈ positions hash data)) := by
  rw [add, bloomValues_eq]
  exact bit_foldl bloom (fun i hi => positions_lt hash data hi) hj

theorem beq_and_one_shiftLeft (hk : k < 8) (x : BitVec 8) : (1#8 <<< k == 1#8 <<< k &&& x) = x.getLsbD k := by
  rw [Bool.eq_iff_iff, beq_iff_eq]
  constructor
  · intro h
    have hget := congrArg (BitVec.getLsbD · k) h
    simpa [BitVec.getLsbD_and, getLsbD_one_shiftLeft hk hk] using hget
  · intro h
    refine BitVec.eq_of_getLsbD_eq fun m hm => ?_
    rw [BitVec.getLsbD_and, getLsbD_one_shiftLeft hk hm]
    by_cases hkm : k = m
    · subst hkm
      simp [h]
    · simp [hkm]

theorem test_iff : test hash bloom data = true ↔ ∀ i ∈ positions hash data, bit bloom i = true := by
  rw [test, bloomValues_eq, List.all_map, List.all_eq_true]
  refine forall₂_congr fun i _ => ?_
  rw [Function.comp, beq_and_one_shiftLeft (Nat.mod_lt _ (by decide))]
  rfl

/-! ## No false negatives -/

def ofList (datas : List Bytes) : UInt2048 := datas.foldl (add hash) fun _ => 0#8

theorem bit_foldl_add (hi : i < 2048) :
    bit (datas.foldl (add hash) bloom) i = true ↔
      bit bloom i = true ∨ ∃ d ∈ datas, i ∈ positions hash d := by
  induction datas generalizing bloom with
  | nil => simp
  | cons d datas ih =>
    rw [List.foldl_cons, ih, bit_add hash bloom d hi, Bool.or_eq_true, or_assoc]
    simp

theorem bit_ofList (hi : i < 2048) : bit (ofList hash datas) i = true ↔ ∃ d ∈ datas, i ∈ positions hash d := by
  rw [ofList, bit_foldl_add hash _ hi]
  simp [bit]

theorem test_ofList_of_mem (hd : d ∈ datas) : test hash (ofList hash datas) d = true := by
  rw [test_iff]
  intro i hi
  exact (bit_ofList hash (positions_lt hash d hi)).mpr ⟨d, hd, hi⟩

end Chainsql.Bloom
