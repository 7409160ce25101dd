import Chainsql.LedgerInfo
import Mathlib.Tactic.Ring

/-!
# Ledger headers as bytes

`addRaw` writes a header with the bloom filter at its end, where `deserializeHeader` finds it by the bytes that are
left. `calculateLedgerHash` streams the filter in the middle.
-/

namespace Chainsql

abbrev Blob := List UInt8

/-- The last `n` bytes of a number, the highest one first. -/
def bigEndian (x : ℕ) : ℕ → Blob
  | 0 => []
  | n + 1 => UInt8.ofNat (x / 256 ^ n) :: bigEndian x n

/-- What a hasher is fed for a field. -/
def HashItem.bytes : HashItem → Blob
  | hashPrefix v => bigEndian v.toNat 4
  | u8 v => bigEndian v.toNat 1
  | u32 v => bigEndian v.toNat 4
  | u64 v => bigEndian v.toNat 8
  | i64 v => bigEndian (v % 2 ^ 64).toNat 8
  | u256 v => bigEndian v 32
  | u2048 v => bigEndian v 256

def byteHasher (H : Blob → HashValue) : Hasher := fun items => H (items.flatMap HashItem.bytes)

namespace SerialIter

/-- The next `n` bytes. The reader throws if there are fewer. -/
def get (n : ℕ) (sit : Blob) : Option (ℕ × Blob) :=
  if n ≤ sit.length then some ((sit.take n).foldl (fun x b => x * 256 + b.toNat) 0, sit.drop n) else none

end SerialIter

namespace LedgerInfo

open SerialIter

def addRaw (info : LedgerInfo) : Blob :=
  [.u32 info.seq, .u64 info.drops.toUInt64, .u256 info.parentHash, .u256 info.txHash, .u256 info.accountHash,
    .u32 info.parentCloseTime, .u32 info.closeTime, .u8 info.closeTimeResolution.toUInt8,
    .u8 (UInt8.ofInt info.closeFlags)].flatMap HashItem.bytes ++
  if info.bloomEnabled then bigEndian info.bloom 256 else []

def deserializeHeader (data : Blob) : Option LedgerInfo := do
  let (seq, sit) ← get 4 data
  let (drops, sit) ← get 8 sit
  let (parentHash, sit) ← get 32 sit
  let (txHash, sit) ← get 32 sit
  let (accountHash, sit) ← get 32 sit
  let (parentCloseTime, sit) ← get 4 sit
  let (closeTime, sit) ← get 4 sit
  let (closeTimeResolution, sit) ← get 1 sit
  let (closeFlags, sit) ← get 1 sit
  let info : LedgerInfo :=
    { seq := .ofNat seq, drops := (UInt64.ofNat drops).toInt64, parentHash, txHash, accountHash,
      parentCloseTime := .ofNat parentCloseTime, closeTime := .ofNat closeTime,
      closeTimeResolution := .ofNat closeTimeResolution, closeFlags }
  if 0 < sit.length then
    let (bloom, _) ← get 256 sit
    return { info with bloom, bloomEnabled := true }
  else return info

end LedgerInfo

section Bytes

variable {x n : ℕ}

@[simp] theorem length_bigEndian : (bigEndian x n).length = n := by
  induction n with
  | zero => rfl
  | succ n ih => rw [bigEndian, List.length_cons, ih]

theorem foldl_bigEndian (acc : ℕ) :
    (bigEndian x n).foldl (fun x b => x * 256 + b.toNat) acc = acc * 256 ^ n + x % 256 ^ n := by
  induction n generalizing acc with
  | zero => simp [bigEndian, Nat.mod_one]
  | succ n ih =>
    rw [bigEndian, List.foldl_cons, ih, UInt8.toNat_ofNat', Nat.mod_pow_succ (b := 256)]
    ring

theorem bigEndian_mod {m : ℕ} (h : n ≤ m) : bigEndian (x % 256 ^ m) n = bigEndian x n := by
  induction n with
  | zero => rfl
  | succ n ih =>
    obtain ⟨k, rfl⟩ := Nat.exists_eq_add_of_le h
    rw [bigEndian, bigEndian, ih (Nat.le_of_succ_le h), Nat.add_assoc, Nat.pow_add, Nat.mod_mul_right_div_self]
    have hbyte : x / 256 ^ n % 256 ^ (1 + k) % 2 ^ 8 = x / 256 ^ n % 2 ^ 8 :=
      Nat.mod_mod_of_dvd _ (Dvd.intro _ (Nat.pow_add 256 1 k).symm)
    rw [← UInt8.ofNat_mod_size, hbyte, UInt8.ofNat_mod_size]

@[simp] theorem SerialIter.get_bigEndian (rest : Blob) : get n (bigEndian x n ++ rest) = some (x % 256 ^ n, rest) := by
  rw [get, List.take_left' length_bigEndian, foldl_bigEndian]
  simp

@[simp] theorem append_bigEndian_inj {y : ℕ} {l l' : Blob} :
    bigEndian x n ++ l = bigEndian y n ++ l' ↔ bigEndian x n = bigEndian y n ∧ l = l' :=
  ⟨fun h => List.append_inj h (by simp), fun ⟨h, h'⟩ => h ▸ h' ▸ rfl⟩

@[simp] theorem SerialIter.get_bigEndian_nil : get n (bigEndian x n) = some (x % 256 ^ n, []) := by
  simpa using get_bigEndian (x := x) []

end Bytes

namespace LedgerInfo

theorem deserializeHeader_addRaw (H : Blob → HashValue) (info : LedgerInfo) :
    ∃ info', deserializeHeader info.addRaw = some info' ∧
      info'.calculateLedgerHash (byteHasher H) = info.calculateLedgerHash (byteHasher H) := by
  have hbyte : ∀ b : UInt8, UInt8.ofInt b.toNat = b := by
    intro b
    have hlt := b.toNat_lt
    rw [UInt8.ofInt, Int.emod_eq_of_lt (by omega) (by omega), Int.toNat_natCast, UInt8.ofNat_toNat]
  cases hbloom : info.bloomEnabled
  all_goals
    simp only [addRaw, deserializeHeader, HashItem.bytes, hbloom, List.flatMap_cons, List.flatMap_nil, List.append_assoc,
      List.append_nil, SerialIter.get_bigEndian, SerialIter.get_bigEndian_nil, Option.bind_eq_bind,
      Option.bind_some, Bool.false_eq_true, if_true, if_false, length_bigEndian, List.length_nil, Nat.lt_irrefl,
      Nat.zero_lt_succ, Option.pure_def, Option.some.injEq, exists_eq_left']
    simp [calculateLedgerHash, hashItems, byteHasher, HashItem.bytes, hbloom, bigEndian_mod, hbyte,
      show (2 : ℕ) ^ 32 = 256 ^ 4 from rfl, show (2 : ℕ) ^ 64 = 256 ^ 8 from rfl, -Nat.reducePow]

theorem addRaw_eq_of_hash_eq {H : Blob → HashValue} (hinj : Function.Injective H) {info info' : LedgerInfo}
    (h : info.calculateLedgerHash (byteHasher H) = info'.calculateLedgerHash (byteHasher H)) :
    info.addRaw = info'.addRaw := by
  have hstream := hinj h
  have hbloom : info.bloomEnabled = info'.bloomEnabled := by
    have hlength := congrArg List.length hstream
    cases hbloom : info.bloomEnabled <;> cases hbloom' : info'.bloomEnabled
    all_goals simp [hashItems, HashItem.bytes, hbloom, hbloom'] at hlength ⊢
  cases hbloom' : info'.bloomEnabled
  all_goals
    simp_all [addRaw, hashItems, HashItem.bytes]

/-- A header that is read back has the hash of the one written, and the hash fixes the bytes. -/
theorem header_survives_storage (H : Blob → HashValue) :
    (∀ info : LedgerInfo, ∃ info', deserializeHeader info.addRaw = some info' ∧
      info'.calculateLedgerHash (byteHasher H) = info.calculateLedgerHash (byteHasher H)) ∧
    (Function.Injective H → ∀ info info' : LedgerInfo,
      info.calculateLedgerHash (byteHasher H) = info'.calculateLedgerHash (byteHasher H) → info.addRaw = info'.addRaw) :=
  ⟨deserializeHeader_addRaw H, fun hinj _ _ h => addRaw_eq_of_hash_eq hinj h⟩

def demoInfo : LedgerInfo where
  seq := 3
  parentCloseTime := 1000
  txHash := 21
  accountHash := 22
  parentHash := 23
  bloom := 5
  drops := 100000
  bloomEnabled := true
  closeFlags := 1
  closeTimeResolution := 30
  closeTime := 1030

theorem header_survives_storage_accepted :
    addRaw { demoInfo with hash := 24, validated := true, accepted := true } = addRaw demoInfo :=
  (header_survives_storage fun bytes => Encodable.encode (bytes.map UInt8.toNat)).2
    (Encodable.encode_injective.comp (List.map_injective_iff.mpr fun _ _ => UInt8.toNat_inj.mp)) _ _ rfl

end LedgerInfo

end Chainsql
