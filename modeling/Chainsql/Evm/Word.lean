import Mathlib.Data.BitVec

/-!
# Words, addresses and byte strings of the virtual machine

`intx::uint256` and the machine integers the interpreter converts between.
-/

namespace Chainsql.Evm

abbrev Word := BitVec 256

abbrev AccountID := BitVec 160

abbrev Bytes := List UInt8

def u64 (n : Nat) : Nat := n % 2 ^ 64

/-- `int64_t` from `uint64_t`. -/
def toInt64 (n : Nat) : Int := if u64 n < 2 ^ 63 then u64 n else (u64 n : Int) - 2 ^ 64

/-- `uint64_t` from `int64_t`. -/
def ofInt64 (i : Int) : Nat := (i % 2 ^ 64).toNat

theorem toInt64_of_lt {n : Nat} (h : n < 2 ^ 63) : toInt64 n = n := by
  have hu : u64 n = n := Nat.mod_eq_of_lt (by omega)
  rw [toInt64, hu, if_pos h]

theorem ofInt64_of_nonneg {i : Int} (h0 : 0 ≤ i) (h : i < 2 ^ 64) : ofInt64 i = i.toNat := by
  rw [ofInt64, Int.emod_eq_of_lt h0 h]

def slice (bs : Bytes) (offset size : Nat) : Bytes := (bs.drop offset).take size

def zeros (n : Nat) : Bytes := List.replicate n 0

def overwrite (buffer : Bytes) (offset : Nat) (bs : Bytes) : Bytes :=
  buffer.take offset ++ bs ++ buffer.drop (offset + bs.length)

def ofAscii (s : String) : Bytes := s.toList.map fun c => UInt8.ofNat c.toNat

/-- The decimal digits of `n` in front of `rest`. The number is below `10 ^ fuel`. -/
def decimalDigits : Nat → Nat → Bytes → Bytes
  | 0, _, rest => rest
  | fuel + 1, n, rest =>
    let rest := UInt8.ofNat (48 + n % 10) :: rest
    if n / 10 = 0 then rest else decimalDigits fuel (n / 10) rest

/-- `std::to_string` of a 64-bit integer. -/
def toDecimal (i : Int) : Bytes :=
  let digits := decimalDigits 20 i.natAbs []
  if i < 0 then 45 :: digits else digits

def isDigit (b : UInt8) : Bool := 48 ≤ b && b ≤ 57

/-- `isspace` of the C locale. -/
def isSpace (b : UInt8) : Bool := b = 32 || (9 ≤ b && b ≤ 13)

def digitsValue (digits : Bytes) : Nat := digits.foldl (fun n b => n * 10 + (b.toNat - 48)) 0

/-- `int` of a `long`. -/
def toInt32 (i : Int) : Int := Int.bmod i (2 ^ 32)

/-- `strtol` with base ten: white space, a sign and digits, up to the first byte that is none. Values
outside of `long` become its nearest bound. -/
def strtol (text : Bytes) : Int :=
  let text := text.dropWhile isSpace
  let neg := text.head? = some 45
  let text := if neg || text.head? = some 43 then text.tail else text
  let n : Int := digitsValue (text.takeWhile isDigit)
  if neg then max (-n) (-2 ^ 63) else min n (2 ^ 63 - 1)

def atoi (text : Bytes) : Int := toInt32 (strtol text)

namespace Word

def ofBool (b : Bool) : Word := if b then 1 else 0

def ofBytes (bs : Bytes) : Word := BitVec.ofNat 256 (bs.foldl (fun n b => n * 256 + b.toNat) 0)

def toBytes (w : Word) : Bytes := (List.range 32).map fun i => UInt8.ofNat (w.toNat / 256 ^ (31 - i))

theorem foldl_bytes (n x : Nat) :
    ((List.range n).map fun i => UInt8.ofNat (x / 256 ^ (n - 1 - i))).foldl (fun a b => a * 256 + b.toNat) 0 =
      x % 256 ^ n := by
  induction n generalizing x with
  | zero => simp [Nat.mod_one]
  | succ n ih =>
    have hfront : ((List.range n).map fun i => UInt8.ofNat (x / 256 ^ (n + 1 - 1 - i))) =
        (List.range n).map fun i => UInt8.ofNat (x / 256 / 256 ^ (n - 1 - i)) := by
      refine List.map_congr_left fun i hi => ?_
      have hexp : n + 1 - 1 - i = n - 1 - i + 1 := by
        have := List.mem_range.mp hi
        omega
      rw [hexp, pow_succ', Nat.div_div_eq_div_mul]
    have hmod : x % 256 ^ (n + 1) = x % 256 + 256 * (x / 256 % 256 ^ n) := by rw [pow_succ', Nat.mod_mul]
    rw [List.range_succ, List.map_append, List.foldl_append, hfront, ih]
    simp only [List.map_cons, List.map_nil, List.foldl_cons, List.foldl_nil, UInt8.toNat_ofNat']
    rw [show n + 1 - 1 - n = 0 by omega, pow_zero]
    omega

theorem ofBytes_toBytes (w : Word) : ofBytes w.toBytes = w := by
  rw [ofBytes, toBytes, foldl_bytes 32]
  have hpow : (256 : Nat) ^ 32 = 2 ^ 256 := by decide
  rw [hpow, Nat.mod_eq_of_lt w.isLt, BitVec.ofNat_toNat, BitVec.setWidth_eq]

/-- `intx::be::trunc<evmc::address>`. -/
def toAddress (w : Word) : AccountID := w.setWidth 160

def ofAddress (a : AccountID) : Word := a.setWidth 256

/-- `size_t` of a word. -/
def toSize (w : Word) : Nat := u64 w.toNat

/-- `unsigned` of a word. -/
def toUnsigned (w : Word) : Nat := w.toNat % 2 ^ 32

/-- `int64_t` of a word: its last eight bytes. -/
def toDrops (w : Word) : Int := toInt64 w.toNat

def ofDrops (drops : Nat) : Word := BitVec.ofNat 256 drops

def div (a b : Word) : Word := if b = 0 then 0 else a / b

def mod (a b : Word) : Word := if b = 0 then 0 else a % b

def sdiv (a b : Word) : Word := if b = 0 then 0 else BitVec.sdiv a b

def smod (a b : Word) : Word := if b = 0 then 0 else BitVec.srem a b

def addmod (a b n : Word) : Word := if n = 0 then 0 else BitVec.ofNat 256 ((a.toNat + b.toNat) % n.toNat)

def mulmod (a b n : Word) : Word := if n = 0 then 0 else BitVec.ofNat 256 (a.toNat * b.toNat % n.toNat)

/-- The loop of `intx::exp`. A word has 256 bits, so it runs at most 256 times. -/
def expLoop : Nat → Word → Word → Word → Word
  | 0, result, _, _ => result
  | n + 1, result, base, exponent =>
    if exponent = 0 then result
    else expLoop n (if exponent.getLsbD 0 then result * base else result) (base * base) (exponent >>> 1)

def exp (base exponent : Word) : Word := expLoop 256 1 base exponent

/-- `intx::count_significant_words<uint8_t>`. -/
def significantBytes (w : Word) : Nat :=
  32 - ((List.range 32).takeWhile fun i => w.toNat / 256 ^ (31 - i) = 0).length

def isNeg (w : Word) : Bool := w.getLsbD 255

def slt (a b : Word) : Bool := if isNeg a ≠ isNeg b then isNeg a else a < b

def sgt (a b : Word) : Bool := if isNeg a ≠ isNeg b then isNeg b else b < a

def byte (i w : Word) : Word := if i < 32 then (w >>> (8 * (31 - i.toNat))) &&& 0xff else 0

def shl (amount w : Word) : Word := if 256 ≤ amount then 0 else w <<< amount.toNat

def shr (amount w : Word) : Word := if 256 ≤ amount then 0 else w >>> amount.toNat

def sar (amount w : Word) : Word :=
  if 256 ≤ amount then if isNeg w then BitVec.allOnes 256 else 0
  else
    let shifted := w >>> amount.toNat
    if isNeg w then shifted ||| (BitVec.allOnes 256 <<< (256 - amount.toNat)) else shifted

def signextend (i w : Word) : Word :=
  if i < 31 then
    let testBit := i.toNat * 8 + 7
    let mask : Word := (1 <<< testBit) - 1
    if w.getLsbD testBit then w ||| ~~~mask else w &&& mask
  else w

end Word

/-- A transaction engine result is an `int`, and any `int` can be made into one. -/
structure TER where
  code : Int32
deriving DecidableEq, Repr

def TER.fromInt (i : Int) : TER := ⟨.ofInt i⟩

def TERtoInt (ter : TER) : Int := ter.code.toInt

def tesSUCCESS : TER := ⟨0⟩
def tecUNFUNDED_PAYMENT : TER := ⟨104⟩
def tecDIR_FULL : TER := ⟨121⟩
def tecNO_PERMISSION : TER := ⟨139⟩
def temBAD_TRANSFER_RATE : TER := ⟨219⟩
def temUNKNOWN : TER := ⟨262⟩
def tefEXCEPTION : TER := ⟨306⟩
def tefINTERNAL : TER := ⟨307⟩
def tefGAS_INSUFFICIENT : TER := ⟨323⟩
def tefCONTRACT_EXEC_EXCEPTION : TER := ⟨324⟩
def tefCONTRACT_REVERT_INSTRUCTION : TER := ⟨325⟩
def tefCONTRACT_NOT_EXIST : TER := ⟨327⟩
def tefINVALID_CURRENY : TER := ⟨328⟩
def tefTABLE_NOTEXIST : TER := ⟨330⟩
def tefMISMATCH_CONTRACT_ADDRESS : TER := ⟨355⟩
def tefMISMATCH_TRANSACTION_ADDRESS : TER := ⟨356⟩

inductive Crash where
  /-- An exception leaves it. -/
  | exception
  /-- An exception would leave a function that is declared `noexcept`. -/
  | terminate
  /-- The behaviour of the program is not defined, as when a null pointer is read. -/
  | undefined
  /-- It runs forever. -/
  | loop
deriving DecidableEq

end Chainsql.Evm
