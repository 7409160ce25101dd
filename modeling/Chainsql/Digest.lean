import Mathlib.Logic.Equiv.List

/-!
# Digests

`sha512Half` and the streaming hasher of `beast::hash_append` consume a sequence of typed fields and
return a 256 bit value. A hasher is a parameter of the development. `Hasher.Ideal` says what the
results assume about it: collision freedom, and that no field sequence hashes to `ZeroHash`, which
the code uses as a sentinel for "no block".
-/

namespace Chainsql

/-- `uint256`. An unbounded carrier, so that a collision free hasher exists. -/
abbrev HashValue := Nat

abbrev zeroHash : HashValue := 0

inductive HashItem where
  | hashPrefix (v : UInt32)
  | u8 (v : UInt8)
  | u32 (v : UInt32)
  | u64 (v : UInt64)
  | i64 (v : Int)
  | u256 (v : HashValue)
  | u2048 (v : Nat)
deriving DecidableEq, Repr

abbrev Hasher := List HashItem → HashValue

/-- Collision freedom, and the sentinel is never produced. -/
structure Hasher.Ideal (h : Hasher) : Prop where
  inj : Function.Injective h
  ne_zero : ∀ items, h items ≠ zeroHash

def HashItem.code : HashItem → Nat × Nat
  | .hashPrefix v => (0, v.toNat)
  | .u8 v => (1, v.toNat)
  | .u32 v => (2, v.toNat)
  | .u64 v => (3, v.toNat)
  | .i64 v => (4, Encodable.encode v)
  | .u256 v => (5, v)
  | .u2048 v => (6, v)

theorem HashItem.code_injective : Function.Injective HashItem.code := by
  intro a b hab
  have htag : a.code.1 = b.code.1 := congrArg Prod.fst hab
  have hvalue : a.code.2 = b.code.2 := congrArg Prod.snd hab
  cases a <;> cases b <;> first
    | exact congrArg _ (UInt32.toNat_inj.mp hvalue)
    | exact congrArg _ (UInt8.toNat_inj.mp hvalue)
    | exact congrArg _ (UInt64.toNat_inj.mp hvalue)
    | exact congrArg _ (Encodable.encode_injective hvalue)
    | exact congrArg _ hvalue
    | exact nomatch htag

/-- A computable ideal hasher: the code of the whole field sequence. It shows that the assumption
`Hasher.Ideal` is satisfiable and lets the model be evaluated. -/
def codeHasher : Hasher := fun items => Encodable.encode (items.map HashItem.code) + 1

theorem codeHasher_ideal : codeHasher.Ideal where
  inj := by
    intro a b hab
    have henc : a.map HashItem.code = b.map HashItem.code :=
      Encodable.encode_injective (Nat.succ.inj hab)
    exact List.map_injective_iff.mpr HashItem.code_injective henc
  ne_zero := fun _ => Nat.succ_ne_zero _

end Chainsql
