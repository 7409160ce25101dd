import Mathlib.Tactic.Common

/-!
# The validator list

The two functions of `ValidatorList` that both consensus protocols rest on: the size of a quorum and
the leader of a sequence number.
-/

namespace Chainsql

abbrev PublicKey := Nat

/-- While the list of some configured publisher is missing no quorum can be reached. -/
def calculateQuorum (listsAvailable : Bool) (unlSize : Nat) : Nat :=
  if listsAvailable = false then UInt64.size - 1
  else if unlSize < 4 then unlSize
  else unlSize - (unlSize - 1) / 3

theorem lt_two_mul_calculateQuorum {n : Nat} (hn : 0 < n) : n < 2 * calculateQuorum true n := by
  unfold calculateQuorum
  split
  · contradiction
  · split <;> omega

def getLeaderPubKey (validators : List PublicKey) (seq : UInt32) : PublicKey :=
  validators.getD (seq.toNat % validators.length) 0

end Chainsql
