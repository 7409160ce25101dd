import Chainsql.Hotstuff.RoundManager

/-!
# A cluster of validators

All validators run the code, and the network carries exactly the messages they have sent: signatures
cannot be forged. A sent message may be delivered at any later time, any number of times or never.
An action lets one validator run one handler; the environment it reads is part of the action.
-/

namespace Chainsql.Hotstuff

/-- Validators that are started alike, each with its own key, under the quorum of their number. -/
structure Cluster where
  hasher : Hasher
  epoch : Int
  initLedgerInfo : LedgerInfo
  validators : List Author
  verifier : Author → ValidatorVerifier
  hasher_ideal : hasher.Ideal
  validators_nodup : validators.Nodup
  self_eq : ∀ a ∈ validators, (verifier a).self = a
  quorum_eq : ∀ a ∈ validators, (verifier a).quorum = calculateQuorum true validators.length

inductive Action where
  | start (validating : Bool)
  -- The `k`th message that validator `src` has sent arrives.
  | deliver (src k : Nat)
  | runJob (k : Nat)
  | requeueProposal (k : Nat)
  | localTimeout
  | proposalTimer (round : Int)
  | acquireBlock (id : HashValue)

structure Event where
  index : Nat
  action : Action
  env : Environment

abbrev World := List Replica

namespace Cluster

variable (c : Cluster)

def node (author : Author) : Node where
  hasher := c.hasher
  epoch := c.epoch
  initLedgerInfo := c.initLedgerInfo
  validators := c.validators
  verifier := c.verifier author

def author (index : Nat) : Author := c.validators.getD index noneAuthor

def init : World := c.validators.map fun _ => {}

def act (w : World) (e : Event) (r : Replica) : Replica :=
  let node := c.node (c.author e.index)
  match e.action with
  | .start validating => r.start node e.env validating
  | .deliver src k =>
    match w[src]? with
    | none => r
    | some sender =>
      match sender.sent[k]? with
      | none => r
      | some m => r.receive node e.env (c.author src) m
  | .runJob k => r.runJob node e.env k
  | .requeueProposal k => r.requeueProposal k
  | .localTimeout => r.processLocalTimeout node e.env
  | .proposalTimer round => r.proposalTimer node e.env round
  | .acquireBlock id => r.peerAcquireBlock id

def step (w : World) (e : Event) : World := w.modify e.index (c.act w e)

end Cluster

end Chainsql.Hotstuff
