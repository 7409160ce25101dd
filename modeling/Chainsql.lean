import Chainsql.LedgerHeader
import Chainsql.Validations.AcceptQuorum
import Chainsql.Validations.Flush
import Chainsql.Validations.OnePerSequence
import Chainsql.Hotstuff.CommitInfo
import Chainsql.Hotstuff.VoteSets
import Chainsql.Hotstuff.BlockId
import Chainsql.Hotstuff.StoreLimits
import Chainsql.Hotstuff.SignerKeys
import Chainsql.Hotstuff.VoteDestination
import Chainsql.Pop.ViewMonotone
import Chainsql.Pop.Deletion
import Chainsql.Pop.AcceptSound
import Chainsql.Pop.TriggerView
import Chainsql.Trie.Preferred
import Chainsql.Evm.Static
import Chainsql.Evm.Rollback
import Chainsql.Evm.Conservation
import Chainsql.Evm.Revert
import Chainsql.Evm.Outcome
import Chainsql.Evm.Payment
import Chainsql.Evm.Codes
import Chainsql.Precompiled.ABI
import Chainsql.Sql.SqlTransaction
import Chainsql.Bloom.Filter
import Chainsql.Schema.Registry
import Chainsql.Views.Stack
import Chainsql.Storage.ContractIndex
import Chainsql.Storage.SharedTrees
import Chainsql.Build.Nodes
import Chainsql.Rpca.Rounds
import Chainsql.TableSync.ExactlyOnce
import Chainsql.Table.Rights
import Chainsql.Table.Drop
import Chainsql.ShaMap.Proof
import Chainsql.StateManager
import Chainsql.TxPool
