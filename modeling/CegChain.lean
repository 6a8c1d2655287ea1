import CegChain.Ledger.Environment
import CegChain.Lib.Radix
import CegChain.Utils.Base58
import CegChain.Common.PrivateKey
import CegChain.Consensus.Message
import CegChain.Lib.OrderedMap
import CegChain.Lib.Quorum
import CegChain.Consensus.Check
import CegChain.Consensus.Proof
import CegChain.Consensus.Certificate
import CegChain.Consensus.Instance
import CegChain.Consensus.Replica
import CegChain.Consensus.EnterView
import CegChain.Consensus.Moves
import CegChain.Consensus.Handlers
import CegChain.Consensus.Buffers
import CegChain.Consensus.LocalProof
import CegChain.Consensus.System
import CegChain.Consensus.Agreement
import CegChain.Ledger.Account
import CegChain.Ledger.Transaction
import CegChain.Ledger.Context
import CegChain.Ledger.Operation
import CegChain.Ledger.Program
import CegChain.Ledger.LedgerFrm
import CegChain.Ledger.Effects
import CegChain.Ledger.Replay
import CegChain.Ledger.Flush
import CegChain.Ledger.Chain
import CegChain.Ledger.Lockstep
import CegChain.Ledger.Similar
import CegChain.Ledger.SameRoot
import CegChain.Ledger.Propose
import CegChain.Consensus.Primary
import CegChain.Ledger.Frames
import CegChain.Glue.TransactionQueue
import CegChain.Glue.QueueIndexes
import CegChain.Ledger.Follow
import CegChain.Ledger.ContextManager
import CegChain.Contract.Dpos
import CegChain.Contract.Validators
import CegChain.Contract.Solvency
import CegChain.Contract.Reentrancy
import CegChain.Lib.Paths
import CegChain.Trie.Location
import CegChain.Trie.KVTrie
import CegChain.Trie.Memory
import CegChain.Trie.Items
import CegChain.Trie.Update
import CegChain.Trie.History
import CegChain.Lib.Protobuf
import CegChain.Trie.Codec
import CegChain.Contract.Register
import CegChain.Lib.Ranking
import CegChain.Contract.Ranking
import CegChain.Contract.Tracking
import CegChain.Contract.WellFormed
import CegChain.Contract.Stakes
import CegChain.Ledger.Admission
import CegChain.Ledger.CallTree
import CegChain.Ledger.CallStack
import CegChain.Ledger.LastTxHashes
import CegChain.Ledger.LedgerManager
import CegChain.Ledger.Recorded
import CegChain.Ledger.Wire
import CegChain.Trie.Reload
import CegChain.Trie.Counting
import CegChain.Trie.Pending
import CegChain.Trie.Trimmed
import CegChain.Trie.GetAll
import CegChain.Ledger.Recovery
import CegChain.Ledger.Statistics
import CegChain.Consensus.Votes
import CegChain.Consensus.Promise
import CegChain.Consensus.Execution
import CegChain.Contract.Int64
import CegChain.Contract.Rewards
import CegChain.Contract.Groups
import CegChain.Contract.AllStake
import CegChain.Consensus.Choice
import CegChain.Contract.Approval
import CegChain.Contract.ValidatorsVote
import CegChain.Contract.CandidateList
import CegChain.Contract.Pledges
import CegChain.Contract.Cobuild
import CegChain.Contract.Outcomes
import CegChain.Contract.Shares
import CegChain.Contract.Orderly
import CegChain.Contract.Polls
import CegChain.Contract.Payouts
import CegChain.Consensus.ViewChange
import CegChain.Glue.Imports
import CegChain.Glue.LedgerUpgrade
import CegChain.Glue.StartConsensus
import CegChain.Ledger.Rollback
import CegChain.Ledger.NestedCommit
import CegChain.Consensus.Persist
import CegChain.Consensus.Stuck
import CegChain.Consensus.Delivery
import CegChain.Lib.Shifts
import CegChain.Lib.TimeIndex
import CegChain.Ledger.Assets
import CegChain.Ledger.Holdings
import CegChain.Ledger.AssetOperations
import CegChain.Ledger.Turns
import CegChain.Ledger.AssetConservation
import CegChain.Ledger.AssetChain
import CegChain.Ledger.Emission
import CegChain.Common.KeyEncoding
import CegChain.Ledger.MultiSignature
import CegChain.Utils.Decimals
import CegChain.Utils.Timer
import CegChain.Glue.PriorityOrder
import CegChain.Glue.TopTransaction
import CegChain.Glue.TxSetSize
import CegChain.Glue.RunnablePrefix
import CegChain.Overlay.Broadcast
import CegChain.Contract.Metering
import CegChain.Contract.Token
import CegChain.Contract.Ballots
import CegChain.Contract.FeesVoting
import CegChain.Lib.NumberedLists
import CegChain.Ledger.Synchronize
import CegChain.Ledger.Snapshots
import CegChain.Ledger.Replica
import CegChain.Ledger.Forks
import CegChain.Ledger.Coins
import CegChain.Ledger.CoinOperations
import CegChain.Ledger.CoinContracts
import CegChain.Ledger.CoinConservation
import CegChain.Ledger.CoinChain
import CegChain.Lib.Digests
import CegChain.Utils.Sm3
