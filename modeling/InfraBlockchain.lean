import InfraBlockchain.Lib.IndexedTable
import InfraBlockchain.Lib.Machine
import InfraBlockchain.Lib.WordArith
import InfraBlockchain.Lib.Ledger
import InfraBlockchain.Lib.Radix
import InfraBlockchain.Lib.PairTree
import InfraBlockchain.Lib.OrderStat
import InfraBlockchain.Lib.FlatMap
import InfraBlockchain.Lib.SortedIndex
import InfraBlockchain.Lib.Decimal
import InfraBlockchain.Lib.RoundRobin
import InfraBlockchain.Lib.OrderedMultiset
import InfraBlockchain.Lib.ParentLinks
import InfraBlockchain.Lib.Worklist
import InfraBlockchain.Lib.ParentOrder
import InfraBlockchain.Lib.Raising
import InfraBlockchain.Types
import InfraBlockchain.Resource.Accumulator
import InfraBlockchain.Token.Manager
import InfraBlockchain.Token.Actions
import InfraBlockchain.Token.Spec
import InfraBlockchain.Token.Ledger
import InfraBlockchain.Token.Conservation
import InfraBlockchain.Token.Ram
import InfraBlockchain.Fee.SystemTokens
import InfraBlockchain.Fee.Table
import InfraBlockchain.Fee.Balance
import InfraBlockchain.Fee.Payment
import InfraBlockchain.TxVote.Stats
import InfraBlockchain.TxVote.Ranking
import InfraBlockchain.Auth.Checker
import InfraBlockchain.Auth.Soundness
import InfraBlockchain.Auth.Permissions
import InfraBlockchain.Auth.Actions
import InfraBlockchain.Auth.Tree
import InfraBlockchain.Auth.Satisfies
import InfraBlockchain.Resource.Limits
import InfraBlockchain.Resource.Totals
import InfraBlockchain.Resource.Usage
import InfraBlockchain.Resource.Elastic
import InfraBlockchain.Controller.Dedup
import InfraBlockchain.Controller.Replay
import InfraBlockchain.Chain.Transaction
import InfraBlockchain.Auth.Authorization
import InfraBlockchain.Chain.Name
import InfraBlockchain.Chain.Asset
import InfraBlockchain.Chain.Merkle
import InfraBlockchain.Chain.BlockHeaderState
import InfraBlockchain.Chain.HeaderInvariant
import InfraBlockchain.Chain.Irreversibility
import InfraBlockchain.Chain.ForkDatabase
import InfraBlockchain.Chain.ForkDatabaseImpl
import InfraBlockchain.Chain.ForkDatabaseFile
import InfraBlockchain.Chain.ForkDatabasePaths
import InfraBlockchain.Controller.ForkSwitch
import InfraBlockchain.Controller.SwitchSteps
import InfraBlockchain.Controller.SwitchRuns
import InfraBlockchain.Producer.NextBlockTime
import InfraBlockchain.Producer.SubjectiveBilling
import InfraBlockchain.ChainApis.AccountQueryDb
import InfraBlockchain.ChainApis.TableRows
import InfraBlockchain.Controller.Schedule
import InfraBlockchain.Controller.SchedulePipeline
import InfraBlockchain.Chain.ProtocolFeatures
import InfraBlockchain.Contract.Code
import InfraBlockchain.Contract.Table
import InfraBlockchain.Contract.Iterator
import InfraBlockchain.Contract.Deferred
