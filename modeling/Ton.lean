import Ton.Lib.BigEndian
import Ton.Lib.Result
import Ton.Lib.Sha256
import Ton.Lib.Trie
import Ton.Lib.Merge
import Ton.Lib.BitOrder
import Ton.Lib.Keyed
import Ton.Lib.Voting
import Ton.Lib.Least
import Ton.Miner.HData
import Ton.Miner.Cruncher
import Ton.Miner.Search
import Ton.Miner.Run
import Ton.Giver.Contract
import Ton.Giver.Accepted
import Ton.Cells.LevelMask
import Ton.Cells.DataCell
import Ton.Cells.Levels
import Ton.Cells.Tree
import Ton.Cells.Slice
import Ton.Dict.Label
import Ton.Dict.LabelCodec
import Ton.Dict.Dictionary
import Ton.Dict.Rep
import Ton.Dict.Refine
import Ton.Dict.Combine
import Ton.Dict.Canonical
import Ton.Dict.Prefix
import Ton.Dict.PrefixMap
import Ton.Dict.Fixed
import Ton.Dict.Augmented
import Ton.Dict.Extras
import Ton.Dict.Total
import Ton.Boc.Cell
import Ton.Boc.BagOfCells
import Ton.Boc.Import
import Ton.Boc.Reorder
import Ton.Boc.Written
import Ton.Boc.Header
import Ton.Boc.RoundTrip
import Ton.Boc.StdBoc
import Ton.Shard.ShardId
import Ton.Shard.Hypercube
import Ton.Block.VarUInteger
import Ton.Block.CurrencyCollection
import Ton.Session.PersistentVector
import Ton.Session.State
import Ton.Session.Action
import Ton.Session.Merge
import Ton.Session.Round
import Ton.Session.Acts
import Ton.Session.Merged
import Ton.Session.Valid
import Ton.Session.Joined
import Ton.Session.Run
import Ton.Session.Consensus
import Ton.Session.Laws
import Ton.Lib.Ends
import Ton.Lib.VectorTime
import Ton.Lib.Runs
import Ton.Catchain.Types
import Ton.Catchain.Validate
import Ton.Catchain.ReceivedBlock
import Ton.Catchain.Receiver
import Ton.Catchain.Invariant
import Ton.Catchain.Sources
import Ton.Catchain.Steps
import Ton.Catchain.Arrival
import Ton.Catchain.Running
import Ton.Catchain.ForkId
import Ton.Catchain.PreDeliver
import Ton.Catchain.Deliver
import Ton.Catchain.Scheduler
import Ton.Catchain.Outbox
import Ton.Catchain.Runs
import Ton.Catchain.Delivery
import Ton.Catchain.Agreement
import Ton.Catchain.Queries
import Ton.Catchain.Messages
import Ton.Miner.Midstate
import Ton.Miner.Scan
import Ton.Miner.Accounting
import Ton.Dict.Reading
import Ton.Dict.Nearest
import Ton.Dict.CombineSteps
import Ton.Dict.Rewriting
import Ton.Dict.Merging
import Ton.Dict.Iterator
import Ton.Dict.Trail
import Ton.Dict.Iteration
import Ton.Dict.Seeking
import Ton.Lib.Enumeration
import Ton.Dict.Enumerating
import Ton.Dict.Writers
import Ton.Session.VoteFor
import Ton.Session.Explicit
import Ton.Lib.MsbFirst
import Ton.Cells.Window
import Ton.Lib.Differences
import Ton.Dict.ScanDiff
import Ton.Dict.Scanning
import Ton.Lib.Sift
import Ton.Dict.Fits
import Ton.Dict.Subdict
import Ton.Dict.Filtering
import Ton.Boc.Memory
import Ton.Boc.Safe
import Ton.Lib.SignedDigits
import Ton.Lib.Bitwise
import Ton.Lib.Rounding
import Ton.BigInt.AnyInt
import Ton.BigInt.Fits
import Ton.BigInt.Ring
import Ton.BigInt.Product
import Ton.BigInt.Shift
import Ton.BigInt.LogOp
import Ton.BigInt.ModPow2
import Ton.BigInt.RoundPow2
import Ton.BigInt.Columns
import Ton.BigInt.Compare
import Ton.Vm.Stack
import Ton.Vm.AddMul
import Ton.Vm.Logic
import Ton.Vm.Shift
import Ton.Vm.MulShift
import Ton.Text.Base64
import Ton.Text.BlockIdExt
import Ton.Text.ParseBlockId
import Ton.Shard.PrefixTree
import Ton.Shard.BlockShardId
import Ton.Fees.Storage
import Ton.Fees.Debt
import Ton.Block.VarInteger
import Ton.Text.StdAddress
import Ton.Text.ParseAddr
import Ton.Lib.Subsume
import Ton.Dict.Adding
import Ton.Dict.Foreach
import Ton.Shard.ProcessedUpto
import Ton.Shard.PackProcessed
import Ton.Block.MsgAddressInt
import Ton.Shard.UpdatedOnce
import Ton.Decay.Tables
import Ton.Catchain.TopRuns
import Ton.FunC.DropVars
import Ton.FunC.TransformOps
import Ton.Rldp2.Channel
import Ton.Block.OldMcBlocks
import Ton.Shard.ShardSearch
import Ton.Block.ValidatorSet
import Ton.Td.Uint128
import Ton.Fees.Forward
import Ton.Miner.Increment
import Ton.BigInt.CompareExact
import Ton.Decay.SuperFloat
import Ton.Session.VectorMerge
import Ton.Text.HexLiteral
import Ton.Td.BitString
import Ton.Block.OutputQueueMerged
import Ton.Shard.Partition
import Ton.Catchain.Difference
import Ton.Catchain.Blamed
