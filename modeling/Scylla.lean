import Scylla.Mutation.PurgingIff
import Scylla.Paxos.Linearizable
import Scylla.View.Batching
import Scylla.Raft.Durability
import Scylla.Cql.FilterExact
import Scylla.Tablet.Consistency
import Scylla.Group0.Careless
import Scylla.Compaction.DroppingIff
import Scylla.Sstables.Coverage
import Scylla.Mutation.RangeTombstoneRevert
import Scylla.Paxos.BallotProgress
import Scylla.Raft.CommitIndex
import Scylla.Raft.ConfLookup
import Scylla.Mutation.PartitionDifference
import Scylla.Alternator.Simultaneous
import Scylla.Repair.Union
import Scylla.Dht.RangeSharding
import Scylla.Mutation.CounterInPlace
import Scylla.Read.Retry
import Scylla.Mutation.ViewRows
import Scylla.Dht.Tablets
import Scylla.Alternator.Sets
import Scylla.Tablet.ResizePlan
import Scylla.Keys.RingOrder
import Scylla.Mutation.PositionInPartition
import Scylla.Alternator.KeyConditions
import Scylla.Utils.BigDecimal
