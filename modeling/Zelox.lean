import Zelox.BarrierAlign.Funnel
import Zelox.Connect.Delivery
import Zelox.Coordinator.Incarnation
import Zelox.Delta.Compaction
import Zelox.Delta.ExactCover
import Zelox.Delta.MergeOnRead
import Zelox.Delta.MultiPart
import Zelox.Delta.Overwrite
import Zelox.Delta.Pruning
import Zelox.Delta.ScanByAdds
import Zelox.Delta.Serializable
import Zelox.Delta.Sidecars
import Zelox.Driver.WakeUp
import Zelox.Driver.WorkerCap
import Zelox.Exchange.ShuffleCut
import Zelox.Exchange.Watermark
import Zelox.Iceberg.DeleteRepartition
import Zelox.Iceberg.FirstWrites
import Zelox.Iceberg.LimitedScan
import Zelox.Iceberg.PartitionKey
import Zelox.Iceberg.ReadFailures
import Zelox.Iceberg.RowLineage
import Zelox.Iceberg.Streaming
import Zelox.Iceberg.TableStatistics
import Zelox.Join.IntervalBounds
import Zelox.Join.Recovery
import Zelox.MicroBatch.ExactlyOnce
import Zelox.Realtime.Offsets
import Zelox.Sink.Truncate
import Zelox.Sql.MergeJoin
import Zelox.Streaming.Codec
import Zelox.Streaming.Dedup
import Zelox.Window.BatchSplit
import Zelox.Window.Parallel
import Zelox.Window.Rescale
import Zelox.Window.Restart
