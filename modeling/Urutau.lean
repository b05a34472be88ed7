import Urutau.SnapshotConvergence
import Urutau.SnapshotProgress
import Urutau.StoredWindows
import Urutau.WedgedCycles
import Urutau.HandoverOrder
import Urutau.ResliceIsolation
import Urutau.CollapsedConfirmed
import Urutau.RetentionSafety
import Urutau.TransactionReset
import Urutau.OwnedPositions
import Urutau.IcebergRollback
import Urutau.StagedLanding
import Urutau.FilteredReplica
import Urutau.UnchangedColumns
import Urutau.CoalescedPieces
import Urutau.KafkaCoverage
import Urutau.FanoutCompleteness
import Urutau.ClickHouseVersions
import Urutau.RedoBounds
import Urutau.IncrementalDelivery
import Urutau.MysqlCells
import Urutau.AckCoverage
import Urutau.StagedDeliveries
import Urutau.MarkerOrder
import Urutau.DecimalCast
import Urutau.FlowBounds
import Urutau.ProgressCallback
import Urutau.ControlCas
import Urutau.PullerCuts
import Urutau.DispatchFrontier
import Urutau.RowKeys
import Urutau.TopicOffsets
import Urutau.ScaleRollback
import Urutau.LiveSplit
import Urutau.ClockTexts
import Urutau.ValueRanges
