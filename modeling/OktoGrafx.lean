import OktoGrafx.Redo.Restart
import OktoGrafx.Txn.CommitStamps
import OktoGrafx.Txn.Retry
import OktoGrafx.Txn.TailRuns
import OktoGrafx.Domain.ChecksumDivision
import OktoGrafx.Index.ReaderRoots
import OktoGrafx.Log.Sequence
import OktoGrafx.Recovery.Lineage
import OktoGrafx.Control.Replaced
import OktoGrafx.Index.Visibility
import OktoGrafx.Slotted.Runs
import OktoGrafx.Query.OrderAgreement
import OktoGrafx.Query.DecimalQuotient
import OktoGrafx.Query.TimestampDate
import OktoGrafx.Log.Resync
import OktoGrafx.Log.Undo
import OktoGrafx.Index.FirstFit
import OktoGrafx.Query.InList
import OktoGrafx.Query.DurationScale
