import Pulso.AlertPaging
import Pulso.AlertTiming
import Pulso.AlertWedge
import Pulso.AppendOnce
import Pulso.ChangeOnce
import Pulso.FlatMerge
import Pulso.GarbageOverflow
import Pulso.HistogramResolution
import Pulso.IssuerTransparency
import Pulso.JournalCandidates
import Pulso.JournalReads
import Pulso.JournalShape
import Pulso.KeyedRetry
import Pulso.LogPruning
import Pulso.LogRegrouping
import Pulso.MaintenanceRetry
import Pulso.ManifestCache
import Pulso.NotifierDelivery
import Pulso.PlannedReplacement
import Pulso.PromFusing
import Pulso.PromReads
import Pulso.PromTime
import Pulso.RecordingHistory
import Pulso.RetentionAdmission
import Pulso.RetentionCatchup
import Pulso.SpendFence
import Pulso.TailDelivery
import Pulso.TieredEvaluation
import Pulso.TraceMetricChunks
import Pulso.TraceReading
