import Sparrow.Expression.Nullability
import Sparrow.Expression.Typing
import Sparrow.Runtime.AlarmLaw
import Sparrow.Runtime.BufferedCount
import Sparrow.Runtime.BufferedSegments
import Sparrow.Runtime.BufferedSliding
import Sparrow.Runtime.Coordinator
import Sparrow.Runtime.Dedup
import Sparrow.Runtime.FanIn
import Sparrow.Runtime.GraphCut
import Sparrow.Runtime.JoinExact
import Sparrow.Runtime.LookupAsOf
import Sparrow.Runtime.Thresholds
import Sparrow.Runtime.WatermarkRuns
import Sparrow.Runtime.WindowProcessing
import Sparrow.Checkpoint.BufferedScan
import Sparrow.Checkpoint.FreezeBytes
import Sparrow.Checkpoint.JoinRestore
import Sparrow.Checkpoint.WindowRestore
import Sparrow.Sql.AnalysisNames
import Sparrow.Connectors.RedisKeys
import Sparrow.Connectors.Topics
import Sparrow.Supervisor.JetStreamExact
import Sparrow.Control.OutboxCompletions
