import Peen.Agent.CompactionChain
import Peen.Agent.DirectoryGate
import Peen.Agent.IdleRecheck
import Peen.Agent.PendingNotices
import Peen.Agent.PlannedCompaction
import Peen.Agent.ResumeGate
import Peen.Agent.StreamOrder
import Peen.Agent.WakeLimit
import Peen.Agent.WorkflowSkills
import Peen.ContentBlob.Append
import Peen.ContentBlob.Cache
import Peen.ContentBlob.Nesting
import Peen.Control.FeedPumpStart
import Peen.Events.Bus
import Peen.Hooks.StoredEvents
import Peen.Metrics.Ingest
import Peen.Session.AdmissionOrder
import Peen.Session.CompletedTurns
import Peen.Session.EventHistory
import Peen.Session.FeedReader
import Peen.Tools.DiffLines
import Peen.Tools.JobEnd
import Peen.Tools.JobOutput
import Peen.Tools.PatchDocument
import Peen.Tools.PatchTerminators
import Peen.Tools.ReadPages
import Peen.Tools.Removal
import Peen.Web.FeedCursorRuns
import Peen.Web.HandlerText
import Peen.Worker.Conn
import Peen.Worker.DockerProxy
import Peen.Worker.HistoryPages
import Peen.Worker.SnapshotIsolation
