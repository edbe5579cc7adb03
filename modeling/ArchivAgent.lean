import ArchivAgent.Export.Kept
import ArchivAgent.Ingest.Destination
import ArchivAgent.Export.Encode
import ArchivAgent.Export.Emission
import ArchivAgent.Export.Sizes
import ArchivAgent.Export.Numbering
import ArchivAgent.Ingest.Permuted
import ArchivAgent.Redact.Passes
import ArchivAgent.Agent.Acceptance
import ArchivAgent.Agent.Accounting
import ArchivAgent.Agent.Bypass
import ArchivAgent.Agent.Unguarded
import ArchivAgent.Agent.Batching
import ArchivAgent.Agent.Tripping
import ArchivAgent.Agent.Interleaved
import ArchivAgent.Agent.Encodings
import ArchivAgent.Agent.Fallback
import ArchivAgent.Agent.Fingerprint
import ArchivAgent.Agent.Traces
import ArchivAgent.Sampling.Resolve
import ArchivAgent.Redact.Nesting
import ArchivAgent.Spool.Disk
import ArchivAgent.Spool.Survival
import ArchivAgent.Server.Accepted
import ArchivAgent.Server.Shutdown
import ArchivAgent.Server.Grpc
import ArchivAgent.Spool.Redelivery
import ArchivAgent.Metrics.FlushLoop
import ArchivAgent.Spool.Rounds
import ArchivAgent.Spool.CatchUp
import ArchivAgent.Spool.Reopen
import ArchivAgent.Server.Progress
import ArchivAgent.Server.Enforced
import ArchivAgent.Spool.Duplicates
import ArchivAgent.Spool.Untouched
import ArchivAgent.Agent.Growth
import ArchivAgent.Server.Backpressure
import ArchivAgent.Server.Receivers
import ArchivAgent.Server.Restarts
