import PgSnowflakeCdc.Sink.BatchOrder
import PgSnowflakeCdc.Sink.KeyUniqueness
import PgSnowflakeCdc.Sink.Redelivery
import PgSnowflakeCdc.Sink.ReportedLsn
import PgSnowflakeCdc.Service.Replication
import PgSnowflakeCdc.PgOutput.Accepted
import PgSnowflakeCdc.Sink.Toast
import PgSnowflakeCdc.Scripts.BackfillHistory
import PgSnowflakeCdc.Service.Overlap
import PgSnowflakeCdc.Scripts.LiveReconcile
import PgSnowflakeCdc.Scripts.Bootstrap
import PgSnowflakeCdc.Scripts.Converters
import PgSnowflakeCdc.Sink.KeyChange
import PgSnowflakeCdc.Sink.Interleaving
import PgSnowflakeCdc.Sink.Columns
import PgSnowflakeCdc.Scripts.ReconcileRuns
import PgSnowflakeCdc.Scripts.Placeholders
import PgSnowflakeCdc.Service.Lsn
import PgSnowflakeCdc.Sink.ColumnNames
import PgSnowflakeCdc.Sink.Routing
import PgSnowflakeCdc.Service.Publication
import PgSnowflakeCdc.Service.Backoff
import PgSnowflakeCdc.Scripts.PageInserts
import PgSnowflakeCdc.Service.Telemetry
import PgSnowflakeCdc.Service.Health
import PgSnowflakeCdc.Service.Deployment
import PgSnowflakeCdc.Sink.AuditTrail
import PgSnowflakeCdc.Service.SyncCheck
import PgSnowflakeCdc.Sink.Connection
import PgSnowflakeCdc.Monitoring.Statsd
import PgSnowflakeCdc.JsonFile
import PgSnowflakeCdc.Scripts.CheckpointFile
