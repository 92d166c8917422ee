import Bearmail.Search.SplitMeaning
import Bearmail.Imap.FlagChanges
import Bearmail.Imap.Ingest
import Bearmail.Imap.SearchMeaning
import Bearmail.Imap.SearchComplete
import Bearmail.Imap.CopyUid
import Bearmail.Folder.Hierarchy
import Bearmail.Queue.Liveness
import Bearmail.Queue.Updates
import Bearmail.Queue.Dsn
import Bearmail.Queue.Manager
import Bearmail.Jmap.ClientSync
import Bearmail.Jmap.QueryChanges
import Bearmail.Dav.SyncCollection
import Bearmail.Mcp.Binding
import Bearmail.Dav.LockCompatible
import Bearmail.Dav.LockSubmitted
import Bearmail.Dav.Conditional
import Bearmail.File.Hierarchy
import Bearmail.Threads.Converge
import Bearmail.Mcp.Limits
import Bearmail.Edge.Codec
import Bearmail.Edge.Orderly
import Bearmail.Sync.Truncation
import Bearmail.Sync.Range
import Bearmail.Store.Drift
import Bearmail.Store.LogEntries
import Bearmail.Expr.ShortCircuit
import Bearmail.Expr.RoundTrip
import Bearmail.Store.Lookup
import Bearmail.Imap.Utf7
import Bearmail.Imap.SequenceExpand
import Bearmail.Imap.SequenceGrammar
import Bearmail.Imap.ListPattern
import Bearmail.Imap.MailboxMaps
import Bearmail.Imap.ReceiverSize
import Bearmail.Imap.ReceiverRoundTrip
import Bearmail.Store.RateLimit
import Bearmail.Edge.Quota
import Bearmail.Milter.Receiver
import Bearmail.Milter.Applied
import Bearmail.Store.Purge
import Bearmail.Email.Metadata
import Bearmail.Imap.Idle
import Bearmail.Queue.Schedules
import Bearmail.Queue.Admission
import Bearmail.Smtp.Data
import Bearmail.Jmap.UtcDate
import Bearmail.Tasks.Retries
import Bearmail.Jmap.QueryWindow
import Bearmail.Jmap.References
import Bearmail.Cache.Nested
import Bearmail.Auth.Escalation
import Bearmail.Auth.Fingerprint
import Bearmail.Calendar.Alarm
import Bearmail.Store.IntoInner
import Bearmail.Search.Positions
import Bearmail.Search.TermKeys
import Bearmail.Utils.TopologicalSort
import Bearmail.Edge.YearMonth
import Bearmail.Expr.Quoted
import Bearmail.Store.Bitpack
import Bearmail.Jmap.Tokens
import Bearmail.Utils.Template
import Bearmail.Utils.Glob
import Bearmail.Utils.Snowflake
import Bearmail.Store.BlobPurge
