import Aikoql.Guarantees.AccessDecisions
import Aikoql.Guarantees.AsOfReads
import Aikoql.Guarantees.CacheCoherence
import Aikoql.Guarantees.ChangeFeed
import Aikoql.Guarantees.CheckAborts
import Aikoql.Guarantees.CompactionProgress
import Aikoql.Guarantees.DirectoryRecovery
import Aikoql.Guarantees.EdgeScans
import Aikoql.Guarantees.Erasure
import Aikoql.Guarantees.Escalation
import Aikoql.Guarantees.FieldSecrecy
import Aikoql.Guarantees.FlushCrash
import Aikoql.Guarantees.GroupCommit
import Aikoql.Guarantees.IdReuse
import Aikoql.Guarantees.JobSlots
import Aikoql.Guarantees.JournalIntegrity
import Aikoql.Guarantees.KeyRotation
import Aikoql.Guarantees.LastWrites
import Aikoql.Guarantees.LeaseTerms
import Aikoql.Guarantees.LogWalkers
import Aikoql.Guarantees.LostUpdates
import Aikoql.Guarantees.ManagedFields
import Aikoql.Guarantees.MemtableRows
import Aikoql.Guarantees.Quotas
import Aikoql.Guarantees.ReplicationLog
import Aikoql.Guarantees.SequenceNumbers
import Aikoql.Guarantees.SingleWriter
import Aikoql.Guarantees.SnapshotPins
import Aikoql.Guarantees.Streaming
import Aikoql.Guarantees.TenantKeys
import Aikoql.Guarantees.TenantUsage
import Aikoql.Guarantees.TenantWrites
import Aikoql.Guarantees.TermMemory
import Aikoql.Guarantees.TornTail
import Aikoql.Guarantees.Traversals
import Aikoql.Guarantees.Uniqueness
