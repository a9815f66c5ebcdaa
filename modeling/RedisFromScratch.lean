import RedisFromScratch.SnapshotNumbers
import RedisFromScratch.SnapshotWipes
import RedisFromScratch.SnapshotBatches
import RedisFromScratch.PointReads
import RedisFromScratch.SyncedCommits
import RedisFromScratch.ReplayDamage
import RedisFromScratch.LogRoundTrip
import RedisFromScratch.WriteNumbers
import RedisFromScratch.SerialCalls
import RedisFromScratch.LateRequests
import RedisFromScratch.ScanCursors
import RedisFromScratch.MemoryScans
import RedisFromScratch.EngineLocks
import RedisFromScratch.TableRoundTrip
import RedisFromScratch.CommandLoop
import RedisFromScratch.ReplyStreams
import RedisFromScratch.TableNames
import RedisFromScratch.EmptyValues
import RedisFromScratch.TornBatches
import RedisFromScratch.BatchDamage
import RedisFromScratch.TornSegments
import RedisFromScratch.PayloadDecoders
import RedisFromScratch.SnapshotWrites
import RedisFromScratch.CompactionRest
import RedisFromScratch.StoreLocks
import RedisFromScratch.ExactVarints
import RedisFromScratch.Quantiles
