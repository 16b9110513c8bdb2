import WaveDB.Database.BatchReaders
import WaveDB.Database.EvictionQueue
import WaveDB.Database.FlagRuns
import WaveDB.Database.ReplayOver
import WaveDB.Database.VacuumCursors
import WaveDB.Database.VacuumWriters
import WaveDB.Database.ValueCache
import WaveDB.Database.WalCut
import WaveDB.Database.WalDurability
import WaveDB.Database.WalQueue
import WaveDB.Database.Watermark
import WaveDB.Graph.IndexRuns
import WaveDB.Graph.Morphism
import WaveDB.Graph.Optimizer
import WaveDB.HBTrie.PathAlias
import WaveDB.HBTrie.SyncOnly
import WaveDB.Storage.CacheCoherence
import WaveDB.Storage.StaleRegions
import WaveDB.Time.Wheel
import WaveDB.Workers.RefCounter
import WaveDB.Vector.ConcurrentInserts
import WaveDB.GraphQL.MutationResult
import WaveDB.Vector.Migrate
import WaveDB.Database.IdentifierBytes
import WaveDB.Database.LongManifest
import WaveDB.Time.Debouncer
