import RhypeDb.Authz.FailClosed
import RhypeDb.Engine.BatchWrites
import RhypeDb.Engine.Concurrency
import RhypeDb.Engine.Generations
import RhypeDb.Engine.KeySpace
import RhypeDb.Fulltext.Convergence
import RhypeDb.Fulltext.Matching
import RhypeDb.Fulltext.PostingCodec
import RhypeDb.Fulltext.QueryParse
import RhypeDb.Fulltext.TokenStream
import RhypeDb.Migration.Cancel
import RhypeDb.Migration.CurrentValues
import RhypeDb.Migration.Drives
import RhypeDb.Migration.HookedUpdate
import RhypeDb.Migration.Partitions
import RhypeDb.QueryText.Inverse
import RhypeDb.SchemaCatalog.MigrationLog
import RhypeDb.Sdl.RoundTrip
import RhypeDb.Server.FeedOrder
import RhypeDb.Server.Gapless
import RhypeDb.Server.RestoreRuns
import RhypeDb.Storage.BackupRun
import RhypeDb.Storage.BeginGap
import RhypeDb.Storage.BloomFile
import RhypeDb.Storage.ChunkScan
import RhypeDb.Storage.CommitFault
import RhypeDb.Storage.FilteredScan
import RhypeDb.Storage.FlushRace
import RhypeDb.Storage.HeldSnapshots
import RhypeDb.Storage.MultiScan
import RhypeDb.Storage.SstFiles
import RhypeDb.Storage.WalCut
import RhypeDb.Storage.WalProbe
import RhypeDb.Vectorizer.HnswSearch
import RhypeDb.Vectorizer.JobRow
import RhypeDb.Vectorizer.Leftovers
import RhypeDb.Vectorizer.Levels
import RhypeDb.Vectorizer.OrderlyWrites
import RhypeDb.Vectorizer.PackedCodes
import RhypeDb.Vectorizer.Reopened
import RhypeDb.Vectorizer.Stranded
import RhypeDb.Wire.Responses
import RhypeDb.Engine.TreeReads
