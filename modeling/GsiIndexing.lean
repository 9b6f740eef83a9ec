import GsiIndexing.Lib.Lex
import GsiIndexing.Lib.Digits
import GsiIndexing.Go.Float64
import GsiIndexing.Go.Strconv
import GsiIndexing.Go.StrconvLemmas
import GsiIndexing.Collate.Codec
import GsiIndexing.Collate.IntCode
import GsiIndexing.Collate.FloatCode
import GsiIndexing.Collate.Json
import GsiIndexing.Collate.JsonOrder
import GsiIndexing.Collate.N1ql
import GsiIndexing.Collate.NumberOrder
import GsiIndexing.Collate.N1qlDecode
import GsiIndexing.Common.MetakvGsi
import GsiIndexing.Common.MetakvPieces
import GsiIndexing.Collate.Desc
import GsiIndexing.Collate.DescFields
import GsiIndexing.Collate.DescOrder
import GsiIndexing.Collate.CodecRoundTrip
import GsiIndexing.Collate.Encode
import GsiIndexing.Collate.FixEncodedInt
import GsiIndexing.Indexer.IndexEntry
import GsiIndexing.Lib.Span
import GsiIndexing.Indexer.IndexKey
import GsiIndexing.Indexer.ScanRequest
import GsiIndexing.Memdb.Skiplist
import GsiIndexing.Memdb.MemDB
import GsiIndexing.Memdb.Visitor
import GsiIndexing.Indexer.Metering
import GsiIndexing.Transport.Framing
import GsiIndexing.Manager.Token
import GsiIndexing.Lib.Simulation
import GsiIndexing.Memdb.NodeTable
import GsiIndexing.Memdb.NodeTableMap
import GsiIndexing.Indexer.MutationQueue
import GsiIndexing.Indexer.MutationQueueFifo
import GsiIndexing.Lib.Loop
import GsiIndexing.Memdb.SkiplistStore
import GsiIndexing.Memdb.SkiplistPaths
import GsiIndexing.Memdb.SkiplistLevels
import GsiIndexing.Memdb.SkiplistContents
import GsiIndexing.Memdb.SkiplistInsert
import GsiIndexing.Memdb.SkiplistDelete
import GsiIndexing.Memdb.SkiplistRefines
import GsiIndexing.Memdb.SkiplistBuilder
import GsiIndexing.Memdb.SkiplistAssemble
import GsiIndexing.Go.FloatArith
import GsiIndexing.Common.Aggr
import GsiIndexing.Indexer.StreamReader
import GsiIndexing.Indexer.StreamReaderFilter
import GsiIndexing.Indexer.StreamReaderAdmits
import GsiIndexing.Memdb.MemDBSnapshots
import GsiIndexing.Lib.ExchangeSort
import GsiIndexing.Lib.Progress
import GsiIndexing.Indexer.ScanQueue
import GsiIndexing.Indexer.ScanScatter
import GsiIndexing.Indexer.ScanScatterRuns
import GsiIndexing.Indexer.ScanScatterLive
import GsiIndexing.Indexer.ScanForward
