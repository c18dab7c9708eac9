import Wwsearch.Lib.Heap
import Wwsearch.Lib.HeapList
import Wwsearch.Lib.Bytes
import Wwsearch.Lib.Overlay
import Wwsearch.Lib.Wire
import Wwsearch.Lib.Settles
import Wwsearch.Lib.KeyOrder
import Wwsearch.Lib.PriorityQueue
import Wwsearch.Lib.TwoPhase
import Wwsearch.Lib.Ledger
import Wwsearch.Lib.Window
import Wwsearch.Lib.Utf8Text
import Wwsearch.Lib.Noninterference
import Wwsearch.Lib.Retry
import Wwsearch.Lib.SilentSteps
import Wwsearch.Lib.CursorPages
import Wwsearch.Lib.OrderedIterator
import Wwsearch.Lib.Words
import Wwsearch.Ref.Types
import Wwsearch.Ref.Coding
import Wwsearch.Ref.DocList
import Wwsearch.Ref.Merge
import Wwsearch.Ref.Utf8
import Wwsearch.Ref.Document
import Wwsearch.Ref.Storage
import Wwsearch.Ref.Tokenizer
import Wwsearch.Ref.DocumentWriter
import Wwsearch.Ref.IndexWriter
import Wwsearch.Ref.DocIterator
import Wwsearch.Ref.Query
import Wwsearch.Ref.Sorter
import Wwsearch.Ref.Collector
import Wwsearch.Ref.Sequence
import Wwsearch.Ref.TableData
import Wwsearch.Ref.Mock
import Wwsearch.Ref.Builds
import Wwsearch.Ref.PostScorer
import Wwsearch.Ref.Filter
import Wwsearch.Ref.MergingIterator
import Wwsearch.Spec.Merge
import Wwsearch.Spec.Schedule
import Wwsearch.Spec.Session
import Wwsearch.Spec.Index
import Wwsearch.Spec.DocumentMap
import Wwsearch.Spec.Columns
import Wwsearch.Spec.Batch
import Wwsearch.Spec.Cursor
import Wwsearch.Spec.Query
import Wwsearch.Spec.Paging
import Wwsearch.Spec.Concurrency
import Wwsearch.Spec.Snapshot
import Wwsearch.Spec.Keys
import Wwsearch.Spec.Sequence
import Wwsearch.Spec.Operations
import Wwsearch.Spec.Tables
import Wwsearch.Spec.StoreBuffer
import Wwsearch.Spec.DropTable
import Wwsearch.Spec.MemoryStore
import Wwsearch.Spec.SortOrder
import Wwsearch.Spec.Maintenance
import Wwsearch.Spec.TopN
import Wwsearch.Spec.Scoring
import Wwsearch.Spec.PrefixLimit
import Wwsearch.Spec.FieldScore
import Wwsearch.Spec.Search
import Wwsearch.Spec.History
import Wwsearch.Spec.Retry
import Wwsearch.Spec.Migration
import Wwsearch.Spec.Compaction
import Wwsearch.Spec.Filters
import Wwsearch.Spec.MergingIterator
import Wwsearch.Proofs.HeapMerge
import Wwsearch.Proofs.MergedMap
import Wwsearch.Proofs.DocListCodec
import Wwsearch.Proofs.MergeOperator
import Wwsearch.Proofs.Schedules
import Wwsearch.Proofs.StoreWire
import Wwsearch.Proofs.Keys
import Wwsearch.Proofs.WriterStages
import Wwsearch.Proofs.WriterProgress
import Wwsearch.Proofs.Reading
import Wwsearch.Proofs.Outcome
import Wwsearch.Proofs.Sessions
import Wwsearch.Proofs.TermDiff
import Wwsearch.Proofs.FieldCodec
import Wwsearch.Proofs.CallEffect
import Wwsearch.Proofs.Records
import Wwsearch.Proofs.DocValues
import Wwsearch.Proofs.InvertedColumn
import Wwsearch.Proofs.Scans
import Wwsearch.Proofs.ReaderCursor
import Wwsearch.Proofs.IteratorProtocol
import Wwsearch.Proofs.TableKeys
import Wwsearch.Proofs.SequenceCalls
import Wwsearch.Proofs.Numbered
import Wwsearch.Proofs.Concurrency
import Wwsearch.Proofs.DisjointBatches
import Wwsearch.Proofs.Operations
import Wwsearch.Proofs.TableScan
import Wwsearch.Proofs.PrefixLimit
import Wwsearch.Proofs.QueryTree
import Wwsearch.Proofs.Fuel
import Wwsearch.Proofs.Sorting
import Wwsearch.Proofs.CollectorLoop
import Wwsearch.Proofs.Collecting
import Wwsearch.Proofs.Paging
import Wwsearch.Proofs.Refinement
import Wwsearch.Proofs.Snapshot
import Wwsearch.Proofs.Sequences
import Wwsearch.Proofs.SequenceRaces
import Wwsearch.Proofs.SameReads
import Wwsearch.Proofs.Isolation
import Wwsearch.Proofs.StoreBuffers
import Wwsearch.Proofs.DropTable
import Wwsearch.Proofs.MockFlush
import Wwsearch.Proofs.MockMerge
import Wwsearch.Proofs.MockWire
import Wwsearch.Proofs.MockGroups
import Wwsearch.Proofs.MockRebuild
import Wwsearch.Proofs.SortOrder
import Wwsearch.Proofs.Maintenance
import Wwsearch.Proofs.TopN
import Wwsearch.Proofs.Scoring
import Wwsearch.Proofs.ScorePages
import Wwsearch.Proofs.KeyCodecs
import Wwsearch.Proofs.ScanCursor
import Wwsearch.Proofs.TableDelete
import Wwsearch.Proofs.Builds
import Wwsearch.Proofs.SuffixSearch
import Wwsearch.Proofs.HitFields
import Wwsearch.Proofs.FieldScore
import Wwsearch.Proofs.FieldPosting
import Wwsearch.Proofs.SearchIndex
import Wwsearch.Proofs.SameAnswers
import Wwsearch.Proofs.History
import Wwsearch.Proofs.Search
import Wwsearch.Proofs.SearchRuns
import Wwsearch.Proofs.Retry
import Wwsearch.Proofs.Migration
import Wwsearch.Proofs.Emptied
import Wwsearch.Proofs.CellSummary
import Wwsearch.Proofs.Compaction
import Wwsearch.Proofs.CompactedSearch
import Wwsearch.Proofs.BusinessTypes
import Wwsearch.Proofs.FilteredSearch
import Wwsearch.Proofs.MergingIterator
import Wwsearch.Proofs.TextSearch
