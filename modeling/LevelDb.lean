import LevelDb.Lib.Mvcc
import LevelDb.Lib.Fragments
import LevelDb.Lib.Runs
import LevelDb.Lib.Transition
import LevelDb.Lib.Cursor
import LevelDb.Lib.Journal
import LevelDb.Lib.Lines
import LevelDb.Lib.Tiling
import LevelDb.Lib.Coding
import LevelDb.Lib.Numerals
import LevelDb.Lib.Rounding
import LevelDb.Lib.Hoare
import LevelDb.Db.Format
import LevelDb.Db.RangeDelMap
import LevelDb.Db.RangeDelIndex
import LevelDb.Db.Table
import LevelDb.Db.MemTable
import LevelDb.Db.LookupState
import LevelDb.Db.Counter
import LevelDb.Db.DataBlocks
import LevelDb.Db.VersionSet
import LevelDb.Db.Get
import LevelDb.Db.Compaction
import LevelDb.Db.StockCompaction
import LevelDb.Db.Levels
import LevelDb.Db.PickCompaction
import LevelDb.Db.SkippingIterator
import LevelDb.Db.DbIter
import LevelDb.Db.Writers
import LevelDb.Db.Database
import LevelDb.Db.Directories
import LevelDb.Db.Errors
import LevelDb.Db.Catalog
import LevelDb.Db.Handles
import LevelDb.Db.Sampling
import LevelDb.Db.Room
import LevelDb.Db.StockRoom
import LevelDb.Db.Worker
import LevelDb.Db.Blocks
import LevelDb.Db.TableFile
import LevelDb.Db.ConfModel
import LevelDb.Db.Contents
import LevelDb.Proof.Lookup
import LevelDb.Proof.Layers
import LevelDb.Proof.DataBlocks
import LevelDb.Proof.Get
import LevelDb.Proof.MemTable
import LevelDb.Proof.CompactStripe
import LevelDb.Proof.CompactOutputs
import LevelDb.Proof.Compaction
import LevelDb.Proof.StockCompaction
import LevelDb.Proof.Levels
import LevelDb.Proof.CompactFiles
import LevelDb.Proof.Finalize
import LevelDb.Proof.Ages
import LevelDb.Proof.PickCompaction
import LevelDb.Proof.Disjoint
import LevelDb.Proof.DbIter
import LevelDb.Proof.Writers
import LevelDb.Proof.Commits
import LevelDb.Proof.Versions
import LevelDb.Proof.Held
import LevelDb.Proof.History
import LevelDb.Proof.Merges
import LevelDb.Proof.InternalIterator
import LevelDb.Proof.Readers
import LevelDb.Db.Stores
import LevelDb.Proof.Stores
import LevelDb.Db.Oracle
import LevelDb.Db.Conformance
import LevelDb.Proof.Oracle
import LevelDb.Proof.Checks
import LevelDb.Proof.Operations
import LevelDb.Proof.Conformance
import LevelDb.Proof.Recovery
import LevelDb.Proof.Process
import LevelDb.Proof.Reopen
import LevelDb.Proof.Sequences
import LevelDb.Proof.Names
import LevelDb.Proof.Directories
import LevelDb.Proof.Errors
import LevelDb.Proof.Catalog
import LevelDb.Proof.Room
import LevelDb.Proof.Switch
import LevelDb.Proof.Settle
import LevelDb.Proof.Blocks
import LevelDb.Proof.TableFile
import LevelDb.Proof.RangeDels
import LevelDb.Proof.SkippingIterator
import LevelDb.Proof.ConfModel
import LevelDb.Proof.Affine
import LevelDb.Db.Workload
import LevelDb.Proof.Workload
import LevelDb.Db.Replay
import LevelDb.Proof.Replay
import LevelDb.Db.Scenario
import LevelDb.Proof.Scenario
import LevelDb.Db.Verify
import LevelDb.Proof.Verify
import LevelDb.Proof.WriteBatch
import LevelDb.Proof.LogNumbers
import LevelDb.Proof.StockRoom
import LevelDb.Proof.Worker
import LevelDb.Proof.Opening
import LevelDb.Proof.References
import LevelDb.Proof.Sampling
import LevelDb.Db.Files
import LevelDb.Proof.Files
import LevelDb.Db.BenchFile
import LevelDb.Proof.BenchFile
import LevelDb.Db.RunScenarios
import LevelDb.Proof.RunScenarios
import LevelDb.Db.Phases
import LevelDb.Proof.Phases
import LevelDb.Proof.Recipes
import LevelDb.Proof.Shapes
import LevelDb.Proof.Universe
