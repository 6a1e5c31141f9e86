import PebblesDB.Lib.Run
import PebblesDB.Lib.BitArray
import PebblesDB.Lib.Snapshot
import PebblesDB.Lib.LinkedList
import PebblesDB.Lib.Cursor
import PebblesDB.Lib.BinaryHeap
import PebblesDB.Lib.SortedUnion
import PebblesDB.Util.Coding
import PebblesDB.Util.Crc32c
import PebblesDB.Util.Hash
import PebblesDB.Util.Bloom
import PebblesDB.Env.File
import PebblesDB.Log.Format
import PebblesDB.Log.Writer
import PebblesDB.Log.Reader
import PebblesDB.Log.RoundTrip
import PebblesDB.Log.Reservation
import PebblesDB.Db.WriteBatch
import PebblesDB.Db.WritePath
import PebblesDB.Db.Files
import PebblesDB.Db.Flush
import PebblesDB.Db.FileFilter
import PebblesDB.Db.CompactionWork
import PebblesDB.Db.VersionBuilder
import PebblesDB.Db.Guards
import PebblesDB.Db.VersionGet
import PebblesDB.Db.Overlap
import PebblesDB.Db.GuardIterator
import PebblesDB.Db.SkipList
import PebblesDB.Db.SkipListSearch
import PebblesDB.Db.SkipListInsert
import PebblesDB.Db.SkipListSet
import PebblesDB.Db.MemTable
import PebblesDB.Table.Merger
import PebblesDB.Table.MergerUnion
import PebblesDB.Table.FilterBlock
import PebblesDB.Db.WriteBatchRep
import PebblesDB.Lib.OrderedSet
import PebblesDB.Db.VersionEdit
import PebblesDB.Util.Comparator
import PebblesDB.Db.InternalKey
import PebblesDB.Db.FileName
import PebblesDB.Lib.Buckets
import PebblesDB.Util.HandleTable
import PebblesDB.Util.Cache
import PebblesDB.Lib.SortedMerge
import PebblesDB.Db.GuardSave
import PebblesDB.Lib.Loop
import PebblesDB.Table.BlockBuilder
import PebblesDB.Table.Block
import PebblesDB.Table.BlockRoundTrip
import PebblesDB.Table.MergerWalk
import PebblesDB.Db.DBIter
import PebblesDB.Db.DBIterWalk
