import LsmStore.Foundation.LittleEndian
import LsmStore.Foundation.SortedRun
import LsmStore.Foundation.StableSort
import LsmStore.Foundation.Lockstep
import LsmStore.Foundation.Layers
import LsmStore.Foundation.Lru
import LsmStore.Foundation.Intervals
import LsmStore.Foundation.BinarySearch
import LsmStore.Foundation.Outcomes
import LsmStore.Foundation.Checked
import LsmStore.Basics
import LsmStore.Crc
import LsmStore.Record
import LsmStore.CrcBurst
import LsmStore.Wal
import LsmStore.Memtable
import LsmStore.MemtableSize
import LsmStore.Bloom
import LsmStore.TableFormat
import LsmStore.Cache
import LsmStore.CacheOrder
import LsmStore.BlockCodec
import LsmStore.TableFile
import LsmStore.TableRows
import LsmStore.TableParts
import LsmStore.TableCreate
import LsmStore.TableImage
import LsmStore.Manifest
import LsmStore.Version
import LsmStore.Merge
import LsmStore.Engine
import LsmStore.Compaction
import LsmStore.LevelChoice
import LsmStore.Install
import LsmStore.Actions
import LsmStore.Effects
import LsmStore.Reading
import LsmStore.Pass
import LsmStore.Quiescence
import LsmStore.Recovery
import LsmStore.Steps
import LsmStore.Runs
import LsmStore.LevelWrap
import LsmStore.Recency
import LsmStore.ByteTables
import LsmStore.ManifestTail
import LsmStore.InFlight
import LsmStore.Interleaving
import LsmStore.UnderWay
import LsmStore.Schedules
import LsmStore.Failures
import LsmStore.Backlog
import LsmStore.Reclaim
import LsmStore.Shelf
import LsmStore.ManifestReplay
import LsmStore.CheckedParsers
import LsmStore.Crashes
import LsmStore.CrashSafety
import LsmStore.Sturdy
import LsmStore.Kept
import LsmStore.WriteAtomicity
import LsmStore.Reconstruction
import LsmStore.FlushCrash
import LsmStore.CompactionCrash
import LsmStore.KeptRuns
import LsmStore.LevelIndex
import LsmStore.FailingRuns
import LsmStore.Transparency
import LsmStore.Scan
import LsmStore.ScanMerge
import LsmStore.ScanReads
import LsmStore.ScanStability
import LsmStore.ScanErrors
import LsmStore.Shadow
import LsmStore.FailedWrites
import LsmStore.OtherOptions
import LsmStore.Damage
import LsmStore.Twins
import LsmStore.DamagedReads
import LsmStore.QuietRuns
import LsmStore.Footprint
import LsmStore.CrashRuns
import LsmStore.Worker
