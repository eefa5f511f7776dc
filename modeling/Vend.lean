import Vend.Common.Config
import Vend.Common.Layout
import Vend.Lib.BestSearch
import Vend.Lib.WidestRun
import Vend.Lib.OrderedSearch
import Vend.Lib.Vbyte
import Vend.Lib.BinarySearch
import Vend.Lib.BitField
import Vend.Lib.BucketOrder
import Vend.Lib.CountingFilter
import Vend.Lib.DecimalText
import Vend.Lib.GapCost
import Vend.Lib.GroupVarint
import Vend.Lib.LevelTree
import Vend.Lib.Run
import Vend.Lib.SlotCount
import Vend.Util.BitSetSIMD
import Vend.Util.BlockStore
import Vend.Dbengine.RocksDb
import Vend.Graph.Graph
import Vend.Graph.GraphStore
import Vend.Graph.LoadData
import Vend.Encode.HashCount
import Vend.Encode.Verdict
import Vend.Encode.HybridEncode
import Vend.Encode.HybridUpdate
import Vend.Encode.RangeEncode
import Vend.Encode.RangeUpdate
import Vend.Encode.RangeDelete
import Vend.Encode.RangeWindow
import Vend.Encode.RangeCompEncode
import Vend.Encode.Compression
import Vend.Encode.BitsComp
import Vend.Encode.VbyteComp
import Vend.Encode.VbyteDeltaComp
import Vend.Encode.FullRecords
import Vend.Encode.BitHashEncode
import Vend.Encode.BitHashUpdate
import Vend.Encode.BloomEncode
import Vend.Encode.CountEncode
import Vend.Encode.BFilterEncode
import Vend.Encode.BFilterIntEncode
import Vend.Encode.BBFilterEncode
import Vend.Encode.CBFilterEncode
import Vend.Encode.CodecTables
import Vend.Encode.DeltaSIMDCodec
import Vend.Encode.DeltaSIMDEncode
import Vend.Encode.SearchTree
import Vend.Encode.SearchTreeLinks
import Vend.Encode.SearchTreeOrder
import Vend.Encode.ScalarSearch
import Vend.Encode.LinearSearch
import Vend.Encode.ByteLength
import Vend.Encode.DeltaSIMDEncodeV3
import Vend.Encode.BlockSearch
import Vend.Encode.ScoreCount
import Vend.Encode.ScoreProducts
import Vend.Encode.SlotScore
import Vend.Encode.SlidingCount
import Vend.Encode.HybridVerdict
import Vend.Encode.HybridSlots
import Vend.Encode.Rewrite
import Vend.Encode.HeaderV3
import Vend.Encode.ReadBack
import Vend.Encode.DeltaSIMDUpdate
import Vend.Vend.Covering
import Vend.Vend.BucketPeeling
import Vend.Vend.ForestPeeling
import Vend.Vend.RangeVend
import Vend.Vend.BloomVend
import Vend.Vend.FilterVend
import Vend.Vend.CountVend
import Vend.Vend.DbRangeVend
import Vend.Vend.HybridVend
import Vend.Vend.DirectedHybVend
import Vend.Vend.PeelBounds
import Vend.Vend.WorklistPeeling
import Vend.Vend.DeltaSIMDVend
import Vend.Vend.DeltaSIMDVendV3
import Vend.Vend.DirSIMDVend
import Vend.Vend.PeelOrder
import Vend.Vend.Persistence
import Vend.Encode.VarintCodec
import Vend.Graph.SaveData
import Vend.Vend.CoreVerdict
import Vend.Vend.RangeCompVend
import Vend.Vend.BFilterBitVend
import Vend.Vend.HybridSIMD
import Vend.Vend.VendFactory
import Vend.Vend.RecordVend
import Vend.Vend.BFilterIntVend
import Vend.Execution.PairList
import Vend.Execution.QueryExecution
import Vend.Execution.Experiment
import Vend.Execution.Main
