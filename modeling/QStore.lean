import QStore.Approx.Buffers
import QStore.Graph.Conn
import QStore.Graph.ConnComp
import QStore.ExactUnique.Put
import QStore.Hmap.Divinfo
import QStore.Hmap.NewSize
import QStore.Hmap.RowDmp
import QStore.Hmap.Spread
import QStore.Hmap.PslWrap
import QStore.Hmap.Resize
import QStore.Magg.Run
import QStore.Cntr.Condense
import QStore.Csv.CellText
import QStore.Csv.NullCell
import QStore.Csv.Progress
import QStore.Csv.WholeText
import QStore.Csv.PrintLoad
import QStore.Operators.BinProbe
import QStore.Operators.BinSorted
import QStore.Operators.DrgSorted
import QStore.Operators.Getk
import QStore.Operators.GetkMerge
import QStore.Operators.GroupBySums
import QStore.Operators.IdxByVal
import QStore.Operators.Isby
import QStore.Operators.JoinEdges
import QStore.Operators.JoinGather
import QStore.Operators.MkCompKeyVal
import QStore.Operators.Pack
import QStore.Operators.Permute
import QStore.Operators.PositiveSystem
import QStore.Operators.SelectRanges
import QStore.Operators.Unique
import QStore.Operators.Vshift
import QStore.Operators.Where
import QStore.Vctr.Kill
import QStore.Vctr.L2FileName
import QStore.Vctr.LmaChunks
import QStore.Vctr.Print
import QStore.Vctr.PrintRange
import QStore.Vctr.SetLma
import QStore.Vctr.PutGet
import QStore.Vctr.BulkPut
import QStore.Vctr.FailedPut
import QStore.Vctr.EarlyFree
import QStore.Vctr.Exclusion
import QStore.Vctr.Conjoin
import QStore.Vctr.MemUsed
import QStore.Vctr.Recast
import QStore.Dt.Shape
import QStore.Dt.Check
import QStore.Dt.BestSplit
import QStore.Dt.Buffered
import QStore.Dt.ReorderIsp
import QStore.Vctr.ChnkCheck
import QStore.Vctr.Clone
import QStore.Approx.Frequent
import QStore.Vctr.TierRun
import QStore.Magg.Batch
import QStore.Magg.Chk
import QStore.Operators.FToS
import QStore.Operators.Carry
import QStore.Operators.Repeater
import QStore.Vctr.VctrChk
import QStore.Dt.CheckTree
import QStore.Operators.Concat
import QStore.Operators.ValByIdx
import QStore.Operators.SToF
import QStore.Operators.Fold
import QStore.Hmap.Chk
import QStore.Cntr.MapOut
