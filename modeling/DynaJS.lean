import DynaJS.Ds.BimapLost
import DynaJS.Ds.MmHeapRun
import DynaJS.Ds.Failed
import DynaJS.Roaring.Oom
import DynaJS.Resp.Prefix
import DynaJS.Resp.Reader
import DynaJS.Codec.SnappyMatch
import DynaJS.Timer.Run
import DynaJS.Dec.Money
import DynaJS.Dec.Sqrt
import DynaJS.Dec.Divmod
import DynaJS.Dec.Text
import DynaJS.Codec.Basex
import DynaJS.Semver.Sugar
import DynaJS.Db.TopK
import DynaJS.Db.Cuckoo
import DynaJS.Csv.Round
import DynaJS.Vser.Trip
import DynaJS.Approx.Levenshtein
import DynaJS.Graph.Relax
import DynaJS.Graph.AStar
import DynaJS.Approx.Optimal
import DynaJS.Diff.Minimal
import DynaJS.Ds.Heap
import DynaJS.Net.WsClient
import DynaJS.Net.DnsName
import DynaJS.Json.Nodes
import DynaJS.Archive.ZipTime
