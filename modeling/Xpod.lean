import Xpod.Common.Sweep.Winner
import Xpod.LoadIp.IpClear
import Xpod.LoadIp.Bookkeeping
import Xpod.LoadIp.MergeInsertImp
import Xpod.LoadIp.Columns
import Xpod.LoadIp.IpTableCheck
import Xpod.LoadIp.CreateIndex
import Xpod.LoadIp.SqlTuples
import Xpod.LoadIp.DottedQuads
import Xpod.Nginx.NewLog
import Xpod.Nginx.HttpLog
import Xpod.Nginx.Compile
import Xpod.Nginx.Arguments
import Xpod.Nginx.MergedLogs
import Xpod.Storm.Record
import Xpod.Storm.Layout
import Xpod.Storm.RecordPath
import Xpod.Storm.Totals
import Xpod.Storm.LogSums
import Xpod.Storm.StrangeUrl
import Xpod.Storm.RowKeys
import Xpod.Storm.FinerDetail
import Xpod.Storm.IpStat
import Xpod.Storm.Sequence
import Xpod.Storm.Durations
import Xpod.Storm.UnknownAddress
import Xpod.DataSys.UserActions
import Xpod.DataSys.Isolation
import Xpod.DataSys.ActionCells
import Xpod.DataFormat.Rows
import Xpod.DataFormat.Atoi
import Xpod.DataFormat2.ParseMapper
import Xpod.DataFormat2.TypedColumns
import Xpod.PushToKafka.Pipeline
import Xpod.IpLookUp.Families
import Xpod.IpLookUp.Decoding
import Xpod.IpLookUp.Nodes
import Xpod.IpLookUp.MetadataMarker
import Xpod.IpLookUp.Termination
import Xpod.Hive.Splits
import Xpod.Hive.Streams
import Xpod.Hive.ChooseOne
import Xpod.Kafka.Serving
import Xpod.Kafka.Reports
import Xpod.Kafka.Order
import Xpod.Kafka.Recovery
