import WvStreams.UniConf.Transaction.TrailingSlash
import WvStreams.UniConf.IniGen.RoundTrip
import WvStreams.UniConf.Filter.BulkSet
import WvStreams.UniConf.Filter.FastRegetGen
import WvStreams.UniConf.CacheGen
import WvStreams.UniConf.ListGen
import WvStreams.UniConf.ReplicateGen
import WvStreams.UniConf.Mounting.Agree
import WvStreams.UniConf.Mounting.Mirror
import WvStreams.UniConf.Root
import WvStreams.Buffers.BufCursor
import WvStreams.UniConf.Wire.Session
import WvStreams.Streams.Traffic
import WvStreams.Processes.SubProcQueue.SyncPoint
import WvStreams.DBus.Pending
import WvStreams.DBus.ReceiveLoop
import WvStreams.DBus.Server
import WvStreams.UrlGet.Delivery
import WvStreams.Buffers.MagicCircle
import WvStreams.Components.Moniker
import WvStreams.Components.Args
import WvStreams.Streams.IStreamList
import WvStreams.UrlGet.Queues
import WvStreams.ConfigFile.Emulates
import WvStreams.Strings.TclPasses
import WvStreams.Buffers.Merge
import WvStreams.Strings.TclGetword
import WvStreams.Streams.Log
import WvStreams.Codecs.OutputLimit
import WvStreams.UniConf.IniGen.Reload
import WvStreams.UniConf.ListIter
import WvStreams.UniConf.KeyMatches
import WvStreams.UniConf.CompositeRefresh
import WvStreams.Strings.UrlEncode
import WvStreams.Strings.SizeToA
import WvStreams.UniConf.KeyStore.Printable
import WvStreams.UniConf.DefGen
import WvStreams.Files.DirCalls
import WvStreams.Files.GlobMatches
import WvStreams.UrlGet.FtpTransfer
import WvStreams.Time.MsecDiff
import WvStreams.Containers.Matrix
import WvStreams.ConfigFile.Inherits
import WvStreams.IPStreams.AddrText
import WvStreams.IPStreams.Url
import WvStreams.Crypto.CounterMode
import WvStreams.Codecs.WordWrap
import WvStreams.Codecs.Serialize
import WvStreams.Strings.MaskArray
import WvStreams.Streams.DailyEvent
import WvStreams.Buffers.Compact
import WvStreams.Containers.Attrs
import WvStreams.Containers.LinkList
import WvStreams.UniConf.DeltaQueue
import WvStreams.UniConf.RetryGen
import WvStreams.UniConf.CopyMove
import WvStreams.Streams.LogRcv
import WvStreams.Streams.EncoderStream.Tunnel
