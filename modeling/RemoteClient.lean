import RemoteClient.Lib.Exec
import RemoteClient.Lib.Bytes
import RemoteClient.Lib.BitTable
import RemoteClient.Lib.Blocks
import RemoteClient.Grf.Des
import RemoteClient.Grf.DesInverse
import RemoteClient.Encoding
import RemoteClient.Grf.Types
import RemoteClient.Grf.Header
import RemoteClient.Grf.Table
import RemoteClient.Grf.Ciphers
import RemoteClient.Grf.Protected
import RemoteClient.Grf.Archive
import RemoteClient.Grf.NoPanic
import RemoteClient.Grf.ModernTable
import RemoteClient.Grf.LegacyTable
import RemoteClient.Grf.Detection
import RemoteClient.Grf.Writer
import RemoteClient.Grf.WriterInverse
import RemoteClient.Grf.Placed
import RemoteClient.Grf.RoundTrip
import RemoteClient.Grf.DeclaredSize
import RemoteClient.Index
import RemoteClient.Spellings
import RemoteClient.Lib.Lru
import RemoteClient.Cache
import RemoteClient.CacheRuns
import RemoteClient.Freshness
import RemoteClient.WsProxy
import RemoteClient.Lib.Interleave
import RemoteClient.Lib.Trail
import RemoteClient.Paths
import RemoteClient.Http
import RemoteClient.Server
import RemoteClient.Client
import RemoteClient.Routes
import RemoteClient.Sharing
import RemoteClient.Safety
import RemoteClient.StaticFiles
import RemoteClient.Etags
import RemoteClient.Listing
import RemoteClient.Remote
import RemoteClient.Reports
import RemoteClient.Naming
import RemoteClient.Router
import RemoteClient.Accept
import RemoteClient.Control
import RemoteClient.Shutdown
import RemoteClient.WsDelivery
import RemoteClient.Sources
import RemoteClient.Copies
import RemoteClient.Origins
import RemoteClient.Progress
import RemoteClient.Lib.FileWrite
import RemoteClient.Extraction
import RemoteClient.Readings
import RemoteClient.Grf.Generate
import RemoteClient.Grf.CipherInverse
import RemoteClient.Grf.ProtectedInverse
import RemoteClient.Grf.KeyBlock
import RemoteClient.Grf.ProtectedArchive
import RemoteClient.Misses
import RemoteClient.Absences
import RemoteClient.Calendar
import RemoteClient.Revalidation
import RemoteClient.Confirmations
import RemoteClient.Lib.Utf8
import RemoteClient.Lib.Lines
import RemoteClient.Lib.Text
import RemoteClient.AppProxy
import RemoteClient.ProxiedAnswers
import RemoteClient.Forwarding
import RemoteClient.Relayed
import RemoteClient.Lib.DotSegments
import RemoteClient.Containment
import RemoteClient.Conventions
import RemoteClient.Lib.StableSort
import RemoteClient.DataIni
import RemoteClient.Lib.Base64
import RemoteClient.Packed
import RemoteClient.Payloads
import RemoteClient.Settings
import RemoteClient.Validator
import RemoteClient.Startup
import RemoteClient.WsSessions
import RemoteClient.Signatures
import RemoteClient.Managed
import RemoteClient.Batches
import RemoteClient.Searches
import RemoteClient.Warming
import RemoteClient.Windows1252
