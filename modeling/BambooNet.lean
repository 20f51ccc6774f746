import BambooNet.Agent.AppCertLatch
import BambooNet.Agent.CapabilityPatches
import BambooNet.Agent.CloudNotify
import BambooNet.Agent.CoverCache
import BambooNet.Agent.HmsFilter
import BambooNet.Agent.IpcamFile
import BambooNet.Agent.NetAddress
import BambooNet.Agent.ReportFields
import BambooNet.Agent.Rescue
import BambooNet.Agent.VersionCompare
import BambooNet.Camera.AccessUnits
import BambooNet.Camera.JpegDimensions
import BambooNet.Camera.OneTrack
import BambooNet.Camera.ReceiverReport
import BambooNet.Camera.RtpLoss
import BambooNet.Camera.TutkUrl
import BambooNet.Cloud.AuthFile
import BambooNet.Cloud.ExternalSpool
import BambooNet.Cloud.HeaderRedaction
import BambooNet.Cloud.Presets
import BambooNet.Cloud.Subscriptions
import BambooNet.Config.FixesSettle
import BambooNet.Ftps.Aligned
import BambooNet.Ftps.ListDate
import BambooNet.Ftps.ReplyFraming
import BambooNet.Json.RoundTrip
import BambooNet.Lan.BindFrame
import BambooNet.Lan.Discovery
import BambooNet.Lan.PrinterKeys
import BambooNet.Lan.RegistryKept
import BambooNet.Lan.RemoteName
import BambooNet.Lan.TransferShutdown
import BambooNet.Lib.JsonPatch
import BambooNet.Lib.JsonReading
import BambooNet.Signing.Blocks
import BambooNet.Signing.Envelope
import BambooNet.Signing.KeyBlob
import BambooNet.Tunnel.ChunkedUpload
import BambooNet.Tunnel.CtrlWorker
import BambooNet.Tunnel.CtrlWrap
import BambooNet.Tunnel.Frame
import BambooNet.Tunnel.FtpsDownload
import BambooNet.Tunnel.MetadataValue
import BambooNet.Tunnel.StorageList
import BambooNet.Tunnel.TaskCancel
import BambooNet.Tunnel.TitleMatch
import BambooNet.Tutk.DeliverBounds
import BambooNet.Tutk.DtlsRecord
import BambooNet.Tutk.FrameOrder
import BambooNet.Tutk.LegacyAssembler
import BambooNet.Tutk.Lossless
import BambooNet.Tutk.ServerHello
import BambooNet.Tutk.TransCode
import BambooNet.Zip.ReadArchive
