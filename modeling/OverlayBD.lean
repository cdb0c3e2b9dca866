import OverlayBD.Lib.Intervals
import OverlayBD.Lib.IntervalMap
import OverlayBD.Lib.Runs
import OverlayBD.Lib.Bytes
import OverlayBD.Lib.Transition
import OverlayBD.Lib.Effect
import OverlayBD.Lib.Crash
import OverlayBD.Lib.Search
import OverlayBD.Lib.Seqlock
import OverlayBD.Format.Segment
import OverlayBD.Format.Merge
import OverlayBD.Format.MergeAccepted
import OverlayBD.Format.MergeTrail
import OverlayBD.Format.MergedRead
import OverlayBD.Format.MergedWritable
import OverlayBD.Format.MergedSnapshot
import OverlayBD.Format.SegmentEdit
import OverlayBD.Format.HeaderTrailer
import OverlayBD.Format.LsmtPair
import OverlayBD.Format.LsmtReplay
import OverlayBD.Format.RecordReplay
import OverlayBD.Format.HybridReplay
import OverlayBD.Format.LsmtPairOpen
import OverlayBD.Format.LsmtLog
import OverlayBD.Format.LsmtGrow
import OverlayBD.Format.LsmtJournal
import OverlayBD.Format.LsmtRw
import OverlayBD.Format.LsmtRwContent
import OverlayBD.Format.LsmtRwJournal
import OverlayBD.Format.LsmtRecovery
import OverlayBD.Format.LsmtLedger
import OverlayBD.Format.LsmtResidue
import OverlayBD.Format.LsmtGrowCrash
import OverlayBD.Format.LsmtFlushCrash
import OverlayBD.Format.LsmtDurable
import OverlayBD.Format.LsmtLayer
import OverlayBD.Format.LsmtStack
import OverlayBD.Format.MergedImage
import OverlayBD.Format.Device
import OverlayBD.Format.LsmtDevice
import OverlayBD.Format.MergedPublished
import OverlayBD.Format.SparseScan
import OverlayBD.Format.SparseCoverage
import OverlayBD.Format.LayerFile
import OverlayBD.Format.SingleLayer
import OverlayBD.Format.Trace
import OverlayBD.Format.ZFile
import OverlayBD.Format.ZFileJump
import OverlayBD.Format.ZFileLayout
import OverlayBD.Format.ZFileRead
import OverlayBD.Format.ZFileWriter
import OverlayBD.Format.ZFileRoundTrip
import OverlayBD.Image.TraceRecord
import OverlayBD.Image.TraceOwner
import OverlayBD.Source.LayerStoreRead
import OverlayBD.Source.LayerStorePresence
import OverlayBD.Source.LayerStoreGeneration
import OverlayBD.Source.LayerStorePopulate
import OverlayBD.Source.Admission
import OverlayBD.Source.AdmissionWaiters
import OverlayBD.Source.AdmissionSafety
import OverlayBD.Supervisor.TraceStatus
import OverlayBD.Supervisor.DeviceCommand
import OverlayBD.Tools.Ext2Blocks
import OverlayBD.Ublk.TagEngine
import OverlayBD.Ublk.TagConsistency
import OverlayBD.Ublk.TagLedger
import OverlayBD.Ublk.ExactlyOnce
import OverlayBD.Ublk.StartupControl
import OverlayBD.Ublk.StartupRelease
import OverlayBD.Ublk.StartupSettled
import OverlayBD.Ublk.StartupStream
import OverlayBD.Ublk.OwnerPump
import OverlayBD.Ublk.OwnerPumpBatch
import OverlayBD.Ublk.OwnerPumpWake
import OverlayBD.Ublk.RawLedger
