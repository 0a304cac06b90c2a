import Shoreline.RingQueue
import Shoreline.LoopBounds
import Shoreline.Segmentation
import Shoreline.Progress
import Shoreline.Protocol
import Shoreline.MergeTiming
import Shoreline.NodeArrival
import Shoreline.Resizing
import Shoreline.FlatParser
import Shoreline.RoundTrip
import Shoreline.Settling
import Shoreline.ResizeRelease
import Shoreline.NumaQueues
import Shoreline.ApiThread
import Shoreline.ShutdownProgress
import Shoreline.DevicePicture
import Shoreline.PixelCount
import Shoreline.NodePinning
import Shoreline.ByteOrder
import Shoreline.Addressing
import Shoreline.ClearRect
import Shoreline.FbdevFrontend
import Shoreline.VncOverlay
import Shoreline.FlickerFree
import Shoreline.WorkqueueTeardown
import Shoreline.ListenTeardown
import Shoreline.FrontendOptions
import Shoreline.IncompleteCommand
import Shoreline.Shuffle
import Shoreline.PartialMerge
import Shoreline.Blending
import Shoreline.Units
import Shoreline.DrawBitmap
import Shoreline.FrontendTables
import Shoreline.FbdevLifeCycle
import Shoreline.Startup
