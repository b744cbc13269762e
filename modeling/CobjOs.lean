import CobjOs.Properties.AddressSpaces
import CobjOs.Properties.ArchiveResolution
import CobjOs.Properties.ArchiveWalk
import CobjOs.Properties.ArgumentBlock
import CobjOs.Properties.ArgumentSplitting
import CobjOs.Properties.Atomicity
import CobjOs.Properties.CalendarTime
import CobjOs.Properties.ConsoleDrawing
import CobjOs.Properties.Delivery
import CobjOs.Properties.DirectoryListing
import CobjOs.Properties.DrivePrefix
import CobjOs.Properties.ElfImage
import CobjOs.Properties.ExitWakeup
import CobjOs.Properties.FailedSpawn
import CobjOs.Properties.FileStreams
import CobjOs.Properties.FormattedNumbers
import CobjOs.Properties.FormattedText
import CobjOs.Properties.FrameOwnership
import CobjOs.Properties.Framebuffer
import CobjOs.Properties.HeapRegions
import CobjOs.Properties.HeapRequests
import CobjOs.Properties.KernelHeap
import CobjOs.Properties.Keyboard
import CobjOs.Properties.MappedRegions
import CobjOs.Properties.MappingPlacement
import CobjOs.Properties.MemoryIsolation
import CobjOs.Properties.MemoryRoutines
import CobjOs.Properties.NodeAccounting
import CobjOs.Properties.NodeLifetime
import CobjOs.Properties.NumberText
import CobjOs.Properties.Operations
import CobjOs.Properties.OutputBuffers
import CobjOs.Properties.PageAllocation
import CobjOs.Properties.PageEntries
import CobjOs.Properties.PathJoin
import CobjOs.Properties.PhysicalPages
import CobjOs.Properties.PortOwnership
import CobjOs.Properties.PortTable
import CobjOs.Properties.PortTokens
import CobjOs.Properties.ProcessIds
import CobjOs.Properties.ProcessLifetime
import CobjOs.Properties.Reaping
import CobjOs.Properties.Reasons
import CobjOs.Properties.ReceiveWakeup
import CobjOs.Properties.RunQueue
import CobjOs.Properties.Running
import CobjOs.Properties.SchedulingOrder
import CobjOs.Properties.UserCopies
import CobjOs.Properties.UserHeap
import CobjOs.Properties.WorkingDirectory
