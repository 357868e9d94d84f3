import Rock.Exec
import Rock.Bitmap
import Rock.PmmModule
import Rock.Pmm
import Rock.PmmInit
import Rock.PmmMetadata
import Rock.TableTree
import Rock.Paging
import Rock.AddressSpace
import Rock.PageMap
import Rock.PagingBackends
import Rock.Notification
import Rock.Scheduler
import Rock.NotificationCalls
import Rock.FpuState
import Rock.Nesting
import Rock.GsBase
import Rock.Syscall
import Rock.SyscallResult
import Rock.Portal
import Rock.SharePoint
import Rock.PortalFailure
import Rock.Access
import Rock.Permissions
import Rock.PageFault
import Rock.PortalHistory
import Rock.Exhaustion
import Rock.PmmHint
import Rock.PmmFrames
import Rock.DirectMap
import Rock.MapRange
import Rock.MapOwned
import Rock.FaultFrames
import Rock.ShareBounds
import Rock.PortalDirect
import Rock.ShareLink
import Rock.Bytes
import Rock.SchedMeta
import Rock.SearchTree
import Rock.SchedServer
import Rock.SchedChoice
import Rock.SmpBoot
import Rock.Acpi
import Rock.Madt
import Rock.IoApic
import Rock.Elf
import Rock.ElfRead
import Rock.ElfAccept
import Rock.ElfLoad
import Rock.ElfRounds
import Rock.ElfPages
import Rock.ElfSegments
import Rock.ElfBss
import Rock.Containers
import Rock.ServerRegistry
import Rock.ServerLaunch
import Rock.ServerStack
import Rock.RefCount
import Rock.PortalDestroy
import Rock.PortalReturn
import Rock.UcontextPool
import Rock.LinkedList
import Rock.NotificationFifo
import Rock.NotificationOnce
import Rock.Stepwise
import Rock.Spinlock
import Rock.PmmThreads
import Rock.TableRace
import Rock.Interrupt
import Rock.PrivateMemory
import Rock.OpenTables
import Rock.Cores
import Rock.ServerStart
import Rock.Vectors
import Rock.Console
import Rock.Routing
