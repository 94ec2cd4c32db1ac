import Tinos.Lib.Bits
import Tinos.Lib.Word
import Tinos.Lib.Runs
import Tinos.Lib.Pool
import Tinos.Lib.Bytes
import Tinos.Lib.Radix
import Tinos.Lib.Tiling
import Tinos.Pmm
import Tinos.PmmFrames
import Tinos.PmmRuns
import Tinos.BootMap
import Tinos.Vmm
import Tinos.VmmTables
import Tinos.VmmMaps
import Tinos.VmmLarge
import Tinos.AcpiMap
import Tinos.AcpiSlots
import Tinos.AcpiWindow
import Tinos.Heap
import Tinos.HeapBlocks
import Tinos.HeapCalls
import Tinos.HeapResize
import Tinos.HeapClients
import Tinos.HeapLedger
import Tinos.HeapRuns
import Tinos.PmmLimits
import Tinos.VmmOwners
import Tinos.VmmCanonical
import Tinos.AcpiUndo
import Tinos.HeapFailures
import Tinos.HeapRecovery
import Tinos.HeapDoubleFree
import Tinos.AcpiEvent
import Tinos.AcpiPorts
import Tinos.Lib.Lanes
import Tinos.Pci
import Tinos.PciSpace
import Tinos.AcpiPci
import Tinos.Keyboard
import Tinos.Screen
import Tinos.ScreenLayout
import Tinos.Lib.Numeral
import Tinos.Printf
import Tinos.Console
import Tinos.Scanf
import Tinos.BootWalk
import Tinos.Lib.Cache
import Tinos.VmmTlb
import Tinos.VmmRights
