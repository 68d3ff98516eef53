import Owmice.Memory
import Owmice.Runs
import Owmice.Tiling
import Owmice.Heap
import Owmice.HeapChain
import Owmice.HeapOps
import Owmice.HeapRun
import Owmice.HeapTags
import Owmice.KernelHeap
import Owmice.KernelHeapRun
import Owmice.Bitmap
import Owmice.Frames
import Owmice.CString
import Owmice.Initrd
import Owmice.Keyboard
import Owmice.Ramdisk
import Owmice.TerminalPage
import Owmice.Logged
import Owmice.TerminalBounds
import Owmice.Listing
import Owmice.PmemInit
import Owmice.LineEditor
import Owmice.Echo
import Owmice.Handover
import Owmice.Paging
import Owmice.HeapFit
import Owmice.HeapCounters
import Owmice.HeapCoalesce
import Owmice.RamdiskTrip
import Owmice.FrameCounts
import Owmice.MemMove
import Owmice.Exec
import Owmice.BootLayout
import Owmice.BootFrames
import Owmice.Printf
import Owmice.FileReading
import Owmice.Tokens
import Owmice.Autostart
import Owmice.Drawing
import Owmice.StatusBar
import Owmice.HeapServe
import Owmice.InitrdHeap
import Owmice.FrameRuns
import Owmice.Shift
import Owmice.Trim
import Owmice.Ata
import Owmice.Links
import Owmice.Calendar
import Owmice.Clock
import Owmice.Tasks
import Owmice.TaskRing
import Owmice.RangeMapping
import Owmice.Integers
import Owmice.X86
import Owmice.TaskSwitch
import Owmice.Multitasking
import Owmice.Interrupts
import Owmice.SystemCalls
import Owmice.Disk
import Owmice.Random
import Owmice.Timer
import Owmice.Words
import Owmice.Card
import Owmice.Vga
import Owmice.CardTerminal
import Owmice.CardScreen
