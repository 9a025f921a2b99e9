import NativeOS.Lib.Bytes
import NativeOS.Lib.Spans
import NativeOS.Lib.Tiling
import NativeOS.Lib.Bitmap
import NativeOS.Lib.Links
import NativeOS.Lib.Ring
import NativeOS.Lib.Multiplex
import NativeOS.Lib.Walk
import NativeOS.Lib.Forest
import NativeOS.Lib.Runs
import NativeOS.Mem.Heap
import NativeOS.Mem.HeapBlocks
import NativeOS.Mem.HeapChain
import NativeOS.Mem.HeapProofs
import NativeOS.Mem.HeapFit
import NativeOS.Mem.Paging
import NativeOS.Mem.Pmm
import NativeOS.Mem.PmmProofs
import NativeOS.Mem.PmmReserve
import NativeOS.Mem.PmmHeap
import NativeOS.Mem.PmmSurplus
import NativeOS.Stdkern.Strings
import NativeOS.Stdkern.LinkedList
import NativeOS.Stdkern.LinkedListProofs
import NativeOS.Stdkern.ListEmpty
import NativeOS.Stdkern.Ringbuf
import NativeOS.Stdkern.RingbufAlloc
import NativeOS.Stdkern.RingbufInterrupt
import NativeOS.Fs.Tar
import NativeOS.Fs.TarWalk
import NativeOS.Device.Vgafb
import NativeOS.Device.Vtcon
import NativeOS.Device.VtconProofs
import NativeOS.Lib.Codes
import NativeOS.Device.Keyboard
import NativeOS.Device.KeyboardProofs
import NativeOS.Fs.TarPaths
import NativeOS.Kern.Vnode
import NativeOS.Kern.Names
import NativeOS.Lib.Directory
import NativeOS.Kern.Devfs
import NativeOS.Fs.Tarfs
import NativeOS.Kern.Vfs
import NativeOS.Kern.VfsProofs
import NativeOS.Kern.FsPath
import NativeOS.Kern.TarFiles
import NativeOS.Kern.Fsops
import NativeOS.Kern.Boot
import NativeOS.Kern.BootProofs
import NativeOS.Fs.TarArchive
import NativeOS.Fs.TarEnds
import NativeOS.Fs.TarTree
import NativeOS.Fs.TarMount
import NativeOS.Kern.TarVolume
import NativeOS.Kern.Unmount
import NativeOS.Mem.PmmExhaust
import NativeOS.Kern.Malformed
import NativeOS.Kern.TarRead
import NativeOS.Device.RingRead
import NativeOS.Device.Uart
import NativeOS.Device.ConsoleNodes
import NativeOS.Device.Modifiers
import NativeOS.Device.KeyArray
import NativeOS.Device.Paper
import NativeOS.Fs.TarBounds
import NativeOS.Fs.TarBuilds
import NativeOS.Fs.TarForest
import NativeOS.Fs.TarHeap
import NativeOS.Fs.TarImage
import NativeOS.Fs.TarDir
import NativeOS.Fs.TarRoot
import NativeOS.Lib.Digits
import NativeOS.Lib.Text
import NativeOS.Lib.Dict
import NativeOS.Kern.Ramdisk
import NativeOS.Device.VgafbWindow
import NativeOS.Device.Pctimer
import NativeOS.Device.Rtclock
import NativeOS.Stdkern.StringCopies
import NativeOS.Stdkern.StringOrder
import NativeOS.Stdkern.StringSplit
import NativeOS.Tools.KconsParser
import NativeOS.Tools.Profile
import NativeOS.Tools.Makefile
import NativeOS.Tools.LineWrapping
import NativeOS.Fs.TarSize
import NativeOS.Device.WriteNumber
import NativeOS.Lib.LastWord
import NativeOS.Lib.Mutex
import NativeOS.Tools.FileList
import NativeOS.Tools.Template
import NativeOS.Tools.ReadBack
import NativeOS.Tools.Context
import NativeOS.Kern.Spinlock
import NativeOS.Mem.HeapThreads
import NativeOS.Lib.Pic
import NativeOS.Cpu.Idt
import NativeOS.Lib.Stack
import NativeOS.Cpu.Isr
import NativeOS.Device.Terminals
