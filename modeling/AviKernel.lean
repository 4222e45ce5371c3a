import AviKernel.Memory.HeapAccesses
import AviKernel.Memory.HeapContents
import AviKernel.Memory.HeapOrder
import AviKernel.Memory.HeapPages
import AviKernel.Memory.HeapPaging
import AviKernel.Memory.PhysicalBounds
import AviKernel.Memory.PhysicalPlacement
import AviKernel.Memory.PhysicalRegions
import AviKernel.Memory.PhysicalWalks
import AviKernel.Memory.VirtualWindow
import AviKernel.Fs.Coherence
import AviKernel.Fs.DevFsPaths
import AviKernel.Fs.DevFsSectors
import AviKernel.Fs.Fat32DirectoryEntry
import AviKernel.Fs.PathTrimming
import AviKernel.Drivers.IdeEncoding
import AviKernel.Drivers.IdeSectors
import AviKernel.Drivers.KeyboardPs2Driver
import AviKernel.Drivers.PciDriver
import AviKernel.Drivers.VgaTextScroll
import AviKernel.Drivers.VideoDriver
import AviKernel.Interrupts.Dispatch
import AviKernel.Libc.Itoa
import AviKernel.Libc.StringAliasing
import AviKernel.Libc.StringBounds
import AviKernel.Utils.BitmapLaws
import AviKernel.Utils.QueueNodes
import AviKernel.Utils.VectorAssignment
import AviKernel.Utils.VectorIndex
import AviKernel.Utils.VectorSort
import AviKernel.Libc.Printf
import AviKernel.Libc.PrintfTexts
import AviKernel.Libc.PrintfOutputs
import AviKernel.Libc.PrintfFormats
import AviKernel.Libc.PrintfArguments
import AviKernel.Libc.PrintfNumbers
import AviKernel.Libc.PrintfStrings
import AviKernel.Drivers.PicDriver
import AviKernel.Interrupts.Controllers
import AviKernel.Fs.StorageFiles
