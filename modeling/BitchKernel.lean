import BitchKernel.Lib.Machine
import BitchKernel.Lib.Word
import BitchKernel.Lib.Loop
import BitchKernel.Lib.Bitmap
import BitchKernel.Lib.Bytes
import BitchKernel.Lib.DList
import BitchKernel.Lib.Ring
import BitchKernel.Lib.DownScan
import BitchKernel.Lib.TwoRun
import BitchKernel.Lib.Chain
import BitchKernel.Lib.Scanner
import BitchKernel.Lib.Flag
import BitchKernel.Def
import BitchKernel.CString
import BitchKernel.Mm.Pmm
import BitchKernel.Mm.PmmSpec
import BitchKernel.Mm.PmmSafety
import BitchKernel.Mm.PmmFresh
import BitchKernel.Mm.PmmComplete
import BitchKernel.Mm.Kmm
import BitchKernel.Mm.Vmm
import BitchKernel.Mm.Umm
import BitchKernel.Mm.VmmSpec
import BitchKernel.Mm.VmmAtomic
import BitchKernel.Mm.VmmSafety
import BitchKernel.Mm.UmmOwner
import BitchKernel.Mm.UmmSpec
import BitchKernel.Mm.UmmSafety
import BitchKernel.Mm.UmmWindow
import BitchKernel.Mm.WindowTrace
import BitchKernel.Mm.UmmCheck
import BitchKernel.Mm.UmmLife
import BitchKernel.Mm.UmmOpen
import BitchKernel.Mm.UmmTwin
import BitchKernel.Mm.UmmFault
import BitchKernel.Mm.UmmTeardown
import BitchKernel.Mm.UmmMap
import BitchKernel.Mm.Alloc
import BitchKernel.Mm.AllocBlock
import BitchKernel.Mm.AllocSafety
import BitchKernel.Dev.Disk
import BitchKernel.Dev.DiskRequest
import BitchKernel.Dev.Part
import BitchKernel.Dev.PartSafety
import BitchKernel.Dev.PartRegion
import BitchKernel.Dev.PartEnds
import BitchKernel.Dev.PartChain
import BitchKernel.Dev.DiskRemove
import BitchKernel.Dev.Ata
import BitchKernel.Dev.AtaRead
import BitchKernel.Dev.AtaWrite
import BitchKernel.Dev.AtaTaskFile
import BitchKernel.Dev.AtaRace
import BitchKernel.Dev.AtaHandshake
import BitchKernel.Dev.Keyboard
import BitchKernel.Dev.KeyModifier
import BitchKernel.Dev.Console
import BitchKernel.Dev.Terminal
import BitchKernel.Process.Process
import BitchKernel.Process.Switch
import BitchKernel.Process.Decision
import BitchKernel.Process.Sleep
import BitchKernel.Process.RingSafety
import BitchKernel.Process.LockSafety
import BitchKernel.Process.KeyGet
import BitchKernel.Process.KeySafety
import BitchKernel.Process.Exec
import BitchKernel.Fs.Fat
import BitchKernel.Fs.FatInit
import BitchKernel.Fs.FatRead
import BitchKernel.Fs.FatAddress
import BitchKernel.Fs.FatDir
import BitchKernel.Fs.FatReaddir
import BitchKernel.Fs.FatChain
import BitchKernel.Fs.FatRun
import BitchKernel.Fs.FatList
import BitchKernel.Fs.FatOpen
import BitchKernel.Fs.FatPath
import BitchKernel.Fs.FatHalt
import BitchKernel.Fs.FatEntry
import BitchKernel.Fs.FatScan
import BitchKernel.Fs.FatBounds
import BitchKernel.Fs.FatTwin
import BitchKernel.Binfmt.Elf
import BitchKernel.Binfmt.ElfShort
import BitchKernel.Binfmt.PathLife
import BitchKernel.Binfmt.Image
import BitchKernel.Syscall.Put
import BitchKernel.Syscall.Exec
import BitchKernel.Arch.Descriptor
import BitchKernel.Printk.Number
import BitchKernel.Printk.NumberText
import BitchKernel.Printk.Format
import BitchKernel.Printk.FormatScan
import BitchKernel.Printk.FormatRun
import BitchKernel.Printk.Text
import BitchKernel.Binfmt.Messages
import BitchKernel.Dev.AtaPort
import BitchKernel.Arch.Paging
import BitchKernel.Mm.KernelHalf
import BitchKernel.Mm.UserSpace
import BitchKernel.Lib.X86
import BitchKernel.Process.SwitchCode
import BitchKernel.Process.SwitchRun
import BitchKernel.Process.UserMode
import BitchKernel.Intr.Stub
import BitchKernel.Intr.Preempt
import BitchKernel.Lib.Custody
import BitchKernel.Process.LoadPde
import BitchKernel.Intr.I8259
import BitchKernel.Intr.Idt
import BitchKernel.Mm.AllocVmm
import BitchKernel.Mm.AllocFrames
import BitchKernel.Mm.Mmap
import BitchKernel.Dev.AtaInit
