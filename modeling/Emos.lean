import Emos.Basic
import Emos.Boot.Afs.Impl.Afs
import Emos.Boot.Afs.Lemmas.Afs
import Emos.Boot.Block.Impl.Ata
import Emos.Boot.Block.Lemmas.Ata
import Emos.Boot.Bootemos.Impl.Main
import Emos.Boot.Bootemos.Lemmas.Entry
import Emos.Boot.Bootemos.Lemmas.Fill
import Emos.Boot.Bootemos.Lemmas.Load
import Emos.Boot.Bootemos.Lemmas.Table
import Emos.Boot.Console.Impl.Ansiterm
import Emos.Boot.Console.Impl.Csi
import Emos.Boot.Console.Impl.Write
import Emos.Boot.Console.Lemmas.Bounds
import Emos.Boot.Console.Lemmas.Cursor
import Emos.Boot.Console.Lemmas.Erase
import Emos.Boot.Console.Lemmas.Params
import Emos.Boot.Console.Lemmas.Utf8
import Emos.Boot.Core.Impl.Path
import Emos.Boot.Core.Lemmas.Normalize
import Emos.Boot.Core.Lemmas.Path
import Emos.Boot.Device.Impl.Device
import Emos.Boot.Device.Lemmas.Device
import Emos.Boot.Device.Lemmas.Name
import Emos.Boot.Elf.Impl.Elf
import Emos.Boot.Elf.Lemmas.Load
import Emos.Boot.Fat.Impl.Directory
import Emos.Boot.Fat.Impl.Fat
import Emos.Boot.Fat.Impl.Mount
import Emos.Boot.Fat.Lemmas.Cache
import Emos.Boot.Fat.Lemmas.Directory
import Emos.Boot.Fat.Lemmas.Fat
import Emos.Boot.Fat.Lemmas.File
import Emos.Boot.Fat.Lemmas.Listing
import Emos.Boot.Fat.Lemmas.LongName
import Emos.Boot.Fat.Lemmas.Pending
import Emos.Boot.Fat.Lemmas.Reach
import Emos.Boot.Fat.Lemmas.Search
import Emos.Boot.Fat.Lemmas.Walk
import Emos.Boot.Font.Impl.Font
import Emos.Boot.Font.Lemmas.Font
import Emos.Boot.Getopt.Impl.Getopt
import Emos.Boot.Getopt.Lemmas.Getopt
import Emos.Boot.Getopt.Lemmas.Options
import Emos.Boot.Guishell.Impl.Cursor
import Emos.Boot.Guishell.Impl.Draw
import Emos.Boot.Guishell.Lemmas.Circle
import Emos.Boot.Guishell.Lemmas.Cubic
import Emos.Boot.Guishell.Lemmas.Cursor
import Emos.Boot.Guishell.Lemmas.Curve
import Emos.Boot.Guishell.Lemmas.Line
import Emos.Boot.Guishell.Lemmas.Polygon
import Emos.Boot.Hid.Impl.Hid
import Emos.Boot.Hid.Impl.Ps2Keyboard
import Emos.Boot.Hid.Lemmas.Hid
import Emos.Boot.Hid.Lemmas.Ps2Keyboard
import Emos.Boot.Iso9660.Impl.Iso9660
import Emos.Boot.Iso9660.Lemmas.Directory
import Emos.Boot.Iso9660.Lemmas.File
import Emos.Boot.Json.Impl.Json
import Emos.Boot.Json.Lemmas.Grammar
import Emos.Boot.Json.Lemmas.Json
import Emos.Boot.Json.Lemmas.Parse
import Emos.Boot.Json.Lemmas.Safety
import Emos.Boot.Json.Lemmas.Token
import Emos.Boot.Json.Lemmas.Value
import Emos.Boot.Mm.Impl.Mm
import Emos.Boot.Mm.Lemmas.AllOrNothing
import Emos.Boot.Mm.Lemmas.Mm
import Emos.Boot.Mm.Lemmas.Pma
import Emos.Boot.Module.Impl.Module
import Emos.Boot.Module.Lemmas.Metadata
import Emos.Boot.Module.Lemmas.Relocate
import Emos.Boot.Part.Impl.Part
import Emos.Boot.Part.Lemmas.Gpt
import Emos.Boot.Part.Lemmas.Mbr
import Emos.Boot.Part.Lemmas.Part
import Emos.Boot.Registry.Impl.Registry
import Emos.Boot.Registry.Lemmas.Registry
import Emos.Boot.Shell.Impl.Shell
import Emos.Boot.Shell.Impl.Variable
import Emos.Boot.Shell.Lemmas.Parse
import Emos.Boot.Shell.Lemmas.Shell
import Emos.Boot.Shell.Lemmas.Variable
import Emos.Boot.Stdc.Impl.Stdio
import Emos.Boot.Stdc.Impl.String
import Emos.Boot.Stdc.Impl.Time
import Emos.Boot.Stdc.Lemmas.Memmove
import Emos.Boot.Stdc.Lemmas.Standard
import Emos.Boot.Stdc.Lemmas.Stdio
import Emos.Boot.Stdc.Lemmas.String
import Emos.Boot.Stdc.Lemmas.Strtok
import Emos.Boot.Stdc.Lemmas.Strtol
import Emos.Boot.Stdc.Lemmas.Time
import Emos.Boot.Video.Impl.Vconsole
import Emos.Boot.Video.Impl.Vga
import Emos.Boot.Video.Lemmas.Color
import Emos.Boot.Video.Lemmas.Console
import Emos.Boot.Video.Lemmas.Framebuffer
import Emos.Boot.Video.Lemmas.Layout
import Emos.BootInfo.Basic
import Emos.Fat.Basic
import Emos.Fat.Lemmas.Geometry
import Emos.Fat.Lemmas.Safety
import Emos.Kernel.Fat.Impl.Mount
import Emos.Kernel.Fat.Impl.Util
import Emos.Kernel.Fat.Lemmas.Discipline
import Emos.Kernel.Fat.Lemmas.Util
import Emos.Kernel.Init.Impl.BootInfo
import Emos.Kernel.Init.Lemmas.Handoff
import Emos.Kernel.Isr.Impl.Isr
import Emos.Kernel.Isr.Impl.Nesting
import Emos.Kernel.Isr.Lemmas.Isr
import Emos.Kernel.Isr.Lemmas.Nesting
import Emos.Kernel.Liballoc.Impl.Liballoc
import Emos.Kernel.Liballoc.Lemmas.Heap
import Emos.Kernel.Liballoc.Lemmas.Malloc
import Emos.Kernel.Liballoc.Lemmas.Place
import Emos.Kernel.Liballoc.Lemmas.Platform
import Emos.Kernel.Liballoc.Lemmas.Runs
import Emos.Kernel.Liballoc.Lemmas.System
import Emos.Kernel.Mm.Impl.Mm
import Emos.Kernel.Mm.Impl.Pma
import Emos.Kernel.Mm.Lemmas.AllOrNothing
import Emos.Kernel.Mm.Lemmas.Mm
import Emos.Kernel.Mm.Lemmas.Page
import Emos.Kernel.Mm.Lemmas.Pma
import Emos.Kernel.Mm.Lemmas.PmaFirstFit
import Emos.Kernel.Mm.Lemmas.PmaHistory
import Emos.Kernel.Mm.Lemmas.PmaInit
import Emos.Kernel.Mm.Lemmas.PmaPlace
import Emos.Kernel.Mm.Lemmas.PmaReserve
import Emos.Kernel.Mm.Lemmas.Request
import Emos.Kernel.Mm.Lemmas.Translation
import Emos.Kernel.Mm.Lemmas.Vma
import Emos.Kernel.Mutex.Impl.Mutex
import Emos.Kernel.Mutex.Impl.Spinlock
import Emos.Kernel.Mutex.Lemmas.Exclusion
import Emos.Kernel.Mutex.Lemmas.Spinlock
import Emos.Kernel.Mutex.Lemmas.WaitQueue
import Emos.Kernel.Mutex.Lemmas.Wakeup
import Emos.Kernel.Preemption.Impl.Calls
import Emos.Kernel.Preemption.Lemmas.Nesting
import Emos.Kernel.Preemption.Lemmas.Phase
import Emos.Kernel.Stdc.Impl.Spec
import Emos.Kernel.Stdc.Impl.Vsnprintf
import Emos.Kernel.Stdc.Lemmas.Agree
import Emos.Kernel.Stdc.Lemmas.Number
import Emos.Kernel.Stdc.Lemmas.ReadBack
import Emos.Kernel.Stdc.Lemmas.Room
import Emos.Kernel.Stdc.Lemmas.Single
import Emos.Kernel.Thread.Impl.Calls
import Emos.Kernel.Thread.Impl.Maintain
import Emos.Kernel.Thread.Impl.Scheduler
import Emos.Kernel.Thread.Lemmas.Detach
import Emos.Kernel.Thread.Lemmas.Remove
import Emos.Kernel.Thread.Lemmas.RoundRobin
import Emos.Kernel.Thread.Lemmas.Settle
import Emos.Kernel.Thread.Lemmas.Stack
import Emos.Kernel.Thread.Lemmas.StackFailure
import Emos.Lib.Arena
import Emos.Lib.Ata
import Emos.Lib.Bitmap
import Emos.Lib.Buffer
import Emos.Lib.Bytes
import Emos.Lib.Chain
import Emos.Lib.Conversion
import Emos.Lib.Count
import Emos.Lib.Crc
import Emos.Lib.Critical
import Emos.Lib.Crumb
import Emos.Lib.Damage
import Emos.Lib.Decimal
import Emos.Lib.Fifo
import Emos.Lib.FirstFit
import Emos.Lib.Gregorian
import Emos.Lib.Json
import Emos.Lib.Line
import Emos.Lib.Links
import Emos.Lib.Loop
import Emos.Lib.Numeral
import Emos.Lib.Packed12
import Emos.Lib.Paging
import Emos.Lib.Record
import Emos.Lib.Ring
import Emos.Lib.Sparse
import Emos.Lib.Store
import Emos.Lib.Tokens
import Emos.Lib.Trace
import Emos.Tools.Afsimg.Impl.Afs
import Emos.Tools.Afsimg.Lemmas.Checksum
import Emos.Tools.Afsimg.Lemmas.Volume
import Emos.Tools.Hex2bfn.Impl.Main
import Emos.Tools.Hex2bfn.Lemmas.RoundTrip
import Emos.Tools.MkfsAfs.Impl.Main
import Emos.Tools.MkfsAfs.Lemmas.Bitmap
import Emos.Tools.MkfsAfs.Lemmas.Geometry
import Emos.Tools.MkfsAfs.Lemmas.Volume
