import BananaOS.Mm.SharedMemory
import BananaOS.Mm.Compress
import BananaOS.Vm.Placement
import BananaOS.Elf.Environment
import BananaOS.Sched.LoopContext
import BananaOS.Sched.Fork
import BananaOS.Proc.SignalMask
import BananaOS.Proc.SignalPerTask
import BananaOS.Proc.Parentage
import BananaOS.Proc.ChildExit
import BananaOS.Proc.SignalDelivery
import BananaOS.Proc.Nanosleep
import BananaOS.Fs.PipeIdentity
import BananaOS.Fs.LoopStreamSafety
import BananaOS.Fs.LineDiscipline
import BananaOS.Fs.FileLifetime
import BananaOS.Ext2.InodeAlloc
import BananaOS.Ext2.TruncateTree
import BananaOS.Ext2.FailedInsert
import BananaOS.Ext2.Getdents
import BananaOS.Net.Icmp
import BananaOS.Net.Udp
import BananaOS.Net.Address
import BananaOS.Core.Shell
import BananaOS.Mkfs.Pointers
