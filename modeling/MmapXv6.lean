import MmapXv6.Proc.Fifo
import MmapXv6.Proc.Aging
import MmapXv6.Sem.Safety
import MmapXv6.Sem.Get
import MmapXv6.Sem.Accounting
import MmapXv6.Vm.Unchecked
import MmapXv6.Vm.Copyuvm
import MmapXv6.Vm.NoLoss
import MmapXv6.Vm.Sharing
import MmapXv6.File.Mapped
import MmapXv6.File.Appends
import MmapXv6.Pipe.Wakeups
import MmapXv6.Kern.Safety
import MmapXv6.Vm.Stray
import MmapXv6.Vm.OnlyRead
import MmapXv6.Vm.Shows
import MmapXv6.Kern.Births
import MmapXv6.Kern.Killed
import MmapXv6.User.Grep
import MmapXv6.File.Seek
import MmapXv6.Fs.Names
import MmapXv6.Dev.Console
import MmapXv6.Dev.Ide
import MmapXv6.User.Sbrk
import MmapXv6.User.Sh
import MmapXv6.User.Memmove
import MmapXv6.Dev.Mp
import MmapXv6.Kern.Irq
import MmapXv6.Log.Atomic
