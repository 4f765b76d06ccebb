import Xv6.Log.Theorems
import Xv6.Pipes.Theorems
import Xv6.Proc.Theorems
import Xv6.Bcache.Theorems
import Xv6.Fs.Theorems
import Xv6.Mkfs.Theorems
import Xv6.Vm.Theorems
import Xv6.Exec.Theorems
import Xv6.Disk.Theorems
import Xv6.Space.Theorems
import Xv6.Umalloc.Theorems
import Xv6.Console.Theorems
import Xv6.Libc.Theorems
import Xv6.Grep.Theorems
import Xv6.Intr.Theorems
import Xv6.Sched.Theorems
