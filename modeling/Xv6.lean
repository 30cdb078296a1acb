import Xv6.Proc.Accounting
import Xv6.Proc.Fcfs
import Xv6.Proc.Policy
import Xv6.Proc.RoundRobin
import Xv6.Proc.Reap
import Xv6.Proc.Pinfo
import Xv6.Uvm.Call
import Xv6.Mmu.Dealloc
import Xv6.Mmu.Map
import Xv6.Syscall
import Xv6.Memmove
import Xv6.Mp
import Xv6.Fs.Counts
import Xv6.Fs.Recovery
import Xv6.Fs.Path
import Xv6.Proc.Sleeplock
import Xv6.Console.Line
import Xv6.Ide.Queue
import Xv6.Bcache.Refs
import Xv6.Umalloc.Request
import Xv6.Sh.Correct
import Xv6.Grep.Chunks
import Xv6.Pipe.Fifo
import Xv6.Pipe.Wakeup
import Xv6.File.Refs
import Xv6.Mkfs.Lookup
import Xv6.Disk.Contents
