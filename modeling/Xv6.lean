import Xv6.Lib.Reach
import Xv6.Lib.Word32
import Xv6.Lib.Bytes
import Xv6.Lib.Bitmap
import Xv6.Lib.Alloc
import Xv6.Lib.Bits
import Xv6.Lib.Ring
import Xv6.Lib.DList
import Xv6.Lib.Holders
import Xv6.Lib.Tally
import Xv6.Lib.OnesSum
import Xv6.Fs.Layout
import Xv6.Pipe
import Xv6.Eth.SendQueue
import Xv6.Fs.Balloc
import Xv6.Fs.Inode
import Xv6.Fs.Inv
import Xv6.Fs.Bmap
import Xv6.Fs.ReadWrite
import Xv6.Fs.Itrunc
import Xv6.Fs.Mkfs
import Xv6.Fs.System
import Xv6.Fs.Full
import Xv6.Fs.Icache
import Xv6.Sys.Args
import Xv6.Sys.File
import Xv6.Sys.Ftable
import Xv6.Sys.Offset
import Xv6.Vm.Mmu
import Xv6.Vm.Kalloc
import Xv6.Vm.Walk
import Xv6.Proc.Table
import Xv6.Proc.Tree
import Xv6.Proc.Pid
import Xv6.Console
import Xv6.Bio
import Xv6.Net.Checksum
import Xv6.User.Grep
import Xv6.User.Umalloc
import Xv6.Lib.Port
import Xv6.Eth.Driver
import Xv6.Eth.Card
import Xv6.Eth.Recv
import Xv6.Eth.Xmit
import Xv6.Eth.Probe
import Xv6.Proc.Kill
import Xv6.Vm.Mappages
import Xv6.Vm.Uvm
import Xv6.Vm.Exec
import Xv6.Vm.Space
import Xv6.Lib.Regex
import Xv6.User.Match
import Xv6.Boot.Mp
import Xv6.Ide
import Xv6.Fs.Namei
import Xv6.Fs.MkfsMain
import Xv6.Memmove
import Xv6.Spinlock
import Xv6.Vm.Copyout
import Xv6.User.ShToken
import Xv6.User.Sh
import Xv6.User.ShGrammar
import Xv6.User.Printf
import Xv6.User.Wc
import Xv6.Fs.Dirlink
import Xv6.Lib.FreeList
import Xv6.User.UmallocHeap
import Xv6.User.UmallocRun
import Xv6.Fs.Path
import Xv6.Fs.Namex
