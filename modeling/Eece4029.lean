import Eece4029.Battcheck.Low
import Eece4029.Battcheck.Percent
import Eece4029.Battcheck.Proc
import Eece4029.Buddy.Allocator
import Eece4029.Buddy.Bounds
import Eece4029.Buddy.Canonical
import Eece4029.Buddy.Conservation
import Eece4029.Buddy.Failure
import Eece4029.Buddy.Lookup
import Eece4029.Buddy.Print
import Eece4029.Buddy.Termination
import Eece4029.Fuse.Directory
import Eece4029.Fuse.Fullpath
import Eece4029.Fuse.Handles
import Eece4029.Fuse.Oper
import Eece4029.Fuse.Volume
import Eece4029.Loopback.Bounds
import Eece4029.Loopback.Reply
import Eece4029.Vmm.Clients
import Eece4029.Vmm.LifeCycle
import Eece4029.Vmm.Survival
import Eece4029.Streams.Disconnect
import Eece4029.Streams.Main
import Eece4029.Streams.Merge
import Eece4029.Streams.Newcomers
import Eece4029.Streams.ProducerList
import Eece4029.Streams.Queue
import Eece4029.Streams.Times
import Eece4029.Streams.WakeUp
import Eece4029.Streams.Withheld
