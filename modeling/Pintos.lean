import Pintos.Process.Wait
import Pintos.Devices.IntqMonitor
import Pintos.Vm.Leaks
import Pintos.Vm.Transparent
import Pintos.Vm.Locks
import Pintos.Threads.Crowd
import Pintos.Threads.Alarm
import Pintos.Threads.Aging
import Pintos.Threads.Twin
import Pintos.Process.Exec
import Pintos.Userprog.Load
import Pintos.Filesys.Directory
import Pintos.Vm.SecondChance
import Pintos.Clib.Arithmetic
import Pintos.Devices.Partition
import Pintos.Clib.Stdlib
import Pintos.Clib.String
import Pintos.Clib.Stdio
import Pintos.Clib.ListSort
import Pintos.Threads.Heap
