import Xv6.Kernel.Dispatch
import Xv6.Kernel.Accounting
import Xv6.Kernel.Isolation
import Xv6.Kernel.Transactions
import Xv6.Fs.References
import Xv6.Fs.Store
import Xv6.Fs.Admission
import Xv6.Fs.BufRefs
import Xv6.Fs.Balance
import Xv6.Kernel.Descriptors
import Xv6.Fs.Unused
import Xv6.Fs.Unlinked
import Xv6.Kernel.Pipe
import Xv6.Kernel.Sleep
import Xv6.Kernel.Delivery
import Xv6.Fs.Mounted
import Xv6.Fs.Directory
import Xv6.Fs.Reserve
import Xv6.Fs.Shortage
import Xv6.Kernel.Space
import Xv6.Kernel.Ledger
import Xv6.Kernel.Quota
import Xv6.Kernel.Suspension
import Xv6.Kernel.Written
import Xv6.Kernel.Pids
import Xv6.Fs.Creation
import Xv6.Kernel.Freelist
import Xv6.User.Grep
import Xv6.Kernel.Fdcalls
import Xv6.Fs.Badpath
import Xv6.Kernel.Pinfo
import Xv6.Kernel.Resume
import Xv6.Fs.Components
import Xv6.User.Memmove
