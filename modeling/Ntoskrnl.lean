import Ntoskrnl.Rtl.Lznt1.Fragment
import Ntoskrnl.Rtl.Lznt1.Safety
import Ntoskrnl.Rtl.Compress.Transfer
import Ntoskrnl.Rtl.Ranges.Availability
import Ntoskrnl.Rtl.Ranges.FailedDelete
import Ntoskrnl.Rtl.Ranges.Flags
import Ntoskrnl.Rtl.Ranges.Invert
import Ntoskrnl.FsRtl.Mcb.Reached
import Ntoskrnl.Se.AccessCheck.DenyOnly
import Ntoskrnl.Se.AccessCheck.FastTraverse
import Ntoskrnl.Se.AccessCheck.Restricting
import Ntoskrnl.FsRtl.FileLock.Enumerate
import Ntoskrnl.FsRtl.FileLock.Waiters
import Ntoskrnl.Mm.Vad.Downwards
import Ntoskrnl.Mm.Vad.Runs
import Ntoskrnl.Rtl.Security.Merge
import Ntoskrnl.FsRtl.Oplock.Coherence
import Ntoskrnl.FsRtl.Oplock.Consistency
import Ntoskrnl.Rtl.Security.ConvertAccess
import Ntoskrnl.Rtl.AvlTable.Enumeration
import Ntoskrnl.Arb.AllocationStack
import Ntoskrnl.Rtl.RunEncode
