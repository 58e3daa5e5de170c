import AuroraOs.Util
import AuroraOs.Lib.DoublyLinked
import AuroraOs.Lib.TreeZipper
import AuroraOs.Lib.AvlShape
import AuroraOs.Lib.Blocks
import AuroraOs.Lib.Dyadic
import AuroraOs.Collections.LinkedList
import AuroraOs.Collections.ListRun
import AuroraOs.Collections.AvlTree
import AuroraOs.Collections.AvlInvariant
import AuroraOs.Collections.AvlSwap
import AuroraOs.Collections.AvlRebalance
import AuroraOs.Collections.AvlMap
import AuroraOs.Collections.AvlRun
import AuroraOs.Mem.PhysAlloc
import AuroraOs.Mem.BuddyInvariant
import AuroraOs.Mem.BuddyRun
import AuroraOs.Mem.BuddyCoalesce
import AuroraOs.Mem.BuddyAt
import AuroraOs.Mem.BuddyRealloc
import AuroraOs.Mem.BuddyOps
import AuroraOs.Mem.FreeSpace
import AuroraOs.Lib.RoundRobin
import AuroraOs.Mem.ZoneManager
import AuroraOs.Mem.ZoneManagerInvariant
import AuroraOs.Mem.ZoneManagerRun
import AuroraOs.Mem.Heap
import AuroraOs.Lib.Machine
import AuroraOs.Mem.HeapRun
import AuroraOs.Mem.HeapZoneRun
import AuroraOs.Mem.HeapSelect
import AuroraOs.Mem.Range
import AuroraOs.Boot.Mb2
import AuroraOs.Boot.Mb2Run
import AuroraOs.Sched.ThreadList
import AuroraOs.Sched.ThreadListInvariant
import AuroraOs.Sched.ThreadListRun
import AuroraOs.Sched.WorkConserving
import AuroraOs.Sched.Join
import AuroraOs.Sched.JoinRun
import AuroraOs.Sched.ThreadRef
import AuroraOs.Sched.ThreadRefRun
import AuroraOs.Sched.KFutex
import AuroraOs.Sched.KFutexRun
import AuroraOs.Cap.Capability
import AuroraOs.Cap.CapMap
import AuroraOs.Lib.Threads
import AuroraOs.Sched.RawFutex
import AuroraOs.Sched.RawFutexRun
import AuroraOs.Lib.SortedMap
import AuroraOs.Collections.ListIter
import AuroraOs.Collections.AvlPop
import AuroraOs.Mem.VirtLayout
import AuroraOs.Lib.FirstFit
import AuroraOs.Mem.VirtAlloc
import AuroraOs.Mem.VirtAllocInvariant
import AuroraOs.Mem.RangeMap
import AuroraOs.Mem.AllocSize
import AuroraOs.Mem.VirtAllocOps
import AuroraOs.Mem.VirtAllocRun
import AuroraOs.Mem.SpaceSearch
import AuroraOs.Mem.VirtAllocRevert
import AuroraOs.Mem.Sys
import AuroraOs.Mem.Shrink
import AuroraOs.Cap.SharedMem
import AuroraOs.Mem.PageCount
import AuroraOs.Cap.SharedMemRun
import AuroraOs.Lib.Pages
import AuroraOs.Mem.PageMapping
import AuroraOs.Mem.PageMappingIter
import AuroraOs.Mem.PageMappingRun
import AuroraOs.Mem.HalfRun
import AuroraOs.Syscall.UData
import AuroraOs.Syscall.UserArray
import AuroraOs.Syscall.Fetch
import AuroraOs.Mem.Split
import AuroraOs.Sched.Elf
import AuroraOs.Sched.ElfSections
import AuroraOs.Boot.HwaIter
import AuroraOs.Sched.StateMove
import AuroraOs.Sched.KFutexCalls
import AuroraOs.Cap.FutexRef
import AuroraOs.Mem.MapGiven
import AuroraOs.Cap.CapSys
import AuroraOs.Cap.CapSysRun
import AuroraOs.Lib.Radix
import AuroraOs.Mem.PageTable
import AuroraOs.Mem.PageTableCount
import AuroraOs.Mem.PageTree
import AuroraOs.Mem.MapInternal
import AuroraOs.Mem.PagedLayout
import AuroraOs.Mem.PagedSpace
import AuroraOs.Mem.AddressSpaces
import AuroraOs.Sched.CpuMarker
import AuroraOs.Arch.IntDisable
import AuroraOs.Int.Idt
import AuroraOs.Int.Apic
import AuroraOs.Collections.NLVec
import AuroraOs.Lib.BinarySearch
import AuroraOs.Collections.NLVecMap
import AuroraOs.Sched.NewThread
import AuroraOs.Mem.Ownership
import AuroraOs.Log2Const
import AuroraOs.Time.ApicTimer
import AuroraOs.Time.Pit
import AuroraOs.Collections.ListIterBack
import AuroraOs.Mem.ZoneManagerAt
import AuroraOs.Mem.ZoneManagerZeroed
import AuroraOs.Mem.AddressMap
import AuroraOs.Mem.RangeIter
import AuroraOs.Mem.BuddyBitmap
import AuroraOs.Arch.IntEntry
import AuroraOs.Sched.Contexts
