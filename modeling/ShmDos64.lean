import ShmDos64.VirtualMemory.Partition
import ShmDos64.Heap.Trim
import ShmDos64.Heap.Account
import ShmDos64.RamAllocator.Conserve
import ShmDos64.KList.Runs
import ShmDos64.KUnorderedMap.Runs
import ShmDos64.Paging.Walk
import ShmDos64.Paging.Shootdown
import ShmDos64.SpinLock.Runs
import ShmDos64.Scheduler.TimedQueue
import ShmDos64.Scheduler.QueueRuns
import ShmDos64.Scheduler.Exclusive
import ShmDos64.EventObject.WaitAll
import ShmDos64.EventObject.Deadlock
import ShmDos64.ExternalInterrupts.Init
import ShmDos64.SharedMutex.Waiters
import ShmDos64.Pci.Backends
import ShmDos64.InterruptQueue.Wakeups
import ShmDos64.InterruptQueue.SelfLock
import ShmDos64.Pci.Interleaved
import ShmDos64.KMutex.Timed
import ShmDos64.Semaphore.Timed
import ShmDos64.KConditionVariable.Reacquire
import ShmDos64.ExternalInterrupts.Window
import ShmDos64.ExternalInterrupts.Devices
import ShmDos64.LocalApic.Commands
import ShmDos64.AcpiOs.Events
import ShmDos64.LockFreeRingBuffer.Delivery
import ShmDos64.LockFreeRingBuffer.Sequential
import ShmDos64.Uefi.StoreParams
import ShmDos64.Uefi.LoaderCalls
import ShmDos64.VirtualMemory.Reject
import ShmDos64.Paging.Flush
import ShmDos64.VirtualMemory.Mmio
import ShmDos64.VirtualMemory.Protect
import ShmDos64.Acpi.Tables
import ShmDos64.AbstractTimer.Units
import ShmDos64.Pci.Bar
import ShmDos64.AbstractTimer.Sleep
import ShmDos64.CLib.Memory
