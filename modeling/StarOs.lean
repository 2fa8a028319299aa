import StarOs.Acpi.Covered
import StarOs.Acpi.Ecam
import StarOs.Acpi.Entries
import StarOs.Acpi.Tables
import StarOs.Arch.Context
import StarOs.Arch.Coverage
import StarOs.Arch.Hpet
import StarOs.Arch.IoApic
import StarOs.Arch.LocalApic
import StarOs.Arch.Pic
import StarOs.Arch.Redirections
import StarOs.Arch.Syscall
import StarOs.Arch.Trap
import StarOs.Boot.Alloc
import StarOs.Boot.Depart
import StarOs.Boot.Entry
import StarOs.Boot.Firmware
import StarOs.Boot.LinearMap
import StarOs.Boot.LoadSpan
import StarOs.Boot.PlaceImage
import StarOs.Boot.Run
import StarOs.Bootinfo.Convert
import StarOs.Bootinfo.FreeRuns
import StarOs.Bootinfo.FreeRunsComplete
import StarOs.Bootinfo.FreeRunsCount
import StarOs.Bootinfo.FreeRunsExact
import StarOs.Bootinfo.FreeRunsSound
import StarOs.Bootinfo.FreeRunsStarts
import StarOs.Bootinfo.Handoff
import StarOs.Bootinfo.Layout
import StarOs.Bootinfo.Memmap
import StarOs.Elf64.Image
import StarOs.Elf64.Segments
import StarOs.Kernel.Abi
import StarOs.Kernel.Acknowledge
import StarOs.Kernel.AddressSpace
import StarOs.Kernel.Balance
import StarOs.Kernel.BringUp
import StarOs.Kernel.BuildSpace
import StarOs.Kernel.Calls
import StarOs.Kernel.Cap
import StarOs.Kernel.Coherence
import StarOs.Kernel.Confinement
import StarOs.Kernel.Contexts
import StarOs.Kernel.Cutoff
import StarOs.Kernel.Delivery
import StarOs.Kernel.Departure
import StarOs.Kernel.DeviceWindow
import StarOs.Kernel.Endpoint
import StarOs.Kernel.FailedRecv
import StarOs.Kernel.FaithfulLoad
import StarOs.Kernel.Frames
import StarOs.Kernel.GsBase
import StarOs.Kernel.HighWater
import StarOs.Kernel.History
import StarOs.Kernel.Interrupts
import StarOs.Kernel.Irq
import StarOs.Kernel.Isolation
import StarOs.Kernel.Loading
import StarOs.Kernel.Locking
import StarOs.Kernel.Mediation
import StarOs.Kernel.MemInit
import StarOs.Kernel.Obj
import StarOs.Kernel.Outcome
import StarOs.Kernel.RangeOk
import StarOs.Kernel.Reaping
import StarOs.Kernel.RemoveWaiter
import StarOs.Kernel.Revocation
import StarOs.Kernel.RoundRobin
import StarOs.Kernel.Sched
import StarOs.Kernel.Screen
import StarOs.Kernel.ScreenCall
import StarOs.Kernel.ScreenTest
import StarOs.Kernel.SharedHalf
import StarOs.Kernel.Smp
import StarOs.Kernel.SpaceLedger
import StarOs.Kernel.SpaceOps
import StarOs.Kernel.Stage
import StarOs.Kernel.Steps
import StarOs.Kernel.Sync
import StarOs.Kernel.System
import StarOs.Kernel.Takeover
import StarOs.Kernel.Teardown
import StarOs.Kernel.Tenure
import StarOs.Kernel.Turns
import StarOs.Kernel.Usermode
import StarOs.Kernel.Vm
import StarOs.Kernel.VmInit
import StarOs.Library.Bounded
import StarOs.Library.Counting
import StarOs.Library.I8259
import StarOs.Library.Lines
import StarOs.Library.LocalApic
import StarOs.Library.Loop
import StarOs.Library.PhysMemory
import StarOs.Library.Rendezvous
import StarOs.Library.Round
import StarOs.Library.Run
import StarOs.Library.Slice
import StarOs.Library.TableTree
import StarOs.Library.TicketLock
import StarOs.Library.X86
import StarOs.Paging.Effects
import StarOs.Paging.Entry
import StarOs.Paging.Footprint
import StarOs.Paging.Mapper
import StarOs.Paging.Outcomes
import StarOs.Paging.PageSizes
import StarOs.Paging.Refinement
import StarOs.Paging.Requests
import StarOs.Paging.Tree
import StarOs.Paging.Unmap
import StarOs.Paging.Walk
import StarOs.Paging.Wrapping
