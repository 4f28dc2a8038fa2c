import Preon.Framework.BitField
import Preon.Framework.ByteMemory
import Preon.Framework.Checked
import Preon.Framework.Dyadic
import Preon.Framework.FrameCode
import Preon.Framework.Linearizable
import Preon.Framework.LinkedList
import Preon.Framework.LockProgram
import Preon.Framework.MappedCode
import Preon.Framework.RadixTree
import Preon.Framework.Sweep
import Preon.Framework.Tiling
import Preon.Framework.Transition
import Preon.Framework.WordMemory
import Preon.Memory.BootHandoff
import Preon.Memory.BootMem
import Preon.Memory.BootMemAlloc
import Preon.Memory.BootMemHoles
import Preon.Memory.BootMemLimit
import Preon.Memory.BootMemRuns
import Preon.Memory.BootTables
import Preon.Memory.Booted
import Preon.Memory.Buddy
import Preon.Memory.BuddyCanonical
import Preon.Memory.BuddyComplete
import Preon.Memory.BuddyInvariant
import Preon.Memory.BuddyLinks
import Preon.Memory.BuddyPages
import Preon.Memory.BuddyRefinement
import Preon.Memory.BuddyRoundTrip
import Preon.Memory.BuddySafety
import Preon.Memory.Control
import Preon.Memory.EntryFormat
import Preon.Memory.FrameMap
import Preon.Memory.FrameMapOps
import Preon.Memory.HeapEffects
import Preon.Memory.HeapFrame
import Preon.Memory.HeapLinear
import Preon.Memory.HeapMachine
import Preon.Memory.KernelMap
import Preon.Memory.Layout
import Preon.Memory.MapCalls
import Preon.Memory.MapProfiles
import Preon.Memory.MapRegion
import Preon.Memory.PageTable
import Preon.Memory.Slab
import Preon.Memory.SlabCalls
import Preon.Memory.SlabLayout
import Preon.Memory.SlabLists
import Preon.Memory.SlabOwnership
import Preon.Memory.SlabRuns
import Preon.Memory.TableSwitch
import Preon.Memory.Translation
import Preon.Cpu.BringUp
import Preon.Cpu.FramePages
import Preon.Cpu.Identity
import Preon.Cpu.Machine
import Preon.Cpu.Online
import Preon.Cpu.OnlineBarrier
import Preon.Cpu.Percpu
import Preon.Cpu.PercpuLayout
import Preon.Cpu.Smp
import Preon.Cpu.Trampoline
import Preon.Boot.Handover
import Preon.Boot.Regime
import Preon.Boot.Secondary
import Preon.Boot.SecondaryStages
import Preon.Boot.Stub
import Preon.Boot.StubRun
import Preon.Boot.Tables
import Preon.Exceptions.TrapFrame
import Preon.Exceptions.Vectors
import Preon.Sync.LockOrder
import Preon.Sync.Once
import Preon.Sync.SpinLock
