import Mathlib.Data.Fintype.Defs
import Preon.Framework.LockProgram

/-!
# The locks of the kernel

The locking operations of `kernel/mm/slab.rs`, `kernel/mm/frame.rs`, `kernel/cpu/smp.rs`,
`kernel/core/main.rs` and of the macro `kernel_log!`, reduced to the locks that they take and to the
scopes of the guards.  A guard that is a temporary lives to the end of its statement, a guard that
is bound by `let` to the end of its block.
-/

namespace Preon.Sync

open Framework

inductive KernelLock
  | slab
  | buddy
  | uart
deriving DecidableEq

instance : Fintype KernelLock := ⟨{.slab, .buddy, .uart}, fun l => by cases l <;> decide⟩

/-- A statement `BUDDY.get()?.lock().f()`: nothing is locked before the allocator is installed. -/
def buddyCall : LockBlock KernelLock := .either .skip (.guarded .buddy .skip)

/-- The arguments are evaluated while the guard lives. -/
def kernelLog (arguments : LockBlock KernelLock) : LockBlock KernelLock := .guarded .uart arguments

def refill : LockBlock KernelLock := buddyCall

def largeAlloc : LockBlock KernelLock := buddyCall

def largeDealloc : LockBlock KernelLock := buddyCall

/-- The guard of the slab lives while an empty list is refilled. -/
def alloc : LockBlock KernelLock := .either (.guarded .slab (.either .skip refill)) largeAlloc

def dealloc : LockBlock KernelLock := .either (.guarded .slab .skip) largeDealloc

/-- `frame::alloc_page`, from the buddy allocator or from the pool. -/
def allocPage : LockBlock KernelLock := buddyCall

def allocStack : LockBlock KernelLock := buddyCall

/-- The guard of the buddy allocator lives to the end of the function, past the log line. -/
def reclaimTrampoline : LockBlock KernelLock := .guarded .buddy (kernelLog .skip)

/-- The operations.  The arguments of every log line of the kernel are plain values. -/
def lockingOperations : Set (LockBlock KernelLock) :=
  {alloc, dealloc, largeAlloc, largeDealloc, allocPage, allocStack, reclaimTrampoline,
    kernelLog .skip}

/-- The order in which the operations nest the locks. -/
def KernelLock.rank : KernelLock → ℕ
  | slab => 0
  | buddy => 1
  | uart => 2

private theorem lockingOperations_above {b : LockBlock KernelLock} (h : b ∈ lockingOperations) :
    b.Above KernelLock.rank 0 := by
  simp only [lockingOperations, Set.mem_insert_iff, Set.mem_singleton_iff] at h
  rcases h with rfl | rfl | rfl | rfl | rfl | rfl | rfl | rfl <;>
    simp [alloc, dealloc, refill, largeAlloc, largeDealloc, allocPage, allocStack,
      reclaimTrampoline,
      kernelLog, buddyCall, LockBlock.Above, KernelLock.rank]

variable {Cpu : Type*} [DecidableEq Cpu]

/-- No set of CPUs ever waits for each other, whatever operations they run. -/
theorem no_lock_cycle {s : LockState Cpu KernelLock}
    (h : (lockPrograms Cpu lockingOperations).Reachable s) (cpus : Set Cpu) : ¬ s.Deadlocked cpus :=
  not_deadlocked (fun _ => lockingOperations_above) h cpus

/-- One CPU holds the slab lock and spins on the lock of the buddy allocator, which another one
holds while it spins on the lock of the UART. -/
theorem no_lock_cycle_chain : ∃ s, (lockPrograms ℕ lockingOperations).Reachable s ∧
    s.Holds 0 .slab ∧ s.SpinsOn 0 .buddy ∧ s.Holds 1 .buddy ∧ s.SpinsOn 1 .uart ∧
    ∀ cpus, ¬ s.Deadlocked cpus := by
  have hidle : (lockPrograms ℕ lockingOperations).Reachable ⟨fun _ => false, fun _ => []⟩ :=
    .init ⟨fun _ => rfl, fun _ => rfl⟩
  have halloc := hidle.step (e := LockMove.call 0 alloc) ⟨rfl, by simp [lockingOperations], rfl⟩
  have hslab := (halloc.step (e := LockMove.work 0) ⟨_, _, .left, rfl⟩).step (e := LockMove.work 0)
    ⟨_, _, .acquire rfl, rfl⟩
  have hrefill :=
    (hslab.step (e := LockMove.work 0) ⟨_, _, .right, rfl⟩).step (e := LockMove.work 0)
    ⟨_, _, .right, rfl⟩
  have hreclaim := (hrefill.step (e := LockMove.call 1 reclaimTrampoline)
    ⟨rfl, by simp [lockingOperations], rfl⟩).step (e := LockMove.work 1) ⟨_, _, .acquire rfl, rfl⟩
  have hlog := (hreclaim.step (e := LockMove.call 2 (kernelLog .skip))
    ⟨rfl, by simp [lockingOperations], rfl⟩).step (e := LockMove.work 2) ⟨_, _, .acquire rfl, rfl⟩
  exact ⟨_, hlog, .tail _ (.head _), ⟨rfl, _, _, rfl⟩, .tail _ (.head _), ⟨rfl, _, _, rfl⟩,
    no_lock_cycle hlog⟩

end Preon.Sync
