import Preon.Framework.Linearizable
import Preon.Memory.SlabRuns

/-!
# The global allocator on many CPUs

`alloc`, `dealloc` and what they call in `kernel/mm/slab.rs`, one step for each swap of a lock, each
access to a list head, to a link or to the buddy allocator, and each store of a `drop`.  Any number
of CPUs call the global allocator, other code takes pages from the buddy allocator and gives them
back, and owners write to their memory, in any interleaving.  Accesses are sequentially consistent:
both locks acquire and release.
-/

namespace Preon.Memory

open Framework

/-- A call of the global allocator, or of another user of the buddy allocator. -/
inductive HeapOp
  | alloc (layout : AllocLayout)
  | dealloc (ptr : ℕ) (layout : AllocLayout)
  | allocPages (order : ℕ)
  | freePages (pa order : ℕ)

/-- The call that an event of the sequential heap answers. -/
def HeapEvent.op : HeapEvent → Option HeapOp
  | .alloc layout _ => some (.alloc layout)
  | .dealloc ptr layout => some (.dealloc ptr layout)
  | .other (.allocPages order _) => some (.allocPages order)
  | .other (.freePages pa order) => some (.freePages pa order)
  | _ => none

/-- What the buddy allocator is called for. -/
inductive BuddyUse
  | refill (layout : AllocLayout) (idx : ℕ)
  | largeAlloc (layout : AllocLayout)
  | largeDealloc (ptr : ℕ) (layout : AllocLayout) (pa : ℕ)
  | allocPages (order : ℕ)
  | freePages (pa order : ℕ)

/-- Where a CPU is.  A step is named after what it does next. -/
inductive HeapPc
  | idle
  | lockAlloc (layout : AllocLayout) (idx : ℕ)
  | look (layout : AllocLayout) (idx : ℕ)
  | popHead (layout : AllocLayout) (idx : ℕ)
  | popNext (layout : AllocLayout) (idx node : ℕ)
  | popStore (layout : AllocLayout) (idx node : ℕ) (next : Option ℕ)
  | carve (layout : AllocLayout) (idx base k : ℕ)
  | carveStore (layout : AllocLayout) (idx base k ptr : ℕ)
  | lockDealloc (ptr : ℕ) (layout : AllocLayout) (idx : ℕ)
  | pushNext (ptr : ℕ) (layout : AllocLayout) (idx : ℕ)
  | pushStore (ptr : ℕ) (layout : AllocLayout) (idx : ℕ)
  | unlock (e : HeapEvent)
  | getBuddy (u : BuddyUse)
  | lockBuddy (u : BuddyUse)
  | readBuddy (u : BuddyUse)
  | storeBuddy (u : BuddyUse) (s : BuddyAllocator)
  | unlockBuddy (u : BuddyUse) (result : Option ℕ)
  | ret (e : HeapEvent)
  | panicked

namespace BuddyUse

open Slab

def run : BuddyUse → BuddyAllocator → Outcome (Option ℕ × BuddyAllocator)
  | .refill _ _, s => s.allocPage
  | .largeAlloc layout, s => s.allocPages (pagesOrder layout.size)
  | .largeDealloc _ layout pa, s => do
      let s ← s.freePages pa (pagesOrder layout.size)
      return (none, s)
  | .allocPages order, s => s.allocPages order
  | .freePages pa order, s => do
      let s ← s.freePages pa order
      return (none, s)

/-- After the guard of the buddy allocator is dropped. -/
def resume : BuddyUse → Option ℕ → Outcome HeapPc
  | .refill layout _, none => return .unlock (.alloc layout none)
  | .refill layout idx, some pa => do
      let base ← paToLinearVa pa
      return .carve layout idx base 0
  | .largeAlloc layout, none => return .ret (.alloc layout none)
  | .largeAlloc layout, some pa => do
      let va ← paToLinearVa pa
      return .ret (.alloc layout (some va))
  | .largeDealloc ptr layout _, _ => return .ret (.dealloc ptr layout)
  | .allocPages order, result => return .ret (.other (.allocPages order result))
  | .freePages pa order, _ => return .ret (.other (.freePages pa order))

/-- Where `BUDDY.get()` returns `None`. -/
def absent : BuddyUse → HeapPc
  | .refill layout _ => .unlock (.alloc layout none)
  | .largeAlloc layout => .ret (.alloc layout none)
  | .largeDealloc ptr layout _ => .ret (.dealloc ptr layout)
  | .allocPages order => .ret (.other (.allocPages order none))
  | .freePages pa order => .ret (.other (.freePages pa order))

def op : BuddyUse → HeapOp
  | .refill layout _ => .alloc layout
  | .largeAlloc layout => .alloc layout
  | .largeDealloc ptr layout _ => .dealloc ptr layout
  | .allocPages order => .allocPages order
  | .freePages pa order => .freePages pa order

end BuddyUse

structure HeapShared where
  heap : Heap
  slabLocked : Bool
  buddyLocked : Bool

namespace HeapShared

variable (sh : HeapShared)

def setLists (lists : List (Option ℕ)) : HeapShared :=
  { sh with heap := { sh.heap with freeLists := lists } }

def setMemory (memory : ByteMemory) : HeapShared :=
  { sh with heap := { sh.heap with memory := memory } }

def setBuddy (s : BuddyAllocator) : HeapShared :=
  { sh with heap := { sh.heap with buddy := some s } }

/-- A panic leaves the locks as they are. -/
def attempt {α : Type} (o : Outcome α) (k : α → HeapShared × HeapPc) :
    Option (HeapShared × HeapPc) :=
  match o with
  | .ok a => some (k a)
  | .error _ => some (sh, .panicked)

end HeapShared

namespace HeapPc

open Slab

/-- The address and the head for the next object of `refill`. -/
def carveNext (heap : Heap) (idx base k : ℕ) : Outcome (ℕ × Option ℕ) := do
  let size ← index classes idx
  let offset ← checkedMul 64 k size
  let ptr ← checkedAdd 64 base offset
  let head ← index heap.freeLists idx
  return (ptr, head)

/-- One step of a CPU that is in a call. -/
def advance (sh : HeapShared) : HeapPc → Option (HeapShared × HeapPc)
  | idle | ret _ | panicked => none
  | lockAlloc layout idx =>
      if sh.slabLocked then some (sh, lockAlloc layout idx)
      else some ({ sh with slabLocked := true }, look layout idx)
  | look layout idx => sh.attempt (index sh.heap.freeLists idx) fun head =>
      (sh, if head.isNone then getBuddy (.refill layout idx) else popHead layout idx)
  | popHead layout idx => sh.attempt (index sh.heap.freeLists idx) fun head =>
      (sh, match head with
        | none => unlock (.alloc layout none)
        | some node => popNext layout idx node)
  | popNext layout idx node => some (sh, popStore layout idx node (readNext sh.heap.memory node))
  | popStore layout idx node next => sh.attempt (setIndex sh.heap.freeLists idx next) fun lists =>
      (sh.setLists lists, unlock (.alloc layout (some node)))
  | carve layout idx base k =>
      match objectsPerPage idx with
      | .error _ => some (sh, panicked)
      | .ok count =>
          if k < count then
            sh.attempt (carveNext sh.heap idx base k) fun obj =>
              (sh.setMemory (write64 sh.heap.memory obj.1 (obj.2.getD 0)),
                carveStore layout idx base k obj.1)
          else some (sh, popHead layout idx)
  | carveStore layout idx base k ptr =>
    sh.attempt (setIndex sh.heap.freeLists idx (some ptr)) fun lists =>
      (sh.setLists lists, carve layout idx base (k + 1))
  | lockDealloc ptr layout idx =>
      if sh.slabLocked then some (sh, lockDealloc ptr layout idx)
      else some ({ sh with slabLocked := true }, pushNext ptr layout idx)
  | pushNext ptr layout idx => sh.attempt (index sh.heap.freeLists idx) fun head =>
      (sh.setMemory (write64 sh.heap.memory ptr (head.getD 0)), pushStore ptr layout idx)
  | pushStore ptr layout idx => sh.attempt (setIndex sh.heap.freeLists idx (some ptr)) fun lists =>
      (sh.setLists lists, unlock (.dealloc ptr layout))
  | unlock e => some ({ sh with slabLocked := false }, ret e)
  | getBuddy u => some (sh, if sh.heap.buddy.isNone then u.absent else lockBuddy u)
  | lockBuddy u =>
      if sh.buddyLocked then some (sh, lockBuddy u)
      else some ({ sh with buddyLocked := true }, readBuddy u)
  | readBuddy u => sh.heap.buddy.map fun s => (sh, storeBuddy u s)
  | storeBuddy u s => sh.attempt (u.run s) fun result =>
      (sh.setBuddy result.2, unlockBuddy u result.1)
  | unlockBuddy u result =>
      HeapShared.attempt { sh with buddyLocked := false } (u.resume result) fun pc =>
      ({ sh with buddyLocked := false }, pc)

end HeapPc

namespace HeapOp

open Slab

/-- Before the first lock. -/
def start : HeapOp → Outcome HeapPc
  | .alloc layout => return match sizeClassIndex layout.size layout.align with
      | some idx => .lockAlloc layout idx
      | none => .getBuddy (.largeAlloc layout)
  | .dealloc ptr layout =>
      match sizeClassIndex layout.size layout.align with
      | some idx => do
          let ptr ← unwrap (if ptr = 0 then none else some ptr)
          return .lockDealloc ptr layout idx
      | none => do
          let pa ← linearVaToPa ptr
          return .getBuddy (.largeDealloc ptr layout pa)
  | .allocPages order => return .lockBuddy (.allocPages order)
  | .freePages pa order => return .lockBuddy (.freePages pa order)

def enter (op : HeapOp) : HeapPc :=
  match op.start with
  | .ok pc => pc
  | .error _ => .panicked

end HeapOp

/-- What the CPUs share and where they are, the allocations that callers hold, and the blocks that
the other users of the buddy allocator hold. -/
structure HeapMachine (Cpu : Type*) where
  shared : HeapShared
  pc : Cpu → HeapPc
  live : List (ℕ × AllocLayout)
  others : List (ℕ × ℕ)

variable {Cpu : Type*} [DecidableEq Cpu]

namespace HeapMachine

def goto (c : HeapMachine Cpu) (x : Cpu) (pc : HeapPc) : HeapMachine Cpu :=
  { c with pc := Function.update c.pc x pc }

/-- Callers give back what they hold, with the layout that they asked for; the other users have a
reference to the buddy allocator. -/
def MayCall (c : HeapMachine Cpu) : HeapOp → Prop
  | .alloc _ => True
  | .dealloc ptr layout => (ptr, layout) ∈ c.live
  | .allocPages _ => c.shared.heap.buddy.isSome = true
  | .freePages pa order => (pa, order) ∈ c.others

def handIn (c : HeapMachine Cpu) : HeapOp → HeapMachine Cpu
  | .dealloc ptr layout => { c with live := c.live.erase (ptr, layout) }
  | .freePages pa order => { c with others := c.others.erase (pa, order) }
  | _ => c

def receive (c : HeapMachine Cpu) : HeapEvent → HeapMachine Cpu
  | .alloc layout (some ptr) => { c with live := (ptr, layout) :: c.live }
  | .other (.allocPages order (some pa)) => { c with others := (pa, order) :: c.others }
  | _ => c

/-- Bytes that their owner may write. -/
def Writable (c : HeapMachine Cpu) (a n : ℕ) : Prop :=
  (∃ x ∈ c.live, x.1 ≤ a ∧ a + n ≤ x.1 + x.2.size) ∨
    ∃ b ∈ c.others, b.1 + kernelLinearBase ≤ a ∧
      a + n ≤ b.1 + kernelLinearBase + 2 ^ b.2 * pageSize

def Step (pages : List PageInfo) (dramBase nrFrames : ℕ) (c : HeapMachine Cpu) :
    Action Cpu HeapOp HeapEvent → HeapMachine Cpu → Prop
  | .call x op, c' => c.pc x = .idle ∧ c.MayCall op ∧ c' = (c.handIn op).goto x op.enter
  | .work x, c' => ∃ sh pc, (c.pc x).advance c.shared = some (sh, pc) ∧
      c' = { c.goto x pc with shared := sh }
  | .ret x e, c' => c.pc x = .ret e ∧ c' = (c.receive e).goto x .idle
  | .env .install, c' => c.shared.heap.buddy = none ∧
      ∃ p, (pageSystem pages dramBase nrFrames).Reachable p ∧
        c' = { c with shared := c.shared.setBuddy p.allocator, others := p.live }
  | .env (.write a bytes), c' => c.Writable a bytes.length ∧
      c' = { c with shared := c.shared.setMemory (writeBytes c.shared.heap.memory a bytes) }
  | .env _, _ => False

/-- No CPU has called yet. -/
def Fresh (c : HeapMachine Cpu) : Prop :=
  c.shared.heap.freeLists = Heap.emptyLists ∧ c.shared.heap.buddy = none ∧
    c.shared.slabLocked = false ∧ c.shared.buddyLocked = false ∧ (∀ x, c.pc x = .idle) ∧
    c.live = [] ∧ c.others = []

end HeapMachine

variable (Cpu) in
def heapMachine (pages : List PageInfo) (dramBase nrFrames : ℕ) :
    System (HeapMachine Cpu) (Action Cpu HeapOp HeapEvent) where
  init := HeapMachine.Fresh
  step := HeapMachine.Step pages dramBase nrFrames

/-! ## The rest of a critical section -/

namespace Heap

open Slab

def popFor (h : Heap) (layout : AllocLayout) (idx : ℕ) : Outcome (Option HeapEvent × Heap) := do
  let (result, h) ← h.pop idx
  return (some (.alloc layout result), h)

def carveFor (h : Heap) (layout : AllocLayout) (idx base k : ℕ) :
    Outcome (Option HeapEvent × Heap) := do
  let size ← index classes idx
  let count ← objectsPerPage idx
  let h ← carve idx base size (count - k) k h
  h.popFor layout idx

end Heap

namespace HeapPc

open Slab

/-- The event that a call has taken effect as, if it has, and the heap once the CPU has done what it
still has to do; but for the return from the buddy allocator. -/
def remaining : HeapPc → Heap → Outcome (Option HeapEvent × Heap)
  | popHead layout idx, h => h.popFor layout idx
  | popNext layout idx node, h => do
      let lists ← setIndex h.freeLists idx (readNext h.memory node)
      return (some (.alloc layout (some node)), { h with freeLists := lists })
  | popStore layout idx node next, h => do
      let lists ← setIndex h.freeLists idx next
      return (some (.alloc layout (some node)), { h with freeLists := lists })
  | carve layout idx base k, h => h.carveFor layout idx base k
  | carveStore layout idx base k ptr, h => do
      let lists ← setIndex h.freeLists idx (some ptr)
      Heap.carveFor { h with freeLists := lists } layout idx base (k + 1)
  | pushStore ptr layout idx, h => do
      let lists ← setIndex h.freeLists idx (some ptr)
      return (some (.dealloc ptr layout), { h with freeLists := lists })
  | unlock e, h | ret e, h => return (some e, h)
  | panicked, _ => .error .unwrapNone
  | _, h => return (none, h)

def rest : HeapPc → Heap → Outcome (Option HeapEvent × Heap)
  | unlockBuddy u result, h => do
      let pc ← u.resume result
      pc.remaining h
  | pc, h => pc.remaining h

/-- The steps at which a call takes effect. -/
def commits (h : Heap) : HeapPc → Bool
  | look _ idx =>
      match index h.freeLists idx with
      | .ok none => false
      | _ => true
  | getBuddy _ => h.buddy.isNone
  | storeBuddy _ _ => true
  | pushNext _ _ _ => true
  | _ => false

end HeapPc

end Preon.Memory
