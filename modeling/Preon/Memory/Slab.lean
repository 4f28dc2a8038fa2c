import Mathlib.Data.Nat.Log
import Preon.Framework.ByteMemory
import Preon.Memory.BootMem

/-!
# The slab allocator

A translation of `kernel/mm/slab.rs`.  The free lists of the size classes are threaded through
the freed objects, so the state is the list heads, the shared buddy allocator and the memory.  A
call runs under its locks as one step.  A null pointer is `none`.
-/

namespace Preon.Memory

open Framework

/-- A valid layout: the alignment is a power of two, and the size, which is not zero, rounded up
to the alignment does not exceed `isize::MAX`. -/
structure AllocLayout where
  size : ℕ
  align : ℕ
  size_pos : 1 ≤ size
  align_pow : ∃ k, align = 2 ^ k
  fits : BootMem.divCeil size align * align ≤ 2 ^ 63 - 1

instance : DecidableEq AllocLayout := fun a b =>
  decidable_of_iff (a.size = b.size ∧ a.align = b.align) (by
    constructor
    · rintro ⟨hs, ha⟩
      cases a
      cases b
      simp only at hs ha
      subst hs ha
      rfl
    · rintro rfl
      exact ⟨rfl, rfl⟩)

namespace Slab

def classes : List ℕ := [8, 16, 32, 64, 128, 256, 512, 1024, 2048]

def sizeClassIndex (size align : ℕ) : Option ℕ := classes.findIdx? fun c => max size align ≤ c

def objectsPerPage (idx : ℕ) : Outcome ℕ := do
  let size ← index classes idx
  return pageSize / size

def nextPowerOfTwo (n : ℕ) : ℕ := 2 ^ Nat.clog 2 n

def pagesOrder (size : ℕ) : ℕ :=
  truncate 8 (trailingZeros 64 (nextPowerOfTwo (BootMem.divCeil size pageSize)))

end Slab

/-- The link in the first bytes of a freed object. -/
def Slab.readNext (mem : ByteMemory) (node : ℕ) : Option ℕ :=
  if read64 mem node = 0 then none else some (read64 mem node)

structure Heap where
  freeLists : List (Option ℕ)
  buddy : Option BuddyAllocator
  memory : ByteMemory

namespace Heap

open Slab

/-- No class has an object yet. -/
def emptyLists : List (Option ℕ) := List.replicate classes.length none

def push (h : Heap) (idx ptr : ℕ) : Outcome Heap := do
  let head ← index h.freeLists idx
  let lists ← setIndex h.freeLists idx (some ptr)
  return { h with memory := write64 h.memory ptr (head.getD 0), freeLists := lists }

def pop (h : Heap) (idx : ℕ) : Outcome (Option ℕ × Heap) := do
  match ← index h.freeLists idx with
  | none => return (none, h)
  | some node => do
      let lists ← setIndex h.freeLists idx (readNext h.memory node)
      return (some node, { h with freeLists := lists })

/-- The loop of `refill`, with `count` objects left from number `k` on. -/
def carve (idx base size : ℕ) : (count k : ℕ) → Heap → Outcome Heap
  | 0, _, h => return h
  | count + 1, k, h => do
      let offset ← checkedMul 64 k size
      let ptr ← checkedAdd 64 base offset
      let h ← h.push idx ptr
      carve idx base size count (k + 1) h

def refill (h : Heap) (idx : ℕ) : Outcome (Option Unit × Heap) :=
  match h.buddy with
  | none => return (none, h)
  | some buddy => do
      let (page, buddy) ← buddy.allocPage
      match page with
      | none => return (none, { h with buddy := some buddy })
      | some pa => do
          let base ← paToLinearVa pa
          let size ← index classes idx
          let count ← objectsPerPage idx
          let h ← carve idx base size count 0 { h with buddy := some buddy }
          return (some (), h)

def largeAlloc (h : Heap) (size : ℕ) : Outcome (Option ℕ × Heap) :=
  match h.buddy with
  | none => return (none, h)
  | some buddy => do
      let (block, buddy) ← buddy.allocPages (pagesOrder size)
      match block with
      | none => return (none, { h with buddy := some buddy })
      | some pa => do
          let va ← paToLinearVa pa
          return (some va, { h with buddy := some buddy })

def largeDealloc (h : Heap) (ptr size : ℕ) : Outcome Heap := do
  let pa ← linearVaToPa ptr
  match h.buddy with
  | none => return h
  | some buddy => do
      let buddy ← buddy.freePages pa (pagesOrder size)
      return { h with buddy := some buddy }

/-- The size-class path of `alloc`. -/
def smallAlloc (h : Heap) (idx : ℕ) : Outcome (Option ℕ × Heap) := do
  match ← index h.freeLists idx with
  | some _ => h.pop idx
  | none => do
      match ← h.refill idx with
      | (none, h) => return (none, h)
      | (some (), h) => h.pop idx

def alloc (h : Heap) (layout : AllocLayout) : Outcome (Option ℕ × Heap) :=
  match sizeClassIndex layout.size layout.align with
  | some idx => h.smallAlloc idx
  | none => h.largeAlloc layout.size

def dealloc (h : Heap) (ptr : ℕ) (layout : AllocLayout) : Outcome Heap :=
  match sizeClassIndex layout.size layout.align with
  | some idx => do
      let ptr ← unwrap (if ptr = 0 then none else some ptr)
      h.push idx ptr
  | none => h.largeDealloc ptr layout.size

end Heap

end Preon.Memory
