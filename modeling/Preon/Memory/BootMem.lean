import Preon.Framework.Sweep
import Preon.Memory.Buddy

/-!
# The boot-time memory map and the hand-off to the buddy allocator

A translation of `kernel/mm/bootmem.rs` and of `build_bootmem` and `init_buddy` in
`kernel/core/main.rs`.  The two fixed arrays with their counters are lists of at most
`nrRegions` entries.
-/

namespace Preon.Memory

open Framework

/-- The frames `[base, base + frames)`, in absolute frame numbers. -/
structure Region where
  base : ℕ
  frames : ℕ
  deriving DecidableEq, Repr

def Region.endPfn (r : Region) : ℕ := truncate 32 (r.base + r.frames)

def nrRegions : ℕ := 128

structure BootMem where
  memory : List Region
  reserved : List Region
  deriving DecidableEq, Repr

namespace BootMem

def new : BootMem := ⟨[], []⟩

def ramSpan (b : BootMem) : Outcome (ℕ × ℕ) := do
  assertMsg (0 < b.memory.length) "bootmem: no memory regions"
  let (lo, hi) :=
    b.memory.foldl (fun (lo, hi) m => (min lo m.base, max hi m.endPfn)) (2 ^ 32 - 1, 0)
  let frames ← checkedSub hi lo
  return (lo, frames)

def addMemory (b : BootMem) (base frames : ℕ) : Outcome BootMem := do
  debugAssert (1 ≤ frames)
  assertMsg (b.memory.length < nrRegions) "bootmem: memory regions exhausted"
  return { b with memory := b.memory ++ [⟨base, frames⟩] }

/-- The insertion loop of `reserve`: entries with a larger base move up by one. -/
def insertPoint (reserved : List Region) (base : ℕ) : (i : ℕ) → ℕ
  | 0 => 0
  | i + 1 => if base < (reserved.getD i ⟨0, 0⟩).base then insertPoint reserved base i else i + 1

def reserve (b : BootMem) (base frames : ℕ) : Outcome BootMem := do
  debugAssert (1 ≤ frames)
  assertMsg (b.reserved.length < nrRegions) "bootmem: reserved regions exhausted"
  let i := insertPoint b.reserved base b.reserved.length
  return { b with reserved := b.reserved.take i ++ ⟨base, frames⟩ :: b.reserved.drop i }

def divCeil (a b : ℕ) : ℕ := (a + b - 1) / b

def reserveBytes (b : BootMem) (basePa endPa : ℕ) : Outcome BootMem := do
  let base := basePa / pageSize
  let stop := divCeil endPa pageSize
  let frames ← checkedSub stop base
  b.reserve (truncate 32 base) frames

def addMemoryBytes (b : BootMem) (basePa endPa : ℕ) : Outcome BootMem :=
  let base := divCeil basePa pageSize
  let stop := endPa / pageSize
  if base < stop then b.addMemory (truncate 32 base) (stop - base) else return b

/-- The pass over the reservations inside one memory region. -/
def sweep {σ : Type} (f : σ → Region → Outcome σ) (m : Region) :
    List Region → (cursor : ℕ) → σ → Outcome (ℕ × σ)
  | [], cursor, acc => return (cursor, acc)
  | r :: rs, cursor, acc =>
      if r.endPfn ≤ cursor ∨ m.endPfn ≤ r.base then sweep f m rs cursor acc
      else if cursor < r.base then do
        let acc ← f acc ⟨cursor, r.base - cursor⟩
        sweep f m rs (max cursor r.endPfn) acc
      else sweep f m rs (max cursor r.endPfn) acc

def freeOf {σ : Type} (reserved : List Region) (f : σ → Region → Outcome σ) (acc : σ) (m : Region) :
    Outcome σ := do
  let (cursor, acc) ← sweep f m reserved m.base acc
  if cursor < m.endPfn then f acc ⟨cursor, m.endPfn - cursor⟩ else return acc

/-- Call `f` on every hole, threading the state that the closure captures. -/
def forEachFree {σ : Type} (b : BootMem) (f : σ → Region → Outcome σ) (acc : σ) : Outcome σ :=
  b.memory.foldlM (freeOf b.reserved f) acc

/-- The closure of `alloc`: keep the highest aligned base that fits. -/
def candidate (frames align : ℕ) (best : Option ℕ) (hole : Region) : Outcome (Option ℕ) :=
  if frames ≤ hole.frames then do
    let room ← checkedSub hole.endPfn frames
    let top := truncate 32 room
    let cand ← checkedSub top (top % align)
    return if hole.base ≤ cand ∧ best.all (· < cand) then some cand else best
  else return best

def alloc (b : BootMem) (frames align : ℕ) : Outcome (Option ℕ × BootMem) := do
  debugAssert (1 ≤ frames ∧ 1 ≤ align)
  match ← b.forEachFree (candidate frames align) none with
  | none => return (none, b)
  | some base => do
      let b ← b.reserve base frames
      return (some base, b)

/-- Register RAM byte ranges and then reserve byte ranges. -/
def feed (ram reservations : List (ℕ × ℕ)) : Outcome BootMem := do
  let b ← ram.foldlM (fun b r => b.addMemoryBytes r.1 r.2) new
  reservations.foldlM (fun b r => b.reserveBytes r.1 r.2) b

end BootMem

/-- The device tree's RAM regions, as base and size, the end of the kernel image, and the blob with
its linear address. -/
def buildBootmem (regions : List (ℕ × ℕ)) (imgEnd dtb fdtSize : ℕ) : Outcome BootMem := do
  let boot ← regions.foldlM (fun boot region => do
    let stop ← checkedAdd 64 region.1 region.2
    boot.addMemoryBytes region.1 stop) BootMem.new
  let boot ← boot.reserveBytes physLoadBase imgEnd
  let fdtPa ← linearVaToPa dtb
  let fdtEnd ← checkedAdd 64 fdtPa fdtSize
  boot.reserveBytes fdtPa fdtEnd

namespace BuddyAllocator

/-- The mem-map is built over whatever the memory at its address holds. -/
def newAt (memory : ℕ → PageInfo) (mmPa dramBase nrFrames : ℕ) : Outcome BuddyAllocator := do
  let va ← paToLinearVa mmPa
  new ((List.range nrFrames).map fun i => memory (va + i * pageInfoSize)) dramBase nrFrames

end BuddyAllocator

/-- The closure of `init_buddy`: hand one hole over. -/
def handOver (buddy : BuddyAllocator) (hole : Region) : Outcome BuddyAllocator := do
  let pa ← checkedMul 64 hole.base pageSize
  let pfn ← buddy.pfnOf pa
  buddy.freeRange pfn hole.frames

def initBuddy (memory : ℕ → PageInfo) (boot : BootMem) : Outcome BuddyAllocator := do
  let (basePfn, nrFrames) ← boot.ramSpan
  let dramBase ← checkedMul 64 basePfn pageSize
  let mmFrames ← BuddyAllocator.memmapFrames nrFrames
  let (mm, boot) ← boot.alloc mmFrames 1
  let mmPfn ← expect mm "no room for mem-map"
  let mmPa ← checkedMul 64 mmPfn pageSize
  let buddy ← BuddyAllocator.newAt memory mmPa dramBase nrFrames
  boot.forEachFree handOver buddy

end Preon.Memory
