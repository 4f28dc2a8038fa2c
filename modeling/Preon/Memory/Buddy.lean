import Preon.Memory.Layout

/-!
# The buddy physical page allocator

A translation of `kernel/mm/buddy.rs` with explicit state passing.  Frame numbers, orders and
counts are naturals; the mem-map and the free-list heads are lists.  Links are stored raw with
the all-ones sentinel, as in the source.  The reference count and the flags of a descriptor are
left out, since no operation reads or writes them.
-/

namespace Preon.Memory

open Framework

def rawNone : ℕ := 2 ^ 32 - 1

def maxOrder : ℕ := 11

inductive PageState
  | reserved
  | free
  | allocated
  | tail
  deriving DecidableEq, Repr, Inhabited

/-- One mem-map descriptor. -/
structure PageInfo where
  next : ℕ
  prev : ℕ
  order : ℕ
  state : PageState
  deriving DecidableEq, Repr, Inhabited

namespace PageInfo

def isHead (page : PageInfo) : Bool := page.state = .free || page.state = .allocated

def isFree (page : PageInfo) : Bool := page.state = .free

def nextLink (page : PageInfo) : Outcome (Option ℕ) := do
  debugAssert page.isFree
  return if page.next = rawNone then none else some page.next

def prevLink (page : PageInfo) : Outcome (Option ℕ) := do
  debugAssert page.isFree
  return if page.prev = rawNone then none else some page.prev

def setNext (page : PageInfo) (link : Option ℕ) : Outcome PageInfo :=
  match link with
  | some pfn => do
      debugAssert (pfn ≠ rawNone)
      return { page with next := pfn }
  | none => return { page with next := rawNone }

def setPrev (page : PageInfo) (link : Option ℕ) : Outcome PageInfo :=
  match link with
  | some pfn => do
      debugAssert (pfn ≠ rawNone)
      return { page with prev := pfn }
  | none => return { page with prev := rawNone }

def orderOf (page : PageInfo) : Outcome ℕ := do
  debugAssert page.isHead
  return page.order

def markFree (order : ℕ) (page : PageInfo) : PageInfo :=
  { page with state := .free, order := order }

def markAllocated (order : ℕ) (page : PageInfo) : PageInfo :=
  { page with state := .allocated, order := order, next := rawNone, prev := rawNone }

def markTail (page : PageInfo) : PageInfo :=
  { page with state := .tail, next := rawNone, prev := rawNone }

def markReserved (page : PageInfo) : PageInfo :=
  { page with state := .reserved, next := rawNone, prev := rawNone }

end PageInfo

/-- A buddy allocator over the frames `[dramBase, dramBase + nrFrames * pageSize)`. -/
structure BuddyAllocator where
  pages : List PageInfo
  dramBase : ℕ
  nrFrames : ℕ
  freeArea : List (Option ℕ)
  freeFrames : ℕ
  deriving DecidableEq, Repr

namespace BuddyAllocator

def new (pages : List PageInfo) (dramBase nrFrames : ℕ) : Outcome BuddyAllocator := do
  debugAssert (nrFrames ≤ pages.length)
  return {
    pages := pages.map PageInfo.markReserved
    dramBase := dramBase
    nrFrames := nrFrames
    freeArea := List.replicate maxOrder none
    freeFrames := 0 }

def pfnOf (s : BuddyAllocator) (pa : ℕ) : Outcome ℕ := do
  debugAssert (s.dramBase ≤ pa)
  let span ← checkedMul 64 s.nrFrames pageSize
  let stop ← checkedAdd 64 s.dramBase span
  debugAssert (pa < stop)
  debugAssert (pa % pageSize = 0)
  let offset ← checkedSub pa s.dramBase
  return truncate 32 (offset / pageSize)

def paOf (s : BuddyAllocator) (pfn : ℕ) : Outcome ℕ := do
  debugAssert (pfn < s.nrFrames)
  let offset ← checkedMul 64 pfn pageSize
  checkedAdd 64 s.dramBase offset

def buddyPfn (s : BuddyAllocator) (pfn order : ℕ) : Outcome (Option ℕ) := do
  debugAssert (order < maxOrder)
  let bit ← checkedShl 32 1 order
  let n := pfn ^^^ bit
  return if s.nrFrames ≤ n then none else some n

def page (s : BuddyAllocator) (pfn : ℕ) : Outcome PageInfo := index s.pages pfn

/-- Rewrite one descriptor through `page_mut`. -/
def pageMut (s : BuddyAllocator) (pfn : ℕ) (f : PageInfo → Outcome PageInfo) :
    Outcome BuddyAllocator := do
  let page ← s.page pfn
  let page ← f page
  let pages ← setIndex s.pages pfn page
  return { s with pages := pages }

def setArea (s : BuddyAllocator) (order : ℕ) (head : Option ℕ) : Outcome BuddyAllocator := do
  let area ← setIndex s.freeArea order head
  return { s with freeArea := area }

/-- `if let Some(h) = link { page_mut(h).set_prev(prev) }`. -/
def setPrevOf (s : BuddyAllocator) (link prev : Option ℕ) : Outcome BuddyAllocator :=
  match link with
  | some h => s.pageMut h (·.setPrev prev)
  | none => return s

/-- The forward link into a node: the `next` of the node before it, or the head of the list. -/
def setForward (s : BuddyAllocator) (order : ℕ) (prev next : Option ℕ) : Outcome BuddyAllocator :=
  match prev with
  | some p => s.pageMut p (·.setNext next)
  | none => s.setArea order next

def pushFront (s : BuddyAllocator) (order pfn : ℕ) : Outcome BuddyAllocator := do
  let page ← s.page pfn
  debugAssert page.isFree
  let oldHead ← index s.freeArea order
  let s ← s.pageMut pfn (·.setPrev none)
  let s ← s.pageMut pfn (·.setNext oldHead)
  let s ← s.setPrevOf oldHead (some pfn)
  s.setArea order (some pfn)

def unlink (s : BuddyAllocator) (order pfn : ℕ) : Outcome BuddyAllocator := do
  let page ← s.page pfn
  let prev ← page.prevLink
  let next ← page.nextLink
  let s ← s.setForward order prev next
  s.setPrevOf next prev

def popFront (s : BuddyAllocator) (order : ℕ) : Outcome (Option ℕ × BuddyAllocator) := do
  let head ← index s.freeArea order
  match head with
  | none => return (none, s)
  | some head => do
      let s ← s.unlink order head
      return (some head, s)

/-- The smallest order from `order` on whose free list is not empty. -/
def findOrder (s : BuddyAllocator) (order : ℕ) : Option ℕ :=
  (List.range' order (maxOrder - order)).find? fun k => (s.freeArea.getD k none).isSome

/-- The split loop of `alloc`: give back the upper half of `block` at every order from `k`
down to `order`. -/
def splitDown (order block : ℕ) : ℕ → BuddyAllocator → Outcome BuddyAllocator
  | 0, s => return s
  | k + 1, s =>
      if order < k + 1 then do
        let half ← checkedShl 32 1 k
        let buddy ← checkedAdd 32 block half
        let s ← s.pageMut buddy (fun page => .ok (page.markFree k))
        let s ← s.pushFront k buddy
        splitDown order block k s
      else return s

def alloc (s : BuddyAllocator) (order : ℕ) : Outcome (Option ℕ × BuddyAllocator) :=
  match s.findOrder order with
  | none => return (none, s)
  | some k => do
      let (head, s) ← s.popFront k
      let block ← unwrap head
      let s ← splitDown order block k s
      let size ← checkedShl 64 1 order
      let freeFrames ← checkedSub s.freeFrames size
      let s := { s with freeFrames := freeFrames }
      let s ← s.pageMut block (fun page => .ok (page.markAllocated order))
      return (some block, s)

/-- `page(buddy).is_free() && page(buddy).order() == cur_order`. -/
def mergeable (s : BuddyAllocator) (buddy order : ℕ) : Outcome Bool := do
  let page ← s.page buddy
  if page.isFree then do
    let k ← page.orderOf
    return k = order
  else return false

/-- The merge loop of `free`, entered with `rounds = MAX_ORDER - 1 - cur_order`: it returns the
state, the head of the merged block and its order. -/
def coalesce : ℕ → BuddyAllocator → (cur order : ℕ) → Outcome (BuddyAllocator × ℕ × ℕ)
  | 0, s, cur, order => return (s, cur, order)
  | rounds + 1, s, cur, order => do
      match ← s.buddyPfn cur order with
      | none => return (s, cur, order)
      | some buddy => do
          if ← s.mergeable buddy order then do
            let s ← s.unlink order buddy
            let (head, tail) := if cur < buddy then (cur, buddy) else (buddy, cur)
            let s ← s.pageMut tail (fun page => .ok page.markTail)
            coalesce rounds s head (order + 1)
          else return (s, cur, order)

def free (s : BuddyAllocator) (pfn order : ℕ) : Outcome BuddyAllocator := do
  let size ← checkedShl 64 1 order
  let freeFrames ← checkedAdd 64 s.freeFrames size
  let s := { s with freeFrames := freeFrames }
  let (s, cur, k) ← coalesce (maxOrder - 1 - order) s pfn order
  let s ← s.pageMut cur (fun page => .ok (page.markFree k))
  s.pushFront k cur

def maxOrderAt (pfn remaining : ℕ) : Outcome ℕ := do
  let cap := maxOrder - 1
  let align := min (trailingZeros 32 pfn) cap
  let high ← checkedSub (64 - 1) (leadingZeros 64 remaining)
  let size := min high cap
  return min align size

/-- The inner loop of `free_range`, with `count` frames left from `pfn + i` on. -/
def markTails (pfn : ℕ) : (count i : ℕ) → BuddyAllocator → Outcome BuddyAllocator
  | 0, _, s => return s
  | count + 1, i, s => do
      let frame ← checkedAdd 32 pfn i
      let s ← s.pageMut frame (fun page => .ok page.markTail)
      markTails pfn count (i + 1) s

/-- The carve loop of `free_range`; `fuel` bounds its iterations. -/
def carve (stop : ℕ) : (fuel : ℕ) → BuddyAllocator → (pfn : ℕ) → Outcome BuddyAllocator
  | 0, s, pfn => if pfn < stop then .error .outOfFuel else return s
  | fuel + 1, s, pfn =>
      if pfn < stop then do
        let order ← maxOrderAt pfn (stop - pfn)
        let size ← checkedShl 32 1 order
        let s ← markTails pfn (size - 1) 1 s
        let s ← s.pageMut pfn (fun page => .ok (page.markFree order))
        let s ← s.pushFront order pfn
        let frames ← checkedShl 64 1 order
        let freeFrames ← checkedAdd 64 s.freeFrames frames
        let pfn ← checkedAdd 32 pfn size
        carve stop fuel { s with freeFrames := freeFrames } pfn
      else return s

def freeRange (s : BuddyAllocator) (start count : ℕ) : Outcome BuddyAllocator := do
  let last ← checkedAdd 64 start count
  debugAssert (last ≤ s.nrFrames)
  let stop ← checkedAdd 32 start (truncate 32 count)
  carve stop (stop - start) s start

def allocPages (s : BuddyAllocator) (order : ℕ) : Outcome (Option ℕ × BuddyAllocator) := do
  let (pfn, s) ← s.alloc order
  match pfn with
  | none => return (none, s)
  | some pfn => do
      let pa ← s.paOf pfn
      return (some pa, s)

def allocPage (s : BuddyAllocator) : Outcome (Option ℕ × BuddyAllocator) := s.allocPages 0

def freePages (s : BuddyAllocator) (pa order : ℕ) : Outcome BuddyAllocator := do
  let pfn ← s.pfnOf pa
  s.free pfn order

/-- The size of one descriptor, fixed by a compile-time assertion. -/
def pageInfoSize : ℕ := 16

def memmapFrames (nrFrames : ℕ) : Outcome ℕ := do
  let bytes ← checkedMul 64 nrFrames pageInfoSize
  return (bytes + pageSize - 1) / pageSize

end BuddyAllocator

end Preon.Memory
