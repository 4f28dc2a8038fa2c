import Mathlib.Data.Nat.Bitwise
import Preon.Framework.RadixTree
import Preon.Memory.Layout

/-!
# Page tables

A translation of `kernel/mm/page_table.rs` with the levels of `kernel/arch/mm.rs`.  Tables are
found by physical address.  The frames that `alloc_page` is going to return are a list, in order.
-/

namespace Preon.Memory

open Framework

inductive Level
  | l0 | l1 | l2 | l3
deriving DecidableEq

namespace Level

def indexShift : Level → ℕ
  | l0 => 39
  | l1 => 30
  | l2 => 21
  | l3 => 12

def supportsBlock : Level → Bool
  | l1 => true
  | l2 => true
  | _ => false

def indexIn (level : Level) (va : ℕ) : ℕ := (va >>> level.indexShift) &&& 0x1FF

/-- The levels that the loop of `map` passes before it reaches the target. -/
def above : Level → List Level
  | l0 => []
  | l1 => [l0]
  | l2 => [l0, l1]
  | l3 => [l0, l1, l2]

end Level

inductive MemoryAttr
  | normal | normalNonCacheable | deviceNGNRNE | deviceNGNRE
deriving DecidableEq

def MemoryAttr.index : MemoryAttr → ℕ
  | normal => 0
  | normalNonCacheable => 1
  | deviceNGNRNE => 2
  | deviceNGNRE => 3

inductive Access
  | kernelReadWrite | kernelReadOnly | sharedReadWrite | sharedReadOnly
deriving DecidableEq

def Access.bits : Access → ℕ
  | kernelReadWrite => 0b00 <<< 6
  | kernelReadOnly => 0b10 <<< 6
  | sharedReadWrite => 0b01 <<< 6
  | sharedReadOnly => 0b11 <<< 6

inductive Shareability
  | nonShareable | outerShareable | innerShareable
deriving DecidableEq

def Shareability.bits : Shareability → ℕ
  | nonShareable => 0b00
  | outerShareable => 0b10
  | innerShareable => 0b11

inductive Executable
  | kernel | user | none
deriving DecidableEq

def pxn : ℕ := 1 <<< 53
def uxn : ℕ := 1 <<< 54

def Executable.bits : Executable → ℕ
  | kernel => uxn
  | user => pxn
  | none => pxn ||| uxn

def accessFlag : ℕ := 1 <<< 10

structure LeafAttrs where
  memory : MemoryAttr
  access : Access
  share : Shareability
  execute : Executable
deriving DecidableEq

def LeafAttrs.bits (attrs : LeafAttrs) : ℕ :=
  (attrs.memory.index <<< 2) ||| attrs.access.bits ||| (attrs.share.bits <<< 8) |||
    attrs.execute.bits ||| accessFlag

def outputAddrMask : ℕ := 0x0000FFFFFFFFF000

def typeBlock : ℕ := 0b01
def typeTableOrPage : ℕ := 0b11

namespace Entry

def table (next : ℕ) : ℕ := (next &&& outputAddrMask) ||| typeTableOrPage

def block (pa : ℕ) (level : Level) (attrs : LeafAttrs) : Outcome ℕ := do
  assertMsg (level.supportsBlock = true) "block entry only valid at L1 or L2"
  return (pa &&& outputAddrMask) ||| attrs.bits ||| typeBlock

def page (pa : ℕ) (attrs : LeafAttrs) : ℕ :=
  (pa &&& outputAddrMask) ||| attrs.bits ||| typeTableOrPage

def isValid (e : ℕ) : Bool := e &&& 1 ≠ 0

def isTableOrPage (e : ℕ) : Bool := e &&& typeTableOrPage = typeTableOrPage

def tableBit : ℕ := 1 <<< 1

def isBlock (e : ℕ) : Bool := isValid e && decide (e &&& tableBit = 0)

def outputAddr (e : ℕ) : ℕ := e &&& outputAddrMask

end Entry

/-- The tables in memory and the frames that the allocator has left. -/
structure TableMemory where
  tables : ℕ → ℕ → ℕ
  supply : List ℕ

namespace TableMemory

def allocPage (st : TableMemory) : Outcome (ℕ × TableMemory) :=
  match st.supply with
  | [] => .error (.message "bootstrap frame allocator exhausted (32 pages)")
  | frame :: rest => .ok (frame, { st with supply := rest })

def write (st : TableMemory) (table slot entry : ℕ) : TableMemory :=
  { st with tables := Radix.write st.tables table slot entry }

/-- A table is reached through its linear address. -/
def fromPhys (pa : ℕ) : Outcome ℕ := do
  let _ ← paToLinearVa pa
  return pa

/-- The entry that leads on, after a table has been hung into an invalid one. -/
def tableEntry (st : TableMemory) (current slot : ℕ) : Outcome (ℕ × TableMemory) :=
  if Entry.isValid (st.tables current slot) then do
    assertMsg (Entry.isTableOrPage (st.tables current slot) = true)
      "cannot descend through an existing block entry"
    return (st.tables current slot, st)
  else do
    let (frame, st) ← st.allocPage
    return (Entry.table frame, st.write current slot (Entry.table frame))

/-- One round of the loop of `map`. -/
def stepDown (va : ℕ) (at_ : ℕ × TableMemory) (level : Level) : Outcome (ℕ × TableMemory) := do
  let (entry, st) ← at_.2.tableEntry at_.1 (level.indexIn va)
  let next ← fromPhys (Entry.outputAddr entry)
  return (next, st)

def leafEntry (pa : ℕ) (target : Level) (attrs : LeafAttrs) : Outcome ℕ :=
  if target = .l3 then .ok (Entry.page pa attrs) else Entry.block pa target attrs

def map (st : TableMemory) (root va pa : ℕ) (target : Level) (attrs : LeafAttrs) :
    Outcome TableMemory := do
  assertMsg (target ≠ .l0) "leaf entries cannot live at L0"
  let leaf ← leafEntry pa target attrs
  let (current, st) ← target.above.foldlM (stepDown va) (root, st)
  return st.write current (target.indexIn va) leaf

end TableMemory

end Preon.Memory
