import Preon.Framework.WordMemory

/-!
# The trap frame

`TrapFrame` is laid out by `#[repr(C)]`: the fields in their order, each at the next offset its
alignment allows.  Its 272 bytes are 34 cells, x0 to x30 first.
-/

namespace Preon.Exceptions

open Framework WordMemory

/-! ## Layout of a `#[repr(C)]` struct -/

structure TypeLayout where
  size : ℕ
  align : ℕ

namespace TypeLayout

def u64 : TypeLayout := ⟨8, 8⟩

def array (t : TypeLayout) (n : ℕ) : TypeLayout := ⟨n * t.size, t.align⟩

end TypeLayout

def roundUp (offset align : ℕ) : ℕ := (offset + align - 1) / align * align

/-- The offsets of the fields, from the first free offset on. -/
def reprCOffsets : (offset : ℕ) → List TypeLayout → List ℕ
  | _, [] => []
  | offset, t :: ts => roundUp offset t.align :: reprCOffsets (roundUp offset t.align + t.size) ts

/-! ## `TrapFrame` -/

@[ext] structure TrapFrame where
  x : Fin 31 → Word
  spEl0 : Word
  elrEl1 : Word
  spsrEl1 : Word

namespace TrapFrame

def fields : List TypeLayout :=
  [TypeLayout.u64.array 31, TypeLayout.u64, TypeLayout.u64, TypeLayout.u64]

def xOffset : ℕ := 0
def spEl0Offset : ℕ := 31 * 8
def elrOffset : ℕ := 31 * 8 + 8
def spsrOffset : ℕ := 31 * 8 + 16

private theorem offsets_eq :
    reprCOffsets 0 fields = [xOffset, spEl0Offset, elrOffset, spsrOffset] := by
  decide

def loadField (mem : WordMemory) (base : Word) (field index : ℕ) : Word :=
  mem.load (base + BitVec.ofNat 64 ((reprCOffsets 0 fields).getD field 0 + 8 * index))

/-- The frame behind a `&TrapFrame`. -/
def load (mem : WordMemory) (base : Word) : TrapFrame where
  x i := loadField mem base 0 i
  spEl0 := loadField mem base 1 0
  elrEl1 := loadField mem base 2 0
  spsrEl1 := loadField mem base 3 0

def ofCells (c : Fin 34 → Word) : TrapFrame where
  x i := c (i.castLE (by decide))
  spEl0 := c 31
  elrEl1 := c 32
  spsrEl1 := c 33

theorem load_eq_ofCells (mem : WordMemory) (base : Word) :
    load mem base = ofCells (cells 34 mem base) := by
  simp only [load, loadField, offsets_eq, ofCells, cells, cellAddr]
  congr 1
  funext i
  simp [xOffset]

end TrapFrame

end Preon.Exceptions
