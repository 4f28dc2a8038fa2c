import Preon.Memory.KernelMap

/-!
# The tables of the boot trampoline

The stores by which `boot.s` fills the twelve table pages that the linker script reserves in
`.boot.bss`, after it has cleared them, and the upper-half addresses that they translate.
-/

namespace Preon.Memory

open Framework

/-- The table pages, in the order of the linker script. -/
inductive BootTable
  | idmapL0 | idmapL1 | idmapL2Uart | idmapL3Uart | idmapL2Ram
  | kernelL0 | kernelL1 | kernelL2 | imageL1 | deviceL1 | deviceL2 | deviceL3
deriving DecidableEq

namespace BootTable

def position : BootTable → ℕ
  | idmapL0 => 0
  | idmapL1 => 1
  | idmapL2Uart => 2
  | idmapL3Uart => 3
  | idmapL2Ram => 4
  | kernelL0 => 5
  | kernelL1 => 6
  | kernelL2 => 7
  | imageL1 => 8
  | deviceL1 => 9
  | deviceL2 => 10
  | deviceL3 => 11

/-- The address of a table when the pages start at `base`. -/
def pa (base : ℕ) (table : BootTable) : ℕ := base + table.position * pageSize

end BootTable

/-- The linker script reserves twelve pages. -/
def bootTablePages : ℕ := 12

def uartLeaf : ℕ := 0x006000000900040F
def ramBlock : ℕ := 0x0040000040000701

/-- The stores of `boot.s`: table, slot and word. -/
def bootStores (base : ℕ) : List (BootTable × ℕ × ℕ) :=
  [(.idmapL0, 0, BootTable.idmapL1.pa base ||| 3),
    (.idmapL1, 0, BootTable.idmapL2Uart.pa base ||| 3),
    (.idmapL1, 1, BootTable.idmapL2Ram.pa base ||| 3),
    (.idmapL2Uart, 72, BootTable.idmapL3Uart.pa base ||| 3),
    (.idmapL3Uart, 0, uartLeaf),
    (.idmapL2Ram, 0, ramBlock),
    (.kernelL0, 256, BootTable.kernelL1.pa base ||| 3),
    (.kernelL0, 511, BootTable.imageL1.pa base ||| 3),
    (.imageL1, 510, ramBlock),
    (.kernelL1, 1, ramBlock),
    (.kernelL0, 384, BootTable.deviceL1.pa base ||| 3),
    (.deviceL1, 0, BootTable.deviceL2.pa base ||| 3),
    (.deviceL2, 72, BootTable.deviceL3.pa base ||| 3),
    (.deviceL3, 0, uartLeaf)]

def clearTables (base : ℕ) (memory : ℕ → ℕ → ℕ) (t i : ℕ) : ℕ :=
  if base ≤ t ∧ t < base + bootTablePages * pageSize then 0 else memory t i

def bootTables (base : ℕ) (memory : ℕ → ℕ → ℕ) : ℕ → ℕ → ℕ :=
  (bootStores base).foldl
    (fun memory store => Radix.write memory (store.1.pa base) store.2.1 store.2.2)
    (clearTables base memory)

/-! ## What the tables translate -/

private theorem BootTable.position_inj {a b : BootTable} (h : a.position = b.position) : a = b := by
  cases a <;> cases b <;> first | rfl | cases h

theorem BootTable.pa_inj {base : ℕ} {a b : BootTable} (h : a.pa base = b.pa base) : a = b := by
  apply BootTable.position_inj
  simp only [BootTable.pa, pageSize] at h
  omega

/-- Memory in which every word that `boot.s` stored is still found. -/
def HoldsStores (base : ℕ) (tables : ℕ → ℕ → ℕ) : Prop :=
  ∀ s ∈ bootStores base, tables (s.1.pa base) s.2.1 = s.2.2

theorem bootTables_holdsStores (base : ℕ) (memory : ℕ → ℕ → ℕ) :
    HoldsStores base (bootTables base memory) := by
  intro s hs
  have hslots : (bootStores base).Pairwise fun a b => ¬ (a.1 = b.1 ∧ a.2.1 = b.2.1) := by
    simp [bootStores]
  have hplaces :
      (bootStores base).Pairwise fun a b => ¬ (a.1.pa base = b.1.pa base ∧ a.2.1 = b.2.1) :=
    hslots.imp fun hne h => hne ⟨BootTable.pa_inj h.1, h.2⟩
  exact Radix.foldl_write_of_mem (fun s : BootTable × ℕ × ℕ => s.1.pa base) (fun s => s.2.1)
    (fun s => s.2.2) hplaces hs _

theorem bootTables_outside {base t : ℕ} (memory : ℕ → ℕ → ℕ)
    (h : ∀ table : BootTable, t ≠ table.pa base) :
    bootTables base memory t = clearTables base memory t := by
  funext i
  exact Radix.foldl_write_of_not (fun s : BootTable × ℕ × ℕ => s.1.pa base) (fun s => s.2.1)
    (fun s => s.2.2) (fun s _ hs => h s.1 hs.1) _

/-- The walk of an upper-half address comes through one of the tables. -/
abbrev Passes (base : ℕ) (tables : ℕ → ℕ → ℕ) (va n : ℕ) (table : BootTable) : Prop :=
  Radix.Path 512 decode tables 3 (BootTable.kernelL0.pa base) (key va) n (table.pa base)

namespace HoldsStores

variable {base va n slot : ℕ} {tables : ℕ → ℕ → ℕ} {table next : BootTable}

private theorem holds_pa (hbase : base % pageSize = 0)
    (hend : base + bootTablePages * pageSize ≤ 2 ^ 48)
    (table : BootTable) : Entry.Holds (table.pa base) := by
  have hposition : table.position < bootTablePages := by cases table <;> decide
  apply Entry.holds_of_aligned
  · rw [BootTable.pa, Nat.add_mul_mod_self_right, hbase]
  · simp only [BootTable.pa, bootTablePages, pageSize] at *
    omega

theorem down {root : ℕ} (h : HoldsStores base tables) (hbase : base % pageSize = 0)
    (hend : base + bootTablePages * pageSize ≤ 2 ^ 48)
    (hmem : (table, slot, next.pa base ||| 3) ∈ bootStores base)
    (hpath : Radix.Path 512 decode tables 3 root (key va) (n + 1) (table.pa base))
    (hdigit : Radix.digit 512 (n + 1) (key va) = slot) :
    Radix.Path 512 decode tables 3 root (key va) n (next.pa base) := by
  have hholds := holds_pa hbase hend next
  have hentry : next.pa base ||| 3 = Entry.table (next.pa base) := by
    rw [Entry.table, hholds]
    rfl
  refine .down hpath ?_
  rw [hdigit, h _ hmem, hentry]
  exact (decode_table hholds).1

theorem leafAt {e root : ℕ} (h : HoldsStores base tables)
    (hmem : (table, slot, e) ∈ bootStores base)
    (hpath : Radix.Path 512 decode tables 3 root (key va) n (table.pa base))
    (hdigit : Radix.digit 512 n (key va) = slot) (hleaf : decode n e = .leaf e) :
    Memory.leafAt tables root va = some (n, e) := by
  have hentry : decode n (tables (table.pa base) (Radix.digit 512 n (key va))) = .leaf e := by
    rw [hdigit, h _ hmem]
    exact hleaf
  rw [Memory.leafAt, hpath.lookup]
  cases n <;> rw [Radix.lookup, hentry]

variable (h : HoldsStores base tables) (hbase : base % pageSize = 0)
  (hend : base + bootTablePages * pageSize ≤ 2 ^ 48)

include h hbase hend

theorem leafAt_linear (hlo : 0x40000000 + kernelLinearBase ≤ va)
    (hhi : va < 0x80000000 + kernelLinearBase) :
    Memory.leafAt tables (BootTable.kernelL0.pa base) va = some (2, ramBlock) := by
  have hl0 : Radix.digit 512 3 (key va) = 256 := by
    simp only [Radix.digit, key, pageSize, kernelLinearBase] at *
    omega
  have hl1 : Radix.digit 512 2 (key va) = 1 := by
    simp only [Radix.digit, key, pageSize, kernelLinearBase] at *
    omega
  have hpath : Passes base tables va 2 .kernelL1 :=
    h.down hbase hend (by simp [bootStores]) .root hl0
  exact h.leafAt (by simp [bootStores]) hpath hl1 rfl

theorem leafAt_image (hlo : kernelImageBase ≤ va) (hhi : va < kernelImageBase + 0x40000000) :
    Memory.leafAt tables (BootTable.kernelL0.pa base) va = some (2, ramBlock) := by
  have hl0 : Radix.digit 512 3 (key va) = 511 := by
    simp only [Radix.digit, key, pageSize, kernelImageBase] at *
    omega
  have hl1 : Radix.digit 512 2 (key va) = 510 := by
    simp only [Radix.digit, key, pageSize, kernelImageBase] at *
    omega
  have hpath : Passes base tables va 2 .imageL1 :=
    h.down hbase hend (by simp [bootStores]) .root hl0
  exact h.leafAt (by simp [bootStores]) hpath hl1 rfl

theorem leafAt_uart (hlo : uartPa + kernelDeviceBase ≤ va)
    (hhi : va < uartPa + kernelDeviceBase + pageSize) :
    Memory.leafAt tables (BootTable.kernelL0.pa base) va = some (0, uartLeaf) := by
  have hdigits : Radix.digit 512 3 (key va) = 384 ∧ Radix.digit 512 2 (key va) = 0 ∧
      Radix.digit 512 1 (key va) = 72 ∧ Radix.digit 512 0 (key va) = 0 := by
    simp only [Radix.digit, key, pageSize, kernelDeviceBase, uartPa] at *
    omega
  obtain ⟨hl0, hl1, hl2, hl3⟩ := hdigits
  have hpath₂ : Passes base tables va 2 .deviceL1 :=
    h.down hbase hend (by simp [bootStores]) .root hl0
  have hpath₁ : Passes base tables va 1 .deviceL2 :=
    h.down hbase hend (by simp [bootStores]) hpath₂ hl1
  have hpath₀ : Passes base tables va 0 .deviceL3 :=
    h.down hbase hend (by simp [bootStores]) hpath₁ hl2
  exact h.leafAt (by simp [bootStores]) hpath₀ hl3 rfl

end HoldsStores

end Preon.Memory
