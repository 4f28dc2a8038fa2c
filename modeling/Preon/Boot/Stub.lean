import Preon.Boot.Regime

/-!
# The boot stub

A translation of `boot.s`, instruction by instruction, and its run from the loader's jump to the
branch into `kmain`.
-/

namespace Preon.Boot

open Framework MappedCode Memory

/-! ## The text -/

/-- Symbols of the linker script: the first trampoline table, the bounds of `.bss` and the top of
the stack by their image addresses, and the entry of the kernel. -/
structure Symbols where
  idmapL0 : ℕ
  bssStart : ℕ
  bssEnd : ℕ
  stackTop : ℕ
  kmain : ℕ

namespace Symbols

def table (sym : Symbols) (t : BootTable) : Word := word (t.pa sym.idmapL0)

def bssStartPa (sym : Symbols) : Word := word (imagePa sym.bssStart)
def bssEndPa (sym : Symbols) : Word := word (imagePa sym.bssEnd)
def stackTopPa (sym : Symbols) : Word := word (imagePa sym.stackTop)

end Symbols

inductive BootLabel
  | start | el2 | el1 | bssLoop | bssDone | bootbssLoop | bootbssDone
  | halt | unsupportedEl | badBootMmu
deriving DecidableEq

abbrev BootOp := Op BootLabel
abbrev BootInstr := Instr BootLabel

def spsrEl1h : Word := 0x3c5
def hcrRw : Word := 0x80000000

def dropToEl1 : List BootOp :=
  [.movz 0 hcrRw, .msr .hcrEl2 0, .barrier,
    .mrs 0 .cnthctlEl2, .orrImm 0 0 3, .msr .cnthctlEl2 0,
    .msrZero .cntvoffEl2, .msrZero .cptrEl2, .barrier,
    .movz 0 spsrEl1h, .msr .spsrEl2 0, .adr 0 .el1, .msr .elrEl2 0]

/-- The stack, FP and SIMD, and the bounds of `.bss`. -/
def initEl1 (sym : Symbols) : List BootOp :=
  [.ldrLit 0 sym.stackTopPa, .movToSp 0,
    .mrs 0 .cpacrEl1, .orrImm 0 0 0x300000, .msr .cpacrEl1 0, .barrier,
    .ldrLit 0 sym.bssStartPa, .ldrLit 1 sym.bssEndPa]

def tableBounds (sym : Symbols) : List BootOp :=
  [.ldrLit 0 (sym.table .idmapL0), .ldrLit 1 (sym.table .deviceL3), .addImm 1 1 0x1000]

/-- `MAIR_EL1` and `TCR_EL1`. -/
def controlRegisters : List BootOp :=
  [.movz 0 0x44FF, .movk 0 0x0400 16, .msr .mairEl1 0,
    .movz 0 0x3510, .movk 0 0xB550 16, .movk 0 0x0025 32, .msr .tcrEl1 0, .barrier]

def identityTables (sym : Symbols) : List BootOp :=
  [.ldrLit 0 (sym.table .idmapL0), .ldrLit 1 (sym.table .idmapL1), .orrImm 1 1 3, .str 1 0 0,
    .ldrLit 0 (sym.table .idmapL1), .ldrLit 1 (sym.table .idmapL2Uart), .orrImm 1 1 3, .str 1 0 0,
    .ldrLit 1 (sym.table .idmapL2Ram), .orrImm 1 1 3, .str 1 0 8,
    .ldrLit 0 (sym.table .idmapL2Uart), .ldrLit 1 (sym.table .idmapL3Uart), .orrImm 1 1 3,
    .str 1 0 (72 * 8),
    .ldrLit 0 (sym.table .idmapL3Uart), .ldrLit 1 (word uartLeaf), .str 1 0 0,
    .ldrLit 0 (sym.table .idmapL2Ram), .ldrLit 1 (word ramBlock), .str 1 0 0]

def kernelTables (sym : Symbols) : List BootOp :=
  [.ldrLit 0 (sym.table .kernelL0), .ldrLit 1 (sym.table .kernelL1), .orrImm 1 1 3,
    .str 1 0 (256 * 8),
    .ldrLit 0 (sym.table .kernelL0), .ldrLit 1 (sym.table .imageL1), .orrImm 1 1 3,
    .str 1 0 (511 * 8),
    .ldrLit 0 (sym.table .imageL1), .ldrLit 1 (word ramBlock), .str 1 0 (510 * 8),
    .ldrLit 0 (sym.table .kernelL1), .ldrLit 1 (word ramBlock), .str 1 0 8,
    .ldrLit 0 (sym.table .kernelL0), .ldrLit 1 (sym.table .deviceL1), .orrImm 1 1 3,
    .str 1 0 (384 * 8),
    .ldrLit 0 (sym.table .deviceL1), .ldrLit 1 (sym.table .deviceL2), .orrImm 1 1 3, .str 1 0 0,
    .ldrLit 0 (sym.table .deviceL2), .ldrLit 1 (sym.table .deviceL3), .orrImm 1 1 3,
    .str 1 0 (72 * 8),
    .ldrLit 0 (sym.table .deviceL3), .ldrLit 1 (word uartLeaf), .str 1 0 0]

/-- The roots, and the register value that turns translation on, still in `x0`. -/
def installRoots (sym : Symbols) : List BootOp :=
  [.ldrLit 0 (sym.table .idmapL0), .msr .ttbr0El1 0,
    .ldrLit 0 (sym.table .kernelL0), .msr .ttbr1El1 0,
    .barrier, .barrier, .barrier, .barrier,
    .mrs 0 .sctlrEl1, .orrImm 0 0 1]

/-- What runs through the identity map. -/
def handover (sym : Symbols) : List BootOp :=
  [.barrier, .ldrLit 9 (word sym.stackTop), .movToSp 9,
    .mov 0 20, .movz 16 (0xFFFF#64 <<< 48), .movk 16 0x8000 32, .orr 0 0 16,
    .ldrLit 16 (word sym.kmain)]

def probe : List BootOp := [.mov 20 0, .currentEl 0, .lsr 0 0 2, .cmpImm 0 1]

def bootText (sym : Symbols) : BootLabel → List BootInstr
  | .start => probe.map .op ++
      [.bCond .eq .el1, .op (.cmpImm 0 2), .bCond .eq .el2, .b .unsupportedEl]
  | .el2 => dropToEl1.map .op ++ [.eret]
  | .el1 => [.op (.mrs 0 .sctlrEl1), .op (.tstImm 0 1), .bCond .ne .badBootMmu] ++
      (initEl1 sym).map .op
  | .bssLoop => MappedCode.Image.Executes.clearLoop 0 1 .bssLoop .bssDone
  | .bssDone => (tableBounds sym).map .op
  | .bootbssLoop => MappedCode.Image.Executes.clearLoop 0 1 .bootbssLoop .bootbssDone
  | .bootbssDone => controlRegisters.map .op ++ (identityTables sym).map .op ++
      (kernelTables sym).map .op ++ (installRoots sym).map .op ++ [.op (.msr .sctlrEl1 0)] ++
      (handover sym).map .op ++ [.br 16]
  | .halt => [.op .barrier, .b .halt]
  | .unsupportedEl => [.op .barrier, .b .unsupportedEl]
  | .badBootMmu => [.op .barrier, .b .badBootMmu]

def bootOrder : List BootLabel :=
  [.start, .el2, .el1, .bssLoop, .bssDone, .bootbssLoop, .bootbssDone, .halt, .unsupportedEl,
    .badBootMmu]

def bootCode (sym : Symbols) : List BootInstr := bootOrder.flatMap (bootText sym)

/-- The instructions in front of a label. -/
def bootOffset (sym : Symbols) (l : BootLabel) : ℕ :=
  ((bootOrder.takeWhile (· ≠ l)).flatMap (bootText sym)).length

/-- The stub at its load address; the loader's contract and the linker script put it there. -/
def bootImage (sym : Symbols) (pool : Word → Word) : MappedCode.Image BootLabel where
  code pa := if pa.toNat % 4 = 0 ∧ physLoadBase ≤ pa.toNat then
      (bootCode sym)[(pa.toNat - physLoadBase) / 4]? else none
  label l := word physLoadBase + BitVec.ofNat 64 (4 * bootOffset sym l)
  pool := pool
  mmu := mmu

end Preon.Boot
