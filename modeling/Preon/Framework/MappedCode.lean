import Mathlib.Logic.Relation
import Preon.Framework.WordMemory

/-!
# A64 code that sets up its own translation

A CPU with its exception level, the system registers that boot code writes, and a program counter
whose fetches go through the translation in force.  Straight code whose addresses translate to
themselves runs as code over registers and physical memory; the loop that clears a run of memory has
a rule of its own.

Barriers, hints and TLB maintenance do nothing here: there is one CPU, it sees its own register
writes at once, and no translation is cached.
-/

namespace Preon.Framework.MappedCode

open WordMemory

/-- The numbers of the general registers are written as numerals. -/
scoped instance neZero_registers : @NeZero ℕ Zero.ofOfNat0 31 := ⟨Nat.succ_ne_zero 30⟩

inductive SysReg
  | sctlrEl1 | cpacrEl1 | mairEl1 | tcrEl1 | ttbr0El1 | ttbr1El1 | vbarEl1 | tpidrEl1
  | sctlrEl2 | hcrEl2 | cnthctlEl2 | cntvoffEl2 | cptrEl2 | spsrEl2 | elrEl2
  | sctlrEl3
deriving DecidableEq

/-- The lowest exception level that may name the register. -/
def SysReg.level : SysReg → ℕ
  | sctlrEl1 | cpacrEl1 | mairEl1 | tcrEl1 | ttbr0El1 | ttbr1El1 | vbarEl1 | tpidrEl1 => 1
  | sctlrEl2 | hcrEl2 | cnthctlEl2 | cntvoffEl2 | cptrEl2 | spsrEl2 | elrEl2 => 2
  | sctlrEl3 => 3

/-- `z` and `c` are the flags that code here branches on; `sp` has the stack pointer of each
exception level; `mem` is physical. -/
structure State where
  x : Fin 31 → Word
  sp : ℕ → Word
  pc : Word
  el : ℕ
  z : Bool
  c : Bool
  sys : SysReg → Word
  mem : WordMemory

namespace State

def set (s : State) (t : Fin 31) (v : Word) : State := { s with x := Function.update s.x t v }

def goto (s : State) (pc : Word) : State := { s with pc := pc }

/-- In front of the instruction number `k` from `va` on. -/
def atInstr (s : State) (va : Word) (k : ℕ) : State := s.goto (va + BitVec.ofNat 64 (4 * k))

@[simp] theorem atInstr_x (s : State) (va : Word) (k : ℕ) : (s.atInstr va k).x = s.x := rfl

@[simp] theorem atInstr_goto (s : State) (va pc : Word) (k : ℕ) :
    (s.atInstr va k).goto pc = s.goto pc := rfl

def setSys (s : State) (r : SysReg) (v : Word) : State :=
  { s with sys := Function.update s.sys r v }

def compare (s : State) (a b : Word) : State :=
  { s with z := a == b, c := decide (b.toNat ≤ a.toNat) }

/-- At EL1, with the flags that `SPSR_EL2` has kept. -/
def lowered (s : State) : State :=
  { s with el := 1, z := (s.sys .spsrEl2).getLsbD 30, c := (s.sys .spsrEl2).getLsbD 29 }

/-- The exception return from EL2 to EL1 with its own stack pointer.  It is legal if EL1 runs
AArch64; the other returns are not needed here. -/
def eret (s : State) : Option State :=
  if s.el = 2 ∧ s.sys .spsrEl2 &&& 0x1F = 0x5 ∧ s.sys .hcrEl2 &&& 0x80000000 ≠ 0 then
    some (s.lowered.goto (s.sys .elrEl2))
  else none

end State

inductive AccessKind
  | fetch | load | store
deriving DecidableEq

/-- The instructions that fall through. -/
inductive Op (Label : Type)
  | mov (t n : Fin 31)
  | movToSp (n : Fin 31)
  /-- `mov` or `movz` with an immediate. -/
  | movz (t : Fin 31) (v : Word)
  /-- Sixteen bits of the register are replaced. -/
  | movk (t : Fin 31) (v : BitVec 16) (shift : ℕ)
  | lsr (t n : Fin 31) (shift : ℕ)
  | orrImm (t n : Fin 31) (v : Word)
  | orr (t n m : Fin 31)
  | addImm (t n : Fin 31) (v : Word)
  | cmpImm (n : Fin 31) (v : Word)
  | cmp (n m : Fin 31)
  | tstImm (n : Fin 31) (v : Word)
  | currentEl (t : Fin 31)
  | mrs (t : Fin 31) (r : SysReg)
  | msr (r : SysReg) (t : Fin 31)
  | msrZero (r : SysReg)
  | adr (t : Fin 31) (l : Label)
  /-- The value is found in the literal pool. -/
  | ldrLit (t : Fin 31) (v : Word)
  | ldr (t n : Fin 31) (imm : ℕ)
  | str (t n : Fin 31) (imm : ℕ)
  /-- `str xzr, [n], #imm`. -/
  | strZeroPost (n : Fin 31) (imm : ℕ)
  /-- `isb`, `dsb`, `tlbi` and `wfe`. -/
  | barrier

inductive Cond
  | eq | ne | hs
deriving DecidableEq

def Cond.holds (s : State) : Cond → Bool
  | eq => s.z
  | ne => !s.z
  | hs => s.c

inductive Instr (Label : Type)
  | op (o : Op Label)
  | b (l : Label)
  | bCond (cond : Cond) (l : Label)
  | br (n : Fin 31)
  | bl (target : Word)
  | eret
  /-- A compiled function, entered at its first instruction: it runs and returns through x30. -/
  | compiled (call : State → Option State)

/-- Code in physical memory, the addresses of its labels, the slot in the literal pool that the
instruction at an address reads, and the translation that accesses go through. -/
structure Image (Label : Type) where
  code : Word → Option (Instr Label)
  label : Label → Word
  pool : Word → Word
  mmu : State → AccessKind → Word → Option Word

namespace Image

variable {Label : Type} (image : Image Label)

def read (s : State) (a : Word) : Option Word :=
  if a.toNat % 8 = 0 then (image.mmu s .load a).map (load s.mem) else none

def write (s : State) (a v : Word) : Option State :=
  if a.toNat % 8 = 0 then (image.mmu s .store a).map fun pa => { s with mem := store s.mem pa v }
  else none

end Image

namespace Op

variable {Label : Type}

def address (s : State) (n : Fin 31) (imm : ℕ) : Word := s.x n + BitVec.ofNat 64 imm

/-- The address is still to be stepped over. -/
def exec (image : Image Label) (s : State) : Op Label → Option State
  | mov t n => some (s.set t (s.x n))
  | movToSp n => some { s with sp := Function.update s.sp s.el (s.x n) }
  | movz t v => some (s.set t v)
  | movk t v shift =>
      some (s.set t (s.x t &&& ~~~(0xFFFF#64 <<< shift) ||| v.setWidth 64 <<< shift))
  | lsr t n shift => some (s.set t (s.x n >>> shift))
  | orrImm t n v => some (s.set t (s.x n ||| v))
  | orr t n m => some (s.set t (s.x n ||| s.x m))
  | addImm t n v => some (s.set t (s.x n + v))
  | cmpImm n v => some (s.compare (s.x n) v)
  | cmp n m => some (s.compare (s.x n) (s.x m))
  | tstImm n v => some { s with z := s.x n &&& v == 0, c := false }
  | currentEl t => if 1 ≤ s.el then some (s.set t (BitVec.ofNat 64 s.el <<< 2)) else none
  | mrs t r => if r.level ≤ s.el then some (s.set t (s.sys r)) else none
  | msr r t => if r.level ≤ s.el then some (s.setSys r (s.x t)) else none
  | msrZero r => if r.level ≤ s.el then some (s.setSys r 0) else none
  | adr t l => some (s.set t (image.label l))
  | ldrLit t v => (image.mmu s .load (image.pool s.pc)).map fun _ => s.set t v
  | ldr t n imm => (image.read s (address s n imm)).map (s.set t)
  | str t n imm => image.write s (address s n imm) (s.x t)
  | strZeroPost n imm => (image.write s (s.x n) 0).map fun s => s.set n (address s n imm)
  | barrier => some s

end Op

namespace Image

variable {Label : Type} (image : Image Label)

def execInstr (s : State) : Instr Label → Option State
  | .op o => (o.exec image s).map fun s => s.goto (s.pc + 4)
  | .b l => some (s.goto (image.label l))
  | .bCond cond l => some (s.goto (if cond.holds s then image.label l else s.pc + 4))
  | .br n => some (s.goto (s.x n))
  | .bl target => some ((s.set (Fin.last 30) (s.pc + 4)).goto target)
  | .eret => s.eret
  | .compiled call => (call s).map fun t => t.goto (s.x (Fin.last 30))

def step (s : State) : Option State := do
  let pa ← image.mmu s .fetch s.pc
  let i ← image.code pa
  image.execInstr s i

def Runs : State → State → Prop := Relation.ReflTransGen fun s t => image.step s = some t

variable {image} {s t u : State}

theorem Runs.trans (h : image.Runs s t) (h' : image.Runs t u) : image.Runs s u :=
  Relation.ReflTransGen.trans h h'

theorem Runs.head (h : image.step s = some t) (h' : image.Runs t u) : image.Runs s u :=
  Relation.ReflTransGen.head h h'

theorem Runs.single (h : image.step s = some t) : image.Runs s t := Relation.ReflTransGen.single h

theorem step_eq {pa : Word} {i : Instr Label} (hpa : image.mmu s .fetch s.pc = some pa)
    (hcode : image.code pa = some i) : image.step s = image.execInstr s i := by
  simp [step, hpa, hcode]

end Image

/-! ## Straight code -/

namespace Op

variable {Label : Type}

/-- The instruction where addresses translate to themselves. -/
def flat (label : Label → Word) (s : State) : Op Label → State
  | mov t n => s.set t (s.x n)
  | movToSp n => { s with sp := Function.update s.sp s.el (s.x n) }
  | movz t v => s.set t v
  | movk t v shift => s.set t (s.x t &&& ~~~(0xFFFF#64 <<< shift) ||| v.setWidth 64 <<< shift)
  | lsr t n shift => s.set t (s.x n >>> shift)
  | orrImm t n v => s.set t (s.x n ||| v)
  | orr t n m => s.set t (s.x n ||| s.x m)
  | addImm t n v => s.set t (s.x n + v)
  | cmpImm n v => s.compare (s.x n) v
  | cmp n m => s.compare (s.x n) (s.x m)
  | tstImm n v => { s with z := s.x n &&& v == 0, c := false }
  | currentEl t => s.set t (BitVec.ofNat 64 s.el <<< 2)
  | mrs t r => s.set t (s.sys r)
  | msr r t => s.setSys r (s.x t)
  | msrZero r => s.setSys r 0
  | adr t l => s.set t (label l)
  | ldrLit t v => s.set t v
  | ldr t n imm => s.set t (load s.mem (address s n imm))
  | str t n imm => { s with mem := store s.mem (address s n imm) (s.x t) }
  | strZeroPost n imm =>
      ({ s with mem := store s.mem (s.x n) 0 } : State).set n (address s n imm)
  | barrier => s

def accesses (s : State) : Op Label → List Word
  | ldr _ n imm => [address s n imm]
  | str _ n imm => [address s n imm]
  | strZeroPost n _ => [s.x n]
  | _ => []

/-- The exception level that the instruction needs. -/
def level : Op Label → ℕ
  | currentEl _ => 1
  | mrs _ r => r.level
  | msr r _ => r.level
  | msrZero r => r.level
  | _ => 0

/-- The system register that the instruction writes. -/
def writes : Op Label → Option SysReg
  | msr r _ => some r
  | msrZero r => some r
  | _ => none

/-- The instruction stores to memory. -/
def isStore : Op Label → Bool
  | str _ _ _ => true
  | strZeroPost _ _ => true
  | _ => false

end Op

variable {Label : Type}

/-- Straight code where addresses translate to themselves. -/
def flatRun (label : Label → Word) (ops : List (Op Label)) (s : State) : State :=
  ops.foldl (Op.flat label) s

def flatAccesses (label : Label → Word) : List (Op Label) → State → List Word
  | [], _ => []
  | op :: ops, s => op.accesses s ++ flatAccesses label ops (op.flat label s)

section Frame

variable {label : Label → Word} {op : Op Label} {ops : List (Op Label)} {s : State} {r : SysReg}

@[simp] theorem Op.flat_el : (op.flat label s).el = s.el := by cases op <;> rfl

theorem Op.flat_sys (h : op.writes ≠ some r) : (op.flat label s).sys r = s.sys r := by
  cases op with
  | msr r' t => exact Function.update_of_ne (fun he => h (congrArg some he.symm)) _ _
  | msrZero r' => exact Function.update_of_ne (fun he => h (congrArg some he.symm)) _ _
  | _ => rfl

theorem Op.flat_mem (h : op.isStore = false) : (op.flat label s).mem = s.mem := by
  cases op with
  | str => cases h
  | strZeroPost => cases h
  | _ => rfl

theorem Op.flat_goto (pc : Word) : op.flat label (s.goto pc) = (op.flat label s).goto pc := by
  cases op <;> rfl

theorem Op.accesses_goto (pc : Word) : op.accesses (s.goto pc) = op.accesses s := by
  cases op <;> rfl

end Frame

namespace Image

variable {image : Image Label} {s : State}

/-- An access at the address stays there. -/
def Flat (image : Image Label) (s : State) (a : Word) : Prop := ∀ kind, image.mmu s kind a = some a

theorem exec_eq_flat {op : Op Label} (hlevel : op.level ≤ s.el)
    (hpool : (image.mmu s .load (image.pool s.pc)).isSome)
    (haccess : ∀ a ∈ op.accesses s, a.toNat % 8 = 0 ∧ image.Flat s a) :
    op.exec image s = some (op.flat image.label s) := by
  cases op with
  | currentEl t => exact if_pos hlevel
  | mrs t r => exact if_pos hlevel
  | msr r t => exact if_pos hlevel
  | msrZero r => exact if_pos hlevel
  | ldrLit t v =>
      obtain ⟨pa, hpa⟩ := Option.isSome_iff_exists.mp hpool
      simp [Op.exec, Op.flat, hpa]
  | ldr t n imm =>
      have h := haccess (Op.address s n imm) (List.mem_singleton_self _)
      simp [Op.exec, Op.flat, read, h.1, h.2 .load]
  | str t n imm =>
      have h := haccess (Op.address s n imm) (List.mem_singleton_self _)
      simp [Op.exec, Op.flat, write, h.1, h.2 .store]
  | strZeroPost n imm =>
      have h := haccess (s.x n) (List.mem_singleton_self _)
      simp [Op.exec, Op.flat, write, h.1, h.2 .store, Op.address]
  | _ => rfl

/-! ## Placed code -/

/-- In the states `S`, the instructions at `va` are `code`, and the literals they use can be
read. -/
structure Executes (image : Image Label) (S : State → Prop) (va : Word)
    (code : List (Instr Label)) :
    Prop where
  goto : ∀ s pc, S s → S (s.goto pc)
  fetch : ∀ s k i, S s → code[k]? = some i →
    ∃ pa, image.mmu s .fetch (va + BitVec.ofNat 64 (4 * k)) = some pa ∧ image.code pa = some i
  pool : ∀ s k, S s → k < code.length →
    (image.mmu s .load (image.pool (va + BitVec.ofNat 64 (4 * k)))).isSome

/-- The code runs inside `S`. -/
def Stable (image : Image Label) (S : State → Prop) (ops : List (Op Label)) : Prop :=
  ∀ op ∈ ops, ∀ s, S s → S (op.flat image.label s)

namespace Executes

variable {S : State → Prop} {va : Word} {code rest : List (Instr Label)} {k : ℕ}
  {ops : List (Op Label)}

theorem getElem_of_drop {piece : List (Instr Label)} (hseg : code.drop k = piece ++ rest) {n : ℕ}
    {i : Instr Label} (hi : piece[n]? = some i) : code[k + n]? = some i := by
  have hn : n < piece.length := (List.getElem?_eq_some_iff.mp hi).1
  rw [← List.getElem?_drop, hseg, List.getElem?_append_left hn, hi]

theorem step (h : image.Executes S va code) (hs : S s) {i : Instr Label} (hi : code[k]? = some i) :
    image.step (s.atInstr va k) = image.execInstr (s.atInstr va k) i := by
  obtain ⟨pa, hpa, hcode⟩ := h.fetch _ k i (h.goto s (va + BitVec.ofNat 64 (4 * k)) hs) hi
  exact step_eq hpa hcode

theorem step_op (h : image.Executes S va code) (hs : S s) {op : Op Label}
    (hop : code[k]? = some (.op op)) (hlevel : op.level ≤ s.el)
    (haccess : ∀ a ∈ op.accesses s, a.toNat % 8 = 0 ∧ ∀ s, S s → image.Flat s a) :
    image.step (s.atInstr va k) = some ((op.flat image.label s).atInstr va (k + 1)) := by
  have hat := h.goto s (va + BitVec.ofNat 64 (4 * k)) hs
  have hlt : k < code.length := List.getElem?_eq_some_iff.mp hop |>.1
  have hflat : op.exec image (s.atInstr va k) = some (op.flat image.label (s.atInstr va k)) := by
    apply exec_eq_flat (s := s.atInstr va k) hlevel (h.pool _ k hat hlt)
    intro a ha
    rw [State.atInstr, Op.accesses_goto] at ha
    exact ⟨(haccess a ha).1, (haccess a ha).2 _ hat⟩
  have hnext : va + BitVec.ofNat 64 (4 * k) + 4 = va + BitVec.ofNat 64 (4 * (k + 1)) := by
    rw [BitVec.add_assoc]
    congr 1
    rw [Nat.mul_succ, BitVec.ofNat_add]
    rfl
  rw [h.step hs hop, execInstr, hflat, Option.map_some, State.atInstr, Op.flat_goto]
  simp only [State.atInstr, State.goto, hnext]

theorem runs_ops (h : image.Executes S va code) (hseg : code.drop k = ops.map .op ++ rest)
    (hstable : image.Stable S ops) (hs : S s) (hlevel : ∀ op ∈ ops, op.level ≤ s.el)
    (haccess : ∀ a ∈ flatAccesses image.label ops s, a.toNat % 8 = 0 ∧ ∀ s, S s → image.Flat s a) :
    image.Runs (s.atInstr va k) ((flatRun image.label ops s).atInstr va (k + ops.length)) := by
  induction ops generalizing s k with
  | nil => exact .refl
  | cons op ops ih =>
      rw [flatAccesses, List.forall_mem_append] at haccess
      rw [List.forall_mem_cons] at hlevel
      have hop : code[k]? = some (.op op) := getElem_of_drop (n := 0) hseg rfl
      have hrest : code.drop (k + 1) = ops.map .op ++ rest := by
        rw [← List.drop_drop, hseg]
        rfl
      refine .head (h.step_op hs hop hlevel.1 haccess.1) ?_
      have htail := ih hrest (fun op hop => hstable op (List.mem_cons_of_mem _ hop))
        (hstable op List.mem_cons_self s hs) (by rw [Op.flat_el]; exact hlevel.2) haccess.2
      rw [List.length_cons, Nat.add_comm ops.length, ← Nat.add_assoc]
      exact htail

theorem stable_run (hstable : image.Stable S ops) (hs : S s) : S (flatRun image.label ops s) := by
  induction ops generalizing s with
  | nil => exact hs
  | cons op ops ih =>
      exact ih (fun op hop => hstable op (List.mem_cons_of_mem _ hop))
        (hstable op List.mem_cons_self s hs)

theorem atInstr_next (s : State) (va : Word) (k : ℕ) :
    s.goto ((s.atInstr va k).pc + 4) = s.atInstr va (k + 1) := by
  rw [State.atInstr, State.atInstr, State.goto, State.goto, Nat.mul_succ, BitVec.ofNat_add,
    ← BitVec.add_assoc]
  rfl

theorem step_taken (h : image.Executes S va code) (hs : S s) {cond : Cond} {l : Label}
    (hi : code[k]? = some (.bCond cond l)) (hcond : cond.holds s = true) :
    image.step (s.atInstr va k) = some (s.goto (image.label l)) := by
  rw [h.step hs hi, execInstr,
    show cond.holds (s.atInstr va k) = true by cases cond <;> exact hcond]
  rfl

theorem step_not_taken (h : image.Executes S va code) (hs : S s) {cond : Cond} {l : Label}
    (hi : code[k]? = some (.bCond cond l)) (hcond : cond.holds s = false) :
    image.step (s.atInstr va k) = some (s.atInstr va (k + 1)) := by
  rw [h.step hs hi, execInstr,
    show cond.holds (s.atInstr va k) = false by cases cond <;> exact hcond,
    ← atInstr_next]
  rfl

theorem step_ldr (h : image.Executes S va code) (hs : S s) {t n : Fin 31} {imm : ℕ} {pa : Word}
    (hop : code[k]? = some (.op (.ldr t n imm))) (halign : (Op.address s n imm).toNat % 8 = 0)
    (hmmu : ∀ s', S s' → image.mmu s' .load (Op.address s n imm) = some pa) :
    image.step (s.atInstr va k) = some ((s.set t (load s.mem pa)).atInstr va (k + 1)) := by
  have hread : image.read (s.atInstr va k) (Op.address s n imm) = some (load s.mem pa) := by
    have hat : S (s.atInstr va k) := h.goto s _ hs
    rw [read, if_pos halign, hmmu _ hat]
    rfl
  have hexec : (Op.ldr t n imm).exec image (s.atInstr va k) =
      some ((s.set t (load s.mem pa)).atInstr va k) := by
    change (image.read _ (Op.address s n imm)).map _ = _
    rw [hread]
    rfl
  rw [h.step hs hop, execInstr, hexec, ← atInstr_next]
  rfl

theorem runs_call (h : image.Executes S va code) (hs : S s) {target pa : Word}
    {call : State → Option State} {t : State} (hbl : code[k]? = some (.bl target))
    (hmmu : ∀ s', S s' → image.mmu s' .fetch target = some pa)
    (hcode : image.code pa = some (.compiled call))
    (hset : ∀ s', S s' → ∀ v, S (s'.set (Fin.last 30) v))
    (hcall : call ((s.set (Fin.last 30) (va + BitVec.ofNat 64 (4 * (k + 1)))).goto target) =
      some t) :
    image.Runs (s.atInstr va k) (t.atInstr va (k + 1)) := by
  have hlink : (s.atInstr va k).pc + 4 = va + BitVec.ofNat 64 (4 * (k + 1)) :=
    congrArg State.pc (atInstr_next s va k)
  have hfirst := h.step hs hbl
  rw [execInstr, hlink] at hfirst
  apply Runs.head hfirst
  have hstate := h.goto _ target (hset s hs (va + BitVec.ofNat 64 (4 * (k + 1))))
  have hreturn := step_eq (hmmu _ hstate) hcode
  have hback :
      ((s.set (Fin.last 30) (va + BitVec.ofNat 64 (4 * (k + 1)))).goto target).x (Fin.last 30) =
      va + BitVec.ofNat 64 (4 * (k + 1)) := by
    simp [State.set, State.goto]
  rw [execInstr, hcall, Option.map_some, hback] at hreturn
  exact Runs.single hreturn

/-! ### The loop that clears memory -/

section Clear

variable {i j : Fin 31} {start done : Label}

/-- `i` is the pointer and `j` the limit. -/
def clearLoop (i j : Fin 31) (start done : Label) : List (Instr Label) :=
  [.op (.cmp i j), .bCond .hs done, .op (.strZeroPost i 8), .b start]

/-- The state behind the loop. -/
def clearedTo (s : State) (i j : Fin 31) (n : ℕ) : State :=
  (({ s with mem := clear s.mem (s.x i) n } : State).set i (s.x j)).compare (s.x j) (s.x j)

/-- One round: the pointer is below the limit, and the word at it is cleared. -/
theorem runs_clear_round (h : image.Executes S va code)
    (hseg : code.drop k = clearLoop i j start done ++ rest)
    (hstart : image.label start = va + BitVec.ofNat 64 (4 * k))
    (hstable : image.Stable S [.cmp i j, .strZeroPost i 8]) (hs : S s)
    (hlt : (s.x i).toNat < (s.x j).toNat) (halign : (s.x i).toNat % 8 = 0)
    (hflat : ∀ s', S s' → image.Flat s' (s.x i)) :
    image.Runs (s.atInstr va k)
      ((flatRun image.label [.cmp i j, .strZeroPost i 8] s).atInstr va k) := by
  have hcmp : S ((Op.cmp i j).flat image.label s) := hstable _ (by simp) s hs
  have hstore := hstable (.strZeroPost i 8) (by simp) _ hcmp
  have hbelow : Cond.holds ((Op.cmp i j).flat image.label s) .hs = false :=
    decide_eq_false (by omega)
  have hback := h.step hstore (getElem_of_drop (n := 3) hseg rfl)
  rw [execInstr, hstart] at hback
  apply Runs.head (h.step_op hs (getElem_of_drop (n := 0) hseg rfl) (Nat.zero_le _)
    (List.forall_mem_nil _))
  apply Runs.head (h.step_not_taken hcmp (getElem_of_drop (n := 1) hseg rfl) hbelow)
  apply Runs.head (h.step_op hcmp (getElem_of_drop (n := 2) hseg rfl) (Nat.zero_le _)
    (List.forall_mem_singleton.mpr ⟨halign, hflat⟩))
  exact .single hback

theorem runs_clear (h : image.Executes S va code)
    (hseg : code.drop k = clearLoop i j start done ++ rest) (hij : i ≠ j)
    (hstart : image.label start = va + BitVec.ofNat 64 (4 * k))
    (hstable : image.Stable S [.cmp i j, .strZeroPost i 8]) (hs : S s) {n : ℕ}
    (hn : (s.x i).toNat + 8 * n = (s.x j).toNat) (halign : (s.x i).toNat % 8 = 0)
    (hflat : ∀ s', S s' → ∀ a : Word, (s.x i).toNat ≤ a.toNat → a.toNat < (s.x j).toNat →
      image.Flat s' a) :
    image.Runs (s.atInstr va k) ((clearedTo s i j (8 * n)).goto (image.label done)) := by
  induction n generalizing s with
  | zero =>
      have heq : s.x i = s.x j := BitVec.eq_of_toNat_eq hn
      have hcmp : S ((Op.cmp i j).flat image.label s) := hstable _ (by simp) s hs
      have habove : Cond.holds ((Op.cmp i j).flat image.label s) .hs = true :=
        decide_eq_true (by omega)
      have hend : clearedTo s i j (8 * 0) = (Op.cmp i j).flat image.label s := by
        simp only [clearedTo, Op.flat, Nat.mul_zero, clear_zero, State.set, ← heq,
          Function.update_eq_self]
      rw [hend]
      apply Runs.head (h.step_op hs (getElem_of_drop (n := 0) hseg rfl) (Nat.zero_le _)
        (List.forall_mem_nil _))
      exact .single (h.step_taken hcmp (getElem_of_drop (n := 1) hseg rfl) habove)
  | succ n ih =>
      have hlimit := (s.x j).isLt
      have hround := h.runs_clear_round hseg hstart hstable hs (by omega) halign
        (fun s' hs' => hflat s' hs' _ (Nat.le_refl _) (by omega))
      generalize hs₁ : flatRun image.label [.cmp i j, .strZeroPost i 8] s = s₁ at hround
      have hpointer : s₁.x i = s.x i + 8 := by
        rw [← hs₁]
        simp [flatRun, Op.flat, State.set, State.compare, Op.address]
      have hbound : s₁.x j = s.x j := by
        rw [← hs₁]
        simp [flatRun, Op.flat, State.set, State.compare, hij.symm]
      have hval : (s₁.x i).toNat = (s.x i).toNat + 8 := by
        rw [hpointer]
        bv_omega
      have hmem : clear s₁.mem (s₁.x i) (8 * n) = clear s.mem (s.x i) (8 * (n + 1)) := by
        have hstored : s₁.mem = store s.mem (s.x i) 0 := by
          rw [← hs₁]
          rfl
        rw [hpointer, hstored, clear_store_zero (by omega), Nat.mul_succ]
      have hend : clearedTo s₁ i j (8 * n) = clearedTo s i j (8 * (n + 1)) := by
        rw [clearedTo, clearedTo, hmem, hbound, ← hs₁]
        simp [flatRun, Op.flat, State.set, State.compare]
      rw [← hend]
      apply hround.trans
      have hs' : S s₁ := hs₁ ▸ stable_run hstable hs
      apply ih hs'
      · rw [hval, hbound]
        omega
      · rw [hval]
        omega
      · rw [hval, hbound]
        intro s' hs' a ha
        exact hflat s' hs' a (by omega)

end Clear

end Executes

end Image

end Preon.Framework.MappedCode
