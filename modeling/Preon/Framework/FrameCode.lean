import Mathlib.Logic.Relation
import Preon.Framework.WordMemory

/-!
# Spilling and reloading in A64

The instructions that save a register context to a stack frame and load it back, with the bytes
each of them reads and writes.  While the stack pointer stands still, code that addresses whole
cells of the frame is code over registers and cells; the rule for it gives the result and the
footprint at once.  Branches, calls and the exception return connect such pieces.

The code is a list of instructions, and memory is as the code sees it: there is no program counter
and no translation.  Accesses are not checked for alignment.
-/

namespace Preon.Framework.FrameCode

open WordMemory

inductive SysReg
  | spEl0 | elrEl1 | spsrEl1
deriving DecidableEq

/-- A CPU at EL1; `sp` is its own stack pointer. -/
structure Cpu where
  x : Fin 31 → Word
  sp : Word
  sys : SysReg → Word
  mem : WordMemory

/-- The address `[sp, #imm]`. -/
def Cpu.operand (s : Cpu) (imm : ℕ) : Word := s.sp + BitVec.ofNat 64 imm

/-- The instructions that fall through; memory operands are `[sp, #imm]`. -/
inductive Op
  | stp (t₁ t₂ : Fin 31) (imm : ℕ)
  | str (t : Fin 31) (imm : ℕ)
  | ldp (t₁ t₂ : Fin 31) (imm : ℕ)
  | ldr (t : Fin 31) (imm : ℕ)
  | mrs (t : Fin 31) (r : SysReg)
  | msr (r : SysReg) (t : Fin 31)
  | movFromSp (t : Fin 31)
  | addSp (imm : ℕ)
  | subSp (imm : ℕ)

namespace Op

def exec (s : Cpu) : Op → Cpu
  | stp t₁ t₂ imm =>
      let mem := store s.mem (s.operand imm) (s.x t₁)
      { s with mem := store mem (s.operand (imm + 8)) (s.x t₂) }
  | str t imm => { s with mem := store s.mem (s.operand imm) (s.x t) }
  | ldp t₁ t₂ imm =>
      let x := Function.update s.x t₁ (load s.mem (s.operand imm))
      { s with x := Function.update x t₂ (load s.mem (s.operand (imm + 8))) }
  | ldr t imm => { s with x := Function.update s.x t (load s.mem (s.operand imm)) }
  | mrs t r => { s with x := Function.update s.x t (s.sys r) }
  | msr r t => { s with sys := Function.update s.sys r (s.x t) }
  | movFromSp t => { s with x := Function.update s.x t s.sp }
  | addSp imm => { s with sp := s.sp + BitVec.ofNat 64 imm }
  | subSp imm => { s with sp := s.sp - BitVec.ofNat 64 imm }

/-- The addresses of the words the instruction writes. -/
def stores (s : Cpu) : Op → List Word
  | stp _ _ imm => [s.operand imm, s.operand (imm + 8)]
  | str _ imm => [s.operand imm]
  | _ => []

/-- The addresses of the words the instruction reads. -/
def loads (s : Cpu) : Op → List Word
  | ldp _ _ imm => [s.operand imm, s.operand (imm + 8)]
  | ldr _ imm => [s.operand imm]
  | _ => []

end Op

def run (ops : List Op) (s : Cpu) : Cpu := ops.foldl Op.exec s

/-- The addresses a piece of code accesses, by what each instruction accesses. -/
def accesses (footprint : Cpu → Op → List Word) : List Op → Cpu → List Word
  | [], _ => []
  | op :: ops, s => footprint s op ++ accesses footprint ops (op.exec s)

def Touches (words : List Word) (x : Word) : Prop := ∃ a ∈ words, InRun a 8 x

theorem touches_append {ws vs : List Word} {x : Word} :
    Touches (ws ++ vs) x ↔ Touches ws x ∨ Touches vs x := by
  simp only [Touches, List.mem_append, or_and_right, exists_or]

/-! ## The footprints are right -/

section Footprint

variable {op : Op} {ops : List Op} {s t : Cpu} {x : Word}

theorem Op.exec_mem (h : ¬ Touches (op.stores s) x) : (op.exec s).mem x = s.mem x := by
  simp only [Touches, not_exists, not_and] at h
  cases op with
  | stp t₁ t₂ imm =>
      exact (store_apply_of_not_inRun (h _ (by simp [stores]))).trans
        (store_apply_of_not_inRun (h _ (by simp [stores])))
  | str t imm => exact store_apply_of_not_inRun (h _ (by simp [stores]))
  | _ => rfl

theorem run_mem (h : ¬ Touches (accesses Op.stores ops s) x) : (run ops s).mem x = s.mem x := by
  induction ops generalizing s with
  | nil => rfl
  | cons op ops ih =>
      rw [accesses, touches_append, not_or] at h
      exact (ih h.2).trans (Op.exec_mem h.1)

structure SameRegisters (s t : Cpu) : Prop where
  x : s.x = t.x
  sp : s.sp = t.sp
  sys : s.sys = t.sys

theorem Op.exec_registers (h : SameRegisters s t)
    (hmem : ∀ x, Touches (op.loads s) x → s.mem x = t.mem x) :
    SameRegisters (op.exec s) (op.exec t) := by
  have hload (a : Word) (ha : a ∈ op.loads s) : load s.mem a = load t.mem a :=
    load_congr fun x hx => hmem x ⟨a, ha, hx⟩
  obtain ⟨hx, hsp, hsys⟩ := h
  cases op <;> constructor <;> simp_all [exec, loads, Cpu.operand]

theorem Op.exec_mem_congr (op : Op) (h : SameRegisters s t) (hx : s.mem x = t.mem x) :
    (op.exec s).mem x = (op.exec t).mem x := by
  obtain ⟨hregs, hsp, _⟩ := h
  cases op <;> simp only [exec, store, Cpu.operand, hregs, hsp, hx]

theorem run_registers (h : SameRegisters s t)
    (hmem : ∀ x, Touches (accesses Op.loads ops s) x → s.mem x = t.mem x) :
    SameRegisters (run ops s) (run ops t) := by
  induction ops generalizing s t with
  | nil => exact h
  | cons op ops ih =>
      have hop := op.exec_registers h fun x hx => hmem x (touches_append.mpr (.inl hx))
      apply ih hop
      intro x hx
      exact op.exec_mem_congr h (hmem x (touches_append.mpr (.inr hx)))

end Footprint

/-! ## Code over the cells of a frame -/

/-- The registers and the cells of the frame at the stack pointer. -/
structure FrameState (n : ℕ) where
  x : Fin 31 → Word
  sys : SysReg → Word
  cell : Fin n → Word

variable {n : ℕ}

def Cpu.frame (n : ℕ) (s : Cpu) : FrameState n := ⟨s.x, s.sys, cells n s.mem s.sp⟩

/-- The cell that an offset addresses. -/
def cellAt (n imm : ℕ) : Option (Fin n) :=
  if h : imm % 8 = 0 ∧ imm / 8 < n then some ⟨imm / 8, h.2⟩ else none

theorem operand_eq {s : Cpu} {imm : ℕ} {k : Fin n} (h : cellAt n imm = some k) :
    s.operand imm = cellAddr s.sp k := by
  rw [cellAt] at h
  split at h
  · next hcell =>
      obtain rfl := Option.some.inj h
      rw [Cpu.operand, cellAddr, Nat.mul_div_cancel' (Nat.dvd_of_mod_eq_zero hcell.1)]
  · cases h

/-- The instruction over registers and cells; none if it moves the stack pointer, reads it or
addresses no cell. -/
def Op.onFrame (f : FrameState n) : Op → Option (FrameState n)
  | stp t₁ t₂ imm => do
      let k₁ ← cellAt n imm
      let k₂ ← cellAt n (imm + 8)
      return { f with cell := Function.update (Function.update f.cell k₁ (f.x t₁)) k₂ (f.x t₂) }
  | str t imm => do
      let k ← cellAt n imm
      return { f with cell := Function.update f.cell k (f.x t) }
  | ldp t₁ t₂ imm => do
      let k₁ ← cellAt n imm
      let k₂ ← cellAt n (imm + 8)
      return { f with x := Function.update (Function.update f.x t₁ (f.cell k₁)) t₂ (f.cell k₂) }
  | ldr t imm => do
      let k ← cellAt n imm
      return { f with x := Function.update f.x t (f.cell k) }
  | mrs t r => some { f with x := Function.update f.x t (f.sys r) }
  | msr r t => some { f with sys := Function.update f.sys r (f.x t) }
  | movFromSp _ => none
  | addSp _ => none
  | subSp _ => none

def runOnFrame (ops : List Op) (f : FrameState n) : Option (FrameState n) := ops.foldlM Op.onFrame f

def InFrame (n : ℕ) (base : Word) (words : List Word) : Prop :=
  ∀ a ∈ words, ∃ k : Fin n, a = cellAddr base k

theorem InFrame.inRun {base x : Word} {words : List Word} (h : InFrame n base words)
    (hn : 8 * n ≤ 2 ^ 64) (hx : Touches words x) : InRun base (8 * n) x := by
  obtain ⟨a, ha, hx⟩ := hx
  obtain ⟨k, rfl⟩ := h a ha
  exact inRun_frame hn k.isLt hx

theorem inFrame_nil {base : Word} : InFrame n base [] := List.forall_mem_nil _

theorem InFrame.cons {s : Cpu} {words : List Word} (h : InFrame n s.sp words) {imm : ℕ} {k : Fin n}
    (hk : cellAt n imm = some k) : InFrame n s.sp (s.operand imm :: words) :=
  List.forall_mem_cons.mpr ⟨⟨k, operand_eq hk⟩, h⟩

theorem InFrame.append {base : Word} {ws vs : List Word} (h : InFrame n base ws)
    (h' : InFrame n base vs) : InFrame n base (ws ++ vs) :=
  List.forall_mem_append.mpr ⟨h, h'⟩

/-- What code over a frame does to the CPU: the frame changes to `f`, the stack pointer stays, and
every word accessed is a cell. -/
structure OnFrame (s t : Cpu) (loads stores : List Word) (f : FrameState n) : Prop where
  frame : t.frame n = f
  sp : t.sp = s.sp
  loads : InFrame n s.sp loads
  stores : InFrame n s.sp stores

theorem Op.exec_onFrame (hn : 8 * n ≤ 2 ^ 64) {op : Op} {s : Cpu} {f : FrameState n}
    (h : op.onFrame (s.frame n) = some f) : OnFrame s (op.exec s) (op.loads s) (op.stores s) f := by
  cases op with
  | stp t₁ t₂ imm =>
      simp only [onFrame, Option.bind_eq_bind, Option.bind_eq_some_iff, Option.pure_def,
        Option.some.injEq] at h
      obtain ⟨k₁, hk₁, k₂, hk₂, rfl⟩ := h
      constructor
      · simp only [exec, Cpu.frame, operand_eq hk₁, operand_eq hk₂, cells_store hn]
      · rfl
      · exact inFrame_nil
      · exact (inFrame_nil.cons hk₂).cons hk₁
  | str t imm =>
      simp only [onFrame, Option.bind_eq_bind, Option.bind_eq_some_iff, Option.pure_def,
        Option.some.injEq] at h
      obtain ⟨k, hk, rfl⟩ := h
      constructor
      · simp only [exec, Cpu.frame, operand_eq hk, cells_store hn]
      · rfl
      · exact inFrame_nil
      · exact inFrame_nil.cons hk
  | ldp t₁ t₂ imm =>
      simp only [onFrame, Option.bind_eq_bind, Option.bind_eq_some_iff, Option.pure_def,
        Option.some.injEq] at h
      obtain ⟨k₁, hk₁, k₂, hk₂, rfl⟩ := h
      constructor
      · simp only [exec, Cpu.frame, operand_eq hk₁, operand_eq hk₂, cells]
      · rfl
      · exact (inFrame_nil.cons hk₂).cons hk₁
      · exact inFrame_nil
  | ldr t imm =>
      simp only [onFrame, Option.bind_eq_bind, Option.bind_eq_some_iff, Option.pure_def,
        Option.some.injEq] at h
      obtain ⟨k, hk, rfl⟩ := h
      constructor
      · simp only [exec, Cpu.frame, operand_eq hk, cells]
      · rfl
      · exact inFrame_nil.cons hk
      · exact inFrame_nil
  | mrs t r =>
      obtain rfl := Option.some.inj h
      exact ⟨rfl, rfl, inFrame_nil, inFrame_nil⟩
  | msr r t =>
      obtain rfl := Option.some.inj h
      exact ⟨rfl, rfl, inFrame_nil, inFrame_nil⟩
  | movFromSp t => cases h
  | addSp imm => cases h
  | subSp imm => cases h

/-- Code that runs over the cells runs on the CPU, and accesses nothing but the frame. -/
theorem run_onFrame (hn : 8 * n ≤ 2 ^ 64) {ops : List Op} {s : Cpu} {f : FrameState n}
    (h : runOnFrame ops (s.frame n) = some f) :
    OnFrame s (run ops s) (accesses Op.loads ops s) (accesses Op.stores ops s) f := by
  induction ops generalizing s with
  | nil =>
      obtain rfl := Option.some.inj h
      exact ⟨rfl, rfl, inFrame_nil, inFrame_nil⟩
  | cons op ops ih =>
      rw [runOnFrame, List.foldlM_cons, Option.bind_eq_bind, Option.bind_eq_some_iff] at h
      obtain ⟨g, hop, hops⟩ := h
      have hstep := Op.exec_onFrame hn hop
      rw [← hstep.frame] at hops
      have hrest := ih hops
      constructor
      · exact hrest.frame
      · exact hrest.sp.trans hstep.sp
      · exact hstep.loads.append (hstep.sp ▸ hrest.loads)
      · exact hstep.stores.append (hstep.sp ▸ hrest.stores)

/-! ## Branches, calls and the exception return -/

section Control

variable {Label Symbol : Type*}

inductive Instr (Label Symbol : Type*)
  | op (o : Op)
  | b (l : Label)
  | bl (f : Symbol)
  | eret

/-- Compiled code that is called: it may change everything but the stack pointer, and it need not
return. -/
structure Callee where
  call : Cpu → Option Cpu
  sp_eq : ∀ {s t}, call s = some t → t.sp = s.sp

/-- Linked code: the text at each label, what the called symbols do, and the return address of a
call. -/
structure Image (Label Symbol : Type*) where
  text : Label → List (Instr Label Symbol)
  callee : Symbol → Callee
  link : Symbol → Word

/-- A CPU in front of some code, or back where the exception return took it. -/
inductive Config (Label Symbol : Type*)
  | running (code : List (Instr Label Symbol)) (s : Cpu)
  | returned (pc pstate : Word) (s : Cpu)

/-- `bl` leaves the return address in x30. -/
def Cpu.linked (s : Cpu) (link : Word) : Cpu :=
  { s with x := Function.update s.x (Fin.last 30) link }

namespace Image

variable (image : Image Label Symbol)

def step : Config Label Symbol → Option (Config Label Symbol)
  | .running (.op o :: code) s => some (.running code (o.exec s))
  | .running (.b l :: _) s => some (.running (image.text l) s)
  | .running (.bl f :: code) s =>
      ((image.callee f).call (s.linked (image.link f))).map (.running code)
  | .running (.eret :: _) s => some (.returned (s.sys .elrEl1) (s.sys .spsrEl1) s)
  | .running [] _ => none
  | .returned _ _ _ => none

def Runs : Config Label Symbol → Config Label Symbol → Prop :=
  Relation.ReflTransGen fun c d => image.step c = some d

variable {image}

theorem Runs.head {c d e : Config Label Symbol} (h : image.step c = some d) (hd : image.Runs d e) :
    image.Runs c e :=
  Relation.ReflTransGen.head h hd

theorem runs_ops (ops : List Op) (code : List (Instr Label Symbol)) (s : Cpu) :
    image.Runs (.running (ops.map .op ++ code) s) (.running code (run ops s)) := by
  induction ops generalizing s with
  | nil => exact .refl
  | cons op ops ih => exact .head rfl (ih (op.exec s))

end Image

end Control

end Preon.Framework.FrameCode
