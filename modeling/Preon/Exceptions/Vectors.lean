import Mathlib.Data.Fintype.Basic
import Mathlib.Tactic.FinCases
import Preon.Exceptions.TrapFrame
import Preon.Framework.FrameCode

/-!
# Exception entry and exit

`ventry.s`: a vector slot reserves a trap frame and branches to its stub, the stub spills the
interrupted context and calls the Rust handler with the frame, and `common_exit` reloads the frame
and returns.  Whatever the handler does to the frame is what the interrupted code gets back.
-/

namespace Preon.Exceptions

open Framework FrameCode WordMemory

/-! ## The assembly -/

inductive Stub
  | badMode
  | el1Sync | el1Irq | el1Fiq | el1Serror
  | el0Sync | el0Irq | el0Fiq | el0Serror
deriving DecidableEq

inductive RustHandler
  | badModeHandler
  | el1SyncHandler | el1IrqHandler | el1FiqHandler | el1SerrorHandler
  | el0SyncHandler | el0IrqHandler | el0FiqHandler | el0SerrorHandler
deriving DecidableEq

inductive Label
  | stub (h : Stub)
  | commonExit

abbrev Code := List (Instr Label RustHandler)

def saveContext : List Op :=
  [.stp 0 1 0, .stp 2 3 16, .stp 4 5 32, .stp 6 7 48, .stp 8 9 64, .stp 10 11 80, .stp 12 13 96,
    .stp 14 15 112, .stp 16 17 128, .stp 18 19 144, .stp 20 21 160, .stp 22 23 176, .stp 24 25 192,
    .stp 26 27 208, .stp 28 29 224, .str 30 240,
    -- the registers that hold the return state are saved by now
    .mrs 0 .spEl0, .mrs 1 .elrEl1, .mrs 2 .spsrEl1, .stp 0 1 248, .str 2 264]

def restoreContext : List Op :=
  [.ldr 2 264, .ldp 0 1 248, .msr .spsrEl1 2, .msr .elrEl1 1, .msr .spEl0 0, .ldr 30 240,
    .ldp 28 29 224, .ldp 26 27 208, .ldp 24 25 192, .ldp 22 23 176, .ldp 20 21 160, .ldp 18 19 144,
    .ldp 16 17 128, .ldp 14 15 112, .ldp 12 13 96, .ldp 10 11 80, .ldp 8 9 64, .ldp 6 7 48,
    .ldp 4 5 32, .ldp 2 3 16, .ldp 0 1 0]

def vectorEntry (handler : Stub) : Code := [.op (.subSp 272), .b (.stub handler)]

/-- The stubs that the sixteen slots branch to. -/
def vectorTable : Vector Stub 16 :=
  #v[.badMode, .badMode, .badMode, .badMode,
    .el1Sync, .el1Irq, .el1Fiq, .el1Serror,
    .el0Sync, .el0Irq, .el0Fiq, .el0Serror,
    .badMode, .badMode, .badMode, .badMode]

def implHandler (rustHandlerName : RustHandler) : Code :=
  saveContext.map .op ++ [.op (.movFromSp 0), .bl rustHandlerName, .b .commonExit]

def rustHandler : Stub → RustHandler
  | .badMode => .badModeHandler
  | .el1Sync => .el1SyncHandler
  | .el1Irq => .el1IrqHandler
  | .el1Fiq => .el1FiqHandler
  | .el1Serror => .el1SerrorHandler
  | .el0Sync => .el0SyncHandler
  | .el0Irq => .el0IrqHandler
  | .el0Fiq => .el0FiqHandler
  | .el0Serror => .el0SerrorHandler

def text : Label → Code
  | .stub h => implHandler (rustHandler h)
  | .commonExit => restoreContext.map .op ++ [.op (.addSp 272), .eret]

/-! ## Saving and restoring over the cells -/

def registers (x : Fin 31 → Word) (sys : SysReg → Word) : TrapFrame :=
  ⟨x, sys .spEl0, sys .elrEl1, sys .spsrEl1⟩

private theorem saveContext_onFrame (f : FrameState 34) :
    ∃ g, runOnFrame saveContext f = some g ∧ TrapFrame.ofCells g.cell = registers f.x f.sys := by
  refine ⟨_, rfl, ?_⟩
  apply TrapFrame.ext
  · funext i
    fin_cases i <;> rfl
  · rfl
  · rfl
  · rfl

private theorem restoreContext_onFrame (f : FrameState 34) :
    ∃ g, runOnFrame restoreContext f = some g ∧ registers g.x g.sys = TrapFrame.ofCells f.cell := by
  refine ⟨_, rfl, ?_⟩
  apply TrapFrame.ext
  · funext i
    fin_cases i <;> rfl
  · rfl
  · rfl
  · rfl

private theorem saveContext_run (s : Cpu) :
    TrapFrame.load (run saveContext s).mem s.sp = registers s.x s.sys ∧
      (run saveContext s).sp = s.sp ∧ InFrame 34 s.sp (accesses Op.stores saveContext s) := by
  obtain ⟨g, hg, hcells⟩ := saveContext_onFrame (s.frame 34)
  have hrun := run_onFrame (by decide) hg
  refine ⟨?_, hrun.sp, hrun.stores⟩
  rw [← hrun.frame] at hcells
  rw [TrapFrame.load_eq_ofCells, ← hrun.sp]
  exact hcells

private theorem restoreContext_run (s : Cpu) :
    registers (run restoreContext s).x (run restoreContext s).sys = TrapFrame.load s.mem s.sp ∧
      (run restoreContext s).sp = s.sp ∧ InFrame 34 s.sp (accesses Op.loads restoreContext s) := by
  obtain ⟨g, hg, hregs⟩ := restoreContext_onFrame (s.frame 34)
  have hrun := run_onFrame (by decide) hg
  refine ⟨?_, hrun.sp, hrun.loads⟩
  rw [← hrun.frame] at hregs
  rw [TrapFrame.load_eq_ofCells]
  exact hregs

/-! ## From the slot to the handler and back -/

variable (callee : RustHandler → Callee) (link : RustHandler → Word)

def image : Image Label RustHandler := ⟨text, callee, link⟩

/-- The base of the frame that an exception taken at this stack pointer gets. -/
def frameBase (sp : Word) : Word := sp - 272#64

/-- What the handler finds: its argument is the frame, the frame is the interrupted context, and no
other byte has changed. -/
structure Entered (s m : Cpu) : Prop where
  argument : m.x 0 = frameBase s.sp
  sp : m.sp = frameBase s.sp
  frame : TrapFrame.load m.mem (m.x 0) = registers s.x s.sys
  mem : ∀ x, ¬ InRun (frameBase s.sp) 272 x → m.mem x = s.mem x

/-- The CPU at the call, for an exception taken in state `s`. -/
def atCall (s : Cpu) : Cpu := (Op.movFromSp 0).exec (run saveContext ((Op.subSp 272).exec s))

private theorem movFromSp_x (s : Cpu) : ((Op.movFromSp 0).exec s).x 0 = s.sp := by
  simp [Op.exec]

private theorem movFromSp_sp (s : Cpu) : ((Op.movFromSp 0).exec s).sp = s.sp := rfl

private theorem movFromSp_mem (s : Cpu) : ((Op.movFromSp 0).exec s).mem = s.mem := rfl

private theorem subSp_sp (s : Cpu) : ((Op.subSp 272).exec s).sp = frameBase s.sp := rfl

private theorem atCall_entered (s : Cpu) : Entered s (atCall s) := by
  obtain ⟨hframe, hsp, hstores⟩ := saveContext_run ((Op.subSp 272).exec s)
  rw [subSp_sp] at hframe hsp hstores
  constructor
  · rw [atCall, movFromSp_x, hsp]
  · rw [atCall, movFromSp_sp, hsp]
  · rw [atCall, movFromSp_x, movFromSp_mem, hsp]
    exact hframe
  · intro x hx
    rw [atCall, movFromSp_mem]
    exact run_mem fun htouch => hx (hstores.inRun (by decide) htouch)

private theorem slot_runs (h : Stub) (s : Cpu) :
    (image callee link).Runs (.running (vectorEntry h) s)
      (.running [.bl (rustHandler h), .b .commonExit] (atCall s)) := by
  apply Image.Runs.head rfl
  apply Image.Runs.head rfl
  apply (Image.runs_ops saveContext _ _).trans
  exact Image.Runs.head rfl .refl

private theorem commonExit_runs (m : Cpu) :
    ∃ t, (image callee link).Runs (.running (text .commonExit) m)
        (.returned (t.sys .elrEl1) (t.sys .spsrEl1) t) ∧
      registers t.x t.sys = TrapFrame.load m.mem m.sp ∧ t.sp = m.sp + 272#64 := by
  obtain ⟨hregs, hsp, -⟩ := restoreContext_run m
  refine ⟨(Op.addSp 272).exec (run restoreContext m), ?_, hregs, ?_⟩
  · apply (Image.runs_ops restoreContext _ m).trans
    apply Image.Runs.head rfl
    exact Image.Runs.head rfl .refl
  · exact congrArg (· + 272#64) hsp

/-- The handler changes the frame it is given by `f`. -/
def Applies (c : Callee) (f : TrapFrame → TrapFrame) : Prop :=
  ∀ s t, c.call s = some t → TrapFrame.load t.mem (s.x 0) = f (TrapFrame.load s.mem (s.x 0))

/-- What the interrupted code gets back: the CPU returns to it with the frame as the handler left it
in its registers, and with its stack pointer. -/
structure Resumed (s : Cpu) (left : TrapFrame) (pc pstate : Word) (t : Cpu) : Prop where
  pc : pc = left.elrEl1
  pstate : pstate = left.spsrEl1
  registers : registers t.x t.sys = left
  sp : t.sp = s.sp

private theorem call_runs {handler : RustHandler} {m m' : Cpu}
    (hcall : (callee handler).call (m.linked (link handler)) = some m')
    {c : Config Label RustHandler}
    (hruns : (image callee link).Runs (.running (text .commonExit) m') c) :
    (image callee link).Runs (.running [.bl handler, .b .commonExit] m) c := by
  have hreturn : (image callee link).step (.running [.bl handler, .b .commonExit] m) =
      some (.running [.b .commonExit] m') := by
    simp only [Image.step, image, hcall, Option.map_some]
  exact .head hreturn (.head rfl hruns)

private theorem Entered.sp_eq {s m m' : Cpu} (h : Entered s m) {c : Callee} {ret : Word}
    (hcall : c.call (m.linked ret) = some m') : m'.sp = frameBase s.sp :=
  (c.sp_eq hcall).trans h.sp

private theorem Entered.left_eq {s m m' : Cpu} (h : Entered s m) {c : Callee} {ret : Word}
    (hcall : c.call (m.linked ret) = some m') {f : TrapFrame → TrapFrame} (hf : Applies c f) :
    TrapFrame.load m'.mem (frameBase s.sp) = f (registers s.x s.sys) := by
  -- the link register is not the argument
  have harg : (m.linked ret).x 0 = m.x 0 := rfl
  have hleft := hf _ _ hcall
  rw [harg] at hleft
  rw [← h.argument, hleft, ← h.frame]
  rfl

private theorem Entered.resumes {s m m' : Cpu} (h : Entered s m) {handler : RustHandler}
    (hcall : (callee handler).call (m.linked (link handler)) = some m') :
    ∃ pc pstate t, (image callee link).Runs (.running [.bl handler, .b .commonExit] m)
        (.returned pc pstate t) ∧
      Resumed s (TrapFrame.load m'.mem (frameBase s.sp)) pc pstate t := by
  obtain ⟨t, hruns, hregs, ht⟩ := commonExit_runs callee link m'
  rw [h.sp_eq hcall] at hregs ht
  refine ⟨_, _, t, call_runs callee link hcall hruns, ?_, ?_, hregs, ?_⟩
  · exact congrArg TrapFrame.elrEl1 hregs
  · exact congrArg TrapFrame.spsrEl1 hregs
  · rw [ht]
    exact BitVec.sub_add_cancel s.sp 272#64

/-- An exception through any slot in any state: the handler finds the interrupted context in its
frame, the context it leaves there is resumed, and neither saving nor restoring goes outside the
272 bytes below the stack pointer. -/
theorem exception_roundTrip (i : Fin 16) (s : Cpu) :
    ∃ m, (image callee link).Runs (.running (vectorEntry (vectorTable.get i)) s)
        (.running [.bl (rustHandler (vectorTable.get i)), .b .commonExit] m) ∧
      Entered s m ∧
      (∀ x, Touches (accesses Op.stores saveContext ((Op.subSp 272).exec s)) x →
        InRun (frameBase s.sp) 272 x) ∧
      ∀ m', (callee (rustHandler (vectorTable.get i))).call
          (m.linked (link (rustHandler (vectorTable.get i)))) = some m' →
        (∀ x, Touches (accesses Op.loads restoreContext m') x → InRun (frameBase s.sp) 272 x) ∧
        (∀ u, SameRegisters m' u → (∀ x, InRun (frameBase s.sp) 272 x → m'.mem x = u.mem x) →
          SameRegisters (run restoreContext m') (run restoreContext u)) ∧
        (∃ pc pstate t, (image callee link).Runs
            (.running [.bl (rustHandler (vectorTable.get i)), .b .commonExit] m)
            (.returned pc pstate t) ∧
          Resumed s (TrapFrame.load m'.mem (frameBase s.sp)) pc pstate t) ∧
        ∀ f, Applies (callee (rustHandler (vectorTable.get i))) f →
          TrapFrame.load m'.mem (frameBase s.sp) = f (registers s.x s.sys) := by
  generalize vectorTable.get i = stub
  have hentered := atCall_entered s
  have hstores := (saveContext_run ((Op.subSp 272).exec s)).2.2
  refine ⟨atCall s, slot_runs callee link stub s, hentered, ?_, ?_⟩
  · intro x hx
    exact hstores.inRun (by decide) hx
  · intro m' hcall
    have hloads : ∀ x, Touches (accesses Op.loads restoreContext m') x →
        InRun (frameBase s.sp) 272 x := by
      intro x hx
      rw [← hentered.sp_eq hcall]
      exact (restoreContext_run m').2.2.inRun (by decide) hx
    refine ⟨hloads, ?_, hentered.resumes callee link hcall, ?_⟩
    · intro u hu hmem
      exact run_registers hu fun x hx => hmem x (hloads x hx)
    · intro f hf
      exact hentered.left_eq hcall hf

/-- The frame of an exception that skips the instruction it was taken at. -/
def TrapFrame.skip (frame : TrapFrame) : TrapFrame := { frame with elrEl1 := frame.elrEl1 + 4 }

/-- A handler that moves the saved `ELR_EL1` on by one instruction. -/
def skipping : Callee where
  call s := some { s with
    mem := s.mem.store (cellAddr (s.x 0) 32) (TrapFrame.load s.mem (s.x 0)).skip.elrEl1 }
  sp_eq h := (congrArg Cpu.sp (Option.some.inj h)).symm

private theorem skipping_applies : Applies skipping TrapFrame.skip := by
  intro s t h
  obtain rfl := Option.some.inj h
  have hcells := cells_store (n := 34) (by decide) s.mem (s.x 0)
    (TrapFrame.load s.mem (s.x 0)).skip.elrEl1 32
  simp only [TrapFrame.load_eq_ofCells] at hcells ⊢
  refine (congrArg TrapFrame.ofCells hcells).trans (TrapFrame.ext (funext fun i => ?_) rfl rfl rfl)
  have hlow : i.castLE (by decide) ≠ (32 : Fin 34) :=
    Fin.ne_of_val_ne (Nat.ne_of_lt (i.isLt.trans (by decide)))
  exact Function.update_of_ne hlow ..

/-- A CPU so close to the bottom of the address space that the frame wraps around. -/
def lowCpu : Cpu where
  x i := BitVec.ofNat 64 i
  sp := 16
  sys
    | .spEl0 => 0x1000
    | .elrEl1 => 0x2000
    | .spsrEl1 => 0x5
  mem _ := 0

theorem exception_roundTrip_lowCpu :
    ∃ pc pstate t, (image (fun _ => skipping) (fun _ => 0)).Runs
        (.running (vectorEntry .el1Sync) lowCpu) (.returned pc pstate t) ∧
      registers t.x t.sys = (registers lowCpu.x lowCpu.sys).skip ∧ pc = 0x2004 ∧ t.sp = 16 := by
  obtain ⟨m, hentry, -, -, hreturn⟩ :=
    exception_roundTrip (fun _ => skipping) (fun _ => 0) 4 lowCpu
  obtain ⟨-, -, ⟨pc, pstate, t, hexit, hresumed⟩, hleft⟩ := hreturn _ rfl
  rw [hleft _ skipping_applies] at hresumed
  exact ⟨pc, pstate, t, hentry.trans hexit, hresumed.registers, hresumed.pc, hresumed.sp⟩

end Preon.Exceptions
