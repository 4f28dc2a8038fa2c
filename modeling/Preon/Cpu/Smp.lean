import Mathlib.Logic.Function.Basic
import Preon.Cpu.Online
import Preon.Framework.Transition

/-!
# Bringing up the secondary CPUs

A translation of `Smp::bring_up_all`, `secondary.s` and `secondary_cpu_main` as a transition
system: the primary walks the device tree while the secondaries it has started run on their own,
one system-register write or memory access at a time.  What the firmware and the stack allocator
answer is an input of the primary's step.
-/

namespace Preon.Cpu

open Framework

/-- The identity of a CPU keeps the affinity fields only. -/
def Mpidr.new (raw : ℕ) : ℕ := raw &&& 0xFF00FFFFFF

inductive PsciError
  | notSupported | invalidParameters | denied | alreadyOn | onPending | internalFailure
  | notPresent | disabled | invalidAddress
  | unknown (code : ℤ)

def PsciError.fromCode (code : ℤ) : PsciError :=
  if code = -1 then .notSupported
  else if code = -2 then .invalidParameters
  else if code = -3 then .denied
  else if code = -4 then .alreadyOn
  else if code = -5 then .onPending
  else if code = -6 then .internalFailure
  else if code = -7 then .notPresent
  else if code = -8 then .disabled
  else if code = -9 then .invalidAddress
  else .unknown code

inductive BringUpError
  | tooManyCpus
  | psci (mpidr : ℕ) (error : PsciError)
  | outOfMemory

structure CpuData where
  cpuId : ℕ
  mpidr : ℕ

structure SecondaryBootData where
  percpuOffset : ℕ
  stackTop : ℕ
  ttbr1Root : ℕ

/-- The system registers that matter here, with `SCTLR_EL1.M`. -/
structure Registers where
  tcr : ℕ
  ttbr0 : ℕ
  ttbr1 : ℕ
  tpidr : ℕ
  mmuOn : Bool

/-- The value both `boot.s` and `secondary.s` give to `TCR_EL1`. -/
def tcrValue : ℕ := 0x25B5503510

/-- What does not change while the CPUs come up. -/
structure Platform where
  profile : Profile
  primaryMpidr : ℕ
  cpus : List ℕ
  root : ℕ
  idmapL0 : ℕ
  areas : ℕ
  percpuStart : ℕ
  percpu_le : percpuStart ≤ areas

def percpuMax : ℕ := 4096

def Platform.offsetOfCpu (pl : Platform) (cpu : ℕ) : ℕ :=
  pl.areas + cpu * percpuMax - pl.percpuStart

/-- The nodes of the device tree that are not the primary. -/
def Platform.secondaries (pl : Platform) (nodes : List ℕ) : List ℕ :=
  nodes.filter fun raw => Mpidr.new raw ≠ pl.primaryMpidr

def Platform.nrSecondaries (pl : Platform) : ℕ := (pl.secondaries pl.cpus).length

/-- How far a secondary has come. -/
inductive SecondaryPc
  | entry | tcrSet | ttbr0Set | ttbr1Set | high | main | parked | panicked
deriving DecidableEq

structure Secondary where
  pc : SecondaryPc
  regs : Registers

inductive PrimaryPc
  | enter
  | loop (nodes : List ℕ)
  | stack (mpidr : ℕ) (rest : List ℕ)
  | cpuOn (mpidr : ℕ) (rest : List ℕ)
  | waiting (rest : List ℕ)
  | returned (result : Except BringUpError Unit)
  | panicked

/-- The CPUs and the statics they share.  A secondary is found by the slot of its boot data;
`marks` records who called `mark_online` with which id. -/
structure Smp where
  online : ℕ
  marks : List (ℕ × ℕ)
  cpuData : ℕ → CpuData
  bootData : ℕ → SecondaryBootData
  primary : PrimaryPc
  primaryRegs : Registers
  nextIdx : ℕ
  secondary : ℕ → Option Secondary

/-- What the stack allocator and the firmware answer. -/
structure Answers where
  stack : Option ℕ
  psci : ℤ

namespace Smp

def initCpu (pl : Platform) (st : Smp) (cpu mpidr : ℕ) : Smp :=
  { st with cpuData := Function.update st.cpuData (pl.offsetOfCpu cpu) ⟨cpu, mpidr⟩ }

def prepareBootData (pl : Platform) (st : Smp) (cpu stackTop : ℕ) : Smp :=
  { st with bootData := Function.update st.bootData cpu
              ⟨pl.offsetOfCpu cpu, stackTop, pl.root⟩ }

/-- A CPU that the firmware has just switched on. -/
def switchedOn : Secondary := ⟨.entry, ⟨0, 0, 0, 0, false⟩⟩

def primaryStep (pl : Platform) (answers : Answers) (st : Smp) : Smp :=
  match st.primary with
  | .enter =>
      match markOnline pl.profile st.online 0 with
      | .ok online =>
          { st.initCpu pl 0 pl.primaryMpidr with
            primaryRegs := { st.primaryRegs with tpidr := pl.offsetOfCpu 0 }
            online := online
            marks := (0, 0) :: st.marks
            nextIdx := 1
            primary := .loop pl.cpus }
      | .error _ => { st with primary := .panicked }
  | .loop [] => { st with primary := .returned (.ok ()) }
  | .loop (raw :: rest) =>
      if Mpidr.new raw = pl.primaryMpidr then { st with primary := .loop rest }
      else if maxCpus ≤ st.nextIdx then { st with primary := .returned (.error .tooManyCpus) }
      else { st.initCpu pl st.nextIdx (Mpidr.new raw) with primary := .stack (Mpidr.new raw) rest }
  | .stack mpidr rest =>
      match answers.stack with
      | none => { st with primary := .returned (.error .outOfMemory) }
      | some top => { st.prepareBootData pl st.nextIdx top with primary := .cpuOn mpidr rest }
  | .cpuOn mpidr rest =>
      if answers.psci = 0 then
        { st with primary := .waiting rest
                  secondary := Function.update st.secondary st.nextIdx (some switchedOn) }
      else { st with primary := .returned (.error (.psci mpidr (.fromCode answers.psci))) }
  | .waiting rest =>
      match isOnline pl.profile st.online st.nextIdx with
      | .ok true => { st with nextIdx := st.nextIdx + 1, primary := .loop rest }
      | .ok false => st
      | .error _ => { st with primary := .panicked }
  | .returned _ => st
  | .panicked => st

def putSecondary (st : Smp) (slot : ℕ) (s : Secondary) : Smp :=
  { st with secondary := Function.update st.secondary slot (some s) }

/-- One step of the secondary `s` that was started with the boot data of `slot`. -/
def runSecondary (pl : Platform) (slot : ℕ) (s : Secondary) (st : Smp) : Smp :=
  match s.pc with
  | .entry => st.putSecondary slot ⟨.tcrSet, { s.regs with tcr := tcrValue }⟩
  | .tcrSet => st.putSecondary slot ⟨.ttbr0Set, { s.regs with ttbr0 := pl.idmapL0 }⟩
  | .ttbr0Set =>
      st.putSecondary slot ⟨.ttbr1Set, { s.regs with ttbr1 := (st.bootData slot).ttbr1Root }⟩
  | .ttbr1Set => st.putSecondary slot ⟨.high, { s.regs with mmuOn := true }⟩
  | .high =>
      st.putSecondary slot ⟨.main, { s.regs with tpidr := (st.bootData slot).percpuOffset }⟩
  | .main =>
      match markOnline pl.profile st.online (st.cpuData s.regs.tpidr).cpuId with
      | .ok online =>
          { st.putSecondary slot ⟨.parked, s.regs⟩ with
            online := online, marks := (slot, (st.cpuData s.regs.tpidr).cpuId) :: st.marks }
      | .error _ => st.putSecondary slot ⟨.panicked, s.regs⟩
  | .parked => st
  | .panicked => st

end Smp

inductive SmpEvent
  | primary (answers : Answers)
  | secondary (slot : ℕ)

/-- Before `bring_up_all`: no CPU but the primary runs. -/
structure Smp.Initial (st : Smp) : Prop where
  online : st.online = 0
  marks : st.marks = []
  primary : st.primary = .enter
  nextIdx : st.nextIdx = 0
  secondary : ∀ slot, st.secondary slot = none

def Smp.Step (pl : Platform) (st : Smp) : SmpEvent → Smp → Prop
  | .primary answers, st' => st' = st.primaryStep pl answers
  | .secondary slot, st' => ∃ s, st.secondary slot = some s ∧ st' = st.runSecondary pl slot s

def smpSystem (pl : Platform) : System Smp SmpEvent where
  init := Smp.Initial
  step := Smp.Step pl

end Preon.Cpu
