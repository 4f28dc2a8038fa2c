import Preon.Cpu.OnlineBarrier
import Preon.Memory.Booted
import Preon.Memory.BootTables

/-!
# The whole machine

`kmain` from the switch of the translation tables to the running system, next to the secondaries
that it starts and to everybody who allocates, releases and writes pages.  A stack comes from the
buddy allocator here; what the firmware answers stays an input.
-/

namespace Preon.Cpu

open Framework Memory BootMem BuddyAllocator

/-! ## The model -/

/-- `TCR_EL1.EPD0`: no table walks through `TTBR0_EL1`. -/
def tcrEpd0 : ℕ := 1 <<< 7

def stackSize : ℕ := 64 * 1024

def stackOrder : ℕ := 4

/-- What the kernel is started on: the boot contract, the linker script, and the mem-map's memory
as it was found. -/
structure Kernel where
  platform : Platform
  info : BootInfo
  memmap : ℕ → PageInfo
  contract : info.Contract
  ram_end : ∀ r ∈ info.regions, r.1 + r.2 ≤ maxEnd
  idmap_placed : platform.idmapL0 = info.bootBssStart
  tables_placed : info.bootBssStart + bootTablePages * pageSize ≤ info.bootBssEnd

namespace Kernel

/-- `build_bootmem` followed by `init_buddy`. -/
def bootBuddy (k : Kernel) : Outcome BuddyAllocator := do
  let boot ← buildBootmem k.info.regions k.info.stackTopPa k.info.dtb k.info.fdtSize
  initBuddy k.memmap boot

end Kernel

/-- The block and the top of a stack, as `alloc_stack` computes it. -/
def allocStack (r : Booted) : Outcome (Option (ℕ × ℕ) × Booted) := do
  let (block, allocator) ← r.allocator.allocPages stackOrder
  match block with
  | none => return (none, { r with allocator })
  | some pa =>
      let va ← paToLinearVa pa
      let top ← checkedAdd 64 va stackSize
      return (some (pa, top), ⟨allocator, (pa, stackOrder) :: r.live, r.reclaimed⟩)

inductive KmainPc
  | switchTtbr1 | setEpd0 | clearTtbr0 | initBuddy | bringUp | reclaim | running | stopped
deriving DecidableEq

/-- A `CPU_ON` that the firmware accepted, with the boot data at that moment. -/
structure CpuOn where
  target : ℕ
  slot : ℕ
  bootData : SecondaryBootData

/-- `buddy` is the cell `BUDDY`; `stackBlocks` and `calls` record the block of each slot's stack and
the accepted calls of `CPU_ON`, newest first. -/
structure Machine where
  kmain : KmainPc
  smp : Smp
  buddy : Option Booted
  tables : ℕ → ℕ → ℕ
  stackBlocks : List (ℕ × ℕ)
  calls : List CpuOn

namespace Machine

def setRegs (m : Machine) (regs : Registers) : Machine :=
  { m with smp := { m.smp with primaryRegs := regs } }

/-- One step of `bring_up_all`, and what `expect` makes of its result. -/
def bringUpStep (k : Kernel) (psci : ℤ) (m : Machine) : Machine :=
  match m.smp.primary with
  | .stack _ _ =>
      match m.buddy with
      | none => { m with smp := m.smp.primaryStep k.platform ⟨none, psci⟩ }
      | some r =>
          match allocStack r with
          | .ok (some (pa, top), r') =>
              { m with smp := m.smp.primaryStep k.platform ⟨some top, psci⟩
                       buddy := some r'
                       stackBlocks := (m.smp.nextIdx, pa) :: m.stackBlocks }
          | .ok (none, r') =>
              { m with smp := m.smp.primaryStep k.platform ⟨none, psci⟩, buddy := some r' }
          | .error _ => { m with kmain := .stopped }
  | .cpuOn mpidr _ =>
      { m with smp := m.smp.primaryStep k.platform ⟨none, psci⟩
               calls :=
                 if psci = 0 then ⟨mpidr, m.smp.nextIdx, m.smp.bootData m.smp.nextIdx⟩ :: m.calls
                 else m.calls }
  | .returned (.ok ()) => { m with kmain := .reclaim }
  | .returned (.error _) => { m with kmain := .stopped }
  | .panicked => { m with kmain := .stopped }
  | _ => { m with smp := m.smp.primaryStep k.platform ⟨none, psci⟩ }

/-- One step of the primary.  `disable_ttbr0` is two register writes. -/
def primaryStep (k : Kernel) (psci : ℤ) (m : Machine) : Machine :=
  match m.kmain with
  | .switchTtbr1 =>
      { m.setRegs { m.smp.primaryRegs with ttbr1 := k.platform.root } with kmain := .setEpd0 }
  | .setEpd0 =>
      { m.setRegs { m.smp.primaryRegs with tcr := m.smp.primaryRegs.tcr ||| tcrEpd0 } with
        kmain := .clearTtbr0 }
  | .clearTtbr0 => { m.setRegs { m.smp.primaryRegs with ttbr0 := 0 } with kmain := .initBuddy }
  | .initBuddy =>
      match k.bootBuddy with
      | .ok s => { m with kmain := .bringUp, buddy := some ⟨s, [], false⟩ }
      | .error _ => { m with kmain := .stopped }
  | .bringUp => m.bringUpStep k psci
  | .reclaim =>
      match m.buddy with
      | none => { m with kmain := .stopped }
      | some r =>
          match reclaimTrampoline r.allocator k.info.bootBssStart k.info.bootBssEnd with
          | .ok s => { m with kmain := .running, buddy := some ⟨s, r.live, true⟩ }
          | .error _ => { m with kmain := .stopped }
  | .running => m
  | .stopped => m

end Machine

/-- A step of the primary with the firmware's answer, of a secondary, of a caller of the page
allocator, and of an owner who writes to its block. -/
inductive MachineEvent
  | primary (psci : ℤ)
  | secondary (slot : ℕ)
  | page (call : PageEvent)
  | store (table slot word : ℕ)

namespace Machine

/-- Nobody frees a stack: its block is not theirs. -/
def SparesStacks (m : Machine) (call : PageEvent) : Prop :=
  ∀ x ∈ m.stackBlocks, call ≠ .freePages x.2 stackOrder

def Step (k : Kernel) (m : Machine) : MachineEvent → Machine → Prop
  | .primary psci, m' => m' = m.primaryStep k psci
  | .secondary slot, m' => ∃ s, m.smp.secondary slot = some s ∧
      m' = { m with smp := m.smp.runSecondary k.platform slot s }
  | .page call, m' => ∃ r r', m.buddy = some r ∧ r.Step k.info (.page call) r' ∧
      m.SparesStacks call ∧ m' = { m with buddy := some r' }
  | .store table slot word, m' => (∃ r b, m.buddy = some r ∧ b ∈ r.live ∧ b.1 ≤ table ∧
      table < b.1 + 2 ^ b.2 * pageSize) ∧
      m' = { m with tables := Radix.write m.tables table slot word }

/-- As `boot.s` leaves the machine to `kmain`, up to the construction of the kernel map. -/
structure Initial (k : Kernel) (m : Machine) : Prop where
  kmain : m.kmain = .switchTtbr1
  smp : m.smp.Initial
  tcr : m.smp.primaryRegs.tcr = tcrValue
  ttbr0 : m.smp.primaryRegs.ttbr0 = k.platform.idmapL0
  ttbr1 : m.smp.primaryRegs.ttbr1 = BootTable.kernelL0.pa k.platform.idmapL0
  mmuOn : m.smp.primaryRegs.mmuOn = true
  buddy : m.buddy = none
  tables : ∃ memory, m.tables = bootTables k.platform.idmapL0 memory
  stackBlocks : m.stackBlocks = []
  calls : m.calls = []

end Machine

def machineSystem (k : Kernel) : System Machine MachineEvent where
  init := Machine.Initial k
  step := Machine.Step k

/-! ## What the primary's steps are -/

theorem allocStack_step {info : BootInfo} {r r' : Booted} {stack : Option (ℕ × ℕ)}
    (h : allocStack r = .ok (stack, r')) :
    (∃ call, r.Step info (.page call) r' ∧ ∀ pa order, call ≠ .freePages pa order) ∧
      r'.reclaimed = r.reclaimed ∧
      (stack = none ∧ r'.live = r.live ∨
        ∃ pa, stack = some (pa, pa + kernelLinearBase + stackSize) ∧
          r'.live = (pa, stackOrder) :: r.live) := by
  obtain ⟨⟨block, allocator⟩, hcall, hrest⟩ := bind_eq_ok.mp h
  cases block with
  | none =>
      obtain ⟨rfl, rfl⟩ := Prod.mk.inj (Except.ok.inj hrest)
      exact ⟨⟨.allocPages stackOrder none, ⟨⟨hcall, rfl, rfl⟩, rfl⟩, nofun⟩, rfl, .inl ⟨rfl, rfl⟩⟩
  | some pa =>
      obtain ⟨va, hva, hrest⟩ := bind_eq_ok.mp hrest
      obtain ⟨top, htop, hrest⟩ := bind_eq_ok.mp hrest
      obtain ⟨rfl, rfl⟩ := Prod.mk.inj (Except.ok.inj hrest)
      obtain ⟨_, -, hva⟩ := bind_eq_ok.mp hva
      refine ⟨⟨.allocPages stackOrder (some pa), ⟨⟨hcall, rfl, rfl⟩, rfl⟩, nofun⟩, rfl,
        .inr ⟨pa, ?_, rfl⟩⟩
      rw [checkedAdd_eq htop, checkedAdd_eq hva]

namespace Machine

/-- What a step of `bring_up_all` can be. -/
inductive BringsUp (k : Kernel) (r : Booted) (m : Machine) : Machine → Prop
  | move {psci : ℤ} : (∀ mpidr rest, m.smp.primary ≠ .stack mpidr rest) →
      (∀ mpidr rest, m.smp.primary ≠ .cpuOn mpidr rest) →
      BringsUp k r m { m with smp := m.smp.primaryStep k.platform ⟨none, psci⟩ }
  | stack {psci : ℤ} {mpidr pa top : ℕ} {rest : List ℕ} {r' : Booted} :
      m.smp.primary = .stack mpidr rest → allocStack r = .ok (some (pa, top), r') →
      BringsUp k r m { m with smp := m.smp.primaryStep k.platform ⟨some top, psci⟩
                              buddy := some r'
                              stackBlocks := (m.smp.nextIdx, pa) :: m.stackBlocks }
  | noStack {psci : ℤ} {mpidr : ℕ} {rest : List ℕ} {r' : Booted} :
      m.smp.primary = .stack mpidr rest → allocStack r = .ok (none, r') →
      BringsUp k r m { m with smp := m.smp.primaryStep k.platform ⟨none, psci⟩, buddy := some r' }
  | cpuOn {mpidr : ℕ} {rest : List ℕ} : m.smp.primary = .cpuOn mpidr rest →
      BringsUp k r m { m with smp := m.smp.primaryStep k.platform ⟨none, 0⟩
                              calls := ⟨mpidr, m.smp.nextIdx,
                                m.smp.bootData m.smp.nextIdx⟩ :: m.calls }
  | refused {psci : ℤ} {mpidr : ℕ} {rest : List ℕ} : m.smp.primary = .cpuOn mpidr rest → psci ≠ 0 →
      BringsUp k r m { m with smp := m.smp.primaryStep k.platform ⟨none, psci⟩ }
  | returned : m.smp.primary = .returned (.ok ()) → BringsUp k r m { m with kmain := .reclaim }
  | stopped : BringsUp k r m { m with kmain := .stopped }

variable {k : Kernel} {m m' : Machine} {r : Booted}

theorem bringsUp_of_step (hr : m.buddy = some r) (psci : ℤ) :
    BringsUp k r m (m.bringUpStep k psci) := by
  cases hp : m.smp.primary with
  | stack mpidr rest =>
      simp only [bringUpStep, hp]
      split
      · next hnone => cases hr.symm.trans hnone
      · next r₁ hr₁ =>
          obtain rfl := Option.some.inj (hr.symm.trans hr₁)
          split
          · next halloc => exact .stack hp halloc
          · next halloc => exact .noStack hp halloc
          · exact .stopped
  | cpuOn mpidr rest =>
      simp only [bringUpStep, hp]
      by_cases hpsci : psci = 0
      · subst hpsci
        rw [if_pos rfl]
        exact .cpuOn hp
      · rw [if_neg hpsci]
        exact .refused hp hpsci
  | returned result =>
      cases result with
      | ok =>
          simp only [bringUpStep, hp]
          exact .returned hp
      | error e =>
          simp only [bringUpStep, hp]
          exact .stopped
  | panicked =>
      simp only [bringUpStep, hp]
      exact .stopped
  | _ =>
      simp only [bringUpStep, hp]
      exact .move (by simp [hp]) (by simp [hp])

private theorem BringsUp.effect (h : BringsUp k r m m') (hr : m.buddy = some r) :
    (m'.smp = m.smp ∨ ∃ answers, m'.smp = m.smp.primaryStep k.platform answers) ∧
      (∃ r', m'.buddy = some r' ∧ r'.reclaimed = r.reclaimed ∧
        (r' = r ∨ ∃ call, r.Step k.info (.page call) r')) ∧
      (m'.kmain = m.kmain ∨ m'.kmain = .stopped ∨
        m'.kmain = .reclaim ∧ m'.smp.primary = .returned (.ok ())) := by
  have hsame : ∃ r', m.buddy = some r' ∧ r'.reclaimed = r.reclaimed ∧
      (r' = r ∨ ∃ call, r.Step k.info (.page call) r') := ⟨r, hr, rfl, .inl rfl⟩
  cases h with
  | @move psci => exact ⟨.inr ⟨⟨none, psci⟩, rfl⟩, hsame, .inl rfl⟩
  | @stack psci mpidr pa top rest r' _ halloc =>
      obtain ⟨⟨call, hcall, -⟩, hreclaimed, -⟩ := allocStack_step halloc
      exact ⟨.inr ⟨⟨some top, psci⟩, rfl⟩, ⟨r', rfl, hreclaimed, .inr ⟨call, hcall⟩⟩, .inl rfl⟩
  | @noStack psci mpidr rest r' _ halloc =>
      obtain ⟨⟨call, hcall, -⟩, hreclaimed, -⟩ := allocStack_step halloc
      exact ⟨.inr ⟨⟨none, psci⟩, rfl⟩, ⟨r', rfl, hreclaimed, .inr ⟨call, hcall⟩⟩, .inl rfl⟩
  | cpuOn => exact ⟨.inr ⟨⟨none, 0⟩, rfl⟩, hsame, .inl rfl⟩
  | @refused psci => exact ⟨.inr ⟨⟨none, psci⟩, rfl⟩, hsame, .inl rfl⟩
  | returned hp => exact ⟨.inl rfl, hsame, .inr (.inr ⟨rfl, hp⟩)⟩
  | stopped => exact ⟨.inl rfl, hsame, .inr (.inl rfl)⟩

/-! ## The invariant -/

end Machine

/-- Table walks through `TTBR0_EL1` are enabled. -/
def Registers.Walks (regs : Registers) : Prop := regs.tcr &&& tcrEpd0 = 0

/-- The states of the allocator that some run after the boot of `k` reaches. -/
def Kernel.Boots (k : Kernel) (r : Booted) : Prop :=
  ∃ s, k.bootBuddy = .ok s ∧ (bootedSystem k.info s).Reachable r

theorem Kernel.Boots.step {k : Kernel} {r r' : Booted} {e : BootedEvent} (h : k.Boots r)
    (hstep : r.Step k.info e r') : k.Boots r' := by
  obtain ⟨s, hs, hr⟩ := h
  exact ⟨s, hs, hr.step hstep⟩

private theorem Smp.primaryStep_tcr (pl : Platform) (answers : Answers) (st : Smp) :
    (st.primaryStep pl answers).primaryRegs.tcr = st.primaryRegs.tcr := by
  rw [primaryStep]
  split
  all_goals try split
  all_goals try split
  all_goals rfl

namespace Machine

variable {k : Kernel} {m m' : Machine} {r : Booted}

/-- What `kmain` knows at each point. -/
def Phase (m : Machine) : Prop :=
  match m.kmain with
  | .switchTtbr1 => m.smp.Initial
  | .setEpd0 => m.smp.Initial
  | .clearTtbr0 => m.smp.Initial ∧ ¬ m.smp.primaryRegs.Walks
  | .initBuddy => m.smp.Initial ∧ ¬ m.smp.primaryRegs.Walks
  | .bringUp => ¬ m.smp.primaryRegs.Walks ∧ ∃ r, m.buddy = some r ∧ r.reclaimed = false
  | .reclaim => ¬ m.smp.primaryRegs.Walks ∧ m.smp.primary = .returned (.ok ()) ∧
      ∃ r, m.buddy = some r ∧ r.reclaimed = false
  | .running => ¬ m.smp.primaryRegs.Walks ∧ m.smp.primary = .returned (.ok ()) ∧
      ∃ r, m.buddy = some r ∧ r.reclaimed = true
  | .stopped => True

structure Inv (k : Kernel) (m : Machine) : Prop where
  smp : (smpSystem k.platform).Reachable m.smp
  buddy : ∀ r, m.buddy = some r → k.Boots r
  phase : m.Phase

theorem inv_of_initial (h : m.Initial k) : m.Inv k := by
  refine ⟨.init h.smp, ?_, ?_⟩
  · intro r hr
    cases h.buddy.symm.trans hr
  · simp only [Phase, h.kmain]
    exact h.smp

private theorem setRegs_initial (h : m.smp.Initial) (regs : Registers) :
    (m.setRegs regs).smp.Initial :=
  ⟨h.online, h.marks, h.primary, h.nextIdx, h.secondary⟩

private theorem Inv.bringUp (h : m.Inv k) (hpc : m.kmain = .bringUp) (psci : ℤ) :
    (m.primaryStep k psci).Inv k := by
  have hphase := h.phase
  simp only [Phase, hpc] at hphase
  obtain ⟨hwalks, r, hr, hreclaimed⟩ := hphase
  have hstep : BringsUp k r m (m.primaryStep k psci) := by
    simp only [primaryStep, hpc]
    exact bringsUp_of_step hr psci
  obtain ⟨hsmp, ⟨r', hr', hsame, hcall⟩, hkmain⟩ := hstep.effect hr
  generalize m.primaryStep k psci = m' at hsmp hr' hkmain
  have htcr : m'.smp.primaryRegs.tcr = m.smp.primaryRegs.tcr := by
    rcases hsmp with hsmp | ⟨answers, hsmp⟩
    · rw [hsmp]
    · rw [hsmp, Smp.primaryStep_tcr]
  have hwalks' : ¬ m'.smp.primaryRegs.Walks := by rwa [Registers.Walks, htcr]
  have hfalse := hsame.trans hreclaimed
  refine ⟨?_, ?_, ?_⟩
  · rcases hsmp with hsmp | ⟨answers, hsmp⟩
    · rw [hsmp]
      exact h.smp
    · rw [hsmp]
      exact Smp.reach_primary h.smp answers
  · intro r₁ hr₁
    obtain rfl := Option.some.inj (hr'.symm.trans hr₁)
    rcases hcall with rfl | ⟨call, hcall⟩
    · exact h.buddy _ hr
    · exact (h.buddy r hr).step hcall
  · rcases hkmain with hkmain | hkmain | ⟨hkmain, hreturned⟩
    · simp only [Phase, hkmain, hpc]
      exact ⟨hwalks', r', hr', hfalse⟩
    · simp only [Phase, hkmain]
    · simp only [Phase, hkmain]
      exact ⟨hwalks', hreturned, r', hr', hfalse⟩

private theorem Inv.reclaim (h : m.Inv k) (hpc : m.kmain = .reclaim) (psci : ℤ) :
    (m.primaryStep k psci).Inv k := by
  have hphase := h.phase
  simp only [Phase, hpc] at hphase
  obtain ⟨hwalks, hreturned, r, hr, hreclaimed⟩ := hphase
  simp only [primaryStep, hpc]
  split
  · next hnone => cases hr.symm.trans hnone
  · next r₁ hr₁ =>
      obtain rfl := Option.some.inj (hr.symm.trans hr₁)
      split
      · next s hcall =>
          refine ⟨h.smp, ?_, ?_⟩
          · intro r' hr'
            obtain rfl := Option.some.inj hr'
            exact (h.buddy r hr).step (e := .reclaim) ⟨hreclaimed, hcall, rfl, rfl⟩
          · exact ⟨hwalks, hreturned, _, rfl, rfl⟩
      · exact ⟨h.smp, h.buddy, trivial⟩

private theorem Inv.primaryStep (h : m.Inv k) (psci : ℤ) : (m.primaryStep k psci).Inv k := by
  have hphase := h.phase
  cases hpc : m.kmain with
  | switchTtbr1 =>
      simp only [Phase, hpc] at hphase
      have hinit := setRegs_initial hphase { m.smp.primaryRegs with ttbr1 := k.platform.root }
      simp only [Machine.primaryStep, hpc]
      exact ⟨.init hinit, h.buddy, hinit⟩
  | setEpd0 =>
      simp only [Phase, hpc] at hphase
      have hinit := setRegs_initial hphase
        { m.smp.primaryRegs with tcr := m.smp.primaryRegs.tcr ||| tcrEpd0 }
      simp only [Machine.primaryStep, hpc]
      refine ⟨.init hinit, h.buddy, hinit, ?_⟩
      change (m.smp.primaryRegs.tcr ||| tcrEpd0) &&& tcrEpd0 ≠ 0
      rw [Nat.and_or_distrib_right, Nat.and_self]
      exact fun hzero => absurd (Nat.or_eq_zero_iff.mp hzero).2 (by decide)
  | clearTtbr0 =>
      simp only [Phase, hpc] at hphase
      have hinit := setRegs_initial hphase.1 { m.smp.primaryRegs with ttbr0 := 0 }
      simp only [Machine.primaryStep, hpc]
      exact ⟨.init hinit, h.buddy, hinit, hphase.2⟩
  | initBuddy =>
      simp only [Phase, hpc] at hphase
      simp only [Machine.primaryStep, hpc]
      split
      · next s hs =>
          refine ⟨h.smp, ?_, hphase.2, _, rfl, rfl⟩
          intro r hr
          obtain rfl := Option.some.inj hr
          exact ⟨s, hs, .init rfl⟩
      · exact ⟨h.smp, h.buddy, trivial⟩
  | bringUp => exact h.bringUp hpc psci
  | reclaim => exact h.reclaim hpc psci
  | running | stopped =>
      simp only [Machine.primaryStep, hpc]
      exact h

private theorem Inv.secondary (h : m.Inv k) {slot : ℕ} {s : Secondary}
    (hs : m.smp.secondary slot = some s) :
    Inv k { m with smp := m.smp.runSecondary k.platform slot s } := by
  obtain ⟨hprimary, -, hregs⟩ := Smp.runSecondary_frame k.platform slot s m.smp
  refine ⟨h.smp.step (e := .secondary slot) ⟨s, hs, rfl⟩, h.buddy, ?_⟩
  have hphase := h.phase
  have hnot (hinit : m.smp.Initial) : False := by cases (hinit.secondary slot).symm.trans hs
  cases hpc : m.kmain <;> simp only [Phase, hpc] at hphase ⊢
  case switchTtbr1 | setEpd0 => exact (hnot hphase).elim
  case clearTtbr0 | initBuddy => exact (hnot hphase.1).elim
  case bringUp | reclaim | running => simpa only [hprimary, hregs] using hphase

private theorem Inv.page (h : m.Inv k) {r' : Booted} {call : PageEvent} (hr : m.buddy = some r)
    (hstep : r.Step k.info (.page call) r') : Inv k { m with buddy := some r' } := by
  refine ⟨h.smp, ?_, ?_⟩
  · intro r₁ hr₁
    obtain rfl := Option.some.inj hr₁
    exact (h.buddy r hr).step hstep
  · have hphase := h.phase
    have hsame : r'.reclaimed = r.reclaimed := hstep.2
    cases hpc : m.kmain <;> simp only [Phase, hpc, hr, Option.some.injEq, exists_eq_left', hsame]
        at hphase ⊢
    all_goals exact hphase

theorem Inv.step (h : m.Inv k) {e : MachineEvent} (hstep : m.Step k e m') : m'.Inv k := by
  cases e with
  | primary psci =>
      obtain rfl : m' = m.primaryStep k psci := hstep
      exact h.primaryStep psci
  | secondary slot =>
      obtain ⟨s, hs, rfl⟩ := hstep
      exact h.secondary hs
  | page call =>
      obtain ⟨r, r', hr, hcall, -, rfl⟩ := hstep
      exact h.page hr hcall
  | store table slot word =>
      obtain ⟨-, rfl⟩ := hstep
      exact ⟨h.smp, h.buddy, h.phase⟩

theorem inv_of_reachable (h : (machineSystem k).Reachable m) : m.Inv k := by
  revert h
  apply System.Reachable.invariant
  · exact fun m hm => inv_of_initial hm
  · exact fun m e m' hinv hstep => hinv.step hstep

/-! ## Runs that get through -/

private theorem reach_primary (h : (machineSystem k).Reachable m) (psci : ℤ) :
    (machineSystem k).Reachable (m.primaryStep k psci) :=
  h.step (e := .primary psci) rfl

/-- The machine as the boot stub leaves it. -/
def atKmain (k : Kernel) : Machine where
  kmain := .switchTtbr1
  smp := { Smp.reset with primaryRegs := ⟨tcrValue, k.platform.idmapL0,
    BootTable.kernelL0.pa k.platform.idmapL0, 0, true⟩ }
  buddy := none
  tables := bootTables k.platform.idmapL0 fun _ _ => 0
  stackBlocks := []
  calls := []

private theorem atKmain_initial (k : Kernel) : (atKmain k).Initial k :=
  ⟨rfl, ⟨rfl, rfl, rfl, rfl, fun _ => rfl⟩, rfl, rfl, rfl, rfl, rfl, ⟨_, rfl⟩, rfl, rfl⟩

/-- The primary in `bring_up_all`, about to look at `nodes`, with `started` stacks given out. -/
structure Looping (k : Kernel) (m : Machine) (nodes : List ℕ) (started : ℕ) (r : Booted) :
    Prop where
  reachable : (machineSystem k).Reachable m
  kmain : m.kmain = .bringUp
  primary : m.smp.primary = .loop nodes
  nextIdx : m.smp.nextIdx = started + 1
  buddy : m.buddy = some r
  calls : m.calls.length = started

theorem exists_looping {s : BuddyAllocator} (hs : k.bootBuddy = .ok s) :
    ∃ m : Machine, m.Looping k k.platform.cpus 0 ⟨s, [], false⟩ := by
  have hreach := reach_primary (reach_primary (reach_primary (reach_primary (reach_primary
    (System.Reachable.init (atKmain_initial k)) 0) 0) 0) 0) 0
  refine ⟨_, hreach, ?_, ?_, ?_, ?_, ?_⟩ <;>
    simp [primaryStep, bringUpStep, atKmain, setRegs, hs, Smp.primaryStep, Smp.reset, Smp.initCpu,
      markOnline_ok (.inr (by decide : 0 < 64))]

theorem Looping.skip {raw : ℕ} {rest : List ℕ} {started : ℕ}
    (h : m.Looping k (raw :: rest) started r) (hraw : Mpidr.new raw = k.platform.primaryMpidr) :
    ∃ m' : Machine, m'.Looping k rest started r := by
  have hstep : m.primaryStep k 0 = { m with smp := { m.smp with primary := .loop rest } } := by
    simp only [primaryStep, h.kmain, bringUpStep, h.primary, Smp.primaryStep, if_pos hraw]
  have hreach := reach_primary h.reachable 0
  rw [hstep] at hreach
  exact ⟨_, hreach, h.kmain, rfl, h.nextIdx, h.buddy, h.calls⟩

theorem Looping.start {raw started : ℕ} {rest : List ℕ} {stack : ℕ × ℕ} {r' : Booted}
    (h : m.Looping k (raw :: rest) started r) (hraw : Mpidr.new raw ≠ k.platform.primaryMpidr)
    (h64 : started + 1 < 64) (hstack : allocStack r = .ok (some stack, r')) :
    ∃ m' : Machine, m'.Looping k rest (started + 1) r' := by
  have hcpus : ¬ maxCpus ≤ m.smp.nextIdx := by
    rw [h.nextIdx]
    simp only [maxCpus]
    omega
  have hreach := reach_primary (reach_primary (reach_primary h.reachable 0) 0) 0
  have hfirst : m.primaryStep k 0 = { m with smp :=
      { m.smp.initCpu k.platform m.smp.nextIdx (Mpidr.new raw) with
        primary := .stack (Mpidr.new raw) rest } } := by
    simp only [primaryStep, h.kmain, bringUpStep, h.primary, Smp.primaryStep, if_neg hraw,
      if_neg hcpus]
  have hkmain := h.kmain
  have hbuddy := h.buddy
  have hcalls := h.calls
  have hidx := h.nextIdx
  obtain ⟨m₃, hm₃⟩ : ∃ m₃, (((m.primaryStep k 0).primaryStep k 0).primaryStep k 0) = m₃ := ⟨_, rfl⟩
  have hat : m₃.kmain = .bringUp ∧ m₃.smp.primary = .waiting rest ∧ m₃.smp.nextIdx = started + 1 ∧
      m₃.buddy = some r' ∧ m₃.calls.length = started + 1 ∧
      m₃.smp.secondary (started + 1) = some Smp.switchedOn := by
    rw [← hm₃, hfirst]
    simp [primaryStep, bringUpStep, Smp.primaryStep, Smp.initCpu, Smp.prepareBootData, hkmain,
      hbuddy, hstack, hidx, hcalls]
  rw [hm₃] at hreach
  obtain ⟨hk₃, hp₃, hi₃, hb₃, hc₃, hs₃⟩ := hat
  obtain ⟨smp', hreach', hp', hi', s', hs', hparked⟩ :=
    Smp.reach_parked (P := fun smp => (machineSystem k).Reachable { m₃ with smp })
      (fun smp h => Smp.inv_of_reachable (inv_of_reachable h).smp)
      (fun smp slot s h hs => h.step (e := .secondary slot) ⟨s, hs, rfl⟩) h64 6 hreach hs₃
      (Nat.le_refl 6)
  have hinv := Smp.inv_of_reachable (inv_of_reachable hreach').smp
  have hwait : smp'.primary = .waiting rest := hp'.trans hp₃
  have hnext : smp'.nextIdx = started + 1 := hi'.trans hi₃
  have hbit : smp'.online.testBit (started + 1) = true := by
    refine (hinv.testBit (by simp only [Smp.startedBound, hwait]; omega) h64).mpr ?_
    exact (hinv.reported _ (Nat.succ_pos _)).mpr ⟨s', hs', hparked⟩
  have hlast := reach_primary hreach' 0
  have hpass : primaryStep k 0 { m₃ with smp := smp' } =
      { m₃ with smp := { smp' with nextIdx := started + 2, primary := .loop rest } } := by
    simp only [primaryStep, hk₃, bringUpStep, hwait, Smp.primaryStep, hnext, isOnline_ok (.inr h64),
      Nat.mod_eq_of_lt h64, hbit]
  rw [hpass] at hlast
  exact ⟨_, hlast, hk₃, rfl, rfl, hb₃, hc₃⟩

end Machine

theorem Kernel.handedTo (k : Kernel) {s : BuddyAllocator} (hs : k.bootBuddy = .ok s) :
    ∃ mm lo given m, HandedTo k.info.ram k.info.reservations mm lo s given m := by
  obtain ⟨boot, hboot, hinit⟩ := bind_eq_ok.mp hs
  obtain ⟨mmFrames, mmPfn, boot', lo, given, m, -, -, hto⟩ :=
    k.contract.handedTo k.ram_end hboot hinit
  exact ⟨_, lo, given, m, hto⟩

theorem Kernel.Boots.inv {k : Kernel} {r : Booted} (h : k.Boots r) :
    ∃ mm lo nr given m, r.Inv k.info mm lo nr given m := by
  obtain ⟨s, hs, hr⟩ := h
  obtain ⟨mm, lo, given, m, hto⟩ := k.handedTo hs
  obtain ⟨given', m', hinv⟩ := Booted.inv_of_reachable k.contract hto hr
  exact ⟨mm, lo, _, given', m', hinv⟩

private theorem Kernel.Boots.blocks_clear {k : Kernel} {r : Booted} (h : k.Boots r) :
    r.live.Pairwise fun b c => Clear b.1 (2 ^ b.2 * pageSize) c.1 (2 ^ c.2 * pageSize) := by
  obtain ⟨mm, lo, nr, given, m, hinv⟩ := h.inv
  exact hinv.tracked.blocks_clear

theorem Kernel.Boots.head_fresh {k : Kernel} {r : Booted} {b : ℕ × ℕ} {live : List (ℕ × ℕ)}
    (h : k.Boots r) (hlive : r.live = b :: live) : b ∉ live := by
  have hclear := h.blocks_clear
  rw [hlive, List.pairwise_cons] at hclear
  intro hmem
  have hself := hclear.1 b hmem
  have hpos := Nat.two_pow_pos b.2
  simp only [Clear, pageSize] at hself
  omega

theorem Kernel.Boots.clear {k : Kernel} {r : Booted} {b c : ℕ × ℕ} (h : k.Boots r) (hb : b ∈ r.live)
    (hc : c ∈ r.live) (hne : b ≠ c) : Clear b.1 (2 ^ b.2 * pageSize) c.1 (2 ^ c.2 * pageSize) := by
  have : Std.Symm fun b c : ℕ × ℕ => Clear b.1 (2 ^ b.2 * pageSize) c.1 (2 ^ c.2 * pageSize) :=
    ⟨fun _ _ => Clear.symm⟩
  exact h.blocks_clear.forall hb hc hne

namespace Machine

variable {k : Kernel} {m : Machine} {r : Booted}

theorem Looping.run {started : ℕ} (h : m.Looping k [] started r) :
    ∃ m', (machineSystem k).Reachable m' ∧ m'.kmain = .running ∧ m'.calls.length = started := by
  have hstep : (m.primaryStep k 0).primaryStep k 0 =
      { m with kmain := .reclaim, smp := { m.smp with primary := .returned (.ok ()) } } := by
    simp only [primaryStep, h.kmain, bringUpStep, h.primary, Smp.primaryStep]
  have hreach := reach_primary (reach_primary h.reachable 0) 0
  rw [hstep] at hreach
  obtain ⟨-, -, r', hr', hfirst⟩ := (inv_of_reachable hreach).phase
  obtain rfl : r = r' := Option.some.inj (h.buddy.symm.trans hr')
  obtain ⟨s, hs, hr⟩ := (inv_of_reachable hreach).buddy r hr'
  obtain ⟨mm, lo, given, fm, hto⟩ := k.handedTo hs
  obtain ⟨s', hs'⟩ := Booted.exists_reclaim k.contract hto hr hfirst
  refine ⟨_, reach_primary hreach 0, ?_, ?_⟩ <;> simp [primaryStep, h.buddy, hs', h.calls]

end Machine

end Preon.Cpu
