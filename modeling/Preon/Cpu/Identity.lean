import Preon.Cpu.Percpu
import Preon.Cpu.Trampoline

/-!
# The identity of the secondaries

The id, the control block, the boot data and the stack of a secondary travel through tables that the
primary writes and that the secondary reads at some later time.  Each of them is written before the
secondary starts, and stays its own for the rest of the run.
-/

namespace Preon.Cpu

open Framework Memory BootMem BuddyAllocator

/-- The CPUs that `bring_up_all` starts, in the order of the device tree. -/
def Platform.targets (pl : Platform) (nodes : List ℕ) : List ℕ :=
  (pl.secondaries nodes).map Mpidr.new

/-- `Smp::current` on a secondary. -/
def Smp.current (st : Smp) (s : Secondary) : CpuData := st.cpuData s.regs.tpidr

/-- The secondary has been through `install_current_cpu_local`. -/
def Secondary.Installed (s : Secondary) : Prop :=
  s.pc = .main ∨ s.pc = .parked ∨ s.pc = .panicked

private theorem stackSize_eq : stackSize = 2 ^ stackOrder * pageSize := by decide

/-- The lowest address of the stack. -/
def SecondaryBootData.stackBottom (data : SecondaryBootData) : ℕ := data.stackTop - stackSize

section Targets

variable {pl : Platform} {raw : ℕ} {rest : List ℕ}

private theorem Platform.targets_cons_of_eq (h : Mpidr.new raw = pl.primaryMpidr) :
    pl.targets (raw :: rest) = pl.targets rest := by
  rw [Platform.targets, pl.secondaries_cons_of_eq h, Platform.targets]

private theorem Platform.targets_cons_of_ne (h : Mpidr.new raw ≠ pl.primaryMpidr) :
    pl.targets (raw :: rest) = Mpidr.new raw :: pl.targets rest := by
  rw [Platform.targets, pl.secondaries_cons_of_ne h, List.map_cons, Platform.targets]

private theorem Platform.targets_nodup (h : (pl.cpus.map Mpidr.new).Nodup) :
    (pl.targets pl.cpus).Nodup :=
  h.sublist (List.filter_sublist.map Mpidr.new)

/-- All CPUs of the list but the boot CPU. -/
theorem Platform.targets_length (hdistinct : (pl.cpus.map Mpidr.new).Nodup)
    (hboot : pl.primaryMpidr ∈ pl.cpus.map Mpidr.new) :
    (pl.targets pl.cpus).length + 1 = pl.cpus.length := by
  have hone := List.count_eq_one_of_mem hdistinct hboot
  have hsplit := List.length_eq_countP_add_countP
    (fun raw => decide (Mpidr.new raw ≠ pl.primaryMpidr)) (l := pl.cpus)
  have hcount : List.countP (fun raw => ¬ decide (Mpidr.new raw ≠ pl.primaryMpidr) = true) pl.cpus =
      1 := by
    rw [← hone, List.count, List.countP_map]
    apply List.countP_congr
    intro raw _
    simp
  rw [Platform.targets, List.length_map, Platform.secondaries, ← List.countP_eq_length_filter]
  omega

end Targets

private theorem Smp.runSecondary_data (pl : Platform) (slot : ℕ) (s : Secondary) (st : Smp) :
    (st.runSecondary pl slot s).cpuData = st.cpuData ∧
      (st.runSecondary pl slot s).bootData = st.bootData := by
  rw [runSecondary]
  split
  case h_6 => split <;> exact ⟨rfl, rfl⟩
  all_goals exact ⟨rfl, rfl⟩

private theorem Kernel.Boots.linear_clear {k : Kernel} {r : Booted} {b c : ℕ × ℕ} (h : k.Boots r)
    (hb : b ∈ r.live) (hc : c ∈ r.live) (hne : b ≠ c) : Clear (b.1 + kernelLinearBase)
      (2 ^ b.2 * pageSize) (c.1 + kernelLinearBase) (2 ^ c.2 * pageSize) := by
  have hclear := h.clear hb hc hne
  simp only [Clear] at hclear ⊢
  omega

private theorem Kernel.Boots.stack_fresh {k : Kernel} {r r' : Booted} {pa top : ℕ} (h : k.Boots r)
    (halloc : allocStack r = .ok (some (pa, top), r')) : (pa, stackOrder) ∉ r.live := by
  obtain ⟨⟨call, hcall, -⟩, -, hstack⟩ := allocStack_step halloc
  rcases hstack with ⟨hnone, -⟩ | ⟨pa', hpa', hlive⟩
  · cases hnone
  · obtain ⟨rfl, -⟩ := Prod.mk.inj (Option.some.inj hpa')
    exact (h.step hcall).head_fresh hlive

/-! ## The invariant -/

/-- What the secondary in a slot finds in the tables. -/
structure Ready (pl : Platform) (cpuData : ℕ → CpuData) (bootData : ℕ → SecondaryBootData)
    (stackBlocks : List (ℕ × ℕ)) (slot mpidr : ℕ) (data : SecondaryBootData) : Prop where
  slot_lt : slot < maxCpus
  control : cpuData (pl.offsetOfCpu slot) = ⟨slot, mpidr⟩
  written : bootData slot = data
  stack : ∃ pa, (slot, pa) ∈ stackBlocks ∧
    data = ⟨pl.offsetOfCpu slot, pa + kernelLinearBase + stackSize, pl.root⟩

namespace Machine

/-- The targets of the accepted calls, oldest first. -/
def called (m : Machine) : List ℕ := (m.calls.map CpuOn.target).reverse

/-- How far the primary is in the list, and what it has prepared. -/
def Cursor (k : Kernel) (m : Machine) : Prop :=
  match m.smp.primary with
  | .enter => m.calls = [] ∧ m.stackBlocks = []
  | .loop nodes => m.smp.nextIdx = m.calls.length + 1 ∧
      m.called ++ k.platform.targets nodes = k.platform.targets k.platform.cpus
  | .stack mpidr rest => m.smp.nextIdx = m.calls.length + 1 ∧
      m.called ++ mpidr :: k.platform.targets rest = k.platform.targets k.platform.cpus ∧
      m.smp.nextIdx < maxCpus ∧
      m.smp.cpuData (k.platform.offsetOfCpu m.smp.nextIdx) = ⟨m.smp.nextIdx, mpidr⟩
  | .cpuOn mpidr rest => m.smp.nextIdx = m.calls.length + 1 ∧
      m.called ++ mpidr :: k.platform.targets rest = k.platform.targets k.platform.cpus ∧
      Ready k.platform m.smp.cpuData m.smp.bootData m.stackBlocks m.smp.nextIdx mpidr
        (m.smp.bootData m.smp.nextIdx)
  | .waiting rest => m.smp.nextIdx = m.calls.length ∧
      m.called ++ k.platform.targets rest = k.platform.targets k.platform.cpus
  | .returned (.ok ()) => m.smp.nextIdx = m.calls.length + 1 ∧
      m.called = k.platform.targets k.platform.cpus
  | .returned (.error _) => m.smp.nextIdx = m.calls.length + 1 ∧
      m.called <+: k.platform.targets k.platform.cpus
  | .panicked => m.smp.nextIdx = m.calls.length ∧
      m.called <+: k.platform.targets k.platform.cpus

structure Identity (k : Kernel) (m : Machine) : Prop where
  order : (m.calls.map fun c => (c.target, c.slot)).reverse = m.called.zipIdx 1
  cursor : m.Cursor k
  ready : ∀ c ∈ m.calls, Ready k.platform m.smp.cpuData m.smp.bootData m.stackBlocks c.slot c.target
    c.bootData
  blocks : (m.stackBlocks.map Prod.snd).Nodup
  live : ∀ x ∈ m.stackBlocks, ∃ r, m.buddy = some r ∧ (x.2, stackOrder) ∈ r.live

variable {k : Kernel} {m m' : Machine} {r : Booted}

private theorem identity_of_initial (h : m.Initial k) : m.Identity k := by
  refine ⟨?_, ?_, ?_, ?_, ?_⟩
  · simp [called, h.calls]
  · simp only [Cursor, h.smp.primary]
    exact ⟨h.calls, h.stackBlocks⟩
  · simp [h.calls]
  · simp [h.stackBlocks]
  · simp [h.stackBlocks]

private theorem Identity.slots (h : m.Identity k) :
    (m.calls.map CpuOn.slot).reverse = List.range' 1 m.calls.length := by
  have hslots := congrArg (List.map Prod.snd) h.order
  rw [List.map_reverse, List.map_map, List.zipIdx_map_snd, called, List.length_reverse,
    List.length_map] at hslots
  exact hslots

private theorem Identity.slots_nodup (h : m.Identity k) : (m.calls.map CpuOn.slot).Nodup := by
  rw [← List.nodup_reverse, h.slots]
  exact List.nodup_range'

private theorem Identity.mem_slots (h : m.Identity k) (slot : ℕ) :
    slot ∈ m.calls.map CpuOn.slot ↔ 1 ≤ slot ∧ slot < m.calls.length + 1 := by
  rw [← List.mem_reverse, h.slots, List.mem_range'_1, Nat.add_comm 1]

private theorem Identity.slot_bounds (h : m.Identity k) {c : CpuOn} (hc : c ∈ m.calls) :
    1 ≤ c.slot ∧ c.slot < m.calls.length + 1 :=
  (h.mem_slots c.slot).mp (List.mem_map_of_mem hc)

private theorem Identity.setSmp (h : m.Identity k) {smp' : Smp}
    (hcpu : ∀ c ∈ m.calls, smp'.cpuData (k.platform.offsetOfCpu c.slot) =
      m.smp.cpuData (k.platform.offsetOfCpu c.slot))
    (hboot : ∀ c ∈ m.calls, smp'.bootData c.slot = m.smp.bootData c.slot)
    (hcursor : Cursor k { m with smp := smp' }) : Identity k { m with smp := smp' } := by
  refine ⟨h.order, hcursor, ?_, h.blocks, h.live⟩
  intro c hc
  have hready := h.ready c hc
  exact ⟨hready.slot_lt, (hcpu c hc).trans hready.control, (hboot c hc).trans hready.written,
    hready.stack⟩

/-- Another state of the allocator, with the stacks still out. -/
theorem Identity.setBuddy (h : m.Identity k) {r' : Booted}
    (hlive : ∀ x ∈ m.stackBlocks, (x.2, stackOrder) ∈ r'.live) :
    Identity k { m with buddy := some r' } :=
  ⟨h.order, h.cursor, h.ready, h.blocks, fun x hx => ⟨r', rfl, hlive x hx⟩⟩

private theorem Identity.stack_live (h : m.Identity k) (hr : m.buddy = some r) {x : ℕ × ℕ}
    (hx : x ∈ m.stackBlocks) : (x.2, stackOrder) ∈ r.live := by
  obtain ⟨r', hr', hlive⟩ := h.live x hx
  obtain rfl := Option.some.inj (hr.symm.trans hr')
  exact hlive

/-! ## Steps -/

private theorem Identity.enter (h : m.Identity k) (hp : m.smp.primary = .enter)
    (answers : Answers) :
    Identity k { m with smp := m.smp.primaryStep k.platform answers } := by
  have hcursor := h.cursor
  simp only [Cursor, hp] at hcursor
  rw [Smp.primaryStep_enter hp answers]
  apply h.setSmp
  · simp [hcursor.1]
  · simp [hcursor.1]
  · simp only [Cursor, called, hcursor.1]
    exact ⟨rfl, rfl⟩

private theorem Identity.loop (h : m.Identity k) {nodes : List ℕ} (hp : m.smp.primary = .loop nodes)
    (answers : Answers) : Identity k { m with smp := m.smp.primaryStep k.platform answers } := by
  have hcursor := h.cursor
  simp only [Cursor, hp] at hcursor
  obtain ⟨hidx, hahead⟩ := hcursor
  cases nodes with
  | nil =>
      simp only [Smp.primaryStep, hp]
      refine h.setSmp (fun _ _ => rfl) (fun _ _ => rfl) ?_
      exact ⟨hidx, (List.append_nil _).symm.trans hahead⟩
  | cons raw rest =>
      simp only [Smp.primaryStep, hp]
      split
      · next heq =>
          rw [Platform.targets_cons_of_eq heq] at hahead
          exact h.setSmp (fun _ _ => rfl) (fun _ _ => rfl) ⟨hidx, hahead⟩
      · next hne =>
          rw [Platform.targets_cons_of_ne hne] at hahead
          split
          · exact h.setSmp (fun _ _ => rfl) (fun _ _ => rfl) ⟨hidx, _, hahead⟩
          · next hroom =>
              refine h.setSmp (fun c hc => ?_) (fun _ _ => rfl) ?_
              · have hlt := (h.slot_bounds hc).2
                simp only [Smp.initCpu]
                rw [Function.update_of_ne]
                intro heq
                have := k.platform.offsetOfCpu_inj heq
                omega
              · refine ⟨hidx, hahead, Nat.lt_of_not_le hroom, ?_⟩
                simp only [Smp.initCpu, Function.update_self]

private theorem Identity.waiting (h : m.Identity k) {rest : List ℕ}
    (hp : m.smp.primary = .waiting rest)
    (answers : Answers) : Identity k { m with smp := m.smp.primaryStep k.platform answers } := by
  have hcursor := h.cursor
  simp only [Cursor, hp] at hcursor
  obtain ⟨hidx, hahead⟩ := hcursor
  simp only [Smp.primaryStep, hp]
  split
  · exact h.setSmp (fun _ _ => rfl) (fun _ _ => rfl) ⟨congrArg (· + 1) hidx, hahead⟩
  · exact h
  · exact h.setSmp (fun _ _ => rfl) (fun _ _ => rfl) ⟨hidx, _, hahead⟩

private theorem Identity.stack (h : m.Identity k) (hboots : k.Boots r) (hr : m.buddy = some r)
    {mpidr pa top : ℕ} {rest : List ℕ} {r' : Booted} {psci : ℤ}
    (hp : m.smp.primary = .stack mpidr rest) (halloc : allocStack r = .ok (some (pa, top), r')) :
    Identity k { m with smp := m.smp.primaryStep k.platform ⟨some top, psci⟩
                        buddy := some r'
                        stackBlocks := (m.smp.nextIdx, pa) :: m.stackBlocks } := by
  have hcursor := h.cursor
  simp only [Cursor, hp] at hcursor
  obtain ⟨hidx, hahead, hroom, hcontrol⟩ := hcursor
  have hfresh := hboots.stack_fresh halloc
  obtain ⟨-, -, hstack⟩ := @allocStack_step k.info _ _ _ halloc
  rcases hstack with ⟨hnone, -⟩ | ⟨pa', hpa', hlive⟩
  · cases hnone
  obtain ⟨rfl, rfl⟩ := Prod.mk.inj (Option.some.inj hpa')
  simp only [Smp.primaryStep, hp]
  refine ⟨h.order, ?_, ?_, ?_, ?_⟩
  · refine ⟨hidx, hahead, hroom, hcontrol, rfl, pa, List.mem_cons_self, ?_⟩
    simp only [Smp.prepareBootData, Function.update_self]
  · intro c hc
    have hready := h.ready c hc
    obtain ⟨pa', hpa', hdata⟩ := hready.stack
    have hlt := (h.slot_bounds hc).2
    refine ⟨hready.slot_lt, hready.control, ?_, pa', List.mem_cons_of_mem _ hpa', hdata⟩
    refine (Function.update_of_ne ?_ _ _).trans hready.written
    omega
  · rw [List.map_cons, List.nodup_cons]
    refine ⟨fun hmem => ?_, h.blocks⟩
    obtain ⟨x, hx, rfl⟩ := List.mem_map.mp hmem
    exact hfresh (h.stack_live hr hx)
  · intro x hx
    refine ⟨r', rfl, ?_⟩
    rw [hlive]
    rcases List.mem_cons.mp hx with rfl | hx
    · exact List.mem_cons_self
    · exact List.mem_cons_of_mem _ (h.stack_live hr hx)

private theorem Identity.noStack (h : m.Identity k) (hr : m.buddy = some r) {mpidr : ℕ}
    {rest : List ℕ}
    {r' : Booted} {psci : ℤ} (hp : m.smp.primary = .stack mpidr rest)
    (halloc : allocStack r = .ok (none, r')) :
    Identity k { m with smp := m.smp.primaryStep k.platform ⟨none, psci⟩, buddy := some r' } := by
  have hcursor := h.cursor
  simp only [Cursor, hp] at hcursor
  obtain ⟨-, -, hstack⟩ := @allocStack_step k.info _ _ _ halloc
  rcases hstack with ⟨-, hlive⟩ | ⟨pa, hpa, -⟩
  · have hstopped : Identity k
        { m with smp := { m.smp with primary := .returned (.error .outOfMemory) } } :=
      h.setSmp (fun _ _ => rfl) (fun _ _ => rfl) ⟨hcursor.1, _, hcursor.2.1⟩
    simp only [Smp.primaryStep, hp]
    apply hstopped.setBuddy
    intro x hx
    rw [hlive]
    exact h.stack_live hr hx
  · cases hpa

private theorem Identity.cpuOn (h : m.Identity k) {mpidr : ℕ} {rest : List ℕ}
    (hp : m.smp.primary = .cpuOn mpidr rest) :
    Identity k { m with smp := m.smp.primaryStep k.platform ⟨none, 0⟩
                        calls := ⟨mpidr, m.smp.nextIdx, m.smp.bootData m.smp.nextIdx⟩ ::
                          m.calls } := by
  have hcursor := h.cursor
  simp only [Cursor, hp] at hcursor
  obtain ⟨hidx, hahead, hready⟩ := hcursor
  simp only [Smp.primaryStep, hp, if_true]
  refine ⟨?_, ?_, ?_, h.blocks, h.live⟩
  · have hlength : m.called.length = m.calls.length := by
      rw [called, List.length_reverse, List.length_map]
    simp only [called, List.map_cons, List.reverse_cons]
    rw [h.order, List.zipIdx_append, ← called, hlength, hidx, Nat.add_comm 1]
    rfl
  · simp only [Cursor, called, List.map_cons, List.reverse_cons, List.append_assoc]
    exact ⟨hidx, hahead⟩
  · rw [List.forall_mem_cons]
    exact ⟨hready, h.ready⟩

private theorem Identity.refused (h : m.Identity k) {mpidr : ℕ} {rest : List ℕ} {psci : ℤ}
    (hp : m.smp.primary = .cpuOn mpidr rest) (hpsci : psci ≠ 0) :
    Identity k { m with smp := m.smp.primaryStep k.platform ⟨none, psci⟩ } := by
  have hcursor := h.cursor
  simp only [Cursor, hp] at hcursor
  simp only [Smp.primaryStep, hp, if_neg hpsci]
  exact h.setSmp (fun _ _ => rfl) (fun _ _ => rfl) ⟨hcursor.1, _, hcursor.2.1⟩

private theorem Identity.bringsUp (h : m.Identity k) (hboots : k.Boots r) (hr : m.buddy = some r)
    (hstep : BringsUp k r m m') : m'.Identity k := by
  cases hstep with
  | @move psci hstack hcpuOn =>
      cases hp : m.smp.primary with
      | enter => exact h.enter hp _
      | loop nodes => exact h.loop hp _
      | stack mpidr rest => exact absurd hp (hstack mpidr rest)
      | cpuOn mpidr rest => exact absurd hp (hcpuOn mpidr rest)
      | waiting rest => exact h.waiting hp _
      | returned result =>
          simp only [Smp.primaryStep, hp]
          exact h
      | panicked =>
          simp only [Smp.primaryStep, hp]
          exact h
  | stack hp halloc => exact h.stack hboots hr hp halloc
  | noStack hp halloc => exact h.noStack hr hp halloc
  | cpuOn hp => exact h.cpuOn hp
  | refused hp hpsci => exact h.refused hp hpsci
  | returned => exact ⟨h.order, h.cursor, h.ready, h.blocks, h.live⟩
  | stopped => exact ⟨h.order, h.cursor, h.ready, h.blocks, h.live⟩

private theorem Identity.primaryStep (h : m.Identity k) (hinv : m.Inv k) (psci : ℤ) :
    (m.primaryStep k psci).Identity k := by
  have hphase := hinv.phase
  cases hpc : m.kmain with
  | switchTtbr1 | setEpd0 | clearTtbr0 =>
      simp only [Machine.primaryStep, hpc]
      exact ⟨h.order, h.cursor, h.ready, h.blocks, h.live⟩
  | initBuddy =>
      simp only [Phase, hpc] at hphase
      have hcursor := h.cursor
      simp only [Cursor, hphase.1.primary] at hcursor
      simp only [Machine.primaryStep, hpc]
      split
      · refine ⟨h.order, h.cursor, h.ready, h.blocks, ?_⟩
        rw [hcursor.2]
        exact List.forall_mem_nil _
      · exact ⟨h.order, h.cursor, h.ready, h.blocks, h.live⟩
  | bringUp =>
      simp only [Phase, hpc] at hphase
      obtain ⟨-, r, hr, -⟩ := hphase
      simp only [Machine.primaryStep, hpc]
      exact h.bringsUp (hinv.buddy r hr) hr (bringsUp_of_step hr psci)
  | reclaim =>
      simp only [Machine.primaryStep, hpc]
      split
      · exact ⟨h.order, h.cursor, h.ready, h.blocks, h.live⟩
      · next r hr =>
          split
          · exact ⟨h.order, h.cursor, h.ready, h.blocks, fun x hx => ⟨_, rfl, h.stack_live hr hx⟩⟩
          · exact ⟨h.order, h.cursor, h.ready, h.blocks, h.live⟩
  | running | stopped =>
      simp only [Machine.primaryStep, hpc]
      exact h

private theorem Identity.secondary (h : m.Identity k) (slot : ℕ) (s : Secondary) :
    Identity k { m with smp := m.smp.runSecondary k.platform slot s } := by
  obtain ⟨hprimary, hidx, -⟩ := Smp.runSecondary_frame k.platform slot s m.smp
  obtain ⟨hcpu, hboot⟩ := Smp.runSecondary_data k.platform slot s m.smp
  apply h.setSmp (fun c _ => congrFun hcpu _) (fun c _ => congrFun hboot _)
  have hcursor := h.cursor
  simp only [Cursor, called, hprimary, hidx, hcpu, hboot] at hcursor ⊢
  exact hcursor

private theorem Identity.page (h : m.Identity k) {r' : Booted} {call : PageEvent}
    (hr : m.buddy = some r)
    (hstep : r.Step k.info (.page call) r') (hspares : m.SparesStacks call) :
    Identity k { m with buddy := some r' } := by
  apply h.setBuddy
  intro x hx
  exact PageRun.Step.keeps_live hstep.1 (h.stack_live hr hx) (hspares x hx)

private theorem identity_of_reachable (h : (machineSystem k).Reachable m) : m.Identity k := by
  have hboth : m.Inv k ∧ m.Identity k := by
    revert h
    apply System.Reachable.invariant
    · exact fun m hm => ⟨inv_of_initial hm, identity_of_initial hm⟩
    · rintro m e m' ⟨hinv, h⟩ hstep
      refine ⟨hinv.step hstep, ?_⟩
      cases e with
      | primary psci =>
          obtain rfl : m' = m.primaryStep k psci := hstep
          exact h.primaryStep hinv psci
      | secondary slot =>
          obtain ⟨s, -, rfl⟩ := hstep
          exact h.secondary slot s
      | page call =>
          obtain ⟨r, r', hr, hcall, hspares, rfl⟩ := hstep
          exact h.page hr hcall hspares
      | store table slot word =>
          obtain ⟨-, rfl⟩ := hstep
          exact ⟨h.order, h.cursor, h.ready, h.blocks, h.live⟩
  exact hboth.2

/-! ## What the secondaries have -/

/-- The calls that were accepted so far are the first of the list. -/
theorem Identity.called_first (h : m.Identity k) :
    m.called <+: k.platform.targets k.platform.cpus := by
  have hcursor := h.cursor
  cases hp : m.smp.primary with
  | enter =>
      simp only [Cursor, hp] at hcursor
      rw [called, hcursor.1]
      exact List.nil_prefix
  | returned result =>
      cases result with
      | ok =>
          simp only [Cursor, hp] at hcursor
          rw [hcursor.2]
      | error e =>
          simp only [Cursor, hp] at hcursor
          exact hcursor.2
  | panicked =>
      simp only [Cursor, hp] at hcursor
      exact hcursor.2
  | stack | cpuOn =>
      simp only [Cursor, hp] at hcursor
      exact ⟨_, hcursor.2.1⟩
  | loop | waiting =>
      simp only [Cursor, hp] at hcursor
      exact ⟨_, hcursor.2⟩

private theorem Identity.startedBound (h : m.Identity k) (hne : m.smp.primary ≠ .enter) :
    m.smp.startedBound = m.calls.length + 1 := by
  have hcursor := h.cursor
  cases hp : m.smp.primary with
  | enter => exact absurd hp hne
  | returned result =>
      cases result <;>
        · simp only [Cursor, hp] at hcursor
          simp only [Smp.startedBound, hp]
          exact hcursor.1
  | _ =>
      simp only [Cursor, hp] at hcursor
      simp only [Smp.startedBound, hp]
      omega

private theorem Identity.started (h : m.Identity k) (hsmp : m.smp.Inv k.platform) (slot : ℕ) :
    (∃ s, m.smp.secondary slot = some s) ↔ slot ∈ m.calls.map CpuOn.slot := by
  rw [h.mem_slots]
  by_cases hp : m.smp.primary = .enter
  · have hcursor := h.cursor
    simp only [Cursor, hp] at hcursor
    constructor
    · rintro ⟨s, hs⟩
      exact absurd hp (hsmp.entered hs).2
    · rw [hcursor.1, List.length_nil]
      omega
  · rw [hsmp.started, h.startedBound hp]

private theorem Identity.current (h : m.Identity k) (hsmp : m.smp.Inv k.platform) {c : CpuOn}
    (hc : c ∈ m.calls) {s : Secondary} (hs : m.smp.secondary c.slot = some s)
    (hinstalled : s.Installed) : m.smp.current s = ⟨c.slot, c.target⟩ := by
  rw [Smp.current, (hsmp.progress c.slot s hs).tpidr hinstalled]
  exact (h.ready c hc).control

private theorem Identity.stackBottom (h : m.Identity k) {c : CpuOn} (hc : c ∈ m.calls) :
    ∃ pa, (c.slot, pa) ∈ m.stackBlocks ∧ c.bootData.stackBottom = pa + kernelLinearBase ∧
      c.bootData.stackTop = pa + kernelLinearBase + 2 ^ stackOrder * pageSize := by
  obtain ⟨pa, hpa, hdata⟩ := (h.ready c hc).stack
  refine ⟨pa, hpa, ?_, ?_⟩
  · rw [SecondaryBootData.stackBottom, hdata, Nat.add_sub_cancel]
  · rw [hdata, stackSize_eq]

private theorem Identity.block_ne (h : m.Identity k) {x y : ℕ × ℕ} (hx : x ∈ m.stackBlocks)
    (hy : y ∈ m.stackBlocks) (hne : x.1 ≠ y.1) : x.2 ≠ y.2 :=
  fun heq => hne (congrArg Prod.fst (List.inj_on_of_nodup_map h.blocks hx hy heq))

end Machine

/-- What the started secondaries have in a state of the machine; the template section ends at
`stop` and `offsets` is the table `OFFSETS`. -/
structure OwnResources (k : Kernel) (stop : ℕ) (offsets : List ℕ) (m : Machine) : Prop where
  order : (m.calls.map fun c => (c.target, c.slot)).reverse <+:
    (k.platform.targets k.platform.cpus).zipIdx 1
  all : m.smp.primary = .returned (.ok ()) →
    (m.calls.map fun c => (c.target, c.slot)).reverse =
      (k.platform.targets k.platform.cpus).zipIdx 1 ∧ m.calls.length + 1 = k.platform.cpus.length
  distinct : (m.calls.map CpuOn.slot).Nodup ∧ (m.calls.map CpuOn.target).Nodup
  started : ∀ slot, (∃ s, m.smp.secondary slot = some s) ↔ slot ∈ m.calls.map CpuOn.slot
  bootData : ∀ c ∈ m.calls, m.smp.bootData c.slot = c.bootData ∧
    offsets[c.slot]? = some c.bootData.percpuOffset ∧ c.bootData.ttbr1Root = k.platform.root
  current : ∀ c ∈ m.calls, ∀ s, m.smp.secondary c.slot = some s → s.Installed →
    m.smp.current s = ⟨c.slot, c.target⟩
  copies : m.calls.Pairwise fun c d => ∀ var size p q, k.platform.percpuStart ≤ var →
    var + size ≤ stop → Percpu.thisCpuPtr .releaseDev c.bootData.percpuOffset var = .ok p →
    Percpu.thisCpuPtr .releaseDev d.bootData.percpuOffset var = .ok q → Clear p size q size
  stack : ∀ c ∈ m.calls, ∃ r pa, m.buddy = some r ∧ (pa, stackOrder) ∈ r.live ∧
    c.bootData.stackBottom = pa + kernelLinearBase ∧
    c.bootData.stackTop = pa + kernelLinearBase + 2 ^ stackOrder * pageSize ∧
    ∀ b ∈ r.live, b ≠ (pa, stackOrder) →
      Clear c.bootData.stackBottom stackSize (b.1 + kernelLinearBase) (2 ^ b.2 * pageSize)
  stacks_apart : m.calls.Pairwise fun c d =>
    Clear c.bootData.stackBottom stackSize d.bootData.stackBottom stackSize

namespace Machine

variable {k : Kernel} {m m' : Machine} {stop : ℕ} {offsets : List ℕ}

private theorem Identity.ownResources (h : m.Identity k) (hinv : m.Inv k)
    (hdistinct : (k.platform.cpus.map Mpidr.new).Nodup)
    (hboot : k.platform.primaryMpidr ∈ k.platform.cpus.map Mpidr.new)
    (hinit : Percpu.init .releaseDev k.platform.percpuStart stop k.platform.areas = .ok offsets) :
    OwnResources k stop offsets m := by
  have hsmp := Smp.inv_of_reachable hinv.smp
  refine ⟨?_, ?_, ⟨h.slots_nodup, ?_⟩, h.started hsmp, ?_, fun c hc s hs => h.current hsmp hc hs,
    ?_, ?_, ?_⟩
  · obtain ⟨rest, hrest⟩ := h.called_first
    rw [h.order, ← hrest, List.zipIdx_append]
    exact List.prefix_append _ _
  · intro hp
    have hcursor := h.cursor
    simp only [Cursor, hp] at hcursor
    refine ⟨by rw [h.order, hcursor.2], ?_⟩
    rw [← Platform.targets_length hdistinct hboot, ← hcursor.2, called, List.length_reverse,
      List.length_map]
  · rw [← List.nodup_reverse]
    exact (Platform.targets_nodup hdistinct).sublist h.called_first.sublist
  · intro c hc
    have hready := h.ready c hc
    obtain ⟨pa, -, hdata⟩ := hready.stack
    refine ⟨hready.written, ?_, ?_⟩
    · rw [hdata]
      exact Percpu.init_platform_getElem hinit hready.slot_lt
    · rw [hdata]
  · have hslots := h.slots_nodup
    rw [List.Nodup, List.pairwise_map] at hslots
    apply hslots.imp_of_mem
    intro c d hc hd hne var size p q hvar hsize hp hq
    obtain ⟨_, -, hdata⟩ := (h.ready c hc).stack
    obtain ⟨_, -, hdata'⟩ := (h.ready d hd).stack
    rw [hdata] at hp
    rw [hdata'] at hq
    exact Percpu.thisCpuPtr_apart hinit hvar hsize hne hp hq
  · intro c hc
    obtain ⟨pa, hpa, hbottom, htop⟩ := h.stackBottom hc
    obtain ⟨r, hr, hlive⟩ := h.live _ hpa
    refine ⟨r, pa, hr, hlive, hbottom, htop, fun b hb hne => ?_⟩
    rw [hbottom, stackSize_eq]
    exact (hinv.buddy r hr).linear_clear hlive hb hne.symm
  · have hslots := h.slots_nodup
    rw [List.Nodup, List.pairwise_map] at hslots
    apply hslots.imp_of_mem
    intro c d hc hd hne
    obtain ⟨pa, hpa, hbottom, -⟩ := h.stackBottom hc
    obtain ⟨pa', hpa', hbottom', -⟩ := h.stackBottom hd
    obtain ⟨r, hr, hlive⟩ := h.live _ hpa
    have hpa_ne : pa ≠ pa' := h.block_ne hpa hpa' hne
    rw [hbottom, hbottom', stackSize_eq]
    exact (hinv.buddy r hr).linear_clear hlive (h.stack_live hr hpa') fun heq =>
      hpa_ne (congrArg Prod.fst heq)

/-! ## Whole runs -/

private theorem bringUpStep_calls (psci : ℤ) (m : Machine) :
    m.calls <:+ (m.bringUpStep k psci).calls := by
  rw [bringUpStep]
  split
  · split
    · exact List.suffix_rfl
    · split <;> exact List.suffix_rfl
  · by_cases hpsci : psci = 0
    · rw [if_pos hpsci]
      exact List.suffix_cons _ _
    · rw [if_neg hpsci]
  all_goals exact List.suffix_rfl

private theorem Step.calls {e : MachineEvent} (h : m.Step k e m') : m.calls <:+ m'.calls := by
  cases e with
  | primary psci =>
      obtain rfl : m' = m.primaryStep k psci := h
      rw [primaryStep]
      split
      case h_5 => exact bringUpStep_calls psci m
      all_goals try split
      all_goals try split
      all_goals exact List.suffix_rfl
  | secondary slot =>
      obtain ⟨s, -, rfl⟩ := h
      exact List.suffix_rfl
  | page call =>
      obtain ⟨r, r', -, -, -, rfl⟩ := h
      exact List.suffix_rfl
  | store table slot word =>
      obtain ⟨-, rfl⟩ := h
      exact List.suffix_rfl

/-- At every point of a run the secondaries have what is theirs, and what they were started with is
theirs to the end of it. -/
theorem secondary_identity {before after : List MachineEvent}
    (hdistinct : (k.platform.cpus.map Mpidr.new).Nodup)
    (hboot : k.platform.primaryMpidr ∈ k.platform.cpus.map Mpidr.new)
    (hinit : Percpu.init .releaseDev k.platform.percpuStart stop k.platform.areas = .ok offsets)
    (h : (machineSystem k).Reaches (before ++ after) m) :
    ∃ m₁, (machineSystem k).Reaches before m₁ ∧ OwnResources k stop offsets m₁ ∧
      OwnResources k stop offsets m ∧ m₁.calls <:+ m.calls := by
  have hown {m : Machine} {history : List MachineEvent} (h : (machineSystem k).Reaches history m) :
      OwnResources k stop offsets m :=
    (identity_of_reachable h.reachable).ownResources (inv_of_reachable h.reachable) hdistinct hboot
      hinit
  have hgrow (m m₁ : Machine) (e : MachineEvent) (m₂ : Machine) (hcalls : m.calls <:+ m₁.calls)
      (hstep : m₁.Step k e m₂) : m.calls <:+ m₂.calls := hcalls.trans hstep.calls
  obtain ⟨m₁, h₁, hcalls⟩ :=
    System.Reaches.earlier (R := fun m m' : Machine => m.calls <:+ m'.calls)
    (fun _ => List.suffix_rfl) hgrow h
  exact ⟨m₁, h₁, hown h₁, hown h, hcalls⟩

theorem secondary_identity_three : ∃ offsets m,
    Percpu.init .releaseDev 0x4008D000 0x4008E000 0xFFFFFFFF80110000 = .ok offsets ∧
      (machineSystem (smallKernel [1, 0, 2])).Reachable m ∧ m.kmain = .running ∧
      m.calls.length = 2 ∧ OwnResources (smallKernel [1, 0, 2]) 0x4008E000 offsets m := by
  have hinit := @Percpu.init_platform (smallKernel [1, 0, 2]).platform 0x4008E000 (by decide)
    (by decide)
  obtain ⟨s, hs⟩ := smallInfo_boots
  obtain ⟨_, _, r, r', hstack, hstack'⟩ := smallInfo_stacks hs
  obtain ⟨m₁, h₁⟩ := exists_looping ((smallKernel_bootBuddy [1, 0, 2]).trans hs)
  obtain ⟨m₂, h₂⟩ := h₁.start (by decide) (by decide) hstack
  obtain ⟨m₃, h₃⟩ := h₂.skip rfl
  obtain ⟨m₄, h₄⟩ := h₃.start (by decide) (by decide) hstack'
  obtain ⟨m, hm, hpc, hcalls⟩ := h₄.run
  obtain ⟨history, hhistory⟩ := hm
  obtain ⟨-, -, -, hown, -⟩ := secondary_identity (by decide) (by decide) hinit
    (show (machineSystem (smallKernel [1, 0, 2])).Reaches ([] ++ history) m from hhistory)
  exact ⟨_, m, hinit, ⟨history, hhistory⟩, hpc, hcalls, hown⟩

end Machine

end Preon.Cpu
