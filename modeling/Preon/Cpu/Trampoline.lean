import Preon.Cpu.Machine

/-!
# The trampoline after it was reclaimed

`reclaim_trampoline` gives the pages of the boot tables to the allocator.  The primary has retired
its `TTBR0_EL1` by then, but a secondary parks with the register still at the identity map and
with walks enabled.
-/

namespace Preon.Cpu

open Framework Memory BootMem BuddyAllocator

/-! ## What is asked for -/

/-- The address lies in a frame that the allocator owns and hands out, now or after a release. -/
def MayHandOut (r : Booted) (pa : ℕ) : Prop :=
  ∃ p < r.allocator.nrFrames, frameAddr r.allocator.dramBase p ≤ pa ∧
    pa < frameAddr r.allocator.dramBase p + pageSize ∧ (r.allocator.info p).state ≠ .reserved

namespace Machine

/-- The registers of a CPU that has marked itself online. -/
def OnlineRegs (m : Machine) (regs : Registers) : Prop :=
  (0, 0) ∈ m.smp.marks ∧ regs = m.smp.primaryRegs ∨
    ∃ c s, m.smp.secondary c = some s ∧ (c, c) ∈ m.smp.marks ∧ regs = s.regs

/-- The tables that a walk through `TTBR0_EL1` can pass, the root included. -/
def LowTable (m : Machine) (regs : Registers) (t : ℕ) : Prop :=
  ∃ x n, Radix.Path 512 decode m.tables 3 regs.ttbr0 x n t

/-- No online CPU with walks enabled can walk through a frame of the allocator. -/
def TrampolineDead (m : Machine) : Prop :=
  ∀ regs, m.OnlineRegs regs → regs.Walks → ∀ r, m.buddy = some r →
    ∀ t, m.LowTable regs t → ¬ MayHandOut r t

end Machine

/-! ## The state after the hand-over -/

private theorem Kernel.Boots.owns_trampoline {k : Kernel} {r : Booted} (h : k.Boots r)
    (hreclaimed : r.reclaimed = true) {f : ℕ} (hf : k.info.Trampoline f) :
    MayHandOut r (f * pageSize) := by
  obtain ⟨s, hs, hr⟩ := h
  obtain ⟨mm, lo, given, m, hto⟩ := k.handedTo hs
  obtain ⟨hlo, hhi⟩ := hto.covers_trampoline k.contract f hf
  obtain ⟨given', m', hinv⟩ := Booted.inv_of_reachable k.contract hto hr
  have hlt : f - lo < r.allocator.nrFrames := by
    rw [hinv.frames]
    omega
  have haddr : frameAddr r.allocator.dramBase (f - lo) = f * pageSize := by
    rw [frameAddr, hinv.base, ← Nat.add_mul, Nat.add_sub_cancel' hlo]
  refine ⟨f - lo, hlt, haddr.le, ?_, ?_⟩
  · rw [haddr]
    exact Nat.lt_add_of_pos_right (by decide)
  · intro hreserved
    have hlabel := (hinv.tracked.tracks.refines.reserved_iff hlt).mp hreserved
    have hgiven : f - lo ∈ framesOf given' := by
      rw [hinv.given_iff, Nat.add_sub_cancel' hlo]
      exact .inr ⟨hreclaimed, hf⟩
    obtain ⟨range, hrange, hin⟩ := mem_framesOf.mp hgiven
    exact (hinv.tracked.tracks.reserved _).mp hlabel range hrange hin

namespace Machine

variable {k : Kernel} {m : Machine}

private theorem idmap_trampoline (k : Kernel) :
    ∃ q, k.platform.idmapL0 = q * pageSize ∧ k.info.Trampoline q := by
  obtain ⟨q, stop, hq, -, hlt, hframes⟩ := k.contract.trampoline_frames
  exact ⟨q, k.idmap_placed.trans hq, (hframes q).mpr ⟨Nat.le_refl q, hlt⟩⟩

private theorem Inv.parked_walks (h : m.Inv k) (hpc : m.kmain = .running)
    (hn : k.platform.nrSecondaries ≠ 0) :
    ∃ regs, m.OnlineRegs regs ∧ regs.Walks ∧ regs.ttbr0 = k.platform.idmapL0 := by
  have hphase := h.phase
  simp only [Phase, hpc] at hphase
  have hinv := Smp.inv_of_reachable h.smp
  have hcount := hinv.phase
  simp only [Smp.Phase, hphase.2.1] at hcount
  have hmark := hinv.passed 1 (Nat.le_refl 1) (by omega) (by decide)
  obtain ⟨s, hs, hparked⟩ := (hinv.reported 1 (Nat.le_refl 1)).mp hmark
  have hprogress := hinv.progress 1 s hs
  refine ⟨s.regs, .inr ⟨1, s, hs, hmark, rfl⟩, ?_, hprogress.ttbr0 (by simp [hparked])
    (by simp [hparked])⟩
  rw [Registers.Walks, hprogress.tcr (by simp [hparked])]
  decide

/-- Without secondaries the primary is the only CPU online. -/
theorem Inv.online_primary (h : m.Inv k) (hn : k.platform.nrSecondaries = 0) {regs : Registers}
    (hregs : m.OnlineRegs regs) : regs = m.smp.primaryRegs := by
  rcases hregs with ⟨-, hregs⟩ | ⟨c, s, hs, -⟩
  · exact hregs
  · have hinv := Smp.inv_of_reachable h.smp
    have hbound := hinv.startedBound_le
    have hstarted := (hinv.started c).mp ⟨s, hs⟩
    omega

private theorem Inv.not_dead (h : m.Inv k) (hpc : m.kmain = .running)
    (hn : k.platform.nrSecondaries ≠ 0) :
    ¬ m.TrampolineDead := by
  have hphase := h.phase
  simp only [Phase, hpc] at hphase
  obtain ⟨-, -, r, hr, hreclaimed⟩ := hphase
  obtain ⟨regs, honline, hwalks, hroot⟩ := h.parked_walks hpc hn
  obtain ⟨q, hq, htrampoline⟩ := idmap_trampoline k
  intro hdead
  refine hdead regs honline hwalks r hr regs.ttbr0 ⟨0, 3, .root⟩ ?_
  rw [hroot, hq]
  exact (h.buddy r hr).owns_trampoline hreclaimed htrampoline

/-- In every state after `reclaim_trampoline` the tables are dead exactly when no secondary was
brought up. -/
theorem trampolineDead_iff (h : (machineSystem k).Reachable m) (hpc : m.kmain = .running) :
    m.TrampolineDead ↔ k.platform.nrSecondaries = 0 := by
  have hinv := inv_of_reachable h
  constructor
  · intro hdead
    by_contra hn
    exact hinv.not_dead hpc hn hdead
  · intro hn regs honline hwalks
    have hphase := hinv.phase
    simp only [Phase, hpc] at hphase
    rw [hinv.online_primary hn honline] at hwalks
    exact absurd hwalks hphase.1

end Machine

/-! ## One CPU and two -/

/-- The small machine of one 2 MiB block with the CPUs of the device tree. -/
def smallKernel (cpus : List ℕ) : Kernel where
  platform := ⟨.releaseDev, 0, cpus, 0x40108000, 0x40081000, 0xFFFFFFFF80110000, 0x4008D000,
    by decide⟩
  info := smallInfo
  memmap := fun _ => default
  contract := smallInfo_contract
  ram_end := by decide
  idmap_placed := rfl
  tables_placed := by decide

theorem smallKernel_bootBuddy (cpus : List ℕ) :
    (smallKernel cpus).bootBuddy = initBuddy (fun _ => default) smallBoot := by
  change buildBootmem smallInfo.regions smallInfo.stackTopPa smallInfo.dtb smallInfo.fdtSize >>= _ =
    _
  rw [smallInfo_bootmem, ok_bind]
  rfl

namespace Machine

theorem trampolineDead_alone :
    ∃ m, (machineSystem (smallKernel [0])).Reachable m ∧ m.kmain = .running ∧
      m.TrampolineDead := by
  obtain ⟨s, hs⟩ := smallInfo_boots
  obtain ⟨m₁, h₁⟩ := exists_looping ((smallKernel_bootBuddy [0]).trans hs)
  obtain ⟨m₂, h₂⟩ := h₁.skip rfl
  obtain ⟨m, hm, hpc, -⟩ := h₂.run
  exact ⟨m, hm, hpc, (trampolineDead_iff hm hpc).mpr rfl⟩

end Machine

theorem smallInfo_allocPages {s : BuddyAllocator} {order pa : ℕ}
    (hinit : initBuddy (fun _ => default) smallBoot = .ok s)
    (hblock : ((initBuddy (fun _ => default) smallBoot >>=
      fun s => s.allocPages order).toOption.bind Prod.fst) = some pa) :
    ∃ s', s.allocPages order = .ok (some pa, s') := by
  rw [hinit, ok_bind] at hblock
  cases hcall : s.allocPages order with
  | error e =>
      rw [hcall] at hblock
      cases hblock
  | ok result =>
      obtain ⟨block, s'⟩ := result
      rw [hcall] at hblock
      obtain rfl : block = some pa := hblock
      exact ⟨s', rfl⟩

private theorem allocStack_ok {s s' : BuddyAllocator} {live : List (ℕ × ℕ)} {pa : ℕ}
    (hcall : s.allocPages stackOrder = .ok (some pa, s')) (hpa : pa + stackSize < 2 ^ 47) :
    allocStack ⟨s, live, false⟩ =
      .ok (some (pa, pa + kernelLinearBase + stackSize),
        ⟨s', (pa, stackOrder) :: live, false⟩) := by
  rw [allocStack, hcall, ok_bind]
  change paToLinearVa pa >>= _ = _
  rw [paToLinearVa_ok (by omega), ok_bind, checkedAdd_ok (by simp only [kernelLinearBase]; omega)]
  rfl

theorem smallInfo_stacks {s : BuddyAllocator}
    (hinit : initBuddy (fun _ => default) smallBoot = .ok s) :
    ∃ stack stack' r r', allocStack ⟨s, [], false⟩ = .ok (some stack, r) ∧
      allocStack r = .ok (some stack', r') := by
  have hrun : (initBuddy (fun _ => default) smallBoot >>= fun s => s.allocPages stackOrder >>=
      fun first => first.2.allocPages stackOrder >>= fun second => .ok (first.1, second.1)) =
        .ok (some 0x401E0000, some 0x401D0000) := by
    decide +kernel
  rw [hinit, ok_bind] at hrun
  obtain ⟨⟨block, s₁⟩, hfirst, hrun⟩ := bind_eq_ok.mp hrun
  obtain ⟨⟨block', s₂⟩, hsecond, hrun⟩ := bind_eq_ok.mp hrun
  obtain ⟨rfl, rfl⟩ := Prod.mk.inj (Except.ok.inj hrun)
  exact ⟨_, _, _, _, allocStack_ok hfirst (by decide), allocStack_ok hsecond (by decide)⟩

namespace Machine

theorem trampolineDead_fails_two :
    ∃ m, (machineSystem (smallKernel [0, 1])).Reachable m ∧ m.kmain = .running ∧
      ¬ m.TrampolineDead := by
  obtain ⟨s, hs⟩ := smallInfo_boots
  obtain ⟨_, _, _, _, hstack, -⟩ := smallInfo_stacks hs
  obtain ⟨m₁, h₁⟩ := exists_looping ((smallKernel_bootBuddy [0, 1]).trans hs)
  obtain ⟨m₂, h₂⟩ := h₁.skip rfl
  obtain ⟨m₃, h₃⟩ := h₂.start (by decide) (by decide) hstack
  obtain ⟨m, hm, hpc, -⟩ := h₃.run
  exact ⟨m, hm, hpc, (inv_of_reachable hm).not_dead hpc (by decide)⟩

end Machine

end Preon.Cpu
