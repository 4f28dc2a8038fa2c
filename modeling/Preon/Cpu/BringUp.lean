import Preon.Cpu.Smp

/-!
# The invariant of the bring-up

Every secondary that was started finds its own control block and boot data, marks its own id, and
has been waited for as long as its id has a bit of its own.
-/

namespace Preon.Cpu

open Framework

theorem Platform.offsetOfCpu_inj (pl : Platform) {c d : ℕ}
    (h : pl.offsetOfCpu c = pl.offsetOfCpu d) :
    c = d := by
  have hle := pl.percpu_le
  simp only [Platform.offsetOfCpu, percpuMax] at h
  omega

theorem Platform.secondaries_cons_of_eq (pl : Platform) {raw : ℕ} {rest : List ℕ}
    (h : Mpidr.new raw = pl.primaryMpidr) : pl.secondaries (raw :: rest) = pl.secondaries rest := by
  simp [Platform.secondaries, h]

theorem Platform.secondaries_cons_of_ne (pl : Platform) {raw : ℕ} {rest : List ℕ}
    (h : Mpidr.new raw ≠ pl.primaryMpidr) :
    pl.secondaries (raw :: rest) = raw :: pl.secondaries rest := by
  simp [Platform.secondaries, h]

namespace Smp

/-- What a secondary has written to its registers by now. -/
structure Progress (pl : Platform) (slot : ℕ) (s : Secondary) : Prop where
  tcr : s.pc ≠ .entry → s.regs.tcr = tcrValue
  ttbr0 : s.pc ≠ .entry → s.pc ≠ .tcrSet → s.regs.ttbr0 = pl.idmapL0
  tpidr : s.pc = .main ∨ s.pc = .parked ∨ s.pc = .panicked → s.regs.tpidr = pl.offsetOfCpu slot
  panicked : s.pc = .panicked → pl.profile = .releaseDev ∧ 64 ≤ slot

/-- The control block and the boot data of a slot are its own. -/
structure Prepared (pl : Platform) (st : Smp) (slot : ℕ) : Prop where
  cpuId : (st.cpuData (pl.offsetOfCpu slot)).cpuId = slot
  percpuOffset : (st.bootData slot).percpuOffset = pl.offsetOfCpu slot
  ttbr1Root : (st.bootData slot).ttbr1Root = pl.root

/-- The ids below this bound are those of the started secondaries. -/
def startedBound (st : Smp) : ℕ :=
  match st.primary with
  | .waiting _ => st.nextIdx + 1
  | .panicked => st.nextIdx + 1
  | _ => st.nextIdx

/-- What the primary knows at each point. -/
def Phase (pl : Platform) (st : Smp) : Prop :=
  match st.primary with
  | .enter => st.nextIdx = 0 ∧ st.marks = [] ∧ st.online = 0
  | .loop nodes => 1 ≤ st.nextIdx ∧
      pl.nrSecondaries + 1 = st.nextIdx + (pl.secondaries nodes).length
  | .stack _ rest => 1 ≤ st.nextIdx ∧ pl.nrSecondaries = st.nextIdx + (pl.secondaries rest).length ∧
      (st.cpuData (pl.offsetOfCpu st.nextIdx)).cpuId = st.nextIdx
  | .cpuOn _ rest => 1 ≤ st.nextIdx ∧ pl.nrSecondaries = st.nextIdx + (pl.secondaries rest).length ∧
      st.Prepared pl st.nextIdx
  | .waiting rest => 1 ≤ st.nextIdx ∧ pl.nrSecondaries = st.nextIdx + (pl.secondaries rest).length
  | .returned (.ok ()) => st.nextIdx = pl.nrSecondaries + 1
  | .returned (.error _) => 1 ≤ st.nextIdx ∧ st.nextIdx ≤ pl.nrSecondaries
  | .panicked => pl.profile = .releaseDev ∧ 64 ≤ st.nextIdx ∧ st.nextIdx ≤ pl.nrSecondaries

structure Inv (pl : Platform) (st : Smp) : Prop where
  marked : Marks st.online (st.marks.map Prod.snd)
  own : ∀ x ∈ st.marks, x.1 = x.2
  zero : st.primary ≠ .enter → (0, 0) ∈ st.marks
  reported : ∀ c, 1 ≤ c →
    ((c, c) ∈ st.marks ↔ ∃ s, st.secondary c = some s ∧ s.pc = .parked)
  started : ∀ c, (∃ s, st.secondary c = some s) ↔ 1 ≤ c ∧ c < st.startedBound
  prepared : ∀ c s, st.secondary c = some s → st.Prepared pl c
  progress : ∀ c s, st.secondary c = some s → Progress pl c s
  passed : ∀ c, 1 ≤ c → c < st.nextIdx → c < 64 → (c, c) ∈ st.marks
  phase : st.Phase pl

variable {pl : Platform} {st : Smp}

private theorem inv_of_initial (h : st.Initial) : st.Inv pl := by
  obtain ⟨honline, hmarks, hprimary, hidx, hsec⟩ := h
  refine ⟨?_, ?_, ?_, ?_, ?_, ?_, ?_, ?_, ?_⟩
  · rw [honline, hmarks]
    exact marks_zero
  · rw [hmarks]
    nofun
  · exact fun hne => absurd hprimary hne
  · intro c _
    simp [hmarks, hsec]
  · intro c
    simp [hsec, startedBound, hprimary, hidx]
  · intro c s hs
    rw [hsec] at hs
    cases hs
  · intro c s hs
    rw [hsec] at hs
    cases hs
  · intro c _ hc _
    omega
  · simp only [Phase, hprimary]
    exact ⟨hidx, hmarks, honline⟩

private theorem Inv.mark_lt (h : st.Inv pl) {c : ℕ} (hc : c ∈ st.marks.map Prod.snd)
    (hpos : 1 ≤ c) :
    c < st.startedBound := by
  obtain ⟨⟨who, id⟩, hx, rfl⟩ := List.mem_map.mp hc
  obtain rfl : who = id := h.own _ hx
  obtain ⟨s, hs, -⟩ := (h.reported who hpos).mp hx
  exact ((h.started who).mp ⟨s, hs⟩).2

theorem Inv.mem_marks (h : st.Inv pl) {c : ℕ} : c ∈ st.marks.map Prod.snd ↔ (c, c) ∈ st.marks := by
  constructor
  · intro hc
    obtain ⟨⟨who, id⟩, hx, rfl⟩ := List.mem_map.mp hc
    obtain rfl : who = id := h.own _ hx
    exact hx
  · exact fun hc => List.mem_map.mpr ⟨_, hc, rfl⟩

theorem Inv.testBit (h : st.Inv pl) (hbound : st.startedBound ≤ 64) {c : ℕ} (hc : c < 64) :
    st.online.testBit c = true ↔ (c, c) ∈ st.marks := by
  rw [← h.mem_marks]
  apply h.marked.testBit _ hc
  intro d hd
  by_cases hpos : 1 ≤ d
  · exact (h.mark_lt hd hpos).trans_le hbound
  · omega

/-! ## Steps of the primary -/

private theorem Inv.move (h : st.Inv pl) {st' : Smp} (honline : st'.online = st.online)
    (hmarks : st'.marks = st.marks) (hsec : st'.secondary = st.secondary)
    (hprimary : st.primary ≠ .enter) (hbound : st'.startedBound = st.startedBound)
    (hprep : ∀ c, c < st.startedBound → st.Prepared pl c → st'.Prepared pl c)
    (hpassed : ∀ c, 1 ≤ c → c < st'.nextIdx → c < 64 → (c, c) ∈ st.marks)
    (hphase : st'.Phase pl) : st'.Inv pl := by
  refine ⟨?_, ?_, ?_, ?_, ?_, ?_, ?_, ?_, hphase⟩
  · rw [honline, hmarks]
    exact h.marked
  · rw [hmarks]
    exact h.own
  · rw [hmarks]
    exact fun _ => h.zero hprimary
  · rw [hmarks, hsec]
    exact h.reported
  · rw [hsec, hbound]
    exact h.started
  · intro c s hs
    rw [hsec] at hs
    exact hprep c ((h.started c).mp ⟨s, hs⟩).2 (h.prepared c s hs)
  · rw [hsec]
    exact h.progress
  · rw [hmarks]
    exact hpassed

/-- A step that only moves the primary. -/
theorem Inv.setPrimary (h : st.Inv pl) {pc : PrimaryPc} (hprimary : st.primary ≠ .enter)
    (hbound : startedBound { st with primary := pc } = st.startedBound)
    (hphase : Phase pl { st with primary := pc }) : Inv pl { st with primary := pc } :=
  h.move rfl rfl rfl hprimary hbound (fun _ _ hprep => ⟨hprep.1, hprep.2, hprep.3⟩) h.passed hphase

private theorem initCpu_prepared {c d : ℕ} (mpidr : ℕ) (hne : c ≠ d) (h : st.Prepared pl c) :
    (st.initCpu pl d mpidr).Prepared pl c := by
  refine ⟨?_, h.percpuOffset, h.ttbr1Root⟩
  simp only [initCpu]
  rw [Function.update_of_ne fun he => hne (pl.offsetOfCpu_inj he)]
  exact h.cpuId

private theorem prepareBootData_prepared {c d : ℕ} (top : ℕ) (hne : c ≠ d) (h : st.Prepared pl c) :
    (st.prepareBootData pl d top).Prepared pl c := by
  have hboot : (st.prepareBootData pl d top).bootData c = st.bootData c :=
    Function.update_of_ne hne _ _
  refine ⟨h.cpuId, ?_, ?_⟩
  · rw [hboot]
    exact h.percpuOffset
  · rw [hboot]
    exact h.ttbr1Root

theorem primaryStep_enter (hp : st.primary = .enter) (answers : Answers) :
    st.primaryStep pl answers =
      { st.initCpu pl 0 pl.primaryMpidr with
        primaryRegs := { st.primaryRegs with tpidr := pl.offsetOfCpu 0 }
        online := st.online ||| 2 ^ (0 % 64)
        marks := (0, 0) :: st.marks
        nextIdx := 1
        primary := .loop pl.cpus } := by
  simp only [primaryStep, hp, markOnline_ok (.inr (by decide : 0 < 64))]

private theorem Inv.enter (h : st.Inv pl) (hp : st.primary = .enter) (answers : Answers) :
    (st.primaryStep pl answers).Inv pl := by
  have hphase := h.phase
  simp only [Phase, hp] at hphase
  obtain ⟨hidx, hmarks, honline⟩ := hphase
  have hnone (c : ℕ) : st.secondary c = none := by
    have hs := (h.started c).mp
    simp only [startedBound, hp, hidx] at hs
    cases hc : st.secondary c with
    | none => rfl
    | some s => exact absurd (hs ⟨s, hc⟩).2 (Nat.not_lt_zero c)
  have hmarked := h.marked.mark 0
  rw [primaryStep_enter hp answers]
  refine ⟨hmarked, ?_, fun _ => List.mem_cons_self, ?_, ?_, ?_, ?_, ?_, ?_⟩
  · exact List.forall_mem_cons.mpr ⟨rfl, h.own⟩
  · intro c hc
    simp only [initCpu, hnone, hmarks, List.mem_singleton, Prod.mk.injEq]
    constructor
    · omega
    · rintro ⟨s, hs, -⟩
      cases hs
  · intro c
    simp only [initCpu, hnone, startedBound]
    constructor
    · rintro ⟨s, hs⟩
      cases hs
    · omega
  · intro c s hs
    simp only [initCpu, hnone] at hs
    cases hs
  · intro c s hs
    simp only [initCpu, hnone] at hs
    cases hs
  · intro c hc hlt _
    simp only at hlt
    omega
  · simp only [Phase]
    exact ⟨Nat.le_refl 1, Nat.add_comm _ _⟩

private theorem Inv.loop (h : st.Inv pl) {nodes : List ℕ} (hp : st.primary = .loop nodes)
    (answers : Answers) : (st.primaryStep pl answers).Inv pl := by
  have hphase := h.phase
  simp only [Phase, hp] at hphase
  obtain ⟨hidx, hcount⟩ := hphase
  have hne : st.primary ≠ .enter := by rw [hp]; nofun
  have hbound : st.startedBound = st.nextIdx := by simp only [startedBound, hp]
  cases nodes with
  | nil =>
      simp only [primaryStep, hp]
      refine h.setPrimary hne hbound.symm ?_
      simp only [Phase]
      exact hcount.symm
  | cons raw rest =>
      simp only [primaryStep, hp]
      split
      · next heq =>
          rw [pl.secondaries_cons_of_eq heq] at hcount
          refine h.setPrimary hne hbound.symm ?_
          simp only [Phase]
          exact ⟨hidx, hcount⟩
      · next hsec =>
          rw [pl.secondaries_cons_of_ne hsec, List.length_cons] at hcount
          split
          · refine h.setPrimary hne hbound.symm ?_
            simp only [Phase]
            exact ⟨hidx, by omega⟩
          · refine h.move rfl rfl rfl hne hbound.symm (fun c hc hprep => ?_) h.passed ?_
            · rw [hbound] at hc
              have hinit := initCpu_prepared (Mpidr.new raw) (Nat.ne_of_lt hc) hprep
              exact ⟨hinit.1, hinit.2, hinit.3⟩
            · simp only [Phase, initCpu, Function.update_self]
              exact ⟨hidx, by omega, trivial⟩

private theorem Inv.stack (h : st.Inv pl) {mpidr : ℕ} {rest : List ℕ}
    (hp : st.primary = .stack mpidr rest)
    (answers : Answers) : (st.primaryStep pl answers).Inv pl := by
  have hphase := h.phase
  simp only [Phase, hp] at hphase
  obtain ⟨hidx, hcount, hcpu⟩ := hphase
  have hne : st.primary ≠ .enter := by rw [hp]; nofun
  have hbound : st.startedBound = st.nextIdx := by simp only [startedBound, hp]
  simp only [primaryStep, hp]
  split
  · refine h.setPrimary hne hbound.symm ?_
    simp only [Phase]
    exact ⟨hidx, by omega⟩
  · next top _ =>
      refine h.move rfl rfl rfl hne hbound.symm (fun c hc hprep => ?_) h.passed ?_
      · rw [hbound] at hc
        have hboot := prepareBootData_prepared top (Nat.ne_of_lt hc) hprep
        exact ⟨hboot.1, hboot.2, hboot.3⟩
      · simp only [Phase]
        refine ⟨hidx, hcount, hcpu, ?_, ?_⟩ <;>
          simp only [prepareBootData, Function.update_self]

private theorem Inv.cpuOn (h : st.Inv pl) {mpidr : ℕ} {rest : List ℕ}
    (hp : st.primary = .cpuOn mpidr rest)
    (answers : Answers) : (st.primaryStep pl answers).Inv pl := by
  have hphase := h.phase
  simp only [Phase, hp] at hphase
  obtain ⟨hidx, hcount, hprepared⟩ := hphase
  have hne : st.primary ≠ .enter := by rw [hp]; nofun
  have hbound : st.startedBound = st.nextIdx := by simp only [startedBound, hp]
  simp only [primaryStep, hp]
  split
  · have hnone : st.secondary st.nextIdx = none := by
      cases hs : st.secondary st.nextIdx with
      | none => rfl
      | some s =>
          have hlt := ((h.started _).mp ⟨s, hs⟩).2
          omega
    refine ⟨h.marked, h.own, fun _ => h.zero hne, ?_, ?_, ?_, ?_, h.passed, ?_⟩
    · intro c hc
      rw [h.reported c hc]
      by_cases he : c = st.nextIdx
      · subst he
        simp [hnone, switchedOn]
      · simp only [Function.update_of_ne he]
    · intro c
      simp only [startedBound]
      by_cases he : c = st.nextIdx
      · subst he
        simp only [Function.update_self]
        exact ⟨fun _ => ⟨hidx, Nat.lt_succ_self _⟩, fun _ => ⟨_, rfl⟩⟩
      · simp only [Function.update_of_ne he]
        rw [h.started c, hbound]
        omega
    · intro c s hs
      by_cases he : c = st.nextIdx
      · subst he
        exact ⟨hprepared.1, hprepared.2, hprepared.3⟩
      · simp only [Function.update_of_ne he] at hs
        have hprep := h.prepared c s hs
        exact ⟨hprep.1, hprep.2, hprep.3⟩
    · intro c s hs
      by_cases he : c = st.nextIdx
      · subst he
        simp only [Function.update_self, Option.some.injEq] at hs
        subst hs
        refine ⟨?_, ?_, ?_, ?_⟩ <;> simp [switchedOn]
      · simp only [Function.update_of_ne he] at hs
        exact h.progress c s hs
    · simp only [Phase]
      exact ⟨hidx, hcount⟩
  · refine h.setPrimary hne hbound.symm ?_
    simp only [Phase]
    exact ⟨hidx, by omega⟩

/-- The wait for an id below 64 ends only when that id is marked. -/
theorem Inv.waiting (h : st.Inv pl) {rest : List ℕ} (hp : st.primary = .waiting rest)
    (answers : Answers) : (st.primaryStep pl answers).Inv pl := by
  have hphase := h.phase
  simp only [Phase, hp] at hphase
  obtain ⟨hidx, hcount⟩ := hphase
  have hne : st.primary ≠ .enter := by rw [hp]; nofun
  have hbound : st.startedBound = st.nextIdx + 1 := by simp only [startedBound, hp]
  simp only [primaryStep, hp]
  split
  · next honline =>
      refine h.move rfl rfl rfl hne hbound.symm (fun _ _ hprep => ⟨hprep.1, hprep.2, hprep.3⟩) ?_ ?_
      · intro c hc hlt h64
        by_cases he : c = st.nextIdx
        · subst he
          rw [isOnline_ok (.inr h64), Nat.mod_eq_of_lt h64] at honline
          exact (h.testBit (by omega) h64).mp (Except.ok.inj honline)
        · simp only at hlt
          exact h.passed c hc (by omega) h64
      · simp only [Phase]
        exact ⟨by omega, by omega⟩
  · exact h
  · next e honline =>
      refine h.setPrimary hne hbound.symm ?_
      simp only [Phase]
      obtain ⟨hdev, h64⟩ := isOnline_error honline
      exact ⟨hdev, h64, by omega⟩

theorem Inv.startedBound_le (h : st.Inv pl) : st.startedBound ≤ pl.nrSecondaries + 1 := by
  have hphase := h.phase
  cases hp : st.primary with
  | returned result =>
      cases result <;> simp only [Phase, hp] at hphase <;> simp only [startedBound, hp] <;> omega
  | _ =>
      simp only [Phase, hp] at hphase
      simp only [startedBound, hp]
      omega

private theorem Inv.primaryStep (h : st.Inv pl) (answers : Answers) :
    (st.primaryStep pl answers).Inv pl := by
  cases hp : st.primary with
  | enter => exact h.enter hp answers
  | loop nodes => exact h.loop hp answers
  | stack mpidr rest => exact h.stack hp answers
  | cpuOn mpidr rest => exact h.cpuOn hp answers
  | waiting rest => exact h.waiting hp answers
  | returned result =>
      simp only [Smp.primaryStep, hp]
      exact h
  | panicked =>
      simp only [Smp.primaryStep, hp]
      exact h

/-! ## Steps of a secondary -/

theorem Inv.entered (h : st.Inv pl) {slot : ℕ} {s : Secondary} (hs : st.secondary slot = some s) :
    1 ≤ slot ∧ st.primary ≠ .enter := by
  obtain ⟨hpos, hlt⟩ := (h.started slot).mp ⟨s, hs⟩
  refine ⟨hpos, fun hp => ?_⟩
  have hphase := h.phase
  simp only [Phase, hp] at hphase
  simp only [startedBound, hp, hphase.1] at hlt
  exact Nat.not_lt_zero _ hlt

private theorem phase_congr (h : st.Phase pl) (hne : st.primary ≠ .enter) {st' : Smp}
    (hprimary : st'.primary = st.primary) (hidx : st'.nextIdx = st.nextIdx)
    (hcpu : st'.cpuData = st.cpuData) (hboot : st'.bootData = st.bootData) : st'.Phase pl := by
  have hprep : st.Prepared pl st.nextIdx → st'.Prepared pl st'.nextIdx := by
    rintro ⟨hid, hoffset, hroot⟩
    exact ⟨by rw [hcpu, hidx]; exact hid, by rw [hboot, hidx]; exact hoffset,
      by rw [hboot, hidx]; exact hroot⟩
  simp only [Phase, hprimary] at h ⊢
  cases hp : st.primary with
  | enter => exact absurd hp hne
  | cpuOn mpidr rest =>
      simp only [hp] at h
      rw [hidx] at hprep ⊢
      exact ⟨h.1, h.2.1, hprep h.2.2⟩
  | returned result => cases result <;> simpa only [hp, hidx] using h
  | _ => simpa only [hp, hidx, hcpu] using h

/-- A secondary that takes a step stays where it is found; the others are left alone. -/
theorem putSecondary_started {slot : ℕ} {s s' : Secondary}
    (hs : st.secondary slot = some s) (c : ℕ) :
    (∃ s₁, (st.putSecondary slot s').secondary c = some s₁) ↔ ∃ s₁, st.secondary c = some s₁ := by
  by_cases he : c = slot
  · subst he
    simp [Smp.putSecondary, hs]
  · simp only [Smp.putSecondary, Function.update_of_ne he]

private theorem putSecondary_eq_some {slot c : ℕ} {s' s₁ : Secondary}
    (h : (st.putSecondary slot s').secondary c = some s₁) :
    (c = slot ∧ s₁ = s') ∨ st.secondary c = some s₁ := by
  by_cases he : c = slot
  · subst he
    simp only [Smp.putSecondary, Function.update_self, Option.some.injEq] at h
    exact .inl ⟨rfl, h.symm⟩
  · simp only [Smp.putSecondary, Function.update_of_ne he] at h
    exact .inr h

private theorem Inv.prepared_put (h : st.Inv pl) {slot c : ℕ} {s s' s₁ : Secondary}
    (hs : st.secondary slot = some s) (hs₁ : (st.putSecondary slot s').secondary c = some s₁) :
    st.Prepared pl c := by
  rcases putSecondary_eq_some hs₁ with ⟨rfl, -⟩ | hold
  · exact h.prepared c s hs
  · exact h.prepared c s₁ hold

private theorem Inv.progress_put (h : st.Inv pl) {slot c : ℕ} {s' s₁ : Secondary}
    (hprog : Progress pl slot s') (hs₁ : (st.putSecondary slot s').secondary c = some s₁) :
    Progress pl c s₁ := by
  rcases putSecondary_eq_some hs₁ with ⟨rfl, rfl⟩ | hold
  · exact hprog
  · exact h.progress c s₁ hold

private theorem Inv.putSecondary (h : st.Inv pl) {slot : ℕ} {s s' : Secondary}
    (hs : st.secondary slot = some s) (hpc : s.pc ≠ .parked) (hpc' : s'.pc ≠ .parked)
    (hprog : Progress pl slot s') : (st.putSecondary slot s').Inv pl := by
  obtain ⟨hpos, hne⟩ := h.entered hs
  refine ⟨h.marked, h.own, h.zero, ?_, ?_, ?_, ?_, h.passed, ?_⟩
  · intro c hc
    refine (h.reported c hc).trans ?_
    by_cases he : c = slot
    · subst he
      simp [Smp.putSecondary, hs, hpc, hpc']
    · simp only [Smp.putSecondary, Function.update_of_ne he]
  · exact fun c => (putSecondary_started hs c).trans (h.started c)
  · intro c s₁ hs₁
    have hprep := h.prepared_put hs hs₁
    exact ⟨hprep.1, hprep.2, hprep.3⟩
  · exact fun c s₁ hs₁ => h.progress_put hprog hs₁
  · exact phase_congr h.phase hne rfl rfl rfl rfl

private theorem Inv.report (h : st.Inv pl) {slot : ℕ} {s : Secondary}
    (hs : st.secondary slot = some s)
    (hpc : s.pc = .main) {online : ℕ}
    (hmark : markOnline pl.profile st.online slot = .ok online) :
    Inv pl { st.putSecondary slot ⟨.parked, s.regs⟩ with
             online := online, marks := (slot, slot) :: st.marks } := by
  obtain ⟨hpos, hne⟩ := h.entered hs
  have hprog := h.progress slot s hs
  have hprog' : Progress pl slot ⟨.parked, s.regs⟩ := by
    refine ⟨fun _ => hprog.tcr ?_, fun _ _ => hprog.ttbr0 ?_ ?_,
      fun _ => hprog.tpidr (.inl hpc), ?_⟩
      <;> simp [hpc]
  refine ⟨?_, ?_, fun _ => List.mem_cons_of_mem _ (h.zero hne), ?_, ?_, ?_, ?_, ?_, ?_⟩
  · rw [List.map_cons, markOnline_eq hmark]
    exact h.marked.mark slot
  · exact List.forall_mem_cons.mpr ⟨rfl, h.own⟩
  · intro c hc
    by_cases he : c = slot
    · subst he
      simp [Smp.putSecondary]
    · simp only [Smp.putSecondary, Function.update_of_ne he, List.mem_cons, Prod.mk.injEq, he,
        false_and, false_or]
      exact h.reported c hc
  · exact fun c => (putSecondary_started hs c).trans (h.started c)
  · intro c s₁ hs₁
    have hprep := h.prepared_put hs hs₁
    exact ⟨hprep.1, hprep.2, hprep.3⟩
  · exact fun c s₁ hs₁ => h.progress_put hprog' hs₁
  · intro c hc hlt h64
    exact List.mem_cons_of_mem _ (h.passed c hc hlt h64)
  · exact phase_congr h.phase hne rfl rfl rfl rfl

private theorem Inv.runSecondary (h : st.Inv pl) {slot : ℕ} {s : Secondary}
    (hs : st.secondary slot = some s) : (st.runSecondary pl slot s).Inv pl := by
  have hprog := h.progress slot s hs
  have hprep := h.prepared slot s hs
  cases hpc : s.pc with
  | entry =>
      simp only [Smp.runSecondary, hpc]
      refine h.putSecondary hs (by rw [hpc]; nofun) nofun ⟨?_, ?_, ?_, ?_⟩ <;> simp
  | tcrSet =>
      have htcr := hprog.tcr (by rw [hpc]; nofun)
      simp only [Smp.runSecondary, hpc]
      refine h.putSecondary hs (by rw [hpc]; nofun) nofun ⟨?_, ?_, ?_, ?_⟩ <;> simp [htcr]
  | ttbr0Set =>
      have htcr := hprog.tcr (by rw [hpc]; nofun)
      have httbr0 := hprog.ttbr0 (by rw [hpc]; nofun) (by rw [hpc]; nofun)
      simp only [Smp.runSecondary, hpc]
      refine h.putSecondary hs (by rw [hpc]; nofun) nofun ⟨?_, ?_, ?_, ?_⟩ <;> simp [htcr, httbr0]
  | ttbr1Set =>
      have htcr := hprog.tcr (by rw [hpc]; nofun)
      have httbr0 := hprog.ttbr0 (by rw [hpc]; nofun) (by rw [hpc]; nofun)
      simp only [Smp.runSecondary, hpc]
      refine h.putSecondary hs (by rw [hpc]; nofun) nofun ⟨?_, ?_, ?_, ?_⟩ <;> simp [htcr, httbr0]
  | high =>
      have htcr := hprog.tcr (by rw [hpc]; nofun)
      have httbr0 := hprog.ttbr0 (by rw [hpc]; nofun) (by rw [hpc]; nofun)
      simp only [Smp.runSecondary, hpc]
      refine h.putSecondary hs (by rw [hpc]; nofun) nofun ⟨?_, ?_, ?_, ?_⟩ <;>
        simp [htcr, httbr0, hprep.percpuOffset]
  | main =>
      have hid : (st.cpuData s.regs.tpidr).cpuId = slot := by
        rw [hprog.tpidr (.inl hpc)]
        exact hprep.cpuId
      simp only [Smp.runSecondary, hpc, hid]
      split
      · next online hmark => exact h.report hs hpc hmark
      · next e hmark =>
          have htcr := hprog.tcr (by rw [hpc]; nofun)
          have httbr0 := hprog.ttbr0 (by rw [hpc]; nofun) (by rw [hpc]; nofun)
          exact h.putSecondary hs (by rw [hpc]; nofun) nofun
            ⟨fun _ => htcr, fun _ _ => httbr0, fun _ => hprog.tpidr (.inl hpc),
              fun _ => markOnline_error hmark⟩
  | parked =>
      simp only [Smp.runSecondary, hpc]
      exact h
  | panicked =>
      simp only [Smp.runSecondary, hpc]
      exact h

theorem inv_of_reachable (h : (smpSystem pl).Reachable st) : st.Inv pl := by
  revert h
  apply System.Reachable.invariant
  · exact fun st hst => inv_of_initial hst
  · intro st e st' hinv hstep
    cases e with
    | primary answers =>
        obtain rfl : st' = st.primaryStep pl answers := hstep
        exact hinv.primaryStep answers
    | secondary slot =>
        obtain ⟨s, hs, rfl⟩ := hstep
        exact hinv.runSecondary hs

end Smp

end Preon.Cpu
