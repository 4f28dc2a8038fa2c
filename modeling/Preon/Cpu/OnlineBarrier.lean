import Preon.Cpu.BringUp

/-!
# The online barrier

With at most 63 secondaries the primary passes a wait only after that very secondary has marked
itself, in both build profiles.  With more of them the id 64 falls on the bit of the primary: the
wait is passed at once in a release build and panics in the development one.
-/

namespace Preon.Cpu

open Framework

namespace Smp

/-- A started secondary that has not reported in. -/
def Missing (st : Smp) (c : ℕ) : Prop := (∃ s, st.secondary c = some s) ∧ (c, c) ∉ st.marks

/-- What the barrier promises.  The primary has passed the waits for the ids below `nextIdx`. -/
structure Safe (pl : Platform) (st : Smp) : Prop where
  no_panic : st.primary ≠ .panicked ∧ ∀ c s, st.secondary c = some s → s.pc ≠ .panicked
  own : ∀ x ∈ st.marks, x.1 = x.2
  passed : ∀ c, 1 ≤ c → c < st.nextIdx → (c, c) ∈ st.marks
  one_missing : ∀ c d, st.Missing c → st.Missing d → c = d
  complete : st.primary = .returned (.ok ()) →
    ∀ c, 1 ≤ c → c ≤ pl.nrSecondaries → (c, c) ∈ st.marks
  reported : ∀ c ≤ pl.nrSecondaries,
    isOnline pl.profile st.online c = .ok (decide ((c, c) ∈ st.marks))

variable {pl : Platform} {st : Smp}

private theorem startedBound_bounds (st : Smp) :
    st.nextIdx ≤ st.startedBound ∧ st.startedBound ≤ st.nextIdx + 1 := by
  simp only [startedBound]
  split <;> omega

private theorem Inv.missing_eq (h : st.Inv pl) (hn : pl.nrSecondaries ≤ 63) {c : ℕ}
    (hc : st.Missing c) :
    c = st.nextIdx := by
  obtain ⟨hstarted, hnot⟩ := hc
  obtain ⟨hpos, hlt⟩ := (h.started c).mp hstarted
  have hle := h.startedBound_le
  have hge : ¬ c < st.nextIdx := fun hc => hnot (h.passed c hpos hc (by omega))
  have hbound := st.startedBound_bounds
  omega

private theorem Inv.safe (h : st.Inv pl) (hn : pl.nrSecondaries ≤ 63) : st.Safe pl := by
  have hle := h.startedBound_le
  have hidx := st.startedBound_bounds
  refine ⟨⟨?_, ?_⟩, h.own, ?_, ?_, ?_, ?_⟩
  · intro hp
    have hphase := h.phase
    simp only [Phase, hp] at hphase
    omega
  · intro c s hs hpc
    have hfar := ((h.progress c s hs).panicked hpc).2
    have hlt := ((h.started c).mp ⟨s, hs⟩).2
    omega
  · intro c hc hlt
    exact h.passed c hc hlt (by omega)
  · intro c d hc hd
    rw [h.missing_eq hn hc, h.missing_eq hn hd]
  · intro hp c hc hle
    have hphase := h.phase
    simp only [Phase, hp] at hphase
    exact h.passed c hc (by omega) (by omega)
  · intro c hc
    have h64 : c < 64 := by omega
    rw [isOnline_ok (.inr h64), Nat.mod_eq_of_lt h64]
    refine congrArg Except.ok (Bool.eq_iff_iff.mpr ?_)
    rw [h.testBit (by omega) h64, decide_eq_true_iff]

/-! ## A run that goes wrong -/

def stepsLeft : SecondaryPc → ℕ
  | .entry => 6
  | .tcrSet => 5
  | .ttbr0Set => 4
  | .ttbr1Set => 3
  | .high => 2
  | .main => 1
  | .parked => 0
  | .panicked => 0

theorem runSecondary_frame (pl : Platform) (slot : ℕ) (s : Secondary) (st : Smp) :
    (st.runSecondary pl slot s).primary = st.primary ∧
      (st.runSecondary pl slot s).nextIdx = st.nextIdx ∧
      (st.runSecondary pl slot s).primaryRegs = st.primaryRegs := by
  rw [runSecondary]
  split
  case h_6 => split <;> exact ⟨rfl, rfl, rfl⟩
  all_goals exact ⟨rfl, rfl, rfl⟩

private theorem Inv.runSecondary_closer (h : st.Inv pl) {slot : ℕ} {s : Secondary}
    (hs : st.secondary slot = some s) (h64 : slot < 64) (hpc : s.pc ≠ .parked) :
    ∃ s', (st.runSecondary pl slot s).secondary slot = some s' ∧ s'.pc ≠ .panicked ∧
      stepsLeft s'.pc < stepsLeft s.pc := by
  have hprog := h.progress slot s hs
  have hid : s.pc = .main → (st.cpuData s.regs.tpidr).cpuId = slot := by
    intro hmain
    rw [hprog.tpidr (.inl hmain)]
    exact (h.prepared slot s hs).cpuId
  cases hp : s.pc with
  | main =>
      simp only [Smp.runSecondary, hp, hid hp, markOnline_ok (.inr h64)]
      exact ⟨_, Function.update_self .., by simp, Nat.lt_succ_self _⟩
  | parked => exact absurd hp hpc
  | panicked =>
      have := (hprog.panicked hp).2
      omega
  | _ =>
      simp only [Smp.runSecondary, hp]
      exact ⟨_, Function.update_self .., by simp, Nat.lt_succ_self _⟩

/-- A secondary that was started reports in, whatever system the steps of the secondaries are part
of. -/
theorem reach_parked {P : Smp → Prop} (hinv : ∀ st, P st → st.Inv pl)
    (hstep : ∀ st slot s, P st → st.secondary slot = some s → P (st.runSecondary pl slot s))
    {slot : ℕ} (h64 : slot < 64) (left : ℕ) (hst : P st) {s : Secondary}
    (hs : st.secondary slot = some s) (hleft : stepsLeft s.pc ≤ left) :
    ∃ st', P st' ∧ st'.primary = st.primary ∧ st'.nextIdx = st.nextIdx ∧
      ∃ s', st'.secondary slot = some s' ∧ s'.pc = .parked := by
  induction left generalizing st s with
  | zero =>
      refine ⟨st, hst, rfl, rfl, s, hs, ?_⟩
      by_contra hpc
      obtain ⟨s', -, -, hlt⟩ := (hinv st hst).runSecondary_closer hs h64 hpc
      omega
  | succ left ih =>
      by_cases hpc : s.pc = .parked
      · exact ⟨st, hst, rfl, rfl, s, hs, hpc⟩
      · obtain ⟨s', hs', -, hlt⟩ := (hinv st hst).runSecondary_closer hs h64 hpc
        obtain ⟨hprimary, hidx, -⟩ := runSecondary_frame pl slot s st
        obtain ⟨st', hreach, hp', hi', hparked⟩ := ih (hstep st slot s hst hs) hs' (by omega)
        exact ⟨st', hreach, hp'.trans hprimary, hi'.trans hidx, hparked⟩

theorem reach_primary (hst : (smpSystem pl).Reachable st) (answers : Answers) :
    (smpSystem pl).Reachable (st.primaryStep pl answers) :=
  hst.step (e := .primary answers) rfl

private theorem reach_waiting (hst : (smpSystem pl).Reachable st) {raw : ℕ} {rest : List ℕ}
    (hp : st.primary = .loop (raw :: rest)) (hraw : Mpidr.new raw ≠ pl.primaryMpidr)
    (hidx : st.nextIdx < maxCpus) :
    ∃ st', (smpSystem pl).Reachable st' ∧ st'.primary = .waiting rest ∧ st'.nextIdx = st.nextIdx ∧
      st'.secondary st.nextIdx = some switchedOn := by
  have hreach := reach_primary (reach_primary (reach_primary hst ⟨none, 0⟩) ⟨some 0, 0⟩) ⟨none, 0⟩
  have hfirst : st.primaryStep pl ⟨none, 0⟩ =
      { st.initCpu pl st.nextIdx (Mpidr.new raw) with primary := .stack (Mpidr.new raw) rest } := by
    simp only [primaryStep, hp, if_neg hraw, if_neg (Nat.not_le.mpr hidx)]
  rw [hfirst] at hreach
  refine ⟨_, hreach, ?_, ?_, ?_⟩ <;> simp [primaryStep, prepareBootData, initCpu]

private theorem reach_next (hst : (smpSystem pl).Reachable st) {raw : ℕ} {rest : List ℕ}
    (hp : st.primary = .loop (raw :: rest)) (hraw : Mpidr.new raw ≠ pl.primaryMpidr)
    (hidx : st.nextIdx < 64) :
    ∃ st', (smpSystem pl).Reachable st' ∧ st'.primary = .loop rest ∧
      st'.nextIdx = st.nextIdx + 1 := by
  obtain ⟨st₁, hst₁, hp₁, hi₁, hs₁⟩ := reach_waiting hst hp hraw (hidx.trans (by decide))
  obtain ⟨st₂, hst₂, hp₂, hi₂, s, hs, hparked⟩ := reach_parked (P := (smpSystem pl).Reachable)
    (fun st h => inv_of_reachable h)
    (fun st slot s h hs => h.step (e := .secondary slot) ⟨s, hs, rfl⟩)
    hidx 6 hst₁ hs₁ (Nat.le_refl 6)
  have hinv := inv_of_reachable hst₂
  have hpos := (hinv.entered hs).1
  have hwait : st₂.primary = .waiting rest := hp₂.trans hp₁
  have hi : st₂.nextIdx = st.nextIdx := hi₂.trans hi₁
  have hbit : st₂.online.testBit st.nextIdx = true := by
    rw [hinv.testBit (by simp only [startedBound, hwait]; omega) hidx, hinv.reported _ hpos]
    exact ⟨s, hs, hparked⟩
  refine ⟨_, reach_primary hst₂ ⟨none, 0⟩, ?_, ?_⟩ <;>
    simp only [primaryStep, hwait, hi, isOnline_ok (.inr hidx), Nat.mod_eq_of_lt hidx, hbit]

private theorem reach_waiting_sixtyFour (nodes : List ℕ) (hst : (smpSystem pl).Reachable st)
    (hp : st.primary = .loop nodes) (hidx : st.nextIdx ≤ 64)
    (hmany : 64 < st.nextIdx + (pl.secondaries nodes).length) :
    ∃ st' rest, (smpSystem pl).Reachable st' ∧ st'.primary = .waiting rest ∧ st'.nextIdx = 64 ∧
      st'.secondary 64 = some switchedOn := by
  induction nodes generalizing st with
  | nil =>
      simp only [Platform.secondaries, List.filter_nil, List.length_nil] at hmany
      omega
  | cons raw rest ih =>
      by_cases hraw : Mpidr.new raw = pl.primaryMpidr
      · rw [pl.secondaries_cons_of_eq hraw] at hmany
        have hskip : st.primaryStep pl ⟨none, 0⟩ = { st with primary := .loop rest } := by
          simp only [primaryStep, hp, if_pos hraw]
        have hnext := reach_primary hst ⟨none, 0⟩
        rw [hskip] at hnext
        exact ih hnext rfl hidx hmany
      · rw [pl.secondaries_cons_of_ne hraw, List.length_cons] at hmany
        by_cases hlast : st.nextIdx = 64
        · obtain ⟨st', hst', hp', hi', hs'⟩ := reach_waiting hst hp hraw (by rw [hlast]; decide)
          rw [hlast] at hi' hs'
          exact ⟨st', rest, hst', hp', hi', hs'⟩
        · obtain ⟨st', hst', hp', hi'⟩ := reach_next hst hp hraw (by omega)
          exact ih hst' hp' (by omega) (by omega)

/-- No CPU has run yet. -/
def reset : Smp :=
  ⟨0, [], fun _ => ⟨0, 0⟩, fun _ => ⟨0, 0, 0⟩, .enter, ⟨tcrValue, 0, 0, 0, true⟩, 0, fun _ => none⟩

private theorem reset_initial : reset.Initial := ⟨rfl, rfl, rfl, rfl, fun _ => rfl⟩

private theorem exists_waiting_sixtyFour (hn : 64 ≤ pl.nrSecondaries) :
    ∃ st rest, (smpSystem pl).Reachable st ∧ st.primary = .waiting rest ∧ st.nextIdx = 64 ∧
      (64, 64) ∉ st.marks := by
  have hstart : (smpSystem pl).Reachable (reset.primaryStep pl ⟨none, 0⟩) :=
    reach_primary (System.Reachable.init reset_initial) _
  rw [primaryStep_enter rfl] at hstart
  obtain ⟨st, rest, hst, hp, hidx, hs⟩ := reach_waiting_sixtyFour pl.cpus hstart rfl
    (show 1 ≤ 64 by decide) (show 64 < 1 + pl.nrSecondaries by omega)
  refine ⟨st, rest, hst, hp, hidx, fun hmark => ?_⟩
  obtain ⟨s, hs', hparked⟩ := ((inv_of_reachable hst).reported 64 (by decide)).mp hmark
  obtain rfl : switchedOn = s := Option.some.inj (hs.symm.trans hs')
  cases hparked

private theorem exists_passed_unmarked (hn : 64 ≤ pl.nrSecondaries)
    (hprof : pl.profile = .release) :
    ∃ st, (smpSystem pl).Reachable st ∧ st.nextIdx = 65 ∧ (64, 64) ∉ st.marks := by
  obtain ⟨st, rest, hst, hp, hidx, hmark⟩ := exists_waiting_sixtyFour hn
  have hinv := inv_of_reachable hst
  have hbit : st.online.testBit 0 = true := by
    rw [hinv.marked 0 (by decide)]
    exact ⟨0, hinv.mem_marks.mpr (hinv.zero (by rw [hp]; nofun)), rfl⟩
  have hpass : st.primaryStep pl ⟨none, 0⟩ =
      { st with nextIdx := st.nextIdx + 1, primary := .loop rest } := by
    simp only [primaryStep, hp, isOnline_ok (.inl hprof), hidx, hbit]
  have hnext := reach_primary hst ⟨none, 0⟩
  rw [hpass] at hnext
  exact ⟨_, hnext, congrArg (· + 1) hidx, hmark⟩

private theorem exists_panicked (hn : 64 ≤ pl.nrSecondaries) (hprof : pl.profile = .releaseDev) :
    ∃ st, (smpSystem pl).Reachable st ∧ st.primary = .panicked := by
  obtain ⟨st, rest, hst, hp, hidx, -⟩ := exists_waiting_sixtyFour hn
  obtain ⟨e, he⟩ : ∃ e, isOnline pl.profile st.online 64 = .error e := by
    rw [hprof]
    exact isOnline_panics (Nat.le_refl 64)
  refine ⟨_, reach_primary hst ⟨none, 0⟩, ?_⟩
  simp only [primaryStep, hp, hidx, he]

private theorem exists_not_safe (hn : 64 ≤ pl.nrSecondaries) :
    ∃ st, (smpSystem pl).Reachable st ∧ ¬ st.Safe pl := by
  cases hprof : pl.profile with
  | release =>
      obtain ⟨st, hst, hidx, hmark⟩ := exists_passed_unmarked hn hprof
      exact ⟨st, hst, fun hsafe => hmark (hsafe.passed 64 (by decide) (by omega))⟩
  | releaseDev =>
      obtain ⟨st, hst, hpanic⟩ := exists_panicked hn hprof
      exact ⟨st, hst, fun hsafe => hsafe.no_panic.1 hpanic⟩

/-- The barrier holds on every interleaving, and the word reports exactly who was marked, for
exactly the numbers of secondaries whose ids have a bit of their own. -/
theorem barrier_iff (pl : Platform) :
    ((∀ st, (smpSystem pl).Reachable st → st.Safe pl) ↔ pl.nrSecondaries ≤ 63) ∧
      (ReportsExactly pl.profile pl.nrSecondaries ↔ pl.nrSecondaries ≤ 63) := by
  refine ⟨⟨?_, ?_⟩, reportsExactly_iff pl.profile pl.nrSecondaries⟩
  · intro hall
    by_contra hmany
    have hn : 64 ≤ pl.nrSecondaries := by omega
    obtain ⟨st, hst, hnot⟩ := exists_not_safe hn
    exact hnot (hall st hst)
  · exact fun hle st hst => (inv_of_reachable hst).safe hle

/-- The primary and 64 secondaries, of the 127 that are admitted. -/
def sixtyFive (profile : Profile) : Platform :=
  ⟨profile, 0, List.range 65, 0, 0, 0, 0, Nat.le_refl 0⟩

private theorem nrSecondaries_sixtyFive (profile : Profile) :
    (sixtyFive profile).nrSecondaries = 64 := by
  cases profile <;> decide

theorem barrier_broken_sixtyFive :
    (∃ st, (smpSystem (sixtyFive .release)).Reachable st ∧ st.nextIdx = 65 ∧ (64, 64) ∉ st.marks) ∧
      ∃ st, (smpSystem (sixtyFive .releaseDev)).Reachable st ∧ st.primary = .panicked :=
  ⟨exists_passed_unmarked (nrSecondaries_sixtyFive _).ge rfl,
    exists_panicked (nrSecondaries_sixtyFive _).ge rfl⟩

end Smp

end Preon.Cpu
