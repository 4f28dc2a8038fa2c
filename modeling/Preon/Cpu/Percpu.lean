import Preon.Cpu.BringUp
import Preon.Framework.ByteMemory

/-!
# Per-CPU areas

`kernel/arch/percpu.rs`: `init` fills the table `OFFSETS`, and the copy of a per-CPU static that a
CPU uses is found by adding its offset to the address of the static in the template section.
-/

namespace Preon.Cpu

open Framework

namespace Percpu

/-- Subtraction of `usize`: checked in the development build, wrapping in the release one. -/
def usizeSub : Profile → (a b : ℕ) → Outcome ℕ
  | .release, a, b => .ok ((a + 2 ^ 64 - b) % 2 ^ 64)
  | .releaseDev, a, b => checkedSub a b

def usizeAdd : Profile → (a b : ℕ) → Outcome ℕ
  | .release, a, b => .ok ((a + b) % 2 ^ 64)
  | .releaseDev, a, b => checkedAdd 64 a b

/-- The table `OFFSETS` after `percpu::init`. -/
def init (profile : Profile) (start stop areas : ℕ) : Outcome (List ℕ) := do
  let size ← usizeSub profile stop start
  assertMsg (size ≤ percpuMax) "per-CPU template exceeds area size"
  (List.range maxCpus).mapM fun cpu => usizeSub profile (areas + cpu * percpuMax) start

def offsetOfCpu (offsets : List ℕ) (cpu : ℕ) : Outcome ℕ := index offsets cpu

/-- `per_cpu_ptr!`. -/
def perCpuPtr (profile : Profile) (offsets : List ℕ) (cpu var : ℕ) : Outcome ℕ := do
  let offset ← offsetOfCpu offsets cpu
  usizeAdd profile offset var

/-- `this_cpu_ptr!`, with the offset that the CPU has in `TPIDR_EL1`. -/
def thisCpuPtr (profile : Profile) (tpidr var : ℕ) : Outcome ℕ := usizeAdd profile tpidr var

variable {pl : Platform} {stop : ℕ} {offsets : List ℕ}

theorem init_platform (hle : pl.percpuStart ≤ stop) (hfits : stop - pl.percpuStart ≤ percpuMax) :
    init .releaseDev pl.percpuStart stop pl.areas =
      .ok ((List.range maxCpus).map pl.offsetOfCpu) := by
  rw [init, usizeSub, checkedSub_ok hle, ok_bind, assertMsg_true hfits, ok_bind]
  exact mapM_ok fun cpu _ => checkedSub_ok (pl.percpu_le.trans (Nat.le_add_right _ _))

private theorem init_platform_eq (h : init .releaseDev pl.percpuStart stop pl.areas = .ok offsets) :
    stop - pl.percpuStart ≤ percpuMax ∧ offsets = (List.range maxCpus).map pl.offsetOfCpu := by
  obtain ⟨size, hsize, hrest⟩ := bind_eq_ok.mp h
  obtain ⟨hle, rfl⟩ := checkedSub_eq hsize
  obtain ⟨_, hassert, -⟩ := bind_eq_ok.mp hrest
  have hfits := assertMsg_eq hassert
  exact ⟨hfits, Except.ok.inj (h.symm.trans (init_platform hle hfits))⟩

theorem init_platform_getElem (h : init .releaseDev pl.percpuStart stop pl.areas = .ok offsets)
    {cpu : ℕ}
    (hcpu : cpu < maxCpus) : offsets[cpu]? = some (pl.offsetOfCpu cpu) := by
  rw [(init_platform_eq h).2, List.getElem?_map, List.getElem?_range hcpu]
  rfl

theorem thisCpuPtr_apart (h : init .releaseDev pl.percpuStart stop pl.areas = .ok offsets)
    {var size c d p q : ℕ} (hvar : pl.percpuStart ≤ var) (hsize : var + size ≤ stop) (hne : c ≠ d)
    (hp : thisCpuPtr .releaseDev (pl.offsetOfCpu c) var = .ok p)
    (hq : thisCpuPtr .releaseDev (pl.offsetOfCpu d) var = .ok q) :
    Clear p size q size := by
  have hfits := (init_platform_eq h).1
  have hle := pl.percpu_le
  rw [checkedAdd_eq hp, checkedAdd_eq hq]
  simp only [Clear, Platform.offsetOfCpu, percpuMax] at hfits ⊢
  omega

end Percpu

end Preon.Cpu
