import Preon.Cpu.Percpu

/-!
# Where per-CPU pointers point

A per-CPU pointer is the address of a static in the template plus the difference of two link-time
addresses.  It lands in the CPU's own area for every placement of the template and of the array
`AREAS`, and it is as aligned as the array is.  The array's element is a struct of bytes, so its
type asks for no alignment at all.
-/

namespace Preon.Cpu.Percpu

open Framework

/-- The alignment of `Area`, a `repr(C)` struct of one byte array. -/
def areaAlign : ℕ := 1

/-- The template section and the array `AREAS` as a linker may place them. -/
structure Placement where
  start : ℕ
  stop : ℕ
  areas : ℕ
  start_aligned : start % 4096 = 0
  start_le : start ≤ stop
  size_le : stop - start ≤ percpuMax
  stop_lt : stop < 2 ^ 64
  areas_aligned : areas % areaAlign = 0
  areas_lt : areas + maxCpus * percpuMax < 2 ^ 64
  apart : Clear start (stop - start) areas (maxCpus * percpuMax)

/-- The address of `AREAS[cpu]`. -/
def Placement.area (place : Placement) (cpu : ℕ) : ℕ := place.areas + cpu * percpuMax

/-- A static of the template at its natural alignment, a power of two up to the page size. -/
structure Static (place : Placement) where
  addr : ℕ
  size : ℕ
  align : ℕ
  start_le : place.start ≤ addr
  le_stop : addr + size ≤ place.stop
  align_dvd : align ∣ 4096
  aligned : align ∣ addr

/-- `percpu::init` on a placement. -/
def Placement.init (place : Placement) (profile : Profile) : Outcome (List ℕ) :=
  Percpu.init profile place.start place.stop place.areas

/-! ## The address -/

variable {profile : Profile} {place : Placement} {offsets : List ℕ} {cpu : ℕ}

private theorem Placement.area_lt (place : Placement) (h : cpu < maxCpus) :
    place.area cpu + percpuMax < 2 ^ 64 := by
  have hlt := place.areas_lt
  simp only [Placement.area, maxCpus, percpuMax] at h hlt ⊢
  omega

/-- The offset of a CPU: the difference of two addresses, as a 64-bit word. -/
def Placement.offset (place : Placement) (cpu : ℕ) : ℕ :=
  (place.area cpu + 2 ^ 64 - place.start) % 2 ^ 64

private theorem usizeSub_ok {a b : ℕ} (ha : a < 2 ^ 64) (h : profile = .release ∨ b ≤ a) :
    usizeSub profile a b = .ok ((a + 2 ^ 64 - b) % 2 ^ 64) := by
  cases profile with
  | release => rfl
  | releaseDev =>
      have hle : b ≤ a := by simpa using h
      rw [usizeSub, checkedSub_ok hle]
      congr 1
      omega

private theorem init_ok (h : profile = .release ∨ place.start ≤ place.areas) :
    place.init profile = .ok ((List.range maxCpus).map place.offset) := by
  have hle := place.start_le
  have hsize := place.size_le
  have hstop := place.stop_lt
  have htemplate : (place.stop + 2 ^ 64 - place.start) % 2 ^ 64 ≤ percpuMax := by
    simp only [percpuMax] at hsize ⊢
    omega
  rw [Placement.init, init, usizeSub_ok hstop (.inr hle), ok_bind,
    assertMsg_true htemplate, ok_bind]
  apply mapM_ok
  intro cpu hcpu
  have hlt : place.areas + cpu * percpuMax + percpuMax < 2 ^ 64 :=
    place.area_lt (List.mem_range.mp hcpu)
  apply usizeSub_ok (by omega)
  exact h.imp_right fun hle => hle.trans (Nat.le_add_right _ _)

/-- `init` panics only in the development build, on an array below the template. -/
theorem init_returns_iff :
    (∃ offsets, place.init profile = .ok offsets) ↔
      profile = .release ∨ place.start ≤ place.areas := by
  constructor
  · intro h
    obtain ⟨offsets, hinit⟩ := h
    cases profile with
    | release => exact .inl rfl
    | releaseDev =>
        right
        by_contra hlt
        obtain ⟨size, -, hrest⟩ := bind_eq_ok.mp hinit
        obtain ⟨-, -, hmap⟩ := bind_eq_ok.mp hrest
        have hfirst : usizeSub .releaseDev (place.areas + 0 * percpuMax) place.start =
            .error .arithmeticOverflow := by
          rw [usizeSub, Nat.zero_mul, Nat.add_zero, checkedSub, if_neg hlt]
        rw [show List.range maxCpus = 0 :: List.range' 1 127 by decide, List.mapM_cons, hfirst,
          error_bind] at hmap
        cases hmap
  · intro h
    exact ⟨_, init_ok h⟩

private theorem init_eq (h : place.init profile = .ok offsets) :
    offsets = (List.range maxCpus).map place.offset :=
  Except.ok.inj (h.symm.trans (init_ok (init_returns_iff.mp ⟨offsets, h⟩)))

private theorem offsetOfCpu_ok (h : place.init profile = .ok offsets) (hcpu : cpu < maxCpus) :
    offsetOfCpu offsets cpu = .ok (place.offset cpu) := by
  have hlen : cpu < ((List.range maxCpus).map place.offset).length := by
    rw [List.length_map, List.length_range]
    exact hcpu
  rw [init_eq h, offsetOfCpu, index_ok hlen 0, List.getD_eq_getElem _ _ hlen, List.getElem_map,
    List.getElem_range]

private theorem perCpuPtr_ok (h : place.init profile = .ok offsets) (var : Static place)
    (hcpu : cpu < maxCpus) :
    perCpuPtr profile offsets cpu var.addr = .ok (place.area cpu + (var.addr - place.start)) := by
  have hlt := place.area_lt hcpu
  have hstart := var.start_le
  have hstop := var.le_stop
  have hsize := place.size_le
  have hend := place.stop_lt
  have hmod : (place.offset cpu + var.addr) % 2 ^ 64 =
      place.area cpu + (var.addr - place.start) := by
    simp only [Placement.offset, percpuMax] at hlt hsize ⊢
    omega
  rw [perCpuPtr, offsetOfCpu_ok h hcpu, ok_bind]
  cases profile with
  | release => rw [usizeAdd, hmod]
  | releaseDev =>
      have hle : place.start ≤ place.areas := by simpa using init_returns_iff.mp ⟨offsets, h⟩
      have hsum : place.offset cpu + var.addr < 2 ^ 64 := by
        simp only [Placement.offset, Placement.area, percpuMax] at hlt hsize ⊢
        omega
      rw [usizeAdd, checkedAdd_ok hsum, ← hmod, Nat.mod_eq_of_lt hsum]

/-! ## Isolation and alignment -/

/-- What is expected of the copies of one static that two CPUs use. -/
structure WellPlaced (profile : Profile) (place : Placement) (offsets : List ℕ) (var : Static place)
    (c d : ℕ) : Prop where
  returns : ∃ p, perCpuPtr profile offsets c var.addr = .ok p
  inside : ∀ p, perCpuPtr profile offsets c var.addr = .ok p →
    place.area c ≤ p ∧ p + var.size ≤ place.area c + percpuMax
  apart : c ≠ d → ∀ p q, perCpuPtr profile offsets c var.addr = .ok p →
    perCpuPtr profile offsets d var.addr = .ok q → Clear p var.size q var.size
  current : ∀ offset, offsetOfCpu offsets c = .ok offset →
    thisCpuPtr profile offset var.addr = perCpuPtr profile offsets c var.addr
  noWrap : place.stop ≤ place.areas → ∀ offset, offsetOfCpu offsets c = .ok offset →
    offset + var.addr < 2 ^ 64
  aligned : ∀ p, perCpuPtr profile offsets c var.addr = .ok p → var.align ∣ p

/-- The areas are whole pages and the template starts on one, so only the array's own address is
left to decide the alignment. -/
theorem align_dvd_iff (place : Placement) (var : Static place) (cpu : ℕ) :
    var.align ∣ place.area cpu + (var.addr - place.start) ↔ var.align ∣ place.areas := by
  have hstart : var.align ∣ place.start :=
    var.align_dvd.trans (Nat.dvd_of_mod_eq_zero place.start_aligned)
  have hslot : var.align ∣ cpu * percpuMax := var.align_dvd.trans (Nat.dvd_mul_left _ _)
  rw [← Nat.dvd_add_iff_left (Nat.dvd_sub var.aligned hstart), Placement.area,
    ← Nat.dvd_add_iff_left hslot]

/-- `percpu::init` returns unless the development build finds the array below the template.  After
it, for every static and every two CPUs, the copies are as expected iff the array has the static's
alignment. -/
theorem wellPlaced_iff (profile : Profile) (place : Placement) :
    ((∃ offsets, place.init profile = .ok offsets) ↔
      profile = .release ∨ place.start ≤ place.areas) ∧
    ∀ offsets, place.init profile = .ok offsets → ∀ (var : Static place) (c d : ℕ), c < maxCpus →
      d < maxCpus → (WellPlaced profile place offsets var c d ↔ var.align ∣ place.areas) := by
  refine ⟨init_returns_iff, ?_⟩
  intro offsets h var c d hc hd
  have hstart := var.start_le
  have hstop := var.le_stop
  have hsize := place.size_le
  constructor
  · intro hwell
    rw [← align_dvd_iff place var c]
    exact hwell.aligned _ (perCpuPtr_ok h var hc)
  · intro hal
    constructor
    · exact ⟨_, perCpuPtr_ok h var hc⟩
    · intro p hp
      obtain rfl := Except.ok.inj ((perCpuPtr_ok h var hc).symm.trans hp)
      omega
    · intro hne p q hp hq
      obtain rfl := Except.ok.inj ((perCpuPtr_ok h var hc).symm.trans hp)
      obtain rfl := Except.ok.inj ((perCpuPtr_ok h var hd).symm.trans hq)
      simp only [Clear, Placement.area, percpuMax] at hsize ⊢
      omega
    · intro offset hoffset
      rw [perCpuPtr, hoffset, ok_bind, thisCpuPtr]
    · intro habove offset hoffset
      obtain rfl := Except.ok.inj ((offsetOfCpu_ok h hc).symm.trans hoffset)
      have hlt := place.area_lt hc
      simp only [Placement.offset, Placement.area, percpuMax] at hlt hsize ⊢
      omega
    · intro p hp
      obtain rfl := Except.ok.inj ((perCpuPtr_ok h var hc).symm.trans hp)
      exact (align_dvd_iff place var c).mpr hal

/-- The template below the image, and the array on a page of it. -/
def pagePlacement : Placement where
  start := 0x4008D000
  stop := 0x4008E000
  areas := 0xFFFFFFFF80110000
  start_aligned := by decide
  start_le := by decide
  size_le := by decide
  stop_lt := by decide
  areas_aligned := by decide
  areas_lt := by decide
  apart := .inl (by decide)

/-- The control block of a CPU, the first static of the template. -/
def pageCpuData : Static pagePlacement where
  addr := 0x4008D000
  size := 128
  align := 128
  start_le := by decide
  le_stop := by decide
  align_dvd := by decide
  aligned := by decide

theorem wellPlaced_page :
    ∃ offsets, pagePlacement.init .releaseDev = .ok offsets ∧
      WellPlaced .releaseDev pagePlacement offsets pageCpuData 0 1 := by
  have hplaced := wellPlaced_iff .releaseDev pagePlacement
  obtain ⟨offsets, hinit⟩ := hplaced.1.mpr (.inr (by decide))
  exact ⟨offsets, hinit,
    (hplaced.2 offsets hinit pageCpuData 0 1 (by decide) (by decide)).mpr (by decide)⟩

/-- The same image with one byte before the array. -/
def oddPlacement : Placement where
  start := 0x4008D000
  stop := 0x4008E000
  areas := 0xFFFFFFFF80110001
  start_aligned := by decide
  start_le := by decide
  size_le := by decide
  stop_lt := by decide
  areas_aligned := by decide
  areas_lt := by decide
  apart := .inl (by decide)

def oddCpuData : Static oddPlacement where
  addr := 0x4008D000
  size := 128
  align := 128
  start_le := by decide
  le_stop := by decide
  align_dvd := by decide
  aligned := by decide

/-- The control block of the first CPU is then at an odd address. -/
theorem not_wellPlaced_odd :
    ∃ offsets, oddPlacement.init .releaseDev = .ok offsets ∧
      perCpuPtr .releaseDev offsets 0 0x4008D000 = .ok 0xFFFFFFFF80110001 ∧
      ¬ WellPlaced .releaseDev oddPlacement offsets oddCpuData 0 1 := by
  have hinit : oddPlacement.init .releaseDev = _ := init_ok (.inr (by decide))
  have hptr := perCpuPtr_ok hinit oddCpuData (by decide : 0 < maxCpus)
  refine ⟨_, hinit, hptr, ?_⟩
  intro hwell
  exact absurd (hwell.aligned _ hptr) (by decide)

end Preon.Cpu.Percpu
