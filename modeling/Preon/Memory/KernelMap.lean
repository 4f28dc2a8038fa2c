import Mathlib.Data.List.Nodup
import Preon.Memory.Translation

/-!
# The runtime kernel map

A translation of `kernel/mm/kernel_map.rs` and of the bootstrap pool in `kernel/mm/frame.rs`, and
what the resulting tables translate: RAM in the linear window, the five sections of the image, the
UART page, and nothing else.
-/

namespace Preon.Memory

open Framework TableMemory

/-! ## The model -/

def textAttrs : LeafAttrs := ⟨.normal, .kernelReadOnly, .innerShareable, .kernel⟩
def rodataAttrs : LeafAttrs := ⟨.normal, .kernelReadOnly, .innerShareable, .none⟩
def dataAttrs : LeafAttrs := ⟨.normal, .kernelReadWrite, .innerShareable, .none⟩
def bssAttrs : LeafAttrs := ⟨.normal, .kernelReadWrite, .innerShareable, .none⟩
def stackAttrs : LeafAttrs := ⟨.normal, .kernelReadWrite, .innerShareable, .none⟩
def deviceAttrs : LeafAttrs := ⟨.deviceNGNRE, .kernelReadWrite, .nonShareable, .none⟩
def linearRam : LeafAttrs := ⟨.normal, .kernelReadWrite, .innerShareable, .none⟩

def uartPa : ℕ := 0x09000000

def block1GB : ℕ := 1 <<< 30
def block2MB : ℕ := 2 <<< 20

/-- A section between two linker symbols. -/
structure ImageSection where
  start : ℕ
  stop : ℕ
  attrs : LeafAttrs

/-- The linker symbols that bound the sections. -/
structure Image where
  textStart : ℕ
  textEnd : ℕ
  rodataStart : ℕ
  rodataEnd : ℕ
  dataStart : ℕ
  dataEnd : ℕ
  bssStart : ℕ
  bssEnd : ℕ
  stackBottom : ℕ
  stackTop : ℕ

def Image.sections (image : Image) : List ImageSection :=
  [⟨image.textStart, image.textEnd, textAttrs⟩, ⟨image.rodataStart, image.rodataEnd, rodataAttrs⟩,
    ⟨image.dataStart, image.dataEnd, dataAttrs⟩, ⟨image.bssStart, image.bssEnd, bssAttrs⟩,
    ⟨image.stackBottom, image.stackTop, stackAttrs⟩]

def hex (n : ℕ) : String := String.ofList (Nat.toDigits 16 n)

def blockFor (pa remaining : ℕ) : Outcome (ℕ × Level) :=
  if pa % block1GB = 0 ∧ block1GB ≤ remaining then .ok (block1GB, .l1)
  else if pa % block2MB = 0 ∧ block2MB ≤ remaining then .ok (block2MB, .l2)
  else .error (.message ("kernel_map: unaligned region tail (pa=0x" ++ hex pa ++ ", remaining=0x" ++
    hex remaining ++ ")"))

theorem blockFor_spec {pa remaining size : ℕ} {level : Level}
    (h : blockFor pa remaining = .ok (size, level)) :
    level.below < 3 ∧ size = leafSize level.below ∧ size ∣ pa ∧ size ≤ remaining ∧ 0 < size := by
  rw [blockFor] at h
  split_ifs at h with h1 h2
  · obtain ⟨rfl, rfl⟩ := Prod.mk.inj (Except.ok.inj h)
    exact ⟨by decide, by decide, Nat.dvd_of_mod_eq_zero h1.1, h1.2, by decide⟩
  · obtain ⟨rfl, rfl⟩ := Prod.mk.inj (Except.ok.inj h)
    exact ⟨by decide, by decide, Nat.dvd_of_mod_eq_zero h2.1, h2.2, by decide⟩

/-- The loop of `map_region`.  A chosen block fits, so the sum stays below the end. -/
def mapBlocks (root stop : ℕ) (attrs : LeafAttrs) (pa : ℕ) (st : TableMemory) :
    Outcome TableMemory :=
  if pa < stop then
    match _hblock : blockFor pa (stop - pa) with
    | .error e => .error e
    | .ok (size, level) => do
        let va ← paToLinearVa pa
        let st ← st.map root va pa level attrs
        mapBlocks root stop attrs (pa + size) st
  else .ok st
termination_by stop - pa
decreasing_by
  have := blockFor_spec _hblock
  omega

def mapRegion (root : ℕ) (attrs : LeafAttrs) (st : TableMemory) (region : ℕ × ℕ) :
    Outcome TableMemory := do
  let stop ← checkedAdd 64 region.1 region.2
  mapBlocks root stop attrs region.1 st

/-- The loop of `map_section`. -/
def mapPages (root stop : ℕ) (attrs : LeafAttrs) (va : ℕ) (st : TableMemory) :
    Outcome TableMemory :=
  if va < stop then do
    let pa ← imageVaToPa va
    let st ← st.map root va pa .l3 attrs
    if va + pageSize < 2 ^ 64 then mapPages root stop attrs (va + pageSize) st
    else .error .arithmeticOverflow
  else .ok st
termination_by stop - va
decreasing_by
  simp only [pageSize]
  omega

def mapSection (root : ℕ) (st : TableMemory) (part : ImageSection) : Outcome TableMemory :=
  mapPages root part.stop part.attrs part.start st

def buildLinear (root : ℕ) (regions : List (ℕ × ℕ)) (st : TableMemory) : Outcome TableMemory :=
  regions.foldlM (mapRegion root linearRam) st

def buildImage (root : ℕ) (image : Image) (st : TableMemory) : Outcome TableMemory :=
  image.sections.foldlM (mapSection root) st

def buildDevice (root : ℕ) (st : TableMemory) : Outcome TableMemory := do
  let deviceVa ← paToDeviceVa uartPa
  st.map root deviceVa uartPa .l3 deviceAttrs

/-- `regions` are the bases and sizes that `for_each_region` passes on. -/
def build (regions : List (ℕ × ℕ)) (image : Image) (st : TableMemory) :
    Outcome (ℕ × TableMemory) := do
  let (rootPa, st) ← st.allocPage
  let root ← fromPhys rootPa
  let st ← buildLinear root regions st
  let st ← buildImage root image st
  let st ← buildDevice root st
  return (rootPa, st)

def poolPages : ℕ := 32

/-- What `bump_alloc_page` returns when `NEXT` is `idx`. -/
def bumpAllocPage (poolVa idx : ℕ) : Outcome ℕ := do
  assertMsg (idx < poolPages) "bootstrap frame allocator exhausted (32 pages)"
  let basePa ← imageVaToPa poolVa
  let offset ← checkedMul 64 idx pageSize
  checkedAdd 64 basePa offset

/-! ## The loops -/

variable {st st' : TableMemory} {root : ℕ} {meaning : ℕ → Option Mapping} {attrs : LeafAttrs}

theorem mapBlocks_ok {stop pa : ℕ} (h : mapBlocks root stop attrs pa st = .ok st')
    (hlt : pa < stop) :
    ∃ size level va st₁, blockFor pa (stop - pa) = .ok (size, level) ∧ paToLinearVa pa = .ok va ∧
      st.map root va pa level attrs = .ok st₁ ∧
        mapBlocks root stop attrs (pa + size) st₁ = .ok st' := by
  rw [mapBlocks, if_pos hlt] at h
  split at h
  · cases h
  · next size level hblock =>
      obtain ⟨va, hva, h⟩ := bind_eq_ok.mp h
      obtain ⟨st₁, hmap, h⟩ := bind_eq_ok.mp h
      exact ⟨size, level, va, st₁, hblock, hva, hmap, h⟩

theorem mapBlocks_step {stop pa size : ℕ} {level : Level}
    (hblock : blockFor pa (stop - pa) = .ok (size, level)) (hpa : pa < 2 ^ 47) (st : TableMemory) :
    mapBlocks root stop attrs pa st = (do
      let st ← st.map root (pa + kernelLinearBase) pa level attrs
      mapBlocks root stop attrs (pa + size) st) := by
  have hspec := blockFor_spec hblock
  rw [mapBlocks, if_pos (by omega)]
  split
  · next e he => cases he.symm.trans hblock
  · next size' level' h =>
      obtain ⟨rfl, rfl⟩ := Prod.mk.inj (Except.ok.inj (h.symm.trans hblock))
      rw [paToLinearVa_ok hpa, ok_bind]

theorem mapBlocks_linear {stop pa : ℕ} (h : mapBlocks root stop attrs pa st = .ok st')
    (hlt : pa < stop)
    (hstop : stop ≤ 2 ^ 46) : ∃ (level : Level) (st₁ : TableMemory),
      blockFor pa (stop - pa) = .ok (leafSize level.below, level) ∧
      st.map root (pa + kernelLinearBase) pa level attrs = .ok st₁ ∧
      mapBlocks root stop attrs (pa + leafSize level.below) st₁ = .ok st' := by
  obtain ⟨size, level, va, st₁, hblock, hva, hmap, hrest⟩ := mapBlocks_ok h hlt
  obtain ⟨-, rfl, -⟩ := blockFor_spec hblock
  have hpa : pa < 2 ^ 47 := by omega
  obtain rfl := Except.ok.inj ((paToLinearVa_ok hpa).symm.trans hva)
  exact ⟨level, st₁, hblock, hmap, hrest⟩

theorem linear_upperHalf {pa : ℕ} (h : pa < 2 ^ 47) : UpperHalf (pa + kernelLinearBase) := by
  simp only [UpperHalf, kernelLinearBase]
  omega

theorem leafSize_dvd_linear {pa n : ℕ} (hn : n < 3) (h : leafSize n ∣ pa) :
    leafSize n ∣ pa + kernelLinearBase := by
  have hbase : kernelLinearBase = leafSize n * (131071 * 2 ^ (35 - 9 * n)) := by
    have hcases : n = 0 ∨ n = 1 ∨ n = 2 := by omega
    rcases hcases with rfl | rfl | rfl <;> decide
  exact Nat.dvd_add h ⟨_, hbase⟩

private theorem TableMemory.Translates.mapBlocks {stop pa : ℕ} (h : st.Translates root meaning)
    (hstop : stop ≤ 2 ^ 46)
    (hle : pa ≤ stop) (hok : mapBlocks root stop attrs pa st = .ok st') :
    st'.Translates root
      (window (pa + kernelLinearBase) (stop + kernelLinearBase) pa attrs.bits meaning) := by
  induction hrem : stop - pa using Nat.strong_induction_on generalizing pa st meaning with
  | _ rem ih =>
      by_cases hlt : pa < stop
      · obtain ⟨level, st₁, hblock, hmap, hrest⟩ := mapBlocks_linear hok hlt hstop
        obtain ⟨hlevel, -, hdvd, hfits, hpos⟩ := blockFor_spec hblock
        have hmapped := h.map (linear_upperHalf (by omega)) (leafSize_dvd_linear hlevel hdvd) hdvd
          (by omega) hmap
        have hdone :=
          ih (stop - (pa + leafSize level.below)) (by omega) hmapped (by omega) hrest rfl
        rwa [Nat.add_right_comm, window_append _ (by omega)] at hdone
      · rw [Preon.Memory.mapBlocks, if_neg hlt] at hok
        obtain rfl := Except.ok.inj hok
        rwa [window_empty _ (by omega)]

/-- A region of no bytes maps nothing. -/
theorem TableMemory.Translates.mapRegion {region : ℕ × ℕ} (h : st.Translates root meaning)
    (hend : region.1 + region.2 ≤ 2 ^ 46) (hok : mapRegion root attrs st region = .ok st') :
    st'.Translates root (window (region.1 + kernelLinearBase)
      (region.1 + region.2 + kernelLinearBase) region.1 attrs.bits meaning) := by
  obtain ⟨stop, hstop, hok⟩ := bind_eq_ok.mp hok
  obtain rfl := checkedAdd_eq hstop
  exact h.mapBlocks hend (Nat.le_add_right ..) hok

private theorem mapPages_ok {stop va : ℕ} (h : mapPages root stop attrs va st = .ok st')
    (hlt : va < stop) :
    ∃ pa st₁, imageVaToPa va = .ok pa ∧ st.map root va pa .l3 attrs = .ok st₁ ∧
      mapPages root stop attrs (va + pageSize) st₁ = .ok st' := by
  rw [mapPages, if_pos hlt] at h
  obtain ⟨pa, hpa, h⟩ := bind_eq_ok.mp h
  obtain ⟨st₁, hmap, h⟩ := bind_eq_ok.mp h
  split_ifs at h
  exact ⟨pa, st₁, hpa, hmap, h⟩

/-- The physical address of an image address. -/
def imagePa (va : ℕ) : ℕ := va - kernelImageBase + imagePaBase

theorem image_upperHalf {va : ℕ} (h : kernelImageBase ≤ va) (hlt : va < 2 ^ 64) : UpperHalf va := by
  simp only [UpperHalf, kernelImageBase] at h ⊢
  omega

private theorem TableMemory.Translates.mapPages {stop va : ℕ} (h : st.Translates root meaning)
    (hbase : kernelImageBase ≤ va) (hva : pageSize ∣ va) (hstop : pageSize ∣ stop)
    (hend : stop ≤ 2 ^ 64) (hok : mapPages root stop attrs va st = .ok st') :
    st'.Translates root (window va stop (imagePa va) attrs.bits meaning) := by
  induction hrem : stop - va using Nat.strong_induction_on generalizing va st meaning with
  | _ rem ih =>
      by_cases hlt : va < stop
      · obtain ⟨pa, st₁, hpa, hmap, hrest⟩ := mapPages_ok hok hlt
        obtain rfl : imagePa va = pa :=
          Except.ok.inj ((imageVaToPa_ok hbase (by omega)).symm.trans hpa)
        have hnext : va + pageSize ≤ stop := by
          obtain ⟨k, rfl⟩ := hva
          obtain ⟨q, rfl⟩ := hstop
          have : k < q := Nat.lt_of_mul_lt_mul_left hlt
          calc pageSize * k + pageSize = pageSize * (k + 1) := by rw [Nat.mul_succ]
            _ ≤ pageSize * q := Nat.mul_le_mul_left _ this
        have hpage : pageSize ∣ imagePa va :=
          Nat.dvd_add (Nat.dvd_sub hva (by decide)) (by decide)
        have hpalt : imagePa va < 2 ^ 48 := by
          simp only [imagePa, imagePaBase, kernelImageBase]
          omega
        have hsize : leafSize Level.l3.below = pageSize := rfl
        have hmapped := h.map (image_upperHalf hbase (by omega)) (hsize ▸ hva) (hsize ▸ hpage) hpalt
          hmap
        rw [hsize] at hmapped
        have hsucc : imagePa (va + pageSize) = imagePa va + pageSize := by
          simp only [imagePa]
          omega
        have hdone := ih (stop - (va + pageSize)) (by simp only [pageSize] at *; omega) hmapped
          (by omega) (Nat.dvd_add hva (dvd_refl _)) hrest rfl
        rwa [hsucc, window_append _ hnext] at hdone
      · rw [Preon.Memory.mapPages, if_neg hlt] at hok
        obtain rfl := Except.ok.inj hok
        rwa [window_empty _ (by omega)]

theorem build_eq_ok {regions : List (ℕ × ℕ)} {image : Image}
    (h : build regions image st = .ok (root, st')) : ∃ st₁ st₂ st₃, st.allocPage = .ok (root, st₁) ∧
      buildLinear root regions st₁ = .ok st₂ ∧ buildImage root image st₂ = .ok st₃ ∧
      buildDevice root st₃ = .ok st' := by
  obtain ⟨⟨rootPa, st₁⟩, halloc, h⟩ := bind_eq_ok.mp h
  obtain ⟨root', hphys, h⟩ := bind_eq_ok.mp h
  obtain ⟨st₂, hlinear, h⟩ := bind_eq_ok.mp h
  obtain ⟨st₃, hsections, h⟩ := bind_eq_ok.mp h
  obtain ⟨st₄, hdevice, h⟩ := bind_eq_ok.mp h
  obtain ⟨rfl, rfl⟩ := Prod.mk.inj (Except.ok.inj h)
  obtain rfl := fromPhys_eq hphys
  exact ⟨st₁, st₂, st₃, halloc, hlinear, hsections, hdevice⟩

/-! ## All that the loops do to the tables they do through `map` -/

section Preserves

variable {P : TableMemory → Prop} {stop : ℕ}
  (hmap : ∀ (st st' : TableMemory) (va pa : ℕ) (target : Level)
  (attrs : LeafAttrs), P st → st.map root va pa target attrs = .ok st' → P st')

include hmap

private theorem mapBlocks_preserves {pa : ℕ} (h : P st)
    (hok : mapBlocks root stop attrs pa st = .ok st') :
    P st' := by
  induction hrem : stop - pa using Nat.strong_induction_on generalizing pa st with
  | _ rem ih =>
      by_cases hlt : pa < stop
      · obtain ⟨size, level, va, st₁, hblock, -, hst₁, hrest⟩ := mapBlocks_ok hok hlt
        have hspec := blockFor_spec hblock
        exact ih (stop - (pa + size)) (by omega) (hmap _ _ _ _ _ _ h hst₁) hrest rfl
      · rw [mapBlocks, if_neg hlt] at hok
        obtain rfl := Except.ok.inj hok
        exact h

private theorem mapPages_preserves {va : ℕ} (h : P st)
    (hok : mapPages root stop attrs va st = .ok st') :
    P st' := by
  induction hrem : stop - va using Nat.strong_induction_on generalizing va st with
  | _ rem ih =>
      by_cases hlt : va < stop
      · obtain ⟨pa, st₁, -, hst₁, hrest⟩ := mapPages_ok hok hlt
        exact ih (stop - (va + pageSize)) (by simp only [pageSize]; omega) (hmap _ _ _ _ _ _ h hst₁)
          hrest rfl
      · rw [mapPages, if_neg hlt] at hok
        obtain rfl := Except.ok.inj hok
        exact h

theorem build_preserves {regions : List (ℕ × ℕ)} {image : Image}
    (hroot : ∀ st₁, st.allocPage = .ok (root, st₁) → P st₁)
    (hbuild : build regions image st = .ok (root, st')) : P st' := by
  obtain ⟨st₁, st₂, st₃, halloc, hlinear, hsections, hdevice⟩ := build_eq_ok hbuild
  have h₂ : P st₂ := by
    refine foldlM_invariant (fun region _ st st' h hok => ?_) (hroot st₁ halloc) hlinear
    obtain ⟨stop, -, hok⟩ := bind_eq_ok.mp hok
    exact mapBlocks_preserves hmap h hok
  have h₃ : P st₃ :=
    foldlM_invariant (fun part _ _ _ h hok => mapPages_preserves hmap h hok) h₂ hsections
  obtain ⟨va, -, hdevice⟩ := bind_eq_ok.mp hdevice
  exact hmap _ _ _ _ _ _ h₃ hdevice

end Preserves

/-! ## Areas -/

/-- Consecutive addresses with consecutive translations. -/
structure Area where
  lo : ℕ
  hi : ℕ
  pa : ℕ
  attrs : ℕ

namespace Area

def Has (a : Area) (va : ℕ) : Prop := a.lo ≤ va ∧ va < a.hi

def mapping (a : Area) (va : ℕ) : Mapping := ⟨a.pa + (va - a.lo), a.attrs⟩

def cover (before : ℕ → Option Mapping) (a : Area) : ℕ → Option Mapping :=
  window a.lo a.hi a.pa a.attrs before

def Apart (a b : Area) : Prop := ∀ va, a.Has va → ¬ b.Has va

theorem cover_of_has {a : Area} {va : ℕ} (h : a.Has va) (before : ℕ → Option Mapping) :
    cover before a va = some (a.mapping va) := if_pos h

private theorem cover_of_not {a : Area} {va : ℕ} (h : ¬ a.Has va) (before : ℕ → Option Mapping) :
    cover before a va = before va := if_neg h

end Area

/-- The areas laid over an empty map, one after the other. -/
def paint (areas : List Area) : ℕ → Option Mapping := areas.foldl Area.cover fun _ => none

theorem foldl_cover_of_not {areas : List Area} {va : ℕ} (h : ∀ a ∈ areas, ¬ a.Has va)
    (before : ℕ → Option Mapping) : areas.foldl Area.cover before va = before va := by
  induction areas generalizing before with
  | nil => rfl
  | cons a areas ih =>
      rw [List.forall_mem_cons] at h
      rw [List.foldl_cons, ih h.2, Area.cover_of_not h.1]

private theorem foldl_cover_of_has {areas : List Area}
    (hapart : areas.Pairwise Area.Apart) {a : Area}
    (ha : a ∈ areas) {va : ℕ} (h : a.Has va) (before : ℕ → Option Mapping) :
    areas.foldl Area.cover before va = some (a.mapping va) := by
  induction areas generalizing before with
  | nil => cases ha
  | cons b areas ih =>
      rw [List.pairwise_cons] at hapart
      rw [List.foldl_cons]
      cases ha with
      | head => rw [foldl_cover_of_not fun c hc => hapart.1 c hc va h, Area.cover_of_has h]
      | tail _ ha => exact ih hapart.2 ha _

private theorem foldl_cover_some {areas : List Area} {before : ℕ → Option Mapping}
    {va : ℕ} {m : Mapping}
    (h : areas.foldl Area.cover before va = some m) :
    before va = some m ∨ ∃ a ∈ areas, m = a.mapping va := by
  induction areas generalizing before with
  | nil => exact .inl h
  | cons a areas ih =>
      rcases ih h with hover | ⟨b, hb, hm⟩
      · by_cases hin : a.Has va
        · rw [Area.cover_of_has hin] at hover
          exact .inr ⟨a, List.mem_cons_self, (Option.some.inj hover).symm⟩
        · rw [Area.cover_of_not hin] at hover
          exact .inl hover
      · exact .inr ⟨b, List.mem_cons_of_mem _ hb, hm⟩

private theorem TableMemory.Translates.foldlM {α : Type} {f : TableMemory → α → Outcome TableMemory}
    {area : α → Area} {xs : List α} (h : st.Translates root meaning)
    (hstep : ∀ x ∈ xs, ∀ st st' meaning, TableMemory.Translates st root meaning →
      f st x = .ok st' → TableMemory.Translates st' root (Area.cover meaning (area x)))
    (hok : xs.foldlM f st = .ok st') :
    st'.Translates root ((xs.map area).foldl Area.cover meaning) := by
  induction xs generalizing st meaning with
  | nil =>
      obtain rfl := Except.ok.inj hok
      exact h
  | cons x xs ih =>
      rw [List.forall_mem_cons] at hstep
      rw [List.foldlM_cons] at hok
      obtain ⟨st₁, hx, hok⟩ := bind_eq_ok.mp hok
      exact ih (hstep.1 st st₁ meaning h hx) hstep.2 hok

/-! ## The whole map -/

def regionArea (region : ℕ × ℕ) : Area :=
  ⟨region.1 + kernelLinearBase, region.1 + region.2 + kernelLinearBase, region.1, linearRam.bits⟩

def sectionArea (part : ImageSection) : Area :=
  ⟨part.start, part.stop, imagePa part.start, part.attrs.bits⟩

def uartArea : Area :=
  ⟨uartPa + kernelDeviceBase, uartPa + kernelDeviceBase + pageSize, uartPa, deviceAttrs.bits⟩

def kernelAreas (regions : List (ℕ × ℕ)) (image : Image) : List Area :=
  regions.map regionArea ++ image.sections.map sectionArea ++ [uartArea]

/-- The frames to come are distinct frames of the 48-bit physical space and zeroed. -/
structure TableMemory.Fresh (st : TableMemory) : Prop where
  nodup : st.supply.Nodup
  aligned : ∀ frame ∈ st.supply, frame % pageSize = 0
  physical : ∀ frame ∈ st.supply, frame < 2 ^ 48
  zeroed : ∀ frame ∈ st.supply, ∀ i, st.tables frame i = 0

/-- The bounds that the linker script gives the sections. -/
structure Image.Placed (image : Image) : Prop where
  aligned : ∀ part ∈ image.sections, pageSize ∣ part.start ∧ pageSize ∣ part.stop
  inside : ∀ part ∈ image.sections, kernelImageBase ≤ part.start ∧ part.stop ≤ 2 ^ 64
  disjoint : image.sections.Pairwise fun a b => ∀ va, a.start ≤ va → va < a.stop →
    ¬ (b.start ≤ va ∧ va < b.stop)

theorem TableMemory.Fresh.built_root {rootPa : ℕ} (h : st.Fresh)
    (hok : st.allocPage = .ok (rootPa, st')) :
    st'.Built rootPa (fun t => if t = rootPa then some (3, 0) else none) ∧ st'.tables = st.tables ∧
      st.supply = rootPa :: st'.supply := by
  rw [allocPage] at hok
  split at hok
  · cases hok
  · next frame rest hsupply =>
      obtain ⟨rfl, rfl⟩ := Prod.mk.inj (Except.ok.inj hok)
      have hmem : frame ∈ st.supply := by simp [hsupply]
      have hrest {f : ℕ} (hf : f ∈ rest) : f ∈ st.supply := by simp [hsupply, hf]
      have hnodup := h.nodup
      rw [hsupply, List.nodup_cons] at hnodup
      refine ⟨⟨⟨if_pos rfl, ?_⟩, ?_, fun f hf => h.zeroed f (hrest hf), fun f hf =>
        Entry.holds_of_aligned (h.aligned f (hrest hf)) (h.physical f (hrest hf)), hnodup.2⟩, rfl,
        hsupply⟩
      · intro t n y i next ht hi hdec
        split_ifs at ht with hroot
        subst hroot
        rw [h.zeroed t hmem i, decode_zero] at hdec
        cases hdec
      · intro f hf
        rw [if_neg]
        rintro rfl
        exact hnodup.1 hf

private theorem TableMemory.Fresh.allocRoot {rootPa : ℕ} (h : st.Fresh)
    (hok : st.allocPage = .ok (rootPa, st')) : st'.Translates rootPa fun _ => none := by
  obtain ⟨hbuilt, htables, hsupply⟩ := h.built_root hok
  refine ⟨⟨_, hbuilt⟩, funext fun va => ?_⟩
  have hempty (k i : ℕ) : decode k (st'.tables rootPa i) = .empty := by
    rw [htables, h.zeroed rootPa (by simp [hsupply]) i, decode_zero]
  rw [translate, walk, leafAt, Radix.lookup_blank hempty]
  split <;> rfl

private theorem TableMemory.Translates.buildDevice (h : st.Translates root meaning)
    (hok : buildDevice root st = .ok st') : st'.Translates root (Area.cover meaning uartArea) := by
  obtain ⟨va, hva, hok⟩ := bind_eq_ok.mp hok
  obtain rfl : uartPa + kernelDeviceBase = va := Except.ok.inj hva
  exact h.map (by decide) (by decide) (by decide) (by decide) hok

theorem build_translates {regions : List (ℕ × ℕ)} {image : Image} (hfresh : st.Fresh)
    (hend : ∀ region ∈ regions, region.1 + region.2 ≤ 2 ^ 46)
    (haligned : ∀ part ∈ image.sections, pageSize ∣ part.start ∧ pageSize ∣ part.stop)
    (hinside : ∀ part ∈ image.sections, kernelImageBase ≤ part.start ∧ part.stop ≤ 2 ^ 64)
    (hbuild : build regions image st = .ok (root, st')) :
    st'.Translates root (paint (kernelAreas regions image)) := by
  obtain ⟨st₁, st₂, st₃, hroot, hlinear, hsections, hdevice⟩ := build_eq_ok hbuild
  have h₁ := hfresh.allocRoot hroot
  have h₂ : st₂.Translates root ((regions.map regionArea).foldl Area.cover fun _ => none) :=
    h₁.foldlM (fun region hr _ _ _ h hok => h.mapRegion (hend region hr) hok) hlinear
  have h₃ : st₃.Translates root ((image.sections.map sectionArea).foldl Area.cover
      ((regions.map regionArea).foldl Area.cover fun _ => none)) :=
    h₂.foldlM (fun part hp _ _ _ h hok => h.mapPages (hinside part hp).1 (haligned part hp).1
      (haligned part hp).2 (hinside part hp).2 hok) hsections
  have h₄ := h₃.buildDevice hdevice
  rwa [paint, kernelAreas, List.foldl_append, List.foldl_append]

/-! ## The bootstrap pool -/

/-- The pages of the pool, in the order in which they are handed out. -/
def poolSupply (poolVa : ℕ) : List ℕ :=
  (List.range poolPages).map fun idx => imagePa poolVa + idx * pageSize

/-- The memory at the first call: the pool lies in `.bss`. -/
def poolMemory (poolVa : ℕ) : TableMemory := ⟨fun _ _ => 0, poolSupply poolVa⟩

theorem bumpAllocPage_ok {poolVa idx : ℕ} (hbase : kernelImageBase ≤ poolVa) (hlt : poolVa < 2 ^ 64)
    (hidx : idx < poolPages) :
      bumpAllocPage poolVa idx = .ok (imagePa poolVa + idx * pageSize) := by
  have hbound : imagePa poolVa + idx * pageSize < 2 ^ 64 := by
    simp only [imagePa, kernelImageBase, imagePaBase, pageSize, poolPages] at *
    omega
  rw [bumpAllocPage, assertMsg_true hidx, ok_bind, imageVaToPa_ok hbase hlt, ok_bind,
    checkedMul_ok (by omega), ok_bind]
  exact checkedAdd_ok hbound

theorem bumpAllocPage_exhausted {poolVa idx : ℕ} (hidx : poolPages ≤ idx) :
    bumpAllocPage poolVa idx =
      .error (.message "bootstrap frame allocator exhausted (32 pages)") := by
  rw [bumpAllocPage, assertMsg, if_neg (Nat.not_lt.mpr hidx)]
  rfl

theorem pool_fresh {poolVa : ℕ} (hpool : pageSize ∣ poolVa) (hlt : poolVa < 2 ^ 64) :
    (poolMemory poolVa).Fresh := by
  have hpage : pageSize ∣ imagePa poolVa :=
    Nat.dvd_add (Nat.dvd_sub hpool (by decide)) (by decide)
  have hmem {frame : ℕ} (h : frame ∈ poolSupply poolVa) :
      ∃ idx < poolPages, imagePa poolVa + idx * pageSize = frame := by
    simpa [poolSupply] using h
  refine ⟨?_, ?_, ?_, fun _ _ _ => rfl⟩
  · refine List.Nodup.map ?_ List.nodup_range
    intro i j hij
    change imagePa poolVa + i * 4096 = imagePa poolVa + j * 4096 at hij
    omega
  · intro frame hframe
    obtain ⟨idx, -, rfl⟩ := hmem hframe
    exact Nat.mod_eq_zero_of_dvd (Nat.dvd_add hpage (Nat.dvd_mul_left ..))
  · intro frame hframe
    obtain ⟨idx, hidx, rfl⟩ := hmem hframe
    simp only [imagePa, kernelImageBase, imagePaBase, pageSize, poolPages] at *
    omega

/-! ## A small machine -/

private theorem mapSection_page {va pa : ℕ} (hlt : va + pageSize < 2 ^ 64)
    (hpa : imageVaToPa va = .ok pa)
    (st : TableMemory) :
    mapSection root st ⟨va, va + pageSize, attrs⟩ = st.map root va pa .l3 attrs := by
  rw [mapSection, mapPages, if_pos (by simp only [pageSize]; omega), hpa, ok_bind]
  cases st.map root va pa .l3 attrs with
  | error e => rfl
  | ok st' => rw [ok_bind, if_pos hlt, mapPages, if_neg (Nat.lt_irrefl _)]

private theorem mapBlocks_blocks {pa n : ℕ} (hpa : pa % block2MB = 0) (hn : n < 512)
    (hend : pa + n * block2MB ≤ 2 ^ 46) (st : TableMemory) :
    mapBlocks root (pa + n * block2MB) attrs pa st = (List.iterate (· + block2MB) pa n).foldlM
      (fun st pa => st.map root (pa + kernelLinearBase) pa .l2 attrs) st := by
  induction n generalizing pa st with
  | zero =>
      rw [mapBlocks, if_neg (by omega)]
      rfl
  | succ n ih =>
      have hsize : block2MB = 2097152 := rfl
      have hblock : blockFor pa (pa + (n + 1) * block2MB - pa) = .ok (block2MB, .l2) := by
        have hsmall : ¬ block1GB ≤ (n + 1) * block2MB := by
          simp only [block1GB, block2MB]
          omega
        have hfits : block2MB ≤ (n + 1) * block2MB := Nat.le_mul_of_pos_left _ n.succ_pos
        rw [Nat.add_sub_cancel_left, blockFor, if_neg fun h => hsmall h.2, if_pos ⟨hpa, hfits⟩]
      have hnext : pa + (n + 1) * block2MB = pa + block2MB + n * block2MB := by
        rw [Nat.succ_mul]
        omega
      have hmod : (pa + block2MB) % block2MB = 0 := by rwa [Nat.add_mod_right]
      have hrest := ih hmod (by omega) (by omega)
      rw [mapBlocks_step hblock (by omega), List.iterate, List.foldlM_cons, hnext]
      exact congrArg _ (funext hrest)

theorem mapRegion_blocks {pa n : ℕ} (hpa : pa % block2MB = 0) (hn : n < 512)
    (hend : pa + n * block2MB ≤ 2 ^ 46) (st : TableMemory) :
    mapRegion root attrs st (pa, n * block2MB) = (List.iterate (· + block2MB) pa n).foldlM
      (fun st pa => st.map root (pa + kernelLinearBase) pa .l2 attrs) st := by
  rw [mapRegion, checkedAdd_ok (by omega), ok_bind, mapBlocks_blocks hpa hn hend]

def imagePage (k : ℕ) : ℕ := kernelImageBase + k * pageSize

private theorem mapSection_imagePage {k : ℕ} (hk : k < 2 ^ 18) (st : TableMemory) :
    mapSection root st ⟨imagePage k, imagePage k + pageSize, attrs⟩ =
      st.map root (imagePage k) (imagePaBase + k * pageSize) .l3 attrs := by
  have hbase : kernelImageBase ≤ imagePage k := Nat.le_add_right ..
  have hlt : imagePage k + pageSize < 2 ^ 64 := by
    simp only [imagePage, kernelImageBase, pageSize]
    omega
  have hpa : imagePage k - kernelImageBase + imagePaBase = imagePaBase + k * pageSize := by
    rw [imagePage, Nat.add_sub_cancel_left, Nat.add_comm]
  apply mapSection_page hlt
  rw [imageVaToPa_ok hbase (by omega), hpa]

/-- Five sections of one page each, the stack apart from the others. -/
def pageImage (stack : ℕ) : Image :=
  ⟨imagePage 256, imagePage 256 + pageSize, imagePage 257, imagePage 257 + pageSize, imagePage 258,
    imagePage 258 + pageSize, imagePage 259, imagePage 259 + pageSize, imagePage stack,
    imagePage stack + pageSize⟩

private theorem pageImage_sections (stack : ℕ) : (pageImage stack).sections = [(256, textAttrs),
    (257, rodataAttrs), (258, dataAttrs), (259, bssAttrs), (stack, stackAttrs)].map fun p =>
      ⟨imagePage p.1, imagePage p.1 + pageSize, p.2⟩ := rfl

private theorem pageImage_section {stack : ℕ} (hlt : stack < 2 ^ 18) {part : ImageSection}
    (hp : part ∈ (pageImage stack).sections) :
    ∃ k < 2 ^ 18, part.start = imagePage k ∧ part.stop = imagePage k + pageSize := by
  rw [pageImage_sections, List.mem_map] at hp
  obtain ⟨p, hp, rfl⟩ := hp
  refine ⟨p.1, ?_, rfl, rfl⟩
  simp only [List.mem_cons, List.not_mem_nil, or_false] at hp
  rcases hp with rfl | rfl | rfl | rfl | rfl <;> simp only <;> omega

theorem pageImage_aligned {stack : ℕ} (hlt : stack < 2 ^ 18) :
    ∀ part ∈ (pageImage stack).sections, pageSize ∣ part.start ∧ pageSize ∣ part.stop := by
  intro part hp
  obtain ⟨k, -, hstart, hstop⟩ := pageImage_section hlt hp
  have hpage : pageSize ∣ imagePage k := Nat.dvd_add (by decide) (Nat.dvd_mul_left ..)
  rw [hstart, hstop]
  exact ⟨hpage, Nat.dvd_add hpage (dvd_refl _)⟩

theorem pageImage_inside {stack : ℕ} (hlt : stack < 2 ^ 18) : ∀ part ∈ (pageImage stack).sections,
    kernelImageBase ≤ part.start ∧ part.stop ≤ kernelImageBase + 0x40000000 := by
  intro part hp
  obtain ⟨k, hk, hstart, hstop⟩ := pageImage_section hlt hp
  rw [hstart, hstop]
  simp only [imagePage, pageSize]
  omega

theorem pageImage_placed {stack : ℕ} (h : 259 < stack) (hlt : stack < 2 ^ 18) :
    (pageImage stack).Placed := by
  refine ⟨pageImage_aligned hlt, ?_, ?_⟩
  · intro part hp
    have hinside := pageImage_inside hlt part hp
    simp only [kernelImageBase] at *
    omega
  · rw [pageImage_sections, List.pairwise_map]
    refine List.Pairwise.imp (R := fun p q => p.1 < q.1) ?_ ?_
    · intro p q hpq va hlo hhi hq
      simp only [imagePage, pageSize] at hlo hhi hq
      omega
    · have hlast (k : ℕ) (hk : k ≤ 259) : k < stack := by omega
      simp [hlast]

theorem buildImage_pageImage {stack : ℕ} (hlt : stack < 2 ^ 18) (st : TableMemory) :
    buildImage root (pageImage stack) st =
      [(256, textAttrs), (257, rodataAttrs), (258, dataAttrs), (259, bssAttrs),
        (stack, stackAttrs)].foldlM (fun st p =>
          st.map root (imagePage p.1) (imagePaBase + p.1 * pageSize) .l3 p.2) st := by
  simp only [buildImage, pageImage, Image.sections, List.foldlM_cons, List.foldlM_nil,
    mapSection_imagePage hlt, mapSection_imagePage (show 256 < 2 ^ 18 by decide),
    mapSection_imagePage (show 257 < 2 ^ 18 by decide),
    mapSection_imagePage (show 258 < 2 ^ 18 by decide),
    mapSection_imagePage (show 259 < 2 ^ 18 by decide)]

/-! ## Exactness -/

/-- Two byte ranges, given by base and size, share no byte. -/
def RangesApart (r r' : ℕ × ℕ) : Prop :=
  ∀ pa, r.1 ≤ pa → pa < r.1 + r.2 → ¬ (r'.1 ≤ pa ∧ pa < r'.1 + r'.2)

private theorem regionArea_apart {r r' : ℕ × ℕ} (h : RangesApart r r') :
    (regionArea r).Apart (regionArea r') := by
  intro va hr hr'
  simp only [Area.Has, regionArea] at hr hr'
  exact h (va - kernelLinearBase) (by omega) (by omega) (by omega)

private theorem kernelAreas_apart {regions : List (ℕ × ℕ)} {image : Image}
    (hregions : regions.Pairwise RangesApart)
    (hend : ∀ region ∈ regions, region.1 + region.2 ≤ 2 ^ 46) (himage : image.Placed) :
    (kernelAreas regions image).Pairwise Area.Apart := by
  rw [kernelAreas, List.pairwise_append, List.pairwise_append, List.pairwise_map, List.pairwise_map]
  refine ⟨⟨hregions.imp regionArea_apart, himage.disjoint.imp fun h va ha => h va ha.1 ha.2, ?_⟩,
    List.pairwise_singleton .., ?_⟩
  · intro a ha b hb va hva hvb
    obtain ⟨region, hr, rfl⟩ := List.mem_map.mp ha
    obtain ⟨part, hp, rfl⟩ := List.mem_map.mp hb
    have hlinear := hend region hr
    have hinside := himage.inside part hp
    simp only [Area.Has, regionArea, sectionArea, kernelLinearBase, kernelImageBase] at *
    omega
  · intro a ha b hb va hva hvb
    obtain rfl := List.mem_singleton.mp hb
    rcases List.mem_append.mp ha with ha | ha
    · obtain ⟨region, hr, rfl⟩ := List.mem_map.mp ha
      have hlinear := hend region hr
      simp only [Area.Has, regionArea, uartArea, kernelLinearBase, kernelDeviceBase, uartPa] at *
      omega
    · obtain ⟨part, hp, rfl⟩ := List.mem_map.mp ha
      have hinside := himage.inside part hp
      simp only [Area.Has, sectionArea, uartArea, kernelImageBase, kernelDeviceBase, uartPa,
        pageSize] at *
      omega

namespace Mapping

/-- `AP[2]` is clear. -/
def Writable (m : Mapping) : Prop := m.attrs &&& 1 <<< 7 = 0

/-- `PXN` is clear. -/
def Executable (m : Mapping) : Prop := m.attrs &&& pxn = 0

/-- `AP[1]` is set. -/
def UserAccessible (m : Mapping) : Prop := m.attrs &&& 1 <<< 6 ≠ 0

/-- `UXN` is clear. -/
def UserExecutable (m : Mapping) : Prop := m.attrs &&& uxn = 0

/-- Never writable and executable at EL1, and out of reach of EL0. -/
def Guarded (m : Mapping) : Prop :=
  ¬ (m.Writable ∧ m.Executable) ∧ ¬ m.UserAccessible ∧ ¬ m.UserExecutable

end Mapping

private theorem kernelAreas_guarded {regions : List (ℕ × ℕ)} {image : Image} {a : Area}
    (h : a ∈ kernelAreas regions image) (va : ℕ) : (a.mapping va).Guarded := by
  have hattrs : a.attrs ∈ [textAttrs.bits, rodataAttrs.bits, dataAttrs.bits, deviceAttrs.bits] := by
    simp only [kernelAreas, Image.sections, List.mem_append, List.mem_map, List.mem_cons,
      List.not_mem_nil, or_false] at h
    rcases h with (⟨region, -, rfl⟩ | ⟨part, rfl | rfl | rfl | rfl | rfl, rfl⟩) | rfl <;>
      simp only [regionArea, sectionArea, uartArea] <;> decide
  simp only [Mapping.Guarded, Mapping.Writable, Mapping.Executable, Mapping.UserAccessible,
    Mapping.UserExecutable, Area.mapping]
  generalize a.attrs = bits at hattrs
  revert bits
  decide

/-- The translation over all upper-half addresses that the kernel map is meant to be. -/
structure ExactMap (tables : ℕ → ℕ → ℕ) (root : ℕ) (regions : List (ℕ × ℕ)) (image : Image) :
    Prop where
  linear : ∀ region ∈ regions, ∀ pa, region.1 ≤ pa → pa < region.1 + region.2 →
    ∃ va, paToLinearVa pa = .ok va ∧ translate tables root va = some ⟨pa, linearRam.bits⟩
  sections : ∀ part ∈ image.sections, ∀ va, part.start ≤ va → va < part.stop →
    ∃ pa, imageVaToPa va = .ok pa ∧ translate tables root va = some ⟨pa, part.attrs.bits⟩
  device : ∃ va, paToDeviceVa uartPa = .ok va ∧ ∀ i < pageSize,
    translate tables root (va + i) = some ⟨uartPa + i, deviceAttrs.bits⟩
  only : ∀ va, UpperHalf va →
    (∀ region ∈ regions, ∀ pa, region.1 ≤ pa → pa < region.1 + region.2 →
      paToLinearVa pa ≠ .ok va) →
    (∀ part ∈ image.sections, ¬ (part.start ≤ va ∧ va < part.stop)) →
    (∀ base, paToDeviceVa uartPa = .ok base → ¬ (base ≤ va ∧ va < base + pageSize)) →
    translate tables root va = none
  guarded : ∀ va m, translate tables root va = some m → m.Guarded

theorem TableMemory.Translates.exactMap {regions : List (ℕ × ℕ)} {image : Image}
    (h : st.Translates root (paint (kernelAreas regions image)))
    (hregions : regions.Pairwise RangesApart)
    (hend : ∀ region ∈ regions, region.1 + region.2 ≤ 2 ^ 46) (himage : image.Placed) :
    ExactMap st.tables root regions image := by
  obtain ⟨-, hmap⟩ := h
  have hapart := kernelAreas_apart hregions hend himage
  have hhas {a : Area} (ha : a ∈ kernelAreas regions image) {va : ℕ} (hva : a.Has va) :
      translate st.tables root va = some (a.mapping va) := by
    rw [hmap]
    exact foldl_cover_of_has hapart ha hva _
  constructor
  · intro region hr pa hlo hhi
    have hlt := hend region hr
    have harea : regionArea region ∈ kernelAreas regions image := by
      simp only [kernelAreas, List.mem_append, List.mem_map]
      exact .inl (.inl ⟨region, hr, rfl⟩)
    refine ⟨pa + kernelLinearBase, paToLinearVa_ok (by omega), ?_⟩
    rw [hhas harea (by simp only [Area.Has, regionArea]; omega)]
    simp only [Area.mapping, regionArea, Option.some.injEq, Mapping.mk.injEq, and_true]
    omega
  · intro part hp va hlo hhi
    have hinside := himage.inside part hp
    have harea : sectionArea part ∈ kernelAreas regions image := by
      simp only [kernelAreas, List.mem_append, List.mem_map]
      exact .inl (.inr ⟨part, hp, rfl⟩)
    refine ⟨imagePa va, imageVaToPa_ok (by omega) (by omega), ?_⟩
    rw [hhas harea (by simp only [Area.Has, sectionArea]; omega)]
    simp only [Area.mapping, sectionArea, imagePa, Option.some.injEq, Mapping.mk.injEq, and_true]
    omega
  · have harea : uartArea ∈ kernelAreas regions image := by simp [kernelAreas]
    refine ⟨uartPa + kernelDeviceBase, rfl, fun i hi => ?_⟩
    rw [hhas harea (by simp only [Area.Has, uartArea]; omega)]
    simp only [Area.mapping, uartArea, Option.some.injEq, Mapping.mk.injEq, and_true]
    omega
  · intro va _ hlinear hsections hdevice
    rw [hmap]
    refine foldl_cover_of_not ?_ _
    intro a ha hva
    simp only [kernelAreas, List.mem_append, List.mem_map, List.mem_singleton] at ha
    rcases ha with (⟨region, hr, rfl⟩ | ⟨part, hp, rfl⟩) | rfl
    · have hlt := hend region hr
      simp only [Area.Has, regionArea] at hva
      apply hlinear region hr (va - kernelLinearBase) (by omega) (by omega)
      rw [paToLinearVa_ok (by omega), Nat.sub_add_cancel (by omega)]
    · exact hsections part hp hva
    · exact hdevice _ rfl hva
  · intro va m hm
    rw [hmap] at hm
    rcases foldl_cover_some hm with hnone | ⟨a, ha, rfl⟩
    · cases hnone
    · exact kernelAreas_guarded ha va

theorem build_exact {regions : List (ℕ × ℕ)} {image : Image} (hfresh : st.Fresh)
    (hregions : regions.Pairwise RangesApart)
    (hend : ∀ region ∈ regions, region.1 + region.2 ≤ 2 ^ 46) (himage : image.Placed)
    (hbuild : build regions image st = .ok (root, st')) :
    ExactMap st'.tables root regions image :=
  (build_translates hfresh hend himage.aligned himage.inside hbuild).exactMap hregions hend himage

theorem build_pageImage :
    ∃ r, build [(0x40000000, 1 * block2MB)] (pageImage 463)
      (poolMemory (imagePage 264)) = .ok r := by
  simp only [build, buildLinear, List.foldlM_cons, List.foldlM_nil,
    buildImage_pageImage (show 463 < 2 ^ 18 by decide),
    mapRegion_blocks (show 0x40000000 % block2MB = 0 by decide)
      (show 1 < 512 by decide) (by decide)]
  exact ⟨_, rfl⟩

theorem build_exact_pageImage :
    ∃ root st', build [(0x40000000, 1 * block2MB)] (pageImage 463) (poolMemory (imagePage 264)) =
      .ok (root, st') ∧ ExactMap st'.tables root [(0x40000000, 1 * block2MB)] (pageImage 463) := by
  obtain ⟨⟨root, st'⟩, hbuild⟩ := build_pageImage
  exact ⟨root, st', hbuild, build_exact (pool_fresh (by decide) (by decide))
    (List.pairwise_singleton ..) (by decide) (pageImage_placed (by decide) (by decide)) hbuild⟩

end Preon.Memory
