import Preon.Memory.BootTables

/-!
# Switching from the trampoline tables to the runtime map

While `switch_ttbr1` runs, the image, the UART and RAM are used through whichever of the two roots
is installed.  Both roots translate the addresses in use to the same physical addresses.
-/

namespace Preon.Memory

open Framework TableMemory

variable {st st' : TableMemory} {root base va pa : ℕ} {tables : ℕ → ℕ → ℕ} {regions : List (ℕ × ℕ)}
  {image : Image}

/-- The physical address of a translation, whatever its attributes. -/
def TranslatesTo (tables : ℕ → ℕ → ℕ) (root va pa : ℕ) : Prop :=
  ∃ attrs, translate tables root va = some ⟨pa, attrs⟩

/-! ## The trampoline -/

private theorem translatesTo_of_leafAt {leaf : ℕ × ℕ} (hva : UpperHalf va)
    (hleaf : leafAt tables root va = some leaf) (hpa : (leafMapping va leaf).pa = pa) :
    TranslatesTo tables root va pa := by
  refine ⟨(leafMapping va leaf).attrs, ?_⟩
  rw [translate, if_pos hva, walk, hleaf, ← hpa]
  rfl

theorem ramBlock_pa (va : ℕ) :
    (leafMapping va (2, ramBlock)).pa = 0x40000000 + va % 0x40000000 := by
  rw [leafMapping, show Entry.outputAddr ramBlock = 0x40000000 by decide,
    show leafSize 2 = 0x40000000 by decide]

private theorem uartLeaf_pa (va : ℕ) :
    (leafMapping va (0, uartLeaf)).pa = uartPa + va % pageSize := by
  rw [leafMapping, show Entry.outputAddr uartLeaf = uartPa by decide,
    show leafSize 0 = pageSize by decide, Nat.div_mul_cancel (by decide)]

namespace HoldsStores

variable (h : HoldsStores base tables) (hbase : base % pageSize = 0)
  (hend : base + bootTablePages * pageSize ≤ 2 ^ 48)

include h hbase hend

private theorem translatesTo_linear (hlo : 0x40000000 ≤ pa) (hhi : pa < 0x80000000) :
    TranslatesTo tables (BootTable.kernelL0.pa base) (pa + kernelLinearBase) pa := by
  refine translatesTo_of_leafAt (linear_upperHalf (by omega))
    (h.leafAt_linear hbase hend (by omega) (by omega)) ?_
  rw [ramBlock_pa]
  simp only [kernelLinearBase]
  omega

private theorem translatesTo_image (hlo : kernelImageBase ≤ va)
    (hhi : va < kernelImageBase + 0x40000000) :
    TranslatesTo tables (BootTable.kernelL0.pa base) va (imagePa va) := by
  refine translatesTo_of_leafAt (image_upperHalf hlo ?_) (h.leafAt_image hbase hend hlo hhi) ?_
  · simp only [kernelImageBase] at hhi
    omega
  · rw [ramBlock_pa]
    simp only [imagePa, kernelImageBase, imagePaBase] at *
    omega

private theorem translatesTo_uart {i : ℕ} (hi : i < pageSize) :
    TranslatesTo tables (BootTable.kernelL0.pa base) (uartPa + kernelDeviceBase + i)
      (uartPa + i) := by
  refine translatesTo_of_leafAt ?_ (h.leafAt_uart hbase hend (by omega) (by omega)) ?_
  · simp only [UpperHalf, uartPa, kernelDeviceBase, pageSize] at *
    omega
  · rw [uartLeaf_pa]
    simp only [uartPa, kernelDeviceBase, pageSize] at *
    omega

end HoldsStores

/-! ## The runtime map -/

private theorem foldl_cover_pa {areas : List Area}
    (hagree : ∀ a ∈ areas, a.Has va → (a.mapping va).pa = pa)
    {a : Area} (ha : a ∈ areas) (h : a.Has va) (before : ℕ → Option Mapping) :
    ∃ attrs, areas.foldl Area.cover before va = some ⟨pa, attrs⟩ := by
  induction areas generalizing a before with
  | nil => cases ha
  | cons b areas ih =>
      rw [List.forall_mem_cons] at hagree
      rw [List.foldl_cons]
      by_cases hlater : ∃ c ∈ areas, c.Has va
      · obtain ⟨c, hc, hhas⟩ := hlater
        exact ih hagree.2 hc hhas _
      · have hnone : ∀ c ∈ areas, ¬ c.Has va := fun c hc hhas => hlater ⟨c, hc, hhas⟩
        obtain rfl : a = b := by
          cases ha with
          | head => rfl
          | tail _ ha => exact absurd h (hnone a ha)
        rw [foldl_cover_of_not hnone, Area.cover_of_has h, ← hagree.1 h]
        exact ⟨_, rfl⟩

/-- Section bounds on page boundaries of the gigabyte that the trampoline maps the image from. -/
structure Image.InGigabyte (image : Image) : Prop where
  aligned : ∀ part ∈ image.sections, pageSize ∣ part.start ∧ pageSize ∣ part.stop
  inside : ∀ part ∈ image.sections,
    kernelImageBase ≤ part.start ∧ part.stop ≤ kernelImageBase + 0x40000000

/-- Where the areas of the kernel map lead an address, if one of them has it. -/
def kernelPa (va : ℕ) : ℕ :=
  if kernelImageBase ≤ va then imagePa va
  else if kernelDeviceBase ≤ va then va - kernelDeviceBase
  else va - kernelLinearBase

private theorem kernelPa_image (h : kernelImageBase ≤ va) : kernelPa va = imagePa va := if_pos h

private theorem kernelPa_device (h : kernelDeviceBase ≤ va) (hlt : va < kernelImageBase) :
    kernelPa va = va - kernelDeviceBase := by
  rw [kernelPa, if_neg (by omega), if_pos h]

private theorem kernelPa_linear (h : va < kernelDeviceBase) :
    kernelPa va = va - kernelLinearBase := by
  have hle : kernelDeviceBase ≤ kernelImageBase := by decide
  rw [kernelPa, if_neg (by omega), if_neg (by omega)]

private theorem linear_lt_device (h : pa < 2 ^ 46) : pa + kernelLinearBase < kernelDeviceBase := by
  simp only [kernelLinearBase, kernelDeviceBase]
  omega

private theorem uart_lt_image {i : ℕ} (h : i < pageSize) :
    uartPa + kernelDeviceBase + i < kernelImageBase := by
  simp only [uartPa, kernelDeviceBase, kernelImageBase, pageSize] at *
  omega

private theorem kernelAreas_pa {a : Area} (hend : ∀ region ∈ regions, region.1 + region.2 ≤ 2 ^ 46)
    (himage : image.InGigabyte) (ha : a ∈ kernelAreas regions image) (h : a.Has va) :
    (a.mapping va).pa = kernelPa va := by
  simp only [kernelAreas, List.mem_append, List.mem_map, List.mem_singleton] at ha
  rcases ha with (⟨region, hr, rfl⟩ | ⟨part, hp, rfl⟩) | rfl
  · have hlt := hend region hr
    simp only [Area.Has, Area.mapping, regionArea] at *
    have hdevice := linear_lt_device (show va - kernelLinearBase < 2 ^ 46 by omega)
    rw [kernelPa_linear (by omega)]
    omega
  · have hinside := himage.inside part hp
    simp only [Area.Has, Area.mapping, sectionArea] at *
    rw [kernelPa_image (by omega), imagePa, imagePa]
    omega
  · simp only [Area.Has, Area.mapping, uartArea] at *
    have himage := uart_lt_image (show va - (uartPa + kernelDeviceBase) < pageSize by omega)
    rw [kernelPa_device (by omega) (by omega)]
    omega

private theorem build_translatesTo {a : Area} (hfresh : st.Fresh)
    (hend : ∀ region ∈ regions, region.1 + region.2 ≤ 2 ^ 46) (himage : image.InGigabyte)
    (hbuild : build regions image st = .ok (root, st')) (ha : a ∈ kernelAreas regions image)
    (h : a.Has va) : TranslatesTo st'.tables root va (kernelPa va) := by
  have hinside : ∀ part ∈ image.sections, kernelImageBase ≤ part.start ∧ part.stop ≤ 2 ^ 64 := by
    intro part hp
    have hpart := himage.inside part hp
    simp only [kernelImageBase] at *
    omega
  obtain ⟨-, hmap⟩ := build_translates hfresh hend himage.aligned hinside hbuild
  rw [TranslatesTo, hmap]
  exact foldl_cover_pa (fun b hb hhas => kernelAreas_pa hend himage hb hhas) ha h _

/-! ## The switch -/

/-- While frames come from `before`, the table `t` is in no tree and is as it was. -/
def KeepsTable (before : TableMemory) (root t : ℕ) (s : TableMemory) : Prop :=
  ∃ place, s.Built root place ∧ s.supply ⊆ before.supply ∧ place t = none ∧
    s.tables t = before.tables t

private theorem KeepsTable.map {s s' : TableMemory} {t : ℕ} {target : Level} {attrs : LeafAttrs}
    (h : KeepsTable st root t s) (ht : t ∉ st.supply)
    (hok : s.map root va pa target attrs = .ok s') :
    KeepsTable st root t s' := by
  obtain ⟨place, hbuilt, hsupply, hplace, hsame⟩ := h
  obtain ⟨-, ⟨place', hbuilt', hsuffix, houtside, -⟩, -⟩ := hbuilt.map hok
  obtain ⟨hplace', hsame'⟩ := houtside t hplace fun hmem => ht (hsupply hmem)
  exact ⟨place', hbuilt', fun f hf => hsupply (hsuffix.subset hf), hplace', hsame'.trans hsame⟩

theorem build_outside (hfresh : st.Fresh)
    (hbuild : build regions image st = .ok (root, st')) {t : ℕ}
    (ht : t ∉ st.supply) : st'.tables t = st.tables t := by
  have hkept : KeepsTable st root t st' := by
    refine build_preserves ?_ ?_ hbuild
    · intro s s' va pa target attrs h hok
      exact h.map ht hok
    · intro st₁ halloc
      obtain ⟨hbuilt, htables, hsupply⟩ := hfresh.built_root halloc
      rw [hsupply, List.mem_cons, not_or] at ht
      refine ⟨_, hbuilt, ?_, if_neg ht.1, by rw [htables]⟩
      rw [hsupply]
      exact List.subset_cons_self ..
  obtain ⟨place, -, -, -, hsame⟩ := hkept
  exact hsame

def SameAddress (tables : ℕ → ℕ → ℕ) (root : ℕ) (tables' : ℕ → ℕ → ℕ) (root' va : ℕ) : Prop :=
  ∃ pa, TranslatesTo tables root va pa ∧ TranslatesTo tables' root' va pa

/-- Two roots agree on the addresses that are used while one replaces the other. -/
structure Seamless (tables : ℕ → ℕ → ℕ) (root : ℕ) (tables' : ℕ → ℕ → ℕ) (root' : ℕ)
    (regions : List (ℕ × ℕ)) (image : Image) : Prop where
  sections : ∀ part ∈ image.sections, ∀ va, part.start ≤ va → va < part.stop →
    SameAddress tables root tables' root' va
  device : ∃ va, paToDeviceVa uartPa = .ok va ∧ ∀ i < pageSize,
    SameAddress tables root tables' root' (va + i)
  linear : ∀ region ∈ regions, ∀ pa, region.1 ≤ pa → pa < region.1 + region.2 →
    0x40000000 ≤ pa → pa < 0x80000000 →
    ∃ va, paToLinearVa pa = .ok va ∧ SameAddress tables root tables' root' va

private theorem HoldsStores.seamless (h : HoldsStores base tables) (hbase : base % pageSize = 0)
    (hpages : base + bootTablePages * pageSize ≤ 2 ^ 48) (hfresh : st.Fresh)
    (hend : ∀ region ∈ regions, region.1 + region.2 ≤ 2 ^ 46) (himage : image.InGigabyte)
    (hbuild : build regions image st = .ok (root, st')) :
    Seamless tables (BootTable.kernelL0.pa base) st'.tables root regions image := by
  have hruntime {a : Area} {va : ℕ} (ha : a ∈ kernelAreas regions image) (hhas : a.Has va) :=
    build_translatesTo hfresh hend himage hbuild ha hhas
  constructor
  · intro part hp va hlo hhi
    have hinside := himage.inside part hp
    have hpa : kernelPa va = imagePa va := kernelPa_image (by omega)
    have harea : sectionArea part ∈ kernelAreas regions image := by
      simp only [kernelAreas, List.mem_append, List.mem_map]
      exact .inl (.inr ⟨part, hp, rfl⟩)
    exact ⟨imagePa va, h.translatesTo_image hbase hpages (by omega) (by omega),
      hpa ▸ hruntime harea ⟨hlo, hhi⟩⟩
  · refine ⟨uartPa + kernelDeviceBase, rfl, fun i hi => ?_⟩
    have hpa : kernelPa (uartPa + kernelDeviceBase + i) = uartPa + i := by
      rw [kernelPa_device (by omega) (uart_lt_image hi)]
      omega
    have harea : uartArea ∈ kernelAreas regions image := by simp [kernelAreas]
    have hhas : uartArea.Has (uartPa + kernelDeviceBase + i) := by
      simp only [Area.Has, uartArea]
      omega
    exact ⟨uartPa + i, h.translatesTo_uart hbase hpages hi, hpa ▸ hruntime harea hhas⟩
  · intro region hr pa hlo hhi hram hram'
    have hpa : kernelPa (pa + kernelLinearBase) = pa := by
      rw [kernelPa_linear (linear_lt_device (by omega)), Nat.add_sub_cancel]
    have harea : regionArea region ∈ kernelAreas regions image := by
      simp only [kernelAreas, List.mem_append, List.mem_map]
      exact .inl (.inl ⟨region, hr, rfl⟩)
    have hhas : (regionArea region).Has (pa + kernelLinearBase) := by
      simp only [Area.Has, regionArea]
      omega
    have htranslates := hruntime harea hhas
    rw [hpa] at htranslates
    exact ⟨pa + kernelLinearBase, paToLinearVa_ok (by omega), pa,
      h.translatesTo_linear hbase hpages hram hram', htranslates⟩

/-- The tables of `boot.s` and the tables of `build` agree, and go on to agree in one memory if the
frames of `build` are not trampoline pages. -/
theorem switch_seamless {memory : ℕ → ℕ → ℕ} (hbase : base % pageSize = 0)
    (hpages : base + bootTablePages * pageSize ≤ 2 ^ 48) (hfresh : st.Fresh)
    (hend : ∀ region ∈ regions, region.1 + region.2 ≤ 2 ^ 46) (himage : image.InGigabyte)
    (hbuild : build regions image st = .ok (root, st')) :
    Seamless (bootTables base memory) (BootTable.kernelL0.pa base) st'.tables root regions image ∧
      ((∀ table : BootTable, table.pa base ∉ st.supply ∧
        st.tables (table.pa base) = bootTables base memory (table.pa base)) →
        Seamless st'.tables (BootTable.kernelL0.pa base) st'.tables root regions image) := by
  have hboot := bootTables_holdsStores base memory
  refine ⟨hboot.seamless hbase hpages hfresh hend himage hbuild, fun hkept => ?_⟩
  have hstill : HoldsStores base st'.tables := by
    intro s hs
    rw [build_outside hfresh hbuild (hkept s.1).1, (hkept s.1).2]
    exact hboot s hs
  exact hstill.seamless hbase hpages hfresh hend himage hbuild

/-- The pool of a small machine, in memory that holds the trampoline tables. -/
def switchMemory : TableMemory := ⟨bootTables 0x40081000 fun _ _ => 0, poolSupply (imagePage 264)⟩

private theorem switchMemory_apart (table : BootTable) :
    table.pa 0x40081000 ∉ switchMemory.supply := by
  cases table <;> decide

private theorem switchMemory_fresh : switchMemory.Fresh := by
  have hpool := pool_fresh (show pageSize ∣ imagePage 264 by decide) (by decide)
  refine ⟨hpool.nodup, hpool.aligned, hpool.physical, ?_⟩
  intro f hf i
  have hclear : bootTables 0x40081000 (fun _ _ => 0) f = clearTables 0x40081000 (fun _ _ => 0) f :=
    bootTables_outside _ fun table heq => switchMemory_apart table (heq ▸ hf)
  change bootTables 0x40081000 (fun _ _ => 0) f i = 0
  rw [hclear, clearTables, ite_self]

private theorem build_switchMemory :
    ∃ r, build [(0x40000000, 1 * block2MB)] (pageImage 463) switchMemory = .ok r := by
  have hok : (build [(0x40000000, 1 * block2MB)] (pageImage 463) switchMemory).isOk = true := by
    simp only [build, buildLinear, List.foldlM_cons, List.foldlM_nil,
      buildImage_pageImage (show 463 < 2 ^ 18 by decide),
      mapRegion_blocks (show 0x40000000 % block2MB = 0 by decide)
        (show 1 < 512 by decide) (by decide)]
    decide +kernel
  cases hbuild : build [(0x40000000, 1 * block2MB)] (pageImage 463) switchMemory with
  | ok r => exact ⟨r, rfl⟩
  | error e =>
      rw [hbuild] at hok
      cases hok

theorem switch_seamless_small : ∃ root st',
    build [(0x40000000, 1 * block2MB)] (pageImage 463) switchMemory = .ok (root, st') ∧
      Seamless (bootTables 0x40081000 fun _ _ => 0)
        (BootTable.kernelL0.pa 0x40081000) st'.tables root
        [(0x40000000, 1 * block2MB)] (pageImage 463) ∧
      Seamless st'.tables (BootTable.kernelL0.pa 0x40081000) st'.tables root
        [(0x40000000, 1 * block2MB)] (pageImage 463) := by
  obtain ⟨⟨root, st'⟩, hbuild⟩ := build_switchMemory
  have himage : (pageImage 463).InGigabyte :=
    ⟨pageImage_aligned (by decide), pageImage_inside (by decide)⟩
  have hbase : 0x40081000 % pageSize = 0 := by decide
  obtain ⟨hboot, hswitch⟩ := switch_seamless hbase (by decide) switchMemory_fresh (by decide)
    himage hbuild
  exact ⟨root, st', hbuild, hboot, hswitch fun table => ⟨switchMemory_apart table, rfl⟩⟩

end Preon.Memory
