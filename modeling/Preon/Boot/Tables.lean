import Preon.Boot.Regime
import Preon.Cpu.Smp
import Preon.Memory.Control

/-!
# What the trampoline tables translate

Both roots of `boot.s`, address by address: the words it stores are the only ones in the pages it
has cleared, so the walks end in the leaves it has put there or nowhere.
-/

namespace Preon.Boot

open Framework MappedCode Memory

/-- The words of `boot.s`, and nothing else, in the table pages. -/
structure Trampoline (base : ℕ) (tables : ℕ → ℕ → ℕ) : Prop where
  stores : HoldsStores base tables
  empty : ∀ (table : BootTable) (slot : ℕ), slot < 512 →
    (∀ s ∈ bootStores base, s.1 = table → s.2.1 ≠ slot) → tables (table.pa base) slot = 0

theorem bootTables_trampoline (base : ℕ) (memory : ℕ → ℕ → ℕ) :
    Trampoline base (bootTables base memory) where
  stores := bootTables_holdsStores base memory
  empty table slot _ hnot := by
    have hkept :
        bootTables base memory (table.pa base) slot =
          clearTables base memory (table.pa base) slot :=
      Radix.foldl_write_of_not (fun s : BootTable × ℕ × ℕ => s.1.pa base) (fun s => s.2.1)
        (fun s => s.2.2) (fun s hs heq => hnot s hs (BootTable.pa_inj heq.1).symm heq.2.symm) _
    have hposition : table.position < bootTablePages := by cases table <;> decide
    rw [hkept, clearTables, if_pos]
    simp only [BootTable.pa, pageSize]
    omega

theorem Trampoline.of_slots {base : ℕ} {tables words : ℕ → ℕ → ℕ} (h : Trampoline base tables)
    (hwords : ∀ t i, Place t i → words t i = tables t i % 2 ^ 64)
    (hplace : ∀ table : BootTable, pageSize ∣ table.pa base ∧ table.pa base < 2 ^ 48)
    (hstores : ∀ st ∈ bootStores base, st.2.1 < 512 ∧ st.2.2 < 2 ^ 64) : Trampoline base words where
  stores st hst := by
    obtain ⟨hslot, hword⟩ := hstores st hst
    rw [hwords _ _ ⟨(hplace st.1).1, (hplace st.1).2, hslot⟩, h.stores st hst,
      Nat.mod_eq_of_lt hword]
  empty table slot hslot hnot := by
    rw [hwords _ _ ⟨(hplace table).1, (hplace table).2, hslot⟩, h.empty table slot hslot hnot,
      Nat.zero_mod]

/-- The leaves of the low half. -/
def lowLeaf (va : ℕ) : Option (ℕ × ℕ) :=
  if uartPa ≤ va ∧ va < uartPa + pageSize then some (0, uartLeaf)
  else if 0x40000000 ≤ va ∧ va < 0x40200000 then some (1, ramBlock)
  else none

/-- The leaves of the upper half. -/
def highLeaf (va : ℕ) : Option (ℕ × ℕ) :=
  if 0x40000000 + kernelLinearBase ≤ va ∧ va < 0x80000000 + kernelLinearBase then some (2, ramBlock)
  else if uartPa + kernelDeviceBase ≤ va ∧ va < uartPa + kernelDeviceBase + pageSize then
    some (0, uartLeaf)
  else if kernelImageBase ≤ va ∧ va < kernelImageBase + 0x40000000 then some (2, ramBlock)
  else none

namespace Trampoline

variable {base va n root : ℕ} {tables : ℕ → ℕ → ℕ} {table : BootTable}

private theorem blocked (h : Trampoline base tables)
    (hpath : Radix.Path 512 decode tables 3 root (key va) n (table.pa base))
    (hnot : ∀ s ∈ bootStores base, s.1 = table → s.2.1 ≠ Radix.digit 512 n (key va)) :
    leafAt tables root va = none := by
  have hzero := h.empty table _ (Radix.digit_lt (by decide) n (key va)) hnot
  rw [leafAt, hpath.lookup]
  cases n <;> rw [Radix.lookup, hzero, decode_zero]

variable (h : Trampoline base tables) (hbase : base % pageSize = 0)
  (hend : base + bootTablePages * pageSize ≤ 2 ^ 48)

include h hbase hend

private theorem passes (next : BootTable) {slot : ℕ}
    (hpath : Radix.Path 512 decode tables 3 root (key va) (n + 1) (table.pa base))
    (hdigit : Radix.digit 512 (n + 1) (key va) = slot)
    (hmem : (table, slot, next.pa base ||| 3) ∈ bootStores base) :
    Radix.Path 512 decode tables 3 root (key va) n (next.pa base) :=
  h.stores.down hbase hend hmem hpath hdigit

/-- The identity map: the page of the UART and the first two megabytes of RAM. -/
theorem leafAt_low (hva : va < 2 ^ 48) :
    leafAt tables (BootTable.idmapL0.pa base) va = lowLeaf va := by
  have hdigits : Radix.digit 512 3 (key va) = va / 2 ^ 39 ∧
      Radix.digit 512 2 (key va) = va / 2 ^ 30 % 512 ∧
        Radix.digit 512 1 (key va) = va / 2 ^ 21 % 512 ∧
      Radix.digit 512 0 (key va) = va / 2 ^ 12 % 512 := by
    simp only [Radix.digit, key, pageSize]
    omega
  obtain ⟨hd3, hd2, hd1, hd0⟩ := hdigits
  have hnone (hout : ¬ (uartPa ≤ va ∧ va < uartPa + pageSize) ∧
      ¬ (0x40000000 ≤ va ∧ va < 0x40200000)) :
      lowLeaf va = none := by
    rw [lowLeaf, if_neg hout.1, if_neg hout.2]
  simp only [uartPa, pageSize] at hnone
  have hroot : Radix.Path 512 decode tables 3 (BootTable.idmapL0.pa base) (key va) 3
      (BootTable.idmapL0.pa base) := .root
  by_cases h3 : va / 2 ^ 39 = 0
  · have hl1 := h.passes hbase hend .idmapL1 hroot (hd3.trans h3) (by simp [bootStores])
    by_cases huart : va / 2 ^ 30 % 512 = 0
    · have hl2 := h.passes hbase hend .idmapL2Uart hl1 (hd2.trans huart) (by simp [bootStores])
      by_cases h1 : va / 2 ^ 21 % 512 = 72
      · have hl3 := h.passes hbase hend .idmapL3Uart hl2 (hd1.trans h1) (by simp [bootStores])
        by_cases h0 : va / 2 ^ 12 % 512 = 0
        · rw [h.stores.leafAt (e := uartLeaf) (by simp [bootStores]) hl3 (hd0.trans h0) rfl,
            lowLeaf,
            if_pos (by simp only [uartPa, pageSize]; omega)]
        · rw [h.blocked hl3 (by simp [bootStores, hd0]; omega), hnone (by omega)]
      · rw [h.blocked hl2 (by simp [bootStores, hd1]; omega), hnone (by omega)]
    · by_cases hram : va / 2 ^ 30 % 512 = 1
      · have hl2 := h.passes hbase hend .idmapL2Ram hl1 (hd2.trans hram) (by simp [bootStores])
        by_cases h1 : va / 2 ^ 21 % 512 = 0
        · rw [h.stores.leafAt (e := ramBlock) (by simp [bootStores]) hl2 (hd1.trans h1) rfl,
            lowLeaf,
            if_neg (by simp only [uartPa, pageSize]; omega), if_pos (by omega)]
        · rw [h.blocked hl2 (by simp [bootStores, hd1]; omega), hnone (by omega)]
      · rw [h.blocked hl1 (by simp [bootStores, hd2]; omega), hnone (by omega)]
  · rw [h.blocked hroot (by simp [bootStores, hd3]; omega), hnone (by omega)]

/-- The upper half: the gigabyte that RAM starts with, twice, and the page of the UART. -/
theorem leafAt_high (hva : UpperHalf va) :
    leafAt tables (BootTable.kernelL0.pa base) va = highLeaf va := by
  have hrange : 2 ^ 64 - 2 ^ 48 ≤ va ∧ va < 2 ^ 64 := hva
  have hdigits : Radix.digit 512 3 (key va) = va / 2 ^ 39 % 512 ∧
      Radix.digit 512 2 (key va) = va / 2 ^ 30 % 512 ∧
        Radix.digit 512 1 (key va) = va / 2 ^ 21 % 512 ∧
      Radix.digit 512 0 (key va) = va / 2 ^ 12 % 512 := by
    simp only [Radix.digit, key, pageSize]
    omega
  obtain ⟨hd3, hd2, hd1, hd0⟩ := hdigits
  by_cases hlinear : 0x40000000 + kernelLinearBase ≤ va ∧ va < 0x80000000 + kernelLinearBase
  · rw [h.stores.leafAt_linear hbase hend hlinear.1 hlinear.2, highLeaf, if_pos hlinear]
  by_cases hdevice : uartPa + kernelDeviceBase ≤ va ∧ va < uartPa + kernelDeviceBase + pageSize
  · rw [h.stores.leafAt_uart hbase hend hdevice.1 hdevice.2, highLeaf, if_neg hlinear,
      if_pos hdevice]
  by_cases himage : kernelImageBase ≤ va ∧ va < kernelImageBase + 0x40000000
  · rw [h.stores.leafAt_image hbase hend himage.1 himage.2, highLeaf, if_neg hlinear,
      if_neg hdevice,
      if_pos himage]
  rw [highLeaf, if_neg hlinear, if_neg hdevice, if_neg himage]
  simp only [uartPa, kernelLinearBase, kernelDeviceBase, kernelImageBase,
    pageSize] at hlinear hdevice himage
  have hroot : Radix.Path 512 decode tables 3 (BootTable.kernelL0.pa base) (key va) 3
      (BootTable.kernelL0.pa base) := .root
  by_cases h3 : va / 2 ^ 39 % 512 = 256
  · have hl1 := h.passes hbase hend .kernelL1 hroot (hd3.trans h3) (by simp [bootStores])
    exact h.blocked hl1 (by simp [bootStores, hd2]; omega)
  by_cases h3' : va / 2 ^ 39 % 512 = 511
  · have hl1 := h.passes hbase hend .imageL1 hroot (hd3.trans h3') (by simp [bootStores])
    exact h.blocked hl1 (by simp [bootStores, hd2]; omega)
  by_cases h3'' : va / 2 ^ 39 % 512 = 384
  · have hl1 := h.passes hbase hend .deviceL1 hroot (hd3.trans h3'') (by simp [bootStores])
    by_cases h2 : va / 2 ^ 30 % 512 = 0
    · have hl2 := h.passes hbase hend .deviceL2 hl1 (hd2.trans h2) (by simp [bootStores])
      by_cases h1 : va / 2 ^ 21 % 512 = 72
      · have hl3 := h.passes hbase hend .deviceL3 hl2 (hd1.trans h1) (by simp [bootStores])
        exact h.blocked hl3 (by simp [bootStores, hd0]; omega)
      · exact h.blocked hl2 (by simp [bootStores, hd1]; omega)
    · exact h.blocked hl1 (by simp [bootStores, hd2]; omega)
  · exact h.blocked hroot (by simp [bootStores, hd3]; omega)

end Trampoline

/-! ## Values that the code puts together -/

theorem movk_mair :
    0x44FF#64 &&& ~~~(0xFFFF#64 <<< 16) ||| (0x0400#16).setWidth 64 <<< 16 = word mairValue := by
  decide

theorem movk_tcr : (0x3510#64 &&& ~~~(0xFFFF#64 <<< 16) ||| (0xB550#16).setWidth 64 <<< 16) &&&
    ~~~(0xFFFF#64 <<< 32) ||| (0x0025#16).setWidth 64 <<< 32 = word Cpu.tcrValue := by
  decide

theorem movk_linearBase :
    (0xFFFF#64 <<< 48) &&& ~~~(0xFFFF#64 <<< 32) ||| (0x8000#16).setWidth 64 <<< 32 =
    word kernelLinearBase := by
  decide

theorem or_linearBase {a : Word} (h : a.toNat < 2 ^ 47) :
    a ||| word kernelLinearBase = word (a.toNat + kernelLinearBase) := by
  have hdisjoint : a.toNat ||| kernelLinearBase = a.toNat + kernelLinearBase := by
    rw [Nat.or_comm, Nat.add_comm]
    exact (Nat.two_pow_add_eq_or_of_lt h (2 ^ 17 - 1)).symm
  apply BitVec.eq_of_toNat_eq
  rw [BitVec.toNat_or, toNat_word (by decide), hdisjoint, toNat_word]
  simp only [kernelLinearBase] at *
  omega

/-! ## Addresses through the trampoline -/

/-- Translation is on, with the identity map of the trampoline at `base` in the low half. -/
structure LowHalf (base : ℕ) (s : State) : Prop where
  base_aligned : base % pageSize = 0
  base_end : base + bootTablePages * pageSize ≤ 2 ^ 48
  el : s.el = 1
  on : mmuOn (s.sys .sctlrEl1) = true
  little : bigEndian (s.sys .sctlrEl1) = false
  tcr : s.sys .tcrEl1 = word Cpu.tcrValue
  tables : Trampoline base (tablesOf s.mem)
  ttbr0 : tableBase (s.sys .ttbr0El1).toNat = BootTable.idmapL0.pa base

/-- Both halves go through the trampoline. -/
structure Translating (base : ℕ) (s : State) : Prop extends LowHalf base s where
  ttbr1 : tableBase (s.sys .ttbr1El1).toNat = BootTable.kernelL0.pa base

theorem mmuOn_or_one (v : Word) : mmuOn (v ||| 1) = true := by
  rw [mmuOn, BitVec.getLsbD_or]
  exact Bool.or_true _

theorem writeImpliesXn_or_one (v : Word) : writeImpliesXn (v ||| 1) = writeImpliesXn v := by
  rw [writeImpliesXn, BitVec.getLsbD_or]
  exact Bool.or_false _

theorem bigEndian_or_one (v : Word) : bigEndian (v ||| 1) = bigEndian v := by
  rw [bigEndian, BitVec.getLsbD_or]
  exact Bool.or_false _

/-- Where an access ends up whose walk ends in a leaf. -/
def throughLeaf (wxn : Bool) (kind : AccessKind) (va : ℕ) (leaf : ℕ × ℕ) : Option Word :=
  if permits wxn kind (leafMapping va leaf).attrs then some (word (leafMapping va leaf).pa)
    else none

private theorem throughLeaf_ram (wxn : Bool) (kind : AccessKind) (va n : ℕ) :
    throughLeaf wxn kind va (n, ramBlock) =
      if wxn = true ∧ kind = .fetch then none
        else some (word (leafMapping va (n, ramBlock)).pa) := by
  have hpermits :
      permits wxn kind (Entry.attrs ramBlock) = decide (¬ (wxn = true ∧ kind = .fetch)) := by
    cases wxn <;> cases kind <;> decide
  change (if permits wxn kind (Entry.attrs ramBlock) then _ else _) = _
  rw [hpermits]
  simp only [decide_eq_true_eq, ite_not]

private theorem throughLeaf_uart (wxn : Bool) (kind : AccessKind) (va : ℕ) :
    throughLeaf wxn kind va (0, uartLeaf) =
      if kind = .fetch then none else some (word (uartPa + va % pageSize)) := by
  have hpermits : permits wxn kind (Entry.attrs uartLeaf) = decide (¬ kind = .fetch) := by
    cases wxn <;> cases kind <;> decide
  change (if permits wxn kind (Entry.attrs uartLeaf) then _ else _) = _
  rw [hpermits]
  simp only [decide_eq_true_eq, ite_not]
  rfl

section Accesses

variable {base : ℕ} {s t : State} {kind : AccessKind} {va : Word}

private theorem mmu_eq_leaf (hel : s.el = 1) (hon : mmuOn (s.sys .sctlrEl1) = true)
    (hlittle : bigEndian (s.sys .sctlrEl1) = false) {root : ℕ}
    (hroot : rootOf s va.toNat = some root) :
    mmu s kind va = (leafAt (tablesOf s.mem) root va.toNat).bind
      (throughLeaf (writeImpliesXn (s.sys .sctlrEl1)) kind va.toNat) := by
  simp only [mmu, hel, hon, hlittle, if_true, stageOne, hroot, walk, Option.bind_eq_bind,
    Option.bind_some]
  cases leafAt (tablesOf s.mem) root va.toNat <;> rfl

private theorem LowHalf.mmu_low (h : LowHalf base s) (hva : va.toNat < 2 ^ 48) :
    mmu s kind va = (lowLeaf va.toNat).bind
      (throughLeaf (writeImpliesXn (s.sys .sctlrEl1)) kind va.toNat) := by
  have hroot : rootOf s va.toNat = some (BootTable.idmapL0.pa base) := by
    rw [rootOf, h.tcr, h.ttbr0, if_neg (by decide), if_pos hva]
    rfl
  rw [mmu_eq_leaf h.el h.on h.little hroot, h.tables.leafAt_low h.base_aligned h.base_end hva]

/-- The first two megabytes of RAM stay where they are, unless `WXN` forbids to fetch from them. -/
theorem LowHalf.mmu_ram (h : LowHalf base s) (hlo : 0x40000000 ≤ va.toNat)
    (hhi : va.toNat < 0x40200000) : mmu s kind va =
      if writeImpliesXn (s.sys .sctlrEl1) ∧ kind = .fetch then none else some va := by
  have hleaf : lowLeaf va.toNat = some (1, ramBlock) := by
    rw [lowLeaf, if_neg (by simp only [uartPa, pageSize]; omega), if_pos ⟨hlo, hhi⟩]
  have hpa : (leafMapping va.toNat (1, ramBlock)).pa = va.toNat := by
    simp only [leafMapping, show Entry.outputAddr ramBlock = 0x40000000 by decide,
      show leafSize 1 = 0x200000 by decide]
    omega
  rw [h.mmu_low (by omega), hleaf, Option.bind_some, throughLeaf_ram, hpa, word_toNat]

theorem LowHalf.mmu_uart (h : LowHalf base s) (hlo : uartPa ≤ va.toNat)
    (hhi : va.toNat < uartPa + pageSize) : mmu s kind va = if kind = .fetch then none
      else some va := by
  have hleaf : lowLeaf va.toNat = some (0, uartLeaf) := by rw [lowLeaf, if_pos ⟨hlo, hhi⟩]
  have hpa : uartPa + va.toNat % pageSize = va.toNat := by
    simp only [uartPa, pageSize] at *
    omega
  rw [h.mmu_low (by simp only [uartPa, pageSize] at hhi; omega), hleaf, Option.bind_some,
    throughLeaf_uart, hpa, word_toNat]

/-- And nothing else. -/
theorem LowHalf.mmu_none (h : LowHalf base s) (hva : va.toNat < 2 ^ 48)
    (hram : ¬ (0x40000000 ≤ va.toNat ∧ va.toNat < 0x40200000))
    (huart : ¬ (uartPa ≤ va.toNat ∧ va.toNat < uartPa + pageSize)) : mmu s kind va = none := by
  rw [h.mmu_low hva, lowLeaf, if_neg huart, if_neg hram]
  rfl

theorem LowHalf.mmu_identity (h : LowHalf base s) (hwxn : writeImpliesXn (s.sys .sctlrEl1) = false)
    (hlo : 0x40000000 ≤ va.toNat) (hhi : va.toNat < 0x40200000) : mmu s kind va = some va := by
  rw [h.mmu_ram hlo hhi, if_neg fun hno => Bool.false_ne_true (hwxn.symm.trans hno.1)]

namespace Translating

theorem congr (h : Translating base s) (hel : t.el = s.el) (hsys : t.sys = s.sys)
    (hmem : t.mem = s.mem) :
    Translating base t where
  base_aligned := h.base_aligned
  base_end := h.base_end
  el := by rw [hel, h.el]
  on := by rw [hsys, h.on]
  little := by rw [hsys, h.little]
  tcr := by rw [hsys, h.tcr]
  tables := by rw [hmem]; exact h.tables
  ttbr0 := by rw [hsys, h.ttbr0]
  ttbr1 := by rw [hsys, h.ttbr1]

private theorem mmu_high (h : Translating base s) (hva : UpperHalf va.toNat) :
    mmu s kind va = (highLeaf va.toNat).bind
      (throughLeaf (writeImpliesXn (s.sys .sctlrEl1)) kind va.toNat) := by
  have hnot : ¬ va.toNat < 2 ^ 48 := by
    have hlo := hva.1
    omega
  have hroot : rootOf s va.toNat = some (BootTable.kernelL0.pa base) := by
    rw [rootOf, h.tcr, h.ttbr1, if_neg (by decide), if_neg hnot, if_pos hva]
    rfl
  rw [mmu_eq_leaf h.el h.on h.little hroot, h.tables.leafAt_high h.base_aligned h.base_end hva]

private theorem mmu_block (h : Translating base s)
    (hwxn : writeImpliesXn (s.sys .sctlrEl1) = false) {va pa : ℕ}
    (hva : UpperHalf va) (hleaf : highLeaf va = some (2, ramBlock))
    (hpa : (leafMapping va (2, ramBlock)).pa = pa) : mmu s kind (word va) = some (word pa) := by
  have hval : (word va).toNat = va := toNat_word hva.2
  rw [h.mmu_high (hval.symm ▸ hva), hval, hleaf, Option.bind_some, throughLeaf_ram,
    if_neg fun hno => Bool.false_ne_true (hwxn.symm.trans hno.1), hpa]

theorem mmu_image (h : Translating base s)
    (hwxn : writeImpliesXn (s.sys .sctlrEl1) = false) {va : ℕ}
    (hlo : kernelImageBase ≤ va) (hhi : va < kernelImageBase + 0x40000000) :
    mmu s kind (word va) = some (word (imagePa va)) := by
  apply h.mmu_block hwxn (image_upperHalf hlo (by simp only [kernelImageBase] at *; omega))
  · rw [highLeaf, if_neg (by simp only [kernelImageBase, kernelLinearBase] at *; omega),
      if_neg (by simp only [kernelImageBase, kernelDeviceBase, uartPa, pageSize] at *; omega),
      if_pos ⟨hlo, hhi⟩]
  · rw [ramBlock_pa]
    simp only [imagePa, kernelImageBase, imagePaBase] at *
    omega

theorem mmu_linear (h : Translating base s)
    (hwxn : writeImpliesXn (s.sys .sctlrEl1) = false) {pa : ℕ}
    (hlo : 0x40000000 ≤ pa) (hhi : pa < 0x80000000) :
    mmu s kind (word (pa + kernelLinearBase)) = some (word pa) := by
  apply h.mmu_block hwxn (linear_upperHalf (by omega))
  · rw [highLeaf, if_pos ⟨by omega, by omega⟩]
  · rw [ramBlock_pa]
    simp only [kernelLinearBase] at *
    omega

theorem mmu_device (h : Translating base s) {n : ℕ} (hn : n < pageSize) :
    mmu s kind (word (uartPa + kernelDeviceBase + n)) =
      if kind = .fetch then none else some (word (uartPa + n)) := by
  have hval : (word (uartPa + kernelDeviceBase + n)).toNat = uartPa + kernelDeviceBase + n :=
    toNat_word (by simp only [uartPa, kernelDeviceBase, pageSize] at *; omega)
  have hupper : UpperHalf (uartPa + kernelDeviceBase + n) := by
    simp only [UpperHalf, uartPa, kernelDeviceBase, pageSize] at *
    omega
  have hleaf : highLeaf (uartPa + kernelDeviceBase + n) = some (0, uartLeaf) := by
    rw [highLeaf, if_neg (by simp only [uartPa, kernelDeviceBase, kernelLinearBase] at *; omega),
      if_pos ⟨by omega, by omega⟩]
  have hpa : (uartPa + kernelDeviceBase + n) % pageSize = n := by
    simp only [uartPa, kernelDeviceBase, pageSize] at *
    omega
  rw [h.mmu_high (hval.symm ▸ hupper), hval, hleaf, Option.bind_some, throughLeaf_uart, hpa]

theorem mmu_none (h : Translating base s) (hva : UpperHalf va.toNat)
    (hlinear : ¬ (0x40000000 + kernelLinearBase ≤ va.toNat ∧
      va.toNat < 0x80000000 + kernelLinearBase))
    (hdevice : ¬ (uartPa + kernelDeviceBase ≤ va.toNat ∧
      va.toNat < uartPa + kernelDeviceBase + pageSize))
    (himage : ¬ (kernelImageBase ≤ va.toNat ∧ va.toNat < kernelImageBase + 0x40000000)) :
    mmu s kind va = none := by
  rw [h.mmu_high hva, highLeaf, if_neg hlinear, if_neg hdevice, if_neg himage]
  rfl

end Translating

end Accesses

end Preon.Boot
