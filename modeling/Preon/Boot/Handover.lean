import Preon.Boot.StubRun

/-!
# What the boot stub hands over

The tables in memory are the ones that `bootTables` describes, so the stub goes on executing when
translation comes on, and `kmain` finds its code, its stack and the device tree through `TTBR1_EL1`.
-/

namespace Preon.Boot

open Framework MappedCode Memory WordMemory

/-! ## The tables in memory -/

private theorem load_zero (a : Word) : load (fun _ => 0) a = 0 := by
  rw [load]
  decide

private theorem load_eq_zero {mem : WordMemory} {a : Word} (h : ∀ x, InRun a 8 x → mem x = 0) :
    load mem a = 0 :=
  (load_congr h).trans (load_zero a)

private theorem tablesOf_clear {mem : WordMemory} {a n p i : ℕ} (h : Place p i) (ha : pageSize ∣ a)
    (hn : pageSize ∣ n) (hlt : a + n ≤ 2 ^ 48) :
    tablesOf (clear mem (word a) n) p i = if a ≤ p ∧ p < a + n then 0 else tablesOf mem p i := by
  obtain ⟨⟨q, hq⟩, hp, hi⟩ := h
  obtain ⟨b, hb⟩ := ha
  obtain ⟨m, hm⟩ := hn
  rw [pageSize] at hq hb hm
  by_cases hin : a ≤ p ∧ p < a + n
  · have hzero : load (clear mem (word a) n) (BitVec.ofNat 64 (p + 8 * i)) = 0 := by
      apply load_eq_zero
      intro x hx
      apply clear_apply_of_inRun
      simp only [InRun, word] at hx ⊢
      bv_omega
    rw [if_pos hin, tablesOf, hzero]
    rfl
  · rw [if_neg hin, tablesOf, tablesOf]
    congr 1
    apply load_congr
    intro x hx
    apply clear_apply_of_not_inRun
    simp only [InRun, word] at hx ⊢
    bv_omega

section Built

variable {sym : Symbols} {pool : Word → Word} {s t : State}

private theorem tablesOf_foldl {base : ℕ} {stores : List (BootTable × ℕ × ℕ)}
    (hplace : ∀ st ∈ stores, Place (st.1.pa base) st.2.1 ∧ st.2.2 < 2 ^ 64) {mem : WordMemory}
    {tables : ℕ → ℕ → ℕ} {p i : ℕ} (h : Place p i) (hmem : tablesOf mem p i = tables p i) :
    tablesOf (stores.foldl (storeTable base) mem) p i =
      stores.foldl (fun tables st => Radix.write tables (st.1.pa base) st.2.1 st.2.2)
        tables p i := by
  induction stores generalizing mem tables with
  | nil => exact hmem
  | cons st stores ih =>
      rw [List.forall_mem_cons] at hplace
      rw [List.foldl_cons, List.foldl_cons]
      apply ih hplace.2
      rw [storeTable, word, tablesOf_store hplace.1.1 h, toNat_word hplace.1.2]
      by_cases hsame : p = st.1.pa base ∧ i = st.2.1
      · rw [hsame.1, hsame.2, Radix.write_self, Radix.write_self]
      · rw [Radix.write_of_ne _ _ hsame, Radix.write_of_ne _ _ hsame, hmem]

private theorem bss_pages (hlink : Linked sym pool) :
    pageSize ∣ imagePa sym.bssStart ∧ pageSize ∣ sym.bssEnd - sym.bssStart ∧
      imagePa sym.bssStart + (sym.bssEnd - sym.bssStart) = imagePa sym.bssEnd := by
  obtain ⟨hstart, hend⟩ := hlink.bss_aligned
  have hordered := hlink.bss_ordered
  have habove := hlink.bss_above
  refine ⟨?_, Nat.dvd_sub hend hstart, ?_⟩
  · exact (Nat.dvd_add_right (Nat.dvd_sub hstart (by decide))).mpr (by decide)
  · simp only [imagePa]
    omega

private theorem Built.tablesOf_eq (hlink : Linked sym pool) (h : Built sym s t) {p i : ℕ}
    (hp : Place p i)
    (hbss : ¬ (imagePa sym.bssStart ≤ p ∧ p < imagePa sym.bssEnd)) :
    tablesOf t.mem p i = bootTables sym.idmapL0 (tablesOf s.mem) p i := by
  obtain ⟨haligned, hsize, hend⟩ := bss_pages hlink
  have hkept : tablesOf (clear s.mem sym.bssStartPa (sym.bssEnd - sym.bssStart)) p i =
      tablesOf s.mem p i := by
    have hlt : imagePa sym.bssEnd ≤ 2 ^ 48 := by
      have hstack := hlink.stack_above
      have hbelow := hlink.stack_below
      simp only [imagePa, kernelImageBase, imagePaBase] at *
      omega
    rw [Symbols.bssStartPa, tablesOf_clear hp haligned hsize (by rw [hend]; exact hlt),
      hend, if_neg hbss]
  rw [h.mem, bootTables]
  apply tablesOf_foldl (bootStores_place hlink) hp
  rw [clearTables, Symbols.table,
    tablesOf_clear hp (table_place hlink _).1 (Nat.dvd_mul_left ..), hkept]
  · rfl
  · have hlast := hlink.tables_below
    simp only [BootTable.pa, BootTable.position, bootTablePages, pageSize] at *
    omega

private theorem table_not_bss (hlink : Linked sym pool) (table : BootTable) :
    ¬ (imagePa sym.bssStart ≤ table.pa sym.idmapL0 ∧
      table.pa sym.idmapL0 < imagePa sym.bssEnd) := by
  have hlt := table_lt hlink table
  have habove := hlink.bss_above
  simp only [imagePa, kernelImageBase, imagePaBase] at *
  omega

private theorem Built.trampoline (hlink : Linked sym pool) (h : Built sym s t) :
    Trampoline sym.idmapL0 (tablesOf t.mem) := by
  have hexact := bootTables_trampoline sym.idmapL0 (tablesOf s.mem)
  constructor
  · intro st hst
    rw [h.tablesOf_eq hlink (bootStores_place hlink st hst).1 (table_not_bss hlink st.1)]
    exact hexact.stores st hst
  · intro table slot hslot hnot
    have hlt := table_lt hlink table
    rw [h.tablesOf_eq hlink ⟨(table_place hlink table).1, by omega, hslot⟩
      (table_not_bss hlink table)]
    exact hexact.empty table slot hslot hnot

/-! ## Through the identity map -/

private theorem tableBase_table (hlink : Linked sym pool) (table : BootTable) :
    tableBase (sym.table table).toNat = table.pa sym.idmapL0 := by
  have hlt := table_lt hlink table
  exact tableBase_word (table_place hlink table).1 (by omega)

private theorem Built.translating (hlink : Linked sym pool) (h : Built sym s t)
    (hlittle : bigEndian (s.sys .sctlrEl1) = false) : Translating sym.idmapL0 t where
  base_aligned := Nat.mod_eq_zero_of_dvd hlink.tables_aligned
  base_end := hlink.tables_below.trans (by decide)
  el := h.el
  on := by
    rw [h.sctlr]
    exact mmuOn_or_one _
  little := by
    rw [h.sctlr, bigEndian_or_one]
    exact hlittle
  tcr := h.tcr
  tables := h.trampoline hlink
  ttbr0 := by rw [h.ttbr0, tableBase_table hlink]
  ttbr1 := by rw [h.ttbr1, tableBase_table hlink]

private theorem executes_translating (hlink : Linked sym pool) (h : Translating sym.idmapL0 s)
    (hwxn : writeImpliesXn (s.sys .sctlrEl1) = false) :
    (bootImage sym pool).Executes (Alike s) (word physLoadBase) (bootCode sym) := by
  apply executes_alike hlink
  intro a hlo hhi
  have hbelow := hlink.tables_below
  have hram : 0x40000000 ≤ a.toNat := Nat.le_trans (by decide) hlo
  exact ⟨h.mmu_identity hwxn hram (by omega), h.mmu_identity hwxn hram (by omega)⟩

private theorem runs_handover (hlink : Linked sym pool) (h : Translating sym.idmapL0 s)
    (hwxn : writeImpliesXn (s.sys .sctlrEl1) = false) :
    ∃ t : State, (bootImage sym pool).Runs (s.atInstr (word physLoadBase) 113) t ∧ Alike s t ∧
      t.pc = word sym.kmain ∧ t.sp 1 = word sym.stackTop ∧
      t.x 0 = s.x 20 ||| word kernelLinearBase := by
  have hex := executes_translating hlink h hwxn
  have hstay : (bootImage sym pool).Stable (Alike s) (handover sym) := stable_alike rfl
  have hruns := hex.runs_ops (k := 113) rfl hstay ⟨rfl, rfl, rfl⟩
    (by simp [handover, Op.level]) (List.forall_mem_nil _)
  have hstate := MappedCode.Image.Executes.stable_run hstay (s := s) ⟨rfl, rfl, rfl⟩
  have hbranch := hex.step (k := 121) hstate rfl
  rw [MappedCode.Image.execInstr] at hbranch
  refine ⟨_, hruns.trans (.single hbranch), hstate, rfl, ?_, ?_⟩
  · rw [← h.el]
    exact Function.update_self ..
  · rw [← movk_linearBase]
    rfl

/-! ## What stands in memory -/

private theorem foldl_storeTable_apply {base : ℕ} {stores : List (BootTable × ℕ × ℕ)}
    {mem : WordMemory} {a : Word}
    (hapart : ∀ st ∈ stores, ¬ InRun (word (st.1.pa base + 8 * st.2.1)) 8 a) :
    stores.foldl (storeTable base) mem a = mem a := by
  induction stores generalizing mem with
  | nil => rfl
  | cons st stores ih =>
      rw [List.forall_mem_cons] at hapart
      rw [List.foldl_cons, ih hapart.2, storeTable, store_apply_of_not_inRun hapart.1]

/-- Outside the table pages only `.bss` has changed. -/
theorem Built.mem_apply (hlink : Linked sym pool) (h : Built sym s t) {a : Word}
    (hout : ¬ (sym.idmapL0 ≤ a.toNat ∧ a.toNat < sym.idmapL0 + bootTablePages * pageSize)) :
    t.mem a = clear s.mem sym.bssStartPa (sym.bssEnd - sym.bssStart) a := by
  have hbelow := hlink.tables_below
  rw [h.mem, foldl_storeTable_apply, clear_apply_of_not_inRun]
  · rw [Symbols.table, InRun, word]
    simp only [BootTable.pa, BootTable.position, bootTablePages, pageSize] at *
    bv_omega
  · intro st hst
    obtain ⟨-, hlo, hhi⟩ := table_place hlink st.1
    obtain ⟨⟨-, -, hslot⟩, -⟩ := bootStores_place hlink st hst
    rw [InRun, word]
    simp only [bootTablePages, pageSize] at *
    bv_omega

private theorem inRun_bss (hlink : Linked sym pool) (a : Word) :
    InRun sym.bssStartPa (sym.bssEnd - sym.bssStart) a ↔
      imagePa sym.bssStart ≤ a.toNat ∧ a.toNat < imagePa sym.bssEnd := by
  have hordered := hlink.bss_ordered
  have habove := hlink.bss_above
  have hstack := hlink.stack_above
  have hbelow := hlink.stack_below
  simp only [InRun, Symbols.bssStartPa, word, imagePa, kernelImageBase, imagePaBase] at *
  bv_omega

/-! ## The whole run -/

/-- What the tables of the stub translate, at EL1 and with `WXN` clear: below, the first two
megabytes of RAM and the page of the UART onto themselves; above, the gigabyte of RAM that the image
is in by its linear and by its image addresses, and the page of the UART.  Nobody fetches from the
UART. -/
structure TrampolineMap (t : State) : Prop where
  low_ram : ∀ (a : Word) kind, 0x40000000 ≤ a.toNat → a.toNat < 0x40200000 → mmu t kind a = some a
  low_uart : ∀ (a : Word) kind, uartPa ≤ a.toNat → a.toNat < uartPa + pageSize →
    mmu t kind a = if kind = .fetch then none else some a
  low_only : ∀ (a : Word) kind, a.toNat < 2 ^ 48 → ¬ (0x40000000 ≤ a.toNat ∧ a.toNat < 0x40200000) →
    ¬ (uartPa ≤ a.toNat ∧ a.toNat < uartPa + pageSize) → mmu t kind a = none
  image : ∀ va kind, kernelImageBase ≤ va → va < kernelImageBase + 0x40000000 →
    mmu t kind (word va) = some (word (imagePa va))
  linear : ∀ pa kind, 0x40000000 ≤ pa → pa < 0x80000000 →
    mmu t kind (word (pa + kernelLinearBase)) = some (word pa)
  device : ∀ n kind, n < pageSize → mmu t kind (word (uartPa + kernelDeviceBase + n)) =
    if kind = .fetch then none else some (word (uartPa + n))
  high_only : ∀ (a : Word) kind, UpperHalf a.toNat →
    ¬ (0x40000000 + kernelLinearBase ≤ a.toNat ∧ a.toNat < 0x80000000 + kernelLinearBase) →
    ¬ (uartPa + kernelDeviceBase ≤ a.toNat ∧ a.toNat < uartPa + kernelDeviceBase + pageSize) →
    ¬ (kernelImageBase ≤ a.toNat ∧ a.toNat < kernelImageBase + 0x40000000) → mmu t kind a = none

private theorem Translating.trampolineMap {base : ℕ} (h : Translating base t)
    (hwxn : writeImpliesXn (t.sys .sctlrEl1) = false) : TrampolineMap t where
  low_ram _ _ hlo hhi := h.mmu_identity hwxn hlo hhi
  low_uart _ _ hlo hhi := h.mmu_uart hlo hhi
  low_only _ _ hlow hram huart := h.toLowHalf.mmu_none hlow hram huart
  image _ _ hlo hhi := h.mmu_image hwxn hlo hhi
  linear _ _ hlo hhi := h.mmu_linear hwxn hlo hhi
  device _ _ hn := h.mmu_device hn
  high_only _ _ hhigh hlinear hdevice himage := h.mmu_none hhigh hlinear hdevice himage

/-- What `kmain` is entered with, after the loader's jump in `s`: its stack, its argument, the
registers, the translation, and memory with `.bss` clear and the trampoline in its pages. -/
structure HandedOver (sym : Symbols) (s t : State) : Prop where
  pc : t.pc = word sym.kmain
  el : t.el = 1
  stack : t.sp 1 = word sym.stackTop
  fdt : t.x 0 = s.x 0 ||| word kernelLinearBase
  sctlr : t.sys .sctlrEl1 = s.sys .sctlrEl1 ||| 1
  mair : t.sys .mairEl1 = word mairValue
  tcr : TcrConfig.install = .ok (t.sys .tcrEl1).toNat
  cpacr : t.sys .cpacrEl1 = s.sys .cpacrEl1 ||| 0x300000
  translates : TrampolineMap t
  blob : ∀ n kind, 0x40000000 ≤ (s.x 0).toNat → (s.x 0).toNat + n < 0x80000000 →
    mmu t kind (t.x 0 + word n) = some (s.x 0 + word n)
  bss : ∀ a : Word, imagePa sym.bssStart ≤ a.toNat → a.toNat < imagePa sym.bssEnd → t.mem a = 0
  tables : ∀ p i, Place p i → ¬ (imagePa sym.bssStart ≤ p ∧ p < imagePa sym.bssEnd) →
    tablesOf t.mem p i = bootTables sym.idmapL0 (tablesOf s.mem) p i
  kept : ∀ a : Word, ¬ (imagePa sym.bssStart ≤ a.toNat ∧ a.toNat < imagePa sym.bssEnd) →
    ¬ (sym.idmapL0 ≤ a.toNat ∧ a.toNat < sym.idmapL0 + bootTablePages * pageSize) →
      t.mem a = s.mem a

private theorem Built.handedOver (hlink : Linked sym pool) {u v : State} (hentered : Entered s t)
    (h : Built sym t u) (hon : Translating sym.idmapL0 u)
    (hwxn : writeImpliesXn (u.sys .sctlrEl1) = false) (halike : Alike u v)
    (hpc : v.pc = word sym.kmain) (hstack : v.sp 1 = word sym.stackTop)
    (hfdt : v.x 0 = u.x 20 ||| word kernelLinearBase) : HandedOver sym s v := by
  have hfdt' : v.x 0 = s.x 0 ||| word kernelLinearBase := by
    rw [hfdt, h.fdt, hentered.fdt]
  have hmap : TrampolineMap v := by
    apply (hon.congr halike.1 halike.2.1 halike.2.2).trampolineMap
    rw [halike.2.1]
    exact hwxn
  constructor
  · exact hpc
  · exact halike.1.trans h.el
  · exact hstack
  · exact hfdt'
  · rw [halike.2.1, h.sctlr, hentered.sys _ rfl]
  · rw [halike.2.1, h.mair]
  · rw [halike.2.1, h.tcr]
    rfl
  · rw [halike.2.1, h.cpacr, hentered.sys _ rfl]
  · exact hmap
  · intro n kind hlo hhi
    have hsum : v.x 0 + word n = word ((s.x 0).toNat + n + kernelLinearBase) := by
      rw [hfdt', or_linearBase (by omega), Nat.add_right_comm (s.x 0).toNat n]
      exact (word_add _ n).symm
    have hpa : s.x 0 + word n = word ((s.x 0).toNat + n) := by
      rw [word_add, word, word, BitVec.ofNat_toNat, BitVec.setWidth_eq]
    rw [hsum, hpa]
    exact hmap.linear _ kind (by omega) hhi
  · intro a hlo hhi
    have hout : ¬ (sym.idmapL0 ≤ a.toNat ∧ a.toNat < sym.idmapL0 + bootTablePages * pageSize) := by
      have hbelow := hlink.tables_below
      have habove := hlink.bss_above
      simp only [imagePa, kernelImageBase, imagePaBase] at *
      omega
    rw [halike.2.2, h.mem_apply hlink hout,
      clear_apply_of_inRun ((inRun_bss hlink a).mpr ⟨hlo, hhi⟩)]
  · intro p i hp hbss
    rw [halike.2.2, h.tablesOf_eq hlink hp hbss, hentered.mem]
  · intro a hbss hout
    rw [halike.2.2, h.mem_apply hlink hout,
      clear_apply_of_not_inRun (mt (inRun_bss hlink a).mp hbss),
      hentered.mem]

/-- Stuck behind the write that turned translation on: the stub itself is writable memory. -/
structure FetchDenied (s t : State) : Prop where
  pc : t.pc = word physLoadBase + BitVec.ofNat 64 (4 * 113)
  sctlr : t.sys .sctlrEl1 = s.sys .sctlrEl1 ||| 1
  denied : mmu t .fetch t.pc = none

private theorem Translating.fetchDenied {base : ℕ} (h : Translating base t)
    (hwxn : writeImpliesXn (t.sys .sctlrEl1) = true)
    (hsctlr : t.sys .sctlrEl1 = s.sys .sctlrEl1 ||| 1) :
    FetchDenied s (t.atInstr (word physLoadBase) 113) where
  pc := rfl
  sctlr := hsctlr
  denied := by
    have hpc := toNat_instr (show 113 < 128 by decide)
    have hmoved : Translating base (t.atInstr (word physLoadBase) 113) := h.congr rfl rfl rfl
    change mmu (t.atInstr (word physLoadBase) 113) .fetch
      (word physLoadBase + BitVec.ofNat 64 (4 * 113)) = _
    rw [hmoved.mmu_ram (by rw [hpc]; decide) (by rw [hpc]; decide)]
    exact if_pos ⟨hwxn, rfl⟩

/-- From EL1, or from EL2 with its own MMU off, the stub comes to `kmain` with everything set up,
unless `SCTLR_EL1.WXN` is set: then it cannot fetch its next instruction once translation is on. -/
theorem boots (hlink : Linked sym pool) (hel : s.el = 1 ∨ OffAt 2 s)
    (hoff : plain (s.sys .sctlrEl1) = true) :
    (writeImpliesXn (s.sys .sctlrEl1) = false →
      ∃ t : State, (bootImage sym pool).Runs (s.goto (word physLoadBase)) t ∧ HandedOver sym s t) ∧
    (writeImpliesXn (s.sys .sctlrEl1) = true →
      ∃ t : State, (bootImage sym pool).Runs (s.goto (word physLoadBase)) t ∧ FetchDenied s t) := by
  have hentry : ∃ t : State, (bootImage sym pool).Runs (s.atInstr (word physLoadBase) 0)
      (t.atInstr (word physLoadBase) 22) ∧ Entered s t := by
    cases hel with
    | inl hel =>
        obtain ⟨t, hruns, -, ht⟩ := runs_probe (executes_off hlink 1) (stable_off rfl)
          (offAt_one hel hoff) hel
        exact ⟨t, hruns, ht⟩
    | inr hs => exact runs_drop hlink hs
  obtain ⟨t, hentry, ht⟩ := hentry
  obtain ⟨u, hbuild, hu⟩ := runs_built hlink (ht.off hoff)
  have hsctlr : u.sys .sctlrEl1 = s.sys .sctlrEl1 ||| 1 := by rw [hu.sctlr, ht.sys _ rfl]
  have hwxn : writeImpliesXn (u.sys .sctlrEl1) = writeImpliesXn (s.sys .sctlrEl1) := by
    rw [hsctlr, writeImpliesXn_or_one]
  have hon : Translating sym.idmapL0 u :=
    hu.translating hlink (by rw [ht.sys _ rfl]; exact (plain_iff.mp hoff).2)
  rw [goto_start, ← hwxn]
  constructor
  · intro hclear
    obtain ⟨v, hjump, halike, hpc, hstack, hfdt⟩ := runs_handover hlink hon hclear
    exact ⟨v, (hentry.trans hbuild).trans hjump,
      hu.handedOver hlink ht hon hclear halike hpc hstack hfdt⟩
  · intro hset
    exact ⟨_, hentry.trans hbuild, hon.fetchDenied hset hsctlr⟩

end Built

/-- Entered at EL2 with clear registers, and at EL1 with `WXN` set. -/
theorem boots_el2_wxn :
    (∃ t : State,
      (bootImage linkedSymbols linkedPool).Runs ((entryState 2).goto (word physLoadBase)) t ∧
      HandedOver linkedSymbols (entryState 2) t) ∧
    ∃ t : State, (bootImage linkedSymbols linkedPool).Runs
        (((entryState 1).setSys .sctlrEl1 0x80000).goto (word physLoadBase)) t ∧
      FetchDenied ((entryState 1).setSys .sctlrEl1 0x80000) t :=
  ⟨(boots linked (.inr ⟨rfl, by decide⟩) (by decide)).1 (by decide),
    (boots linked (.inl rfl) (by decide)).2 (by decide)⟩

end Preon.Boot
