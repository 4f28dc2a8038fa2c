import Preon.Boot.Stub
import Preon.Boot.Tables

/-!
# The run of the boot stub

From EL1 or EL2 with the MMU off the stub reaches `kmain`.  It clears `.bss` and the table pages,
fills the tables, and keeps fetching the same instructions when translation comes on under it.
-/

namespace Preon.Boot

open Framework MappedCode Memory WordMemory

/-- What the linker script makes of the symbols, and where the assembler may put the literals. -/
structure Linked (sym : Symbols) (pool : Word → Word) : Prop where
  tables_aligned : pageSize ∣ sym.idmapL0
  tables_above : physLoadBase + 4 * 128 ≤ sym.idmapL0
  tables_below : sym.idmapL0 + bootTablePages * pageSize ≤ 0x40100000
  bss_above : kernelImageBase + 0x100000 ≤ sym.bssStart
  bss_aligned : pageSize ∣ sym.bssStart ∧ pageSize ∣ sym.bssEnd
  bss_ordered : sym.bssStart ≤ sym.bssEnd
  stack_above : sym.bssEnd < sym.stackTop
  stack_below : sym.stackTop ≤ kernelImageBase + 0x40000000
  kmain_inside : kernelImageBase + 0x100000 ≤ sym.kmain ∧ sym.kmain < sym.bssStart
  pool_inside : ∀ k < 128,
    physLoadBase ≤ (pool (word physLoadBase + BitVec.ofNat 64 (4 * k))).toNat ∧
    (pool (word physLoadBase + BitVec.ofNat 64 (4 * k))).toNat < sym.idmapL0

private theorem word_or_three (a : ℕ) : word (a ||| 3) = word a ||| 3 := by
  apply BitVec.eq_of_toNat_eq
  simp [word]

section Run

variable {sym : Symbols} {pool : Word → Word} {s t : State}

/-! ## Fetching the stub -/

theorem toNat_instr {k : ℕ} (hk : k < 128) :
    (word physLoadBase + BitVec.ofNat 64 (4 * k)).toNat = physLoadBase + 4 * k := by
  rw [← word_add, toNat_word]
  simp only [physLoadBase]
  omega

private theorem bootImage_label {l : BootLabel} {k : ℕ} (h : bootOffset sym l = k) :
    (bootImage sym pool).label l = word physLoadBase + BitVec.ofNat 64 (4 * k) := by
  rw [← h]
  rfl

private theorem bootImage_code {k : ℕ} (hk : k < 128) :
    (bootImage sym pool).code (word physLoadBase + BitVec.ofNat 64 (4 * k)) =
      (bootCode sym)[k]? := by
  simp only [bootImage, toNat_instr hk]
  rw [if_pos ⟨by simp only [physLoadBase]; omega, Nat.le_add_right _ _⟩, Nat.add_sub_cancel_left,
    Nat.mul_div_cancel_left _ (by decide)]

private theorem executes_of_flat {S : State → Prop} (hlink : Linked sym pool)
    (hgoto : ∀ s pc, S s → S (s.goto pc))
    (hflat : ∀ s, S s → ∀ a : Word, physLoadBase ≤ a.toNat → a.toNat < sym.idmapL0 →
      mmu s .fetch a = some a ∧ mmu s .load a = some a) :
    (bootImage sym pool).Executes S (word physLoadBase) (bootCode sym) where
  goto := hgoto
  fetch s k i hs hi := by
    have hk : k < 128 := (List.getElem?_eq_some_iff.mp hi).1
    have habove := hlink.tables_above
    refine ⟨_, (hflat s hs _ ?_ ?_).1, (bootImage_code hk).trans hi⟩
    · rw [toNat_instr hk]
      exact Nat.le_add_right _ _
    · rw [toNat_instr hk]
      omega
  pool s k hs hk := by
    have hpool := hlink.pool_inside k hk
    exact Option.isSome_iff_exists.mpr ⟨_, (hflat s hs _ hpool.1 hpool.2).2⟩

private theorem and_one_of_off {v : Word} (h : mmuOn v = false) : v &&& 1 = 0 := by
  have hone := BitVec.and_one_eq_setWidth_ofBool_getLsbD (x := v)
  rw [show v.getLsbD 0 = false from h] at hone
  exact hone

theorem executes_off (hlink : Linked sym pool) (el : ℕ) :
    (bootImage sym pool).Executes (OffAt el) (word physLoadBase) (bootCode sym) :=
  executes_of_flat hlink (fun _ _ h => h) fun _ hs a _ _ => ⟨hs.mmu_eq _ a, hs.mmu_eq _ a⟩

private theorem runs_off (hlink : Linked sym pool) {el : ℕ} (k k' : ℕ) (ops : List BootOp)
    {rest : List BootInstr} (hseg : (bootCode sym).drop k = ops.map .op ++ rest)
    (hend : k + ops.length = k') (hops : ops.all (keepsOff el) = true) (hs : OffAt el s)
    (halign : ∀ a ∈ flatAccesses (bootImage sym pool).label ops s, a.toNat % 8 = 0) :
    (bootImage sym pool).Runs (s.atInstr (word physLoadBase) k)
        ((flatRun (bootImage sym pool).label ops s).atInstr (word physLoadBase) k') ∧
      OffAt el (flatRun (bootImage sym pool).label ops s) :=
  runs_flat_off rfl (executes_off hlink el) k k' ops hseg hend hops hs halign

private theorem runs_clear_off (hlink : Linked sym pool) {k n : ℕ} {first done : BootLabel}
    {rest : List BootInstr}
    (hseg : (bootCode sym).drop k = MappedCode.Image.Executes.clearLoop 0 1 first done ++ rest)
    (hfirst : bootOffset sym first = k) (hdone : bootOffset sym done = k + 4) (hs : OffAt 1 s)
    (hn : (s.x 0).toNat + 8 * n = (s.x 1).toNat) (halign : (s.x 0).toNat % 8 = 0) :
    (bootImage sym pool).Runs (s.atInstr (word physLoadBase) k)
        ((MappedCode.Image.Executes.clearedTo s 0 1 (8 * n)).atInstr (word physLoadBase) (k + 4)) ∧
      OffAt 1 (MappedCode.Image.Executes.clearedTo s 0 1 (8 * n)) := by
  have hruns := (executes_off hlink 1).runs_clear hseg (by decide) (bootImage_label hfirst)
    (stable_off rfl) hs hn halign fun s' hs' a _ _ kind => hs'.mmu_eq kind a
  rw [bootImage_label hdone] at hruns
  exact ⟨hruns, hs⟩

theorem executes_alike (hlink : Linked sym pool)
    (hflat : ∀ a : Word, physLoadBase ≤ a.toNat → a.toNat < sym.idmapL0 →
      mmu s .fetch a = some a ∧ mmu s .load a = some a) :
    (bootImage sym pool).Executes (Alike s) (word physLoadBase) (bootCode sym) := by
  apply executes_of_flat hlink (fun _ _ h => h)
  intro t ht a hlo hhi
  rw [ht.mmu_eq]
  exact hflat a hlo hhi

/-! ## Down to EL1 -/

theorem goto_start (s : State) : s.goto (word physLoadBase) = s.atInstr (word physLoadBase) 0 := by
  rw [State.atInstr, Nat.mul_zero]
  exact congrArg s.goto (BitVec.add_zero _).symm

/-- The state in front of `.Lel1`. -/
structure Entered (s t : State) : Prop where
  el : t.el = 1
  fdt : t.x 20 = s.x 0
  sys : ∀ r, r.level = 1 → t.sys r = s.sys r
  mem : t.mem = s.mem

theorem Entered.off (h : Entered s t) (hoff : plain (s.sys .sctlrEl1) = true) : OffAt 1 t :=
  offAt_one h.el ((congrArg plain (h.sys .sctlrEl1 rfl)).trans hoff)

private theorem Entered.mmu_eq (h : Entered s t) (hon : mmuOn (s.sys .sctlrEl1) = true) :
    mmu t = stageOne s := by
  funext kind va
  simp only [mmu, stageOne, rootOf, h.el, h.sys .sctlrEl1 rfl, h.sys .tcrEl1 rfl,
    h.sys .ttbr0El1 rfl,
    h.sys .ttbr1El1 rfl, hon, if_true, h.mem]

private theorem probe_holds (label : BootLabel → Word) (s : State) :
    Cond.holds (flatRun label probe s) .eq = ((BitVec.ofNat 64 s.el <<< 2) >>> 2 == 1) := rfl

private theorem probe_entered (label : BootLabel → Word) (hel : s.el = 1) :
    Entered s (flatRun label probe s) where
  el := hel
  fdt := rfl
  sys _ _ := rfl
  mem := rfl

theorem runs_probe {S : State → Prop}
    (hex : (bootImage sym pool).Executes S (word physLoadBase) (bootCode sym))
    (hstable : (bootImage sym pool).Stable S probe) (hs : S s) (hel : s.el = 1) :
    ∃ t : State, (bootImage sym pool).Runs (s.atInstr (word physLoadBase) 0)
      (t.atInstr (word physLoadBase) 22) ∧ S t ∧ Entered s t := by
  have hprobe := hex.runs_ops (k := 0) rfl hstable hs (by rw [hel]; decide) (List.forall_mem_nil _)
  have hstate := MappedCode.Image.Executes.stable_run hstable hs
  have htaken : Cond.holds (flatRun (bootImage sym pool).label probe s) .eq = true := by
    rw [probe_holds, hel]
    decide
  have hbranch := hex.step_taken (k := 4) hstate rfl htaken
  exact ⟨_, hprobe.trans (.single hbranch), hstate, probe_entered _ hel⟩

private theorem drop_frame (label : BootLabel → Word) (s : State) :
    (flatRun label dropToEl1 s).x 20 = s.x 20 ∧
      (∀ r, r.level = 1 → (flatRun label dropToEl1 s).sys r = s.sys r) ∧
      (flatRun label dropToEl1 s).mem = s.mem := by
  refine ⟨rfl, ?_, rfl⟩
  intro r hr
  cases r with
  | sctlrEl2 | hcrEl2 | cnthctlEl2 | cntvoffEl2 | cptrEl2 | spsrEl2 | elrEl2 | sctlrEl3 => cases hr
  | _ => rfl

private theorem drop_eret (label : BootLabel → Word) (hel : s.el = 2) (pc : Word) :
    ((flatRun label dropToEl1 s).goto pc).eret =
      some ((flatRun label dropToEl1 s).lowered.goto (label .el1)) := by
  have hspsr : (flatRun label dropToEl1 s).sys .spsrEl2 = spsrEl1h := rfl
  have hhcr : (flatRun label dropToEl1 s).sys .hcrEl2 = hcrRw := rfl
  have hel' : (flatRun label dropToEl1 s).el = s.el := rfl
  have helr : (flatRun label dropToEl1 s).sys .elrEl2 = label .el1 := rfl
  generalize flatRun label dropToEl1 s = t at *
  rw [State.eret, if_pos]
  · simp only [State.goto, State.lowered, helr]
  · simp only [State.goto, hspsr, hhcr, hel', hel]
    decide

private theorem runs_compare (hlink : Linked sym pool) {el : ℕ} (hel : el = 2 ∨ el = 3)
    (hs : OffAt el s) :
    ∃ t : State, (bootImage sym pool).Runs (s.atInstr (word physLoadBase) 0)
        (t.atInstr (word physLoadBase) 6) ∧
      OffAt el t ∧ Cond.holds t .eq = decide (el = 2) ∧ t.x 20 = s.x 0 ∧ t.sys = s.sys ∧
      t.mem = s.mem := by
  have hprobes : probe.all (keepsOff el) = true := by cases hel with
    | inl h => rw [h]; rfl
    | inr h => rw [h]; rfl
  obtain ⟨hprobe, hoff⟩ := runs_off hlink 0 4 probe rfl rfl hprobes hs (List.forall_mem_nil _)
  have hnot : Cond.holds (flatRun (bootImage sym pool).label probe s) .eq = false := by
    rw [probe_holds, hs.1]
    cases hel with
    | inl h => rw [h]; decide
    | inr h => rw [h]; decide
  have hbranch := (executes_off hlink el).step_not_taken (k := 4) hoff rfl hnot
  obtain ⟨hcmp, hoff'⟩ := runs_off hlink 5 6 [.cmpImm 0 2] rfl rfl
    (by simp [keepsOff, Op.writes, Op.level]) hoff (List.forall_mem_nil _)
  refine ⟨_, (hprobe.trans (.single hbranch)).trans hcmp, hoff', ?_, rfl, rfl, rfl⟩
  change ((BitVec.ofNat 64 s.el <<< 2) >>> 2 == 2) = _
  rw [hs.1]
  cases hel with
  | inl h => rw [h]; decide
  | inr h => rw [h]; decide

/-- Entered at EL2: the stub goes down itself. -/
theorem runs_drop (hlink : Linked sym pool) (hs : OffAt 2 s) :
    ∃ t : State, (bootImage sym pool).Runs (s.atInstr (word physLoadBase) 0)
      (t.atInstr (word physLoadBase) 22) ∧ Entered s t := by
  obtain ⟨u, hentry, hoff, htaken, hfdt, hsys, hmem⟩ := runs_compare hlink (.inl rfl) hs
  have hbranch := (executes_off hlink 2).step_taken (k := 6) hoff rfl htaken
  rw [bootImage_label (k := 8) rfl] at hbranch
  obtain ⟨hdrop, hoff'⟩ := runs_off hlink 8 21 dropToEl1 rfl rfl rfl hoff (List.forall_mem_nil _)
  have heret := (executes_off hlink 2).step (k := 21) hoff' rfl
  rw [MappedCode.Image.execInstr, State.atInstr, drop_eret _ hoff.1,
    bootImage_label (k := 22) rfl] at heret
  obtain ⟨hfdt', hsys', hmem'⟩ := drop_frame (bootImage sym pool).label u
  generalize flatRun (bootImage sym pool).label dropToEl1 u = v at *
  refine ⟨_, (hentry.trans (.single hbranch)).trans (hdrop.trans (.single heret)), rfl,
    hfdt'.trans hfdt, ?_, hmem'.trans hmem⟩
  intro r hr
  exact (hsys' r hr).trans (congrFun hsys r)

/-! ## Up to the flip -/

private theorem runs_init (hlink : Linked sym pool) (hs : OffAt 1 s) :
    ∃ t : State, (bootImage sym pool).Runs (s.atInstr (word physLoadBase) 22)
        (t.atInstr (word physLoadBase) 33) ∧ OffAt 1 t ∧
      t.x 0 = sym.bssStartPa ∧ t.x 1 = sym.bssEndPa ∧ t.x 20 = s.x 20 ∧
      t.sys = Function.update s.sys .cpacrEl1 (s.sys .cpacrEl1 ||| 0x300000) ∧ t.mem = s.mem := by
  obtain ⟨hprobe, hoff⟩ := runs_off hlink 22 24 [.mrs 0 .sctlrEl1, .tstImm 0 1] rfl rfl rfl hs
    (List.forall_mem_nil _)
  generalize hs₁ : flatRun (bootImage sym pool).label [.mrs 0 .sctlrEl1, .tstImm 0 1] s = s₁ at *
  have hclear : Cond.holds s₁ .ne = false := by
    have hbit : s.sys .sctlrEl1 &&& 1#64 = 0#64 := and_one_of_off (plain_iff.mp hs.sctlr).1
    rw [← hs₁]
    simp [flatRun, Op.flat, Cond.holds, State.set, hbit]
  have hbranch := (executes_off hlink 1).step_not_taken (k := 24) hoff rfl hclear
  obtain ⟨hinit, hoff'⟩ :=
    runs_off hlink 25 33 (initEl1 sym) rfl rfl rfl hoff (List.forall_mem_nil _)
  refine ⟨_, (hprobe.trans (.single hbranch)).trans hinit, hoff', rfl, rfl, ?_, ?_, ?_⟩
  · rw [← hs₁]
    rfl
  · rw [← hs₁]
    rfl
  · rw [← hs₁]
    rfl

private theorem toNat_imagePa {va : ℕ} (h : va ≤ kernelImageBase + 0x40000000) :
    (word (imagePa va)).toNat = imagePa va := by
  apply toNat_word
  simp only [imagePa, kernelImageBase, imagePaBase] at *
  omega

private theorem runs_clear_bss (hlink : Linked sym pool) (hs : OffAt 1 s)
    (h₀ : s.x 0 = sym.bssStartPa)
    (h₁ : s.x 1 = sym.bssEndPa) :
    ∃ t : State, (bootImage sym pool).Runs (s.atInstr (word physLoadBase) 33)
        (t.atInstr (word physLoadBase) 37) ∧ OffAt 1 t ∧ t.x 20 = s.x 20 ∧ t.sys = s.sys ∧
      t.mem = clear s.mem sym.bssStartPa (sym.bssEnd - sym.bssStart) := by
  obtain ⟨⟨q, hq⟩, ⟨q', hq'⟩⟩ := hlink.bss_aligned
  have habove := hlink.bss_above
  have hordered := hlink.bss_ordered
  have hstack := hlink.stack_above
  have hbelow := hlink.stack_below
  have hstart : (s.x 0).toNat = imagePa sym.bssStart := by
    rw [h₀]
    exact toNat_imagePa (by omega)
  have hstop : (s.x 1).toNat = imagePa sym.bssEnd := by
    rw [h₁]
    exact toNat_imagePa (by omega)
  have hsize : 8 * (512 * (q' - q)) = sym.bssEnd - sym.bssStart := by
    rw [hq, hq', ← Nat.mul_sub, ← Nat.mul_assoc]
    rfl
  simp only [imagePa, kernelImageBase, imagePaBase, pageSize] at *
  obtain ⟨hruns, hoff⟩ :=
    runs_clear_off hlink (k := 33) (n := 512 * (q' - q)) rfl rfl rfl hs (by omega)
    (by omega)
  refine ⟨_, hruns, hoff, rfl, rfl, ?_⟩
  rw [← hsize, ← h₀]
  rfl

private theorem runs_clear_tables (hlink : Linked sym pool) (hs : OffAt 1 s) :
    ∃ t : State, (bootImage sym pool).Runs (s.atInstr (word physLoadBase) 37)
        (t.atInstr (word physLoadBase) 44) ∧ OffAt 1 t ∧ t.x 20 = s.x 20 ∧ t.sys = s.sys ∧
      t.mem = clear s.mem (sym.table .idmapL0) (bootTablePages * pageSize) := by
  obtain ⟨hbounds, hoff⟩ :=
    runs_off hlink 37 40 (tableBounds sym) rfl rfl rfl hs (List.forall_mem_nil _)
  generalize hs₁ : flatRun (bootImage sym pool).label (tableBounds sym) s = s₁ at *
  obtain ⟨q, hq⟩ := hlink.tables_aligned
  have hbelow := hlink.tables_below
  have h₀ : s₁.x 0 = sym.table .idmapL0 := by
    rw [← hs₁]
    rfl
  have h₁ : s₁.x 1 = sym.table .deviceL3 + 0x1000 := by
    rw [← hs₁]
    rfl
  have hstart : (s₁.x 0).toNat = sym.idmapL0 := by
    rw [h₀]
    exact toNat_word
      (by simp only [BootTable.pa, BootTable.position, bootTablePages, pageSize] at *; omega)
  have hstop : (s₁.x 1).toNat = sym.idmapL0 + 12 * 4096 := by
    rw [h₁]
    have hlast : (sym.table .deviceL3).toNat = sym.idmapL0 + 11 * 4096 :=
      toNat_word
        (by simp only [BootTable.pa, BootTable.position, bootTablePages, pageSize] at *; omega)
    simp only [bootTablePages, pageSize] at *
    bv_omega
  obtain ⟨hruns, hoff'⟩ := runs_clear_off hlink (k := 40) (n := 6144) rfl rfl rfl hoff (by omega)
    (by rw [hstart, hq]; simp only [pageSize]; omega)
  refine ⟨_, hbounds.trans hruns, hoff', ?_, ?_, ?_⟩
  · rw [← hs₁]
    rfl
  · rw [← hs₁]
    rfl
  · rw [← h₀]
    change clear s₁.mem (s₁.x 0) _ = _
    rw [← hs₁]
    rfl

/-- One descriptor of the trampoline is stored. -/
def storeTable (base : ℕ) (mem : WordMemory) (st : BootTable × ℕ × ℕ) : WordMemory :=
  store mem (word (st.1.pa base + 8 * st.2.1)) (word st.2.2)

private theorem tables_mem (label : BootLabel → Word) (s : State) :
    (flatRun label (identityTables sym ++ kernelTables sym) s).mem =
      (bootStores sym.idmapL0).foldl (storeTable sym.idmapL0) s.mem := by
  simp only [bootStores, List.foldl_cons, List.foldl_nil, storeTable, word_add, word_or_three]
  rfl

private theorem tables_accesses (label : BootLabel → Word) (s : State) :
    flatAccesses label (identityTables sym ++ kernelTables sym) s =
      (bootStores sym.idmapL0).map fun st => word (st.1.pa sym.idmapL0 + 8 * st.2.1) := by
  simp only [bootStores, List.map_cons, List.map_nil, word_add]
  rfl

theorem table_place (hlink : Linked sym pool) (t : BootTable) :
    pageSize ∣ t.pa sym.idmapL0 ∧ sym.idmapL0 ≤ t.pa sym.idmapL0 ∧
      t.pa sym.idmapL0 + pageSize ≤ sym.idmapL0 + bootTablePages * pageSize := by
  have hposition : t.position < bootTablePages := by cases t <;> decide
  refine ⟨(Nat.dvd_add_right hlink.tables_aligned).mpr (Nat.dvd_mul_left ..),
    Nat.le_add_right _ _, ?_⟩
  simp only [BootTable.pa, bootTablePages, pageSize] at *
  omega

theorem table_lt (hlink : Linked sym pool) (t : BootTable) : t.pa sym.idmapL0 < 0x40100000 := by
  have hplace := table_place hlink t
  have hbelow := hlink.tables_below
  simp only [pageSize] at *
  omega

theorem bootStores_place (hlink : Linked sym pool) :
    ∀ st ∈ bootStores sym.idmapL0, Place (st.1.pa sym.idmapL0) st.2.1 ∧ st.2.2 < 2 ^ 64 := by
  have hword (t : BootTable) : t.pa sym.idmapL0 ||| 3 < 2 ^ 64 :=
    Nat.or_lt_two_pow (by have := table_lt hlink t; omega) (by decide)
  have hslots : ∀ st ∈ bootStores sym.idmapL0, st.2.1 < 512 ∧ st.2.2 < 2 ^ 64 := by
    simp only [bootStores, List.forall_mem_cons, List.not_mem_nil, false_implies, implies_true,
      and_true, hword]
    decide
  intro st hst
  have hlt := table_lt hlink st.1
  exact ⟨⟨(table_place hlink st.1).1, by omega, (hslots st hst).1⟩, (hslots st hst).2⟩

private theorem runs_control (hlink : Linked sym pool) (hs : OffAt 1 s) :
    ∃ t : State, (bootImage sym pool).Runs (s.atInstr (word physLoadBase) 44)
        (t.atInstr (word physLoadBase) 52) ∧ OffAt 1 t ∧ t.x 20 = s.x 20 ∧
      t.sys = Function.update (Function.update s.sys .mairEl1 (word mairValue)) .tcrEl1
        (word Cpu.tcrValue) ∧
      t.mem = s.mem := by
  obtain ⟨hruns, hoff⟩ :=
    runs_off hlink 44 52 controlRegisters rfl rfl rfl hs (List.forall_mem_nil _)
  refine ⟨_, hruns, hoff, rfl, ?_, rfl⟩
  rw [← movk_tcr, ← movk_mair]
  rfl

private theorem runs_tables (hlink : Linked sym pool) (hs : OffAt 1 s) :
    ∃ t : State, (bootImage sym pool).Runs (s.atInstr (word physLoadBase) 52)
        (t.atInstr (word physLoadBase) 102) ∧ OffAt 1 t ∧ t.x 20 = s.x 20 ∧ t.sys = s.sys ∧
      t.mem = (bootStores sym.idmapL0).foldl (storeTable sym.idmapL0) s.mem := by
  have halign :
      ∀ a ∈ flatAccesses (bootImage sym pool).label (identityTables sym ++ kernelTables sym) s,
      a.toNat % 8 = 0 := by
    rw [tables_accesses, List.forall_mem_map]
    intro st hst
    obtain ⟨⟨⟨q, hq⟩, hlt, hslot⟩, -⟩ := bootStores_place hlink st hst
    rw [toNat_word (by omega), hq]
    simp only [pageSize]
    omega
  obtain ⟨hruns, hoff⟩ :=
    runs_off hlink 52 102 (identityTables sym ++ kernelTables sym) rfl rfl rfl hs
    halign
  exact ⟨_, hruns, hoff, rfl, rfl, tables_mem _ s⟩

private theorem runs_roots (hlink : Linked sym pool) (hs : OffAt 1 s) :
    ∃ t : State, (bootImage sym pool).Runs (s.atInstr (word physLoadBase) 102)
        (t.atInstr (word physLoadBase) 112) ∧ OffAt 1 t ∧ t.x 0 = s.sys .sctlrEl1 ||| 1 ∧
          t.x 20 = s.x 20 ∧
      t.sys = Function.update (Function.update s.sys .ttbr0El1 (sym.table .idmapL0)) .ttbr1El1
        (sym.table .kernelL0) ∧
      t.mem = s.mem := by
  obtain ⟨hruns, hoff⟩ := runs_off hlink 102 112 (installRoots sym) rfl rfl rfl hs
    (List.forall_mem_nil _)
  exact ⟨_, hruns, hoff, rfl, rfl, rfl, rfl⟩

private theorem step_enable (hlink : Linked sym pool) (hs : OffAt 1 s) :
    (bootImage sym pool).step (s.atInstr (word physLoadBase) 112) =
      some ((s.setSys .sctlrEl1 (s.x 0)).atInstr (word physLoadBase) 113) :=
  (executes_off hlink 1).step_op (k := 112) hs rfl (by rw [hs.1]; decide) (List.forall_mem_nil _)

/-- What the stub has made of `s` when translation is on. -/
structure Built (sym : Symbols) (s t : State) : Prop where
  el : t.el = 1
  fdt : t.x 20 = s.x 20
  sctlr : t.sys .sctlrEl1 = s.sys .sctlrEl1 ||| 1
  mair : t.sys .mairEl1 = word mairValue
  tcr : t.sys .tcrEl1 = word Cpu.tcrValue
  ttbr0 : t.sys .ttbr0El1 = sym.table .idmapL0
  ttbr1 : t.sys .ttbr1El1 = sym.table .kernelL0
  cpacr : t.sys .cpacrEl1 = s.sys .cpacrEl1 ||| 0x300000
  mem : t.mem = (bootStores sym.idmapL0).foldl (storeTable sym.idmapL0)
    (clear (clear s.mem sym.bssStartPa (sym.bssEnd - sym.bssStart)) (sym.table .idmapL0)
      (bootTablePages * pageSize))

theorem runs_built (hlink : Linked sym pool) (hs : OffAt 1 s) :
    ∃ t : State, (bootImage sym pool).Runs (s.atInstr (word physLoadBase) 22)
        (t.atInstr (word physLoadBase) 113) ∧ Built sym s t := by
  obtain ⟨s₁, hrun₁, hoff₁, hstart, hstop, hfdt₁, hsys₁, hmem₁⟩ := runs_init hlink hs
  obtain ⟨s₂, hrun₂, hoff₂, hfdt₂, hsys₂, hmem₂⟩ := runs_clear_bss hlink hoff₁ hstart hstop
  obtain ⟨s₃, hrun₃, hoff₃, hfdt₃, hsys₃, hmem₃⟩ := runs_clear_tables hlink hoff₂
  obtain ⟨s₄, hrun₄, hoff₄, hfdt₄, hsys₄, hmem₄⟩ := runs_control hlink hoff₃
  obtain ⟨s₅, hrun₅, hoff₅, hfdt₅, hsys₅, hmem₅⟩ := runs_tables hlink hoff₄
  obtain ⟨s₆, hrun₆, hoff₆, hx, hfdt₆, hsys₆, hmem₆⟩ := runs_roots hlink hoff₅
  have hsys : s₆.sys = Function.update (Function.update (Function.update (Function.update
      (Function.update s.sys .cpacrEl1 (s.sys .cpacrEl1 ||| 0x300000)) .mairEl1 (word mairValue))
      .tcrEl1 (word Cpu.tcrValue)) .ttbr0El1 (sym.table .idmapL0)) .ttbr1El1
        (sym.table .kernelL0) := by
    rw [hsys₆, hsys₅, hsys₄, hsys₃, hsys₂, hsys₁]
  refine ⟨_, ((((hrun₁.trans hrun₂).trans hrun₃).trans hrun₄).trans hrun₅).trans
    (hrun₆.trans (.single (step_enable hlink hoff₆))), ?_⟩
  constructor
  · exact hoff₆.1
  · change s₆.x 20 = _
    rw [hfdt₆, hfdt₅, hfdt₄, hfdt₃, hfdt₂, hfdt₁]
  · simp only [State.setSys, Function.update_self, hx, hsys₅, hsys₄, hsys₃, hsys₂, hsys₁]
    rfl
  · simp only [State.setSys, hsys]
    rfl
  · simp only [State.setSys, hsys]
    rfl
  · simp only [State.setSys, hsys]
    rfl
  · simp only [State.setSys, hsys]
    rfl
  · simp only [State.setSys, hsys]
    rfl
  · change s₆.mem = _
    rw [hmem₆, hmem₅, hmem₄, hmem₃, hmem₂, hmem₁]

/-! ## Outside the contract -/

end Run

/-! ### One link of the kernel -/

/-- The trampoline tables behind the stub, and a megabyte of image in front of `.bss`. -/
def linkedSymbols : Symbols where
  idmapL0 := 0x40081000
  bssStart := kernelImageBase + 0x1D0000
  bssEnd := kernelImageBase + 0x1E0000
  stackTop := kernelImageBase + 0x1F1000
  kmain := kernelImageBase + 0x101000

/-- The literals lie between the stub and the tables. -/
def linkedPool (_ : Word) : Word := word (physLoadBase + 0x800)

theorem linked : Linked linkedSymbols linkedPool where
  tables_aligned := by decide
  tables_above := by decide
  tables_below := by decide
  bss_above := by decide
  bss_aligned := by decide
  bss_ordered := by decide
  stack_above := by decide
  stack_below := by decide
  kmain_inside := by decide
  pool_inside k _ := by
    rw [linkedPool]
    decide

/-- At an exception level with every register clear, and memory full of ones. -/
def entryState (el : ℕ) : State where
  x _ := 0x44000000
  sp _ := 0
  pc := 0
  el := el
  z := false
  c := false
  sys _ := 0
  mem _ := 0xFF

end Preon.Boot
