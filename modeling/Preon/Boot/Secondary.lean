import Preon.Boot.Tables

/-!
# The entry of a secondary CPU

A translation of `secondary.s`, instruction by instruction, from the jump of the firmware to
`secondary_cpu_main`: first at physical addresses, then through the identity map of the trampoline,
then through the kernel map that the boot data names.
-/

namespace Preon.Boot

open Framework MappedCode Memory WordMemory

/-! ## The text -/

/-- Image addresses of the code, which has `size` bytes with its literals, and of the functions and
tables that it names; the trampoline tables are at a physical address. -/
structure SecondarySymbols where
  entry : ℕ
  size : ℕ
  idmapL0 : ℕ
  vectorTable : ℕ
  installLocal : ℕ
  main : ℕ

def enterSecondary : List (Op Empty) :=
  [.mov 19 0, .mrs 1 .cpacrEl1, .orrImm 1 1 0x300000, .msr .cpacrEl1 1, .barrier,
    .movz 0 0x44FF, .movk 0 0x0400 16, .msr .mairEl1 0,
    .movz 0 0x3510, .movk 0 0xB550 16, .movk 0 0x0025 32, .msr .tcrEl1 0]

def identityRoot (sym : SecondarySymbols) : List (Op Empty) :=
  [.barrier, .ldrLit 0 (word sym.idmapL0), .msr .ttbr0El1 0]

def kernelRoot : List (Op Empty) := [.ldr 0 19 16, .msr .ttbr1El1 0]

def prepareEnable : List (Op Empty) :=
  [.barrier, .barrier, .barrier, .barrier, .mrs 0 .sctlrEl1, .orrImm 0 0 1]

def SecondarySymbols.high (sym : SecondarySymbols) : ℕ := sym.entry + 4 * 27

def leaveLow (sym : SecondarySymbols) : List (Op Empty) := [.barrier, .ldrLit 16 (word sym.high)]

/-- The boot data by its linear address. -/
def rebase : List (Op Empty) := [.movz 18 (0xFFFF#64 <<< 48), .movk 18 0x8000 32, .orr 19 19 18]

def finish (sym : SecondarySymbols) : List (Op Empty) :=
  [.ldrLit 1 (word sym.vectorTable), .msr .vbarEl1 1, .barrier, .mov 0 19]

def secondaryCode (sym : SecondarySymbols) : List (Instr Empty) :=
  [enterSecondary.map .op, (identityRoot sym).map .op, kernelRoot.map .op,
    prepareEnable.map .op, [.op (.msr .sctlrEl1 0)], (leaveLow sym).map .op, [.br 16],
    rebase.map .op,
      [.op (.ldr 1 19 8), .op (.movToSp 1), .op (.ldr 0 19 0), .bl (word sym.installLocal)],
    (finish sym).map .op, [.bl (word sym.main)]].flatten

/-- The code at its physical address, and `install_current_cpu_local` as the compiler made it. -/
def secondaryImage (sym : SecondarySymbols) (pool : Word → Word) (install : State → Option State) :
    MappedCode.Image Empty where
  code pa :=
    if pa = word (imagePa sym.installLocal) then some (.compiled install)
    else if pa.toNat % 4 = 0 ∧ imagePa sym.entry ≤ pa.toNat then
      (secondaryCode sym)[(pa.toNat - imagePa sym.entry) / 4]?
    else none
  label := Empty.elim
  pool := pool
  mmu := mmu

/-- What the linker script and the assembler make of the symbols.  The code lies in the part of RAM
that the identity map covers. -/
structure SecondaryLinked (sym : SecondarySymbols) (pool : Word → Word) (image : Memory.Image) :
    Prop where
  entry_aligned : 4 ∣ sym.entry
  size_le : 4 * 39 ≤ sym.size
  entry_inside : kernelImageBase ≤ sym.entry ∧ image.textStart ≤ sym.entry ∧
    sym.entry + sym.size ≤ image.textEnd
  low : imagePa sym.entry + sym.size ≤ 0x40200000
  install_inside : kernelImageBase ≤ sym.installLocal ∧ image.textStart ≤ sym.installLocal ∧
    sym.installLocal < image.textEnd ∧ sym.installLocal < 2 ^ 64
  install_apart : ¬ (sym.entry ≤ sym.installLocal ∧ sym.installLocal < sym.entry + sym.size)
  pool_inside : ∀ base ∈ [imagePa sym.entry, sym.entry], ∀ k < 39, ∃ n < sym.size,
    pool (word (base + 4 * k)) = word (base + n)
  tables_aligned : pageSize ∣ sym.idmapL0
  tables_end : sym.idmapL0 + bootTablePages * pageSize ≤ 2 ^ 48

/-- `install_current_cpu_local` writes its argument to `TPIDR_EL1`.  It keeps the registers that the
procedure call standard makes it keep, and writes nothing but its stack. -/
structure Installs (stack : Word → Prop) (install : State → Option State) : Prop where
  returns : ∀ s : State, s.el = 1 → ∃ t, install s = some t ∧ t.el = 1 ∧ t.sp = s.sp ∧
    t.x 19 = s.x 19 ∧
    t.sys = Function.update s.sys .tpidrEl1 (s.x 0) ∧ ∀ a, ¬ stack a → t.mem a = s.mem a

section Run

variable {sym : SecondarySymbols} {pool : Word → Word} {install : State → Option State}
  {image : Memory.Image} {s t : State}

/-! ## Fetching -/

private theorem SecondaryLinked.entry_pa (hlink : SecondaryLinked sym pool image) (n : ℕ) :
    imagePa (sym.entry + n) = imagePa sym.entry + n := by
  have hbase := hlink.entry_inside.1
  simp only [imagePa]
  omega

private theorem secondaryImage_code (hlink : SecondaryLinked sym pool image) {k : ℕ} (hk : k < 39) :
    (secondaryImage sym pool install).code (word (imagePa sym.entry + 4 * k)) =
      (secondaryCode sym)[k]? := by
  have hlow := hlink.low
  have hsize := hlink.size_le
  have hval : (word (imagePa sym.entry + 4 * k)).toNat = imagePa sym.entry + 4 * k :=
    toNat_word (by omega)
  have hother : word (imagePa sym.entry + 4 * k) ≠ word (imagePa sym.installLocal) := by
    intro heq
    have hinstall := hlink.install_inside
    have hentry := hlink.entry_inside.1
    have hpa : (word (imagePa sym.installLocal)).toNat = imagePa sym.installLocal :=
      toNat_word (by simp only [imagePa, kernelImageBase, imagePaBase] at *; omega)
    rw [← heq, hval] at hpa
    apply hlink.install_apart
    simp only [imagePa] at hpa
    omega
  have haligned : (imagePa sym.entry + 4 * k) % 4 = 0 := by
    obtain ⟨q, hq⟩ := hlink.entry_aligned
    simp only [imagePa, hq, kernelImageBase, imagePaBase]
    omega
  simp only [secondaryImage, if_neg hother, hval]
  rw [if_pos ⟨haligned, Nat.le_add_right _ _⟩, Nat.add_sub_cancel_left,
    Nat.mul_div_cancel_left _ (by decide)]

private theorem executes_secondary (hlink : SecondaryLinked sym pool image)
    {S : State → Prop} {base : ℕ}
    (hbase : base ∈ [imagePa sym.entry, sym.entry]) (hgoto : ∀ s pc, S s → S (s.goto pc))
    (hmmu : ∀ s, S s → ∀ n < sym.size,
      mmu s .fetch (word (base + n)) = some (word (imagePa sym.entry + n)) ∧
        (mmu s .load (word (base + n))).isSome) :
    (secondaryImage sym pool install).Executes S (word base) (secondaryCode sym) where
  goto := hgoto
  fetch s k i hs hi := by
    have hk : k < 39 := (List.getElem?_eq_some_iff.mp hi).1
    have hsize := hlink.size_le
    rw [← word_add]
    exact ⟨_, (hmmu s hs (4 * k) (by omega)).1, (secondaryImage_code hlink hk).trans hi⟩
  pool s k hs hk := by
    obtain ⟨n, hn, hpool⟩ := hlink.pool_inside base hbase k hk
    rw [← word_add]
    change (mmu s .load (pool _)).isSome = true
    rw [hpool]
    exact (hmmu s hs n hn).2

private theorem executes_secondary_off (hlink : SecondaryLinked sym pool image)
    (install : State → Option State) :
    (secondaryImage sym pool install).Executes (OffAt 1) (word (imagePa sym.entry))
      (secondaryCode sym) := by
  apply executes_secondary hlink (List.mem_cons_self ..) (fun _ _ h => h)
  intro s hs n _
  rw [hs.mmu_eq, hs.mmu_eq]
  exact ⟨rfl, rfl⟩

/-! ## At physical addresses -/

private theorem runs_secondary_off (hlink : SecondaryLinked sym pool image)
    (install : State → Option State)
    (k k' : ℕ) (ops : List (Op Empty))
    {rest : List (Instr Empty)} (hseg : (secondaryCode sym).drop k = ops.map .op ++ rest)
    (hend : k + ops.length = k') (hops : ops.all (keepsOff 1) = true) (hs : OffAt 1 s)
    (halign : ∀ a ∈ flatAccesses (secondaryImage sym pool install).label ops s, a.toNat % 8 = 0) :
    (secondaryImage sym pool install).Runs (s.atInstr (word (imagePa sym.entry)) k)
        ((flatRun (secondaryImage sym pool install).label ops s).atInstr
          (word (imagePa sym.entry)) k') ∧
      OffAt 1 (flatRun (secondaryImage sym pool install).label ops s) :=
  runs_flat_off rfl (executes_secondary_off hlink install) k k' ops hseg hend hops hs halign

theorem runs_enter (hlink : SecondaryLinked sym pool image) (install : State → Option State)
    (hs : OffAt 1 s) :
    ∃ t : State, (secondaryImage sym pool install).Runs (s.atInstr (word (imagePa sym.entry)) 0)
        (t.atInstr (word (imagePa sym.entry)) 12) ∧ OffAt 1 t ∧ t.x 19 = s.x 0 ∧
      t.sys = Function.update (Function.update (Function.update s.sys .cpacrEl1
        (s.sys .cpacrEl1 ||| 0x300000)) .mairEl1 (word mairValue)) .tcrEl1 (word Cpu.tcrValue) ∧
      t.mem = s.mem := by
  obtain ⟨hruns, hoff⟩ := runs_secondary_off hlink install 0 12 enterSecondary rfl rfl rfl
    hs (List.forall_mem_nil _)
  refine ⟨_, hruns, hoff, rfl, ?_, rfl⟩
  rw [← movk_tcr, ← movk_mair]
  rfl

theorem runs_identityRoot (hlink : SecondaryLinked sym pool image) (install : State → Option State)
    (hs : OffAt 1 s) :
    ∃ t : State, (secondaryImage sym pool install).Runs (s.atInstr (word (imagePa sym.entry)) 12)
        (t.atInstr (word (imagePa sym.entry)) 15) ∧ OffAt 1 t ∧ t.x 19 = s.x 19 ∧
      t.sys = Function.update s.sys .ttbr0El1 (word sym.idmapL0) ∧ t.mem = s.mem := by
  obtain ⟨hruns, hoff⟩ := runs_secondary_off hlink install 12 15 (identityRoot sym) rfl rfl
    rfl hs (List.forall_mem_nil _)
  exact ⟨_, hruns, hoff, rfl, rfl, rfl⟩

theorem runs_kernelRoot (hlink : SecondaryLinked sym pool image) (install : State → Option State)
    (hs : OffAt 1 s)
    (halign : (s.x 19 + 16).toNat % 8 = 0) :
    ∃ t : State, (secondaryImage sym pool install).Runs (s.atInstr (word (imagePa sym.entry)) 15)
        (t.atInstr (word (imagePa sym.entry)) 17) ∧ OffAt 1 t ∧ t.x 19 = s.x 19 ∧
      t.sys = Function.update s.sys .ttbr1El1 (load s.mem (s.x 19 + 16)) ∧ t.mem = s.mem := by
  obtain ⟨hruns, hoff⟩ := runs_secondary_off hlink install 15 17 kernelRoot rfl rfl rfl hs
    (List.forall_mem_singleton.mpr halign)
  exact ⟨_, hruns, hoff, rfl, rfl, rfl⟩

theorem runs_enable (hlink : SecondaryLinked sym pool image) (install : State → Option State)
    (hs : OffAt 1 s) :
    ∃ t : State, (secondaryImage sym pool install).Runs (s.atInstr (word (imagePa sym.entry)) 17)
        (t.atInstr (word (imagePa sym.entry)) 24) ∧ t.el = 1 ∧ t.x 19 = s.x 19 ∧
      t.sys = Function.update s.sys .sctlrEl1 (s.sys .sctlrEl1 ||| 1) ∧ t.mem = s.mem := by
  obtain ⟨hruns, hoff⟩ := runs_secondary_off hlink install 17 23 prepareEnable rfl rfl rfl
    hs (List.forall_mem_nil _)
  have hwrite := (executes_secondary_off hlink install).step_op (k := 23) hoff rfl
    (by rw [hoff.1]; decide) (List.forall_mem_nil _)
  exact ⟨_, hruns.trans (.single hwrite), hs.1, rfl, rfl, rfl⟩

/-! ## Through the identity map -/

private theorem executes_secondary_low (hlink : SecondaryLinked sym pool image)
    (install : State → Option State) (h : LowHalf sym.idmapL0 s)
    (hwxn : writeImpliesXn (s.sys .sctlrEl1) = false) :
    (secondaryImage sym pool install).Executes (Alike s) (word (imagePa sym.entry))
      (secondaryCode sym) := by
  apply executes_secondary hlink (List.mem_cons_self ..) (fun _ _ h => h)
  intro t ht n hn
  have hlow := hlink.low
  have hram : 0x40000000 ≤ imagePa sym.entry := Nat.le_add_left _ _
  have hval : (word (imagePa sym.entry + n)).toNat = imagePa sym.entry + n := toNat_word (by omega)
  have hmap (kind : AccessKind) : mmu s kind (word (imagePa sym.entry + n)) =
      some (word (imagePa sym.entry + n)) :=
    h.mmu_identity hwxn (by omega) (by omega)
  rw [ht.mmu_eq, hmap, hmap]
  exact ⟨rfl, rfl⟩

theorem runs_leaveLow (hlink : SecondaryLinked sym pool image) (install : State → Option State)
    (h : LowHalf sym.idmapL0 s) (hwxn : writeImpliesXn (s.sys .sctlrEl1) = false) :
    ∃ t : State, (secondaryImage sym pool install).Runs (s.atInstr (word (imagePa sym.entry)) 24)
        (t.atInstr (word sym.entry) 27) ∧ Alike s t ∧ t.x 19 = s.x 19 := by
  have hex := executes_secondary_low hlink install h hwxn
  have hstay : (secondaryImage sym pool install).Stable (Alike s) (leaveLow sym) := stable_alike rfl
  have hruns := hex.runs_ops (k := 24) rfl hstay ⟨rfl, rfl, rfl⟩ (by simp [leaveLow, Op.level])
    (List.forall_mem_nil _)
  have hstate := MappedCode.Image.Executes.stable_run hstay (s := s) ⟨rfl, rfl, rfl⟩
  have htarget : (flatRun (secondaryImage sym pool install).label (leaveLow sym) s).x 16 =
      word sym.entry + BitVec.ofNat 64 (4 * 27) :=
    word_add sym.entry (4 * 27)
  have hpointer :
      (flatRun (secondaryImage sym pool install).label (leaveLow sym) s).x 19 = s.x 19 := rfl
  generalize flatRun (secondaryImage sym pool install).label (leaveLow sym) s = t at *
  have hbranch := hex.step (k := 26) hstate rfl
  rw [MappedCode.Image.execInstr, State.atInstr_x, htarget, State.atInstr_goto] at hbranch
  exact ⟨t, hruns.trans (.single hbranch), hstate, hpointer⟩

/-! ## Through the kernel map -/

/-- Translation is on, with the kernel map at `root` in the upper half. -/
structure HighHalf (root : ℕ) (regions : List (ℕ × ℕ)) (image : Memory.Image) (s : State) :
    Prop where
  el : s.el = 1
  on : mmuOn (s.sys .sctlrEl1) = true
  little : bigEndian (s.sys .sctlrEl1) = false
  tcr : s.sys .tcrEl1 = word Cpu.tcrValue
  ttbr1 : tableBase (s.sys .ttbr1El1).toNat = root
  map : ExactMap (tablesOf s.mem) root regions image

namespace HighHalf

variable {root va pa : ℕ} {regions : List (ℕ × ℕ)} {kind : AccessKind}

private theorem mmu_translate (h : HighHalf root regions image s) {m : Mapping}
    (ht : translate (tablesOf s.mem) root va = some m)
    (hpermits : ∀ wxn, permits wxn kind m.attrs = true) :
    mmu s kind (word va) = some (word m.pa) := by
  rw [Memory.translate] at ht
  split at ht
  · rename_i hupper
    have hval : (word va).toNat = va := toNat_word hupper.2
    have hnot : ¬ va < 2 ^ 48 := by
      have hlo := hupper.1
      omega
    have hroot : rootOf s va = some root := by
      rw [rootOf, h.tcr, h.ttbr1, if_neg (by decide), if_neg hnot, if_pos hupper]
      rfl
    simp only [mmu, h.el, h.on, h.little, if_true, stageOne, hval, hroot, Option.bind_eq_bind,
      Option.bind_some, ht, hpermits]
    rfl
  · cases ht

/-- The text can be fetched and read, also where writable memory is not executable. -/
theorem mmu_text (h : HighHalf root regions image s) (hbase : kernelImageBase ≤ va)
    (hlt : va < 2 ^ 64)
    (hlo : image.textStart ≤ va) (hhi : va < image.textEnd) (hkind : kind ≠ .store) :
    mmu s kind (word va) = some (word (imagePa va)) := by
  obtain ⟨pa, hpa, ht⟩ := h.map.sections _ (List.mem_cons_self ..) va hlo hhi
  rw [imageVaToPa_ok hbase hlt] at hpa
  cases hpa
  have hpermits (wxn : Bool) : permits wxn kind textAttrs.bits = true := by
    cases kind with
    | fetch => cases wxn <;> decide
    | load => cases wxn <;> decide
    | store => exact absurd rfl hkind
  have hmmu := h.mmu_translate ht hpermits
  rw [imagePa]
  exact hmmu

private theorem mmu_ram (h : HighHalf root regions image s) {region : ℕ × ℕ} (hr : region ∈ regions)
    (hlo : region.1 ≤ pa) (hhi : pa < region.1 + region.2) (hlt : pa < 2 ^ 47) :
    mmu s .load (word (pa + kernelLinearBase)) = some (word pa) := by
  obtain ⟨va, hva, ht⟩ := h.map.linear region hr pa hlo hhi
  rw [paToLinearVa_ok hlt] at hva
  rw [← Except.ok.inj hva] at ht
  have hpermits (wxn : Bool) : permits wxn .load linearRam.bits = true := by cases wxn <;> decide
  exact h.mmu_translate ht hpermits

end HighHalf

private theorem executes_secondary_high (hlink : SecondaryLinked sym pool image)
    (install : State → Option State)
    {root : ℕ}
    {regions : List (ℕ × ℕ)} (h : HighHalf root regions image s) :
    (secondaryImage sym pool install).Executes (Alike s) (word sym.entry) (secondaryCode sym) := by
  apply executes_secondary hlink (List.mem_cons_of_mem _ (List.mem_cons_self ..)) (fun _ _ h => h)
  intro t ht n hn
  obtain ⟨hbase, hlo, hhi⟩ := hlink.entry_inside
  have hlt : sym.entry + n < 2 ^ 64 := by
    have hlow := hlink.low
    simp only [imagePa, kernelImageBase, imagePaBase] at *
    omega
  have hmap (kind : AccessKind) (hkind : kind ≠ .store) : mmu s kind (word (sym.entry + n)) =
      some (word (imagePa sym.entry + n)) := by
    rw [h.mmu_text (by omega) hlt (by omega) (by omega) hkind, hlink.entry_pa]
  rw [ht.mmu_eq, hmap .fetch (by decide), hmap .load (by decide)]
  exact ⟨rfl, rfl⟩

section High

variable {root pa : ℕ} {regions : List (ℕ × ℕ)} {region : ℕ × ℕ} {stack : Word → Prop}

/-- The boot data lies in RAM, at an aligned address. -/
structure InRam (regions : List (ℕ × ℕ)) (pa : ℕ) : Prop where
  aligned : pa % 8 = 0
  inside : ∃ region ∈ regions, region.1 ≤ pa ∧ pa + 24 ≤ region.1 + region.2
  below : pa + 24 ≤ 2 ^ 46

theorem runs_rebase (hlink : SecondaryLinked sym pool image) (install : State → Option State)
    (h : HighHalf root regions image s)
    (hpa : pa < 2 ^ 47) (hpointer : s.x 19 = word pa) :
    ∃ t : State, (secondaryImage sym pool install).Runs (s.atInstr (word sym.entry) 27)
        (t.atInstr (word sym.entry) 30) ∧ Alike s t ∧ t.x 19 = word (pa + kernelLinearBase) := by
  have hex := executes_secondary_high hlink install h
  have hstay : (secondaryImage sym pool install).Stable (Alike s) rebase := stable_alike rfl
  have hruns := hex.runs_ops (k := 27) rfl hstay ⟨rfl, rfl, rfl⟩ (by simp [rebase, Op.level])
    (List.forall_mem_nil _)
  have hstate := MappedCode.Image.Executes.stable_run hstay (s := s) ⟨rfl, rfl, rfl⟩
  have hbase : (flatRun (secondaryImage sym pool install).label rebase s).x 19 =
      s.x 19 ||| word kernelLinearBase := by
    rw [← movk_linearBase]
    rfl
  have hval : (word pa).toNat = pa := toNat_word (by omega)
  rw [hpointer, or_linearBase (by omega), hval] at hbase
  exact ⟨_, hruns, hstate, hbase⟩

private theorem step_bootData (hlink : SecondaryLinked sym pool image)
    (install : State → Option State)
    (h : HighHalf root regions image s)
    (hram : InRam regions pa) (ht : Alike s t)
    (hpointer : t.x 19 = word (pa + kernelLinearBase)) (k : ℕ)
    (r : Fin 31) (imm : ℕ) (himm : imm % 8 = 0) (hlt : imm < 24)
    (hcode : (secondaryCode sym)[k]? = some (.op (.ldr r 19 imm))) :
    (secondaryImage sym pool install).step (t.atInstr (word sym.entry) k) =
      some ((t.set r (load s.mem (word (pa + imm)))).atInstr (word sym.entry) (k + 1)) := by
  obtain ⟨region, hr, hlo, hhi⟩ := hram.inside
  have hbelow := hram.below
  have haligned := hram.aligned
  have haddress : Op.address t 19 imm = word (pa + imm + kernelLinearBase) := by
    rw [Op.address, hpointer, Nat.add_right_comm pa imm]
    exact (word_add _ imm).symm
  rw [← ht.2.2]
  apply (executes_secondary_high hlink install h).step_ldr ht hcode
  · rw [haddress, toNat_word (by simp only [kernelLinearBase]; omega)]
    simp only [kernelLinearBase]
    omega
  · intro u hu
    change mmu u .load _ = _
    rw [hu.mmu_eq, haddress]
    exact h.mmu_ram hr (by omega) (by omega) (by omega)

private theorem secondaryImage_install (sym : SecondarySymbols) (pool : Word → Word)
    (install : State → Option State) :
    (secondaryImage sym pool install).code (word (imagePa sym.installLocal)) =
      some (.compiled install) := by
  simp only [secondaryImage, if_true]

theorem runs_install (hlink : SecondaryLinked sym pool image) (hinstall : Installs stack install)
    (h : HighHalf root regions image s) (hram : InRam regions pa) (ht : Alike s t)
    (hpointer : t.x 19 = word (pa + kernelLinearBase)) :
    ∃ u : State, (secondaryImage sym pool install).Runs (t.atInstr (word sym.entry) 30)
        (u.atInstr (word sym.entry) 34) ∧ u.el = 1 ∧ u.x 19 = t.x 19 ∧
      u.sp 1 = load s.mem (word (pa + 8)) ∧
      u.sys = Function.update s.sys .tpidrEl1 (load s.mem (word pa)) ∧
      ∀ a, ¬ stack a → u.mem a = s.mem a := by
  have hex := executes_secondary_high hlink install h
  have hfirst := step_bootData hlink install h hram ht hpointer 30 1 8 rfl (by decide) rfl
  generalize hu₁ : t.set 1 (load s.mem (word (pa + 8))) = u₁ at hfirst
  have halike₁ : Alike s u₁ := hu₁ ▸ ht
  have hsecond := hex.step_op (k := 31) halike₁ rfl (Nat.zero_le _) (List.forall_mem_nil _)
  generalize hu₂ : (Op.movToSp 1).flat (secondaryImage sym pool install).label u₁ = u₂ at hsecond
  have halike₂ : Alike s u₂ := hu₂ ▸ halike₁
  have hpointer₂ : u₂.x 19 = word (pa + kernelLinearBase) := by
    rw [← hu₂, ← hu₁]
    exact hpointer
  have hthird := step_bootData hlink install h hram halike₂ hpointer₂ 32 0 0 rfl
    (by decide) rfl
  generalize hu₃ : u₂.set 0 (load s.mem (word (pa + 0))) = u₃ at hthird
  have halike₃ : Alike s u₃ := hu₃ ▸ halike₂
  obtain ⟨u, hcall, hel, hsp, hx, hsys, hmem⟩ := hinstall.returns
    ((u₃.set (Fin.last 30) (word sym.entry + BitVec.ofNat 64 (4 * (33 + 1)))).goto
      (word sym.installLocal))
    (halike₃.1.trans h.el)
  have hfetch : ∀ s', Alike s s' →
      (secondaryImage sym pool install).mmu s' .fetch (word sym.installLocal) =
        some (word (imagePa sym.installLocal)) := by
    intro s' hs'
    obtain ⟨hbase, hlo, hhi, hlt⟩ := hlink.install_inside
    change mmu s' .fetch _ = _
    rw [hs'.mmu_eq]
    exact h.mmu_text hbase hlt hlo hhi (by decide)
  have hfourth :=
    hex.runs_call (k := 33) halike₃ rfl hfetch (secondaryImage_install sym pool install)
    (fun _ h _ => h) hcall
  refine ⟨u, .head hfirst (.head hsecond (.head hthird hfourth)), hel, ?_, ?_, ?_, ?_⟩
  · rw [hx, ← hu₃, hpointer, ← hpointer₂]
    rfl
  · have hel₁ : u₁.el = 1 := halike₁.1.trans h.el
    simp only [hsp, ← hu₃, ← hu₂, Op.flat, State.set, State.goto, hel₁, Function.update_self]
    simp only [← hu₁, State.set, Function.update_self]
  · rw [hsys, ← hu₃, Nat.add_zero]
    simp only [State.set, State.goto, ← halike₂.2.1]
    rfl
  · intro a ha
    rw [hmem a ha]
    exact congrFun halike₃.2.2 a

theorem runs_finish (hlink : SecondaryLinked sym pool image) (install : State → Option State)
    (h : HighHalf root regions image s) :
    ∃ t : State, (secondaryImage sym pool install).Runs (s.atInstr (word sym.entry) 34) t ∧
      t.pc = word sym.main ∧ t.el = 1 ∧ t.sp = s.sp ∧ t.x 0 = s.x 19 ∧
      t.sys = Function.update s.sys .vbarEl1 (word sym.vectorTable) ∧ t.mem = s.mem := by
  have hex := executes_secondary_high hlink install h
  have hlit := hex.step_op (k := 34) ⟨rfl, rfl, rfl⟩ rfl (Nat.zero_le _) (List.forall_mem_nil _)
  have hload : Alike s ((Op.ldrLit 1 (word sym.vectorTable)).flat
    (secondaryImage sym pool install).label s) := ⟨rfl, rfl, rfl⟩
  have hmsr :=
    hex.step_op (k := 35) hload rfl (by rw [hload.1, h.el]; decide) (List.forall_mem_nil _)
  generalize hu : (Op.msr .vbarEl1 1).flat (secondaryImage sym pool install).label
    ((Op.ldrLit 1 (word sym.vectorTable)).flat (secondaryImage sym pool install).label s) =
      u at hmsr
  have hel : u.el = 1 := hu ▸ h.el
  have hsys : u.sys = Function.update s.sys .vbarEl1 (word sym.vectorTable) := hu ▸ rfl
  have hmem : u.mem = s.mem := hu ▸ rfl
  have hsp : u.sp = s.sp := hu ▸ rfl
  have hx : u.x 19 = s.x 19 := hu ▸ rfl
  have hhigh : HighHalf root regions image u := by
    constructor
    · exact hel
    · rw [hsys]
      exact h.on
    · rw [hsys]
      exact h.little
    · rw [hsys]
      exact h.tcr
    · rw [hsys]
      exact h.ttbr1
    · rw [hmem]
      exact h.map
  have hex' := executes_secondary_high hlink install hhigh
  have hstay : (secondaryImage sym pool install).Stable (Alike u) [.barrier, .mov 0 19] :=
    stable_alike rfl
  have hmov := hex'.runs_ops (k := 36) rfl hstay ⟨rfl, rfl, rfl⟩ (by simp [Op.level])
    (List.forall_mem_nil _)
  have hbl := hex'.step (s := u.set 0 (u.x 19)) (k := 38) ⟨rfl, rfl, rfl⟩ rfl
  rw [MappedCode.Image.execInstr] at hbl
  refine ⟨_, .head hlit (.head hmsr (hmov.trans (.single hbl))), rfl, hel, hsp, hx, hsys, hmem⟩

end High

end Run

end Preon.Boot
