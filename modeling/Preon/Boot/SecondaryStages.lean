import Preon.Boot.Secondary

/-!
# A secondary CPU takes the steps of the model

The run of `secondary.s`, cut where `runSecondary` has a state: at each cut the system registers are
those of the model.
-/

namespace Preon.Boot

open Framework MappedCode Memory WordMemory

section Run

variable {sym : SecondarySymbols} {pool : Word → Word} {install : State → Option State}
  {image : Memory.Image} {s t : State}

/-! ## The steps of the abstract secondary -/

/-- What the primary has put in memory before it starts the CPU: the boot data in RAM, the
trampoline, and the kernel map under the root that the boot data names, wherever the stack is. -/
structure Ready (sym : SecondarySymbols) (regions : List (ℕ × ℕ)) (image : Memory.Image)
    (stack : Word → Prop) (pa : ℕ) (bd : Cpu.SecondaryBootData) (mem : WordMemory) : Prop where
  ram : InRam regions pa
  percpu : load mem (word pa) = word bd.percpuOffset
  stackTop : load mem (word (pa + 8)) = word bd.stackTop
  root : load mem (word (pa + 16)) = word bd.ttbr1Root
  root_page : pageSize ∣ bd.ttbr1Root ∧ bd.ttbr1Root < 2 ^ 48
  trampoline : Trampoline sym.idmapL0 (tablesOf mem)
  map : ∀ mem' : WordMemory, (∀ a, ¬ stack a → mem' a = mem a) →
    ExactMap (tablesOf mem') bd.ttbr1Root regions image

/-- The order of the stages. -/
def rank : Cpu.SecondaryPc → ℕ
  | .entry => 0
  | .tcrSet => 1
  | .ttbr0Set => 2
  | .ttbr1Set => 3
  | .high => 4
  | .main => 5
  | .parked => 6
  | .panicked => 7

/-- Where the code is at a stage. -/
def place (sym : SecondarySymbols) : Cpu.SecondaryPc → Word
  | .entry => word (imagePa sym.entry) + BitVec.ofNat 64 (4 * 0)
  | .tcrSet => word (imagePa sym.entry) + BitVec.ofNat 64 (4 * 12)
  | .ttbr0Set => word (imagePa sym.entry) + BitVec.ofNat 64 (4 * 15)
  | .ttbr1Set => word (imagePa sym.entry) + BitVec.ofNat 64 (4 * 17)
  | .high => word sym.entry + BitVec.ofNat 64 (4 * 27)
  | .main => word sym.main
  | .parked => word sym.main
  | .panicked => word sym.main

/-- A CPU at a stage: the registers that are written by then, in the model and in the machine. -/
structure Represents (sym : SecondarySymbols) (regions : List (ℕ × ℕ)) (image : Memory.Image)
    (stack : Word → Prop) (pa : ℕ) (bd : Cpu.SecondaryBootData) (stage : Cpu.SecondaryPc)
    (regs : Cpu.Registers) (s : State) : Prop where
  el : s.el = 1
  on : mmuOn (s.sys .sctlrEl1) = regs.mmuOn
  flipped : regs.mmuOn = decide (4 ≤ rank stage)
  little : bigEndian (s.sys .sctlrEl1) = false
  executable : writeImpliesXn (s.sys .sctlrEl1) = false
  tcr : 1 ≤ rank stage → regs.tcr = Cpu.tcrValue ∧ s.sys .tcrEl1 = word regs.tcr ∧
    s.sys .mairEl1 = word mairValue
  ttbr0 : 2 ≤ rank stage → regs.ttbr0 = sym.idmapL0 ∧ s.sys .ttbr0El1 = word regs.ttbr0
  ttbr1 : 3 ≤ rank stage → regs.ttbr1 = bd.ttbr1Root ∧ s.sys .ttbr1El1 = word regs.ttbr1
  ready : rank stage < 5 → Ready sym regions image stack pa bd s.mem
  pointer : rank stage < 5 → s.x (if rank stage = 0 then 0 else 19) = word pa
  entered : 5 ≤ rank stage → regs.tpidr = bd.percpuOffset ∧ s.sys .tpidrEl1 = word regs.tpidr ∧
    s.sp 1 = word bd.stackTop ∧ s.sys .vbarEl1 = word sym.vectorTable ∧
    s.x 0 = word (pa + kernelLinearBase)

section Steps

variable {regions : List (ℕ × ℕ)} {stack : Word → Prop} {pa : ℕ} {bd : Cpu.SecondaryBootData}
  {stage : Cpu.SecondaryPc} {regs : Cpu.Registers}

namespace Represents

private theorem off (h : Represents sym regions image stack pa bd stage regs s)
    (hlt : rank stage < 4) :
    OffAt 1 s := by
  apply offAt_one h.el
  rw [plain_iff, h.on, h.flipped]
  exact ⟨decide_eq_false (Nat.not_le.mpr hlt), h.little⟩

private theorem of_off (h : Represents sym regions image stack pa bd stage regs s)
    (hs : rank stage < 4)
    {stage' : Cpu.SecondaryPc} {regs' : Cpu.Registers} (hpos : rank stage' ≠ 0)
    (hlt : rank stage' < 4)
    (hoff : OffAt 1 t) (hsctlr : t.sys .sctlrEl1 = s.sys .sctlrEl1) (hmem : t.mem = s.mem)
    (hx : t.x 19 = s.x (if rank stage = 0 then 0 else 19))
    (hmmu : regs'.mmuOn = false)
    (htcr : 1 ≤ rank stage' → regs'.tcr = Cpu.tcrValue ∧ t.sys .tcrEl1 = word regs'.tcr ∧
      t.sys .mairEl1 = word mairValue)
    (httbr0 : 2 ≤ rank stage' → regs'.ttbr0 = sym.idmapL0 ∧ t.sys .ttbr0El1 = word regs'.ttbr0)
    (httbr1 : 3 ≤ rank stage' → regs'.ttbr1 = bd.ttbr1Root ∧ t.sys .ttbr1El1 = word regs'.ttbr1) :
    Represents sym regions image stack pa bd stage' regs' t where
  el := hoff.1
  on := (plain_iff.mp hoff.sctlr).1.trans hmmu.symm
  flipped := hmmu.trans (decide_eq_false (Nat.not_le.mpr hlt)).symm
  little := (plain_iff.mp hoff.sctlr).2
  executable := hsctlr ▸ h.executable
  tcr := htcr
  ttbr0 := httbr0
  ttbr1 := httbr1
  ready _ := hmem ▸ h.ready (by omega)
  pointer _ := by
    rw [if_neg hpos, hx]
    exact h.pointer (by omega)
  entered hrank := by omega

private theorem enter (hlink : SecondaryLinked sym pool image) (install : State → Option State)
    (h : Represents sym regions image stack pa bd .entry regs s) :
    ∃ t, (secondaryImage sym pool install).Runs (s.goto (place sym .entry))
      (t.goto (place sym .tcrSet)) ∧
      Represents sym regions image stack pa bd .tcrSet { regs with tcr := Cpu.tcrValue } t := by
  obtain ⟨t, hruns, hoff, hx, hsys, hmem⟩ := runs_enter hlink install (h.off (by decide))
  refine ⟨t, hruns, h.of_off (by decide) (by decide) (by decide) hoff
    (hsys ▸ rfl) hmem hx h.flipped ?_ ?_ ?_⟩
  · intro _
    exact ⟨rfl, congrFun hsys .tcrEl1, congrFun hsys .mairEl1⟩
  · intro hrank
    exact absurd hrank (by decide)
  · intro hrank
    exact absurd hrank (by decide)

private theorem installIdentity (hlink : SecondaryLinked sym pool image)
    (install : State → Option State)
    (h : Represents sym regions image stack pa bd .tcrSet regs s) :
    ∃ t, (secondaryImage sym pool install).Runs (s.goto (place sym .tcrSet))
        (t.goto (place sym .ttbr0Set)) ∧
      Represents sym regions image stack pa bd .ttbr0Set { regs with ttbr0 := sym.idmapL0 } t := by
  obtain ⟨t, hruns, hoff, hx, hsys, hmem⟩ :=
    runs_identityRoot hlink install (h.off (by decide))
  refine ⟨t, hruns, h.of_off (by decide) (by decide) (by decide) hoff
    (hsys ▸ rfl) hmem hx h.flipped ?_ ?_ ?_⟩
  · intro _
    rw [hsys]
    exact h.tcr (by decide)
  · intro _
    exact ⟨rfl, congrFun hsys .ttbr0El1⟩
  · intro hrank
    exact absurd hrank (by decide)

private theorem installRoot (hlink : SecondaryLinked sym pool image)
    (install : State → Option State)
    (h : Represents sym regions image stack pa bd .ttbr0Set regs s) :
    ∃ t, (secondaryImage sym pool install).Runs (s.goto (place sym .ttbr0Set))
        (t.goto (place sym .ttbr1Set)) ∧
      Represents sym regions image stack pa bd .ttbr1Set { regs with ttbr1 := bd.ttbr1Root } t := by
  have hready := h.ready (by decide)
  have haddress : s.x 19 + 16 = word (pa + 16) := by
    rw [word_add, ← h.pointer (by decide)]
    rfl
  have halign : (s.x 19 + 16).toNat % 8 = 0 := by
    have haligned := hready.ram.aligned
    have hbelow := hready.ram.below
    rw [haddress, toNat_word (by omega)]
    omega
  obtain ⟨t, hruns, hoff, hx, hsys, hmem⟩ :=
    runs_kernelRoot hlink install (h.off (by decide)) halign
  rw [haddress, hready.root] at hsys
  refine ⟨t, hruns, h.of_off (by decide) (by decide) (by decide) hoff
    (hsys ▸ rfl) hmem hx h.flipped ?_ ?_ ?_⟩
  · intro _
    rw [hsys]
    exact h.tcr (by decide)
  · intro _
    rw [hsys]
    exact h.ttbr0 (by decide)
  · intro _
    exact ⟨rfl, congrFun hsys .ttbr1El1⟩

private theorem flip (hlink : SecondaryLinked sym pool image) (install : State → Option State)
    (h : Represents sym regions image stack pa bd .ttbr1Set regs s) :
    ∃ t, (secondaryImage sym pool install).Runs (s.goto (place sym .ttbr1Set))
      (t.goto (place sym .high)) ∧
      Represents sym regions image stack pa bd .high { regs with mmuOn := true } t := by
  obtain ⟨u, hruns, hel, hx, hsys, hmem⟩ := runs_enable hlink install (h.off (by decide))
  have hready := h.ready (by decide)
  have htcr := h.tcr (by decide)
  have httbr0 := h.ttbr0 (by decide)
  have httbr1 := h.ttbr1 (by decide)
  have hlow : LowHalf sym.idmapL0 u := by
    constructor
    · exact Nat.mod_eq_zero_of_dvd hlink.tables_aligned
    · exact hlink.tables_end
    · exact hel
    · rw [hsys]
      exact mmuOn_or_one _
    · rw [hsys]
      exact (bigEndian_or_one _).trans h.little
    · rw [hsys, ← htcr.1]
      exact htcr.2.1
    · rw [hmem]
      exact hready.trampoline
    · have hroot : u.sys .ttbr0El1 = word sym.idmapL0 := by
        rw [hsys, ← httbr0.1]
        exact httbr0.2
      have hend := hlink.tables_end
      rw [hroot,
        tableBase_word hlink.tables_aligned
          (by simp only [bootTablePages, pageSize] at hend; omega)]
      rfl
  have hwxn : writeImpliesXn (u.sys .sctlrEl1) = false := by
    rw [hsys]
    exact (writeImpliesXn_or_one _).trans h.executable
  obtain ⟨t, hruns', halike, hx'⟩ := runs_leaveLow hlink install hlow hwxn
  have hsys' : t.sys = Function.update s.sys .sctlrEl1 (s.sys .sctlrEl1 ||| 1) :=
    halike.2.1.trans hsys
  refine ⟨t, hruns.trans hruns', ?_⟩
  constructor
  · exact halike.1.trans hel
  · rw [hsys']
    exact mmuOn_or_one _
  · rfl
  · rw [hsys']
    exact (bigEndian_or_one _).trans h.little
  · rw [hsys']
    exact (writeImpliesXn_or_one _).trans h.executable
  · intro _
    rw [hsys']
    exact htcr
  · intro _
    rw [hsys']
    exact httbr0
  · intro _
    rw [hsys']
    exact httbr1
  · intro _
    rw [halike.2.2, hmem]
    exact hready
  · intro _
    exact (hx'.trans hx).trans (h.pointer (by decide))
  · intro hrank
    exact absurd hrank (by decide)

private theorem high (h : Represents sym regions image stack pa bd .high regs s) :
    HighHalf bd.ttbr1Root regions image s where
  el := h.el
  on := h.on.trans h.flipped
  little := h.little
  tcr := by
    have htcr := h.tcr (by decide)
    rw [← htcr.1]
    exact htcr.2.1
  ttbr1 := by
    have httbr1 := h.ttbr1 (by decide)
    have hpage := (h.ready (by decide)).root_page
    rw [httbr1.2, httbr1.1, tableBase_word hpage.1 hpage.2]
  map := (h.ready (by decide)).map s.mem fun _ _ => rfl

private theorem enterMain (hlink : SecondaryLinked sym pool image)
    (hinstall : Installs stack install)
    (h : Represents sym regions image stack pa bd .high regs s) :
    ∃ t, (secondaryImage sym pool install).Runs (s.goto (place sym .high))
      (t.goto (place sym .main)) ∧
      Represents sym regions image stack pa bd .main { regs with tpidr := bd.percpuOffset } t := by
  have hready := h.ready (by decide)
  have hbelow := hready.ram.below
  obtain ⟨u₁, hruns₁, halike, hpointer⟩ := runs_rebase hlink install h.high
    (by omega) (h.pointer (by decide))
  obtain ⟨u₂, hruns₂, hel, hx, hsp, hsys, hmem⟩ :=
    runs_install hlink hinstall h.high hready.ram halike
    hpointer
  have hhigh : HighHalf bd.ttbr1Root regions image u₂ := by
    constructor
    · exact hel
    · rw [hsys]
      exact h.high.on
    · rw [hsys]
      exact h.little
    · rw [hsys]
      exact h.high.tcr
    · rw [hsys]
      exact h.high.ttbr1
    · exact hready.map u₂.mem hmem
  obtain ⟨t, hruns₃, hpc, helt, hspt, hxt, hsyst, hmemt⟩ := runs_finish hlink install hhigh
  have hat : t.goto (place sym .main) = t := by
    rw [place, ← hpc]
    rfl
  rw [hsys] at hsyst
  refine ⟨t, ?_, ?_⟩
  · rw [hat]
    exact (hruns₁.trans hruns₂).trans hruns₃
  constructor
  · exact helt
  · rw [hsyst]
    exact h.on
  · exact h.flipped
  · rw [hsyst]
    exact h.little
  · rw [hsyst]
    exact h.executable
  · intro _
    rw [hsyst]
    exact h.tcr (by decide)
  · intro _
    rw [hsyst]
    exact h.ttbr0 (by decide)
  · intro _
    rw [hsyst]
    exact h.ttbr1 (by decide)
  · intro hrank
    exact absurd hrank (by decide)
  · intro hrank
    exact absurd hrank (by decide)
  · intro _
    refine ⟨rfl, ?_, ?_, ?_, ?_⟩
    · rw [hsyst, ← hready.percpu]
      rfl
    · rw [hspt, hsp, hready.stackTop]
    · rw [hsyst]
      rfl
    · rw [hxt, hx, hpointer]

private theorem step {pl : Cpu.Platform} {st : Cpu.Smp} {slot : ℕ}
    (hlink : SecondaryLinked sym pool image)
    (hinstall : Installs stack install) (hpl : pl.idmapL0 = sym.idmapL0)
    (h : Represents sym regions image stack pa (st.bootData slot) stage regs s)
    (hlt : rank stage < 5) :
    ∃ t stage' regs', rank stage' = rank stage + 1 ∧
      (secondaryImage sym pool install).Runs (s.goto (place sym stage))
        (t.goto (place sym stage')) ∧
      st.runSecondary pl slot ⟨stage, regs⟩ = st.putSecondary slot ⟨stage', regs'⟩ ∧
      Represents sym regions image stack pa (st.bootData slot) stage' regs' t := by
  cases stage with
  | entry =>
      obtain ⟨t, hruns, ht⟩ := h.enter hlink install
      exact ⟨t, _, _, rfl, hruns, rfl, ht⟩
  | tcrSet =>
      obtain ⟨t, hruns, ht⟩ := h.installIdentity hlink install
      rw [← hpl] at ht
      exact ⟨t, _, _, rfl, hruns, rfl, ht⟩
  | ttbr0Set =>
      obtain ⟨t, hruns, ht⟩ := h.installRoot hlink install
      exact ⟨t, _, _, rfl, hruns, rfl, ht⟩
  | ttbr1Set =>
      obtain ⟨t, hruns, ht⟩ := h.flip hlink install
      exact ⟨t, _, _, rfl, hruns, rfl, ht⟩
  | high =>
      obtain ⟨t, hruns, ht⟩ := h.enterMain hlink hinstall
      exact ⟨t, _, _, rfl, hruns, rfl, ht⟩
  | main => exact absurd hlt (by decide)
  | parked => exact absurd hlt (by decide)
  | panicked => exact absurd hlt (by decide)

end Represents

/-- A step of the secondary of a slot, if it runs. -/
def advance (pl : Cpu.Platform) (slot : ℕ) (st : Cpu.Smp) : Cpu.Smp :=
  match st.secondary slot with
  | some sec => st.runSecondary pl slot sec
  | none => st

/-- From the firmware's jump to `secondary_cpu_main` the machine goes through the stages of the
model, and the registers at each stage are those of the model. -/
theorem secondary_refines {pl : Cpu.Platform} {st : Cpu.Smp} {slot : ℕ}
    (hlink : SecondaryLinked sym pool image) (hinstall : Installs stack install)
    (hpl : pl.idmapL0 = sym.idmapL0) (hsec : st.secondary slot = some Cpu.Smp.switchedOn)
    (hel : s.el = 1) (hoff : plain (s.sys .sctlrEl1) = true)
    (hwxn : writeImpliesXn (s.sys .sctlrEl1) = false) (hx : s.x 0 = word pa)
    (hready : Ready sym regions image stack pa (st.bootData slot) s.mem) (n : ℕ) (hn : n ≤ 5) :
    ∃ t stage regs, rank stage = n ∧
      (secondaryImage sym pool install).Runs (s.goto (word (imagePa sym.entry)))
        (t.goto (place sym stage)) ∧
      ((advance pl slot)^[n] st).secondary slot = some ⟨stage, regs⟩ ∧
      ((advance pl slot)^[n] st).bootData slot = st.bootData slot ∧
      Represents sym regions image stack pa (st.bootData slot) stage regs t := by
  induction n with
  | zero =>
      refine ⟨s, .entry, ⟨0, 0, 0, 0, false⟩, rfl, ?_, hsec, rfl, ?_⟩
      · have hstart : place sym .entry = word (imagePa sym.entry) := BitVec.add_zero _
        rw [hstart]
        exact .refl
      · constructor
        · exact hel
        · exact (plain_iff.mp hoff).1
        · rfl
        · exact (plain_iff.mp hoff).2
        · exact hwxn
        · intro hrank
          exact absurd hrank (by decide)
        · intro hrank
          exact absurd hrank (by decide)
        · intro hrank
          exact absurd hrank (by decide)
        · intro _
          exact hready
        · intro _
          exact hx
        · intro hrank
          exact absurd hrank (by decide)
  | succ n ih =>
      obtain ⟨t, stage, regs, hrank, hruns, hsec', hdata, ht⟩ := ih (by omega)
      rw [← hdata] at ht
      obtain ⟨u, stage', regs', hrank', hruns', hstep, hu⟩ := ht.step hlink hinstall hpl (by omega)
      have hadvance : (advance pl slot)^[n + 1] st =
          Cpu.Smp.putSecondary ((advance pl slot)^[n] st) slot ⟨stage', regs'⟩ := by
        rw [Function.iterate_succ_apply', ← hstep, advance, hsec']
      rw [hadvance]
      rw [hdata] at hu
      exact ⟨u, stage', regs', by omega, hruns.trans hruns', Function.update_self .., hdata, hu⟩

end Steps

end Run

/-! ### One machine -/

/-- The code in the text page of a small image. -/
def secondarySymbols : SecondarySymbols where
  entry := imagePage 256
  size := 0x200
  idmapL0 := 0x40081000
  vectorTable := imagePage 256 + 0x800
  installLocal := imagePage 256 + 0x400
  main := imagePage 256 + 0x500

private theorem secondaryLinked : SecondaryLinked secondarySymbols id (pageImage 463) where
  entry_aligned := by decide
  size_le := by decide
  entry_inside := by decide
  low := by decide
  install_inside := by decide
  install_apart := by decide
  pool_inside base _ k hk := ⟨4 * k, by change 4 * k < 0x200; omega, rfl⟩
  tables_aligned := by decide
  tables_end := by decide

/-- The two instructions that a release build makes of `install_current_cpu_local`. -/
def releaseInstall (s : State) : Option State := some (s.setSys .tpidrEl1 (s.x 0))

private theorem releaseInstall_installs : Installs (fun _ => False) releaseInstall where
  returns _ hel := ⟨_, rfl, hel, rfl, rfl, rfl, fun _ _ => rfl⟩

def secondaryData : Cpu.SecondaryBootData := ⟨0x2000, 0x40190000 + kernelLinearBase, 0x40108000⟩

def secondaryPage (t i : ℕ) : ℕ :=
  if t = 0x40180000 then [secondaryData.percpuOffset, secondaryData.stackTop,
    secondaryData.ttbr1Root].getD i 0
  else 0

/-- With the trampoline, and the pool that `build` takes its tables from. -/
def secondaryMemory : TableMemory :=
  ⟨bootTables 0x40081000 secondaryPage, poolSupply (imagePage 264)⟩

private theorem secondaryMemory_apart (table : BootTable) :
    table.pa 0x40081000 ∉ secondaryMemory.supply := by
  cases table <;> decide

private theorem secondaryMemory_tables {t : ℕ} (h : ∀ table : BootTable, t ≠ table.pa 0x40081000)
    (hout : ¬ (0x40081000 ≤ t ∧ t < 0x40081000 + bootTablePages * pageSize)) (i : ℕ) :
    secondaryMemory.tables t i = secondaryPage t i := by
  change bootTables 0x40081000 secondaryPage t i = _
  rw [bootTables_outside _ h, clearTables, if_neg hout]

private theorem secondaryMemory_fresh : secondaryMemory.Fresh := by
  have hpool := pool_fresh (show pageSize ∣ imagePage 264 by decide) (by decide)
  have hplaced : ∀ f ∈ poolSupply (imagePage 264), f ≠ 0x40180000 ∧
      ¬ (0x40081000 ≤ f ∧ f < 0x40081000 + bootTablePages * pageSize) := by
    decide
  refine ⟨hpool.nodup, hpool.aligned, hpool.physical, ?_⟩
  intro f hf i
  rw [secondaryMemory_tables (fun table heq => secondaryMemory_apart table (heq ▸ hf))
    (hplaced f hf).2,
    secondaryPage, if_neg (hplaced f hf).1]

private theorem build_secondaryMemory :
    ∃ st', build [(0x40000000, 1 * block2MB)]
      (pageImage 463) secondaryMemory = .ok (0x40108000, st') := by
  have hok : (build [(0x40000000, 1 * block2MB)] (pageImage 463) secondaryMemory).isOk = true := by
    simp only [build, buildLinear, List.foldlM_cons, List.foldlM_nil,
      buildImage_pageImage (show 463 < 2 ^ 18 by decide),
      mapRegion_blocks (show 0x40000000 % block2MB = 0 by decide)
        (show 1 < 512 by decide) (by decide)]
    decide +kernel
  cases hbuild : build [(0x40000000, 1 * block2MB)] (pageImage 463) secondaryMemory with
  | ok r =>
      obtain ⟨root, st'⟩ := r
      obtain ⟨st₁, -, -, halloc, -⟩ := build_eq_ok hbuild
      have hroot : secondaryMemory.allocPage = .ok (0x40108000, ⟨secondaryMemory.tables,
        (poolSupply (imagePage 264)).tail⟩) := rfl
      rw [hroot] at halloc
      obtain ⟨rfl, -⟩ := Prod.mk.inj (Except.ok.inj halloc)
      exact ⟨st', rfl⟩
  | error e =>
      rw [hbuild] at hok
      cases hok

private theorem ExactMap.of_slots {tables words : ℕ → ℕ → ℕ} {root : ℕ} {regions : List (ℕ × ℕ)}
    {image : Memory.Image} (h : ExactMap tables root regions image)
    (hwords : ∀ t i, Place t i → words t i = tables t i % 2 ^ 64) (hpage : pageSize ∣ root)
    (hlt : root < 2 ^ 48) : ExactMap words root regions image := by
  have hsame := translate_of_slots hwords hpage hlt
  constructor
  · intro region hr pa hlo hhi
    obtain ⟨va, hva, ht⟩ := h.linear region hr pa hlo hhi
    exact ⟨va, hva, (hsame va).trans ht⟩
  · intro part hp va hlo hhi
    obtain ⟨pa, hpa, ht⟩ := h.sections part hp va hlo hhi
    exact ⟨pa, hpa, (hsame va).trans ht⟩
  · obtain ⟨va, hva, ht⟩ := h.device
    exact ⟨va, hva, fun i hi => (hsame _).trans (ht i hi)⟩
  · intro va hva hlinear hsections hdevice
    exact (hsame va).trans (h.only va hva hlinear hsections hdevice)
  · intro va m hm
    exact h.guarded va m ((hsame va).symm.trans hm)

private theorem secondaryMemory_ready {st' : TableMemory}
    (hbuild : build [(0x40000000, 1 * block2MB)] (pageImage 463) secondaryMemory =
      .ok (0x40108000, st')) :
    Ready secondarySymbols [(0x40000000, 1 * block2MB)] (pageImage 463) (fun _ => False) 0x40180000
      secondaryData (memoryOf st'.tables) := by
  have hslots : ∀ t i, Place t i → tablesOf (memoryOf st'.tables) t i = st'.tables t i % 2 ^ 64 :=
    fun t i h => tablesOf_memoryOf h
  have hdata (i : ℕ) (hi : i < 512) : load (memoryOf st'.tables) (word (0x40180000 + 8 * i)) =
      word (secondaryPage 0x40180000 i) := by
    have hkept : st'.tables 0x40180000 i = secondaryPage 0x40180000 i := by
      rw [build_outside secondaryMemory_fresh hbuild (by decide)]
      exact secondaryMemory_tables (fun table => by cases table <;> decide) (by decide) i
    have hword : (word (0x40180000 + 8 * i)).toNat = 8 * (0x40180000 / 8 + i) := by
      rw [toNat_word (by omega)]
      omega
    rw [memoryOf, load_ofWords hword, show (0x40180000 / 8 + i) / 512 * pageSize = 0x40180000 by
      simp only [pageSize]; omega, show (0x40180000 / 8 + i) % 512 = i by omega, hkept]
  constructor
  · exact ⟨by decide, ⟨_, List.mem_singleton_self _, by decide, by decide⟩, by decide⟩
  · exact hdata 0 (by decide)
  · exact hdata 1 (by decide)
  · exact hdata 2 (by decide)
  · decide
  · -- `build` has left the pages of the trampoline alone
    have hkept : Trampoline 0x40081000 st'.tables := by
      have hexact := bootTables_trampoline 0x40081000 secondaryPage
      have hsame (table : BootTable) : st'.tables (table.pa 0x40081000) =
          bootTables 0x40081000 secondaryPage (table.pa 0x40081000) :=
        build_outside secondaryMemory_fresh hbuild (secondaryMemory_apart table)
      constructor
      · intro st hst
        rw [hsame]
        exact hexact.stores st hst
      · intro table slot hslot hnot
        rw [hsame]
        exact hexact.empty table slot hslot hnot
    exact hkept.of_slots hslots (fun table => by cases table <;> decide) (by decide)
  · intro mem' hmem
    have hsame : mem' = memoryOf st'.tables := funext fun a => hmem a not_false
    rw [hsame]
    have hexact :=
      (build_translates secondaryMemory_fresh (by decide) (pageImage_aligned (by decide))
      (pageImage_placed (by decide) (by decide)).inside hbuild).exactMap
        (List.pairwise_singleton ..)
      (by decide) (pageImage_placed (by decide) (by decide))
    exact ExactMap.of_slots hexact hslots (by decide) (by decide)

/-- The platform of the machine, and its first secondary as the firmware has switched it on. -/
def secondaryPlatform : Cpu.Platform :=
  ⟨.releaseDev, 0, [0, 1], 0x40108000, 0x40081000, 0x40190000, 0x40188000, by decide⟩

def secondarySmp : Cpu.Smp :=
  ⟨1, [(0, 0)], fun _ => ⟨0, 0⟩, fun _ => secondaryData, .waiting [], ⟨0, 0, 0, 0, true⟩, 1,
    fun _ => some Cpu.Smp.switchedOn⟩

/-- The CPU as the firmware leaves it. -/
def secondaryState (tables : ℕ → ℕ → ℕ) : State where
  x _ := 0x40180000
  sp _ := 0
  pc := 0
  el := 1
  z := false
  c := false
  sys _ := 0
  mem := memoryOf tables

theorem secondary_refines_main : ∃ st',
    build [(0x40000000, 1 * block2MB)] (pageImage 463) secondaryMemory = .ok (0x40108000, st') ∧
      ∃ t stage regs, rank stage = 5 ∧
        (secondaryImage secondarySymbols id releaseInstall).Runs
          ((secondaryState st'.tables).goto (word (imagePa secondarySymbols.entry)))
          (t.goto (place secondarySymbols stage)) ∧
        ((advance secondaryPlatform 1)^[5] secondarySmp).secondary 1 = some ⟨stage, regs⟩ ∧
        ((advance secondaryPlatform 1)^[5] secondarySmp).bootData 1 = secondaryData ∧
        Represents secondarySymbols [(0x40000000, 1 * block2MB)] (pageImage 463) (fun _ => False)
          0x40180000 secondaryData stage regs t := by
  obtain ⟨st', hbuild⟩ := build_secondaryMemory
  refine ⟨st', hbuild, ?_⟩
  have hoff : plain ((secondaryState st'.tables).sys .sctlrEl1) = true := by
    change plain 0 = true
    decide
  have hwxn : writeImpliesXn ((secondaryState st'.tables).sys .sctlrEl1) = false := by
    change writeImpliesXn 0 = false
    decide
  have hpl : secondaryPlatform.idmapL0 = secondarySymbols.idmapL0 := rfl
  have hsec : secondarySmp.secondary 1 = some Cpu.Smp.switchedOn := rfl
  exact secondary_refines secondaryLinked releaseInstall_installs hpl hsec rfl hoff hwxn rfl
    (secondaryMemory_ready hbuild) 5 (Nat.le_refl 5)

end Preon.Boot
