import Preon.Memory.BootHandoff
import Preon.Memory.KernelMap

/-!
# A booted machine

The device tree's RAM list has two readers: `kernel_map::build` maps it and `build_bootmem` passes
it on to the buddy allocator.  What the allocator hands out later, the frames of the trampoline
included, has to be mapped.
-/

namespace Preon.Memory

open Framework TableMemory BootMem BuddyAllocator

/-! ## What the kernel is started with -/

/-- The RAM regions as base and size, the linker symbols, and the device tree blob with its linear
address. -/
structure BootInfo where
  regions : List (ℕ × ℕ)
  image : Image
  bootBssStart : ℕ
  bootBssEnd : ℕ
  dtb : ℕ
  fdtSize : ℕ

namespace BootInfo

/-- The symbol `__stack_top_pa` of the linker script. -/
def stackTopPa (info : BootInfo) : ℕ := imagePa info.image.stackTop

def fdtPa (info : BootInfo) : ℕ := info.dtb - kernelLinearBase

def ram (info : BootInfo) : List (ℕ × ℕ) := info.regions.map fun r => (r.1, r.1 + r.2)

def reservations (info : BootInfo) : List (ℕ × ℕ) :=
  [(physLoadBase, info.stackTopPa), (info.fdtPa, info.fdtPa + info.fdtSize)]

structure Contract (info : BootInfo) : Prop where
  disjoint : info.regions.Pairwise RangesApart
  placed : info.image.Placed
  image_nonempty : physLoadBase < info.stackTopPa
  loaded : ∃ r ∈ info.regions, r.1 ≤ physLoadBase ∧ info.stackTopPa ≤ r.1 + r.2
  bootBss_inside : physLoadBase ≤ info.bootBssStart ∧ info.bootBssStart < info.bootBssEnd ∧
    info.bootBssEnd ≤ info.stackTopPa
  bootBss_aligned : pageSize ∣ info.bootBssStart ∧ pageSize ∣ info.bootBssEnd
  blob_nonempty : 0 < info.fdtSize
  blob_linear : kernelLinearBase ≤ info.dtb
  blob_below : ∃ r ∈ info.regions, info.fdtPa + info.fdtSize ≤ r.1 + r.2

end BootInfo

def reclaimTrampoline (buddy : BuddyAllocator) (bbStart bbEnd : ℕ) : Outcome BuddyAllocator := do
  let bytes ← checkedSub bbEnd bbStart
  let bbPages := bytes / pageSize
  let a ← buddy.pfnOf bbStart
  buddy.freeRange a bbPages

/-- The allocator behind `BUDDY`, the blocks that are out, and whether the trampoline was
reclaimed. -/
structure Booted where
  allocator : BuddyAllocator
  live : List (ℕ × ℕ)
  reclaimed : Bool

inductive BootedEvent
  | page (call : PageEvent)
  | reclaim

namespace Booted

/-- `reclaim_trampoline` is called at most once. -/
def Step (info : BootInfo) (r : Booted) : BootedEvent → Booted → Prop
  | .page call, r' =>
      PageRun.Step ⟨r.allocator, r.live, []⟩ call ⟨r'.allocator, r'.live, []⟩ ∧
        r'.reclaimed = r.reclaimed
  | .reclaim, r' =>
      r.reclaimed = false ∧
        reclaimTrampoline r.allocator info.bootBssStart info.bootBssEnd = .ok r'.allocator ∧
        r'.live = r.live ∧ r'.reclaimed = true

end Booted

def bootedSystem (info : BootInfo) (s : BuddyAllocator) : System Booted BootedEvent where
  init r := r = ⟨s, [], false⟩
  step := Booted.Step info

/-! ## Registration -/

private theorem addMemory_regions {regions : List (ℕ × ℕ)}
    (hend : ∀ r ∈ regions, r.1 + r.2 < 2 ^ 64)
    (b : BootMem) :
    regions.foldlM (fun boot region => do
      let stop ← checkedAdd 64 region.1 region.2
      boot.addMemoryBytes region.1 stop) b =
        (regions.map fun r => (r.1, r.1 + r.2)).foldlM (fun b r => b.addMemoryBytes r.1 r.2) b := by
  induction regions generalizing b with
  | nil => rfl
  | cons r rs ih =>
      rw [List.forall_mem_cons] at hend
      rw [List.map_cons, List.foldlM_cons, List.foldlM_cons, checkedAdd_ok hend.1, ok_bind]
      cases b.addMemoryBytes r.1 (r.1 + r.2) with
      | error e => rfl
      | ok b' => rw [ok_bind, ok_bind, ih hend.2]

private theorem buildBootmem_eq_feed {regions : List (ℕ × ℕ)} {imgEnd dtb fdtPa fdtSize : ℕ}
    (hend : ∀ r ∈ regions, r.1 + r.2 < 2 ^ 64) (hdtb : linearVaToPa dtb = .ok fdtPa)
    (hfdt : fdtPa + fdtSize < 2 ^ 64) :
    buildBootmem regions imgEnd dtb fdtSize = feed (regions.map fun r => (r.1, r.1 + r.2))
      [(physLoadBase, imgEnd), (fdtPa, fdtPa + fdtSize)] := by
  rw [buildBootmem, feed, addMemory_regions hend, hdtb]
  simp only [ok_bind, List.foldlM_cons, List.foldlM_nil, bind_pure, checkedAdd_ok hfdt]

private theorem feed_capacity {ram reservations : List (ℕ × ℕ)} {boot : BootMem}
    (hend : ∀ r ∈ ram, r.2 ≤ maxEnd) (h : feed ram reservations = .ok boot) :
    (ram.filter fun r => decide (HoldsPage r)).length ≤ nrRegions := by
  obtain ⟨b', hfold, -⟩ := bind_eq_ok.mp h
  have hcap (b : BootMem) (hb : b.memory.length ≤ nrRegions)
      (hok : ram.foldlM (fun b r => b.addMemoryBytes r.1 r.2) b = .ok b') :
      b.memory.length + (ram.filter fun r => decide (HoldsPage r)).length ≤ nrRegions := by
    clear hfold h
    induction ram generalizing b with
    | nil => exact hb
    | cons r rs ih =>
        rw [List.forall_mem_cons] at hend
        rw [List.foldlM_cons] at hok
        obtain ⟨b₁, hr, hok⟩ := bind_eq_ok.mp hok
        by_cases hp : HoldsPage r
        · have hlt := addMemoryBytes_capacity hp hr
          obtain rfl :=
            Except.ok.inj ((addMemoryBytes_ok (ramRegion_proper hp hend.1) hlt).symm.trans hr)
          have := ih hend.2 _ (by simpa using hlt) hok
          rw [List.filter_cons_of_pos (by simpa using hp), List.length_cons]
          simp only [List.length_append, List.length_singleton] at this
          omega
        · obtain rfl := Except.ok.inj ((addMemoryBytes_none hp).symm.trans hr)
          rw [List.filter_cons_of_neg (by simpa using hp)]
          exact ih hend.2 _ hb hok
  simpa [BootMem.new] using hcap BootMem.new (by decide) hfold

namespace BootInfo

variable {info : BootInfo}

private theorem Contract.stackTopPa_aligned (h : info.Contract) : pageSize ∣ info.stackTopPa := by
  have hstack := h.placed.aligned ⟨info.image.stackBottom, info.image.stackTop, stackAttrs⟩
    (by simp [Image.sections])
  exact Nat.dvd_add (Nat.dvd_sub hstack.2 (by decide)) (by decide)

private theorem Contract.input (h : info.Contract) (hend : ∀ r ∈ info.regions, r.1 + r.2 ≤ maxEnd)
    (hcap : (info.ram.filter fun r => decide (HoldsPage r)).length ≤ nrRegions) :
    Input info.ram info.reservations := by
  obtain ⟨r, hr, hlo, hhi⟩ := h.loaded
  obtain ⟨r', hr', hblob⟩ := h.blob_below
  refine ⟨?_, ?_, ?_, ?_, ?_, hcap, show 2 < nrRegions by decide⟩
  · rw [ram, List.pairwise_map]
    apply h.disjoint.imp
    intro a b hab
    rw [Finset.disjoint_left]
    intro pa ha hb
    rw [Finset.mem_Ico] at ha hb
    exact hab pa ha.1 ha.2 hb
  · refine ⟨_, List.mem_map_of_mem hr, physLoadBase / pageSize, ?_⟩
    have hpage : physLoadBase + pageSize ≤ info.stackTopPa := by
      obtain ⟨q, hq⟩ := h.stackTopPa_aligned
      have hlt := h.image_nonempty
      rw [hq] at hlt ⊢
      simp only [physLoadBase, pageSize] at hlt ⊢
      omega
    have hload : physLoadBase / pageSize * pageSize = physLoadBase := by decide
    rw [WhollyInside, Nat.succ_mul, hload]
    exact ⟨hlo, hpage.trans hhi⟩
  · rw [ram, List.forall_mem_map]
    exact hend
  · rw [reservations, List.forall_mem_cons, List.forall_mem_singleton]
    exact ⟨h.image_nonempty, Nat.lt_add_of_pos_right h.blob_nonempty⟩
  · rw [reservations, List.forall_mem_cons, List.forall_mem_singleton]
    exact ⟨hhi.trans (hend r hr), hblob.trans (hend r' hr')⟩

theorem Contract.handedTo (h : info.Contract) (hend : ∀ r ∈ info.regions, r.1 + r.2 ≤ maxEnd)
    {memory : ℕ → PageInfo} {boot : BootMem} {s : BuddyAllocator}
    (hboot : buildBootmem info.regions info.stackTopPa info.dtb info.fdtSize = .ok boot)
    (hinit : initBuddy memory boot = .ok s) :
    ∃ mmFrames mmPfn boot' lo given m, memmapFrames s.nrFrames = .ok mmFrames ∧
      boot.alloc mmFrames 1 = .ok (some mmPfn, boot') ∧
      HandedTo info.ram info.reservations ⟨mmPfn, mmFrames⟩ lo s given m := by
  have hlt : ∀ r ∈ info.regions, r.1 + r.2 < 2 ^ 44 := fun r hr =>
    (hend r hr).trans_lt (by decide)
  obtain ⟨r, hr, hblob⟩ := h.blob_below
  have hfdt := hlt r hr
  have hdtb : linearVaToPa info.dtb = .ok info.fdtPa := by
    have hpa := linearVaToPa_ok (show info.fdtPa < 2 ^ 46 by omega)
    rwa [fdtPa, Nat.sub_add_cancel h.blob_linear] at hpa
  rw [buildBootmem_eq_feed (fun r hr => (hlt r hr).trans (by decide)) hdtb (by omega)] at hboot
  have hcap : (info.ram.filter fun r => decide (HoldsPage r)).length ≤ nrRegions :=
    feed_capacity (by rw [ram, List.forall_mem_map]; exact hend) hboot
  obtain ⟨boot₁, lo, nr, mmFrames, hboot₁, -, hmm, hcase⟩ :=
    initBuddy_cases (h.input hend hcap) memory
  obtain rfl : boot₁ = boot := Except.ok.inj (hboot₁.symm.trans hboot)
  rcases hcase with ⟨-, hnone⟩ | ⟨s', mmPfn, boot', given, m, halloc, hinit', hnr, hto⟩
  · rw [hinit] at hnone
    cases hnone
  · obtain rfl : s' = s := Except.ok.inj (hinit'.symm.trans hinit)
    exact ⟨mmFrames, mmPfn, boot', lo, given, m, by rw [hnr, hmm], halloc, hto⟩

end BootInfo

/-! ## The runs after the hand-off -/

/-- The frames of the trampoline's tables. -/
def BootInfo.Trampoline (info : BootInfo) (f : ℕ) : Prop :=
  info.bootBssStart ≤ f * pageSize ∧ f * pageSize < info.bootBssEnd

/-- The frames that the allocator has been given so far. -/
def BootInfo.Owned (info : BootInfo) (mm : Region) (reclaimed : Bool) (f : ℕ) : Prop :=
  HandedOver info.ram info.reservations mm f ∨ reclaimed = true ∧ info.Trampoline f

section Runs

variable {info : BootInfo} {mm : Region} {lo : ℕ}

private theorem BootInfo.Contract.trampoline_inside (h : info.Contract) {f : ℕ}
    (hf : info.Trampoline f) :
    ∃ r ∈ info.ram, WhollyInside r f := by
  obtain ⟨r, hr, hlo, hhi⟩ := h.loaded
  obtain ⟨hstart, -, hend⟩ := h.bootBss_inside
  have hnext : (f + 1) * pageSize ≤ info.bootBssEnd := by
    obtain ⟨q, hq⟩ := h.bootBss_aligned.2
    have hlt := hf.2
    rw [hq] at hlt ⊢
    simp only [pageSize] at hlt ⊢
    omega
  exact ⟨_, List.mem_map_of_mem hr, hlo.trans (hstart.trans hf.1), hnext.trans (hend.trans hhi)⟩

/-- The trampoline is part of the reserved image, so the hand-off left it out. -/
theorem BootInfo.Contract.trampoline_reserved (h : info.Contract) {f : ℕ}
    (hf : info.Trampoline f) : ¬ HandedOver info.ram info.reservations mm f := by
  obtain ⟨hstart, -, hend⟩ := h.bootBss_inside
  intro hover
  refine hover.2.1 (physLoadBase, info.stackTopPa) (by simp [BootInfo.reservations]) ⟨?_, ?_⟩
  · change physLoadBase < (f + 1) * pageSize
    rw [Nat.succ_mul]
    exact (hstart.trans hf.1).trans_lt (Nat.lt_add_of_pos_right (by decide))
  · exact hf.2.trans_le hend

/-- What holds in every state of a booted machine. -/
structure Booted.Inv (info : BootInfo) (mm : Region) (lo nr : ℕ) (r : Booted)
    (given : List (ℕ × ℕ)) (m : FrameMap) : Prop where
  tracked : PageRun.Tracked ⟨r.allocator, r.live, given⟩ m
  base : r.allocator.dramBase = lo * pageSize
  frames : r.allocator.nrFrames = nr
  given_iff : ∀ f, f ∈ framesOf given ↔ info.Owned mm r.reclaimed (lo + f)

variable {nr : ℕ} {r r' : Booted} {given : List (ℕ × ℕ)} {m : FrameMap}

private theorem Booted.Inv.page (h : r.Inv info mm lo nr given m) {call : PageEvent}
    (hstep : r.Step info (.page call) r') : ∃ m', r'.Inv info mm lo nr given m' := by
  obtain ⟨hcall, hsame⟩ := hstep
  obtain ⟨m', ht, hspan, -⟩ := h.tracked.step (hcall.withGiven given)
  refine ⟨m', ht, hspan.dramBase.trans h.base, hspan.nrFrames.trans h.frames, ?_⟩
  rw [hsame]
  exact h.given_iff

/-- The range that `reclaim_trampoline` hands over, in the allocator's own frame numbers. -/
def BootInfo.trampolineRange (info : BootInfo) (lo : ℕ) : ℕ × ℕ :=
  (info.bootBssStart / pageSize - lo, (info.bootBssEnd - info.bootBssStart) / pageSize)

theorem BootInfo.Contract.trampoline_frames (h : info.Contract) :
    ∃ q k, info.bootBssStart = q * pageSize ∧ info.bootBssEnd = k * pageSize ∧ q < k ∧
      ∀ f, info.Trampoline f ↔ q ≤ f ∧ f < k := by
  obtain ⟨-, hlt, -⟩ := h.bootBss_inside
  obtain ⟨⟨q, hq⟩, ⟨k, hk⟩⟩ := h.bootBss_aligned
  refine ⟨q, k, by rw [hq, Nat.mul_comm], by rw [hk, Nat.mul_comm], ?_, fun f => ?_⟩
  · rw [hq, hk] at hlt
    exact Nat.lt_of_mul_lt_mul_left hlt
  · simp only [Trampoline, hq, hk, pageSize]
    omega

private theorem Booted.Inv.reclaim (h : r.Inv info mm lo nr given m) (hc : info.Contract)
    (hcovers : ∀ f, info.Trampoline f → lo ≤ f ∧ f < lo + nr) (hfirst : r.reclaimed = false) :
    ∃ s' m', reclaimTrampoline r.allocator info.bootBssStart info.bootBssEnd = .ok s' ∧
      Booted.Inv info mm lo nr ⟨s', r.live, true⟩ (info.trampolineRange lo :: given) m' := by
  obtain ⟨q, k, hq, hk, hqk, hframes⟩ := hc.trampoline_frames
  have hfirst' := hcovers q ((hframes q).mpr ⟨le_refl q, hqk⟩)
  have hlast := hcovers (k - 1) ((hframes (k - 1)).mpr (by omega))
  have hstart : (info.trampolineRange lo).1 = q - lo := by
    rw [BootInfo.trampolineRange, hq, Nat.mul_div_cancel _ (by decide)]
  have hcount : (info.trampolineRange lo).2 = k - q := by
    change (info.bootBssEnd - info.bootBssStart) / pageSize = k - q
    rw [hq, hk, ← Nat.sub_mul, Nat.mul_div_cancel _ (by decide)]
  have hrange (f : ℕ) : inRange (info.trampolineRange lo) f ↔ info.Trampoline (lo + f) := by
    rw [hframes, inRange, hstart, hcount]
    omega
  have hend : (info.trampolineRange lo).1 + (info.trampolineRange lo).2 ≤ r.allocator.nrFrames := by
    rw [hstart, hcount, h.frames]
    omega
  have hunowned (f : ℕ) (hf : inRange (info.trampolineRange lo) f) :
      (r.allocator.info f).state = .reserved := by
    have hnot : f ∉ framesOf given := by
      rw [h.given_iff, BootInfo.Owned, hfirst]
      rintro (hover | ⟨hfalse, -⟩)
      · exact hc.trampoline_reserved ((hrange f).mp hf) hover
      · cases hfalse
    have hlabel := (h.tracked.tracks.reserved f).mpr fun range hr hm =>
      hnot (mem_framesOf.mpr ⟨range, hr, hm⟩)
    exact (h.tracked.tracks.refines.reserved_iff (hf.2.trans_le hend)).mpr hlabel
  obtain ⟨s', m', hs', ht, hspan, -⟩ :=
    h.tracked.freeRange ⟨hend, fun f hf hf' => hunowned f ⟨hf, hf'⟩⟩
  refine ⟨s', m', ?_, ht, hspan.dramBase.trans h.base, hspan.nrFrames.trans h.frames, ?_⟩
  · have haddr :
        info.bootBssStart = frameAddr r.allocator.dramBase (info.trampolineRange lo).1 := by
      rw [hstart, frameAddr, h.base, hq, ← Nat.add_mul, Nat.add_sub_cancel' hfirst'.1]
    have hpfn := pfnOf_ok h.tracked.span (show (info.trampolineRange lo).1 < r.allocator.nrFrames by
      omega)
    rw [reclaimTrampoline, checkedSub_ok hc.bootBss_inside.2.1.le, ok_bind]
    change r.allocator.pfnOf _ >>= _ = _
    rw [← haddr] at hpfn
    rw [hpfn, ok_bind]
    exact hs'
  · intro f
    have hcons : f ∈ framesOf (info.trampolineRange lo :: given) ↔
        inRange (info.trampolineRange lo) f ∨ f ∈ framesOf given := by
      simp [mem_framesOf]
    rw [hcons, h.given_iff, hrange f, BootInfo.Owned, BootInfo.Owned, hfirst]
    simp only [Bool.false_eq_true, false_and, or_false, true_and]
    exact or_comm

private theorem HandedTo.inv {s : BuddyAllocator}
    (h : HandedTo info.ram info.reservations mm lo s given m) :
    Booted.Inv info mm lo s.nrFrames ⟨s, [], false⟩ given m := by
  refine ⟨⟨h.span, h.tracks, nofun⟩, h.base, rfl, fun f => ?_⟩
  rw [h.given_iff, BootInfo.Owned]
  simp

theorem HandedTo.covers_trampoline {s : BuddyAllocator}
    (h : HandedTo info.ram info.reservations mm lo s given m) (hc : info.Contract) (f : ℕ)
    (hf : info.Trampoline f) : lo ≤ f ∧ f < lo + s.nrFrames := by
  obtain ⟨region, hregion, hin⟩ := hc.trampoline_inside hf
  exact h.covers region hregion f hin

theorem Booted.inv_of_reachable {s : BuddyAllocator} (hc : info.Contract)
    (h : HandedTo info.ram info.reservations mm lo s given m)
    (hr : (bootedSystem info s).Reachable r) :
    ∃ given m, r.Inv info mm lo s.nrFrames given m := by
  revert hr
  apply System.Reachable.invariant
  · rintro r rfl
    exact ⟨given, m, h.inv⟩
  · rintro r e r' ⟨given, m, hinv⟩ hstep
    cases e with
    | page call =>
        obtain ⟨m', hinv'⟩ := hinv.page hstep
        exact ⟨given, m', hinv'⟩
    | reclaim =>
        obtain ⟨allocator, live, reclaimed⟩ := r'
        obtain ⟨hfirst, hcall, rfl, rfl⟩ := hstep
        obtain ⟨s', m', hs', hinv'⟩ := hinv.reclaim hc (h.covers_trampoline hc) hfirst
        obtain rfl := Except.ok.inj (hs'.symm.trans hcall)
        exact ⟨_, m', hinv'⟩

theorem Booted.exists_reclaim {s : BuddyAllocator} (hc : info.Contract)
    (h : HandedTo info.ram info.reservations mm lo s given m)
    (hr : (bootedSystem info s).Reachable r) (hfirst : r.reclaimed = false) :
    ∃ s', reclaimTrampoline r.allocator info.bootBssStart info.bootBssEnd = .ok s' := by
  obtain ⟨given', m', hinv⟩ := Booted.inv_of_reachable hc h hr
  obtain ⟨s', m'', hs', -⟩ := hinv.reclaim hc (h.covers_trampoline hc) hfirst
  exact ⟨s', hs'⟩

end Runs

/-! ## Everything handed out is mapped -/

def Mapping.Readable (m : Mapping) : Prop := m.attrs &&& accessFlag ≠ 0

/-- The linear address of a byte translates to the byte, for reads and writes at EL1. -/
def LinearRw (tables : ℕ → ℕ → ℕ) (root pa : ℕ) : Prop :=
  ∃ va m, paToLinearVa pa = .ok va ∧ translate tables root va = some m ∧ m.pa = pa ∧
    m.Readable ∧ m.Writable

private theorem ExactMap.linearRw {tables : ℕ → ℕ → ℕ} {root : ℕ} {info : BootInfo}
    (h : ExactMap tables root info.regions info.image) {r : ℕ × ℕ} (hr : r ∈ info.ram) {f pa : ℕ}
    (hin : WhollyInside r f) (hlo : f * pageSize ≤ pa) (hhi : pa < (f + 1) * pageSize) :
    LinearRw tables root pa := by
  obtain ⟨region, hregion, rfl⟩ := List.mem_map.mp hr
  obtain ⟨va, hva, hmap⟩ := h.linear region hregion pa (hin.1.trans hlo) (hhi.trans_le hin.2)
  exact ⟨va, _, hva, hmap, rfl, by change linearRam.bits &&& accessFlag ≠ 0; decide,
    by change linearRam.bits &&& 1 <<< 7 = 0; decide⟩

private theorem frame_of_byte (pa : ℕ) :
    pa / pageSize * pageSize ≤ pa ∧ pa < (pa / pageSize + 1) * pageSize := by
  simp only [pageSize]
  omega

/-- The mem-map and every block that is ever out can be read and written through the linear map,
and the trampoline can be reclaimed. -/
structure HandedOutMapped (info : BootInfo) (tables : ℕ → ℕ → ℕ) (root : ℕ) (boot : BootMem)
    (s : BuddyAllocator) : Prop where
  memmap : ∀ mmFrames mmPfn boot', memmapFrames s.nrFrames = .ok mmFrames →
    boot.alloc mmFrames 1 = .ok (some mmPfn, boot') →
    ∀ i < s.nrFrames * pageInfoSize, LinearRw tables root (mmPfn * pageSize + i)
  blocks : ∀ r, (bootedSystem info s).Reachable r → ∀ b ∈ r.live, ∀ i < 2 ^ b.2 * pageSize,
    LinearRw tables root (b.1 + i)
  reclaims : ∀ r, (bootedSystem info s).Reachable r → r.reclaimed = false →
    ∃ r', r.Step info .reclaim r'

theorem handedOut_mapped {info : BootInfo} {st st' : TableMemory} {root : ℕ}
    {memory : ℕ → PageInfo} {boot : BootMem} {s : BuddyAllocator} (hfresh : st.Fresh)
    (hc : info.Contract) (hend : ∀ r ∈ info.regions, r.1 + r.2 ≤ maxEnd)
    (hbuild : build info.regions info.image st = .ok (root, st'))
    (hboot : buildBootmem info.regions info.stackTopPa info.dtb info.fdtSize = .ok boot)
    (hinit : initBuddy memory boot = .ok s) : HandedOutMapped info st'.tables root boot s := by
  have hend' : ∀ r ∈ info.regions, r.1 + r.2 ≤ 2 ^ 46 := fun r hr => (hend r hr).trans (by decide)
  have hexact := (build_translates hfresh hend' hc.placed.aligned hc.placed.inside hbuild).exactMap
    hc.disjoint hend' hc.placed
  obtain ⟨mmFrames, mmPfn, boot', lo, given, m, hmm, halloc, hto⟩ := hc.handedTo hend hboot hinit
  constructor
  · intro mmFrames' mmPfn' boot'' hmm' halloc' i hi
    obtain rfl := Except.ok.inj (hmm.symm.trans hmm')
    obtain ⟨hpfn, rfl⟩ := Prod.mk.inj (Except.ok.inj (halloc.symm.trans halloc'))
    obtain rfl := Option.some.inj hpfn
    obtain ⟨r, hr, hinside⟩ := hto.memmap_inside
    have hroom := hi.trans_le hto.memmap_holds
    refine hexact.linearRw hr (hinside ((mmPfn * pageSize + i) / pageSize) ?_) (frame_of_byte _).1
      (frame_of_byte _).2
    simp only [Region.Has, pageSize] at hroom ⊢
    omega
  · intro r hr b hb i hi
    obtain ⟨given', m', hinv⟩ := Booted.inv_of_reachable hc hto hr
    obtain ⟨p, hp, -⟩ := hinv.tracked.block_bytes hb
    have hpage : b.1 = (lo + p) * pageSize := by
      change b.1 = frameAddr r.allocator.dramBase p at hp
      rw [hp, frameAddr, hinv.base, Nat.add_mul]
    have hin := frame_of_byte (b.1 + i)
    obtain ⟨hle, hgiven⟩ := hinv.tracked.frame_given hinv.base hb
      (f := (b.1 + i) / pageSize) (by rw [hpage]; simp only [pageSize]; omega)
      (by omega)
    have howned := (hinv.given_iff _).mp hgiven
    rw [Nat.add_sub_cancel' hle] at howned
    rcases howned with hover | ⟨-, htrampoline⟩
    · obtain ⟨region, hregion, hinside⟩ := hover.1
      exact hexact.linearRw hregion hinside hin.1 hin.2
    · obtain ⟨region, hregion, hinside⟩ := hc.trampoline_inside htrampoline
      exact hexact.linearRw hregion hinside hin.1 hin.2
  · intro r hr hfirst
    obtain ⟨s', hs'⟩ := Booted.exists_reclaim hc hto hr hfirst
    exact ⟨⟨s', r.live, true⟩, hfirst, hs', rfl, rfl⟩

/-- One block of RAM with the image of one-page sections, the trampoline and the blob in it. -/
def smallInfo : BootInfo where
  regions := [(0x40000000, 1 * block2MB)]
  image := pageImage 463
  bootBssStart := 0x40081000
  bootBssEnd := 0x4008D000
  dtb := 0xFFFF800040000000
  fdtSize := 0x80000

theorem smallInfo_contract : smallInfo.Contract where
  disjoint := List.pairwise_singleton ..
  placed := pageImage_placed (by decide) (by decide)
  image_nonempty := by decide
  loaded := ⟨_, List.mem_singleton_self _, by decide, by decide⟩
  bootBss_inside := by decide
  bootBss_aligned := by decide
  blob_nonempty := by decide
  blob_linear := by decide
  blob_below := ⟨_, List.mem_singleton_self _, by decide⟩

/-- What `build_bootmem` registers on the small machine. -/
def smallBoot : BootMem := ⟨[⟨0x40000, 512⟩], [⟨0x40000, 128⟩, ⟨0x40080, 336⟩]⟩

private theorem smallInfo_feed : feed smallInfo.ram smallInfo.reservations = .ok smallBoot := by
  have hram : smallInfo.ram = [(0x40000000, 0x40200000)] := by decide
  have hreserved : smallInfo.reservations =
      [(0x40080000, 0x401D0000), (0x40000000, 0x40080000)] := by decide
  rw [hram, hreserved]
  rfl

theorem smallInfo_bootmem :
    buildBootmem smallInfo.regions smallInfo.stackTopPa smallInfo.dtb smallInfo.fdtSize =
      .ok smallBoot := by
  rw [← smallInfo_feed]
  exact buildBootmem_eq_feed (by decide) (by decide) (by decide)

theorem smallInfo_boots : ∃ s, initBuddy (fun _ => default) smallBoot = .ok s := by
  have hinput := smallInfo_contract.input (by decide) (by decide)
  obtain ⟨boot, lo, nr, mmFrames, hboot, hspan, hmm, hcase⟩ :=
    initBuddy_cases hinput fun _ => default
  obtain rfl := Except.ok.inj (hboot.symm.trans smallInfo_feed)
  obtain ⟨rfl, rfl⟩ : lo = 0x40000 ∧ nr = 512 := Prod.mk.inj (Except.ok.inj (hspan.symm.trans rfl))
  obtain rfl : mmFrames = 2 := Except.ok.inj (hmm.symm.trans rfl)
  rcases hcase with ⟨hnone, -⟩ | ⟨s, -, -, -, -, -, hinit, -⟩
  · cases hnone
  · exact ⟨s, hinit⟩

theorem handedOut_mapped_small : ∃ root st' boot s,
    build smallInfo.regions smallInfo.image (poolMemory (imagePage 264)) = .ok (root, st') ∧
      buildBootmem smallInfo.regions smallInfo.stackTopPa smallInfo.dtb smallInfo.fdtSize =
        .ok boot ∧
      initBuddy (fun _ => default) boot = .ok s ∧
      HandedOutMapped smallInfo st'.tables root boot s := by
  obtain ⟨⟨root, st'⟩, hbuild⟩ := build_pageImage
  obtain ⟨s, hinit⟩ := smallInfo_boots
  exact ⟨root, st', smallBoot, s, hbuild, smallInfo_bootmem, hinit,
    handedOut_mapped (pool_fresh (by decide) (by decide)) smallInfo_contract (by decide) hbuild
      smallInfo_bootmem hinit⟩

/-! ## RAM above the last frame number -/

/-- A second region at 16 TiB, where frame numbers no longer fit in 32 bits.  The image, the blob
and the mem-map fill the first one. -/
def highInfo : BootInfo where
  regions := [(0x40000000, 4 * block2MB), (2 ^ 44, 1 * block2MB)]
  image := pageImage 0x3F7
  bootBssStart := 0x40081000
  bootBssEnd := 0x4008D000
  dtb := 0xFFFF800040000000
  fdtSize := 0x80000

private theorem highInfo_contract : highInfo.Contract where
  disjoint := by
    rw [highInfo, List.pairwise_pair]
    intro pa hlo hhi hpa
    simp only [block2MB] at hhi hpa
    omega
  placed := pageImage_placed (by decide) (by decide)
  image_nonempty := by decide
  loaded := ⟨_, List.mem_cons_self, by decide, by decide⟩
  bootBss_inside := by decide
  bootBss_aligned := by decide
  blob_nonempty := by decide
  blob_linear := by decide
  blob_below := ⟨_, List.mem_cons_self, by decide⟩

private theorem highInfo_builds :
    ∃ r, build highInfo.regions highInfo.image (poolMemory (imagePage 264)) = .ok r := by
  simp only [highInfo, build, buildLinear, List.foldlM_cons, List.foldlM_nil,
    buildImage_pageImage (show 0x3F7 < 2 ^ 18 by decide),
    mapRegion_blocks (show 0x40000000 % block2MB = 0 by decide)
      (show 4 < 512 by decide) (by decide),
    mapRegion_blocks (show 2 ^ 44 % block2MB = 0 by decide) (show 1 < 512 by decide) (by decide)]
  exact ⟨_, rfl⟩

/-- The ranges that the registration takes the RAM for: the second region wraps to frame zero. -/
theorem wrapped_input : Input [(0x40000000, 0x40800000), (0, 0x200000)]
    [(0x40080000, 0x403F8000), (0x40000000, 0x40080000)] where
  disjoint := by
    rw [List.pairwise_pair, Finset.disjoint_left]
    intro pa ha hb
    rw [Finset.mem_Ico] at ha hb
    omega
  page := ⟨_, List.mem_cons_self, 0x40000, by decide, by decide⟩
  ram_end := by decide
  reserved_nonempty := by decide
  reserved_end := by decide
  ram_capacity := by decide
  reserved_capacity := by decide

private theorem wrapped_handedOver (f : ℕ) :
    HandedOver [(0x40000000, 0x40800000), (0, 0x200000)]
      [(0x40080000, 0x403F8000), (0x40000000, 0x40080000)] ⟨0x403F8, 1032⟩ f ↔ f < 512 := by
  simp only [HandedOver, WhollyInside, Touches, Region.Has, pageSize, List.mem_cons,
    List.not_mem_nil, or_false, exists_eq_or_imp, exists_eq_left, forall_eq_or_imp, forall_eq]
  omega

private theorem highInfo_boots : ∃ boot s given m,
    buildBootmem highInfo.regions highInfo.stackTopPa highInfo.dtb highInfo.fdtSize = .ok boot ∧
      initBuddy (fun _ => default) boot = .ok s ∧
      HandedTo [(0x40000000, 0x40800000), (0, 0x200000)]
        [(0x40080000, 0x403F8000), (0x40000000, 0x40080000)] ⟨0x403F8, 1032⟩ 0 s given m := by
  obtain ⟨boot, lo, nr, mmFrames, hboot, hspan, hmm, hcase⟩ :=
    initBuddy_cases wrapped_input fun _ => default
  obtain rfl : boot = ⟨[⟨0x40000, 2048⟩, ⟨0, 512⟩], [⟨0x40000, 128⟩, ⟨0x40080, 0x378⟩]⟩ :=
    Except.ok.inj (hboot.symm.trans rfl)
  obtain ⟨rfl, rfl⟩ : lo = 0 ∧ nr = 0x40800 := Prod.mk.inj (Except.ok.inj (hspan.symm.trans rfl))
  obtain rfl : mmFrames = 1032 := Except.ok.inj (hmm.symm.trans rfl)
  rcases hcase with ⟨hnone, -⟩ | ⟨s, mmPfn, boot', given, m, halloc, hinit, -, hto⟩
  · cases hnone
  · obtain rfl : 0x403F8 = mmPfn := Option.some.inj (congrArg Prod.fst (Except.ok.inj halloc))
    refine ⟨_, s, given, m, ?_, hinit, hto⟩
    have hram : (highInfo.regions.map fun r => (r.1, r.1 + r.2)) =
        [(0x40000000, 0x40800000), (0x100000000000, 0x100000200000)] := by decide
    have hstack : highInfo.stackTopPa = 0x403F8000 := by decide
    rw [buildBootmem_eq_feed (by decide) (show linearVaToPa highInfo.dtb = .ok 0x40000000 by decide)
      (by decide), hram, hstack]
    exact (rfl : feed [(0x40000000, 0x40800000), (0x100000000000, 0x100000200000)]
      [(0x40080000, 0x403F8000), (0x40000000, 0x40080000)] = _)

private theorem HandedTo.exists_live (info : BootInfo) {s : BuddyAllocator}
    {ram reservations : List (ℕ × ℕ)} {mm : Region} {lo : ℕ} {given : List (ℕ × ℕ)} {m : FrameMap}
    (h : HandedTo ram reservations mm lo s given m) {f : ℕ}
    (hf : HandedOver ram reservations mm (lo + f)) :
    ∃ r b g, (bootedSystem info s).Reachable r ∧ b ∈ r.live ∧ b.1 = g * pageSize ∧
      HandedOver ram reservations mm g := by
  have ht : PageRun.Tracked ⟨s, [], given⟩ m := ⟨h.span, h.tracks, nofun⟩
  rcases ht.allocPages 0 with hnone | ⟨p, s', m', hcall, ht', hspan, -⟩
  · exact absurd hnone (ht.allocPage_ne_none ((h.mem_freeFrameSet f).mpr hf) s)
  · have hinit : (bootedSystem info s).Reachable ⟨s, [], false⟩ := .init rfl
    have hreach : (bootedSystem info s).Reachable ⟨s', [(frameAddr s.dramBase p, 0)], false⟩ :=
      hinit.step (e := .page (.allocPages 0 (some (frameAddr s.dramBase p))))
        ⟨⟨hcall, rfl, rfl⟩, rfl⟩
    have haddr := h.frameAddr_eq p
    refine ⟨_, _, lo + p, hreach, List.mem_singleton_self _, haddr, ?_⟩
    obtain ⟨hle, hgiven⟩ := ht'.frame_given (hspan.dramBase.trans h.base) List.mem_cons_self
      (f := lo + p) haddr.le (by
        change (lo + p) * pageSize < frameAddr s.dramBase p + 2 ^ 0 * pageSize
        rw [haddr]
        exact Nat.lt_add_of_pos_right (by decide))
    have hover := (h.given_iff _).mp hgiven
    rwa [Nat.add_sub_cancel' hle] at hover

/-- With RAM at 16 TiB the allocator hands out physical page zero and its neighbours, which no
linear address reaches. -/
theorem handedOut_unmapped_high : ∃ root st' boot s,
    highInfo.Contract ∧ (∀ r ∈ highInfo.regions, r.1 + r.2 ≤ 2 ^ 46) ∧
      (poolMemory (imagePage 264)).Fresh ∧
      build highInfo.regions highInfo.image (poolMemory (imagePage 264)) = .ok (root, st') ∧
      buildBootmem highInfo.regions highInfo.stackTopPa highInfo.dtb highInfo.fdtSize = .ok boot ∧
      initBuddy (fun _ => default) boot = .ok s ∧
      ∃ r b, (bootedSystem highInfo s).Reachable r ∧ b ∈ r.live ∧
        ∀ va, paToLinearVa b.1 = .ok va → translate st'.tables root va = none := by
  obtain ⟨⟨root, st'⟩, hbuild⟩ := highInfo_builds
  obtain ⟨boot, s, given, m, hboot, hinit, hto⟩ := highInfo_boots
  have hfresh := pool_fresh (show pageSize ∣ imagePage 264 by decide) (by decide)
  have hend : ∀ r ∈ highInfo.regions, r.1 + r.2 ≤ 2 ^ 46 := by decide
  have hregions : ∀ r ∈ highInfo.regions, 0x40000000 ≤ r.1 := by decide
  have hc := highInfo_contract
  have hexact := (build_translates hfresh hend hc.placed.aligned hc.placed.inside hbuild).exactMap
    hc.disjoint hend hc.placed
  obtain ⟨r, b, g, hreach, hlive, hb, hover⟩ :=
    hto.exists_live highInfo ((wrapped_handedOver (0 + 0)).mpr (by decide))
  refine ⟨root, st', boot, s, hc, hend, hfresh, hbuild, hboot, hinit, r, b, hreach, hlive, ?_⟩
  intro va hva
  have hlow : b.1 < 0x200000 := by
    have := (wrapped_handedOver g).mp hover
    simp only [pageSize] at hb
    omega
  obtain rfl : b.1 + kernelLinearBase = va :=
    Except.ok.inj ((paToLinearVa_ok (by omega)).symm.trans hva)
  refine hexact.only _ (linear_upperHalf (by omega)) ?_ ?_ ?_
  · intro region hregion pa hlo hhi hpa
    have hrange : 0x40000000 ≤ pa ∧ pa < 2 ^ 46 := by
      have hle := hend region hregion
      have hbase := hregions region hregion
      omega
    have heq := Except.ok.inj ((paToLinearVa_ok (by omega)).symm.trans hpa)
    omega
  · intro part hpart hin
    have hinside := hc.placed.inside part hpart
    simp only [kernelImageBase, kernelLinearBase] at hinside hin
    omega
  · intro base hbase hin
    obtain rfl : uartPa + kernelDeviceBase = base := Except.ok.inj hbase
    simp only [uartPa, kernelDeviceBase, kernelLinearBase] at hin
    omega

end Preon.Memory
