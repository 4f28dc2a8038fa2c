import Mathlib.Data.Set.Card
import Preon.Memory.BootMemHoles
import Preon.Memory.BuddyCanonical
import Preon.Memory.BuddyPages

/-!
# The hand-off from the boot-time map to the buddy allocator

`init_buddy` places the mem-map, reserves it and hands every remaining hole over.  What the
allocator then owns is RAM that nobody reserved and that does not hold the mem-map.
-/

namespace Preon.Memory

open Framework BootMem BuddyAllocator

/-! ## The span of RAM -/

private theorem spanFold {ms : List Region} (hms : ∀ m ∈ ms, m.Proper) (lo hi : ℕ)
    (hhi : hi < 2 ^ 32) :
    ∃ lo' hi', ms.foldl (fun (lo, hi) m => (min lo m.base, max hi m.endPfn)) (lo, hi) = (lo', hi') ∧
      lo' ≤ lo ∧ hi ≤ hi' ∧ hi' < 2 ^ 32 ∧ ∀ m ∈ ms, lo' ≤ m.base ∧ m.base + m.frames ≤ hi' := by
  induction ms generalizing lo hi with
  | nil => exact ⟨lo, hi, rfl, le_refl _, le_refl _, hhi, nofun⟩
  | cons m ms ih =>
      obtain ⟨hm, hrest⟩ := List.forall_mem_cons.mp hms
      have hend := hm.endPfn_eq
      have hlt := hm.end_lt
      obtain ⟨lo', hi', hfold, hlo, hhi', hbound, hall⟩ := ih hrest (min lo m.base)
        (max hi m.endPfn) (by omega)
      refine ⟨lo', hi', hfold, by omega, by omega, hbound, ?_⟩
      rw [List.forall_mem_cons]
      exact ⟨by omega, hall⟩

private theorem ramSpan_ok {b : BootMem} (h : b.WellFormed) (hne : b.memory ≠ []) :
    ∃ lo nr, b.ramSpan = .ok (lo, nr) ∧ 1 ≤ nr ∧ lo + nr < 2 ^ 32 ∧
      ∀ m ∈ b.memory, lo ≤ m.base ∧ m.base + m.frames ≤ lo + nr := by
  obtain ⟨lo, hi, hfold, hlo, -, hhi, hall⟩ := spanFold h.memory (2 ^ 32 - 1) 0 (by decide)
  obtain ⟨m, hm⟩ := List.exists_mem_of_ne_nil _ hne
  have hbounds := hall m hm
  have hframes := (h.memory m hm).nonempty
  refine ⟨lo, hi - lo, ?_, by omega, by omega, fun m hm => ?_⟩
  · rw [ramSpan, assertMsg_true (List.length_pos_iff.mpr hne), ok_bind, hfold]
    simp only
    rw [checkedSub_ok (by omega), ok_bind]
    rfl
  · have := hall m hm
    omega

/-! ## Handing the holes over -/

def relative (lo : ℕ) (hole : Region) : ℕ × ℕ := (hole.base - lo, hole.frames)

variable {s : BuddyAllocator} {given : List (ℕ × ℕ)} {m : FrameMap} {lo : ℕ}

private theorem handOver_ok (h : Tracks s [] given m) (hspan : FrameSpan s.dramBase s.nrFrames)
    (hbase : s.dramBase = lo * pageSize) {hole : Region} (hp : hole.Proper) (hlo : lo ≤ hole.base)
    (hhi : hole.base + hole.frames ≤ lo + s.nrFrames)
    (hnew : ∀ f, hole.Has f → ∀ range ∈ given, ¬ inRange range (f - lo)) :
    ∃ s' m', handOver s hole = .ok s' ∧ Tracks s' [] (relative lo hole :: given) m' ∧
      SameSpan s s' := by
  have hframes := hp.nonempty
  have hlt := hp.end_lt
  have haddr : frameAddr s.dramBase (hole.base - lo) = hole.base * pageSize := by
    simp only [frameAddr, hbase, pageSize]
    omega
  have hres : ∀ f, hole.base - lo ≤ f → f < hole.base - lo + hole.frames →
      (s.info f).state = .reserved := by
    intro f hf hf'
    have hlabel := (h.reserved f).mpr fun range hr hm =>
      hnew (f + lo) (by simp only [Region.Has]; omega) range hr (by rwa [Nat.add_sub_cancel])
    exact (h.refines.reserved_iff (by omega)).mpr hlabel
  obtain ⟨s', hs', ht, hsame⟩ := h.freeRange (by omega) hres
  refine ⟨s', _, ?_, ht, hsame⟩
  have hmul : hole.base * pageSize < 2 ^ 64 := by
    simp only [pageSize]
    omega
  rw [handOver, checkedMul_ok hmul, ok_bind, ← haddr, pfnOf_ok hspan (by omega), ok_bind, hs']

private theorem handOver_fold {hs : List Region} (h : Tracks s [] given m)
    (hspan : FrameSpan s.dramBase s.nrFrames) (hbase : s.dramBase = lo * pageSize)
    (hp : ∀ hole ∈ hs, hole.Proper ∧ lo ≤ hole.base ∧ hole.base + hole.frames ≤ lo + s.nrFrames)
    (hapart : hs.Pairwise Apart)
    (hnew : ∀ hole ∈ hs, ∀ f, hole.Has f → ∀ range ∈ given, ¬ inRange range (f - lo)) :
    ∃ s' m', hs.foldlM handOver s = .ok s' ∧
      Tracks s' [] ((hs.map (relative lo)).reverse ++ given) m' ∧ SameSpan s s' := by
  induction hs generalizing s given m with
  | nil => exact ⟨s, m, rfl, h, rfl, rfl⟩
  | cons hole hs ih =>
      obtain ⟨⟨hprop, hlo, hhi⟩, hps⟩ := List.forall_mem_cons.mp hp
      obtain ⟨hfirst, hrest⟩ := List.pairwise_cons.mp hapart
      obtain ⟨hnew₁, hnews⟩ := List.forall_mem_cons.mp hnew
      obtain ⟨s₁, m₁, hs₁, ht₁, hsame₁⟩ := handOver_ok h hspan hbase hprop hlo hhi hnew₁
      obtain ⟨s', m', hs', ht', hsame'⟩ := ih ht₁
        (by rw [hsame₁.dramBase, hsame₁.nrFrames]; exact hspan)
        (hsame₁.dramBase.trans hbase) (by rw [hsame₁.nrFrames]; exact hps) hrest (by
          intro q hq f hf range hr hm
          rcases List.mem_cons.mp hr with rfl | hr
          · have hap := hfirst q hq
            have hq' := hps q hq
            simp only [Apart, Region.Has, inRange, relative] at hap hf hm
            omega
          · exact hnews q hq f hf range hr hm)
      refine ⟨s', m', by rw [List.foldlM_cons, hs₁, ok_bind, hs'], ?_,
        hsame'.nrFrames.trans hsame₁.nrFrames, hsame'.dramBase.trans hsame₁.dramBase⟩
      rw [List.map_cons, List.reverse_cons, List.append_assoc]
      exact ht'

private theorem mem_framesOf_relative {hs : List Region}
    (hlo : ∀ hole ∈ hs, lo ≤ hole.base) (f : ℕ) :
    f ∈ framesOf ((hs.map (relative lo)).reverse ++ []) ↔ ∃ hole ∈ hs, hole.Has (lo + f) := by
  simp only [mem_framesOf, List.append_nil, List.mem_reverse, List.mem_map]
  constructor
  · rintro ⟨range, ⟨hole, hh, rfl⟩, hm⟩
    have := hlo hole hh
    simp only [inRange, relative] at hm
    exact ⟨hole, hh, by simp only [Region.Has]; omega⟩
  · rintro ⟨hole, hh, hm⟩
    have := hlo hole hh
    simp only [Region.Has] at hm
    exact ⟨_, ⟨hole, hh, rfl⟩, by simp only [inRange, relative]; omega⟩

/-! ## The result -/

/-- The frame is RAM, touches no reservation and is not in the mem-map. -/
def HandedOver (ram reservations : List (ℕ × ℕ)) (mm : Region) (f : ℕ) : Prop :=
  (∃ r ∈ ram, WhollyInside r f) ∧ (∀ r ∈ reservations, ¬ Touches r f) ∧ ¬ mm.Has f

/-- The calls of `alloc_pages` and `free_pages` after the hand-off. -/
def laterSystem (s : BuddyAllocator) : System PageRun PageEvent where
  init r := r = ⟨s, [], []⟩
  step r e r' := r.Step e r' ∧ ∀ start count, e ≠ .freeRange start count

structure HandOff (ram reservations : List (ℕ × ℕ)) (mm : Region) (s : BuddyAllocator) : Prop where
  free : ∀ f, (∃ q ∈ s.freeFrameSet, frameAddr s.dramBase q = f * pageSize) ↔
    HandedOver ram reservations mm f
  counted : s.freeFrames = Set.ncard {f | HandedOver ram reservations mm f}
  invariant : RepresentationInvariant s
  memmap_inside : ∃ r ∈ ram, ∀ f, mm.Has f → WhollyInside r f
  memmap_unreserved : ∀ r ∈ reservations, ∀ f, mm.Has f → ¬ Touches r f
  memmap_holds : s.nrFrames * pageInfoSize ≤ mm.frames * pageSize
  later : ∀ r, (laterSystem s).Reachable r → ∀ b ∈ r.live, ∀ f, b.1 ≤ f * pageSize →
    f * pageSize < b.1 + 2 ^ b.2 * pageSize → HandedOver ram reservations mm f

theorem PageRun.Step.withGiven {s s' : BuddyAllocator} {live live' : List (ℕ × ℕ)} {e : PageEvent}
    (h : PageRun.Step ⟨s, live, []⟩ e ⟨s', live', []⟩) (given : List (ℕ × ℕ)) :
    PageRun.Step ⟨s, live, given⟩ e ⟨s', live', given⟩ := by
  match e, h with
  | .freeRange start count, h => cases h.2.2.2
  | .allocPages order none, h => exact ⟨h.1, h.2.1, rfl⟩
  | .allocPages order (some pa), h => exact ⟨h.1, h.2.1, rfl⟩
  | .freePages pa order, h => exact ⟨h.1, h.2.1, h.2.2.1, rfl⟩

private theorem tracked_later (given : List (ℕ × ℕ))
    (ht : PageRun.Tracked ⟨s, [], given⟩ m) {r : PageRun}
    (h : (laterSystem s).Reachable r) :
    (∃ m', PageRun.Tracked ⟨r.allocator, r.live, given⟩ m') ∧ r.allocator.dramBase = s.dramBase ∧
      r.given = [] := by
  revert h
  apply System.Reachable.invariant
  · rintro r rfl
    exact ⟨⟨m, ht⟩, rfl, rfl⟩
  · rintro ⟨s₁, live, ghost⟩ e ⟨s₂, live', ghost'⟩ ⟨⟨m', ht'⟩, hbase, hghost⟩ ⟨hstep, hne⟩
    obtain rfl : ghost = [] := hghost
    obtain rfl : ghost' = [] := by
      match e, hstep, hne with
      | .freeRange start count, _, hne => exact absurd rfl (hne start count)
      | .allocPages order none, hstep, _ => exact hstep.2.2
      | .allocPages order (some pa), hstep, _ => exact hstep.2.2
      | .freePages pa order, hstep, _ => exact hstep.2.2.2
    obtain ⟨m'', ht'', hsame, -⟩ := ht'.step (hstep.withGiven given)
    exact ⟨⟨m'', ht''⟩, hsame.dramBase.trans hbase, rfl⟩

/-- An allocator together with the ranges that it was given, in its own frame numbers, which start
at the frame `lo`. -/
structure HandedTo (ram reservations : List (ℕ × ℕ)) (mm : Region) (lo : ℕ) (s : BuddyAllocator)
    (given : List (ℕ × ℕ)) (m : FrameMap) : Prop where
  tracks : Tracks s [] given m
  span : FrameSpan s.dramBase s.nrFrames
  base : s.dramBase = lo * pageSize
  given_iff : ∀ f, f ∈ framesOf given ↔ HandedOver ram reservations mm (lo + f)
  covers : ∀ r ∈ ram, ∀ f, WhollyInside r f → lo ≤ f ∧ f < lo + s.nrFrames
  memmap_inside : ∃ r ∈ ram, ∀ f, mm.Has f → WhollyInside r f
  memmap_unreserved : ∀ r ∈ reservations, ∀ f, mm.Has f → ¬ Touches r f
  memmap_holds : s.nrFrames * pageInfoSize ≤ mm.frames * pageSize

theorem HandedTo.frameAddr_eq {ram reservations : List (ℕ × ℕ)} {mm : Region}
    (h : HandedTo ram reservations mm lo s given m) (f : ℕ) :
    frameAddr s.dramBase f = (lo + f) * pageSize := by
  rw [frameAddr, h.base, Nat.add_mul]

theorem HandedTo.mem_freeFrameSet {ram reservations : List (ℕ × ℕ)} {mm : Region}
    (h : HandedTo ram reservations mm lo s given m) (f : ℕ) :
    f ∈ s.freeFrameSet ↔ HandedOver ram reservations mm (lo + f) := by
  have hset := BuddyRun.Tracked.freeFrameSet_eq (r := ⟨s, [], given⟩) h.tracks
  change s.freeFrameSet = framesOf given \ ∅ at hset
  rw [hset, Finset.sdiff_empty, h.given_iff]

theorem PageRun.Tracked.frame_given {r : PageRun} (h : r.Tracked m)
    (hbase : r.allocator.dramBase = lo * pageSize) {b : ℕ × ℕ} (hb : b ∈ r.live) {f : ℕ}
    (hlo : b.1 ≤ f * pageSize) (hhi : f * pageSize < b.1 + 2 ^ b.2 * pageSize) :
    lo ≤ f ∧ f - lo ∈ framesOf r.given := by
  obtain ⟨p, hp⟩ := h.address b hb
  have haddr : b.1 = (lo + p) * pageSize := by rw [hp, frameAddr, hbase, Nat.add_mul]
  rw [haddr] at hlo hhi
  simp only [pageSize] at hlo hhi
  have hframes : f - lo ∈ r.liveFrames b := by
    rw [liveFrames, hp, frameOf_frameAddr, mem_block]
    omega
  exact ⟨by omega, h.accounted.given b hb hframes⟩

private theorem HandedTo.handOff {ram reservations : List (ℕ × ℕ)} {mm : Region}
    (h : HandedTo ram reservations mm lo s given m) : HandOff ram reservations mm s := by
  have hlo (f : ℕ) (hf : HandedOver ram reservations mm f) : lo ≤ f := by
    obtain ⟨⟨r, hr, hin⟩, -⟩ := hf
    exact (h.covers r hr f hin).1
  have hfree := h.mem_freeFrameSet
  refine ⟨?_, ?_, h.tracks.refines.representationInvariant, h.memmap_inside, h.memmap_unreserved,
    h.memmap_holds, ?_⟩
  · intro f
    constructor
    · rintro ⟨q, hq, he⟩
      rw [h.frameAddr_eq] at he
      obtain rfl := Nat.eq_of_mul_eq_mul_right (by decide) he
      exact (hfree q).mp hq
    · intro hf
      have hle := hlo f hf
      refine ⟨f - lo, (hfree _).mpr ?_, ?_⟩
      · rwa [Nat.add_sub_cancel' hle]
      · rw [h.frameAddr_eq, Nat.add_sub_cancel' hle]
  · have hset : {f | HandedOver ram reservations mm f} = ↑(s.freeFrameSet.image (lo + ·)) := by
      ext f
      rw [Finset.coe_image]
      constructor
      · intro hf
        have hle := hlo f hf
        exact ⟨f - lo, (hfree _).mpr (by rwa [Nat.add_sub_cancel' hle]), Nat.add_sub_cancel' hle⟩
      · rintro ⟨q, hq, rfl⟩
        exact (hfree q).mp hq
    rw [hset, Set.ncard_coe_finset, Finset.card_image_of_injective _ (add_right_injective lo),
      h.tracks.refines.counted, h.tracks.refines.freeSet_eq]
  · intro r hr b hb f hf hf'
    obtain ⟨⟨m', ht'⟩, hbase', -⟩ := tracked_later given ⟨h.span, h.tracks, nofun⟩ hr
    obtain ⟨hle, hmem⟩ := ht'.frame_given (hbase'.trans h.base) hb hf hf'
    have hover := (h.given_iff _).mp hmem
    rwa [Nat.add_sub_cancel' hle] at hover

private theorem memmapFrames_ok {nr : ℕ} (hnr : nr < 2 ^ 32) (hpos : 1 ≤ nr) :
    ∃ frames, memmapFrames nr = .ok frames ∧ 1 ≤ frames ∧
      nr * pageInfoSize ≤ frames * pageSize := by
  refine ⟨_, by rw [memmapFrames, checkedMul_ok (by simp only [pageInfoSize]; omega), ok_bind]; rfl,
    ?_, ?_⟩
  · simp only [pageInfoSize, pageSize]
    omega
  · simp only [pageInfoSize, pageSize]
    omega

section Placed

variable {ram reservations : List (ℕ × ℕ)} {boot boot' : BootMem} {mmPfn mmFrames : ℕ}

private theorem freeFrame_iff_handedOver (hfed : Fed ram reservations boot)
    (hmem : boot'.memory = boot.memory)
    (hperm : boot'.reserved.Perm (⟨mmPfn, mmFrames⟩ :: boot.reserved)) (f : ℕ) :
    boot'.FreeFrame f ↔ HandedOver ram reservations ⟨mmPfn, mmFrames⟩ f := by
  simp only [FreeFrame, hmem, hperm.mem_iff, List.forall_mem_cons, hfed.memory_has,
    hfed.reserved_has, HandedOver]
  tauto

/-- The mem-map lies in one hole, hence in one RAM region and clear of every reservation. -/
theorem memmap_placed (hfed : Fed ram reservations boot) {hole : Region} (hhole : hole ∈ boot.holes)
    (hfits : hole.base ≤ mmPfn ∧ mmPfn + mmFrames ≤ hole.base + hole.frames) :
    (∃ r ∈ ram, ∀ f, (Region.mk mmPfn mmFrames).Has f → WhollyInside r f) ∧
      ∀ r ∈ reservations, ∀ f, (Region.mk mmPfn mmFrames).Has f → ¬ Touches r f := by
  have hin (f : ℕ) (hf : (Region.mk mmPfn mmFrames).Has f) : hole.Has f := by
    simp only [Region.Has] at hf ⊢
    omega
  constructor
  · obtain ⟨m, hm, hmem⟩ := List.mem_flatMap.mp hhole
    have hinside := hfed.wellFormed.hole_inside hm hmem
    rw [hfed.memory] at hm
    obtain ⟨r, hr, rfl⟩ := List.mem_map.mp hm
    obtain ⟨hr, hp⟩ := List.mem_filter.mp hr
    refine ⟨r, hr, fun f hf => (ramRegion_has (by simpa using hp) f).mp ?_⟩
    have := hin f hf
    simp only [Region.Has] at this ⊢
    omega
  · intro r hr f hf
    have hfree := (hfed.wellFormed.holes_has f).mp ⟨hole, hhole, hin f hf⟩
    exact (hfed.reserved_has f).mp hfree.2 r hr

end Placed

private theorem newAt_ok (memory : ℕ → PageInfo) {mmPa nr : ℕ} (dramBase : ℕ) (hpa : mmPa < 2 ^ 47)
    (hnr : nr < 2 ^ 32) :
    ∃ s, newAt memory mmPa dramBase nr = .ok s ∧ Tracks s [] [] emptyMap ∧ s.nrFrames = nr ∧
      s.dramBase = dramBase := by
  have hlen (va : ℕ) :
      nr ≤ ((List.range nr).map fun i => memory (va + i * pageInfoSize)).length := by
    rw [List.length_map, List.length_range]
  obtain ⟨s, hs, -, hnr', hbase, -⟩ := new_ok dramBase (hlen (mmPa + kernelLinearBase)) hnr
  refine ⟨s, ?_, (BuddyRun.tracked_new (r := ⟨s, [], []⟩) hnr ⟨hs, rfl, rfl⟩).1, hnr', hbase⟩
  rw [newAt, paToLinearVa_ok hpa, ok_bind, hs]

/-- `init_buddy` on a registered memory map: the mem-map finds a place and the holes are handed
over, or it finds none. -/
theorem initBuddy_cases {ram reservations : List (ℕ × ℕ)} (h : Input ram reservations)
    (memory : ℕ → PageInfo) :
    ∃ boot lo nr mmFrames, feed ram reservations = .ok boot ∧ boot.ramSpan = .ok (lo, nr) ∧
      memmapFrames nr = .ok mmFrames ∧
      (boot.alloc mmFrames 1 = .ok (none, boot) ∧
          initBuddy memory boot = .error (.message "no room for mem-map") ∨
        ∃ s mmPfn boot' given m, boot.alloc mmFrames 1 = .ok (some mmPfn, boot') ∧
          initBuddy memory boot = .ok s ∧ s.nrFrames = nr ∧
          HandedTo ram reservations ⟨mmPfn, mmFrames⟩ lo s given m) := by
  obtain ⟨boot, hboot, hfed⟩ := feed_ok h
  have hne : boot.memory ≠ [] := by
    obtain ⟨r, hr, f, hf⟩ := h.page
    obtain ⟨m, hm, -⟩ := (hfed.memory_has f).mpr ⟨r, hr, hf⟩
    exact List.ne_nil_of_mem hm
  obtain ⟨lo, nr, hspan, hpos, hend, hall⟩ := ramSpan_ok hfed.wellFormed hne
  obtain ⟨mmFrames, hmm, hmmpos, hroom⟩ := memmapFrames_ok (by omega : nr < 2 ^ 32) hpos
  refine ⟨boot, lo, nr, mmFrames, hboot, hspan, hmm, ?_⟩
  have hmul : lo * pageSize < 2 ^ 64 := by
    simp only [pageSize]
    omega
  have hcap : boot.reserved.length < nrRegions := by
    rw [hfed.reserved.length_eq, List.length_map]
    exact h.reserved_capacity
  rcases alloc_ok hfed.wellFormed hmmpos (Nat.le_refl 1) hcap with hnone |
    ⟨mmPfn, boot', halloc, hwf', hmem', hperm, hole, hhole, hfits⟩
  · refine .inl ⟨hnone, ?_⟩
    rw [initBuddy, hspan, ok_bind]
    simp only
    rw [checkedMul_ok hmul, ok_bind, hmm, ok_bind, hnone, ok_bind]
    rfl
  · right
    have hmmlt : mmPfn + mmFrames < 2 ^ 32 := by
      have := (hfed.wellFormed.holes_proper hole hhole).end_lt
      omega
    have hmmPa : mmPfn * pageSize < 2 ^ 47 := by
      simp only [pageSize]
      omega
    obtain ⟨s₀, hs₀, ht₀, hnr₀, hbase₀⟩ := newAt_ok memory (lo * pageSize) hmmPa
      (by omega : nr < 2 ^ 32)
    have hframeSpan : FrameSpan s₀.dramBase s₀.nrFrames := by
      rw [hbase₀, hnr₀]
      exact ⟨by omega, Nat.mul_mod_left .., by simp only [pageSize]; omega⟩
    have hholes : ∀ hole ∈ boot'.holes,
        hole.Proper ∧ lo ≤ hole.base ∧ hole.base + hole.frames ≤ lo + s₀.nrFrames := by
      intro q hq
      obtain ⟨m, hm, hmem⟩ := List.mem_flatMap.mp hq
      have hin := hwf'.hole_inside hm hmem
      have := hall m (hmem' ▸ hm)
      exact ⟨hin.1, by omega, by omega⟩
    have hapart := hwf'.holes_apart (by rw [hmem']; exact hfed.memory_apart h)
    obtain ⟨s, m, hs, ht, hsame⟩ := handOver_fold ht₀ hframeSpan hbase₀ hholes hapart
      (fun _ _ _ _ => List.forall_mem_nil _)
    have hover := freeFrame_iff_handedOver hfed hmem' hperm
    obtain ⟨hinside, hclear⟩ := memmap_placed hfed hhole hfits
    refine ⟨s, mmPfn, boot', _, m, halloc, ?_, hsame.nrFrames.trans hnr₀, ht, ?_,
      hsame.dramBase.trans hbase₀, ?_, ?_, hinside, hclear, ?_⟩
    · rw [initBuddy, hspan, ok_bind]
      simp only
      rw [checkedMul_ok hmul, ok_bind, hmm, ok_bind, halloc, ok_bind]
      simp only [expect_some, ok_bind]
      rw [checkedMul_ok (by omega), ok_bind, hs₀, ok_bind, forEachFree_eq, hs]
    · rw [hsame.dramBase, hsame.nrFrames]
      exact hframeSpan
    · intro f
      rw [mem_framesOf_relative (fun q hq => (hholes q hq).2.1), hwf'.holes_has, hover]
    · intro r hr f hf
      obtain ⟨q, hq, hin⟩ := (hfed.memory_has f).mpr ⟨r, hr, hf⟩
      have hq' := hall q hq
      simp only [Region.Has] at hin
      rw [hsame.nrFrames, hnr₀]
      omega
    · rw [hsame.nrFrames, hnr₀]
      exact hroom

/-- Either there is no room for the mem-map, or the hand-off is exact. -/
theorem initBuddy_exact {ram reservations : List (ℕ × ℕ)} (h : Input ram reservations)
    (memory : ℕ → PageInfo) :
    ∃ boot lo nr mmFrames, feed ram reservations = .ok boot ∧ boot.ramSpan = .ok (lo, nr) ∧
      memmapFrames nr = .ok mmFrames ∧
      (boot.alloc mmFrames 1 = .ok (none, boot) ∧
          initBuddy memory boot = .error (.message "no room for mem-map") ∨
        ∃ s mmPfn boot', boot.alloc mmFrames 1 = .ok (some mmPfn, boot') ∧
          initBuddy memory boot = .ok s ∧ s.nrFrames = nr ∧
          HandOff ram reservations ⟨mmPfn, mmFrames⟩ s) := by
  obtain ⟨boot, lo, nr, mmFrames, hboot, hspan, hmm, hcase⟩ := initBuddy_cases h memory
  refine ⟨boot, lo, nr, mmFrames, hboot, hspan, hmm, ?_⟩
  rcases hcase with hnone | ⟨s, mmPfn, boot', given, m, halloc, hinit, hnr, hto⟩
  · exact .inl hnone
  · exact .inr ⟨s, mmPfn, boot', halloc, hinit, hnr, hto.handOff⟩

private theorem eightPages_input : Input [(0x40000000, 0x40008000)] [(0x40000000, 0x40001800)] where
  disjoint := List.pairwise_singleton ..
  page := ⟨_, List.mem_singleton_self _, 0x40000, by decide, by decide⟩
  ram_end := by decide
  reserved_nonempty := by decide
  reserved_end := by decide
  ram_capacity := by decide
  reserved_capacity := by decide

theorem initBuddy_exact_eightPages :
    ∃ boot s, feed [(0x40000000, 0x40008000)] [(0x40000000, 0x40001800)] = .ok boot ∧
      initBuddy (fun _ => default) boot = .ok s ∧
      HandOff [(0x40000000, 0x40008000)] [(0x40000000, 0x40001800)] ⟨0x40007, 1⟩ s := by
  obtain ⟨boot, lo, nr, mmFrames, hboot, hspan, hmm, hcase⟩ :=
    initBuddy_exact eightPages_input fun _ => default
  obtain rfl : boot = ⟨[⟨0x40000, 8⟩], [⟨0x40000, 2⟩]⟩ := Except.ok.inj (hboot.symm.trans rfl)
  obtain rfl : 8 = nr := congrArg Prod.snd (Except.ok.inj hspan)
  obtain rfl : 1 = mmFrames := Except.ok.inj hmm
  rcases hcase with ⟨hnone, -⟩ | ⟨s, mmPfn, boot', halloc, hinit, -, hoff⟩
  · cases hnone
  · obtain rfl : 0x40007 = mmPfn :=
      Option.some.inj (congrArg Prod.fst (Except.ok.inj halloc))
    exact ⟨_, s, hboot, hinit, hoff⟩

end Preon.Memory
