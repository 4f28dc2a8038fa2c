import Preon.Memory.BuddyPages

/-!
# The buddy allocator cannot panic

Every index, unwrap, checked operation and debug assertion of the model is an error of its result,
and so is a loop that does not end, so a call that returns has met none of them.  Casts are silent:
that none of them loses a frame number is stated apart.
-/

namespace Preon.Memory

open Framework

namespace BuddyAllocator

variable {s : BuddyAllocator} {m : FrameMap}

/-- What the mem-map stores fits its fields: a link of a free frame is the sentinel or a frame, and
no frame is the sentinel. -/
structure Fits (s : BuddyAllocator) : Prop where
  sentinel : s.nrFrames ≤ rawNone
  next : ∀ p < s.nrFrames, (s.info p).state = .free →
    (s.info p).next = rawNone ∨ (s.info p).next < s.nrFrames
  prev : ∀ p < s.nrFrames, (s.info p).state = .free →
    (s.info p).prev = rawNone ∨ (s.info p).prev < s.nrFrames
  heads : ∀ k p, s.area k = some p → p < s.nrFrames
  order : ∀ p < s.nrFrames, (s.info p).isHead → (s.info p).order < maxOrder
  counter : s.freeFrames ≤ s.nrFrames

private theorem lt_of_linkOf {raw nr : ℕ} (h : ∀ q, linkOf raw = some q → q < nr) :
    raw = rawNone ∨ raw < nr := by
  by_cases hraw : raw = rawNone
  · exact .inl hraw
  · exact .inr (h raw (linkOf_of_ne hraw))

private theorem Refines.fits (h : Refines s m) : Fits s := by
  have hq := h.wellFormed.queued
  have hfree (p : ℕ) (hp : p < s.nrFrames) (hstate : (s.info p).state = .free) :
      (s.info p).order < maxOrder ∧ p ∈ m.queue (s.info p).order := by
    have hl := (h.free_iff hp (s.info p).order).mp ⟨hstate, rfl⟩
    exact ⟨(hq.in_range p _ hl).2, (hq.mem_queue _ p).mpr hl⟩
  constructor
  · have := h.represents.nr_lt
    simp only [rawNone]
    omega
  · intro p hp hstate
    obtain ⟨hk, hpq⟩ := hfree p hp hstate
    apply lt_of_linkOf
    intro q hnext
    exact hq.lt_of_mem ((h.represents.linked _ hk).next_mem hpq hnext)
  · intro p hp hstate
    obtain ⟨hk, hpq⟩ := hfree p hp hstate
    apply lt_of_linkOf
    intro q hprev
    rcases (h.represents.linked _ hk).prev_mem hpq with hnone | ⟨y, hy, hsome⟩
    · rw [prevOf, hprev] at hnone
      cases hnone
    · rw [prevOf, hprev] at hsome
      rw [Option.some.inj hsome]
      exact hq.lt_of_mem hy
  · intro k p hp
    have hk : k < maxOrder := by
      by_contra hge
      rw [area, List.getD_eq_default _ _ (by rw [h.represents.area_length]; omega)] at hp
      cases hp
    exact hq.lt_of_mem (h.represents.head_mem hk hp)
  · intro p hp hhead
    exact (h.wellFormed.shape.head p _ ((h.isBlock_iff p _).mp ⟨hp, hhead, rfl⟩)).1
  · rw [h.counted]
    exact FrameMap.card_freeSet_le ..

end BuddyAllocator

namespace PageRun

open BuddyAllocator

variable {r : PageRun} {m : FrameMap}

/-- Every call that is in order returns, and no frame number is cut off: the end of a range, the
frame of a live address and the order of a live block fit their types. -/
structure PanicFree (r : PageRun) : Prop where
  fits : r.allocator.Fits
  freeRange : ∀ start count,
    BuddyOp.Legal ⟨r.allocator, r.live, r.given⟩ (.freeRange start count) →
      start + count < 2 ^ 32 ∧ truncate 32 count = count ∧
      ∃ s', r.allocator.freeRange start count = .ok s'
  allocPages : ∀ order, ∃ result s', r.allocator.allocPages order = .ok (result, s')
  freePages : ∀ pa order, (pa, order) ∈ r.live →
    order < maxOrder ∧ (pa - r.allocator.dramBase) / pageSize < r.allocator.nrFrames ∧
      r.allocator.pfnOf pa = .ok ((pa - r.allocator.dramBase) / pageSize) ∧
      ∃ s', r.allocator.freePages pa order = .ok s'

private theorem Tracked.panicFree (h : r.Tracked m) : r.PanicFree := by
  have hlt := h.span.nr_lt
  refine ⟨h.tracks.refines.fits, ?_, ?_, ?_⟩
  · intro start count hop
    obtain ⟨s', m', hs', -⟩ := h.freeRange hop
    have hin : start + count ≤ r.allocator.nrFrames := hop.1
    exact ⟨by omega, truncate_of_lt (by omega), s', hs'⟩
  · intro order
    rcases h.allocPages order with hs | ⟨p, s', m', hs, -⟩
    · exact ⟨none, r.allocator, hs⟩
    · exact ⟨_, s', hs⟩
  · intro pa order hlive
    obtain ⟨p, hpa, -, horder, -⟩ := h.block_bytes hlive
    obtain ⟨s', m', hs', -⟩ := h.freePages hlive
    change pa = frameAddr r.allocator.dramBase p at hpa
    have hframe : (pa - r.allocator.dramBase) / pageSize = p := by
      rw [hpa]
      exact frameOf_frameAddr ..
    have hl : m.label p = .allocated order := by
      rw [← h.mem_live, ← hpa]
      exact hlive
    have hp : p < r.allocator.nrFrames :=
      h.tracks.refines.wellFormed.shape.lt_of_head (k := order) (by rw [hl]; rfl)
    rw [hframe]
    refine ⟨horder, hp, ?_, s', hs'⟩
    rw [hpa]
    exact pfnOf_ok h.span hp

/-- In every state of every run over a page-aligned span below 2 ^ 48 no call in order panics. -/
theorem panicFree_of_reachable {pages : List PageInfo} {dramBase nrFrames : ℕ} {r : PageRun}
    (hlt : nrFrames < 2 ^ 32) (hal : dramBase % pageSize = 0)
    (hfit : dramBase + nrFrames * pageSize ≤ 2 ^ 48)
    (h : (pageSystem pages dramBase nrFrames).Reachable r) : r.PanicFree := by
  have hspan : FrameSpan dramBase nrFrames := ⟨hlt, hal, by omega⟩
  obtain ⟨⟨m, ht, -⟩, -⟩ := tracked_of_reachable hspan h
  exact ht.panicFree

/-- Six frames, five of them handed over, a block of two out. -/
theorem panicFree_sixFrames :
    PanicFree ⟨BuddyRun.sixFrames.allocator, [(0x40000000, 1)], [(0, 5)]⟩ := by
  have hinit : (pageSystem (List.replicate 6 default) 0x40000000 6).init
      ⟨BuddyRun.sixReserved.allocator, [], []⟩ := ⟨rfl, rfl, rfl⟩
  have hstate : ∀ f < 5, (BuddyRun.sixReserved.allocator.info f).state = .reserved := by decide
  have hgive : BuddyOp.Legal ⟨BuddyRun.sixReserved.allocator, [], []⟩ (.freeRange 0 5) :=
    ⟨by decide, fun f _ hf => hstate f hf⟩
  have hgiven : (pageSystem (List.replicate 6 default) 0x40000000 6).Reachable ⟨_, [], [(0, 5)]⟩ :=
    (System.Reachable.init hinit).step (e := .freeRange 0 5) ⟨hgive, rfl, rfl, rfl⟩
  exact panicFree_of_reachable (by decide) (by decide) (by decide)
    (hgiven.step (e := .allocPages 1 (some 0x40000000)) ⟨rfl, rfl, rfl⟩)

end PageRun

end Preon.Memory
