import Preon.Framework.ByteMemory
import Preon.Memory.BuddyComplete

/-!
# The buddy allocator at its physical-address interface

Seen through `free_range`, `alloc_pages` and `free_pages` the allocator is a set of free frames:
an allocation removes an aligned block, a release adds it back, and nothing else moves.
-/

namespace Preon.Memory

open Framework

/-- The frames of a buddy allocator: page-aligned, and their end is an address. -/
structure FrameSpan (dramBase nrFrames : ℕ) : Prop where
  nr_lt : nrFrames < 2 ^ 32
  aligned : dramBase % pageSize = 0
  fits : dramBase + nrFrames * pageSize < 2 ^ 64

def frameAddr (dramBase p : ℕ) : ℕ := dramBase + p * pageSize

/-- The frame at a physical address. -/
def frameOf (dramBase pa : ℕ) : ℕ := (pa - dramBase) / pageSize

theorem frameOf_frameAddr (dramBase p : ℕ) : frameOf dramBase (frameAddr dramBase p) = p := by
  rw [frameOf, frameAddr, Nat.add_sub_cancel_left, Nat.mul_div_cancel _ (by decide)]

namespace BuddyAllocator

variable {s : BuddyAllocator}

private theorem paOf_ok (hspan : FrameSpan s.dramBase s.nrFrames) {p : ℕ} (hp : p < s.nrFrames) :
    s.paOf p = .ok (frameAddr s.dramBase p) := by
  have hfits := hspan.fits
  have hmul : p * pageSize < s.nrFrames * pageSize := Nat.mul_lt_mul_of_pos_right hp (by decide)
  rw [paOf, debugAssert_true hp, ok_bind, checkedMul_ok (by omega), ok_bind,
    checkedAdd_ok (by omega)]
  rfl

theorem pfnOf_ok (hspan : FrameSpan s.dramBase s.nrFrames) {p : ℕ} (hp : p < s.nrFrames) :
    s.pfnOf (frameAddr s.dramBase p) = .ok p := by
  have hfits := hspan.fits
  have hlt := hspan.nr_lt
  have hmul : p * pageSize < s.nrFrames * pageSize := Nat.mul_lt_mul_of_pos_right hp (by decide)
  have hal : (s.dramBase + p * pageSize) % pageSize = 0 := by
    rw [Nat.add_mul_mod_self_right]
    exact hspan.aligned
  have hframe := frameOf_frameAddr s.dramBase p
  rw [frameOf, frameAddr] at hframe
  rw [pfnOf, frameAddr, debugAssert_true (by omega), ok_bind, checkedMul_ok (by omega), ok_bind,
    checkedAdd_ok (by omega), ok_bind, debugAssert_true (by omega), ok_bind, debugAssert_true hal,
    ok_bind, checkedSub_ok (by omega), ok_bind, hframe, truncate_of_lt (by omega)]
  rfl

private theorem allocPages_none {order : ℕ} (h : s.alloc order = .ok (none, s)) :
    s.allocPages order = .ok (none, s) := by
  rw [allocPages, h]
  rfl

theorem allocPages_some {s' : BuddyAllocator} (hspan : FrameSpan s'.dramBase s'.nrFrames)
    {order p : ℕ} (h : s.alloc order = .ok (some p, s')) (hp : p < s'.nrFrames) :
    s.allocPages order = .ok (some (frameAddr s'.dramBase p), s') := by
  rw [allocPages, h, ok_bind]
  change s'.paOf p >>= _ = _
  rw [paOf_ok hspan hp]
  rfl

private theorem freePages_ok {s' : BuddyAllocator}
    (hspan : FrameSpan s.dramBase s.nrFrames) {order p : ℕ}
    (hp : p < s.nrFrames) (h : s.free p order = .ok s') :
    s.freePages (frameAddr s.dramBase p) order = .ok s' := by
  rw [freePages, pfnOf_ok hspan hp, ok_bind, h]

end BuddyAllocator

/-- A call and, for an allocation, what it returned. -/
inductive PageEvent
  | freeRange (start count : ℕ)
  | allocPages (order : ℕ) (result : Option ℕ)
  | freePages (pa order : ℕ)

/-! ## The abstract allocator -/

/-- A set of free frames, the blocks that are out, and the ranges ever handed over. -/
structure FrameSet where
  free : Finset ℕ
  live : List (ℕ × ℕ)
  given : List (ℕ × ℕ)

/-- When a request may fail.  For a single page nothing is free.  Where the ranges handed over do
not touch, no aligned run of the size is free. -/
structure FrameSet.Lacks (a : FrameSet) (order : ℕ) : Prop where
  page : order = 0 → a.free = ∅
  run : a.given.Pairwise BuddyRun.Separated → order < maxOrder →
    ¬ ∃ p, p % 2 ^ order = 0 ∧ block p order ⊆ a.free

inductive FrameSet.Step (dramBase : ℕ) : FrameSet → PageEvent → FrameSet → Prop
  | freeRange {a : FrameSet} {start count : ℕ} :
      Disjoint (BuddyAllocator.framesOf a.given) (Finset.Ico start (start + count)) →
      Step dramBase a (.freeRange start count)
        ⟨a.free ∪ Finset.Ico start (start + count), a.live, (start, count) :: a.given⟩
  | allocNone {a : FrameSet} {order : ℕ} :
      a.Lacks order → Step dramBase a (.allocPages order none) a
  | allocSome {a : FrameSet} {order p : ℕ} :
      p % 2 ^ order = 0 → block p order ⊆ a.free →
      Step dramBase a (.allocPages order (some (frameAddr dramBase p)))
        ⟨a.free \ block p order, (frameAddr dramBase p, order) :: a.live, a.given⟩
  | freePages {a : FrameSet} {order p : ℕ} :
      (frameAddr dramBase p, order) ∈ a.live → Disjoint a.free (block p order) →
      Step dramBase a (.freePages (frameAddr dramBase p) order)
        ⟨a.free ∪ block p order, a.live.erase (frameAddr dramBase p, order), a.given⟩

def frameSetSystem (dramBase : ℕ) : System FrameSet PageEvent where
  init a := a = ⟨∅, [], []⟩
  step := FrameSet.Step dramBase

/-! ## The code -/

structure PageRun where
  allocator : BuddyAllocator
  live : List (ℕ × ℕ)
  given : List (ℕ × ℕ)

namespace PageRun

/-- A call that its callers promise to be in order, and its return. -/
def Step (r : PageRun) : PageEvent → PageRun → Prop
  | .freeRange start count, r' =>
      BuddyOp.Legal ⟨r.allocator, r.live, r.given⟩ (.freeRange start count) ∧
        r.allocator.freeRange start count = .ok r'.allocator ∧ r'.live = r.live ∧
        r'.given = (start, count) :: r.given
  | .allocPages order none, r' =>
      r.allocator.allocPages order = .ok (none, r'.allocator) ∧ r'.live = r.live ∧
        r'.given = r.given
  | .allocPages order (some pa), r' =>
      r.allocator.allocPages order = .ok (some pa, r'.allocator) ∧
        r'.live = (pa, order) :: r.live ∧ r'.given = r.given
  | .freePages pa order, r' =>
      (pa, order) ∈ r.live ∧ r.allocator.freePages pa order = .ok r'.allocator ∧
        r'.live = r.live.erase (pa, order) ∧ r'.given = r.given

theorem Step.keeps_live {r r' : PageRun} {call : PageEvent} (h : r.Step call r') {b : ℕ × ℕ}
    (hb : b ∈ r.live) (hne : call ≠ .freePages b.1 b.2) : b ∈ r'.live := by
  match call, h with
  | .freeRange .., ⟨_, _, hlive, _⟩ => rwa [hlive]
  | .allocPages _ none, ⟨_, hlive, _⟩ => rwa [hlive]
  | .allocPages _ (some _), ⟨_, hlive, _⟩ => rw [hlive]; exact List.mem_cons_of_mem _ hb
  | .freePages pa order, ⟨_, _, hlive, _⟩ =>
      rw [hlive]
      refine (List.mem_erase_of_ne ?_).mpr hb
      rintro rfl
      exact hne rfl

end PageRun

def pageSystem (pages : List PageInfo) (dramBase nrFrames : ℕ) : System PageRun PageEvent where
  init r :=
    BuddyAllocator.new pages dramBase nrFrames = .ok r.allocator ∧ r.live = [] ∧ r.given = []
  step := PageRun.Step

namespace PageRun

open BuddyAllocator

/-- The abstract allocator that a run stands for: its free frames are those of the free blocks,
and the head of every live block is allocated with its order. -/
structure Abstracts (r : PageRun) (a : FrameSet) : Prop where
  free : a.free = r.allocator.freeFrameSet
  live : a.live = r.live
  given : a.given = r.given
  heads : ∀ pa order, (pa, order) ∈ r.live → ∃ p < r.allocator.nrFrames,
    pa = frameAddr r.allocator.dramBase p ∧ (r.allocator.info p).state = .allocated ∧
      (r.allocator.info p).order = order

/-- The live addresses are the addresses of the live frames. -/
structure Tracked (r : PageRun) (m : FrameMap) : Prop where
  span : FrameSpan r.allocator.dramBase r.allocator.nrFrames
  tracks : BuddyAllocator.Tracks r.allocator
    (r.live.map fun b => (frameOf r.allocator.dramBase b.1, b.2)) r.given m
  address : ∀ b ∈ r.live, ∃ p, b.1 = frameAddr r.allocator.dramBase p

variable {r : PageRun} {m : FrameMap}

theorem Tracked.mem_live (h : r.Tracked m) {p order : ℕ} :
    (frameAddr r.allocator.dramBase p, order) ∈ r.live ↔ m.label p = .allocated order := by
  rw [← h.tracks.allocated, List.mem_map]
  constructor
  · intro hm
    exact ⟨_, hm, by rw [frameOf_frameAddr]⟩
  · rintro ⟨⟨pa, k⟩, hm, he⟩
    obtain ⟨q, hq⟩ := h.address _ hm
    simp only [Prod.mk.injEq] at he hq
    obtain ⟨hp, rfl⟩ := he
    rw [hq, frameOf_frameAddr] at hp
    rw [← hp, ← hq]
    exact hm

theorem Tracked.abstracts (h : r.Tracked m) :
    r.Abstracts ⟨r.allocator.freeFrameSet, r.live, r.given⟩ := by
  refine ⟨rfl, rfl, rfl, ?_⟩
  intro pa order hm
  obtain ⟨p, rfl⟩ := h.address _ hm
  have hl := h.mem_live.mp hm
  have hp := h.tracks.refines.wellFormed.shape.lt_of_head (p := p) (k := order) (by rw [hl]; rfl)
  obtain ⟨hs, ho⟩ := (h.tracks.refines.allocated_iff hp order).mpr hl
  exact ⟨p, hp, rfl, hs, ho⟩

private theorem Abstracts.eq {a : FrameSet} (h : r.Abstracts a) :
    a = ⟨r.allocator.freeFrameSet, r.live, r.given⟩ := by
  obtain ⟨free, live, given⟩ := a
  obtain ⟨rfl, rfl, rfl, -⟩ := h
  rfl

/-- The abstract state of a run. -/
def frameSet (r : PageRun) : FrameSet := ⟨r.allocator.freeFrameSet, r.live, r.given⟩

theorem Tracked.freeRange (h : r.Tracked m) {start count : ℕ}
    (hop : BuddyOp.Legal ⟨r.allocator, r.live, r.given⟩ (.freeRange start count)) :
    ∃ s' m', r.allocator.freeRange start count = .ok s' ∧
      Tracked ⟨s', r.live, (start, count) :: r.given⟩ m' ∧ SameSpan r.allocator s' ∧
      FrameMap.Step r.allocator.nrFrames m (.freeRange start count) m' ∧
      FrameSet.Step r.allocator.dramBase r.frameSet (.freeRange start count)
        (frameSet ⟨s', r.live, (start, count) :: r.given⟩) := by
  obtain ⟨hin, hres⟩ := hop
  obtain ⟨s', hs', ht, hspan⟩ := h.tracks.freeRange hin hres
  have hlabel : ∀ f, start ≤ f → f < start + count → m.label f = .reserved := fun f hf hf' =>
    (h.tracks.refines.reserved_iff (lt_of_lt_of_le hf' hin)).mp (hres f hf hf')
  have hspec := FrameMap.seedRange_spec h.tracks.refines.wellFormed h.tracks.refines.atRest count
    start (start + count) le_rfl hin hlabel
  have hfree : s'.freeFrameSet = r.allocator.freeFrameSet ∪ Finset.Ico start (start + count) := by
    ext f
    rw [ht.refines.mem_freeFrameSet, Finset.mem_union, h.tracks.refines.mem_freeFrameSet,
      Finset.mem_Ico, hspec.freeAt]
  have hdisj : Disjoint (framesOf r.given) (Finset.Ico start (start + count)) := by
    rw [Finset.disjoint_left]
    intro f hf hf'
    obtain ⟨range, hr, hm⟩ := mem_framesOf.mp hf
    rw [Finset.mem_Ico] at hf'
    exact (h.tracks.reserved f).mp (hlabel f hf'.1 hf'.2) range hr hm
  refine ⟨s', FrameMap.seedRange (start + count) count m start, hs', ⟨?_, ?_, ?_⟩, hspan,
    .freeRange start count, ?_⟩
  · simpa only [hspan.nrFrames, hspan.dramBase] using h.span
  · simpa only [hspan.dramBase] using ht
  · simpa only [hspan.dramBase] using h.address
  · simp only [frameSet, hfree]
    exact .freeRange hdisj

theorem Tracked.allocPages (h : r.Tracked m) (order : ℕ) :
    r.allocator.allocPages order = .ok (none, r.allocator) ∨
      ∃ p s' m', r.allocator.allocPages order =
          .ok (some (frameAddr r.allocator.dramBase p), s') ∧
        Tracked ⟨s', (frameAddr r.allocator.dramBase p, order) :: r.live, r.given⟩ m' ∧
        SameSpan r.allocator s' ∧ m.allocate order = some (p, m') ∧
        FrameSet.Step r.allocator.dramBase r.frameSet
          (.allocPages order (some (frameAddr r.allocator.dramBase p)))
          (frameSet ⟨s', (frameAddr r.allocator.dramBase p, order) :: r.live, r.given⟩) := by
  rcases h.tracks.alloc order with ⟨-, hs⟩ | ⟨b, m', s', ha, hs', ht, hspan⟩
  · exact .inl (allocPages_none hs)
  · right
    have hspec := FrameMap.allocate_spec h.tracks.refines.wellFormed h.tracks.refines.atRest ha
    have hspan' : FrameSpan s'.dramBase s'.nrFrames := by
      simpa only [hspan.nrFrames, hspan.dramBase] using h.span
    have hb : b < s'.nrFrames := by
      have := hspec.fits
      have := Nat.two_pow_pos order
      rw [hspan.nrFrames]
      omega
    have hcall := allocPages_some hspan' hs' hb
    rw [hspan.dramBase] at hcall
    have hfree : s'.freeFrameSet = r.allocator.freeFrameSet \ block b order := by
      ext f
      rw [ht.refines.mem_freeFrameSet, Finset.mem_sdiff, h.tracks.refines.mem_freeFrameSet,
        hspec.freeAt]
    have hsub : block b order ⊆ r.allocator.freeFrameSet := fun f hf =>
      h.tracks.refines.mem_freeFrameSet.mpr (hspec.wasFree f hf)
    refine ⟨b, s', m', hcall, ⟨hspan', ?_, ?_⟩, hspan, ha, ?_⟩
    · simpa only [hspan.dramBase, List.map_cons, frameOf_frameAddr] using ht
    · rw [List.forall_mem_cons, hspan.dramBase]
      exact ⟨⟨b, rfl⟩, h.address⟩
    · simp only [frameSet, hfree]
      exact .allocSome (aligned_iff_mod.mp hspec.aligned) hsub

private theorem Tracked.allocate_none (h : r.Tracked m) {order : ℕ} {s' : BuddyAllocator}
    (hcall : r.allocator.allocPages order = .ok (none, s')) : m.allocate order = none := by
  rcases h.tracks.alloc order with ⟨hnone, -⟩ | ⟨b, m', s₁, -, halloc, -⟩
  · exact hnone
  · rw [BuddyAllocator.allocPages, halloc, ok_bind] at hcall
    obtain ⟨pa, -, hcall⟩ := bind_eq_ok.mp hcall
    cases hcall

theorem Tracked.allocPage_ne_none (h : r.Tracked m) {f : ℕ} (hf : f ∈ r.allocator.freeFrameSet)
    (s' : BuddyAllocator) : r.allocator.allocPages 0 ≠ .ok (none, s') := fun hcall =>
  FrameMap.allocate_zero h.tracks.refines.wellFormed (h.tracks.refines.mem_freeFrameSet.mp hf)
    (h.allocate_none hcall)

/-- The frames handed over in ranges that do not touch are fully coalesced. -/
def Coalesced (r : PageRun) (m : FrameMap) : Prop :=
  r.given.Pairwise BuddyRun.Separated → FrameMap.NoFreeBuddies m

private theorem Tracked.lacks (h : r.Tracked m) (hn : r.Coalesced m) {order : ℕ}
    (hnone : m.allocate order = none) : r.frameSet.Lacks order := by
  have hwf := h.tracks.refines.wellFormed
  constructor
  · rintro rfl
    rw [Finset.eq_empty_iff_forall_notMem]
    intro f hf
    exact FrameMap.allocate_zero hwf (h.tracks.refines.mem_freeFrameSet.mp hf) hnone
  · rintro hsep hlt ⟨p, hal, hsub⟩
    rcases ((hn hsep).allocate_none_iff hwf order).mp hnone with hlarge | hruns
    · omega
    · exact hruns ⟨p, aligned_iff_mod.mpr hal, fun f hf =>
        h.tracks.refines.mem_freeFrameSet.mp (hsub hf)⟩

theorem Tracked.freePages (h : r.Tracked m) {pa order : ℕ} (hlive : (pa, order) ∈ r.live) :
    ∃ s' m', r.allocator.freePages pa order = .ok s' ∧
      Tracked ⟨s', r.live.erase (pa, order), r.given⟩ m' ∧ SameSpan r.allocator s' ∧
      (∃ p, m.label p = .allocated order ∧ m' = m.release r.allocator.nrFrames p order) ∧
      FrameSet.Step r.allocator.dramBase r.frameSet (.freePages pa order)
        (frameSet ⟨s', r.live.erase (pa, order), r.given⟩) := by
  obtain ⟨p, rfl⟩ := h.address _ hlive
  have hl := h.mem_live.mp hlive
  have hp := h.tracks.refines.wellFormed.shape.lt_of_head (p := p) (k := order) (by rw [hl]; rfl)
  have hspec := FrameMap.release_spec h.tracks.refines.wellFormed h.tracks.refines.atRest hl
  obtain ⟨s', hs', ht, hspan⟩ := h.tracks.free ((h.tracks.allocated p order).mpr hl)
  have hfree : s'.freeFrameSet = r.allocator.freeFrameSet ∪ block p order := by
    ext f
    rw [ht.refines.mem_freeFrameSet, Finset.mem_union, h.tracks.refines.mem_freeFrameSet,
      hspec.freeAt]
  have hdisj : Disjoint r.allocator.freeFrameSet (block p order) := by
    rw [Finset.disjoint_right]
    exact fun f hf hm => hspec.wasTaken f hf (h.tracks.refines.mem_freeFrameSet.mp hm)
  have hperm : ((r.live.map fun b => (frameOf r.allocator.dramBase b.1, b.2)).erase (p, order)).Perm
      ((r.live.erase (frameAddr r.allocator.dramBase p, order)).map
        fun b => (frameOf r.allocator.dramBase b.1, b.2)) := by
    apply List.Perm.cons_inv (a := (p, order))
    refine (List.perm_cons_erase ((h.tracks.allocated p order).mpr hl)).symm.trans ?_
    have hmap := (List.perm_cons_erase hlive).map fun b => (frameOf r.allocator.dramBase b.1, b.2)
    simpa only [List.map_cons, frameOf_frameAddr] using hmap
  refine ⟨s', m.release r.allocator.nrFrames p order, freePages_ok h.span hp hs', ⟨?_, ?_, ?_⟩,
    hspan, ⟨p, hl, rfl⟩, ?_⟩
  · simpa only [hspan.nrFrames, hspan.dramBase] using h.span
  · simpa only [hspan.dramBase] using ht.perm hperm
  · intro b hb
    rw [hspan.dramBase]
    exact h.address b (List.mem_of_mem_erase hb)
  · simp only [frameSet, hfree]
    exact .freePages hlive hdisj

theorem Tracked.step (h : r.Tracked m) {e : PageEvent} {r' : PageRun} (hstep : r.Step e r') :
    ∃ m', r'.Tracked m' ∧ SameSpan r.allocator r'.allocator ∧ (r.Coalesced m → r'.Coalesced m' ∧
      FrameSet.Step r.allocator.dramBase r.frameSet e r'.frameSet) := by
  have hwf := h.tracks.refines.wellFormed
  obtain ⟨allocator, live, given⟩ := r'
  match e with
  | .freeRange start count =>
      obtain ⟨hop, hcall, rfl, rfl⟩ := hstep
      obtain ⟨s', m', hs', ht, hspan, hmap, habs⟩ := h.freeRange hop
      obtain rfl := Except.ok.inj (hs'.symm.trans hcall)
      refine ⟨m', ht, hspan, fun hn => ⟨fun hsep => ?_, habs⟩⟩
      obtain ⟨hhead, htail⟩ := List.pairwise_cons.mp hsep
      refine BuddyRun.Tracked.noFreeBuddies_step
        (r := ⟨r.allocator, _, r.given⟩) h.tracks (hn htail)
        (show BuddyOp.Legal _ (.freeRange start count) from hop) hmap ?_
      intro start' count' he
      cases he
      exact hhead
  | .allocPages order none =>
      obtain ⟨hcall, rfl, rfl⟩ := hstep
      rcases h.allocPages order with hs | ⟨p, s', m', hs, -⟩
      · obtain rfl := (Prod.mk.inj (Except.ok.inj (hs.symm.trans hcall))).2
        have hlacks (hn : r.Coalesced m) := h.lacks hn (h.allocate_none hcall)
        exact ⟨m, h, ⟨rfl, rfl⟩, fun hn => ⟨hn, .allocNone (hlacks hn)⟩⟩
      · cases (Prod.mk.inj (Except.ok.inj (hs.symm.trans hcall))).1
  | .allocPages order (some pa) =>
      obtain ⟨hcall, rfl, rfl⟩ := hstep
      rcases h.allocPages order with hs | ⟨p, s', m', hs, ht, hspan, ha, habs⟩
      · cases (Prod.mk.inj (Except.ok.inj (hs.symm.trans hcall))).1
      · obtain ⟨hpa, rfl⟩ := Prod.mk.inj (Except.ok.inj (hs.symm.trans hcall))
        obtain rfl := Option.some.inj hpa
        exact ⟨m', ht, hspan, fun hn => ⟨fun hsep => .allocate hwf (hn hsep) ha, habs⟩⟩
  | .freePages pa order =>
      obtain ⟨hlive, hcall, rfl, rfl⟩ := hstep
      obtain ⟨s', m', hs', ht, hspan, ⟨p, hp, rfl⟩, habs⟩ := h.freePages hlive
      obtain rfl := Except.ok.inj (hs'.symm.trans hcall)
      exact ⟨_, ht, hspan, fun hn => ⟨fun hsep => .release hwf (hn hsep) hp, habs⟩⟩

theorem tracked_new {pages : List PageInfo} {dramBase nrFrames : ℕ} {r : PageRun}
    (hspan : FrameSpan dramBase nrFrames) (h : (pageSystem pages dramBase nrFrames).init r) :
    r.Tracked emptyMap ∧ r.allocator.nrFrames = nrFrames ∧ r.allocator.dramBase = dramBase := by
  obtain ⟨ht, hnr, hbase⟩ :=
    BuddyRun.tracked_new (r := ⟨r.allocator, r.live, r.given⟩) hspan.nr_lt h
  have hlive : r.live = [] := h.2.1
  refine ⟨⟨?_, ?_, ?_⟩, hnr, hbase⟩
  · rw [show r.allocator.nrFrames = nrFrames from hnr,
      show r.allocator.dramBase = dramBase from hbase]
    exact hspan
  · change Tracks r.allocator r.live r.given emptyMap at ht
    rw [hlive] at ht ⊢
    exact ht
  · rw [hlive]
    nofun

theorem tracked_of_reachable {pages : List PageInfo} {dramBase nrFrames : ℕ} {r : PageRun}
    (hspan : FrameSpan dramBase nrFrames) (h : (pageSystem pages dramBase nrFrames).Reachable r) :
    (∃ m, r.Tracked m ∧ r.Coalesced m) ∧ r.allocator.nrFrames = nrFrames ∧
      r.allocator.dramBase = dramBase := by
  revert h
  apply System.Reachable.invariant
  · intro r hr
    obtain ⟨ht, hfixed⟩ := tracked_new hspan hr
    exact ⟨⟨_, ht, fun _ _ _ _ hp => nomatch hp⟩, hfixed⟩
  · rintro r e r' ⟨⟨m, ht, hn⟩, hnr, hbase⟩ hstep
    obtain ⟨m', ht', hsame, hnext⟩ := ht.step hstep
    exact ⟨⟨m', ht', (hnext hn).1⟩, hsame.nrFrames.trans hnr, hsame.dramBase.trans hbase⟩

def liveFrames (r : PageRun) (b : ℕ × ℕ) : Finset ℕ := block (frameOf r.allocator.dramBase b.1) b.2

/-- What follows for the blocks that are out at any time. -/
structure Accounted (r : PageRun) : Prop where
  disjoint : r.live.Pairwise fun b c => Disjoint (r.liveFrames b) (r.liveFrames c)
  given : ∀ b ∈ r.live, r.liveFrames b ⊆ framesOf r.given
  total : r.allocator.freeFrames + (r.live.map fun b => 2 ^ b.2).sum = (r.given.map Prod.snd).sum

theorem Tracked.accounted (h : r.Tracked m) : r.Accounted := by
  have hmem {b : ℕ × ℕ} (hb : b ∈ r.live) : (frameOf r.allocator.dramBase b.1, b.2) ∈
      r.live.map fun b => (frameOf r.allocator.dramBase b.1, b.2) := List.mem_map_of_mem hb
  constructor
  · have hnodup : (r.live.map fun b => (frameOf r.allocator.dramBase b.1, b.2)).Nodup :=
      h.tracks.nodup
    rw [List.Nodup, List.pairwise_map] at hnodup
    apply hnodup.imp_of_mem
    intro b c hb hc hne
    exact h.tracks.disjoint (hmem hb) (hmem hc) hne
  · intro b hb f hf
    exact mem_framesOf.mpr (h.tracks.given_of_live (hmem hb) hf)
  · have htotal := h.tracks.total
    simpa only [List.map_map, Function.comp_def] using htotal

theorem Tracked.perm {s : BuddyAllocator} {live live' given : List (ℕ × ℕ)}
    (h : Tracked ⟨s, live, given⟩ m) (hp : live.Perm live') : Tracked ⟨s, live', given⟩ m :=
  ⟨h.span, h.tracks.perm (hp.map _), fun b hb => h.address b (hp.mem_iff.mpr hb)⟩

/-- The bytes of a live block: page-aligned and inside the allocator's span. -/
theorem Tracked.block_bytes (h : r.Tracked m) {b : ℕ × ℕ} (hb : b ∈ r.live) :
    ∃ p, b.1 = frameAddr r.allocator.dramBase p ∧ Aligned p b.2 ∧ b.2 < maxOrder ∧
      b.1 % pageSize = 0 ∧
      b.1 + 2 ^ b.2 * pageSize ≤ r.allocator.dramBase + r.allocator.nrFrames * pageSize := by
  obtain ⟨p, hp⟩ := h.address b hb
  have hl : m.label p = .allocated b.2 := by
    rw [← h.mem_live, ← hp]
    exact hb
  obtain ⟨hlt, hal, hfit⟩ := h.tracks.refines.wellFormed.shape.head p b.2 (by rw [hl]; rfl)
  refine ⟨p, hp, hal, hlt, ?_, ?_⟩
  · rw [hp, frameAddr, Nat.add_mul_mod_self_right]
    exact h.span.aligned
  · have hmul : (p + 2 ^ b.2) * pageSize ≤ r.allocator.nrFrames * pageSize :=
      Nat.mul_le_mul_right pageSize hfit
    rw [Nat.add_mul] at hmul
    rw [hp, frameAddr]
    omega

theorem Tracked.blocks_clear (h : r.Tracked m) :
    r.live.Pairwise fun b c => Clear b.1 (2 ^ b.2 * pageSize) c.1 (2 ^ c.2 * pageSize) := by
  apply h.accounted.disjoint.imp_of_mem
  intro b c hb hc hdisj
  obtain ⟨p, hp, -⟩ := h.block_bytes hb
  obtain ⟨q, hq, -⟩ := h.block_bytes hc
  rw [liveFrames, liveFrames, hp, hq, frameOf_frameAddr, frameOf_frameAddr] at hdisj
  have hpos := Nat.two_pow_pos b.2
  have hpos' := Nat.two_pow_pos c.2
  have hcase : p + 2 ^ b.2 ≤ q ∨ q + 2 ^ c.2 ≤ p := by
    by_contra hmeet
    refine Finset.disjoint_left.mp hdisj (show max p q ∈ block p b.2 from ?_) ?_ <;>
      · rw [mem_block]
        omega
  rw [hp, hq]
  simp only [Clear, frameAddr, pageSize]
  omega

private theorem Tracked.returns (h : r.Tracked m) :
    (∀ start count, BuddyOp.Legal ⟨r.allocator, r.live, r.given⟩ (.freeRange start count) →
      ∃ r', r.Step (.freeRange start count) r') ∧
    (∀ order, ∃ result r', r.Step (.allocPages order result) r') ∧
    ∀ pa order, (pa, order) ∈ r.live → ∃ r', r.Step (.freePages pa order) r' := by
  refine ⟨?_, ?_, ?_⟩
  · intro start count hop
    obtain ⟨s', m', hs', -⟩ := h.freeRange hop
    exact ⟨⟨s', r.live, (start, count) :: r.given⟩, hop, hs', rfl, rfl⟩
  · intro order
    rcases h.allocPages order with hs | ⟨p, s', m', hs, -⟩
    · exact ⟨none, r, hs, rfl, rfl⟩
    · exact ⟨some _, ⟨s', (_, order) :: r.live, r.given⟩, hs, rfl, rfl⟩
  · intro pa order hlive
    obtain ⟨s', m', hs', -⟩ := h.freePages hlive
    exact ⟨⟨s', r.live.erase (pa, order), r.given⟩, hlive, hs', rfl, rfl⟩

/-- The allocator refines the set of free frames on every history of calls. -/
theorem pageSystem_refines_frameSet (pages : List PageInfo) {dramBase nrFrames : ℕ}
    (hspan : FrameSpan dramBase nrFrames) :
    (pageSystem pages dramBase nrFrames).Simulates (frameSetSystem dramBase) Abstracts ∧
      ∀ r, (pageSystem pages dramBase nrFrames).Reachable r → r.Accounted ∧
        (∀ start count, BuddyOp.Legal ⟨r.allocator, r.live, r.given⟩ (.freeRange start count) →
          ∃ r', r.Step (.freeRange start count) r') ∧
        (∀ order, ∃ result r', r.Step (.allocPages order result) r') ∧
        ∀ pa order, (pa, order) ∈ r.live → ∃ r', r.Step (.freePages pa order) r' := by
  refine ⟨⟨?_, ?_⟩, ?_⟩
  · intro r hr
    obtain ⟨ht, -⟩ := tracked_new hspan hr
    obtain ⟨-, hlive, hgiven⟩ := hr
    refine ⟨r.frameSet, ?_, ht.abstracts⟩
    have hnone : r.allocator.freeFrameSet = ∅ := by
      rw [Finset.eq_empty_iff_forall_notMem]
      intro f hf
      obtain ⟨q, j, hq, -⟩ := ht.tracks.refines.mem_freeFrameSet.mp hf
      cases hq
    change (⟨_, _, _⟩ : FrameSet) = _
    rw [hnone, hlive, hgiven]
  · intro r e r' a hr habs hstep
    obtain ⟨⟨m, ht, hn⟩, -, hbase⟩ := tracked_of_reachable hspan hr
    obtain ⟨m', ht', -, hnext⟩ := ht.step hstep
    have hstep' := (hnext hn).2
    rw [hbase] at hstep'
    refine ⟨r'.frameSet, ?_, ht'.abstracts⟩
    rw [habs.eq]
    exact hstep'
  · intro r hr
    obtain ⟨⟨m, ht, -⟩, -⟩ := tracked_of_reachable hspan hr
    exact ⟨ht.accounted, ht.returns⟩

/-- Five of six frames are handed over, two of them are taken, and no run of four is left. -/
theorem pageSystem_refines_frameSet_six : ∃ r a,
    (pageSystem (List.replicate 6 default) 0x40000000 6).Reaches
        [.freeRange 0 5, .allocPages 1 (some 0x40000000), .allocPages 2 none] r ∧
      (frameSetSystem 0x40000000).Reaches
        [.freeRange 0 5, .allocPages 1 (some 0x40000000), .allocPages 2 none] a ∧
      r.Abstracts a ∧ a.live = [(0x40000000, 1)] := by
  have hinit : (pageSystem (List.replicate 6 default) 0x40000000 6).init
      ⟨BuddyRun.sixReserved.allocator, [], []⟩ := ⟨rfl, rfl, rfl⟩
  have hstate : ∀ f < 5, (BuddyRun.sixReserved.allocator.info f).state = .reserved := by decide
  have hgive : BuddyOp.Legal ⟨BuddyRun.sixReserved.allocator, [], []⟩ (.freeRange 0 5) :=
    ⟨by decide, fun f _ hf => hstate f hf⟩
  have hrun : ∃ s, BuddyRun.sixReserved.allocator.freeRange 0 5 = .ok s ∧
      s.allocPages 1 = .ok (some 0x40000000, BuddyRun.sixFrames.allocator) ∧
      BuddyRun.sixFrames.allocator.allocPages 2 = .ok (none, BuddyRun.sixFrames.allocator) :=
    ⟨_, rfl, rfl, rfl⟩
  obtain ⟨s, hgiven, htaken, hfailed⟩ := hrun
  have hgives : (pageSystem (List.replicate 6 default) 0x40000000 6).step
      ⟨BuddyRun.sixReserved.allocator, [], []⟩ (.freeRange 0 5) ⟨s, [], [(0, 5)]⟩ :=
    ⟨hgive, hgiven, rfl, rfl⟩
  have htakes : (pageSystem (List.replicate 6 default) 0x40000000 6).step
      ⟨s, [], [(0, 5)]⟩ (.allocPages 1 (some 0x40000000))
      ⟨BuddyRun.sixFrames.allocator, [(0x40000000, 1)], [(0, 5)]⟩ := ⟨htaken, rfl, rfl⟩
  have hfails : (pageSystem (List.replicate 6 default) 0x40000000 6).step
      ⟨BuddyRun.sixFrames.allocator, [(0x40000000, 1)], [(0, 5)]⟩ (.allocPages 2 none)
      ⟨BuddyRun.sixFrames.allocator, [(0x40000000, 1)], [(0, 5)]⟩ := ⟨hfailed, rfl, rfl⟩
  have hreaches := (((System.Reaches.init hinit).step hgives).step htakes).step hfails
  obtain ⟨a, habstract, habs⟩ := (pageSystem_refines_frameSet (List.replicate 6 default)
    ⟨by decide, by decide, by decide⟩).1.reaches hreaches
  exact ⟨_, a, hreaches, habstract, habs, habs.live⟩

end PageRun

end Preon.Memory
