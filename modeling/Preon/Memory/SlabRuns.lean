import Preon.Memory.SlabCalls

/-!
# Runs of the slab allocator

The global allocator with its clients and the other users of the buddy allocator, as a transition
system.  The ownership invariant holds along every run.
-/

namespace Preon.Memory

open Framework

inductive HeapEvent
  | install
  | alloc (layout : AllocLayout) (result : Option ℕ)
  | dealloc (ptr : ℕ) (layout : AllocLayout)
  | other (e : PageEvent)
  | write (a : ℕ) (bytes : List UInt8)

namespace HeapRun

open Slab Heap BuddyAllocator

/-- One step: the buddy allocator comes up, a call of the global allocator returns, another user
of the buddy allocator makes a call in order, or an owner writes. -/
def Step (pages : List PageInfo) (dramBase nrFrames : ℕ) (r : HeapRun) : HeapEvent → HeapRun → Prop
  | .install, r' => r.heap.buddy = none ∧ ∃ p, (pageSystem pages dramBase nrFrames).Reachable p ∧
      r' = { r with heap := { r.heap with buddy := some p.allocator }, others := p.live,
                    given := p.given }
  | .alloc layout none, r' =>
      ∃ h', r.heap.alloc layout = .ok (none, h') ∧ r' = { r with heap := h' }
  | .alloc layout (some ptr), r' => ∃ h', r.heap.alloc layout = .ok (some ptr, h') ∧
      r' = r.allocated h' ptr layout
  | .dealloc ptr layout, r' => (ptr, layout) ∈ r.live ∧ ∃ h', r.heap.dealloc ptr layout = .ok h' ∧
      r' = { r with heap := h', live := r.live.erase (ptr, layout) }
  | .other e, r' => ∃ s s' others given, r.heap.buddy = some s ∧
      PageRun.Step ⟨s, r.others, r.given⟩ e ⟨s', others, given⟩ ∧
      r' = { r with heap := { r.heap with buddy := some s' }, others := others, given := given }
  | .write a bytes, r' => r.Writable a bytes.length ∧
      r' = { r with heap := { r.heap with memory := writeBytes r.heap.memory a bytes } }

/-- Before the buddy allocator is up. -/
def Fresh (r : HeapRun) : Prop :=
  r.heap.freeLists = emptyLists ∧ r.heap.buddy = none ∧ r.live = [] ∧ r.pages = [] ∧ r.others = []

end HeapRun

def heapSystem (pages : List PageInfo) (dramBase nrFrames : ℕ) : System HeapRun HeapEvent where
  init := HeapRun.Fresh
  step := HeapRun.Step pages dramBase nrFrames

namespace HeapRun

open Slab Heap BuddyAllocator

variable {r : HeapRun} {s : BuddyAllocator} {m : FrameMap} {nodes : ℕ → List ℕ}

/-- The invariant of runs. -/
def Sound (dramBase nrFrames : ℕ) (r : HeapRun) : Prop :=
  r.Fresh ∨ ∃ s m nodes, r.Holds s m nodes ∧ s.nrFrames = nrFrames ∧ s.dramBase = dramBase

private theorem index_emptyLists {idx : ℕ} (hidx : idx < nrClasses) :
    index emptyLists idx = .ok none := by
  rw [index_ok (by rw [emptyLists, List.length_replicate]; exact hidx) none, emptyLists]
  simp

theorem Fresh.alloc (h : r.Fresh) (layout : AllocLayout) :
    r.heap.alloc layout = .ok (none, r.heap) := by
  obtain ⟨hlists, hbuddy, -⟩ := h
  rw [Heap.alloc]
  cases hc : sizeClassIndex layout.size layout.align with
  | some idx =>
      obtain ⟨hidx, -, -⟩ := sizeClassIndex_some hc
      change r.heap.smallAlloc idx = _
      rw [Heap.smallAlloc, hlists, index_emptyLists hidx, ok_bind]
      change r.heap.refill idx >>= _ = _
      rw [Heap.refill, hbuddy]
      rfl
  | none =>
      change r.heap.largeAlloc layout.size = _
      rw [Heap.largeAlloc, hbuddy]
      rfl

private theorem lists_empty {h : Heap} (hlists : h.freeLists = emptyLists) :
    h.Lists fun _ => [] := by
  have hhead (idx : ℕ) : h.listHead idx = none := by
    rw [listHead, hlists, emptyLists]
    simp [List.getD]
  refine ⟨by rw [hlists]; rfl, ?_, ?_, fun _ _ => List.forall_mem_nil _⟩
  · intro idx _
    rw [hhead]
    rfl
  · intro idx
    rw [hhead]
    simp

theorem Fresh.install {pages : List PageInfo} {dramBase nrFrames : ℕ}
    (hspan : FrameSpan dramBase nrFrames) (h : r.Fresh) {p : PageRun}
    (hp : (pageSystem pages dramBase nrFrames).Reachable p) :
    Sound dramBase nrFrames
      { r with heap := { r.heap with buddy := some p.allocator }, others := p.live,
               given := p.given } := by
  obtain ⟨hlists, hbuddy, hlive, hpages, hothers⟩ := h
  obtain ⟨⟨m, ht, -⟩, hfixed⟩ := PageRun.tracked_of_reachable hspan hp
  refine .inr ⟨p.allocator, m, fun _ => [], ⟨rfl, ?_, lists_setBuddy (lists_empty hlists) _, ?_, ?_,
    ?_, ?_⟩, hfixed⟩
  · simpa only [blocks, slabBlocks, largeBlocks, hlive, hpages, List.map_nil, List.filterMap_nil,
      List.append_nil] using ht
  · simp only [hpages]
    exact List.forall_mem_nil _
  · simp only [hpages]
    exact List.forall_mem_nil _
  · intro idx _
    simp only [liveObjects, objects, pagesOf, hlive, hpages]
    exact List.Perm.refl _
  · simp only [hlive]
    exact List.forall_mem_nil _

section Runs

variable {pages : List PageInfo} {dramBase nrFrames : ℕ}

private theorem Fresh.step (hspan : FrameSpan dramBase nrFrames) (hf : r.Fresh) {e : HeapEvent}
    {r' : HeapRun} (hstep : r.Step pages dramBase nrFrames e r') : r'.Sound dramBase nrFrames := by
  match e with
  | .install =>
      obtain ⟨-, p, hp, rfl⟩ := hstep
      exact hf.install hspan hp
  | .alloc layout none =>
      obtain ⟨h', hcall, rfl⟩ := hstep
      obtain rfl := (Prod.mk.inj (Except.ok.inj ((hf.alloc layout).symm.trans hcall))).2
      exact .inl hf
  | .alloc layout (some ptr) =>
      obtain ⟨h', hcall, rfl⟩ := hstep
      cases (Prod.mk.inj (Except.ok.inj ((hf.alloc layout).symm.trans hcall))).1
  | .dealloc ptr layout =>
      obtain ⟨hmem, -⟩ := hstep
      rw [hf.2.2.1] at hmem
      cases hmem
  | .other e =>
      obtain ⟨s, s', others, given, hb, -⟩ := hstep
      rw [hf.2.1] at hb
      cases hb
  | .write a bytes =>
      obtain ⟨-, rfl⟩ := hstep
      exact .inl hf

theorem Holds.alloc_some (hh : r.Holds s m nodes) {layout : AllocLayout} {ptr : ℕ} {h' : Heap}
    (hcall : r.heap.alloc layout = .ok (some ptr, h')) :
    ∃ s' m' nodes', SameSpan s s' ∧ (r.allocated h' ptr layout).Holds s' m' nodes' := by
  have hspec := hh.alloc layout
  rw [hcall] at hspec
  rcases hspec with hs | ⟨-, e, hs⟩ | ⟨ptr', h₁, s', m', nodes', hs, hsame, hh'⟩
  · cases (Prod.mk.inj (Except.ok.inj hs)).1
  · cases hs
  · obtain ⟨hptr, rfl⟩ := Prod.mk.inj (Except.ok.inj hs)
    obtain rfl := Option.some.inj hptr
    exact ⟨s', m', nodes', hsame, hh'⟩

private theorem Holds.step (hh : r.Holds s m nodes) {e : HeapEvent} {r' : HeapRun}
    (hstep : r.Step pages dramBase nrFrames e r') :
    ∃ s' m' nodes', r'.Holds s' m' nodes' ∧ SameSpan s s' := by
  match e with
  | .install =>
      obtain ⟨hb, -⟩ := hstep
      rw [hh.buddy] at hb
      cases hb
  | .alloc layout none =>
      obtain ⟨h', hcall, rfl⟩ := hstep
      have hspec := hh.alloc layout
      rw [hcall] at hspec
      rcases hspec with hs | ⟨-, e, hs⟩ | ⟨ptr, h₁, s', m', nodes', hs, -⟩
      · obtain rfl := (Prod.mk.inj (Except.ok.inj hs)).2
        exact ⟨s, m, nodes, hh, rfl, rfl⟩
      · cases hs
      · cases (Prod.mk.inj (Except.ok.inj hs)).1
  | .alloc layout (some ptr) =>
      obtain ⟨h', hcall, rfl⟩ := hstep
      obtain ⟨s', m', nodes', hsame, hh'⟩ := hh.alloc_some hcall
      exact ⟨s', m', nodes', hh', hsame⟩
  | .dealloc ptr layout =>
      obtain ⟨hmem, h', hcall, rfl⟩ := hstep
      have hspec := hh.dealloc hmem
      rw [hcall] at hspec
      rcases hspec with ⟨-, e, hs⟩ | ⟨h₁, s', m', nodes', hs, hsame, hh'⟩
      · cases hs
      · obtain rfl := Except.ok.inj hs
        exact ⟨s', m', nodes', hh', hsame⟩
  | .other e =>
      obtain ⟨s₁, s', others, given, hb, hcall, rfl⟩ := hstep
      obtain rfl := Option.some.inj (hh.buddy.symm.trans hb)
      obtain ⟨hsame, m', hh'⟩ := hh.other hcall
      exact ⟨s', m', nodes, hh', hsame⟩
  | .write a bytes =>
      obtain ⟨hw, rfl⟩ := hstep
      exact ⟨s, m, nodes, hh.write hw, rfl, rfl⟩

theorem sound_of_reachable (hspan : FrameSpan dramBase nrFrames)
    (h : (heapSystem pages dramBase nrFrames).Reachable r) : r.Sound dramBase nrFrames := by
  revert h
  apply System.Reachable.invariant
  · exact fun r hr => .inl hr
  · rintro r e r' (hf | ⟨s, m, nodes, hh, hnr, hbase⟩) hstep
    · exact hf.step hspan hstep
    · obtain ⟨s', m', nodes', hh', hsame⟩ := hh.step hstep
      exact .inr ⟨s', m', nodes', hh', hsame.nrFrames.trans hnr, hsame.dramBase.trans hbase⟩

/-- The free lists of all classes, read from memory. -/
structure Listed (r : HeapRun) (nodes : ℕ → List ℕ) : Prop where
  threaded : ∀ idx < nrClasses, Threaded r.heap.memory ((r.heap.listHead idx).getD 0) (nodes idx)
  carved : ∀ idx < nrClasses, ∀ x ∈ nodes idx, x ∈ r.objects idx
  apart : ∀ idx < nrClasses,
    (nodes idx).Pairwise fun x y => Clear x (classSize idx) y (classSize idx)
  classes_apart : ∀ i < nrClasses, ∀ j < nrClasses, i ≠ j → ∀ x ∈ nodes i, ∀ y ∈ nodes j,
    Clear x (classSize i) y (classSize j)
  live_apart : ∀ idx < nrClasses, ∀ x ∈ nodes idx, ∀ a ∈ r.live,
    Clear x (classSize idx) a.1 a.2.size
  counted : ∀ idx < nrClasses, ∃ n, objectsPerPage idx = .ok n ∧
    (r.liveObjects idx).length + (nodes idx).length = (r.pagesOf idx).length * n

/-- Who owns what.  Blocks of the slab allocator and of the other users are out of the buddy
allocator and share no byte; live allocations lie in the former and share no byte; every object
carved is live or on the list of its class. -/
structure Ownership (r : HeapRun) : Prop where
  live_clear : r.live.Pairwise fun a b => Clear a.1 a.2.size b.1 b.2.size
  owned : ∀ a ∈ r.live, ∃ b ∈ r.slabBlocks, b.1 + kernelLinearBase ≤ a.1 ∧
    a.1 + a.2.size ≤ b.1 + kernelLinearBase + 2 ^ b.2 * pageSize
  blocks_clear :
    r.blocks.Pairwise fun b c => Clear b.1 (2 ^ b.2 * pageSize) c.1 (2 ^ c.2 * pageSize)
  out : ∀ b ∈ r.blocks, ∃ s, r.heap.buddy = some s ∧ ∃ p < s.nrFrames,
    b.1 = frameAddr s.dramBase p ∧ (s.info p).state = .allocated ∧ (s.info p).order = b.2
  listed : ∃ nodes, r.Listed nodes

theorem Fresh.ownership (h : r.Fresh) : r.Ownership := by
  obtain ⟨hlists, hbuddy, hlive, hpages, hothers⟩ := h
  have hblocks : r.blocks = [] := by
    simp only [blocks, slabBlocks, largeBlocks, hlive, hpages, hothers, List.map_nil,
      List.filterMap_nil, List.append_nil]
  refine ⟨?_, ?_, ?_, ?_, fun _ => [], (lists_empty hlists).threaded,
    fun _ _ => List.forall_mem_nil _,
    fun _ _ => List.Pairwise.nil, fun _ _ _ _ _ => List.forall_mem_nil _,
    fun _ _ => List.forall_mem_nil _, ?_⟩
  · rw [hlive]
    exact List.Pairwise.nil
  · rw [hlive]
    exact List.forall_mem_nil _
  · rw [hblocks]
    exact List.Pairwise.nil
  · rw [hblocks]
    exact List.forall_mem_nil _
  · intro idx hidx
    refine ⟨_, objectsPerPage_ok hidx, ?_⟩
    simp only [liveObjects, pagesOf, hlive, hpages, List.filterMap_nil, List.filter_nil,
      List.length_nil, Nat.zero_mul]

private theorem Holds.listed (h : r.Holds s m nodes) : r.Listed nodes where
  threaded := h.lists.threaded
  carved _ hidx _ hx := h.node_object hidx hx
  apart _ hidx := (List.pairwise_append.mp (h.partition_clear hidx)).1
  classes_apart _ hi _ hj hij _ hx _ hy :=
    h.objects_clear_of_ne hij (h.node_object hi hx) (h.node_object hj hy)
  live_apart _ hidx _ hx _ ha := h.node_clear_live hidx hx ha
  counted idx hidx := by
    refine ⟨_, objectsPerPage_ok hidx, ?_⟩
    rw [← length_objects, ← (h.partition idx hidx).length_eq, List.length_append, Nat.add_comm]

theorem Holds.ownership (h : r.Holds s m nodes) : r.Ownership where
  live_clear := h.live_clear
  owned _ ha := h.owned ha
  blocks_clear := h.blocks_clear
  out b hb := by
    obtain ⟨p, hp, haddr, hstate, horder⟩ := h.tracked.abstracts.heads b.1 b.2 hb
    exact ⟨s, h.buddy, p, hp, haddr, hstate, horder⟩
  listed := ⟨nodes, h.listed⟩

/-- A call that returns null changes nothing. -/
theorem Sound.alloc_null (h : r.Sound dramBase nrFrames) {layout : AllocLayout} {h' : Heap}
    (hcall : r.heap.alloc layout = .ok (none, h')) : h' = r.heap := by
  rcases h with hf | ⟨s, m, nodes, hh, -⟩
  · exact (Prod.mk.inj (Except.ok.inj (hcall.symm.trans (hf.alloc layout)))).2
  · have hspec := hh.alloc layout
    rw [hcall] at hspec
    rcases hspec with hs | ⟨-, e, hs⟩ | ⟨ptr, h₁, s', m', nodes', hs, -⟩
    · exact (Prod.mk.inj (Except.ok.inj hs)).2
    · cases hs
    · cases (Prod.mk.inj (Except.ok.inj hs)).1

theorem Sound.returns (h : r.Sound dramBase nrFrames)
    (hwin : dramBase + nrFrames * pageSize ≤ 2 ^ 46) :
    (∀ layout, ∃ result h', r.heap.alloc layout = .ok (result, h')) ∧
      ∀ ptr layout, (ptr, layout) ∈ r.live → ∃ h', r.heap.dealloc ptr layout = .ok h' := by
  rcases h with hf | ⟨s, m, nodes, hh, rfl, rfl⟩
  · refine ⟨fun layout => ⟨_, _, hf.alloc layout⟩, ?_⟩
    intro ptr layout hmem
    rw [hf.2.2.1] at hmem
    cases hmem
  · constructor
    · intro layout
      rcases hh.alloc layout with hs | ⟨hout, -⟩ | ⟨ptr, h', s', m', nodes', hs, -⟩
      · exact ⟨_, _, hs⟩
      · exact absurd hwin hout
      · exact ⟨_, _, hs⟩
    · intro ptr layout hmem
      rcases hh.dealloc hmem with ⟨hout, -⟩ | ⟨h', s', m', nodes', hs, -⟩
      · exact absurd hwin hout
      · exact ⟨h', hs⟩

/-- Ownership is exclusive in every reachable state, a call of the global allocator that returns
null changes nothing, and every call returns where all frames have linear addresses. -/
theorem ownership_of_reachable (hspan : FrameSpan dramBase nrFrames)
    (h : (heapSystem pages dramBase nrFrames).Reachable r) :
    r.Ownership ∧ (∀ layout h', r.heap.alloc layout = .ok (none, h') → h' = r.heap) ∧
      (dramBase + nrFrames * pageSize ≤ 2 ^ 46 →
        (∀ layout, ∃ result h', r.heap.alloc layout = .ok (result, h')) ∧
        ∀ ptr layout, (ptr, layout) ∈ r.live → ∃ h', r.heap.dealloc ptr layout = .ok h') := by
  have hsound := sound_of_reachable hspan h
  refine ⟨?_, fun layout h' hcall => hsound.alloc_null hcall, hsound.returns⟩
  rcases hsound with hf | ⟨s, m, nodes, hh, -⟩
  · exact hf.ownership
  · exact hh.ownership

end Runs

/-- Five of six frames handed over, another user holding the first two. -/
def sixFramePages : PageRun := ⟨BuddyRun.sixFrames.allocator, [(0x40000000, 1)], [(0, 5)]⟩

theorem sixFramePages_reachable :
    (pageSystem (List.replicate 6 default) 0x40000000 6).Reachable sixFramePages := by
  have hinit : (pageSystem (List.replicate 6 default) 0x40000000 6).init
      ⟨BuddyRun.sixReserved.allocator, [], []⟩ := ⟨rfl, rfl, rfl⟩
  have hstate : ∀ f < 5, (BuddyRun.sixReserved.allocator.info f).state = .reserved := by decide
  have hgive : BuddyOp.Legal BuddyRun.sixReserved (.freeRange 0 5) :=
    ⟨by decide, fun f _ hf => hstate f hf⟩
  obtain ⟨s, hs⟩ : ∃ s, BuddyRun.sixReserved.allocator.freeRange 0 5 = .ok s := ⟨_, rfl⟩
  have halloc : s.allocPages 1 = .ok (some 0x40000000, BuddyRun.sixFrames.allocator) := by
    obtain rfl := Except.ok.inj (hs.symm.trans rfl)
    rfl
  have hseeded : (pageSystem (List.replicate 6 default) 0x40000000 6).Reachable ⟨s, [], [(0, 5)]⟩ :=
    (System.Reachable.init hinit).step (e := .freeRange 0 5) ⟨hgive, hs, rfl, rfl⟩
  exact hseeded.step (e := .allocPages 1 (some 0x40000000)) ⟨halloc, rfl, rfl⟩

def halfPage : AllocLayout := ⟨2048, 8, by decide, ⟨3, rfl⟩, by decide⟩

/-- A heap on these frames before its first call. -/
def installed : HeapRun :=
  ⟨⟨emptyLists, some sixFramePages.allocator, fun _ => 0⟩, [], [], [(0x40000000, 1)], [(0, 5)]⟩

private theorem installed_reachable :
    (heapSystem (List.replicate 6 default) 0x40000000 6).Reachable installed := by
  have hinit : (heapSystem (List.replicate 6 default) 0x40000000 6).init
      ⟨⟨emptyLists, none, fun _ => 0⟩, [], [], [], []⟩ := ⟨rfl, rfl, rfl, rfl, rfl⟩
  exact (System.Reachable.init hinit).step (e := .install) ⟨rfl, _, sixFramePages_reachable, rfl⟩

private theorem installed_alloc :
    ∃ h', installed.heap.alloc halfPage = .ok (some (0x40004800 + kernelLinearBase), h') := by
  exact ⟨_, rfl⟩

theorem ownership_sixFrames :
    ∃ r, (heapSystem (List.replicate 6 default) 0x40000000 6).Reachable r ∧
      r.live = [(0x40004800 + kernelLinearBase, halfPage)] ∧ r.Ownership := by
  obtain ⟨h', halloc⟩ := installed_alloc
  have hreach : (heapSystem (List.replicate 6 default) 0x40000000 6).Reachable
      (installed.allocated h' _ halfPage) :=
    installed_reachable.step (e := .alloc halfPage (some _)) ⟨h', halloc, rfl⟩
  exact ⟨_, hreach, rfl,
    (ownership_of_reachable ⟨by decide, by decide, by decide⟩ hreach).1⟩

end HeapRun

end Preon.Memory
