import Preon.Memory.SlabOwnership

/-!
# The calls of the slab allocator

Each call of the global allocator, each call of another user of the buddy allocator and each
write by an owner keeps the ownership invariant.
-/

namespace Preon.Memory

open Framework

namespace HeapRun

open Slab Heap BuddyAllocator

variable {r : HeapRun} {s : BuddyAllocator} {m : FrameMap} {nodes : ℕ → List ℕ}

theorem lists_setBuddy {h : Heap} (hl : h.Lists nodes) (buddy : Option BuddyAllocator) :
    Lists { h with buddy := buddy } nodes := ⟨hl.length, hl.threaded, hl.nonnull, hl.address⟩

theorem setBuddy_self {h : Heap} (hb : h.buddy = some s) : { h with buddy := some s } = h := by
  cases h
  simp only at hb
  rw [hb]

/-! ## The ghost lists -/

private theorem liveObject_self {x idx : ℕ} {layout : AllocLayout}
    (hc : classOf layout = some idx) :
    liveObject idx (x, layout) = some x := if_pos hc

private theorem liveObject_of_ne {x idx i : ℕ} {layout : AllocLayout}
    (hc : classOf layout = some idx)
    (hi : i ≠ idx) : liveObject i (x, layout) = none := by
  apply if_neg
  rw [hc]
  exact fun he => hi (Option.some.inj he).symm

private theorem liveObject_large {x i : ℕ} {layout : AllocLayout} (hc : classOf layout = none) :
    liveObject i (x, layout) = none := by
  apply if_neg
  rw [hc]
  nofun

private theorem largeBlock_small {x idx : ℕ} {layout : AllocLayout}
    (hc : classOf layout = some idx) :
    largeBlock (x, layout) = none := by
  apply if_neg
  rw [hc]
  nofun

private theorem largeBlock_large {pa : ℕ} {layout : AllocLayout} (hc : classOf layout = none) :
    largeBlock (pa + kernelLinearBase, layout) = some (pa, pagesOrder layout.size) := by
  rw [largeBlock, if_pos hc, Nat.add_sub_cancel]

/-! ## Allocation -/

theorem Holds.pop (h : r.Holds s m nodes) {layout : AllocLayout} {idx x : ℕ} {xs : List ℕ}
    (hc : classOf layout = some idx) (hx : nodes idx = x :: xs) :
    ∃ h', r.heap.pop idx = .ok (some x, h') ∧
      Holds { r with heap := h', live := (x, layout) :: r.live } s m (putList nodes idx xs) := by
  obtain ⟨hidx, -, -⟩ := sizeClassIndex_some hc
  obtain ⟨h', hcall, hlists, hbuddy, -⟩ := pop_ok h.lists hidx hx
  refine ⟨h', hcall, hbuddy.trans h.buddy, ?_, hlists, h.classes, h.linear, ?_, ?_⟩
  · have hblocks : blocks { r with heap := h', live := (x, layout) :: r.live } = r.blocks := by
      simp only [blocks, slabBlocks, largeBlocks, List.filterMap_cons_none (largeBlock_small hc)]
    rw [hblocks]
    exact h.tracked
  · intro i hi
    have hpart := h.partition i hi
    by_cases he : i = idx
    · subst he
      rw [putList_self, liveObjects, List.filterMap_cons_some (liveObject_self hc)]
      rw [hx] at hpart
      exact List.perm_middle.trans hpart
    · rw [putList_of_ne _ _ he, liveObjects, List.filterMap_cons_none (liveObject_of_ne hc he)]
      exact hpart
  · rw [List.forall_mem_cons]
    refine ⟨fun hnone => ?_, h.large⟩
    rw [hc] at hnone
    cases hnone

/-- A block fresh from the buddy allocator, as its callers see it. -/
structure Taken (r : HeapRun) (s s' : BuddyAllocator) (m' : FrameMap) (pa order : ℕ) : Prop where
  span : SameSpan s s'
  tracked : PageRun.Tracked ⟨s', (pa, order) :: r.blocks, r.given⟩ m'
  clear : ∀ b ∈ r.blocks, Clear pa (2 ^ order * pageSize) b.1 (2 ^ b.2 * pageSize)

/-- The frames have linear addresses. -/
def InWindow (s : BuddyAllocator) : Prop := s.dramBase + s.nrFrames * pageSize ≤ 2 ^ 46

private theorem block_lt_window {live given : List (ℕ × ℕ)} (h : PageRun.Tracked ⟨s, live, given⟩ m)
    {b : ℕ × ℕ} (hb : b ∈ live) (hwin : InWindow s) : b.1 < 2 ^ 46 := by
  obtain ⟨-, -, -, -, -, hend⟩ := h.block_bytes hb
  have hpos := Nat.mul_pos (Nat.two_pow_pos b.2) (by decide : 0 < pageSize)
  simp only [InWindow] at hwin hend
  omega

private theorem Holds.take (h : r.Holds s m nodes) (order : ℕ) :
    s.allocPages order = .ok (none, s) ∨
      ∃ pa s' m', s.allocPages order = .ok (some pa, s') ∧ r.Taken s s' m' pa order := by
  rcases h.tracked.allocPages order with hs | ⟨p, s', m', hs, ht, hspan, -⟩
  · exact .inl hs
  · exact .inr ⟨_, s', m', hs, hspan, ht, (List.pairwise_cons.mp ht.blocks_clear).1⟩

private theorem Taken.lt_window {s' : BuddyAllocator} {m' : FrameMap} {pa order : ℕ}
    (h : r.Taken s s' m' pa order) (hwin : InWindow s) : pa < 2 ^ 46 := by
  apply block_lt_window h.tracked List.mem_cons_self
  rw [InWindow, h.span.dramBase, h.span.nrFrames]
  exact hwin

private theorem refill_none {h : Heap} (hb : h.buddy = some s)
    (hs : s.allocPage = .ok (none, s)) (idx : ℕ) :
    h.refill idx = .ok (none, h) := by
  rw [Heap.refill, hb]
  change s.allocPage >>= _ = _
  rw [hs, ok_bind]
  exact congrArg (fun h => Except.ok (none, h)) (setBuddy_self hb)

private theorem refill_some {h h' : Heap} {s' : BuddyAllocator} {idx pa : ℕ}
    (hidx : idx < nrClasses)
    (hb : h.buddy = some s) (hs : s.allocPage = .ok (some pa, s')) (hpa : pa < 2 ^ 47)
    (hcarve : carve idx (pa + kernelLinearBase) (classSize idx) (pageSize / classSize idx) 0
      { h with buddy := some s' } = .ok h') : h.refill idx = .ok (some (), h') := by
  rw [Heap.refill, hb]
  change s.allocPage >>= _ = _
  rw [hs, ok_bind]
  change paToLinearVa pa >>= _ = _
  rw [paToLinearVa_ok hpa, ok_bind, index_classes hidx, ok_bind, objectsPerPage_ok hidx, ok_bind,
    hcarve]
  rfl

private theorem refill_panics {h : Heap} {s' : BuddyAllocator} {pa : ℕ} (hb : h.buddy = some s)
    (hs : s.allocPage = .ok (some pa, s')) (hpa : 2 ^ 47 ≤ pa) (idx : ℕ) :
    ∃ e, h.refill idx = .error e := by
  obtain ⟨e, he⟩ := paToLinearVa_panics hpa
  refine ⟨e, ?_⟩
  rw [Heap.refill, hb]
  change s.allocPage >>= _ = _
  rw [hs, ok_bind]
  change paToLinearVa pa >>= _ = _
  rw [he]
  rfl

private theorem Holds.fresh (h : r.Holds s m nodes) {s' : BuddyAllocator}
    {m' : FrameMap} {pa idx : ℕ}
    (ht : r.Taken s s' m' pa 0) (hidx : idx < nrClasses) {x : ℕ} (hx : x ∈ pageObjects (idx, pa))
    {i : ℕ} (hi : i < nrClasses) {y : ℕ} (hy : y ∈ nodes i) : Clear x 8 y 8 := by
  have hxb := pageObjects_bounds (show (idx, pa).1 < nrClasses from hidx) hx
  have hsize := (classSize_bounds idx hidx).1
  have hsize' := (classSize_bounds i hi).1
  obtain ⟨pg, hpg, -, -, hyb⟩ := h.object_page (h.node_object hi hy)
  have hclear := ht.clear (pg.2, 0)
    (List.mem_append_right _ (List.mem_append_left _ (List.mem_map_of_mem hpg)))
  simp only [pow_zero, Nat.one_mul, Clear] at hclear hxb ⊢
  omega

theorem Holds.refill (h : r.Holds s m nodes) {idx : ℕ} (hidx : idx < nrClasses) :
    (s.allocPage = .ok (none, s) ∧ r.heap.refill idx = .ok (none, r.heap)) ∨
      (¬ InWindow s ∧ ∃ e, r.heap.refill idx = .error e) ∨
      ∃ pa s' m' h' nodes', s.allocPage = .ok (some pa, s') ∧ SameSpan s s' ∧
        r.heap.refill idx = .ok (some (), h') ∧
        Holds { r with heap := h', pages := (idx, pa) :: r.pages } s' m' nodes' ∧
        nodes' idx ≠ [] := by
  obtain ⟨hsize, hpage, hcount⟩ := classSize_bounds idx hidx
  rcases h.take 0 with hs | ⟨pa, s', m', hs, ht⟩
  · exact .inl ⟨hs, refill_none h.buddy hs idx⟩
  right
  by_cases hpa : pa < 2 ^ 47
  · right
    obtain ⟨-, -, -, -, halign, -⟩ := ht.tracked.block_bytes List.mem_cons_self
    have hend :
        pa + kernelLinearBase + (0 + pageSize / classSize idx) * classSize idx ≤ 2 ^ 64 := by
      rw [Nat.zero_add, Nat.mul_comm, hpage]
      simp only [kernelLinearBase, pageSize] at halign ⊢
      omega
    obtain ⟨h', hcarve, hl', hb'⟩ := carve_ok (lists_setBuddy h.lists (some s')) hidx
      (by simp only [kernelLinearBase]; omega) hsize _ 0 hend
      fun x hx i hi y hy => h.fresh ht hidx hx hi hy
    refine ⟨pa, s', m', h', _, hs, ht.span, refill_some hidx h.buddy hs hpa hcarve,
      ⟨hb', ?_, hl', ?_, ?_, ?_, h.large⟩, ?_⟩
    · exact ht.tracked.perm List.perm_middle.symm
    · exact List.forall_mem_cons.mpr ⟨hidx, h.classes⟩
    · exact List.forall_mem_cons.mpr ⟨hpa, h.linear⟩
    · intro i hi
      have hpart := h.partition i hi
      by_cases he : i = idx
      · subst he
        have hobj : objects { r with heap := h', pages := (i, pa) :: r.pages } i =
            pageObjects (i, pa) ++ r.objects i := by
          simp [objects, pagesOf]
        rw [putList_self, hobj, List.append_assoc]
        exact (List.reverse_perm _).append hpart
      · have hobj : objects { r with heap := h', pages := (idx, pa) :: r.pages } i =
            r.objects i := by
          simp [objects, pagesOf, Ne.symm he]
        rw [putList_of_ne _ _ he, hobj]
        exact hpart
    · rw [putList_self]
      intro hempty
      have hlen := congrArg List.length hempty
      rw [List.length_append, List.length_reverse, objectsFrom, List.length_map,
        List.length_range', List.length_nil] at hlen
      omega
  · refine .inl ⟨fun hwin => ?_, refill_panics h.buddy hs (by omega) idx⟩
    have hlt := ht.lt_window hwin
    omega

def refilled (r : HeapRun) (layout : AllocLayout) : List (ℕ × ℕ) :=
  match classOf layout, r.heap.buddy with
  | some idx, some buddy =>
      match r.heap.listHead idx, buddy.allocPage with
      | none, .ok (some pa, _) => [(idx, pa)]
      | _, _ => []
  | _, _ => []

/-- The run after an allocation that returned `ptr`. -/
def allocated (r : HeapRun) (h' : Heap) (ptr : ℕ) (layout : AllocLayout) : HeapRun :=
  { r with heap := h', live := (ptr, layout) :: r.live, pages := r.refilled layout ++ r.pages }

private theorem smallAlloc_listed {h : Heap} (hl : h.Lists nodes) {idx x : ℕ} {xs : List ℕ}
    (hidx : idx < nrClasses) (hx : nodes idx = x :: xs) : h.smallAlloc idx = h.pop idx := by
  rw [Heap.smallAlloc, hl.index_ok hidx, ok_bind, hl.head_eq hidx hx]

private theorem smallAlloc_empty {h : Heap} (hl : h.Lists nodes) {idx : ℕ} (hidx : idx < nrClasses)
    (hx : nodes idx = []) {result : Option Unit} {h' : Heap}
    (hr : h.refill idx = .ok (result, h')) :
    h.smallAlloc idx = if result = none then .ok (none, h') else h'.pop idx := by
  rw [Heap.smallAlloc, hl.index_ok hidx, ok_bind, hl.head_none hidx hx]
  change h.refill idx >>= _ = _
  rw [hr, ok_bind]
  cases result <;> rfl

private theorem smallAlloc_panics {h : Heap} (hl : h.Lists nodes) {idx : ℕ} (hidx : idx < nrClasses)
    (hx : nodes idx = []) {e : Panic} (hr : h.refill idx = .error e) :
    h.smallAlloc idx = .error e := by
  rw [Heap.smallAlloc, hl.index_ok hidx, ok_bind, hl.head_none hidx hx]
  change h.refill idx >>= _ = _
  rw [hr]
  rfl

/-- What an allocation does: it returns null and changes nothing, panics on an address outside
the linear window, or hands out fresh memory. -/
def AllocSpec (r : HeapRun) (s : BuddyAllocator) (layout : AllocLayout)
    (call : Outcome (Option ℕ × Heap)) : Prop :=
  call = .ok (none, r.heap) ∨ (¬ InWindow s ∧ ∃ e, call = .error e) ∨
    ∃ ptr h' s' m' nodes', call = .ok (some ptr, h') ∧ SameSpan s s' ∧
      (r.allocated h' ptr layout).Holds s' m' nodes'

private theorem Holds.smallAlloc (h : r.Holds s m nodes) {layout : AllocLayout} {idx : ℕ}
    (hc : classOf layout = some idx) : r.AllocSpec s layout (r.heap.smallAlloc idx) := by
  obtain ⟨hidx, -, -⟩ := sizeClassIndex_some hc
  cases hx : nodes idx with
  | cons x xs =>
      right; right
      obtain ⟨h', hpop, hh⟩ := h.pop hc hx
      have hnone : r.refilled layout = [] := by
        simp [refilled, hc, h.buddy, h.lists.head_eq hidx hx]
      refine ⟨x, h', s, m, putList nodes idx xs, ?_, ⟨rfl, rfl⟩, ?_⟩
      · rw [smallAlloc_listed h.lists hidx hx, hpop]
      · rw [allocated, hnone, List.nil_append]
        exact hh
  | nil =>
      rcases h.refill hidx with ⟨-, hr⟩ | ⟨hwin, e, hr⟩ |
        ⟨pa, s', m', h₁, nodes₁, hs, hspan, hr, hh, hne⟩
      · left
        rw [smallAlloc_empty h.lists hidx hx hr, if_pos rfl]
      · exact .inr (.inl ⟨hwin, e, smallAlloc_panics h.lists hidx hx hr⟩)
      · right; right
        obtain ⟨x, xs, hcons⟩ := List.exists_cons_of_ne_nil hne
        obtain ⟨h', hpop, hh'⟩ := hh.pop hc hcons
        have hone : r.refilled layout = [(idx, pa)] := by
          simp [refilled, hc, h.buddy, h.lists.head_none hidx hx, hs]
        refine ⟨x, h', s', m', putList nodes₁ idx xs, ?_, hspan, ?_⟩
        · rw [smallAlloc_empty h.lists hidx hx hr, if_neg (by nofun), hpop]
        · rw [allocated, hone]
          exact hh'

private theorem largeAlloc_none {h : Heap} {size : ℕ} (hb : h.buddy = some s)
    (hs : s.allocPages (pagesOrder size) = .ok (none, s)) : h.largeAlloc size = .ok (none, h) := by
  rw [Heap.largeAlloc, hb]
  change s.allocPages _ >>= _ = _
  rw [hs, ok_bind]
  exact congrArg (fun h => Except.ok (none, h)) (setBuddy_self hb)

theorem largeAlloc_some {h : Heap} {s' : BuddyAllocator} {size pa : ℕ} (hb : h.buddy = some s)
    (hs : s.allocPages (pagesOrder size) = .ok (some pa, s')) :
    h.largeAlloc size =
      (paToLinearVa pa).map fun va => (some va, { h with buddy := some s' }) := by
  rw [Heap.largeAlloc, hb]
  change s.allocPages _ >>= _ = _
  rw [hs, ok_bind]
  change paToLinearVa pa >>= _ = _
  cases paToLinearVa pa <;> rfl

private theorem Holds.largeAlloc (h : r.Holds s m nodes) {layout : AllocLayout}
    (hc : classOf layout = none) : r.AllocSpec s layout (r.heap.largeAlloc layout.size) := by
  rcases h.take (pagesOrder layout.size) with hs | ⟨pa, s', m', hs, ht⟩
  · exact .inl (largeAlloc_none h.buddy hs)
  have hcall := largeAlloc_some h.buddy hs
  right
  by_cases hpa : pa < 2 ^ 47
  · right
    rw [paToLinearVa_ok hpa] at hcall
    refine ⟨pa + kernelLinearBase, { r.heap with buddy := some s' }, s', m', nodes, hcall,
      ht.span, ?_⟩
    have hnone : r.refilled layout = [] := by simp [refilled, hc]
    rw [allocated, hnone, List.nil_append]
    refine ⟨rfl, ?_, lists_setBuddy h.lists _, h.classes, h.linear, ?_, ?_⟩
    · simp only [blocks, slabBlocks, largeBlocks, List.filterMap_cons_some (largeBlock_large hc)]
      apply ht.tracked.perm
      rw [blocks, slabBlocks, ← List.append_assoc, ← List.append_assoc]
      exact List.perm_middle.symm
    · intro i hi
      simp only [liveObjects, List.filterMap_cons_none (liveObject_large hc)]
      exact h.partition i hi
    · exact List.forall_mem_cons.mpr ⟨fun _ => Nat.le_add_left _ _, h.large⟩
  · obtain ⟨e, he⟩ := paToLinearVa_panics (Nat.le_of_not_lt hpa)
    rw [he] at hcall
    refine .inl ⟨fun hwin => ?_, e, hcall⟩
    have hlt := ht.lt_window hwin
    omega

theorem Holds.alloc (h : r.Holds s m nodes) (layout : AllocLayout) :
    r.AllocSpec s layout (r.heap.alloc layout) := by
  cases hc : classOf layout with
  | some idx =>
      have hcall : r.heap.alloc layout = r.heap.smallAlloc idx := by
        rw [Heap.alloc, show sizeClassIndex layout.size layout.align = some idx from hc]
      rw [hcall]
      exact h.smallAlloc hc
  | none =>
      have hcall : r.heap.alloc layout = r.heap.largeAlloc layout.size := by
        rw [Heap.alloc, show sizeClassIndex layout.size layout.align = none from hc]
      rw [hcall]
      exact h.largeAlloc hc

/-! ## Deallocation -/

private theorem Holds.live_perm (h : r.Holds s m nodes) {live : List (ℕ × AllocLayout)}
    (hp : r.live.Perm live) : Holds { r with live := live } s m nodes := by
  refine ⟨h.buddy, ?_, h.lists, h.classes, h.linear, ?_, fun a ha => h.large a (hp.mem_iff.mpr ha)⟩
  · exact h.tracked.perm (((hp.filterMap _).append_left _).append_left _)
  · intro idx hidx
    exact ((hp.filterMap _).symm.append_left _).trans (h.partition idx hidx)

private theorem Holds.push (h : r.Holds s m nodes) {layout : AllocLayout} {idx x : ℕ}
    {rest : List (ℕ × AllocLayout)} (hlive : r.live = (x, layout) :: rest)
    (hc : classOf layout = some idx) :
    ∃ h', x ≠ 0 ∧ r.heap.push idx x = .ok h' ∧
      Holds { r with heap := h', live := rest } s m (putList nodes idx (x :: nodes idx)) := by
  have hmem : (x, layout) ∈ r.live := by
    rw [hlive]
    exact List.mem_cons_self
  obtain ⟨hidx, -, hx, hobj⟩ := h.small_live hmem hc
  obtain ⟨pg, hpg, -, -, hlo, hhi⟩ := h.object_page hobj
  have hbound := h.page_bounds hpg
  have hsize := (classSize_bounds idx hidx).1
  have hpos : x ≠ 0 := by
    simp only [kernelLinearBase] at hlo
    omega
  have hlt : x < 2 ^ 64 := by
    simp only [kernelLinearBase] at hhi
    omega
  obtain ⟨h', hcall, hl', hb'⟩ := push_ok h.lists hidx hpos hlt (by
    intro i hi y hy
    have hsize' := (classSize_bounds i hi).1
    exact (h.node_clear_object hi hidx hy hx).symm.mono le_rfl (by omega) le_rfl (by omega))
  refine ⟨h', hpos, hcall, hb'.trans h.buddy, ?_, hl', h.classes, h.linear, ?_, ?_⟩
  · have hblocks : r.blocks = blocks { r with heap := h', live := rest } := by
      simp only [blocks, slabBlocks, largeBlocks, hlive,
        List.filterMap_cons_none (largeBlock_small hc)]
    rw [← hblocks]
    exact h.tracked
  · intro i hi
    have hpart := h.partition i hi
    rw [liveObjects, hlive] at hpart
    by_cases he : i = idx
    · subst he
      rw [List.filterMap_cons_some (liveObject_self hc)] at hpart
      rw [putList_self]
      exact List.perm_middle.symm.trans hpart
    · rw [List.filterMap_cons_none (liveObject_of_ne hc he)] at hpart
      rw [putList_of_ne _ _ he]
      exact hpart
  · intro a ha
    exact h.large a (by rw [hlive]; exact List.mem_cons_of_mem _ ha)

/-- What a deallocation does: it panics on an address outside the linear window, or takes the
memory back. -/
def DeallocSpec (r : HeapRun) (s : BuddyAllocator) (live : List (ℕ × AllocLayout))
    (call : Outcome Heap) : Prop :=
  (¬ InWindow s ∧ ∃ e, call = .error e) ∨
    ∃ h' s' m' nodes', call = .ok h' ∧ SameSpan s s' ∧
      Holds { r with heap := h', live := live } s' m' nodes'

private theorem Holds.largeDealloc (h : r.Holds s m nodes) {layout : AllocLayout} {x : ℕ}
    {rest : List (ℕ × AllocLayout)} (hlive : r.live = (x, layout) :: rest)
    (hc : classOf layout = none) : r.DeallocSpec s rest (r.heap.largeDealloc x layout.size) := by
  have hmem : (x, layout) ∈ r.live := by
    rw [hlive]
    exact List.mem_cons_self
  obtain ⟨pa, rfl⟩ := Nat.exists_eq_add_of_le' (h.large _ hmem hc)
  have hblocks : r.blocks.Perm
      ((pa, pagesOrder layout.size) :: blocks { r with live := rest }) := by
    simp only [blocks, slabBlocks, largeBlocks, hlive,
      List.filterMap_cons_some (largeBlock_large hc)]
    rw [← List.append_assoc, ← List.append_assoc]
    exact List.perm_middle
  have hout : (pa, pagesOrder layout.size) ∈ r.blocks := hblocks.mem_iff.mpr List.mem_cons_self
  by_cases hpa : pa < 2 ^ 46
  · right
    obtain ⟨s', m', hfree, ht, hspan, -⟩ := h.tracked.freePages hout
    refine ⟨{ r.heap with buddy := some s' }, s', m', nodes, ?_, hspan, rfl, ?_,
      lists_setBuddy h.lists _, h.classes, h.linear, ?_, ?_⟩
    · rw [Heap.largeDealloc, linearVaToPa_ok hpa, ok_bind, h.buddy]
      change s.freePages _ _ >>= _ = _
      rw [hfree]
      rfl
    · have herase := hblocks.erase (pa, pagesOrder layout.size)
      rw [List.erase_cons_head] at herase
      exact ht.perm herase
    · intro i hi
      have hpart := h.partition i hi
      rw [liveObjects, hlive, List.filterMap_cons_none (liveObject_large hc)] at hpart
      exact hpart
    · intro a ha
      exact h.large a (by rw [hlive]; exact List.mem_cons_of_mem _ ha)
  · obtain ⟨e, he⟩ := linearVaToPa_panics (Nat.le_of_not_lt hpa)
    refine .inl ⟨fun hwin => hpa (block_lt_window h.tracked hout hwin), e, ?_⟩
    rw [Heap.largeDealloc, he]
    rfl

theorem Holds.dealloc (h : r.Holds s m nodes) {layout : AllocLayout} {x : ℕ}
    (hmem : (x, layout) ∈ r.live) :
    r.DeallocSpec s (r.live.erase (x, layout)) (r.heap.dealloc x layout) := by
  have hh := h.live_perm (List.perm_cons_erase hmem)
  cases hc : classOf layout with
  | some idx =>
      obtain ⟨h', hx, hcall, hh'⟩ := hh.push rfl hc
      refine .inr ⟨h', s, m, _, ?_, ⟨rfl, rfl⟩, hh'⟩
      rw [Heap.dealloc, show sizeClassIndex layout.size layout.align = some idx from hc]
      change unwrap (if x = 0 then none else some x) >>= _ = _
      rw [if_neg hx]
      exact hcall
  | none =>
      have hcall : r.heap.dealloc x layout = r.heap.largeDealloc x layout.size := by
        rw [Heap.dealloc, show sizeClassIndex layout.size layout.align = none from hc]
      rw [hcall]
      exact hh.largeDealloc rfl hc

/-! ## Other users and writes -/

private theorem step_frame {s' : BuddyAllocator} {own own' given given' : List (ℕ × ℕ)}
    {e : PageEvent}
    (h : PageRun.Step ⟨s, own, given⟩ e ⟨s', own', given'⟩) (frame : List (ℕ × ℕ)) :
    PageRun.Step ⟨s, own ++ frame, given⟩ e ⟨s', own' ++ frame, given'⟩ := by
  match e with
  | .freeRange start count =>
      obtain ⟨hop, hcall, hown, hgiven⟩ := h
      exact ⟨hop, hcall, congrArg (· ++ frame) hown, hgiven⟩
  | .allocPages order none =>
      obtain ⟨hcall, hown, hgiven⟩ := h
      exact ⟨hcall, congrArg (· ++ frame) hown, hgiven⟩
  | .allocPages order (some pa) =>
      obtain ⟨hcall, hown, hgiven⟩ := h
      exact ⟨hcall, congrArg (· ++ frame) hown, hgiven⟩
  | .freePages pa order =>
      obtain ⟨hmem, hcall, hown, hgiven⟩ := h
      refine ⟨List.mem_append_left _ hmem, hcall, ?_, hgiven⟩
      exact (congrArg (· ++ frame) hown).trans (List.erase_append_left frame hmem).symm

theorem Holds.other (h : r.Holds s m nodes) {s' : BuddyAllocator} {others given : List (ℕ × ℕ)}
    {e : PageEvent} (hstep : PageRun.Step ⟨s, r.others, r.given⟩ e ⟨s', others, given⟩) :
    SameSpan s s' ∧ ∃ m', Holds
      { r with heap := { r.heap with buddy := some s' }, others := others, given := given }
      s' m' nodes := by
  obtain ⟨m', ht, hspan, -⟩ := h.tracked.step (step_frame hstep r.slabBlocks)
  exact ⟨hspan, m', rfl, ht, lists_setBuddy h.lists _, h.classes, h.linear, h.partition, h.large⟩

/-- Bytes that their owner may write: those of a live allocation, or of a block that another user
of the buddy allocator holds. -/
def Writable (r : HeapRun) (a n : ℕ) : Prop :=
  (∃ x ∈ r.live, x.1 ≤ a ∧ a + n ≤ x.1 + x.2.size) ∨
    ∃ b ∈ r.others, b.1 + kernelLinearBase ≤ a ∧
      a + n ≤ b.1 + kernelLinearBase + 2 ^ b.2 * pageSize

private theorem Holds.node_clear_writable (h : r.Holds s m nodes) {a n : ℕ}
    (hw : r.Writable a n) {i x : ℕ}
    (hi : i < nrClasses) (hx : x ∈ nodes i) : Clear a n x 8 := by
  have hsize := (classSize_bounds i hi).1
  rcases hw with ⟨y, hy, hlo, hhi⟩ | ⟨b, hb, hlo, hhi⟩
  · exact (h.node_clear_live hi hx hy).symm.mono hlo hhi le_rfl (by omega)
  · exact (h.node_clear_other hi hx hb).symm.mono hlo hhi le_rfl (by omega)

theorem Holds.write (h : r.Holds s m nodes) {a : ℕ} {bytes : List UInt8}
    (hw : r.Writable a bytes.length) :
    Holds { r with heap := { r.heap with memory := writeBytes r.heap.memory a bytes } }
      s m nodes := by
  refine ⟨h.buddy, h.tracked, ⟨h.lists.length, ?_, h.lists.nonnull, h.lists.address⟩,
    h.classes, h.linear, h.partition, h.large⟩
  intro idx hidx
  apply (h.lists.threaded idx hidx).congr
  intro x hx i hi
  exact writeBytes_of_clear _ (h.node_clear_writable hw hidx hx) hi

end HeapRun

end Preon.Memory
