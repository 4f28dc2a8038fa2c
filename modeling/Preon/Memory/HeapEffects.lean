import Preon.Memory.HeapFrame

/-!
# Where the calls of the global allocator take effect

A small allocation takes effect where it finds a listed object, or where the page for its refill
leaves the buddy allocator; a small deallocation where the link is written; a call that goes to the
buddy allocator where that is stored.  At each of these steps the sequential heap can take the whole
call at once, and what is left of the call comes to the heap that it leaves.
-/

namespace Preon.Memory

open Framework

namespace HeapRun

open Slab Heap

/-- An object that nobody has but perhaps the call whose effect is `t`. -/
def Reserved (r : HeapRun) (t : Option HeapEvent) (o : ℕ) : Prop :=
  ∃ idx < nrClasses, o ∈ r.objects idx ∧
    ∀ y ∈ r.live, classOf y.2 = some idx → y.1 = o → t = some (.alloc y.2 (some y.1))

/-- The carved pages are the same, and no small allocation is new. -/
structure Aside (r r' : HeapRun) : Prop where
  pages : r'.pages = r.pages
  live : ∀ y ∈ r'.live, classOf y.2 ≠ none → y ∈ r.live

variable {r r' : HeapRun} {s : BuddyAllocator} {m : FrameMap} {nodes : ℕ → List ℕ}
  {t : Option HeapEvent} {o : ℕ}

theorem Aside.refl (r : HeapRun) : Aside r r := ⟨rfl, fun _ hy _ => hy⟩

theorem Reserved.aside (h : r.Reserved t o) (haside : Aside r r') : r'.Reserved t o := by
  obtain ⟨idx, hidx, hobj, hlive⟩ := h
  refine ⟨idx, hidx, ?_, ?_⟩
  · rw [objects, pagesOf, haside.pages]
    exact hobj
  · intro y hy hc
    exact hlive y (haside.live y hy (by rw [hc]; exact Option.some_ne_none idx)) hc

theorem Holds.clear_reserved (h : r.Holds s m nodes) (ho : r.Reserved t o) {y : ℕ × AllocLayout}
    (hy : y ∈ r.live) (hne : t ≠ some (.alloc y.2 (some y.1))) : Clear y.1 y.2.size o 8 := by
  obtain ⟨idx, hidx, hobj, hlive⟩ := ho
  have hsize := (classSize_bounds idx hidx).1
  cases hc : classOf y.2 with
  | some i =>
      obtain ⟨-, hfit, -, hyobj⟩ := h.small_live hy hc
      have hclear : Clear y.1 (classSize i) o (classSize idx) := by
        by_cases hi : i = idx
        · subst hi
          have hdiff : y.1 ≠ o := fun heq => hne (hlive y hy hc heq)
          have : Std.Symm fun x y => Clear x (classSize i) y (classSize i) :=
            ⟨fun _ _ hc => hc.symm⟩
          exact (h.objects_clear i).forall hyobj hobj hdiff
        · exact h.objects_clear_of_ne hi hyobj hobj
      exact hclear.mono le_rfl (by omega) le_rfl (by omega)
  | none =>
      obtain ⟨pg, hpg, -, -, hlo, hhi⟩ := h.object_page hobj
      have hclear := h.page_clear_large hpg (mem_largeBlocks hy hc)
      have hlarge := le_pagesOrder y.2.size_le
      have hbase := h.large y hy hc
      simp only [Clear] at hclear ⊢
      omega

theorem Holds.other_clear_reserved (h : r.Holds s m nodes) (ho : r.Reserved t o) {b : ℕ × ℕ}
    (hb : b ∈ r.others) : Clear (b.1 + kernelLinearBase) (2 ^ b.2 * pageSize) o 8 := by
  obtain ⟨idx, hidx, hobj, -⟩ := ho
  have hsize := (classSize_bounds idx hidx).1
  obtain ⟨pg, hpg, -, -, hlo, hhi⟩ := h.object_page hobj
  have hclear := h.page_clear_other hpg hb
  simp only [Clear] at hclear ⊢
  omega

private theorem Holds.live_eq (h : r.Holds s m nodes) {y z : ℕ × AllocLayout} (hy : y ∈ r.live)
    (hz : z ∈ r.live)
    (heq : y.1 = z.1) : y = z := by
  by_contra hne
  have : Std.Symm fun a b : ℕ × AllocLayout => Clear a.1 a.2.size b.1 b.2.size :=
    ⟨fun _ _ hc => hc.symm⟩
  have hclear := h.live_clear.forall hy hz hne
  have hpos := y.2.size_pos
  have hpos' := z.2.size_pos
  simp only [Clear] at hclear
  omega

theorem Holds.reserved_result (h : r.Holds s m nodes) {ptr : ℕ} {layout : AllocLayout}
    (hlive : (ptr, layout) ∈ r.live) (hc : classOf layout ≠ none) :
    r.Reserved (some (.alloc layout (some ptr))) ptr := by
  obtain ⟨idx, hidx⟩ := Option.ne_none_iff_exists'.mp hc
  obtain ⟨hlt, -, -, hobj⟩ := h.small_live hlive hidx
  refine ⟨idx, hlt, hobj, ?_⟩
  intro y hy _ heq
  rw [h.live_eq hy hlive heq]

theorem Sound.holds {dramBase nrFrames : ℕ} (h : r.Sound dramBase nrFrames) (hlive : r.live ≠ []) :
    ∃ s m nodes, r.Holds s m nodes := by
  cases h with
  | inl hfresh => exact absurd hfresh.2.2.1 hlive
  | inr hholds =>
      obtain ⟨s, m, nodes, hh, -⟩ := hholds
      exact ⟨s, m, nodes, hh⟩

end HeapRun

/-- A CPU, its call and the effect of it beside the sequential heap. -/
structure HeapPc.At (sh : HeapShared) (r : HeapRun) (pc : HeapPc) (op : Option HeapOp)
    (t : Option HeapEvent) : Prop where
  op : pc.op = op
  knows : pc.Knows sh.heap
  rest : ∃ h', pc.rest sh.heap = .ok (t, h') ∧ (pc.slabHeld = true → h' = r.heap)
  reserved : ∀ o ∈ pc.footprint, r.Reserved t o

namespace HeapRun

open Slab Heap

variable {r r' : HeapRun} {dramBase nrFrames : ℕ} {layout : AllocLayout}
  {result : Option ℕ} {h' : Heap}

theorem Sound.live_nodup (h : r.Sound dramBase nrFrames) : r.live.Nodup := by
  cases h with
  | inl hfresh =>
      rw [hfresh.2.2.1]
      exact List.nodup_nil
  | inr hholds =>
      obtain ⟨s, m, nodes, hh, -⟩ := hholds
      apply hh.live_clear.imp
      intro a b hclear heq
      have hpos := a.2.size_pos
      rw [← heq, Clear] at hclear
      omega

theorem Sound.others_nodup (h : r.Sound dramBase nrFrames) : r.others.Nodup := by
  cases h with
  | inl hfresh =>
      rw [hfresh.2.2.2.2]
      exact List.nodup_nil
  | inr hholds =>
      obtain ⟨s, m, nodes, hh, -⟩ := hholds
      apply (List.pairwise_append.mp hh.blocks_clear).1.imp
      intro a b hclear heq
      have hpos := Nat.mul_pos (Nat.two_pow_pos a.2) (by decide : 0 < pageSize)
      rw [← heq, Clear] at hclear
      omega

theorem Sound.ownership (h : r.Sound dramBase nrFrames) : r.Ownership := by
  cases h with
  | inl hfresh => exact hfresh.ownership
  | inr hholds =>
      obtain ⟨s, m, nodes, hh, -⟩ := hholds
      exact hh.ownership

def afterAlloc (r : HeapRun) (h' : Heap) (layout : AllocLayout) : Option ℕ → HeapRun
  | none => { r with heap := h' }
  | some ptr => r.allocated h' ptr layout

private theorem afterAlloc_heap (r : HeapRun) (h' : Heap) (layout : AllocLayout)
    (result : Option ℕ) :
    (r.afterAlloc h' layout result).heap = h' := by
  cases result <;> rfl

private theorem step_alloc {pages : List PageInfo}
    (hcall : r.heap.alloc layout = .ok (result, h')) :
    r.Step pages dramBase nrFrames (.alloc layout result) (r.afterAlloc h' layout result) := by
  cases result with
  | none => exact ⟨h', hcall, rfl⟩
  | some ptr => exact ⟨h', hcall, rfl⟩

private theorem alloc_small {h : Heap} {idx : ℕ} (hc : classOf layout = some idx) :
    h.alloc layout = h.smallAlloc idx := by
  rw [Heap.alloc, show sizeClassIndex layout.size layout.align = some idx from hc]

private theorem alloc_large {h : Heap} (hc : classOf layout = none) :
    h.alloc layout = h.largeAlloc layout.size := by
  rw [Heap.alloc, show sizeClassIndex layout.size layout.align = none from hc]

private theorem dealloc_small {h : Heap} {ptr idx : ℕ} (hc : classOf layout = some idx)
    (hptr : ptr ≠ 0) :
    h.dealloc ptr layout = h.push idx ptr := by
  rw [Heap.dealloc, show sizeClassIndex layout.size layout.align = some idx from hc]
  change unwrap (if ptr = 0 then none else some ptr) >>= _ = _
  rw [if_neg hptr]
  rfl

private theorem dealloc_large {h : Heap} {ptr : ℕ} (hc : classOf layout = none) :
    h.dealloc ptr layout = h.largeDealloc ptr layout.size := by
  rw [Heap.dealloc, show sizeClassIndex layout.size layout.align = none from hc]

end HeapRun

namespace HeapPc

open Slab Heap HeapRun

/-- A step at which a call takes effect. -/
structure Effect (sh : HeapShared) (pc : HeapPc) (r : HeapRun) (sh' : HeapShared) (pc' : HeapPc)
    (e : HeapEvent) (r' : HeapRun) : Prop where
  at_next : pc'.At sh' r' pc.op (some e)
  answers : e.op = pc.op
  slabLocked : sh'.slabLocked = sh.slabLocked
  buddyLocked : sh'.buddyLocked = sh.buddyLocked
  slabHeld : pc'.slabHeld = pc.slabHeld
  buddyHeld : pc'.buddyHeld = pc.buddyHeld
  up : sh.heap.buddy.isSome = true → sh'.heap.buddy.isSome = true
  keep : pc.buddyHeld = false → sh'.heap.buddy = sh.heap.buddy
  outside : pc.slabHeld = false →
    ∃ b, sh'.heap = sh.heap.edit b id ∧ r'.heap = r.heap.edit b id ∧ Aside r r'

variable {sh sh' : HeapShared} {pc pc' : HeapPc} {r : HeapRun} {pages : List PageInfo}
  {dramBase nrFrames : ℕ} {layout : AllocLayout} {idx : ℕ}

private theorem effect_look (hcalls : ∃ result h', r.heap.alloc layout = .ok (result, h'))
    (hknows : classOf layout = some idx) (hheap : sh.heap = r.heap)
    (hcommits : (look layout idx).commits sh.heap = true)
    (hadv : (look layout idx).advance sh = some (sh', pc')) :
    ∃ e r', r.Step pages dramBase nrFrames e r' ∧ Effect sh (look layout idx) r sh' pc' e r' := by
  obtain ⟨result, h', hcall⟩ := hcalls
  refine ⟨_, _, step_alloc hcall, ?_⟩
  rw [alloc_small hknows, ← hheap] at hcall
  obtain ⟨head, hhead, hpop⟩ := bind_eq_ok.mp hcall
  cases head with
  | none =>
      rw [commits, hhead] at hcommits
      cases hcommits
  | some node =>
      rw [advance, attempt_ok hhead] at hadv
      cases hadv
      refine ⟨⟨rfl, hknows, ⟨h', ?_, ?_⟩, List.forall_mem_nil _⟩, rfl, rfl, rfl, rfl,
        rfl, fun h => h,
        fun _ => rfl, by simp [slabHeld]⟩
      · exact bind_eq_ok.mpr ⟨_, hpop, rfl⟩
      · rw [afterAlloc_heap]
        exact fun _ => rfl

private theorem effect_getBuddy {u : BuddyUse} (hknows : (getBuddy u).Knows sh.heap)
    (hheap : u.refills = true → sh.heap = r.heap) (hbuddy : sh.heap.buddy = r.heap.buddy)
    (hlive : ∀ ptr layout pa, u = .largeDealloc ptr layout pa → (ptr, layout) ∈ r.live)
    (hcommits : (getBuddy u).commits sh.heap = true)
    (hadv : (getBuddy u).advance sh = some (sh', pc')) :
    ∃ e r', r.Step pages dramBase nrFrames e r' ∧ Effect sh (getBuddy u) r sh' pc' e r' := by
  have hnone : sh.heap.buddy.isNone = true := hcommits
  rw [advance, hnone] at hadv
  rw [Option.isNone_iff_eq_none, hbuddy] at hnone
  obtain ⟨hfits, hstarts, hslab⟩ := hknows
  cases hadv
  cases u with
  | refill layout idx =>
      have hcall : r.heap.alloc layout = .ok (none, r.heap) := by
        rw [alloc_small hfits, smallAlloc, ← hheap rfl, hstarts, ok_bind]
        change sh.heap.refill idx >>= _ = _
        rw [refill, hheap rfl, hnone]
        rfl
      refine ⟨_, _, step_alloc hcall, ⟨rfl, trivial, ⟨sh.heap, rfl, fun _ => hheap rfl⟩,
        List.forall_mem_nil _⟩, rfl, rfl, rfl, rfl, rfl, fun h => h, fun _ => rfl, ?_⟩
      simp [slabHeld, BuddyUse.refills]
  | largeAlloc layout =>
      have hcall : r.heap.alloc layout = .ok (none, r.heap) := by
        rw [alloc_large hfits, Heap.largeAlloc, hnone]
        rfl
      exact ⟨_, _, step_alloc hcall, ⟨rfl, trivial, ⟨sh.heap, rfl, fun h => by cases h⟩,
        List.forall_mem_nil _⟩, rfl, rfl, rfl, rfl, rfl, fun h => h, fun _ => rfl,
        fun _ => ⟨sh.heap.buddy, rfl, by rw [hbuddy]; rfl, .refl r⟩⟩
  | largeDealloc ptr layout pa =>
      have hcall : r.heap.dealloc ptr layout = .ok r.heap := by
        rw [dealloc_large hfits.1, Heap.largeDealloc, hfits.2, ok_bind, hnone]
        rfl
      refine ⟨.dealloc ptr layout, _, ⟨hlive _ _ _ rfl, _, hcall, rfl⟩,
        ⟨rfl, trivial, ⟨sh.heap, rfl, fun h => by cases h⟩, List.forall_mem_nil _⟩, rfl, rfl,
          rfl, rfl, rfl,
        fun h => h, fun _ => rfl, fun _ => ⟨sh.heap.buddy, rfl, by rw [hbuddy]; rfl, rfl, ?_⟩⟩
      exact fun y hy _ => List.mem_of_mem_erase hy
  | allocPages order => cases hslab
  | freePages pa order => cases hslab

private theorem effect_pushNext {ptr : ℕ} (hcalls : ∃ h', r.heap.dealloc ptr layout = .ok h')
    (hlive : (ptr, layout) ∈ r.live) (hknows : classOf layout = some idx ∧ ptr ≠ 0)
    (hheap : sh.heap = r.heap) (hadv : (pushNext ptr layout idx).advance sh = some (sh', pc')) :
    ∃ e r', r.Step pages dramBase nrFrames e r' ∧
      Effect sh (pushNext ptr layout idx) r sh' pc' e r' := by
  obtain ⟨h', hcall⟩ := hcalls
  refine ⟨.dealloc ptr layout, _, ⟨hlive, h', hcall, rfl⟩, ?_⟩
  rw [dealloc_small hknows.1 hknows.2, ← hheap] at hcall
  obtain ⟨head, hhead, hcall⟩ := bind_eq_ok.mp hcall
  obtain ⟨lists, hlists, hcall⟩ := bind_eq_ok.mp hcall
  rw [advance, attempt_ok hhead] at hadv
  cases hadv
  cases hcall
  exact ⟨⟨rfl, hknows, ⟨_, bind_eq_ok.mpr ⟨lists, hlists, rfl⟩, fun _ => rfl⟩,
    List.forall_mem_nil _⟩, rfl,
    rfl, rfl, rfl, rfl, fun h => h, fun _ => rfl, by simp [slabHeld]⟩

section Buddy

variable {s : BuddyAllocator} {m : FrameMap} {nodes : ℕ → List ℕ}

private theorem reserved_page {pa ptr : ℕ} {h' : Heap} {s' : BuddyAllocator} {m' : FrameMap}
    {nodes' : ℕ → List ℕ} (hh : r.Holds s m nodes) (hidx : idx < nrClasses)
    (hh' : HeapRun.Holds
      { r with heap := h', live := (ptr, layout) :: r.live, pages := (idx, pa) :: r.pages }
      s' m' nodes') {o : ℕ} (ho : o ∈ pageObjects (idx, pa)) :
    HeapRun.Reserved
      { r with heap := h', live := (ptr, layout) :: r.live, pages := (idx, pa) :: r.pages }
      (some (.alloc layout (some ptr))) o := by
  refine ⟨idx, hidx, ?_, ?_⟩
  · exact List.mem_flatMap.mpr ⟨(idx, pa), by simp [pagesOf], ho⟩
  · rw [List.forall_mem_cons]
    refine ⟨fun _ _ => rfl, ?_⟩
    intro y hy hc heq
    exfalso
    obtain ⟨pg, hpg, -, -, hlo, hhi⟩ := hh.object_page (hh.small_live hy hc).2.2.2
    have hclear := (List.pairwise_cons.mp hh'.pages_clear).1 pg hpg
    have hbounds := pageObjects_bounds (show (idx, pa).1 < nrClasses from hidx) ho
    have hsize := (classSize_bounds idx hidx).1
    simp only [Clear] at hclear hbounds
    omega

private theorem effect_storeBuddy {u : BuddyUse} {result : Option ℕ} {s' : BuddyAllocator}
    {e : HeapEvent}
    {r' : HeapRun} (hrun : u.run s = .ok (result, s')) (hanswers : e.op = some u.op)
    (hfits : u.Fits)
    (hrest : ∃ h', (unlockBuddy u result).rest (sh.setBuddy s').heap = .ok (some e, h') ∧
      (u.refills = true → h' = r'.heap))
    (hreserved : ∀ o ∈ (unlockBuddy u result).footprint, r'.Reserved (some e) o)
    (houtside : u.refills = false → r'.heap = r.heap.edit (some s') id ∧ Aside r r')
    (hadv : (storeBuddy u s).advance sh = some (sh', pc')) :
    Effect sh (storeBuddy u s) r sh' pc' e r' := by
  rw [advance, attempt_ok hrun] at hadv
  cases hadv
  constructor
  · exact ⟨rfl, ⟨hfits, rfl⟩, hrest, hreserved⟩
  · exact hanswers
  · rfl
  · rfl
  · rfl
  · rfl
  · exact fun _ => rfl
  · exact fun hheld => absurd hheld (by simp [buddyHeld])
  · exact fun hheld => ⟨some s', rfl, houtside hheld⟩

private theorem rest_of_refill {h h₁ h₂ : Heap} {pa ptr : ℕ} {s' : BuddyAllocator}
    (hb : h.buddy = some s)
    (hs : s.allocPage = .ok (some pa, s')) (hrefill : h.refill idx = .ok (some (), h₁))
    (hpop : h₁.pop idx = .ok (some ptr, h₂)) :
    (unlockBuddy (.refill layout idx) (some pa)).rest { h with buddy := some s' } =
      .ok (some (.alloc layout (some ptr)), h₂) := by
  rw [refill, hb] at hrefill
  change s.allocPage >>= _ = _ at hrefill
  rw [hs, ok_bind] at hrefill
  obtain ⟨base, hbase, hrefill⟩ := bind_eq_ok.mp hrefill
  obtain ⟨size, hsize, hrefill⟩ := bind_eq_ok.mp hrefill
  obtain ⟨count, hcount, hrefill⟩ := bind_eq_ok.mp hrefill
  obtain ⟨h₃, hcarve, hrefill⟩ := bind_eq_ok.mp hrefill
  cases hrefill
  refine bind_eq_ok.mpr ⟨.carve layout idx base 0, bind_eq_ok.mpr ⟨base, hbase, rfl⟩, ?_⟩
  change carveFor _ layout idx base 0 = _
  rw [carveFor, hsize, ok_bind, hcount, ok_bind, Nat.sub_zero]
  exact bind_eq_ok.mpr ⟨h₁, hcarve, bind_eq_ok.mpr ⟨_, hpop, rfl⟩⟩

private theorem effect_refill (hh : r.Holds s m nodes) (hwin : InWindow s)
    (hfits : classOf layout = some idx)
    (hstarts : index sh.heap.freeLists idx = .ok none) (hheap : sh.heap = r.heap)
    (hadv : (storeBuddy (.refill layout idx) s).advance sh = some (sh', pc')) :
    ∃ e r', r.Step pages dramBase nrFrames e r' ∧
      Effect sh (storeBuddy (.refill layout idx) s) r sh' pc' e r' := by
  obtain ⟨hidx, -, -⟩ := sizeClassIndex_some hfits
  rw [hheap] at hstarts
  have hempty : r.heap.listHead idx = none :=
    Except.ok.inj ((hh.lists.index_ok hidx).symm.trans hstarts)
  have hsmall {result : Option Unit} {h₁ : Heap} (hrefill : r.heap.refill idx = .ok (result, h₁)) :
      r.heap.alloc layout = if result = none then .ok (none, h₁) else h₁.pop idx := by
    rw [alloc_small hfits, smallAlloc, hstarts, ok_bind]
    change r.heap.refill idx >>= _ = _
    rw [hrefill, ok_bind]
    cases result <;> rfl
  rcases hh.refill hidx with ⟨hs, hrefill⟩ | ⟨hout, -⟩ |
    ⟨pa, s', m', h₁, nodes₁, hs, -, hrefill, hh₁, hne⟩
  · refine ⟨_, _, step_alloc (hsmall hrefill), effect_storeBuddy hs rfl hfits ⟨_, rfl, fun _ => ?_⟩
      (List.forall_mem_nil _) (fun hfalse => by cases hfalse) hadv⟩
    simp only [HeapShared.setBuddy]
    rw [hheap, setBuddy_self hh.buddy]
    rfl
  · exact absurd hwin hout
  · obtain ⟨ptr, rest, hcons⟩ := List.exists_cons_of_ne_nil hne
    obtain ⟨h₂, hpop, hh₂⟩ := hh₁.pop hfits hcons
    have hcall := hsmall hrefill
    rw [if_neg (by simp), hpop] at hcall
    have hpage : r.refilled layout = [(idx, pa)] := by
      simp [refilled, hfits, hh.buddy, hempty, hs]
    refine ⟨_, _, step_alloc hcall, effect_storeBuddy hs rfl hfits ⟨h₂, ?_, fun _ => rfl⟩ ?_
      (fun hfalse => by cases hfalse) hadv⟩
    · simp only [HeapShared.setBuddy]
      rw [hheap]
      exact rest_of_refill hh.buddy hs hrefill hpop
    · intro o ho
      rw [afterAlloc, allocated, hpage]
      exact reserved_page hh hidx hh₂ ho

private theorem effect_largeAlloc (hcalls : ∃ result h', r.heap.alloc layout = .ok (result, h'))
    (hb : r.heap.buddy = some s) (hfits : classOf layout = none)
    (hadv : (storeBuddy (.largeAlloc layout) s).advance sh = some (sh', pc')) :
    ∃ e r', r.Step pages dramBase nrFrames e r' ∧
      Effect sh (storeBuddy (.largeAlloc layout) s) r sh' pc' e r' := by
  obtain ⟨result, h', hcall⟩ := hcalls
  refine ⟨_, _, step_alloc hcall, ?_⟩
  rw [alloc_large hfits, Heap.largeAlloc, hb] at hcall
  obtain ⟨⟨block, s'⟩, hs, hcall⟩ := bind_eq_ok.mp hcall
  cases block with
  | none =>
      cases hcall
      exact effect_storeBuddy hs rfl hfits ⟨_, rfl, fun hheld => by cases hheld⟩
        (List.forall_mem_nil _)
        (fun _ => ⟨rfl, rfl, fun _ hy _ => hy⟩) hadv
  | some pa =>
      obtain ⟨va, hva, hcall⟩ := bind_eq_ok.mp hcall
      cases hcall
      refine effect_storeBuddy hs rfl hfits ⟨(sh.setBuddy s').heap, ?_, fun hheld => by cases hheld⟩
        (List.forall_mem_nil _) (fun _ => ⟨rfl, ?_, ?_⟩) hadv
      · exact bind_eq_ok.mpr ⟨_, bind_eq_ok.mpr ⟨va, hva, rfl⟩, rfl⟩
      · have hpages : r.refilled layout = [] := by simp [refilled, hfits]
        rw [afterAlloc, allocated, hpages]
        rfl
      · intro y hy hc
        cases List.mem_cons.mp hy with
        | inl heq =>
            rw [heq] at hc
            exact absurd hfits hc
        | inr hmem => exact hmem

private theorem effect_largeDealloc {ptr pa : ℕ} (hcalls : ∃ h', r.heap.dealloc ptr layout = .ok h')
    (hlive : (ptr, layout) ∈ r.live) (hb : r.heap.buddy = some s)
    (hfits : classOf layout = none ∧ linearVaToPa ptr = .ok pa)
    (hadv : (storeBuddy (.largeDealloc ptr layout pa) s).advance sh = some (sh', pc')) :
    ∃ e r', r.Step pages dramBase nrFrames e r' ∧
      Effect sh (storeBuddy (.largeDealloc ptr layout pa) s) r sh' pc' e r' := by
  obtain ⟨h', hcall⟩ := hcalls
  refine ⟨.dealloc ptr layout, _, ⟨hlive, h', hcall, rfl⟩, ?_⟩
  rw [dealloc_large hfits.1, Heap.largeDealloc, hfits.2, ok_bind, hb] at hcall
  obtain ⟨s', hs, hcall⟩ := bind_eq_ok.mp hcall
  have hrun : (BuddyUse.largeDealloc ptr layout pa).run s = .ok (none, s') :=
    bind_eq_ok.mpr ⟨s', hs, rfl⟩
  cases hcall
  exact effect_storeBuddy hrun rfl hfits ⟨_, rfl, fun hheld => by cases hheld⟩
    (List.forall_mem_nil _)
    (fun _ => ⟨rfl, rfl, fun y hy _ => List.mem_of_mem_erase hy⟩) hadv

private theorem effect_allocPages {order : ℕ} (hh : r.Holds s m nodes)
    (hadv : (storeBuddy (.allocPages order) s).advance sh = some (sh', pc')) :
    ∃ e r', r.Step pages dramBase nrFrames e r' ∧
      Effect sh (storeBuddy (.allocPages order) s) r sh' pc' e r' := by
  rcases hh.tracked.allocPages order with hs | ⟨p, s', -, hs, -⟩
  · have hcall :
        PageRun.Step ⟨s, r.others, r.given⟩ (.allocPages order none) ⟨s, r.others, r.given⟩ :=
      ⟨hs, rfl, rfl⟩
    exact ⟨.other _, _, ⟨s, s, _, _, hh.buddy, hcall, rfl⟩, effect_storeBuddy hs rfl trivial
      ⟨_, rfl, fun hheld => by cases hheld⟩ (List.forall_mem_nil _)
        (fun _ => ⟨rfl, rfl, fun _ hy _ => hy⟩)
      hadv⟩
  · have hcall :
        PageRun.Step ⟨s, r.others, r.given⟩ (.allocPages order (some (frameAddr s.dramBase p)))
        ⟨s', (frameAddr s.dramBase p, order) :: r.others, r.given⟩ := ⟨hs, rfl, rfl⟩
    exact ⟨.other _, _, ⟨s, s', _, _, hh.buddy, hcall, rfl⟩, effect_storeBuddy hs rfl trivial
      ⟨_, rfl, fun hheld => by cases hheld⟩ (List.forall_mem_nil _)
        (fun _ => ⟨rfl, rfl, fun _ hy _ => hy⟩)
      hadv⟩

private theorem effect_freePages {pa order : ℕ} (hh : r.Holds s m nodes)
    (hothers : (pa, order) ∈ r.others)
    (hadv : (storeBuddy (.freePages pa order) s).advance sh = some (sh', pc')) :
    ∃ e r', r.Step pages dramBase nrFrames e r' ∧
      Effect sh (storeBuddy (.freePages pa order) s) r sh' pc' e r' := by
  have hblock : (pa, order) ∈ r.blocks := List.mem_append_left _ hothers
  obtain ⟨s', m', hs, -⟩ := hh.tracked.freePages hblock
  have hrun : (BuddyUse.freePages pa order).run s = .ok (none, s') := bind_eq_ok.mpr ⟨s', hs, rfl⟩
  have hcall : PageRun.Step ⟨s, r.others, r.given⟩ (.freePages pa order)
      ⟨s', r.others.erase (pa, order), r.given⟩ := ⟨hothers, hs, rfl, rfl⟩
  exact ⟨.other _, _, ⟨s, s', _, _, hh.buddy, hcall, rfl⟩, effect_storeBuddy hrun rfl trivial
    ⟨_, rfl, fun hheld => by cases hheld⟩ (List.forall_mem_nil _)
      (fun _ => ⟨rfl, rfl, fun _ hy _ => hy⟩)
    hadv⟩

end Buddy

theorem commits_op {h : Heap} (hcommits : pc.commits h = true) : ∃ op, pc.op = some op := by
  cases pc with
  | look layout idx => exact ⟨_, rfl⟩
  | getBuddy u => exact ⟨_, rfl⟩
  | storeBuddy u s => exact ⟨_, rfl⟩
  | pushNext ptr layout idx => exact ⟨_, rfl⟩
  | _ => cases hcommits

private theorem sound_window {s : BuddyAllocator} (hsound : r.Sound dramBase nrFrames)
    (hb : r.heap.buddy = some s)
    (hwin : dramBase + nrFrames * pageSize ≤ 2 ^ 46) :
      ∃ m nodes, r.Holds s m nodes ∧ InWindow s := by
  cases hsound with
  | inl hfresh =>
      rw [hfresh.2.1] at hb
      cases hb
  | inr hholds =>
      obtain ⟨s₁, m, nodes, hh, rfl, rfl⟩ := hholds
      obtain rfl := Option.some.inj (hh.buddy.symm.trans hb)
      exact ⟨m, nodes, hh, hwin⟩

theorem At.exists_effect {op : Option HeapOp} {t : Option HeapEvent} (pages : List PageInfo)
    (h : pc.At sh r op t)
    (hsound : r.Sound dramBase nrFrames) (hwin : dramBase + nrFrames * pageSize ≤ 2 ^ 46)
    (hbuddy : sh.heap.buddy = r.heap.buddy)
    (hlive : ∀ ptr layout, op = some (.dealloc ptr layout) → t = none → (ptr, layout) ∈ r.live)
    (hothers : ∀ pa order, op = some (.freePages pa order) → t = none → (pa, order) ∈ r.others)
    (hcommits : pc.commits sh.heap = true) (hadv : pc.advance sh = some (sh', pc')) :
    t = none ∧ ∃ e r', r.Step pages dramBase nrFrames e r' ∧ Effect sh pc r sh' pc' e r' := by
  obtain ⟨hop, hknows, ⟨h', hrest, hheld⟩, -⟩ := h
  have hreturns := hsound.returns hwin
  cases pc with
  | look layout idx =>
      cases hrest
      exact ⟨rfl, effect_look (hreturns.1 layout) hknows (hheld rfl) hcommits hadv⟩
  | pushNext ptr layout idx =>
      cases hrest
      have hmem := hlive ptr layout hop.symm rfl
      exact ⟨rfl, effect_pushNext (hreturns.2 ptr layout hmem) hmem hknows (hheld rfl) hadv⟩
  | getBuddy u =>
      cases hrest
      refine ⟨rfl, effect_getBuddy hknows hheld hbuddy ?_ hcommits hadv⟩
      rintro ptr layout pa rfl
      exact hlive ptr layout hop.symm rfl
  | storeBuddy u s =>
      cases hrest
      refine ⟨rfl, ?_⟩
      obtain ⟨hfits, hstarts, hs⟩ := hknows
      rw [hbuddy] at hs
      obtain ⟨m, nodes, hh, hin⟩ := sound_window hsound hs hwin
      cases u with
      | refill layout idx => exact effect_refill hh hin hfits hstarts (hheld rfl) hadv
      | largeAlloc layout => exact effect_largeAlloc (hreturns.1 layout) hs hfits hadv
      | largeDealloc ptr layout pa =>
          have hmem := hlive ptr layout hop.symm rfl
          exact effect_largeDealloc (hreturns.2 ptr layout hmem) hmem hs hfits hadv
      | allocPages order => exact effect_allocPages hh hadv
      | freePages pa order => exact effect_freePages hh (hothers pa order hop.symm rfl) hadv
  | _ => cases hcommits

end HeapPc

end Preon.Memory
