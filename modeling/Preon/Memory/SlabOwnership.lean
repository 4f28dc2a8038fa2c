import Preon.Memory.BuddyPages
import Preon.Memory.SlabLists

/-!
# Who owns the memory behind the slab allocator

The live allocations, the pages carved for each class and the blocks of the other users of the
buddy allocator, and the invariant that ties them to the free lists: the objects of the carved
pages are either listed or live, and every block is out of the buddy allocator.
-/

namespace Preon.Memory

open Framework

/-- A heap with the live allocations, the pages carved so far with their class, the blocks the
other users of the buddy allocator hold, and the frame ranges ever given to it. -/
structure HeapRun where
  heap : Heap
  live : List (ℕ × AllocLayout)
  pages : List (ℕ × ℕ)
  others : List (ℕ × ℕ)
  given : List (ℕ × ℕ)

namespace HeapRun

open Slab Heap

def classOf (layout : AllocLayout) : Option ℕ := sizeClassIndex layout.size layout.align

def largeBlock (a : ℕ × AllocLayout) : Option (ℕ × ℕ) :=
  if classOf a.2 = none then some (a.1 - kernelLinearBase, pagesOrder a.2.size) else none

def largeBlocks (r : HeapRun) : List (ℕ × ℕ) := r.live.filterMap largeBlock

def liveObject (idx : ℕ) (a : ℕ × AllocLayout) : Option ℕ :=
  if classOf a.2 = some idx then some a.1 else none

def liveObjects (r : HeapRun) (idx : ℕ) : List ℕ := r.live.filterMap (liveObject idx)

def pageObjects (pg : ℕ × ℕ) : List ℕ :=
  objectsFrom (pg.2 + kernelLinearBase) (classSize pg.1) 0 (pageSize / classSize pg.1)

def pagesOf (r : HeapRun) (idx : ℕ) : List (ℕ × ℕ) := r.pages.filter fun pg => pg.1 = idx

/-- Every object ever carved for the class. -/
def objects (r : HeapRun) (idx : ℕ) : List ℕ := (r.pagesOf idx).flatMap pageObjects

/-- The blocks of the slab allocator: the carved pages and the large allocations. -/
def slabBlocks (r : HeapRun) : List (ℕ × ℕ) := r.pages.map (fun pg => (pg.2, 0)) ++ r.largeBlocks

def blocks (r : HeapRun) : List (ℕ × ℕ) := r.others ++ r.slabBlocks

structure Holds (r : HeapRun) (s : BuddyAllocator) (m : FrameMap) (nodes : ℕ → List ℕ) : Prop where
  buddy : r.heap.buddy = some s
  tracked : PageRun.Tracked ⟨s, r.blocks, r.given⟩ m
  lists : r.heap.Lists nodes
  classes : ∀ pg ∈ r.pages, pg.1 < nrClasses
  linear : ∀ pg ∈ r.pages, pg.2 < 2 ^ 47
  partition : ∀ idx < nrClasses, (nodes idx ++ r.liveObjects idx).Perm (r.objects idx)
  large : ∀ a ∈ r.live, classOf a.2 = none → kernelLinearBase ≤ a.1

/-! ## Where the objects lie -/

theorem pageObjects_bounds {pg : ℕ × ℕ} (hc : pg.1 < nrClasses) {x : ℕ} (hx : x ∈ pageObjects pg) :
    pg.2 + kernelLinearBase ≤ x ∧ x + classSize pg.1 ≤ pg.2 + kernelLinearBase + pageSize := by
  obtain ⟨j, -, hj, rfl⟩ := mem_objectsFrom.mp hx
  obtain ⟨-, hpage, -⟩ := classSize_bounds pg.1 hc
  have hmul : classSize pg.1 * (j + 1) ≤ classSize pg.1 * (pageSize / classSize pg.1) :=
    Nat.mul_le_mul_left _ (by omega)
  rw [hpage, Nat.mul_add, Nat.mul_one, Nat.mul_comm] at hmul
  omega

private theorem pageObjects_clear (pg : ℕ × ℕ) :
    (pageObjects pg).Pairwise fun x y => Clear x (classSize pg.1) y (classSize pg.1) := by
  rw [pageObjects, objectsFrom, List.pairwise_map]
  exact (List.pairwise_lt_range' (s := 0)).imp fun hlt => Heap.objects_clear hlt

private theorem length_pageObjects (pg : ℕ × ℕ) :
    (pageObjects pg).length = pageSize / classSize pg.1 := by
  rw [pageObjects, objectsFrom, List.length_map, List.length_range']

private theorem mem_pagesOf {r : HeapRun} {idx : ℕ} {pg : ℕ × ℕ} :
    pg ∈ r.pagesOf idx ↔ pg ∈ r.pages ∧ pg.1 = idx := by
  simp [pagesOf]

theorem length_objects (r : HeapRun) (idx : ℕ) :
    (r.objects idx).length = (r.pagesOf idx).length * (pageSize / classSize idx) := by
  have hlen : ∀ pg ∈ r.pagesOf idx, (pageObjects pg).length = pageSize / classSize idx := by
    intro pg hpg
    rw [length_pageObjects, (mem_pagesOf.mp hpg).2]
  rw [objects, List.length_flatMap, List.map_congr_left hlen, List.map_const',
    List.sum_replicate_nat]

private theorem mem_liveObjects {r : HeapRun} {idx x : ℕ} :
    x ∈ r.liveObjects idx ↔ ∃ layout, (x, layout) ∈ r.live ∧ classOf layout = some idx := by
  simp only [liveObjects, List.mem_filterMap, liveObject, Option.ite_none_right_eq_some,
    Option.some.injEq, Prod.exists]
  constructor
  · rintro ⟨y, layout, hmem, hc, rfl⟩
    exact ⟨layout, hmem, hc⟩
  · rintro ⟨layout, hmem, hc⟩
    exact ⟨x, layout, hmem, hc, rfl⟩

variable {r : HeapRun} {s : BuddyAllocator} {m : FrameMap} {nodes : ℕ → List ℕ}

theorem Holds.blocks_clear (h : r.Holds s m nodes) :
    r.blocks.Pairwise fun b c => Clear b.1 (2 ^ b.2 * pageSize) c.1 (2 ^ c.2 * pageSize) :=
  h.tracked.blocks_clear

theorem Holds.pages_clear (h : r.Holds s m nodes) :
    r.pages.Pairwise fun p q => Clear p.2 pageSize q.2 pageSize := by
  have hblocks := (List.pairwise_append.mp h.blocks_clear).2.1
  have hpages := (List.pairwise_append.mp hblocks).1
  rw [List.pairwise_map] at hpages
  simpa using hpages

theorem Holds.page_clear_large (h : r.Holds s m nodes) {pg b : ℕ × ℕ} (hpg : pg ∈ r.pages)
    (hb : b ∈ r.largeBlocks) : Clear pg.2 pageSize b.1 (2 ^ b.2 * pageSize) := by
  have hblocks := (List.pairwise_append.mp h.blocks_clear).2.1
  have hcross := (List.pairwise_append.mp hblocks).2.2 _ (List.mem_map_of_mem hpg) b hb
  simpa using hcross

theorem Holds.page_clear_other (h : r.Holds s m nodes) {pg b : ℕ × ℕ} (hpg : pg ∈ r.pages)
    (hb : b ∈ r.others) : Clear pg.2 pageSize b.1 (2 ^ b.2 * pageSize) := by
  have hcross := (List.pairwise_append.mp h.blocks_clear).2.2 b hb (pg.2, 0)
    (List.mem_append_left _ (List.mem_map_of_mem hpg))
  simpa using hcross.symm

theorem Holds.page_bounds (h : r.Holds s m nodes) {pg : ℕ × ℕ} (hpg : pg ∈ r.pages) :
    pg.2 + pageSize ≤ 2 ^ 47 := by
  have hmem : (pg.2, 0) ∈ r.blocks :=
    List.mem_append_right _ (List.mem_append_left _ (List.mem_map_of_mem hpg))
  obtain ⟨p, -, -, -, halign, -⟩ := h.tracked.block_bytes hmem
  have hlt := h.linear pg hpg
  simp only [pageSize] at halign ⊢
  omega

theorem Holds.object_page (h : r.Holds s m nodes) {idx x : ℕ} (hx : x ∈ r.objects idx) :
    ∃ pg ∈ r.pages, pg.1 = idx ∧ x ∈ pageObjects pg ∧ pg.2 + kernelLinearBase ≤ x ∧
      x + classSize idx ≤ pg.2 + kernelLinearBase + pageSize := by
  obtain ⟨pg, hof, hobj⟩ := List.mem_flatMap.mp hx
  obtain ⟨hpg, rfl⟩ := mem_pagesOf.mp hof
  exact ⟨pg, hpg, rfl, hobj, pageObjects_bounds (h.classes pg hpg) hobj⟩

theorem Holds.objects_clear (h : r.Holds s m nodes) (idx : ℕ) :
    (r.objects idx).Pairwise fun x y => Clear x (classSize idx) y (classSize idx) := by
  rw [objects, List.pairwise_flatMap]
  constructor
  · intro pg hpg
    have hclear := pageObjects_clear pg
    rwa [(mem_pagesOf.mp hpg).2] at hclear
  · refine (h.pages_clear.filter _).imp_of_mem ?_
    intro p q hp hq hclear x hx y hy
    obtain ⟨hpmem, hpc⟩ := mem_pagesOf.mp hp
    obtain ⟨hqmem, hqc⟩ := mem_pagesOf.mp hq
    have hxb := pageObjects_bounds (h.classes p hpmem) hx
    have hyb := pageObjects_bounds (h.classes q hqmem) hy
    rw [hpc] at hxb
    rw [hqc] at hyb
    simp only [Clear] at hclear ⊢
    omega

theorem Holds.objects_clear_of_ne (h : r.Holds s m nodes) {i j x y : ℕ} (hij : i ≠ j)
    (hx : x ∈ r.objects i) (hy : y ∈ r.objects j) : Clear x (classSize i) y (classSize j) := by
  obtain ⟨p, hp, hpi, -, hxb⟩ := h.object_page hx
  obtain ⟨q, hq, hqj, -, hyb⟩ := h.object_page hy
  have hne : p ≠ q := by
    rintro rfl
    exact hij (hpi.symm.trans hqj)
  have : Std.Symm fun p q : ℕ × ℕ => Clear p.2 pageSize q.2 pageSize := ⟨fun _ _ hc => hc.symm⟩
  have hclear := h.pages_clear.forall hp hq hne
  simp only [Clear] at hclear ⊢
  omega

theorem Holds.node_object (h : r.Holds s m nodes) {idx x : ℕ} (hidx : idx < nrClasses)
    (hx : x ∈ nodes idx) : x ∈ r.objects idx :=
  (h.partition idx hidx).mem_iff.mp (List.mem_append_left _ hx)

private theorem Holds.live_object (h : r.Holds s m nodes) {idx x : ℕ} (hidx : idx < nrClasses)
    (hx : x ∈ r.liveObjects idx) : x ∈ r.objects idx :=
  (h.partition idx hidx).mem_iff.mp (List.mem_append_right _ hx)

theorem Holds.partition_clear (h : r.Holds s m nodes) {idx : ℕ} (hidx : idx < nrClasses) :
    (nodes idx ++ r.liveObjects idx).Pairwise fun x y =>
      Clear x (classSize idx) y (classSize idx) :=
  (h.partition idx hidx).symm.pairwise (h.objects_clear idx) fun hc => hc.symm

/-! ## Where the live allocations lie -/

theorem mem_largeBlocks {a : ℕ × AllocLayout} (ha : a ∈ r.live) (hc : classOf a.2 = none) :
    (a.1 - kernelLinearBase, pagesOrder a.2.size) ∈ r.largeBlocks :=
  List.mem_filterMap.mpr ⟨a, ha, if_pos hc⟩

theorem Holds.small_live (h : r.Holds s m nodes) {a : ℕ × AllocLayout} (ha : a ∈ r.live) {idx : ℕ}
    (hc : classOf a.2 = some idx) :
    idx < nrClasses ∧ a.2.size ≤ classSize idx ∧ a.1 ∈ r.liveObjects idx ∧ a.1 ∈ r.objects idx := by
  obtain ⟨hidx, hsize, -⟩ := sizeClassIndex_some hc
  have hmem : a.1 ∈ r.liveObjects idx := mem_liveObjects.mpr ⟨a.2, ha, hc⟩
  exact ⟨hidx, hsize, hmem, h.live_object hidx hmem⟩

theorem Holds.node_clear_object (h : r.Holds s m nodes) {i j x y : ℕ} (hi : i < nrClasses)
    (hj : j < nrClasses) (hx : x ∈ nodes i) (hy : y ∈ r.liveObjects j) :
    Clear x (classSize i) y (classSize j) := by
  by_cases hij : i = j
  · subst hij
    exact (List.pairwise_append.mp (h.partition_clear hi)).2.2 x hx y hy
  · exact h.objects_clear_of_ne hij (h.node_object hi hx) (h.live_object hj hy)

theorem Holds.node_clear_live (h : r.Holds s m nodes) {i x : ℕ} (hi : i < nrClasses)
    (hx : x ∈ nodes i) {a : ℕ × AllocLayout} (ha : a ∈ r.live) :
    Clear x (classSize i) a.1 a.2.size := by
  cases hc : classOf a.2 with
  | some j =>
      obtain ⟨hj, hsize, hlive, -⟩ := h.small_live ha hc
      exact (h.node_clear_object hi hj hx hlive).mono le_rfl le_rfl le_rfl (by omega)
  | none =>
      obtain ⟨pg, hpg, -, -, hlo, hhi⟩ := h.object_page (h.node_object hi hx)
      have hclear := h.page_clear_large hpg (mem_largeBlocks ha hc)
      have hsize := le_pagesOrder a.2.size_le
      have hbase := h.large a ha hc
      simp only [Clear] at hclear ⊢
      omega

theorem Holds.node_clear_other (h : r.Holds s m nodes) {i x : ℕ} (hi : i < nrClasses)
    (hx : x ∈ nodes i) {b : ℕ × ℕ} (hb : b ∈ r.others) :
    Clear x (classSize i) (b.1 + kernelLinearBase) (2 ^ b.2 * pageSize) := by
  obtain ⟨pg, hpg, -, -, hlo, hhi⟩ := h.object_page (h.node_object hi hx)
  have hclear := h.page_clear_other hpg hb
  simp only [Clear] at hclear ⊢
  omega

private theorem Holds.small_clear_large (h : r.Holds s m nodes) {a b : ℕ × AllocLayout}
    (ha : a ∈ r.live)
    (hb : b ∈ r.live) {i : ℕ} (hac : classOf a.2 = some i) (hbc : classOf b.2 = none) :
    Clear a.1 a.2.size b.1 b.2.size := by
  obtain ⟨-, hsize, -, hobj⟩ := h.small_live ha hac
  obtain ⟨pg, hpg, -, -, hlo, hhi⟩ := h.object_page hobj
  have hclear := h.page_clear_large hpg (mem_largeBlocks hb hbc)
  have hlarge := le_pagesOrder b.2.size_le
  have hbase := h.large b hb hbc
  simp only [Clear] at hclear ⊢
  omega

theorem Holds.live_clear (h : r.Holds s m nodes) :
    r.live.Pairwise fun a b => Clear a.1 a.2.size b.1 b.2.size := by
  have hlarge := (List.pairwise_append.mp (List.pairwise_append.mp h.blocks_clear).2.1).2.1
  have hsmall := fun i (hi : i < nrClasses) => (List.pairwise_append.mp (h.partition_clear hi)).2.1
  rw [List.pairwise_iff_getElem]
  intro i j hi hj hij
  have hmi := List.getElem_mem hi
  have hmj := List.getElem_mem hj
  cases hci : classOf r.live[i].2 with
  | some ci =>
      cases hcj : classOf r.live[j].2 with
      | some cj =>
          obtain ⟨hlt, hsi, -, hoi⟩ := h.small_live hmi hci
          obtain ⟨-, hsj, -, hoj⟩ := h.small_live hmj hcj
          have hclear : Clear r.live[i].1 (classSize ci) r.live[j].1 (classSize cj) := by
            by_cases hc : ci = cj
            · subst hc
              have hpair := hsmall ci hlt
              rw [liveObjects, List.pairwise_filterMap, List.pairwise_iff_getElem] at hpair
              exact hpair i j hi hj hij _ (if_pos hci) _ (if_pos hcj)
            · exact h.objects_clear_of_ne hc hoi hoj
          exact hclear.mono le_rfl (by omega) le_rfl (by omega)
      | none => exact h.small_clear_large hmi hmj hci hcj
  | none =>
      cases hcj : classOf r.live[j].2 with
      | some cj => exact (h.small_clear_large hmj hmi hcj hci).symm
      | none =>
          rw [largeBlocks, List.pairwise_filterMap, List.pairwise_iff_getElem] at hlarge
          have hclear := hlarge i j hi hj hij _ (if_pos hci) _ (if_pos hcj)
          have hsi := le_pagesOrder r.live[i].2.size_le
          have hsj := le_pagesOrder r.live[j].2.size_le
          have hbi := h.large _ hmi hci
          have hbj := h.large _ hmj hcj
          simp only [Clear] at hclear ⊢
          omega

theorem Holds.owned (h : r.Holds s m nodes) {a : ℕ × AllocLayout} (ha : a ∈ r.live) :
    ∃ b ∈ r.slabBlocks, b.1 + kernelLinearBase ≤ a.1 ∧
      a.1 + a.2.size ≤ b.1 + kernelLinearBase + 2 ^ b.2 * pageSize := by
  cases hc : classOf a.2 with
  | some idx =>
      obtain ⟨-, hsize, -, hobj⟩ := h.small_live ha hc
      obtain ⟨pg, hpg, -, -, hlo, hhi⟩ := h.object_page hobj
      refine ⟨(pg.2, 0), List.mem_append_left _ (List.mem_map_of_mem hpg), hlo, ?_⟩
      simp only [pow_zero, Nat.one_mul]
      omega
  | none =>
      have hsize := le_pagesOrder a.2.size_le
      have hbase := h.large a ha hc
      refine ⟨_, List.mem_append_right _ (mem_largeBlocks ha hc), ?_, ?_⟩ <;>
        simp only <;> omega

end HeapRun

end Preon.Memory
