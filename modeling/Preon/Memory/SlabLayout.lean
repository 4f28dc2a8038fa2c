import Preon.Memory.SlabRuns

/-!
# Sizes and alignments of allocations

The object or block behind an allocation always holds its size.  Objects are aligned to their
class.  A large block is sized from the size alone and its alignment is relative to the base of
the RAM span, so a large alignment is only sometimes honoured; the condition is exact.
-/

namespace Preon.Memory

open Framework

/-! ## The order of a request -/

namespace Slab

private theorem pagesOrder_le_iff {size : ℕ} (h : size ≤ 2 ^ 63) (k : ℕ) :
    pagesOrder size ≤ k ↔ size ≤ 2 ^ k * pageSize := by
  rw [pagesOrder_eq h, Nat.clog_le_iff_le_pow (by decide)]
  simp only [BootMem.divCeil, pageSize]
  omega

private theorem pagesOrder_lt_maxOrder {size : ℕ} (h : size ≤ 2 ^ 63) :
    pagesOrder size < maxOrder ↔ size ≤ 2 ^ 22 := by
  rw [show maxOrder = 10 + 1 from rfl, Nat.lt_succ_iff, pagesOrder_le_iff h]
  rfl

/-- A power of two above the page size divides the size of the block exactly below twice the
size of the request. -/
theorem pow_le_pagesOrder {size a : ℕ} (h : size ≤ 2 ^ 63) (ha : 12 < a) :
    a ≤ pagesOrder size + 12 ↔ 2 ^ a < 2 * size := by
  obtain ⟨k, rfl⟩ := Nat.exists_eq_add_of_le' (show 13 ≤ a by omega)
  have hiff := pagesOrder_le_iff h k
  rw [Nat.pow_add]
  simp only [pageSize] at hiff
  omega

end Slab

namespace AllocLayout

/-- The layouts that are honoured wherever they are served: an alignment of at most a page, an
alignment below twice the size that the RAM base also has, or a size that is never served. -/
def Fits (layout : AllocLayout) (dramBase : ℕ) : Prop :=
  layout.align ≤ pageSize ∨ (layout.align < 2 * layout.size ∧ layout.align ∣ dramBase) ∨
    2 ^ 22 < layout.size

instance (layout : AllocLayout) (dramBase : ℕ) : Decidable (layout.Fits dramBase) :=
  inferInstanceAs (Decidable (_ ∨ _))

private theorem align_dvd_of_le (layout : AllocLayout) {k : ℕ} (h : layout.align ≤ 2 ^ k) :
    layout.align ∣ 2 ^ k := by
  obtain ⟨a, ha⟩ := layout.align_pow
  rw [ha] at h ⊢
  exact Nat.pow_dvd_pow 2 ((Nat.pow_le_pow_iff_right (by decide)).mp h)

private theorem align_dvd_linear (layout : AllocLayout) {k : ℕ} (h : layout.align ≤ 2 ^ k)
    (hk : k ≤ 47) :
    layout.align ∣ kernelLinearBase :=
  (layout.align_dvd_of_le h).trans ((Nat.pow_dvd_pow 2 hk).trans (by decide))

/-- Where the linear map keeps the low bits, an aligned linear address has an aligned physical
one. -/
theorem align_dvd_of_linear (layout : AllocLayout) {pa : ℕ} (hpa : pa < 2 ^ 46)
    (h : layout.align ∣ pa + kernelLinearBase) : layout.align ∣ pa := by
  obtain ⟨a, ha⟩ := layout.align_pow
  by_cases hle : a ≤ 47
  · have hlin := layout.align_dvd_linear (le_of_eq ha) hle
    exact (Nat.dvd_add_iff_left hlin).mpr h
  · exfalso
    have hdvd : 2 ^ 48 ∣ pa + kernelLinearBase := by
      rw [ha] at h
      exact (Nat.pow_dvd_pow 2 (by omega)).trans h
    simp only [kernelLinearBase] at hdvd
    omega

end AllocLayout

/-! ## What lies behind an allocation -/

namespace HeapRun

open Slab Heap BuddyAllocator

variable {r : HeapRun} {s : BuddyAllocator} {m : FrameMap} {nodes : ℕ → List ℕ}

/-- The object or the buddy block behind an allocation has `n` bytes. -/
def Behind (r : HeapRun) (ptr : ℕ) (layout : AllocLayout) (n : ℕ) : Prop :=
  match classOf layout with
  | some idx => ptr ∈ r.objects idx ∧ n = classSize idx
  | none => ∃ s p, r.heap.buddy = some s ∧ ptr = frameAddr s.dramBase p + kernelLinearBase ∧
      (s.info p).state = .allocated ∧ n = 2 ^ (s.info p).order * pageSize

/-- An allocation of the layout that succeeds is aligned and large enough. -/
def Honours (r : HeapRun) (layout : AllocLayout) : Prop :=
  ∀ ptr h', r.heap.alloc layout = .ok (some ptr, h') → ptr % layout.align = 0 ∧
    ∃ n, (r.allocated h' ptr layout).Behind ptr layout n ∧ layout.size ≤ n

private theorem Holds.behind (h : r.Holds s m nodes) {ptr : ℕ} {layout : AllocLayout}
    (ha : (ptr, layout) ∈ r.live) : ∃ n, r.Behind ptr layout n ∧ layout.size ≤ n := by
  simp only [Behind]
  cases hc : classOf layout with
  | some idx =>
      obtain ⟨-, hsize, -, hobj⟩ := h.small_live ha hc
      exact ⟨_, ⟨hobj, rfl⟩, hsize⟩
  | none =>
      obtain ⟨pa, rfl⟩ := Nat.exists_eq_add_of_le' (h.large _ ha hc)
      have hmem := mem_largeBlocks ha hc
      rw [Nat.add_sub_cancel] at hmem
      obtain ⟨p, -, haddr, hstate, horder⟩ := h.tracked.abstracts.heads _ _
        (List.mem_append_right _ (List.mem_append_right _ hmem))
      refine ⟨2 ^ (s.info p).order * pageSize, ⟨s, p, h.buddy, ?_, hstate, rfl⟩, ?_⟩
      · rw [haddr]
      · change (s.info p).order = pagesOrder layout.size at horder
        rw [horder]
        exact le_pagesOrder layout.size_le

private theorem Holds.object_aligned (h : r.Holds s m nodes) {layout : AllocLayout} {idx ptr : ℕ}
    (hc : classOf layout = some idx) (hobj : ptr ∈ r.objects idx) : layout.align ∣ ptr := by
  obtain ⟨hidx, -, halign⟩ := sizeClassIndex_some hc
  obtain ⟨pg, hpg, rfl, hx, -⟩ := h.object_page hobj
  obtain ⟨j, -, -, rfl⟩ := mem_objectsFrom.mp hx
  have hmem : (pg.2, 0) ∈ r.blocks :=
    List.mem_append_right _ (List.mem_append_left _ (List.mem_map_of_mem hpg))
  obtain ⟨-, -, -, -, hpage, -⟩ := h.tracked.block_bytes hmem
  rw [classSize_eq _ hidx] at halign ⊢
  have hidx' : pg.1 + 3 ≤ 12 := by
    have : pg.1 < 9 := hidx
    omega
  have hpg2 : layout.align ∣ pg.2 :=
    (layout.align_dvd_of_le halign).trans
      ((Nat.pow_dvd_pow 2 hidx').trans (Nat.dvd_of_mod_eq_zero hpage))
  exact Nat.dvd_add (Nat.dvd_add hpg2 (layout.align_dvd_linear halign (by omega)))
    ((layout.align_dvd_of_le halign).mul_left j)

private theorem Holds.block_aligned (h : r.Holds s m nodes) {layout : AllocLayout} {pa : ℕ}
    (hmem : (pa, pagesOrder layout.size) ∈ r.blocks) (hfits : layout.Fits s.dramBase) :
    layout.align ∣ pa + kernelLinearBase := by
  obtain ⟨p, hp, hal, horder, hpage, -⟩ := h.tracked.block_bytes hmem
  have hsize := (pagesOrder_lt_maxOrder layout.size_le).mp horder
  obtain ⟨a, ha⟩ := layout.align_pow
  by_cases hsmall : layout.align ≤ pageSize
  · have hdvd : layout.align ∣ pageSize := layout.align_dvd_of_le (k := 12) hsmall
    exact Nat.dvd_add (hdvd.trans (Nat.dvd_of_mod_eq_zero hpage))
      (layout.align_dvd_linear (k := 12) hsmall (by decide))
  · rcases hfits with hle | ⟨hlt, hbase⟩ | hbig
    · exact absurd hle hsmall
    · have ha12 : 12 < a := by
        rw [ha] at hsmall
        exact (Nat.pow_lt_pow_iff_right (by decide)).mp (Nat.lt_of_not_le hsmall)
      have hk : a ≤ pagesOrder layout.size + 12 :=
        (pow_le_pagesOrder layout.size_le ha12).mpr (by rw [← ha]; exact hlt)
      have hblock : layout.align ∣ p * pageSize := by
        rw [ha]
        refine (Nat.pow_dvd_pow 2 hk).trans ?_
        rw [Nat.pow_add]
        exact Nat.mul_dvd_mul hal (dvd_refl _)
      have hpa : pa = s.dramBase + p * pageSize := hp
      rw [hpa]
      have horder' : pagesOrder layout.size < 11 := horder
      exact Nat.dvd_add (Nat.dvd_add hbase hblock)
        (layout.align_dvd_linear (le_of_eq ha) (by omega))
    · omega

private theorem Holds.live_aligned (h : r.Holds s m nodes) {ptr : ℕ} {layout : AllocLayout}
    (ha : (ptr, layout) ∈ r.live) (hfits : layout.Fits s.dramBase) : layout.align ∣ ptr := by
  cases hc : classOf layout with
  | some idx =>
      obtain ⟨-, -, -, hobj⟩ := h.small_live ha hc
      exact h.object_aligned hc hobj
  | none =>
      obtain ⟨pa, rfl⟩ := Nat.exists_eq_add_of_le' (h.large _ ha hc)
      have hmem := mem_largeBlocks ha hc
      rw [Nat.add_sub_cancel] at hmem
      exact h.block_aligned (List.mem_append_right _ (List.mem_append_right _ hmem)) hfits

private theorem honours_of_fits {pages : List PageInfo} {dramBase nrFrames : ℕ}
    (hspan : FrameSpan dramBase nrFrames)
    (h : (heapSystem pages dramBase nrFrames).Reachable r) {layout : AllocLayout}
    (hfits : layout.Fits dramBase) : r.Honours layout := by
  intro ptr h' hcall
  rcases sound_of_reachable hspan h with hf | ⟨s, m, nodes, hh, -, rfl⟩
  · cases (Prod.mk.inj (Except.ok.inj (hcall.symm.trans (hf.alloc layout)))).1
  · obtain ⟨s', m', nodes', hsame, hh'⟩ := hh.alloc_some hcall
    rw [← hsame.dramBase] at hfits
    exact ⟨Nat.mod_eq_zero_of_dvd (hh'.live_aligned List.mem_cons_self hfits),
      hh'.behind List.mem_cons_self⟩

end HeapRun

/-! ## Seeding one block -/

namespace FrameMap

open BuddyAllocator

private theorem greedyOrder_block {p k : ℕ} (hal : Aligned p k) (hk : k < maxOrder) :
    greedyOrder p (2 ^ k) = k := by
  have hpos := Nat.two_pow_pos k
  have hg := greedyOrder_spec (show p < p + 2 ^ k by omega)
  rw [Nat.add_sub_cancel_left] at hg
  have hle : greedyOrder p (2 ^ k) ≤ k := by
    have hfits := hg.fits
    exact (Nat.pow_le_pow_iff_right (by decide : 1 < 2)).mp (by omega)
  have hge := hg.largest k hal (Nat.le_sub_one_of_lt hk) le_rfl
  omega

private theorem allocate_seedRange_block {p k : ℕ} (hal : Aligned p k) (hk : k < maxOrder) :
    ∃ m', (seedRange (p + 2 ^ k) (2 ^ k) emptyMap p).allocate k = some (p, m') := by
  have hpos := Nat.two_pow_pos k
  obtain ⟨fuel, hfuel⟩ := Nat.exists_eq_add_one_of_ne_zero hpos.ne'
  have hseed : seedRange (p + 2 ^ k) (2 ^ k) emptyMap p = (emptyMap.claim p k).push k p := by
    nth_rewrite 2 [hfuel]
    rw [seedRange, if_pos (by omega), Nat.add_sub_cancel_left, greedyOrder_block hal hk]
    cases fuel with
    | zero => rfl
    | succ fuel => rw [seedRange, if_neg (by omega)]
  have hqueue : ((emptyMap.claim p k).push k p).queue k = [p] := if_pos rfl
  have hfind : ((emptyMap.claim p k).push k p).findOrder k = some k := by
    rw [findOrder, List.find?_range'_eq_some]
    refine ⟨by rw [hqueue]; rfl, List.mem_range'_1.mpr ⟨le_rfl, by omega⟩, fun j hj hjk => ?_⟩
    omega
  rw [hseed, allocate, hfind]
  simp only [hqueue]
  exact ⟨_, rfl⟩

end FrameMap

namespace PageRun

open BuddyAllocator

private theorem exists_allocPages {dramBase nrFrames p k : ℕ} (hspan : FrameSpan dramBase nrFrames)
    (hal : Aligned p k) (hk : k < maxOrder) (hfit : p + 2 ^ k ≤ nrFrames) :
    ∃ r s', (pageSystem (List.replicate nrFrames default) dramBase nrFrames).Reachable r ∧
      r.allocator.allocPages k = .ok (some (frameAddr dramBase p), s') := by
  have hlen : nrFrames ≤ (List.replicate nrFrames (default : PageInfo)).length := by
    rw [List.length_replicate]
  obtain ⟨s, hnew, -⟩ := new_ok dramBase hlen hspan.nr_lt
  have hinit : (pageSystem (List.replicate nrFrames default) dramBase nrFrames).init ⟨s, [], []⟩ :=
    ⟨hnew, rfl, rfl⟩
  obtain ⟨ht, hnr, hbase⟩ := tracked_new hspan hinit
  have htracks : Tracks s [] [] emptyMap := ht.tracks
  have hreserved : ∀ f, p ≤ f → f < p + 2 ^ k → (s.info f).state = .reserved := by
    intro f _ hf
    exact (htracks.refines.reserved_iff (hf.trans_le (hfit.trans hnr.ge))).mpr rfl
  obtain ⟨s₁, hs₁, ht₁, hsame⟩ := htracks.freeRange (hfit.trans hnr.ge) hreserved
  have hreach : (pageSystem (List.replicate nrFrames default) dramBase nrFrames).Reachable
      ⟨s₁, [], [(p, 2 ^ k)]⟩ :=
    (System.Reachable.init hinit).step (e := .freeRange p (2 ^ k))
      ⟨⟨hfit.trans hnr.ge, hreserved⟩, hs₁, rfl, rfl⟩
  obtain ⟨m', hm'⟩ := FrameMap.allocate_seedRange_block hal hk
  obtain ⟨s', hs', -, hspan', -⟩ := alloc_some ht₁.refines hm'
  have hnr' : s'.nrFrames = nrFrames := hspan'.nrFrames.trans (hsame.nrFrames.trans hnr)
  have hbase' : s'.dramBase = dramBase := hspan'.dramBase.trans (hsame.dramBase.trans hbase)
  have hpos := Nat.two_pow_pos k
  have hcall := allocPages_some (by rw [hnr', hbase']; exact hspan) hs' (by omega)
  rw [hbase'] at hcall
  exact ⟨_, s', hreach, hcall⟩

end PageRun

namespace HeapRun

open Slab Heap BuddyAllocator

private theorem exists_alloc (layout : AllocLayout) {dramBase nrFrames p : ℕ}
    (hspan : FrameSpan dramBase nrFrames) (hc : classOf layout = none)
    (hal : Aligned p (pagesOrder layout.size)) (hk : pagesOrder layout.size < maxOrder)
    (hfit : p + 2 ^ pagesOrder layout.size ≤ nrFrames) (hpa : frameAddr dramBase p < 2 ^ 47) :
    ∃ r h', (heapSystem (List.replicate nrFrames default) dramBase nrFrames).Reachable r ∧
      r.heap.alloc layout = .ok (some (frameAddr dramBase p + kernelLinearBase), h') := by
  obtain ⟨pr, s', hreach, hcall⟩ := PageRun.exists_allocPages hspan hal hk hfit
  have hinit : (heapSystem (List.replicate nrFrames default) dramBase nrFrames).init
      ⟨⟨emptyLists, none, fun _ => 0⟩, [], [], [], []⟩ := ⟨rfl, rfl, rfl, rfl, rfl⟩
  have hup : (heapSystem (List.replicate nrFrames default) dramBase nrFrames).Reachable
      ⟨⟨emptyLists, some pr.allocator, fun _ => 0⟩, [], [], pr.live, pr.given⟩ :=
    (System.Reachable.init hinit).step (e := .install) ⟨rfl, pr, hreach, rfl⟩
  refine ⟨_, ⟨emptyLists, some s', fun _ => 0⟩, hup, ?_⟩
  rw [Heap.alloc, show sizeClassIndex layout.size layout.align = none from hc]
  change Heap.largeAlloc _ _ = _
  rw [largeAlloc_some rfl hcall, paToLinearVa_ok hpa]
  rfl

/-- The block a misaligned request can get: the first one of the span, or the second. -/
theorem exists_misaligned {layout : AllocLayout} {dramBase : ℕ} (hfits : ¬ layout.Fits dramBase) :
    ∃ p, Aligned p (pagesOrder layout.size) ∧ p ≤ 2 ^ pagesOrder layout.size ∧
      ¬ layout.align ∣ frameAddr dramBase p := by
  simp only [AllocLayout.Fits, not_or, not_and] at hfits
  obtain ⟨halign, hbase, -⟩ := hfits
  by_cases hdvd : layout.align ∣ dramBase
  · refine ⟨2 ^ pagesOrder layout.size, dvd_refl _, le_rfl, fun hmis => ?_⟩
    have hblock : layout.align ∣ 2 ^ pagesOrder layout.size * pageSize :=
      (Nat.dvd_add_right hdvd).mp hmis
    obtain ⟨a, ha⟩ := layout.align_pow
    have ha12 : 12 < a := by
      rw [ha] at halign
      exact (Nat.pow_lt_pow_iff_right (by decide)).mp (Nat.lt_of_not_le halign)
    rw [ha, show pageSize = 2 ^ 12 from rfl, ← Nat.pow_add,
      Nat.pow_dvd_pow_iff_le_right (by decide)] at hblock
    rw [pow_le_pagesOrder layout.size_le ha12, ← ha] at hblock
    exact hbase hblock hdvd
  · refine ⟨0, dvd_zero _, Nat.zero_le _, ?_⟩
    rwa [frameAddr, Nat.zero_mul, Nat.add_zero]

private theorem classOf_none_of_align {layout : AllocLayout} (h : ¬ layout.align ≤ pageSize) :
    classOf layout = none := by
  cases hc : classOf layout with
  | none => rfl
  | some idx =>
      obtain ⟨hidx, -, hle⟩ := sizeClassIndex_some hc
      have hsize : ∀ i < nrClasses, classSize i ≤ pageSize := by decide
      exact absurd (hle.trans (hsize idx hidx)) h

private theorem exists_not_honours {dramBase : ℕ} (hbase : dramBase % pageSize = 0)
    (hroom : dramBase + 2 ^ 23 ≤ 2 ^ 46) {layout : AllocLayout} (hfits : ¬ layout.Fits dramBase) :
    ∃ nrFrames r, FrameSpan dramBase nrFrames ∧
      (heapSystem (List.replicate nrFrames default) dramBase nrFrames).Reachable r ∧
      ¬ r.Honours layout := by
  have hserved : ¬ layout.align ≤ pageSize ∧ ¬ 2 ^ 22 < layout.size := by
    simp only [AllocLayout.Fits, not_or] at hfits
    exact ⟨hfits.1, hfits.2.2⟩
  have hk : pagesOrder layout.size < maxOrder :=
    (pagesOrder_lt_maxOrder layout.size_le).mpr (Nat.le_of_not_lt hserved.2)
  have hpow : 2 ^ pagesOrder layout.size ≤ 2 ^ 10 :=
    Nat.pow_le_pow_right (by decide) (Nat.le_of_lt_succ hk)
  obtain ⟨p, hal, hp, hmis⟩ := exists_misaligned hfits
  have hspan : FrameSpan dramBase (2 * 2 ^ pagesOrder layout.size) := by
    refine ⟨by omega, hbase, ?_⟩
    simp only [pageSize]
    omega
  have hpa : frameAddr dramBase p < 2 ^ 46 := by
    simp only [frameAddr, pageSize]
    omega
  obtain ⟨r, h', hreach, hcall⟩ :=
    exists_alloc layout hspan (classOf_none_of_align hserved.1) hal hk
    (by omega) (by omega)
  refine ⟨_, r, hspan, hreach, fun hhon => hmis ?_⟩
  exact layout.align_dvd_of_linear hpa (Nat.dvd_of_mod_eq_zero (hhon _ _ hcall).1)

/-- Which layouts are honoured: those inside the condition in every reachable state, and where
the RAM base leaves room for the largest block in the linear window no others. -/
theorem honours_iff_fits (layout : AllocLayout) {dramBase : ℕ} (hbase : dramBase % pageSize = 0) :
    (layout.Fits dramBase → ∀ pages nrFrames r, FrameSpan dramBase nrFrames →
      (heapSystem pages dramBase nrFrames).Reachable r → r.Honours layout) ∧
    (dramBase + 2 ^ 23 ≤ 2 ^ 46 →
      (∀ pages nrFrames r, FrameSpan dramBase nrFrames →
        (heapSystem pages dramBase nrFrames).Reachable r → r.Honours layout) →
      layout.Fits dramBase) := by
  constructor
  · intro hfits pages nrFrames r hspan hreach
    exact honours_of_fits hspan hreach hfits
  · intro hroom hall
    by_contra hfits
    obtain ⟨nrFrames, r, hspan, hreach, hnot⟩ := exists_not_honours hbase hroom hfits
    exact hnot (hall _ _ _ hspan hreach)

def twoPageAligned : AllocLayout := ⟨8, 8192, by decide, ⟨13, rfl⟩, by decide⟩

theorem honours_iff_fits_twoPageAligned :
    ¬ twoPageAligned.Fits 0x40000000 ∧
      ¬ ∀ pages nrFrames r, FrameSpan 0x40000000 nrFrames →
        (heapSystem pages 0x40000000 nrFrames).Reachable r → r.Honours twoPageAligned :=
  ⟨by decide, fun hall =>
    absurd ((honours_iff_fits twoPageAligned (by decide)).2 (by decide) hall) (by decide)⟩

/-- On two frames, the second of them free, the request gets the second. -/
theorem alloc_misaligned :
    ∃ r h', (heapSystem (List.replicate 2 default) 0x40000000 2).Reachable r ∧
      r.heap.alloc twoPageAligned = .ok (some 0xFFFF800040001000, h') ∧
      0xFFFF800040001000 % twoPageAligned.align = 4096 := by
  have horder : pagesOrder twoPageAligned.size = 0 :=
    Nat.le_zero.mp ((pagesOrder_le_iff (by decide) 0).mpr (by decide))
  obtain ⟨r, h', hreach, hcall⟩ := exists_alloc twoPageAligned (p := 1)
    (show FrameSpan 0x40000000 2 from ⟨by decide, by decide, by decide⟩) rfl
    (by rw [horder]; exact one_dvd 1) (by rw [horder]; decide) (by rw [horder]; decide) (by decide)
  exact ⟨r, h', hreach, hcall, rfl⟩

end HeapRun

end Preon.Memory
