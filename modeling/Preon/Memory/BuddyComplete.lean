import Preon.Memory.BuddyCanonical

/-!
# No spurious out-of-memory

`alloc` looks at the heads of the free lists only.  On fully coalesced memory this is enough: an
aligned run of free frames lies inside one free block, so a request fails only if no run of its
size is free.
-/

namespace Preon.Memory

open Framework

namespace FrameMap

variable {nr : ℕ} {m m' : FrameMap}

private theorem NoFreeBuddies.exists_free (h : WellFormed nr m) (hn : NoFreeBuddies m) {q order : ℕ}
    (hal : Aligned q order) (ho : order < maxOrder) (hfree : ∀ f ∈ block q order, FreeAt m f) :
    ∃ p k, m.label p = .free k ∧ order ≤ k := by
  have hblocks : ∀ p k, m.label p = .free k → Aligned p k ∧ k ≤ maxOrder - 1 := by
    intro p k hp
    have hhead := h.shape.head p k (by rw [hp]; rfl)
    exact ⟨hhead.2.1, by omega⟩
  obtain ⟨p, k, hp, hsub⟩ := subset_block_of_covered hblocks
    (fun p k hk hp => hn p k (by omega) hp) hal (by omega : order ≤ maxOrder - 1) hfree
  exact ⟨p, k, hp, order_le_of_block_subset hsub⟩

theorem NoFreeBuddies.allocate_none_iff (h : WellFormed nr m) (hn : NoFreeBuddies m) (order : ℕ) :
    m.allocate order = none ↔
      maxOrder ≤ order ∨ ¬ ∃ q, Aligned q order ∧ ∀ f ∈ block q order, FreeAt m f := by
  rw [allocate_eq_none_iff]
  constructor
  · intro hfind
    by_cases ho : maxOrder ≤ order
    · exact .inl ho
    · apply Or.inr
      intro hrun
      obtain ⟨q, hal, hfree⟩ := hrun
      obtain ⟨p, k, hp, hk⟩ := hn.exists_free h hal (by omega) hfree
      have hmem : p ∈ m.queue k := (h.queued.mem_queue k p).mpr hp
      rw [findOrder_none hfind hk (h.queued.in_range p k hp).2] at hmem
      cases hmem
  · intro hcase
    cases hfind : m.findOrder order with
    | none => rfl
    | some k =>
        obtain ⟨hk, hlt, hne, -⟩ := findOrder_some hfind
        obtain ⟨p, rest, hq⟩ := List.exists_cons_of_ne_nil hne
        have hp := h.queued.label_of_cons hq
        have hal := (h.shape.head p k (by rw [hp]; rfl)).2.1
        have hpow := Nat.pow_le_pow_right (n := 2) (by decide) hk
        have hrun : ∃ q, Aligned q order ∧ ∀ f ∈ block q order, FreeAt m f := by
          refine ⟨p, hal.mono hk, fun f hf => ⟨p, k, hp, ?_⟩⟩
          rw [mem_block] at hf ⊢
          omega
        rcases hcase with ho | hnone
        · omega
        · exact absurd hrun hnone

/-! ## What is cut -/

private theorem split_free_iff (h : WellFormed nr m) {b k : ℕ} (hb : m.label b = .detached (k + 1))
    (q j : ℕ) : (m.split b k).label q = .free j ↔ m.label q = .free j ∨ q = b + 2 ^ k ∧ j = k := by
  have hpos := Nat.two_pow_pos k
  have hpow := Nat.pow_succ 2 k
  have hupper : m.label (b + 2 ^ k) = .tail :=
    h.shape.interior b (k + 1) _ (by rw [hb]; rfl) (by omega) (by omega)
  rw [split_label]
  by_cases hqu : q = b + 2 ^ k
  · subst hqu
    simp [hupper, eq_comm]
  · rw [setLabel_of_ne _ _ hqu]
    by_cases hqb : q = b
    · subst hqb
      simp [hb]
    · simp [setLabel_of_ne _ _ hqb, hqu]

private theorem splitDown_free_iff (h : WellFormed nr m) (order : ℕ) {b k : ℕ}
    (hb : m.label b = .detached k) (q j : ℕ) :
    (splitDown order b k m).label q = .free j ↔
      m.label q = .free j ∨ order ≤ j ∧ j < k ∧ q = b + 2 ^ j := by
  induction k generalizing m with
  | zero => simp [splitDown]
  | succ k ih =>
      rw [splitDown]
      split
      · next hlt =>
          have hs := split_spec h hb
          rw [ih hs.wellFormed hs.label, split_free_iff h hb, or_assoc]
          apply or_congr_right
          constructor
          · intro hcase
            rcases hcase with ⟨hq, hj⟩ | ⟨ho, hj, hq⟩
            · exact ⟨by omega, by omega, by rw [hj]; exact hq⟩
            · exact ⟨ho, by omega, hq⟩
          · intro hcase
            obtain ⟨ho, hj, hq⟩ := hcase
            rcases Nat.lt_succ_iff_lt_or_eq.mp hj with hlt' | rfl
            · exact .inr ⟨ho, hlt', hq⟩
            · exact .inl ⟨hq, rfl⟩
      · simp only [iff_self_or]
        omega

/-- Allocation takes the lowest frames of a block of the smallest sufficient order and frees the
upper halves. -/
theorem allocate_cut (h : WellFormed nr m) {order b : ℕ} (ha : m.allocate order = some (b, m')) :
    ∃ k, m.label b = .free k ∧ order ≤ k ∧ (∀ q j, m.label q = .free j → order ≤ j → k ≤ j) ∧
      m'.label b = .allocated order ∧
      ∀ q j, m'.label q = .free j ↔
        m.label q = .free j ∧ q ≠ b ∨ order ≤ j ∧ j < k ∧ q = b + 2 ^ j := by
  obtain ⟨k, rest, hfind, hq, rfl⟩ := allocate_eq_some ha
  obtain ⟨hk, -, -, hempty⟩ := findOrder_some hfind
  have hb := h.queued.label_of_cons hq
  have hbt := take_label_self m k b
  refine ⟨k, hb, hk, ?_, setLabel_self .., ?_⟩
  · intro q j hfree hj
    by_contra hlt
    have hmem : q ∈ m.queue j := (h.queued.mem_queue j q).mpr hfree
    rw [hempty j hj (by omega)] at hmem
    cases hmem
  · intro q j
    have htake : (m.take k b).label q = setLabel m.label b (.detached k) q := rfl
    rw [relabel_label]
    by_cases hqb : q = b
    · subst hqb
      simp
    · rw [setLabel_of_ne _ _ hqb, splitDown_free_iff (h.take hb) order hbt, htake,
        setLabel_of_ne _ _ hqb]
      simp [hqb]

end FrameMap

namespace BuddyRun

open BuddyAllocator

/-- `r'` is `r` with the lowest `2 ^ order` frames of the free block of order `k` at `p` taken: `k`
is the smallest order that has a free block of sufficient size, and the rest of the block is free
in halves. -/
structure CutLowest (r r' : BuddyRun) (p order k : ℕ) : Prop where
  wasFree : r.FreeBlock p k
  sufficient : order ≤ k
  smallest : ∀ q j, r.FreeBlock q j → order ≤ j → k ≤ j
  taken : (r'.allocator.info p).state = .allocated ∧ (r'.allocator.info p).order = order
  freeFrames : r'.allocator.freeFrameSet = r.allocator.freeFrameSet \ block p order
  freeBlocks : ∀ q j, r'.FreeBlock q j ↔
    r.FreeBlock q j ∧ q ≠ p ∨ order ≤ j ∧ j < k ∧ q = p + 2 ^ j

private theorem Tracked.cutLowest {r r' : BuddyRun} {m m' : FrameMap} (h : r.Tracked m)
    (h' : r'.Tracked m')
    {order p : ℕ} (ha : m.allocate order = some (p, m')) : ∃ k, CutLowest r r' p order k := by
  have hspec := FrameMap.allocate_spec h.refines.wellFormed h.refines.atRest ha
  obtain ⟨k, hp, hk, hsmall, htaken, hblocks⟩ := FrameMap.allocate_cut h.refines.wellFormed ha
  have hhead : (m'.label p).headOrder = some order := by rw [htaken]; rfl
  have hlt := h'.refines.wellFormed.shape.lt_of_head hhead
  refine ⟨k, (h.freeBlock_iff p k).mpr hp, hk, ?_, (h'.refines.allocated_iff hlt order).mpr htaken,
    ?_, ?_⟩
  · intro q j hq
    exact hsmall q j ((h.freeBlock_iff q j).mp hq)
  · ext f
    rw [Finset.mem_sdiff, h'.refines.mem_freeFrameSet, h.refines.mem_freeFrameSet, hspec.freeAt]
  · intro q j
    rw [h'.freeBlock_iff, h.freeBlock_iff, hblocks]

/-- In every state reached from separated ranges `alloc` returns; it fails exactly if the order is
too large or no aligned run of that size is free, and then nothing changes; otherwise it takes the
lowest frames of a free block of the smallest sufficient order. -/
theorem alloc_complete {pages : List PageInfo} {dramBase nrFrames : ℕ} {r : BuddyRun}
    (hlt : nrFrames < 2 ^ 32) (h : (buddySystem pages dramBase nrFrames).Reachable r)
    (hsep : r.given.Pairwise Separated) (order : ℕ) :
    ∃ result s', r.allocator.alloc order = .ok (result, s') ∧
      (result = none ↔ maxOrder ≤ order ∨
        ¬ ∃ p, p % 2 ^ order = 0 ∧
          ∀ f, p ≤ f → f < p + 2 ^ order → f ∈ r.allocator.freeFrameSet) ∧
      (result = none → s' = r.allocator) ∧
      ∀ p, result = some p → ∃ k, CutLowest r ⟨s', (p, order) :: r.live, r.given⟩ p order k := by
  obtain ⟨m, ht, hn⟩ := noFreeBuddies_of_reachable hlt h
  have hnone := (hn hsep).allocate_none_iff ht.refines.wellFormed order
  have hruns : (∃ q, Aligned q order ∧ ∀ f ∈ block q order, FrameMap.FreeAt m f) ↔
      ∃ p, p % 2 ^ order = 0 ∧ ∀ f, p ≤ f → f < p + 2 ^ order → f ∈ r.allocator.freeFrameSet := by
    simp only [aligned_iff_mod, mem_block, ht.refines.mem_freeFrameSet, and_imp]
  rw [hruns] at hnone
  rcases Tracks.alloc ht order with ⟨ha, hs⟩ | ⟨p, m', s', ha, hs, ht', -⟩
  · refine ⟨none, r.allocator, hs, ?_, fun _ => rfl, by simp⟩
    exact ⟨fun _ => hnone.mp ha, fun _ => rfl⟩
  · refine ⟨some p, s', hs, ?_, by simp, ?_⟩
    · rw [← hnone, ha]
      simp
    · intro q hq
      obtain rfl := Option.some.inj hq
      have htracked : BuddyRun.Tracked ⟨s', (p, order) :: r.live, r.given⟩ m' := ht'
      exact ht.cutLowest htracked ha

/-- One frame out of the six: it is cut from the block at frame 4, the only one of order zero. -/
theorem alloc_complete_sixFrames :
    ∃ s' k, sixFrames.allocator.alloc 0 = .ok (some 4, s') ∧
      CutLowest sixFrames ⟨s', [(4, 0), (0, 1)], [(0, 5)]⟩ 4 0 k := by
  obtain ⟨result, s', hok, -, -, hcut⟩ :=
    alloc_complete (by decide) sixFrames_reachable (List.pairwise_singleton ..) 0
  have hfour : result = some 4 := by
    have hrun : (sixFrames.allocator.alloc 0).map Prod.fst = .ok (some 4) := by decide
    rw [hok] at hrun
    exact Except.ok.inj hrun
  obtain ⟨k, hk⟩ := hcut 4 hfour
  exact ⟨s', k, by rw [hok, hfour], hk⟩

end BuddyRun

end Preon.Memory
