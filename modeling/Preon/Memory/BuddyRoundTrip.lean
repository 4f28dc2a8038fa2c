import Preon.Memory.BuddyCanonical

/-!
# `free` undoes `alloc`

A merge inverts a split, so the merge loop retraces the split loop and stops where it began.  The
frame map is then the one before the allocation, and two mem-maps that represent one frame map have
the same lists, links included.
-/

namespace Preon.Memory

open Framework

namespace FrameMap

variable {nr : ℕ} {m m' : FrameMap}

private theorem lower_xor {b k : ℕ} (h : Aligned b (k + 1)) : b ^^^ 2 ^ k = b + 2 ^ k := by
  have hx := congrArg (· ^^^ 2 ^ k) (upper_xor h)
  simp only [Nat.xor_assoc, Nat.xor_self, Nat.xor_zero] at hx
  exact hx.symm

private theorem mergeStep_split (h : WellFormed nr m) {b k : ℕ}
    (hb : m.label b = .detached (k + 1)) :
    (m.split b k).mergeStep b k = m := by
  have hpos := Nat.two_pow_pos k
  have hpow := Nat.pow_succ 2 k
  have hhead : (m.label b).headOrder = some (k + 1) := by rw [hb]; rfl
  have hupper := h.shape.interior b (k + 1) (b + 2 ^ k) hhead (by omega) (by omega)
  rw [mergeStep, lower_xor (h.shape.head b (k + 1) hhead).2.1, FrameMap.join,
    Nat.max_eq_right (by omega), Nat.min_eq_left (by omega)]
  apply eq_of_fields
  · intro f
    by_cases hfb : f = b
    · rw [hfb, relabel_label, setLabel_self, hb]
    · rw [relabel_label, setLabel_of_ne _ _ hfb, relabel_label]
      by_cases hfu : f = b + 2 ^ k
      · rw [hfu, setLabel_self, hupper]
      · change setLabel (setLabel _ _ _) _ _ f = _
        rw [setLabel_of_ne _ _ hfu, setLabel_of_ne _ _ hfu, split_label, setLabel_of_ne _ _ hfu,
          setLabel_of_ne _ _ hfb]
  · intro j
    simp only [relabel_queue, take, split, push, setQueue_queue]
    by_cases hj : j = k
    · simp [hj]
    · simp [hj]

private theorem coalesce_splitDown (h : WellFormed nr m) (order rounds : ℕ) {b k : ℕ}
    (hb : m.label b = .detached k) (hk : order ≤ k) :
    coalesce nr (rounds + (k - order))
      (splitDown order b k m) b order = coalesce nr rounds m b k := by
  induction k generalizing m rounds with
  | zero =>
      obtain rfl : order = 0 := by omega
      rfl
  | succ k ih =>
      rw [splitDown]
      split
      · next hlt =>
          have hs := split_spec h hb
          have hhead : (m.label b).headOrder = some (k + 1) := by rw [hb]; rfl
          obtain ⟨-, hal, hfit⟩ := h.shape.head b (k + 1) hhead
          have hpos := Nat.two_pow_pos k
          have hpow := Nat.pow_succ 2 k
          have hrounds : rounds + (k + 1 - order) = rounds + 1 + (k - order) := by omega
          have hfree : (m.split b k).label (b + 2 ^ k) = .free k := by
            rw [split_label, setLabel_self]
          have hmerge := mergeStep_split h hb
          rw [hrounds, ih hs.wellFormed (rounds + 1) hs.label (by omega), coalesce, lower_xor hal,
            if_pos ⟨by omega, hfree⟩, Nat.min_eq_left (by omega)]
          rw [mergeStep, lower_xor hal] at hmerge
          rw [hmerge]
      · obtain rfl : order = k + 1 := by omega
        rw [Nat.sub_self, Nat.add_zero]

private theorem take_push {b k : ℕ} {rest : List ℕ} (hb : m.label b = .free k)
    (hq : m.queue k = b :: rest) :
    (m.take k b).push k b = m := by
  apply eq_of_fields
  · intro f
    change setLabel (setLabel m.label b _) b _ f = _
    by_cases hfb : f = b
    · rw [hfb, setLabel_self, hb]
    · rw [setLabel_of_ne _ _ hfb, setLabel_of_ne _ _ hfb]
  · intro j
    simp only [take, push, relabel_queue, setQueue_queue]
    by_cases hj : j = k
    · simp [hj, hq]
    · simp [hj]

private theorem release_allocate (h : WellFormed nr m) (hn : NoFreeBuddies m) {order b : ℕ}
    (ha : m.allocate order = some (b, m')) : m'.release nr b order = m := by
  obtain ⟨k, rest, hfind, hq, rfl⟩ := allocate_eq_some ha
  obtain ⟨hk, hkmax, -, -⟩ := findOrder_some hfind
  have hb := h.queued.label_of_cons hq
  have hbt := take_label_self m k b
  have hs := splitDown_spec (h.take hb) hbt hk
  have hstart : (((splitDown order b k (m.take k b)).relabel b (.allocated order)).relabel b
      (.detached order)) = splitDown order b k (m.take k b) := by
    apply eq_of_fields
    · intro f
      rw [relabel_label, relabel_label]
      by_cases hfb : f = b
      · rw [hfb, setLabel_self, hs.label]
      · rw [setLabel_of_ne _ _ hfb, setLabel_of_ne _ _ hfb]
    · exact fun _ => rfl
  have hrounds : maxOrder - 1 - order = (maxOrder - 1 - k) + (k - order) := by omega
  -- at the original block the loop stops: it is of the top order, or its buddy is not free
  have hstop : coalesce nr (maxOrder - 1 - k) (m.take k b) b k = (m.take k b, b, k) := by
    cases hr : maxOrder - 1 - k with
    | zero => rfl
    | succ rounds =>
        have hal := (h.shape.head b k (by rw [hb]; rfl)).2.1
        have hbuddy : (m.take k b).label (b ^^^ 2 ^ k) = m.label (b ^^^ 2 ^ k) :=
          setLabel_of_ne _ _ hal.xor_ne
        rw [coalesce, if_neg]
        intro hcond
        rw [hbuddy] at hcond
        exact hn b k (by omega) hb hcond.2
  rw [release, hstart, hrounds, coalesce_splitDown (h.take hb) order _ hbt hk, hstop]
  exact take_push hb hq

private theorem Allocated.kept (h : WellFormed nr m) {order b : ℕ}
    (ha : Allocated nr order b m m') :
    Kept m (m'.relabel b (.detached order)) := by
  have hfree := ha.wasFree b (start_mem_block b order)
  have hnot : ∀ j, m.label b ≠ .allocated j := by
    intro j hj
    exact h.not_freeAt (by rw [hj]; rfl) (by simp [hj]) (start_mem_block b j) hfree
  have hres : m.label b ≠ .reserved := by
    obtain ⟨p, k, hp, hmem⟩ := hfree
    exact h.shape.ne_reserved_of_mem (by rw [hp]; rfl) hmem
  constructor
  · intro q j
    rw [relabel_label]
    by_cases hq : q = b
    · simp [hq, hnot]
    · rw [setLabel_of_ne _ _ hq, ha.allocated]
      simp [hq]
  · intro q
    rw [relabel_label]
    by_cases hq : q = b
    · simp [hq, hres]
    · rw [setLabel_of_ne _ _ hq, ha.reserved]

end FrameMap

namespace BuddyAllocator

variable {s s' : BuddyAllocator} {m : FrameMap}

/-! ## Every consistent mem-map represents a frame map -/

/-- The label that a descriptor spells out. -/
def labelOf (s : BuddyAllocator) (p : ℕ) : Label :=
  if p < s.nrFrames then
    match (s.info p).state with
    | .reserved => .reserved
    | .free => .free (s.info p).order
    | .allocated => .allocated (s.info p).order
    | .tail => .tail
  else .reserved

/-- The sizes that the types of the allocator fix: frame numbers stay below the sentinel, every
frame has a descriptor and every order a list head. -/
structure Sized (s : BuddyAllocator) : Prop where
  nr_lt : s.nrFrames < 2 ^ 32
  pages_le : s.nrFrames ≤ s.pages.length
  area_length : s.freeArea.length = maxOrder

private theorem describes_labelOf {p : ℕ} (hp : p < s.nrFrames) :
    Describes (s.info p) (s.labelOf p) := by
  rw [labelOf, if_pos hp]
  cases hstate : (s.info p).state <;> simp [Describes, hstate]

private theorem labelOf_free_iff (p k : ℕ) : s.labelOf p = .free k ↔
    p < s.nrFrames ∧ (s.info p).state = .free ∧ (s.info p).order = k := by
  rw [labelOf]
  by_cases hp : p < s.nrFrames
  · cases hstate : (s.info p).state <;> simp [hp]
  · simp [hp]

private theorem headOrder_labelOf_iff (p k : ℕ) :
    (s.labelOf p).headOrder = some k ↔ s.IsBlock p k := by
  rw [labelOf, IsBlock, PageInfo.isHead]
  by_cases hp : p < s.nrFrames
  · cases hstate : (s.info p).state <;> simp [hp, Label.headOrder]
  · simp [hp, Label.headOrder]

private theorem labelOf_tail_iff (p : ℕ) :
    s.labelOf p = .tail ↔ p < s.nrFrames ∧ (s.info p).state = .tail := by
  rw [labelOf]
  by_cases hp : p < s.nrFrames
  · cases hstate : (s.info p).state <;> simp [hp]
  · simp [hp]

private theorem labelOf_ne_detached (p k : ℕ) : s.labelOf p ≠ .detached k := by
  rw [labelOf]
  split
  · cases (s.info p).state <;> simp
  · simp

private theorem RepresentationInvariant.shape (h : RepresentationInvariant s) :
    Shape s.nrFrames s.labelOf := by
  constructor
  · intro f hf
    rw [labelOf, if_neg (by omega)]
  · intro p k hp
    obtain ⟨hk, hal, hfit⟩ := h.heads p k ((headOrder_labelOf_iff p k).mp hp)
    exact ⟨hk, aligned_iff_mod.mpr hal, hfit⟩
  · intro p k f hp hpf hf
    have hblock := (headOrder_labelOf_iff p k).mp hp
    have hfit := (h.heads p k hblock).2.2
    rw [labelOf_tail_iff]
    exact ⟨by omega, h.tails p k f hblock (by rw [mem_block]; omega) (by omega)⟩
  · intro f hf
    obtain ⟨hlt, hstate⟩ := (labelOf_tail_iff f).mp hf
    obtain ⟨p, k, hblock, hmem⟩ := (h.covers f hlt).mpr (by simp [hstate])
    exact ⟨p, k, (headOrder_labelOf_iff p k).mpr hblock, hmem⟩

private theorem RepresentationInvariant.refines (h : RepresentationInvariant s) (hs : Sized s) :
    ∃ m, Refines s m := by
  choose nodes hnodup hlinked hmem _ using h.lists
  let m : FrameMap := ⟨s.labelOf, fun k => if hk : k < maxOrder then nodes k hk else []⟩
  have hqueue (k : ℕ) (hk : k < maxOrder) : m.queue k = nodes k hk := dif_pos hk
  have hout (k : ℕ) (hk : ¬ k < maxOrder) : m.queue k = [] := dif_neg hk
  have hfree (p k : ℕ) (hp : s.labelOf p = .free k) : p < s.nrFrames ∧ k < maxOrder := by
    have hblock : s.IsBlock p k := (headOrder_labelOf_iff p k).mp (by rw [hp]; rfl)
    exact ⟨hblock.1, (h.heads p k hblock).1⟩
  have hrep : Represents s m := by
    refine ⟨hs.nr_lt, hs.pages_le, hs.area_length, fun p hp => describes_labelOf hp, ?_⟩
    intro k hk
    rw [hqueue k hk]
    exact hlinked k hk
  have hwf : FrameMap.WellFormed s.nrFrames m := by
    refine ⟨h.shape, ?_, ?_, hfree⟩
    · intro k
      by_cases hk : k < maxOrder
      · rw [hqueue k hk]
        exact hnodup k hk
      · rw [hout k hk]
        exact List.nodup_nil
    · intro k p
      by_cases hk : k < maxOrder
      · rw [hqueue k hk, hmem k hk, ← labelOf_free_iff]
      · rw [hout k hk]
        simp only [List.not_mem_nil, false_iff]
        exact fun hp => hk (hfree p k hp).2
  have hrest : FrameMap.AtRest m := labelOf_ne_detached
  -- the counter plays no part in what the map says, so its own count is the sum over the heads
  have hcard :=
    Refines.counted_eq_sum (s := { s with freeFrames := (FrameMap.freeSet s.nrFrames m).card })
    ⟨hrep.withFreeFrames _, hwf, hrest, rfl⟩
  exact ⟨m, hrep, hwf, hrest, h.counted.trans hcard.symm⟩

/-! ## One frame map, one set of lists -/

private theorem Represents.area_eq (h : Represents s m) (h' : Represents s' m) {k : ℕ}
    (hk : k < maxOrder) :
    s'.area k = s.area k := by
  rw [(h.linked k hk).head_eq, (h'.linked k hk).head_eq]

private theorem Represents.freeArea_eq (h : Represents s m) (h' : Represents s' m) :
    s'.freeArea = s.freeArea := by
  have hlen : s'.freeArea.length = s.freeArea.length := h'.area_length.trans h.area_length.symm
  apply List.ext_getElem hlen
  intro k hk' hk
  have harea := h.area_eq h' (k := k) (by rw [← h.area_length]; exact hk)
  rw [area, area, List.getD_eq_getElem _ _ hk', List.getD_eq_getElem _ _ hk] at harea
  exact harea

private theorem Represents.free_info_eq (h : Represents s m) (h' : Represents s' m)
    (hq : FrameMap.Queued s.nrFrames m) (hnr : s'.nrFrames = s.nrFrames) {p k : ℕ}
    (hp : m.label p = .free k) : s'.info p = s.info p := by
  obtain ⟨hpn, hk⟩ := hq.in_range p k hp
  have hmem : p ∈ m.queue k := (hq.mem_queue k p).mpr hp
  have hpage := h.page p hpn
  have hpage' := h'.page p (by rw [hnr]; exact hpn)
  rw [hp] at hpage hpage'
  obtain ⟨hnext, hprev⟩ := (h'.linked k hk).links_eq (h.linked k hk) hmem
  exact info_eq_of_links (hpage'.1.trans hpage.1.symm) (hpage'.2.trans hpage.2.symm) hnext hprev

/-! ## The round trip -/

/-- Everything that is ever read is as it was: only the order and the links of tails may differ. -/
structure Restored (s s' : BuddyAllocator) : Prop where
  frames : SameFrames s s'
  freeArea : s'.freeArea = s.freeArea
  pages_length : s'.pages.length = s.pages.length
  state : ∀ f, (s'.info f).state = (s.info f).state
  page : ∀ f, (f < s.nrFrames → (s.info f).state ≠ .tail) → s'.info f = s.info f

private theorem Refines.restored (h : Refines s m) (h' : Refines s' m) (hspan : SameSpan s s')
    (hcount : s'.freeFrames = s.freeFrames) (hz : Frozen m s s') : Restored s s' := by
  have hnr := hspan.nrFrames
  have hpage (f : ℕ) (hf : f < s.nrFrames → (s.info f).state ≠ .tail) : s'.info f = s.info f := by
    cases hl : m.label f with
    | reserved => exact hz.page f (fun hp => hp.1 hl)
    | allocated k => exact hz.page f (fun hp => hp.2 k hl)
    | free k => exact h.represents.free_info_eq h'.represents h.wellFormed.queued hnr hl
    | detached k => exact absurd hl (h.atRest f k)
    | tail =>
        have hlt : f < s.nrFrames := by
          by_contra hge
          rw [h.wellFormed.shape.outside f (by omega)] at hl
          cases hl
        exact absurd ((h.tail_iff hlt).mpr hl) (hf hlt)
  refine ⟨⟨hnr, hspan.dramBase, hcount⟩, h.represents.freeArea_eq h'.represents,
    hz.pages_length, ?_,
    hpage⟩
  intro f
  by_cases hf : f < s.nrFrames ∧ (s.info f).state = .tail
  · rw [hf.2, h'.tail_iff (by rw [hnr]; exact hf.1), ← h.tail_iff hf.1, hf.2]
  · rw [hpage f (fun hlt hs => hf ⟨hlt, hs⟩)]

/-- From every consistent mem-map without free buddies below the top order, `free` right after
`alloc` restores the lists with their links, the counter, every state and every descriptor but those
of tails. -/
theorem free_alloc_restores (hs : Sized s) (hinv : RepresentationInvariant s)
    (hbuddies : ∀ p k, k < maxOrder - 1 →
      p < s.nrFrames → (s.info p).state = .free → (s.info p).order = k →
      ¬ (p ^^^ 2 ^ k < s.nrFrames ∧ (s.info (p ^^^ 2 ^ k)).state = .free ∧
        (s.info (p ^^^ 2 ^ k)).order = k))
    {order p : ℕ} {s₁ : BuddyAllocator} (hp : s.alloc order = .ok (some p, s₁)) :
    ∃ s₂, s₁.free p order = .ok s₂ ∧ Restored s s₂ := by
  obtain ⟨m, h⟩ := hinv.refines hs
  have hn : FrameMap.NoFreeBuddies m := by
    intro q k hk hq hb
    have hqn := (h.wellFormed.queued.in_range q k hq).1
    have hbn := (h.wellFormed.queued.in_range _ k hb).1
    obtain ⟨hstate, horder⟩ := (h.free_iff hqn k).mpr hq
    exact hbuddies q k (by omega) hqn hstate horder ⟨hbn, (h.free_iff hbn k).mpr hb⟩
  cases ha : m.allocate order with
  | none =>
      rw [alloc_none h.represents ha] at hp
      cases hp
  | some r =>
      obtain ⟨b, m₁⟩ := r
      obtain ⟨s₁', hs₁, h₁, hspan₁, hcount₁, hz₁⟩ := alloc_some h ha
      rw [hs₁] at hp
      obtain ⟨rfl, rfl⟩ : b = p ∧ s₁' = s₁ := by simpa using hp
      have hspec := FrameMap.allocate_spec h.wellFormed h.atRest ha
      have hlive : m₁.label b = .allocated order := (hspec.allocated b order).mpr (.inr ⟨rfl, rfl⟩)
      obtain ⟨s₂, hs₂, h₂, hspan₂, hcount₂, hz₂⟩ := free_ok h₁ hlive
      rw [hspan₁.nrFrames, FrameMap.release_allocate h.wellFormed hn ha] at h₂
      have hz : Frozen m s s₂ := hz₁.trans (hz₂.of_kept (hspec.kept h.wellFormed))
      refine ⟨s₂, hs₂, h.restored h₂ ?_ (by omega) hz⟩
      exact ⟨hspan₂.nrFrames.trans hspan₁.nrFrames, hspan₂.dramBase.trans hspan₁.dramBase⟩

end BuddyAllocator

namespace BuddyRun

open BuddyAllocator

def fourFrames : BuddyRun where
  allocator :=
    { pages := [⟨rawNone, rawNone, 2, .free⟩, ⟨rawNone, rawNone, 0, .tail⟩,
        ⟨rawNone, rawNone, 0, .tail⟩, ⟨rawNone, rawNone, 0, .tail⟩]
      dramBase := 0x40000000
      nrFrames := 4
      freeArea := [none, none, some 0, none, none, none, none, none, none, none, none]
      freeFrames := 4 }
  live := []
  given := [(0, 4)]

private theorem fourFrames_reachable :
    (buddySystem (List.replicate 4 default) 0x40000000 4).Reachable fourFrames := by
  let reserved : BuddyRun :=
    ⟨⟨List.replicate 4 (PageInfo.markReserved default), 0x40000000, 4,
      List.replicate maxOrder none, 0⟩,
      [], []⟩
  have hinit : (buddySystem (List.replicate 4 default) 0x40000000 4).init reserved :=
    ⟨rfl, rfl, rfl⟩
  have hstate : ∀ f < 4, (reserved.allocator.info f).state = .reserved := by decide
  have hgive : BuddyOp.Legal reserved (.freeRange 0 4) := ⟨by decide, fun f _ hf => hstate f hf⟩
  exact (System.Reachable.init hinit).step (e := .freeRange 0 4) ⟨hgive, rfl⟩

/-- One frame out of the block of four: two splits, and two merges back. -/
theorem free_alloc_restores_fourFrames :
    ∃ s₁ s₂, fourFrames.allocator.alloc 0 = .ok (some 0, s₁) ∧ s₁.free 0 0 = .ok s₂ ∧
      Restored fourFrames.allocator s₂ := by
  obtain ⟨⟨m, ht⟩, -⟩ := tracked_of_reachable (by decide) fourFrames_reachable
  have hbuddies : ∀ p < 4, (fourFrames.allocator.info p).state = .free →
      (fourFrames.allocator.info (p ^^^ 2 ^ (fourFrames.allocator.info p).order)).state ≠
        .free := by
    decide
  have hrun : (fourFrames.allocator.alloc 0).map Prod.fst = .ok (some 0) := by decide
  cases halloc : fourFrames.allocator.alloc 0 with
  | error e =>
      rw [halloc] at hrun
      cases hrun
  | ok r =>
      obtain ⟨result, s₁⟩ := r
      rw [halloc] at hrun
      obtain rfl : result = some 0 := Except.ok.inj hrun
      obtain ⟨s₂, hs₂, hrestored⟩ := free_alloc_restores ⟨by decide, by decide, by decide⟩
        ht.refines.representationInvariant
        (fun p k _ hp hstate horder hbuddy =>
          hbuddies p hp hstate (by rw [horder]; exact hbuddy.2.1))
        halloc
      exact ⟨s₁, s₂, rfl, hs₂, hrestored⟩

end BuddyRun

end Preon.Memory
