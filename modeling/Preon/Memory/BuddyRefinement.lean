import Mathlib.Data.List.Find
import Preon.Memory.BuddyLinks

/-!
# The buddy allocator refines allocation on frame maps

Every operation, called as its callers promise, returns without a panic and does to the mem-map
what its counterpart does to the frame map it represents.
-/

namespace Preon.Memory

open Framework

namespace FrameMap

variable {nr : ℕ} {m : FrameMap}

open Classical in
/-- The free frames among the first `nr`. -/
noncomputable def freeSet (nr : ℕ) (m : FrameMap) : Finset ℕ := (Finset.range nr).filter m.FreeAt

private theorem WellFormed.lt_of_freeAt (h : WellFormed nr m) {f : ℕ} (hf : FreeAt m f) :
    f < nr := by
  obtain ⟨p, k, hp, hm⟩ := hf
  have := (h.shape.head p k (by rw [hp]; rfl)).2.2
  rw [mem_block] at hm
  omega

theorem WellFormed.mem_freeSet (h : WellFormed nr m) {f : ℕ} : f ∈ freeSet nr m ↔ FreeAt m f := by
  simp only [freeSet, Finset.mem_filter, Finset.mem_range, and_iff_right_iff_imp]
  exact h.lt_of_freeAt

theorem card_freeSet_le (nr : ℕ) (m : FrameMap) : (freeSet nr m).card ≤ nr := by
  classical
  exact (Finset.card_filter_le ..).trans_eq (Finset.card_range nr)

private theorem Allocated.card {order b : ℕ} {m' : FrameMap} (h : WellFormed nr m)
    (ha : Allocated nr order b m m') :
    (freeSet nr m').card + 2 ^ order = (freeSet nr m).card := by
  have hsub : block b order ⊆ freeSet nr m := fun f hf => h.mem_freeSet.mpr (ha.wasFree f hf)
  have heq : freeSet nr m' = freeSet nr m \ block b order := by
    ext f
    rw [Finset.mem_sdiff, ha.wellFormed.mem_freeSet, h.mem_freeSet, ha.freeAt]
  rw [heq, ← card_block b order, Finset.card_sdiff_add_card_eq_card hsub]

private theorem card_freeSet_of_gain {m' : FrameMap} (h : WellFormed nr m) (h' : WellFormed nr m')
    {b k : ℕ} (hnew : ∀ f ∈ block b k, ¬ FreeAt m f)
    (hfree : ∀ f, FreeAt m' f ↔ FreeAt m f ∨ f ∈ block b k) :
    (freeSet nr m').card = (freeSet nr m).card + 2 ^ k := by
  have heq : freeSet nr m' = freeSet nr m ∪ block b k := by
    ext f
    rw [Finset.mem_union, h'.mem_freeSet, h.mem_freeSet, hfree]
  have hdisj : Disjoint (freeSet nr m) (block b k) := by
    rw [Finset.disjoint_right]
    exact fun f hf hm => hnew f hf (h.mem_freeSet.mp hm)
  rw [heq, Finset.card_union_of_disjoint hdisj, card_block]

/-! ## Seeding a range -/

/-- The order that `max_order_at` picks. -/
def greedyOrder (pfn remaining : ℕ) : ℕ :=
  min (min (trailingZeros 32 pfn) (maxOrder - 1)) (min (Nat.log 2 remaining) (maxOrder - 1))

theorem greedyOrder_spec {pfn stop : ℕ} (h : pfn < stop) :
    GreedyOrder (maxOrder - 1) stop pfn (greedyOrder pfn (stop - pfn)) := by
  have hcap : maxOrder - 1 ≤ 32 := by decide
  constructor
  · exact (le_trailingZeros_iff ((Nat.min_le_left ..).trans ((Nat.min_le_right ..).trans hcap))).mp
      ((Nat.min_le_left ..).trans (Nat.min_le_left ..))
  · exact (Nat.min_le_left ..).trans (Nat.min_le_right ..)
  · have hle : greedyOrder pfn (stop - pfn) ≤ Nat.log 2 (stop - pfn) :=
      (Nat.min_le_right ..).trans (Nat.min_le_left ..)
    have := Nat.pow_le_of_le_log (by omega) hle
    omega
  · intro j hj hjc hfit
    have hlog : j ≤ Nat.log 2 (stop - pfn) := Nat.le_log_of_pow_le (by decide) (by omega)
    have htz : j ≤ trailingZeros 32 pfn := (le_trailingZeros_iff (hjc.trans hcap)).mpr hj
    simp only [greedyOrder, Nat.le_min]
    exact ⟨⟨htz, hjc⟩, hlog, hjc⟩

def seedRange (stop : ℕ) : ℕ → FrameMap → ℕ → FrameMap
  | 0, m, _ => m
  | fuel + 1, m, pfn =>
      if pfn < stop then
        seedRange stop fuel
          ((m.claim pfn (greedyOrder pfn (stop - pfn))).push (greedyOrder pfn (stop - pfn)) pfn)
          (pfn + 2 ^ greedyOrder pfn (stop - pfn))
      else m

structure SeededRange (nr start stop : ℕ) (m m' : FrameMap) : Prop where
  wellFormed : WellFormed nr m'
  atRest : AtRest m'
  freeAt : ∀ f, FreeAt m' f ↔ FreeAt m f ∨ start ≤ f ∧ f < stop
  allocated : ∀ q j, m'.label q = .allocated j ↔ m.label q = .allocated j
  reserved : ∀ q, m'.label q = .reserved ↔ m.label q = .reserved ∧ ¬ (start ≤ q ∧ q < stop)

private theorem SeededRange.empty (h : WellFormed nr m) (hrest : AtRest m) {start stop : ℕ}
    (hle : stop ≤ start) : SeededRange nr start stop m m := by
  have hnone (f : ℕ) : ¬ (start ≤ f ∧ f < stop) := by omega
  exact ⟨h, hrest, fun f => by simp [hnone], fun _ _ => Iff.rfl, fun q => by simp [hnone]⟩

theorem seedStep_spec (h : WellFormed nr m) (hrest : AtRest m) {pfn stop : ℕ} (hlt : pfn < stop)
    (hstop : stop ≤ nr) (hres : ∀ f, pfn ≤ f → f < stop → m.label f = .reserved) :
    Seeded nr pfn (greedyOrder pfn (stop - pfn)) m
      ((m.claim pfn (greedyOrder pfn (stop - pfn))).push (greedyOrder pfn (stop - pfn)) pfn) := by
  have hg := greedyOrder_spec hlt
  have hfits := hg.fits
  have hle := hg.order_le
  have hcap : maxOrder - 1 < maxOrder := by decide
  apply seed_spec h hrest _ hg.aligned (by omega) (by omega)
  intro f hf
  rw [mem_block] at hf
  exact hres f hf.1 (by omega)

theorem seedRange_spec (h : WellFormed nr m) (hrest : AtRest m) (fuel pfn stop : ℕ)
    (hfuel : stop ≤ pfn + fuel) (hstop : stop ≤ nr)
    (hres : ∀ f, pfn ≤ f → f < stop → m.label f = .reserved) :
    SeededRange nr pfn stop m (seedRange stop fuel m pfn) := by
  induction fuel generalizing m pfn with
  | zero =>
      rw [seedRange]
      exact SeededRange.empty h hrest (by omega)
  | succ fuel ih =>
      rw [seedRange]
      split
      · next hlt =>
          have hs := seedStep_spec h hrest hlt hstop hres
          have hfits := (greedyOrder_spec hlt).fits
          have hpos := Nat.two_pow_pos (greedyOrder pfn (stop - pfn))
          have hr := ih hs.wellFormed hs.atRest (pfn + 2 ^ greedyOrder pfn (stop - pfn))
            (by omega) (fun f hf hf' => (hs.reserved f).mpr
              ⟨hres f (by omega) hf', by rw [mem_block]; omega⟩)
          refine ⟨hr.wellFormed, hr.atRest, ?_, ?_, ?_⟩
          · intro f
            rw [hr.freeAt, hs.freeAt, or_assoc, mem_block]
            exact or_congr_right (by omega)
          · intro q j
            rw [hr.allocated, hs.allocated]
          · intro q
            rw [hr.reserved, hs.reserved, and_assoc, mem_block]
            exact and_congr_right fun _ => by omega
      · exact SeededRange.empty h hrest (by omega)

/-- The frames `[p, p + n)` become tails. -/
def markTails (m : FrameMap) (p n : ℕ) : FrameMap :=
  { m with label := fun f => if p ≤ f ∧ f < p + n then .tail else m.label f }

private theorem markTails_succ (m : FrameMap) (p n : ℕ) :
    m.markTails p (n + 1) = (m.relabel p .tail).markTails (p + 1) n := by
  simp only [markTails, relabel, FrameMap.mk.injEq, and_true]
  funext f
  by_cases hf : f = p
  · subst hf
    rw [if_pos (by omega), if_neg (by omega), setLabel_self]
  · rw [setLabel_of_ne _ _ hf]
    exact if_congr (by omega) rfl rfl

private theorem claim_eq_markTails (m : FrameMap) (b k : ℕ) :
    m.claim b k = (m.markTails (b + 1) (2 ^ k - 1)).relabel b (.detached k) := by
  have hpos := Nat.two_pow_pos k
  simp only [claim, markTails, relabel, FrameMap.mk.injEq, and_true]
  funext f
  by_cases hf : f = b
  · rw [if_pos hf, hf, setLabel_self]
  · rw [if_neg hf, setLabel_of_ne _ _ hf]
    exact if_congr (by rw [mem_block]; omega) rfl rfl

theorem allocate_eq_none_iff {order : ℕ} :
    m.allocate order = none ↔ m.findOrder order = none := by
  rw [allocate]
  cases hfind : m.findOrder order with
  | none => simp
  | some k =>
      have hne := (findOrder_some hfind).2.2.1
      cases hq : m.queue k with
      | nil => exact absurd hq hne
      | cons b rest => simp [hq]

private theorem push_relabel (m : FrameMap) (p k : ℕ) (l : Label) :
    (m.relabel p l).push k p = m.push k p := by
  apply eq_of_fields
  · intro f
    change setLabel (setLabel _ _ _) _ _ f = setLabel _ _ _ f
    by_cases hf : f = p
    · rw [hf, setLabel_self, setLabel_self]
    · rw [setLabel_of_ne _ _ hf, setLabel_of_ne _ _ hf, setLabel_of_ne _ _ hf]
  · exact fun _ => rfl

end FrameMap

namespace BuddyAllocator

variable {s : BuddyAllocator} {m : FrameMap}

structure SameSpan (s s' : BuddyAllocator) : Prop where
  nrFrames : s'.nrFrames = s.nrFrames
  dramBase : s'.dramBase = s.dramBase

/-- The allocator between two calls: its mem-map represents a well-formed frame map with no
block off its list, and the counter is the number of free frames. -/
structure Refines (s : BuddyAllocator) (m : FrameMap) : Prop where
  represents : Represents s m
  wellFormed : FrameMap.WellFormed s.nrFrames m
  atRest : FrameMap.AtRest m
  counted : s.freeFrames = (FrameMap.freeSet s.nrFrames m).card

theorem Represents.withFreeFrames (h : Represents s m) (count : ℕ) :
    Represents { s with freeFrames := count } m :=
  ⟨h.nr_lt, h.pages_le, h.area_length, h.page, h.linked⟩

private theorem pushFree_represents (h : Represents s m)
    (hq : FrameMap.Queued s.nrFrames m) {k p : ℕ}
    (hpn : p < s.nrFrames) (hk : k < maxOrder) (hpf : ∀ j, m.label p ≠ .free j) :
    ∃ s₁ s', s.pageMut p (fun page => .ok (page.markFree k)) = .ok s₁ ∧ s₁.pushFront k p = .ok s' ∧
      Represents s' (m.push k p) ∧ SameFrames s s' ∧ Frozen (m.push k p) s s' := by
  have hlt := (h.lt_pages hpn).1
  have hinfo : (s.putPage p ((s.info p).markFree k)).info p = (s.info p).markFree k := by
    rw [info_putPage hlt, if_pos rfl]
  have h₁ : Represents (s.putPage p ((s.info p).markFree k)) (m.relabel p (.detached k)) :=
    h.putPage hq hpn hpf _ _ trivial
  have hpool : FrameMap.Pooled ((m.push k p).label p) := by
    change FrameMap.Pooled (setLabel _ _ _ p)
    rw [setLabel_self]
    exact FrameMap.pooled_free k
  obtain ⟨s', hs', hr, hf, hz⟩ := pushFront_represents h₁ (hq.relabel hpf (by nofun)) hpn hk
    (by rw [FrameMap.relabel_label, setLabel_self]; nofun) (by rw [hinfo]; rfl) (by rw [hinfo]; rfl)
  rw [FrameMap.push_relabel] at hr hz
  exact ⟨_, s', pageMut_map hlt _, hs', hr, (sameFrames_putPage ..).trans hf,
    (frozen_putPage hlt hpool _).trans hz⟩

/-! ## Allocation -/

private theorem splitDown_represents (h : Represents s m) (hwf : FrameMap.WellFormed s.nrFrames m)
    (order : ℕ) {b k : ℕ} (hb : m.label b = .detached k) :
    ∃ s', splitDown order b k s = .ok s' ∧ Represents s' (FrameMap.splitDown order b k m) ∧
      SameFrames s s' ∧ Frozen m s s' := by
  induction k generalizing s m with
  | zero => exact ⟨s, rfl, h, SameFrames.refl s, Frozen.refl m s⟩
  | succ k ih =>
      rw [splitDown, FrameMap.splitDown]
      split
      · obtain ⟨hk, -, hfit⟩ := hwf.shape.head b (k + 1) (by rw [hb]; rfl)
        have hnr := h.nr_lt
        have hpos := Nat.two_pow_pos k
        have hsucc := Nat.pow_succ 2 k
        have hk32 : k < 32 := by
          have : maxOrder ≤ 32 := by decide
          omega
        have hsplit := FrameMap.split_spec hwf hb
        obtain ⟨s₁, s₂, hs₁, hs₂, hr₂, hf₂, hz₂⟩ := pushFree_represents (p := b + 2 ^ k) (k := k)
          (h.relabel (p := b) (l := .detached k) trivial)
          (hwf.queued.relabel (by simp [hb]) (by simp)) (by omega) (by omega)
          (by simp [hwf.upper_tail hb])
        obtain ⟨s', hs', hr', hf', hz'⟩ := ih (s := s₂) hr₂
          (by rw [hf₂.nrFrames]; exact hsplit.wellFormed) hsplit.label
        refine ⟨s', ?_, hr', hf₂.trans hf', (hz₂.trans hz').of_kept hsplit.kept⟩
        rw [checkedShl_one hk32, ok_bind, checkedAdd_ok (by omega), ok_bind, hs₁, ok_bind, hs₂,
          ok_bind, hs']
      · exact ⟨s, rfl, h, SameFrames.refl s, Frozen.refl m s⟩

private theorem Represents.findOrder_eq (h : Represents s m) (order : ℕ) :
    s.findOrder order = m.findOrder order := by
  apply List.find?_congr
  intro k hk
  rw [List.mem_range'_1] at hk
  have hhead := (h.linked k (by omega)).head_eq
  rw [area] at hhead
  rw [hhead]
  cases m.queue k <;> rfl

private theorem popFront_represents (h : Represents s m)
    (hq : FrameMap.Queued s.nrFrames m) {k b : ℕ}
    {rest : List ℕ} (hk : k < maxOrder) (hb : m.queue k = b :: rest) :
    ∃ s', s.popFront k = .ok (some b, s') ∧ Represents s' (m.take k b) ∧ SameFrames s s' ∧
      Frozen m s s' := by
  have hhead : index s.freeArea k = .ok (some b) := by
    have := (h.linked k hk).head_eq
    rw [hb, area] at this
    rw [index_ok (by rw [h.area_length]; exact hk) none, this]
    rfl
  obtain ⟨s', hs', hr, hf, hz⟩ := unlink_represents h hq (hq.label_of_cons hb)
  refine ⟨s', ?_, hr, hf, hz⟩
  rw [popFront, hhead, ok_bind]
  change s.unlink k b >>= _ = _
  rw [hs']
  rfl

theorem alloc_none (h : Represents s m) {order : ℕ} (ha : m.allocate order = none) :
    s.alloc order = .ok (none, s) := by
  rw [alloc, h.findOrder_eq, FrameMap.allocate_eq_none_iff.mp ha]
  rfl

theorem alloc_some (h : Refines s m) {order b : ℕ} {m' : FrameMap}
    (ha : m.allocate order = some (b, m')) :
    ∃ s', s.alloc order = .ok (some b, s') ∧ Refines s' m' ∧ SameSpan s s' ∧
      s'.freeFrames + 2 ^ order = s.freeFrames ∧ Frozen m s s' := by
  have hspec := FrameMap.allocate_spec h.wellFormed h.atRest ha
  have hcard := hspec.card h.wellFormed
  have hcap : maxOrder ≤ 32 := by decide
  have horder := hspec.order_lt
  obtain ⟨k, rest, hfind, hq, rfl⟩ := FrameMap.allocate_eq_some ha
  obtain ⟨hk, hkmax, -, -⟩ := FrameMap.findOrder_some hfind
  have hb := h.wellFormed.queued.label_of_cons hq
  have hbt := FrameMap.take_label_self m k b
  have hwt := h.wellFormed.take hb
  have hsd := FrameMap.splitDown_spec hwt hbt hk
  obtain ⟨s₁, hs₁, hr₁, hf₁, hz₁⟩ :=
    popFront_represents h.represents h.wellFormed.queued hkmax hq
  obtain ⟨s₂, hs₂, hr₂, hf₂, hz₂⟩ := splitDown_represents hr₁
    (by rw [hf₁.nrFrames]; exact hwt) order hbt
  have hf := hf₁.trans hf₂
  have hbn : b < s₂.nrFrames := by
    rw [hf.nrFrames]
    exact h.wellFormed.shape.lt_of_head (k := k) (by rw [hb]; rfl)
  have hr₃ := (hr₂.withFreeFrames (s.freeFrames - 2 ^ order)).putPage
    (by rw [← hf.nrFrames] at hsd; exact hsd.wellFormed.queued) hbn
    (by simp [hsd.label]) ((s₂.info b).markAllocated order) (.allocated order)
    ⟨rfl, rfl⟩
  have hle : 2 ^ order ≤ s.freeFrames := by rw [h.counted]; omega
  have hpool : FrameMap.Pooled (m.label b) := by
    rw [hb]
    exact FrameMap.pooled_free k
  have hz : Frozen m s s₂ := hz₁.trans (hz₂.of_kept (FrameMap.Kept.take hpool))
  refine ⟨_, ?_, ⟨hr₃, ?_, hspec.atRest, ?_⟩, ⟨hf.nrFrames, hf.dramBase⟩, ?_,
    (hz.withFreeFrames _).trans (frozen_putPage
      (s := { s₂ with freeFrames := s.freeFrames - 2 ^ order }) (hr₂.lt_pages hbn).1 hpool _)⟩
  · rw [alloc, h.represents.findOrder_eq, hfind]
    change s.popFront k >>= _ = _
    rw [hs₁, ok_bind]
    change unwrap (some b) >>= _ = _
    rw [unwrap_some, ok_bind, hs₂, ok_bind, checkedShl_one (by omega), ok_bind,
      hf.freeFrames, checkedSub_ok hle, ok_bind]
    change BuddyAllocator.pageMut _ _ _ >>= _ = _
    rw [pageMut_map (s := { s₂ with freeFrames := s.freeFrames - 2 ^ order })
      (hr₂.lt_pages hbn).1]
    rfl
  · change FrameMap.WellFormed s₂.nrFrames _
    rw [hf.nrFrames]
    exact hspec.wellFormed
  · change s.freeFrames - 2 ^ order = (FrameMap.freeSet s₂.nrFrames _).card
    rw [hf.nrFrames, h.counted]
    omega
  · change s.freeFrames - 2 ^ order + 2 ^ order = s.freeFrames
    omega

/-! ## Release -/

private theorem buddyPfn_ok (s : BuddyAllocator) {pfn order : ℕ} (ho : order < maxOrder) :
    s.buddyPfn pfn order =
      .ok (if s.nrFrames ≤ pfn ^^^ 2 ^ order then none else some (pfn ^^^ 2 ^ order)) := by
  have hcap : maxOrder ≤ 32 := by decide
  rw [buddyPfn, debugAssert_true ho, ok_bind, checkedShl_one (by omega), ok_bind]
  rfl

private theorem mergeable_ok (h : Represents s m) (order : ℕ) {buddy : ℕ} (hb : buddy < s.nrFrames)
    (hd : ∀ j, m.label buddy ≠ .detached j) :
    s.mergeable buddy order = .ok (decide (m.label buddy = .free order)) := by
  have hpage := h.page buddy hb
  have hfalse (hstate : (s.info buddy).state ≠ .free) (hl : m.label buddy ≠ .free order) :
      s.mergeable buddy order = .ok (decide (m.label buddy = .free order)) := by
    rw [mergeable, page_ok (h.lt_pages hb).1, ok_bind, if_neg (by simp [PageInfo.isFree, hstate]),
      decide_eq_false hl]
    rfl
  cases hl : m.label buddy with
  | reserved =>
      rw [hl] at hpage
      rw [← hl]
      exact hfalse (by rw [hpage]; simp) (by simp [hl])
  | allocated j =>
      rw [hl] at hpage
      rw [← hl]
      exact hfalse (by simp [hpage.1]) (by simp [hl])
  | tail =>
      rw [hl] at hpage
      rw [← hl]
      exact hfalse (by rw [hpage]; simp) (by simp [hl])
  | detached j => exact absurd hl (hd j)
  | free j =>
      rw [hl] at hpage
      have hassert : debugAssert (s.info buddy).isHead = .ok () :=
        debugAssert_true (by simp [PageInfo.isHead, hpage.1])
      rw [mergeable, page_ok (h.lt_pages hb).1, ok_bind,
        if_pos (by simp [PageInfo.isFree, hpage.1]), PageInfo.orderOf, hassert, ok_bind]
      simp [hpage.2, pure, Except.pure]

private theorem coalesce_represents (h : Represents s m) (hwf : FrameMap.WellFormed s.nrFrames m)
    {rounds cur order : ℕ} (hcur : m.label cur = .detached order)
    (honly : FrameMap.OnlyDetached m cur) (hr : rounds + order < maxOrder) :
    ∃ s', coalesce rounds s cur order =
        .ok (s', (FrameMap.coalesce s.nrFrames rounds m cur order).2) ∧
      Represents s' (FrameMap.coalesce s.nrFrames rounds m cur order).1 ∧ SameFrames s s' ∧
      Frozen m s s' := by
  induction rounds generalizing s m cur order with
  | zero => exact ⟨s, rfl, h, SameFrames.refl s, Frozen.refl m s⟩
  | succ rounds ih =>
      have hal := (hwf.shape.head cur order (by rw [hcur]; rfl)).2.1
      have hne := hal.xor_ne
      rw [coalesce, buddyPfn_ok s (by omega), ok_bind, FrameMap.coalesce]
      by_cases hin : s.nrFrames ≤ cur ^^^ 2 ^ order
      · rw [if_pos hin, if_neg (by omega)]
        exact ⟨s, rfl, h, SameFrames.refl s, Frozen.refl m s⟩
      · rw [if_neg hin]
        have hlt : cur ^^^ 2 ^ order < s.nrFrames := by omega
        have hmerge := mergeable_ok h order hlt
          (fun j hj => hne (honly _ j hj))
        by_cases hfree : m.label (cur ^^^ 2 ^ order) = .free order
        · rw [if_pos ⟨hlt, hfree⟩]
          have hstep := FrameMap.mergeStep_spec hwf hcur hfree (by omega)
          obtain ⟨s₁, hs₁, hr₁, hf₁, hz₁⟩ := unlink_represents h hwf.queued hfree
          have htake : ∀ x, x = cur ∨ x = cur ^^^ 2 ^ order →
              (m.take order (cur ^^^ 2 ^ order)).label x = .detached order := by
            rintro x (rfl | rfl)
            · exact (setLabel_of_ne _ _ (Ne.symm hne)).trans hcur
            · exact setLabel_self ..
          have hmax : max cur (cur ^^^ 2 ^ order) < s₁.nrFrames := by
            have := hwf.shape.lt_of_head (p := cur) (k := order) (by rw [hcur]; rfl)
            rw [hf₁.nrFrames]
            omega
          have hr₂ := hr₁.putPage
            (by rw [hf₁.nrFrames]; exact (hwf.take hfree).queued) hmax
            (by rw [htake _ (by omega)]; simp)
            ((s₁.info (max cur (cur ^^^ 2 ^ order))).markTail) .tail rfl
          have hr₃ := hr₂.relabel (p := min cur (cur ^^^ 2 ^ order)) (l := .detached (order + 1))
            trivial
          have hpool : FrameMap.Pooled (m.label (max cur (cur ^^^ 2 ^ order))) := by
            rcases Nat.le_total cur (cur ^^^ 2 ^ order) with hle | hle
            · rw [Nat.max_eq_right hle, hfree]
              exact FrameMap.pooled_free order
            · rw [Nat.max_eq_left hle, hcur]
              exact FrameMap.pooled_detached order
          obtain ⟨s', hs', hr', hf', hz'⟩ := ih hr₃
            (by
              change FrameMap.WellFormed s₁.nrFrames _
              rw [hf₁.nrFrames]
              exact hstep.wellFormed)
            hstep.label (hstep.only honly) (by omega)
          change coalesce rounds _ _ _ = .ok (s', (FrameMap.coalesce s₁.nrFrames _ _ _ _).2) at hs'
          change Represents s' (FrameMap.coalesce s₁.nrFrames _ _ _ _).1 at hr'
          rw [hf₁.nrFrames] at hs' hr'
          refine ⟨s', ?_, hr', hf₁.trans ((sameFrames_putPage ..).trans hf'),
            hz₁.trans
              ((frozen_putPage (hr₁.lt_pages hmax).1 hpool _).trans (hz'.of_kept hstep.kept))⟩
          change s.mergeable _ _ >>= _ = _
          rw [hmerge, ok_bind, if_pos (by simpa using hfree), hs₁, ok_bind]
          have hends : (if cur < cur ^^^ 2 ^ order then (cur, cur ^^^ 2 ^ order)
              else (cur ^^^ 2 ^ order, cur)) =
              (min cur (cur ^^^ 2 ^ order), max cur (cur ^^^ 2 ^ order)) := by
            split
            · rw [Nat.min_eq_left (by omega), Nat.max_eq_right (by omega)]
            · rw [Nat.min_eq_right (by omega), Nat.max_eq_left (by omega)]
          rw [hends]
          change s₁.pageMut _ _ >>= _ = _
          rw [pageMut_map (hr₁.lt_pages hmax).1, ok_bind, hs']
          rfl
        · rw [if_neg (fun hc => hfree hc.2)]
          refine ⟨s, ?_, h, SameFrames.refl s, Frozen.refl m s⟩
          change s.mergeable _ _ >>= _ = _
          rw [hmerge, ok_bind, if_neg (by simpa using hfree)]
          rfl

theorem free_ok (h : Refines s m) {p order : ℕ} (hp : m.label p = .allocated order) :
    ∃ s', s.free p order = .ok s' ∧ Refines s' (m.release s.nrFrames p order) ∧ SameSpan s s' ∧
      s'.freeFrames = s.freeFrames + 2 ^ order ∧ Frozen (m.relabel p (.detached order)) s s' := by
  have hspec := FrameMap.release_spec h.wellFormed h.atRest hp
  have hcard := FrameMap.card_freeSet_of_gain h.wellFormed hspec.wellFormed hspec.wasTaken
    hspec.freeAt
  have hle := FrameMap.card_freeSet_le s.nrFrames (FrameMap.release s.nrFrames m p order)
  have hnr := h.represents.nr_lt
  have hcap : maxOrder ≤ 32 := by decide
  have horder := (h.wellFormed.shape.head p order (by rw [hp]; rfl)).1
  have hwf : FrameMap.WellFormed s.nrFrames (m.relabel p (.detached order)) :=
    h.wellFormed.relabel (k := order) (by rw [hp]; rfl) rfl (by rw [hp]; nofun) (by nofun)
  have hdet : (m.relabel p (.detached order)).label p = .detached order := setLabel_self ..
  have hrounds : maxOrder - 1 - order + order < maxOrder := by omega
  have hc := FrameMap.coalesce_spec hwf hdet hrounds
  obtain ⟨s₁, hs₁, hr₁, hf₁, hz₁⟩ := coalesce_represents
    ((h.represents.withFreeFrames (s.freeFrames + 2 ^ order)).relabel (p := p)
      (l := .detached order) trivial) hwf hdet (h.atRest.relabel p _) hrounds
  change Represents s₁ (FrameMap.coalesce s.nrFrames _ _ _ _).1 at hr₁
  set r := FrameMap.coalesce s.nrFrames (maxOrder - 1 - order) (m.relabel p (.detached order)) p
    order with hr
  have hhead : (r.1.label r.2.1).headOrder = some r.2.2 := by rw [hc.label]; rfl
  have hnr₁ : s₁.nrFrames = s.nrFrames := hf₁.nrFrames
  obtain ⟨s₂, s', hs₂, hs', hr', hf', hz'⟩ := pushFree_represents (p := r.2.1) (k := r.2.2) hr₁
    (by rw [hnr₁]; exact hc.wellFormed.queued)
    (by rw [hnr₁]; exact hc.wellFormed.shape.lt_of_head hhead)
    (hc.wellFormed.shape.head _ _ hhead).1 (by rw [hc.label]; nofun)
  have hcount : s'.freeFrames = s.freeFrames + 2 ^ order := hf'.freeFrames.trans hf₁.freeFrames
  have hnr' : s'.nrFrames = s.nrFrames := hf'.nrFrames.trans hnr₁
  have hpool : FrameMap.Pooled (r.1.label r.2.1) := by
    rw [hc.label]
    exact FrameMap.pooled_detached _
  have hz : Frozen (m.relabel p (.detached order)) s s' :=
    Frozen.trans ⟨hz₁.pages_length, hz₁.page⟩
      (hz'.of_kept (hc.kept.trans (FrameMap.Kept.push hpool)))
  refine ⟨s', ?_, ⟨hr', ?_, hspec.atRest, ?_⟩, ⟨hnr', hf'.dramBase.trans hf₁.dramBase⟩, hcount, hz⟩
  · rw [free, checkedShl_one (by omega), ok_bind,
      checkedAdd_ok (by have := h.counted; omega), ok_bind]
    change coalesce _ { s with freeFrames := s.freeFrames + 2 ^ order } p order >>= _ = _
    rw [hs₁, ok_bind]
    change s₁.pageMut _ _ >>= _ = _
    rw [hs₂, ok_bind, hs']
  · rw [hnr']
    exact hspec.wellFormed
  · rw [hcount, hnr', hcard, h.counted]

/-! ## Seeding -/

private theorem markTails_represents (h : Represents s m) (hq : FrameMap.Queued s.nrFrames m)
    (pfn count i : ℕ) (hin : pfn + i + count ≤ s.nrFrames)
    (hres : ∀ f, pfn + i ≤ f → f < pfn + i + count → m.label f = .reserved) :
    ∃ s', markTails pfn count i s = .ok s' ∧ Represents s' (m.markTails (pfn + i) count) ∧
      FrameMap.Queued s.nrFrames (m.markTails (pfn + i) count) ∧ SameFrames s s' := by
  induction count generalizing s m i with
  | zero =>
      have hnone : m.markTails (pfn + i) 0 = m := by
        simp only [FrameMap.markTails]
        congr 1
        funext f
        exact if_neg (by omega)
      rw [hnone]
      exact ⟨s, rfl, h, hq, SameFrames.refl s⟩
  | succ count ih =>
      have hnr := h.nr_lt
      have hlt : pfn + i < s.nrFrames := by omega
      have hfirst : ∀ j, m.label (pfn + i) ≠ .free j := by
        rw [hres _ (by omega) (by omega)]
        nofun
      have h₁ : Represents (s.putPage (pfn + i) (s.info (pfn + i)).markTail)
          (m.relabel (pfn + i) .tail) := h.putPage hq hlt hfirst _ _ rfl
      obtain ⟨s', hs', hr', hq', hf'⟩ := ih h₁ (hq.relabel hfirst (by nofun)) (i + 1)
        (by change _ ≤ s.nrFrames; omega) (fun f hf hf' => by
          rw [FrameMap.relabel_label, setLabel_of_ne _ _ (by omega)]
          exact hres f (by omega) (by omega))
      rw [← Nat.add_assoc] at hr' hq'
      rw [FrameMap.markTails_succ]
      refine ⟨s', ?_, hr', hq', (sameFrames_putPage ..).trans hf'⟩
      rw [markTails, checkedAdd_ok (by omega), ok_bind,
        pageMut_map (h.lt_pages hlt).1, ok_bind, hs']

private theorem maxOrderAt_ok {pfn remaining : ℕ} (hpos : 0 < remaining)
    (hlt : remaining < 2 ^ 64) :
    maxOrderAt pfn remaining = .ok (FrameMap.greedyOrder pfn remaining) := by
  obtain ⟨hlog, hle⟩ := sub_leadingZeros hpos hlt
  rw [maxOrderAt, checkedSub_ok hle, ok_bind, hlog]
  rfl

private theorem carve_step (h : Refines s m) {pfn stop : ℕ} (hlt : pfn < stop)
    (hstop : stop ≤ s.nrFrames)
    (hres : ∀ f, pfn ≤ f → f < stop → m.label f = .reserved) {k : ℕ}
    (hk : k = FrameMap.greedyOrder pfn (stop - pfn)) :
    ∃ s₁ s₂ s₃, markTails pfn (2 ^ k - 1) 1 s = .ok s₁ ∧
      s₁.pageMut pfn (fun page => .ok (page.markFree k)) = .ok s₂ ∧ s₂.pushFront k pfn = .ok s₃ ∧
      s₃.freeFrames = s.freeFrames ∧ SameSpan s s₃ ∧
      Refines { s₃ with freeFrames := s.freeFrames + 2 ^ k } ((m.claim pfn k).push k pfn) := by
  have hspec := FrameMap.seedStep_spec h.wellFormed h.atRest hlt hstop hres
  have hg := FrameMap.greedyOrder_spec hlt
  rw [← hk] at hspec hg
  have hpos := Nat.two_pow_pos k
  have hfits := hg.fits
  have hkmax : k < maxOrder := by
    have := hg.order_le
    have : 0 < maxOrder := by decide
    omega
  have hcard := FrameMap.card_freeSet_of_gain h.wellFormed hspec.wellFormed (b := pfn) (k := k)
    (fun f hf hfree => by
      have hr := hres f (by rw [mem_block] at hf; omega) (by rw [mem_block] at hf; omega)
      obtain ⟨q, j, hq, hm⟩ := hfree
      exact h.wellFormed.shape.ne_reserved_of_mem (by rw [hq]; rfl) hm hr) hspec.freeAt
  obtain ⟨s₁, hs₁, hr₁, hq₁, hf₁⟩ := markTails_represents h.represents
    h.wellFormed.queued pfn (2 ^ k - 1) 1 (by omega) (fun f hf hf' => hres f (by omega) (by omega))
  have hpfn : (m.markTails (pfn + 1) (2 ^ k - 1)).label pfn = .reserved := by
    change (if _ then _ else _) = _
    rw [if_neg (by omega)]
    exact hres pfn (by omega) hlt
  obtain ⟨s₂, s₃, hs₂, hs₃, hr₃, hf₃, -⟩ := pushFree_represents (p := pfn) (k := k) hr₁
    (by rw [hf₁.nrFrames]; exact hq₁) (by rw [hf₁.nrFrames]; omega) hkmax (by rw [hpfn]; nofun)
  have hf := hf₁.trans hf₃
  rw [← FrameMap.push_relabel _ _ _ (.detached k), ← FrameMap.claim_eq_markTails] at hr₃
  refine ⟨s₁, s₂, s₃, hs₁, hs₂, hs₃, hf.freeFrames, ⟨hf.nrFrames, hf.dramBase⟩,
    hr₃.withFreeFrames _, ?_, hspec.atRest, ?_⟩
  · change FrameMap.WellFormed s₃.nrFrames _
    rw [hf.nrFrames]
    exact hspec.wellFormed
  · change s.freeFrames + 2 ^ k = (FrameMap.freeSet s₃.nrFrames _).card
    rw [hf.nrFrames, hcard, h.counted]

private theorem carve_ok (h : Refines s m) (fuel pfn stop : ℕ) (hfuel : stop ≤ pfn + fuel)
    (hstop : stop ≤ s.nrFrames) (hres : ∀ f, pfn ≤ f → f < stop → m.label f = .reserved) :
    ∃ s', carve stop fuel s pfn = .ok s' ∧ Refines s' (FrameMap.seedRange stop fuel m pfn) ∧
      SameSpan s s' ∧ s'.freeFrames = s.freeFrames + (stop - pfn) := by
  induction fuel generalizing s m pfn with
  | zero =>
      rw [carve, if_neg (by omega)]
      exact ⟨s, rfl, h, ⟨rfl, rfl⟩, by omega⟩
  | succ fuel ih =>
      rw [carve, FrameMap.seedRange]
      by_cases hlt : pfn < stop
      · rw [if_pos hlt, if_pos hlt]
        have hnr := h.represents.nr_lt
        have hspec := FrameMap.seedStep_spec h.wellFormed h.atRest hlt hstop hres
        have hg := FrameMap.greedyOrder_spec hlt
        rw [maxOrderAt_ok (by omega) (by omega), ok_bind]
        generalize hk : FrameMap.greedyOrder pfn (stop - pfn) = k at hspec hg ⊢
        obtain ⟨s₁, s₂, s₃, hs₁, hs₂, hs₃, hcount, hspan, href⟩ :=
          carve_step h hlt hstop hres hk.symm
        have hfits := hg.fits
        have hpos := Nat.two_pow_pos k
        have hk32 : k < 32 := by
          have := hg.order_le
          have : maxOrder ≤ 32 := by decide
          omega
        have hle := FrameMap.card_freeSet_le s₃.nrFrames ((m.claim pfn k).push k pfn)
        have hcounted := href.counted
        change s.freeFrames + 2 ^ k = (FrameMap.freeSet s₃.nrFrames _).card at hcounted
        obtain ⟨s', hs', hr', hspan', hcount'⟩ := ih href (pfn + 2 ^ k) (by omega)
          (by change _ ≤ s₃.nrFrames; rw [hspan.nrFrames]; exact hstop)
          (fun f hf hf' => (hspec.reserved f).mpr
            ⟨hres f (by omega) hf', by rw [mem_block]; omega⟩)
        refine ⟨s', ?_, hr', ⟨hspan'.nrFrames.trans hspan.nrFrames,
          hspan'.dramBase.trans hspan.dramBase⟩, ?_⟩
        · rw [checkedShl_one hk32, ok_bind, hs₁, ok_bind, hs₂, ok_bind, hs₃, ok_bind,
            checkedShl_one (by omega), ok_bind, hcount,
            checkedAdd_ok (by have := hspan.nrFrames; omega), ok_bind, checkedAdd_ok (by omega),
            ok_bind, hs']
        · rw [hcount']
          change s.freeFrames + 2 ^ k + _ = _
          omega
      · rw [if_neg hlt, if_neg hlt]
        exact ⟨s, rfl, h, ⟨rfl, rfl⟩, by omega⟩

theorem freeRange_ok (h : Refines s m) {start count : ℕ} (hin : start + count ≤ s.nrFrames)
    (hres : ∀ f, start ≤ f → f < start + count → m.label f = .reserved) :
    ∃ s', s.freeRange start count = .ok s' ∧
      Refines s' (FrameMap.seedRange (start + count) count m start) ∧ SameSpan s s' ∧
      s'.freeFrames = s.freeFrames + count := by
  have hnr := h.represents.nr_lt
  obtain ⟨s', hs', hr', hspan, hcount⟩ := carve_ok h count start (start + count)
    (by omega) hin hres
  refine ⟨s', ?_, hr', hspan, by omega⟩
  rw [freeRange, checkedAdd_ok (by omega), ok_bind, debugAssert_true hin, ok_bind,
    truncate_of_lt (by omega), checkedAdd_ok (by omega), ok_bind, Nat.add_sub_cancel_left, hs']

def emptyMap : FrameMap := ⟨fun _ => .reserved, fun _ => []⟩

theorem new_ok {pages : List PageInfo} {nrFrames : ℕ} (dramBase : ℕ)
    (hlen : nrFrames ≤ pages.length)
    (hlt : nrFrames < 2 ^ 32) :
    ∃ s, new pages dramBase nrFrames = .ok s ∧ Refines s emptyMap ∧ s.nrFrames = nrFrames ∧
      s.dramBase = dramBase ∧ s.freeFrames = 0 := by
  refine ⟨_, by rw [new, debugAssert_true hlen, ok_bind]; rfl,
    ⟨⟨hlt, ?_, ?_, ?_, ?_⟩, ⟨?_, ?_⟩, ?_, ?_⟩,
    rfl, rfl, rfl⟩
  · rw [List.length_map]
    exact hlen
  · rw [List.length_replicate]
  · intro p hp
    change p < nrFrames at hp
    change (List.getD (pages.map PageInfo.markReserved) p default).state = .reserved
    rw [List.getD_eq_getElem _ _ (by rw [List.length_map]; omega), List.getElem_map]
    rfl
  · intro k hk
    change Linked _ _ none (List.getD (List.replicate maxOrder none) k none) []
    rw [List.getD_replicate _ hk]
    exact linked_nil.mpr rfl
  · exact ⟨fun _ _ => rfl, nofun, nofun, nofun⟩
  · exact ⟨fun _ => List.nodup_nil, fun _ _ => ⟨nofun, nofun⟩, nofun⟩
  · nofun
  · symm
    rw [Finset.card_eq_zero, Finset.eq_empty_iff_forall_notMem]
    intro f hf
    simp only [FrameMap.freeSet, Finset.mem_filter] at hf
    obtain ⟨-, q, j, hq, -⟩ := hf
    cases hq

end BuddyAllocator

end Preon.Memory
