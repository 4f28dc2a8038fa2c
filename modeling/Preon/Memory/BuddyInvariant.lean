import Mathlib.Algebra.Order.BigOperators.Group.Finset
import Preon.Framework.Transition
import Preon.Memory.BuddyRefinement

/-!
# The representation invariant of the buddy allocator

A run starts from `new` and calls `free_range`, `alloc` and `free` as their callers promise.
Two ghost lists record the blocks that are live and the ranges that were handed over.
-/

namespace Preon.Memory

open Framework

namespace BuddyAllocator

/-- A block of the mem-map: its head and its order. -/
def IsBlock (s : BuddyAllocator) (p k : ℕ) : Prop :=
  p < s.nrFrames ∧ (s.info p).isHead ∧ (s.info p).order = k

def freeHeads (s : BuddyAllocator) : Finset ℕ :=
  (Finset.range s.nrFrames).filter fun p => (s.info p).state = .free

private theorem mem_freeHeads {s : BuddyAllocator} {p : ℕ} :
    p ∈ s.freeHeads ↔ p < s.nrFrames ∧ (s.info p).state = .free := by
  rw [freeHeads, Finset.mem_filter, Finset.mem_range]

/-- The frames covered by the free blocks of the mem-map. -/
def freeFrameSet (s : BuddyAllocator) : Finset ℕ :=
  s.freeHeads.biUnion fun p => block p (s.info p).order

structure RepresentationInvariant (s : BuddyAllocator) : Prop where
  lists : ∀ k < maxOrder, ∃ nodes : List ℕ, nodes.Nodup ∧
    Linked s.nextOf s.prevOf none (s.area k) nodes ∧
    (∀ p, p ∈ nodes ↔ p < s.nrFrames ∧ (s.info p).state = .free ∧ (s.info p).order = k) ∧
    ∀ p ∈ nodes, ∀ q ∈ nodes, s.nextOf p = some q ↔ s.prevOf q = some p
  heads : ∀ p k, s.IsBlock p k → k < maxOrder ∧ p % 2 ^ k = 0 ∧ p + 2 ^ k ≤ s.nrFrames
  disjoint : ∀ p j q k, s.IsBlock p j → s.IsBlock q k → p ≠ q → Disjoint (block p j) (block q k)
  covers : ∀ f < s.nrFrames, (∃ p k, s.IsBlock p k ∧ f ∈ block p k) ↔ (s.info f).state ≠ .reserved
  tails : ∀ p k f, s.IsBlock p k → f ∈ block p k → f ≠ p → (s.info f).state = .tail
  counted : s.freeFrames = ∑ p ∈ s.freeHeads, 2 ^ (s.info p).order

section Refines

variable {s : BuddyAllocator} {m : FrameMap}

private theorem Describes.unique {page : PageInfo} {l l' : Label} (h : Describes page l)
    (h' : Describes page l') (hl : ∀ j, l ≠ .detached j) (hl' : ∀ j, l' ≠ .detached j) :
      l = l' := by
  cases l <;> cases l' <;> simp_all [Describes]

private theorem Refines.describes_iff (h : Refines s m) {p : ℕ} (hp : p < s.nrFrames) (l : Label)
    (hl : ∀ j, l ≠ .detached j) : Describes (s.info p) l ↔ m.label p = l := by
  have hpage := h.represents.page p hp
  constructor
  · intro hdesc
    exact hpage.unique hdesc (h.atRest p) hl
  · intro he
    exact he ▸ hpage

theorem Refines.free_iff (h : Refines s m) {p : ℕ} (hp : p < s.nrFrames) (k : ℕ) :
    (s.info p).state = .free ∧ (s.info p).order = k ↔ m.label p = .free k :=
  h.describes_iff hp (.free k) (by simp)

theorem Refines.allocated_iff (h : Refines s m) {p : ℕ} (hp : p < s.nrFrames) (k : ℕ) :
    (s.info p).state = .allocated ∧ (s.info p).order = k ↔ m.label p = .allocated k :=
  h.describes_iff hp (.allocated k) (by simp)

theorem Refines.tail_iff (h : Refines s m) {p : ℕ} (hp : p < s.nrFrames) :
    (s.info p).state = .tail ↔ m.label p = .tail :=
  h.describes_iff hp .tail (by simp)

theorem Refines.reserved_iff (h : Refines s m) {p : ℕ} (hp : p < s.nrFrames) :
    (s.info p).state = .reserved ↔ m.label p = .reserved :=
  h.describes_iff hp .reserved (by simp)

theorem Refines.isBlock_iff (h : Refines s m) (p k : ℕ) :
    s.IsBlock p k ↔ (m.label p).headOrder = some k := by
  constructor
  · rintro ⟨hp, hhead, horder⟩
    simp only [PageInfo.isHead, Bool.or_eq_true, decide_eq_true_eq] at hhead
    rcases hhead with hs | hs
    · rw [(h.free_iff hp k).mp ⟨hs, horder⟩]
      rfl
    · rw [(h.allocated_iff hp k).mp ⟨hs, horder⟩]
      rfl
  · intro hk
    have hp := h.wellFormed.shape.lt_of_head hk
    cases hl : m.label p with
    | free j =>
        rw [hl] at hk
        obtain rfl := Option.some.inj hk
        obtain ⟨hs, ho⟩ := (h.free_iff hp _).mpr hl
        exact ⟨hp, by simp [PageInfo.isHead, hs], ho⟩
    | allocated j =>
        rw [hl] at hk
        obtain rfl := Option.some.inj hk
        obtain ⟨hs, ho⟩ := (h.allocated_iff hp _).mpr hl
        exact ⟨hp, by simp [PageInfo.isHead, hs], ho⟩
    | detached j => exact absurd hl (h.atRest p j)
    | reserved => rw [hl] at hk; cases hk
    | tail => rw [hl] at hk; cases hk

theorem Refines.mem_freeFrameSet (h : Refines s m) {f : ℕ} :
    f ∈ s.freeFrameSet ↔ FrameMap.FreeAt m f := by
  simp only [freeFrameSet, Finset.mem_biUnion, mem_freeHeads]
  constructor
  · rintro ⟨p, ⟨hp, hs⟩, hf⟩
    exact ⟨p, _, (h.free_iff hp _).mp ⟨hs, rfl⟩, hf⟩
  · rintro ⟨p, k, hl, hf⟩
    have hp := h.wellFormed.shape.lt_of_head (p := p) (k := k) (by rw [hl]; rfl)
    obtain ⟨hs, rfl⟩ := (h.free_iff hp k).mpr hl
    exact ⟨p, ⟨hp, hs⟩, hf⟩

theorem Refines.freeSet_eq (h : Refines s m) : FrameMap.freeSet s.nrFrames m = s.freeFrameSet := by
  ext f
  rw [h.wellFormed.mem_freeSet, h.mem_freeFrameSet]

theorem Refines.counted_eq_sum (h : Refines s m) :
    s.freeFrames = ∑ p ∈ s.freeHeads, 2 ^ (s.info p).order := by
  rw [h.counted, h.freeSet_eq, freeFrameSet, Finset.card_biUnion]
  · exact Finset.sum_congr rfl fun p _ => card_block p _
  · intro p hp q hq hne
    rw [Finset.mem_coe, mem_freeHeads] at hp hq
    have hlp := (h.free_iff hp.1 _).mp ⟨hp.2, rfl⟩
    have hlq := (h.free_iff hq.1 _).mp ⟨hq.2, rfl⟩
    rw [Function.onFun, Finset.disjoint_left]
    intro f hfp hfq
    exact hne (h.wellFormed.shape.head_unique (by rw [hlp]; rfl) (by rw [hlq]; rfl) hfp hfq).1

theorem Refines.representationInvariant (h : Refines s m) : RepresentationInvariant s := by
  have hshape := h.wellFormed.shape
  have hqueued := h.wellFormed.queued
  constructor
  · intro k hk
    refine ⟨m.queue k, hqueued.nodup k, h.represents.linked k hk, ?_, ?_⟩
    · intro p
      rw [hqueued.mem_queue]
      constructor
      · intro hl
        have hp := (hqueued.in_range p k hl).1
        exact ⟨hp, (h.free_iff hp k).mpr hl⟩
      · rintro ⟨hp, hs⟩
        exact (h.free_iff hp k).mp hs
    · intro p hp q hq
      exact (h.represents.linked k hk).next_eq_iff (hqueued.nodup k) hp hq
  · intro p k hb
    obtain ⟨hk, hal, hfit⟩ := hshape.head p k ((h.isBlock_iff p k).mp hb)
    exact ⟨hk, aligned_iff_mod.mp hal, hfit⟩
  · intro p j q k hp hq hne
    rw [Finset.disjoint_left]
    intro f hfp hfq
    exact hne (hshape.head_unique ((h.isBlock_iff p j).mp hp) ((h.isBlock_iff q k).mp hq) hfp hfq).1
  · intro f hf
    simp only [h.isBlock_iff, hshape.exists_head_iff, ne_eq, h.reserved_iff hf]
  · intro p k f hb hf hne
    have hhead := (h.isBlock_iff p k).mp hb
    have ht := (hshape.label_of_mem hhead hf).resolve_left hne
    have hfn : f < s.nrFrames := by
      have := (hshape.head p k hhead).2.2
      rw [mem_block] at hf
      omega
    exact (h.tail_iff hfn).mpr ht
  · exact h.counted_eq_sum

end Refines

/-! ## Runs -/

/-- The frames of a range given by its start and its length. -/
def inRange (range : ℕ × ℕ) (f : ℕ) : Prop := range.1 ≤ f ∧ f < range.1 + range.2

def framesOf (given : List (ℕ × ℕ)) : Finset ℕ :=
  given.toFinset.biUnion fun range => Finset.Ico range.1 (range.1 + range.2)

theorem mem_framesOf {given : List (ℕ × ℕ)} {f : ℕ} :
    f ∈ framesOf given ↔ ∃ range ∈ given, inRange range f := by
  simp [framesOf, inRange]

/-- The ghost lists agree with the frame map: the live blocks are the allocated ones, and what
was never handed over is still reserved. -/
structure Tracks (s : BuddyAllocator) (live given : List (ℕ × ℕ)) (m : FrameMap) : Prop where
  refines : Refines s m
  nodup : live.Nodup
  allocated : ∀ p k, (p, k) ∈ live ↔ m.label p = .allocated k
  reserved : ∀ f, m.label f = .reserved ↔ ∀ range ∈ given, ¬ inRange range f
  total : s.freeFrames + (live.map fun b => 2 ^ b.2).sum = (given.map Prod.snd).sum

section Tracks

variable {s : BuddyAllocator} {live given : List (ℕ × ℕ)} {m : FrameMap}

theorem Tracks.perm {live' : List (ℕ × ℕ)} (h : Tracks s live given m) (hp : live.Perm live') :
    Tracks s live' given m :=
  ⟨h.refines, hp.nodup_iff.mp h.nodup, fun p k => by rw [← hp.mem_iff, h.allocated], h.reserved,
    by rw [← h.total, (hp.map _).sum_eq]⟩

theorem Tracks.disjoint (h : Tracks s live given m) {b c : ℕ × ℕ} (hb : b ∈ live) (hc : c ∈ live)
    (hne : b ≠ c) : Disjoint (block b.1 b.2) (block c.1 c.2) := by
  have hlb := (h.allocated b.1 b.2).mp hb
  have hlc := (h.allocated c.1 c.2).mp hc
  rw [Finset.disjoint_left]
  intro f hfb hfc
  obtain ⟨h₁, h₂⟩ := h.refines.wellFormed.shape.head_unique (by rw [hlb]; rfl) (by rw [hlc]; rfl)
    hfb hfc
  exact hne (Prod.ext h₁ h₂)

theorem Tracks.given_of_live (h : Tracks s live given m) {b : ℕ × ℕ} (hb : b ∈ live) {f : ℕ}
    (hf : f ∈ block b.1 b.2) : ∃ range ∈ given, inRange range f := by
  have hl := (h.allocated b.1 b.2).mp hb
  have hhead : (m.label b.1).headOrder = some b.2 := by rw [hl]; rfl
  have hne := h.refines.wellFormed.shape.ne_reserved_of_mem hhead hf
  by_contra hnone
  exact hne ((h.reserved f).mpr fun range hr hin => hnone ⟨range, hr, hin⟩)

theorem Tracks.freeRange (h : Tracks s live given m) {start count : ℕ}
    (hin : start + count ≤ s.nrFrames)
    (hres : ∀ f, start ≤ f → f < start + count → (s.info f).state = .reserved) :
    ∃ s', s.freeRange start count = .ok s' ∧
      Tracks s' live ((start, count) :: given) (FrameMap.seedRange (start + count) count m start) ∧
      SameSpan s s' := by
  have hlabel : ∀ f, start ≤ f → f < start + count → m.label f = .reserved := fun f hf hf' =>
    (h.refines.reserved_iff (by omega)).mp (hres f hf hf')
  have hspec := FrameMap.seedRange_spec h.refines.wellFormed h.refines.atRest count start
    (start + count) (by omega) hin hlabel
  obtain ⟨s', hs', href, hspan, hcount⟩ := freeRange_ok h.refines hin hlabel
  refine ⟨s', hs', ⟨href, h.nodup, ?_, ?_, ?_⟩, hspan⟩
  · intro p k
    rw [h.allocated, hspec.allocated]
  · intro f
    rw [hspec.reserved, h.reserved, List.forall_mem_cons, and_comm]
    rfl
  · rw [hcount, List.map_cons, List.sum_cons, ← h.total]
    omega

theorem Tracks.alloc (h : Tracks s live given m) (order : ℕ) :
    (m.allocate order = none ∧ s.alloc order = .ok (none, s)) ∨
      ∃ b m' s', m.allocate order = some (b, m') ∧ s.alloc order = .ok (some b, s') ∧
        Tracks s' ((b, order) :: live) given m' ∧ SameSpan s s' := by
  cases ha : m.allocate order with
  | none => exact .inl ⟨rfl, alloc_none h.refines.represents ha⟩
  | some r =>
      obtain ⟨b, m'⟩ := r
      have hspec := FrameMap.allocate_spec h.refines.wellFormed h.refines.atRest ha
      obtain ⟨s', hs', href, hspan, hcount, -⟩ := alloc_some h.refines ha
      have hfresh : ∀ k, m.label b ≠ .allocated k := by
        intro k hk
        exact h.refines.wellFormed.not_freeAt (by rw [hk]; rfl) (by rw [hk]; nofun)
          (start_mem_block b k) (hspec.wasFree b (start_mem_block b order))
      refine .inr ⟨b, m', s', rfl, hs', ⟨href, ?_, ?_, ?_, ?_⟩, hspan⟩
      · exact List.nodup_cons.mpr ⟨fun hm => hfresh order ((h.allocated b order).mp hm), h.nodup⟩
      · intro p k
        rw [List.mem_cons, hspec.allocated, h.allocated, Prod.mk.injEq, or_comm]
      · intro f
        rw [hspec.reserved, h.reserved]
      · rw [List.map_cons, List.sum_cons, ← h.total]
        change _ + (2 ^ order + _) = _
        omega

theorem Tracks.free (h : Tracks s live given m) {p order : ℕ} (hp : (p, order) ∈ live) :
    ∃ s', s.free p order = .ok s' ∧
      Tracks s' (live.erase (p, order)) given (m.release s.nrFrames p order) ∧ SameSpan s s' := by
  have hlabel := (h.allocated p order).mp hp
  have hspec := FrameMap.release_spec h.refines.wellFormed h.refines.atRest hlabel
  obtain ⟨s', hs', href, hspan, hcount, -⟩ := free_ok h.refines hlabel
  refine ⟨s', hs', ⟨href, h.nodup.erase _, ?_, ?_, ?_⟩, hspan⟩
  · intro q k
    rw [h.nodup.mem_erase_iff, hspec.allocated, h.allocated, ne_eq, Prod.mk.injEq]
    constructor
    · rintro ⟨hne, hq⟩
      refine ⟨hq, ?_⟩
      rintro rfl
      rw [hlabel] at hq
      exact hne ⟨rfl, (Label.allocated.inj hq).symm⟩
    · rintro ⟨hq, hne⟩
      exact ⟨fun he => hne he.1, hq⟩
  · intro f
    rw [hspec.reserved, h.reserved]
  · have hsum := ((List.perm_cons_erase hp).map fun b : ℕ × ℕ => 2 ^ b.2).sum_eq
    have htotal := h.total
    rw [List.map_cons, List.sum_cons] at hsum
    change _ = 2 ^ order + _ at hsum
    omega

end Tracks

end BuddyAllocator

structure BuddyRun where
  allocator : BuddyAllocator
  live : List (ℕ × ℕ)
  given : List (ℕ × ℕ)

inductive BuddyOp
  | freeRange (start count : ℕ)
  | alloc (order : ℕ)
  | free (pfn order : ℕ)

namespace BuddyOp

/-- What the callers promise: ranges of reserved frames, and live blocks with the order they
were allocated with. -/
def Legal (r : BuddyRun) : BuddyOp → Prop
  | freeRange start count => start + count ≤ r.allocator.nrFrames ∧
      ∀ f, start ≤ f → f < start + count → (r.allocator.info f).state = .reserved
  | alloc _ => True
  | free pfn order => (pfn, order) ∈ r.live

def run (r : BuddyRun) : BuddyOp → Outcome BuddyRun
  | freeRange start count => do
      let s ← r.allocator.freeRange start count
      return { r with allocator := s, given := (start, count) :: r.given }
  | alloc order => do
      let (pfn, s) ← r.allocator.alloc order
      match pfn with
      | none => return { r with allocator := s }
      | some p => return { r with allocator := s, live := (p, order) :: r.live }
  | free pfn order => do
      let s ← r.allocator.free pfn order
      return { r with allocator := s, live := r.live.erase (pfn, order) }

end BuddyOp

/-- The operations on frame maps. -/
inductive FrameMap.Step (nr : ℕ) (m : FrameMap) : BuddyOp → FrameMap → Prop
  | freeRange (start count : ℕ) :
      Step nr m (.freeRange start count) (seedRange (start + count) count m start)
  | allocNone {order : ℕ} : m.allocate order = none → Step nr m (.alloc order) m
  | allocSome {order b : ℕ} {m' : FrameMap} :
      m.allocate order = some (b, m') → Step nr m (.alloc order) m'
  | free (p order : ℕ) : Step nr m (.free p order) (m.release nr p order)

def buddySystem (pages : List PageInfo) (dramBase nrFrames : ℕ) : System BuddyRun BuddyOp where
  init r :=
    BuddyAllocator.new pages dramBase nrFrames = .ok r.allocator ∧ r.live = [] ∧ r.given = []
  step r op r' := op.Legal r ∧ op.run r = .ok r'

namespace BuddyRun

def Tracked (r : BuddyRun) (m : FrameMap) : Prop :=
  BuddyAllocator.Tracks r.allocator r.live r.given m

open BuddyAllocator

theorem Tracked.run {r : BuddyRun} {m : FrameMap} (h : r.Tracked m) {op : BuddyOp}
    (hop : op.Legal r) :
    ∃ r' m', op.run r = .ok r' ∧ r'.Tracked m' ∧ FrameMap.Step r.allocator.nrFrames m op m' ∧
      SameSpan r.allocator r'.allocator := by
  cases op with
  | freeRange start count =>
      obtain ⟨s', hs', ht, hspan⟩ := Tracks.freeRange h hop.1 hop.2
      exact ⟨⟨s', r.live, (start, count) :: r.given⟩, _, by rw [BuddyOp.run, hs', ok_bind]; rfl, ht,
        .freeRange start count, hspan⟩
  | alloc order =>
      rcases Tracks.alloc h order with ⟨ha, hs⟩ | ⟨b, m', s', ha, hs', ht, hspan⟩
      · exact ⟨r, m, by rw [BuddyOp.run, hs, ok_bind]; rfl, h, .allocNone ha, rfl, rfl⟩
      · exact ⟨⟨s', (b, order) :: r.live, r.given⟩, m', by rw [BuddyOp.run, hs', ok_bind]; rfl, ht,
          .allocSome ha, hspan⟩
  | free pfn order =>
      obtain ⟨s', hs', ht, hspan⟩ := Tracks.free h hop
      exact ⟨⟨s', r.live.erase (pfn, order), r.given⟩,
        _, by rw [BuddyOp.run, hs', ok_bind]; rfl, ht,
        .free pfn order, hspan⟩

theorem tracked_new {pages : List PageInfo} {dramBase nrFrames : ℕ} {r : BuddyRun}
    (hlt : nrFrames < 2 ^ 32) (h : (buddySystem pages dramBase nrFrames).init r) :
    r.Tracked emptyMap ∧ r.allocator.nrFrames = nrFrames ∧ r.allocator.dramBase = dramBase := by
  obtain ⟨hnew, hlive, hgiven⟩ := h
  have hlen : nrFrames ≤ pages.length := by
    by_contra hlen
    rw [new, debugAssert, if_neg hlen, error_bind] at hnew
    cases hnew
  obtain ⟨s, hs, href, hnr, hbase, hzero⟩ := new_ok dramBase hlen hlt
  obtain rfl : s = r.allocator := Except.ok.inj (hs.symm.trans hnew)
  refine ⟨⟨href, ?_, ?_, ?_, ?_⟩, hnr, hbase⟩
  · rw [hlive]
    exact List.nodup_nil
  · rw [hlive]
    simp [emptyMap]
  · rw [hgiven]
    exact fun _ => ⟨fun _ => List.forall_mem_nil _, fun _ => rfl⟩
  · rw [hlive, hgiven, hzero]
    rfl

theorem tracked_of_reachable {pages : List PageInfo} {dramBase nrFrames : ℕ} {r : BuddyRun}
    (hlt : nrFrames < 2 ^ 32) (h : (buddySystem pages dramBase nrFrames).Reachable r) :
    (∃ m, r.Tracked m) ∧ r.allocator.nrFrames = nrFrames ∧ r.allocator.dramBase = dramBase := by
  revert h
  apply System.Reachable.invariant
  · intro r hr
    obtain ⟨ht, hspan⟩ := tracked_new hlt hr
    exact ⟨⟨_, ht⟩, hspan⟩
  · rintro r op r' ⟨⟨m, ht⟩, hnr, hbase⟩ ⟨hlegal, hstep⟩
    obtain ⟨r'', m', hrun, ht', -, hspan⟩ := ht.run hlegal
    obtain rfl : r'' = r' := Except.ok.inj (hrun.symm.trans hstep)
    exact ⟨⟨m', ht'⟩, hspan.nrFrames.trans hnr, hspan.dramBase.trans hbase⟩

/-- In every state of every run the mem-map, the links and the counter are consistent, and
every legal operation returns. -/
theorem representationInvariant_of_reachable {pages : List PageInfo} {dramBase nrFrames : ℕ}
    {r : BuddyRun} (hlt : nrFrames < 2 ^ 32)
    (h : (buddySystem pages dramBase nrFrames).Reachable r) :
    r.allocator.nrFrames = nrFrames ∧ RepresentationInvariant r.allocator ∧
      ∀ op, BuddyOp.Legal r op → ∃ r', op.run r = .ok r' := by
  obtain ⟨⟨m, ht⟩, hnr, -⟩ := tracked_of_reachable hlt h
  refine ⟨hnr, Refines.representationInvariant ht.refines, fun op hop => ?_⟩
  obtain ⟨r', m', hrun, -⟩ := ht.run hop
  exact ⟨r', hrun⟩

def sixReserved : BuddyRun :=
  ⟨⟨List.replicate 6 (PageInfo.markReserved default), 0x40000000, 6,
    List.replicate maxOrder none, 0⟩,
    [], []⟩

/-- Six frames, the first five of them handed over, a block of two live. -/
def sixFrames : BuddyRun where
  allocator :=
    { pages := [⟨rawNone, rawNone, 1, .allocated⟩, ⟨rawNone, rawNone, 0, .tail⟩,
        ⟨rawNone, rawNone, 1, .free⟩, ⟨rawNone, rawNone, 0, .tail⟩, ⟨rawNone, rawNone, 0, .free⟩,
        ⟨rawNone, rawNone, 0, .reserved⟩]
      dramBase := 0x40000000
      nrFrames := 6
      freeArea := [some 4, some 2, none, none, none, none, none, none, none, none, none]
      freeFrames := 3 }
  live := [(0, 1)]
  given := [(0, 5)]

theorem sixFrames_reachable :
    (buddySystem (List.replicate 6 default) 0x40000000 6).Reachable sixFrames := by
  have hinit : (buddySystem (List.replicate 6 default) 0x40000000 6).init sixReserved :=
    ⟨rfl, rfl, rfl⟩
  have hstate : ∀ f < 5, (sixReserved.allocator.info f).state = .reserved := by decide
  have hgive : BuddyOp.Legal sixReserved (.freeRange 0 5) := ⟨by decide, fun f _ hf => hstate f hf⟩
  exact ((System.Reachable.init hinit).step (e := .freeRange 0 5) ⟨hgive, rfl⟩).step
    (e := .alloc 1) ⟨trivial, rfl⟩

theorem representationInvariant_sixFrames : RepresentationInvariant sixFrames.allocator :=
  (representationInvariant_of_reachable (by decide) sixFrames_reachable).2.1

end BuddyRun

end Preon.Memory
