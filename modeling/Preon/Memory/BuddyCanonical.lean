import Preon.Memory.BuddyInvariant

/-!
# Full coalescing

No operation leaves two free buddies below the top order, provided the ranges handed over do not
touch.  The free blocks are then the maximal aligned blocks of the free frames, so that they
depend on which frames are free and not on how they came to be.
-/

namespace Preon.Memory

open Framework

namespace FrameMap

def NoFreeBuddies (m : FrameMap) : Prop :=
  ∀ p k, k + 1 < maxOrder → m.label p = .free k → m.label (p ^^^ 2 ^ k) ≠ .free k

variable {nr : ℕ} {m m' : FrameMap}

private theorem NoFreeBuddies.mono (h : NoFreeBuddies m)
    (hsub : ∀ q j, m'.label q = .free j → m.label q = .free j) : NoFreeBuddies m' := by
  intro p k hk hp hb
  exact h p k hk (hsub p k hp) (hsub _ k hb)

private theorem NoFreeBuddies.relabel (h : NoFreeBuddies m) {p : ℕ} {l : Label}
    (hl : ∀ j, l ≠ .free j) :
    NoFreeBuddies (m.relabel p l) := by
  apply h.mono
  intro q j hq
  rw [relabel_label] at hq
  by_cases hqp : q = p
  · subst hqp
    rw [setLabel_self] at hq
    exact absurd hq (hl j)
  · rwa [setLabel_of_ne _ _ hqp] at hq

private theorem NoFreeBuddies.take (h : NoFreeBuddies m) (k p : ℕ) : NoFreeBuddies (m.take k p) :=
  (h.relabel (p := p) (l := .detached k) nofun).mono fun _ _ hq => hq

private theorem NoFreeBuddies.push (h : NoFreeBuddies m) {k p : ℕ} (hal : Aligned p k)
    (hb : k + 1 < maxOrder → m.label (p ^^^ 2 ^ k) ≠ .free k) : NoFreeBuddies (m.push k p) := by
  intro q j hj hq hbuddy
  change setLabel m.label p (.free k) q = _ at hq
  change setLabel m.label p (.free k) (q ^^^ 2 ^ j) = _ at hbuddy
  by_cases hqp : q = p
  · subst hqp
    rw [setLabel_self] at hq
    cases hq
    rw [setLabel_of_ne _ _ hal.xor_ne] at hbuddy
    exact hb hj hbuddy
  · rw [setLabel_of_ne _ _ hqp] at hq
    by_cases hqb : q ^^^ 2 ^ j = p
    · rw [hqb, setLabel_self] at hbuddy
      cases hbuddy
      apply hb hj
      rw [← hqb, Nat.xor_assoc, Nat.xor_self, Nat.xor_zero]
      exact hq
    · rw [setLabel_of_ne _ _ hqb] at hbuddy
      exact h q j hj hq hbuddy

theorem upper_xor {b k : ℕ} (h : Aligned b (k + 1)) : (b + 2 ^ k) ^^^ 2 ^ k = b := by
  have hpos := Nat.two_pow_pos k
  have hpow := Nat.pow_succ 2 k
  rcases (h.mono (Nat.le_succ k)).xor_cases with ⟨-, hx⟩ | ⟨hle, hal, -⟩
  · rw [← hx, Nat.xor_assoc, Nat.xor_self, Nat.xor_zero]
  · have := h.eq_of_mem hal (start_mem_block b _) (by rw [mem_block]; omega)
    omega

private theorem NoFreeBuddies.splitDown (h : WellFormed nr m) (hn : NoFreeBuddies m)
    (order : ℕ) {b k : ℕ}
    (hb : m.label b = .detached k) : NoFreeBuddies (splitDown order b k m) := by
  induction k generalizing m with
  | zero => exact hn
  | succ k ih =>
      rw [FrameMap.splitDown]
      split
      · have hs := split_spec h hb
        have hal := (h.shape.head b (k + 1) (by rw [hb]; rfl)).2.1
        apply ih hs.wellFormed _ hs.label
        apply (hn.relabel (p := b) (l := .detached k) (by simp)).push hal.add
        intro _
        rw [upper_xor hal, relabel_label, setLabel_self]
        simp
      · exact hn

theorem NoFreeBuddies.allocate (h : WellFormed nr m) (hn : NoFreeBuddies m) {order b : ℕ}
    (ha : m.allocate order = some (b, m')) : NoFreeBuddies m' := by
  obtain ⟨k, rest, -, hq, rfl⟩ := FrameMap.allocate_eq_some ha
  have hb := h.queued.label_of_cons hq
  have hbt := FrameMap.take_label_self m k b
  exact (NoFreeBuddies.splitDown (h.take hb) (hn.take k b) order hbt).relabel (by simp)

/-- The merge loop stops only where the buddy of the merged block is not free. -/
theorem coalesce_noFreeBuddies (h : WellFormed nr m) (hn : NoFreeBuddies m) {rounds cur order : ℕ}
    (hcur : m.label cur = .detached order) (hr : rounds + order + 1 = maxOrder) :
    NoFreeBuddies (coalesce nr rounds m cur order).1 ∧
      ((coalesce nr rounds m cur order).2.2 + 1 < maxOrder →
        (coalesce nr rounds m cur order).1.label ((coalesce nr rounds m cur order).2.1 ^^^
          2 ^ (coalesce nr rounds m cur order).2.2) ≠ .free
            (coalesce nr rounds m cur order).2.2) := by
  induction rounds generalizing m cur order with
  | zero => exact ⟨hn, fun hlt => by simp only [coalesce] at hlt; omega⟩
  | succ rounds ih =>
      rw [coalesce]
      split
      · next hb =>
          have hs := mergeStep_spec h hcur hb.2 (by omega)
          have hno : NoFreeBuddies (m.mergeStep cur order) := by
            apply NoFreeBuddies.relabel
            · exact (hn.take order _).relabel (by simp)
            · simp
          exact ih hs.wellFormed hno hs.label (by omega)
      · next hb =>
          refine ⟨hn, fun _ hfree => hb ⟨?_, hfree⟩⟩
          exact (h.queued.in_range _ _ hfree).1

theorem NoFreeBuddies.release (h : WellFormed nr m) (hn : NoFreeBuddies m) {p order : ℕ}
    (hp : m.label p = .allocated order) : NoFreeBuddies (m.release nr p order) := by
  have hlt := (h.shape.head p order (by rw [hp]; rfl)).1
  have hd : (m.relabel p (.detached order)).label p = .detached order := setLabel_self ..
  have hwf : WellFormed nr (m.relabel p (.detached order)) :=
    h.relabel (k := order) (by rw [hp]; rfl) rfl (by rw [hp]; nofun) (by nofun)
  have hrounds : maxOrder - 1 - order + order + 1 = maxOrder := by omega
  obtain ⟨hno, hstop⟩ := coalesce_noFreeBuddies hwf (hn.relabel nofun) hd hrounds
  have hc := coalesce_spec hwf hd (by omega : maxOrder - 1 - order + order < maxOrder)
  rw [FrameMap.release]
  exact hno.push (hc.wellFormed.shape.head _ _ (by rw [hc.label]; rfl)).2.1 hstop

/-- Seeding a run of the free frames: the carved blocks are maximal, so none has a free buddy. -/
theorem NoFreeBuddies.seedRange (S : Set ℕ) (lo stop : ℕ) (hrun : ∀ f, lo ≤ f → f < stop → f ∈ S)
    (hlo : ∀ f, f + 1 = lo → f ∉ S) (hhi : stop ∉ S) (hstop : stop ≤ nr) (fuel : ℕ) {pfn : ℕ}
    (h : WellFormed nr m) (hrest : AtRest m) (hn : NoFreeBuddies m)
    (hres : ∀ f, pfn ≤ f → f < stop → m.label f = .reserved) (hS : ∀ f, FreeAt m f → f ∈ S)
    (hpfn : lo ≤ pfn) (hcut : Cut (maxOrder - 1) lo stop pfn) :
    NoFreeBuddies (seedRange stop fuel m pfn) := by
  induction fuel generalizing m pfn with
  | zero => exact hn
  | succ fuel ih =>
      rw [FrameMap.seedRange]
      split
      · next hlt =>
          have hg := greedyOrder_spec hlt
          have hs := seedStep_spec h hrest hlt hstop hres
          have hmax := hcut.maximalBlock hpfn hg hrun hlo hhi
          have hfits := hg.fits
          generalize greedyOrder pfn (stop - pfn) = k at hg hs hmax hfits ⊢
          have hpos := Nat.two_pow_pos k
          have hclaim : ∀ f ∈ block pfn k, m.label f = .reserved := fun f hf => by
            rw [mem_block] at hf
            exact hres f hf.1 (by omega)
          apply ih hs.wellFormed hs.atRest
          · apply (hn.mono fun q j hq => (free_claim hclaim q j).mp hq).push hg.aligned
            intro hk hfree
            rw [free_claim hclaim] at hfree
            obtain ⟨f, hf, hfS⟩ := hmax.maximal (by omega)
            obtain ⟨hal, hmx⟩ := hg.aligned.min_xor
            rw [hg.aligned.parentStart_eq_min, mem_block_succ, ← hmx] at hf
            apply hfS
            have hcases : f ∈ block pfn k ∨ f ∈ block (pfn ^^^ 2 ^ k) k := by
              rcases Nat.le_total pfn (pfn ^^^ 2 ^ k) with hle | hle
              · rwa [Nat.min_eq_left hle, Nat.max_eq_right hle] at hf
              · rwa [Nat.min_eq_right hle, Nat.max_eq_left hle, or_comm] at hf
            rcases hcases with hf | hf
            · rw [mem_block] at hf
              exact hrun f (by omega) (by omega)
            · exact hS f ⟨_, k, hfree, hf⟩
          · intro f hf hf'
            exact (hs.reserved f).mpr ⟨hres f (by omega) hf', by rw [mem_block]; omega⟩
          · intro f hf
            rcases (hs.freeAt f).mp hf with hf | hf
            · exact hS f hf
            · rw [mem_block] at hf
              exact hrun f (by omega) (by omega)
          · omega
          · exact hcut.step hpfn hg
      · exact hn

private theorem NoFreeBuddies.free_iff_maximalBlock (h : WellFormed nr m) (hn : NoFreeBuddies m)
    (p k : ℕ) : m.label p = .free k ↔ MaximalBlock (maxOrder - 1) {f | FreeAt m f} p k := by
  have hcap : 0 < maxOrder := by decide
  apply maximalBlock_iff_of_no_buddies (B := fun p k => m.label p = .free k)
  · intro p k hp
    obtain ⟨hk, hal, -⟩ := h.shape.head p k (by rw [hp]; rfl)
    exact ⟨hal, by omega⟩
  · intro p j q k f hp hq hfp hfq
    exact h.shape.head_unique (by rw [hp]; rfl) (by rw [hq]; rfl) hfp hfq
  · intro p k hk hp
    exact hn p k (by omega) hp

end FrameMap

namespace BuddyRun

open BuddyAllocator

/-- Two ranges that neither meet nor touch. -/
def Separated (a b : ℕ × ℕ) : Prop := a.1 + a.2 < b.1 ∨ b.1 + b.2 < a.1

variable {r : BuddyRun} {m : FrameMap}

private theorem Tracked.given_of_freeAt (h : r.Tracked m) {f : ℕ} (hf : FrameMap.FreeAt m f) :
    ∃ range ∈ r.given, inRange range f := by
  obtain ⟨p, k, hp, hm⟩ := hf
  have hne := h.refines.wellFormed.shape.ne_reserved_of_mem (by rw [hp]; rfl) hm
  by_contra hnone
  exact hne ((h.reserved f).mpr fun range hr hin => hnone ⟨range, hr, hin⟩)

theorem Tracked.noFreeBuddies_step (h : r.Tracked m) (hn : FrameMap.NoFreeBuddies m) {op : BuddyOp}
    (hop : op.Legal r) {m' : FrameMap} (hstep : FrameMap.Step r.allocator.nrFrames m op m')
    (hsep : ∀ start count, op = .freeRange start count →
      ∀ range ∈ r.given, Separated (start, count) range) : FrameMap.NoFreeBuddies m' := by
  have hwf := h.refines.wellFormed
  cases hstep with
  | freeRange start count =>
      obtain ⟨hin, hres⟩ := hop
      have hout (f : ℕ) (hf : FrameMap.FreeAt m f) : f + 1 ≠ start ∧ f ≠ start + count := by
        obtain ⟨range, hr, hm⟩ := h.given_of_freeAt hf
        have hs := hsep start count rfl range hr
        simp only [Separated, inRange] at hs hm
        omega
      apply FrameMap.NoFreeBuddies.seedRange
        {f | FrameMap.FreeAt m f ∨ start ≤ f ∧ f < start + count} start
          (start + count) _ _ _ hin count
        hwf h.refines.atRest hn _ (fun f hf => .inl hf) le_rfl (cut_start _ _ _)
      · exact fun f hf hf' => .inr ⟨hf, hf'⟩
      · rintro f hf (hfree | hrange)
        · exact (hout f hfree).1 hf
        · omega
      · rintro (hfree | hrange)
        · exact (hout _ hfree).2 rfl
        · omega
      · intro f hf hf'
        exact (h.refines.reserved_iff (lt_of_lt_of_le hf' hin)).mp (hres f hf hf')
  | allocNone ha => exact hn
  | allocSome ha => exact FrameMap.NoFreeBuddies.allocate hwf hn ha
  | free p order => exact FrameMap.NoFreeBuddies.release hwf hn ((h.allocated p order).mp hop)

theorem noFreeBuddies_of_reachable {pages : List PageInfo} {dramBase nrFrames : ℕ} {r : BuddyRun}
    (hlt : nrFrames < 2 ^ 32) (h : (buddySystem pages dramBase nrFrames).Reachable r) :
    ∃ m, r.Tracked m ∧ (r.given.Pairwise Separated → FrameMap.NoFreeBuddies m) := by
  revert h
  apply System.Reachable.invariant
  · intro r hr
    exact ⟨emptyMap, (tracked_new hlt hr).1, fun _ _ _ _ hp => nomatch hp⟩
  · rintro r op r' ⟨m, ht, hn⟩ ⟨hlegal, hrun⟩
    obtain ⟨r'', m', hrun', ht', hstep, -⟩ := ht.run hlegal
    obtain rfl : r'' = r' := Except.ok.inj (hrun'.symm.trans hrun)
    refine ⟨m', ht', fun hsep => ?_⟩
    have hgiven : (∀ start count, op = .freeRange start count →
        ∀ range ∈ r.given, Separated (start, count) range) ∧ r.given.Pairwise Separated := by
      cases op with
      | freeRange start count =>
          obtain ⟨s, hs, he⟩ := bind_eq_ok.mp hrun
          obtain rfl := Except.ok.inj he
          obtain ⟨hhead, htail⟩ := List.pairwise_cons.mp hsep
          exact ⟨fun _ _ he => by cases he; exact hhead, htail⟩
      | alloc order =>
          obtain ⟨⟨pfn, s⟩, hs, he⟩ := bind_eq_ok.mp hrun
          refine ⟨nofun, ?_⟩
          cases pfn <;> (obtain rfl := Except.ok.inj he; exact hsep)
      | free pfn order =>
          obtain ⟨s, hs, he⟩ := bind_eq_ok.mp hrun
          obtain rfl := Except.ok.inj he
          exact ⟨nofun, hsep⟩
    exact ht.noFreeBuddies_step (hn hgiven.2) hlegal hstep hgiven.1

def liveFrameSet (r : BuddyRun) : Finset ℕ := r.live.toFinset.biUnion fun b => block b.1 b.2

theorem Tracked.freeFrameSet_eq (h : r.Tracked m) :
    r.allocator.freeFrameSet = framesOf r.given \ r.liveFrameSet := by
  ext f
  simp only [liveFrameSet, Finset.mem_sdiff, Finset.mem_biUnion, List.mem_toFinset,
    h.refines.mem_freeFrameSet, mem_framesOf]
  constructor
  · intro hf
    refine ⟨h.given_of_freeAt hf, ?_⟩
    rintro ⟨b, hb, hm⟩
    have hl := (h.allocated b.1 b.2).mp hb
    exact h.refines.wellFormed.not_freeAt (by rw [hl]; rfl) (by rw [hl]; nofun) hm hf
  · rintro ⟨⟨range, hr, hin⟩, hlive⟩
    have hne : m.label f ≠ .reserved := fun hres => (h.reserved f).mp hres range hr hin
    obtain ⟨p, k, hp, hm⟩ := (h.refines.wellFormed.shape.exists_head_iff f).mpr hne
    cases hl : m.label p with
    | free j =>
        rw [hl] at hp
        exact ⟨p, k, hl.trans (congrArg _ (Option.some.inj hp)), hm⟩
    | allocated j =>
        rw [hl] at hp
        exact absurd ⟨(p, j), (h.allocated p j).mpr hl, Option.some.inj hp ▸ hm⟩ hlive
    | detached j => exact absurd hl (h.refines.atRest p j)
    | reserved => rw [hl] at hp; cases hp
    | tail => rw [hl] at hp; cases hp

def FreeBlock (r : BuddyRun) (p k : ℕ) : Prop :=
  p < r.allocator.nrFrames ∧ (r.allocator.info p).state = .free ∧ (r.allocator.info p).order = k

theorem Tracked.freeBlock_iff (h : r.Tracked m) (p k : ℕ) :
    r.FreeBlock p k ↔ m.label p = .free k := by
  constructor
  · rintro ⟨hp, hs⟩
    exact (h.refines.free_iff hp k).mp hs
  · intro hl
    have hp := (h.refines.wellFormed.queued.in_range p k hl).1
    exact ⟨hp, (h.refines.free_iff hp k).mpr hl⟩

private theorem freeBlock_iff_maximal {pages : List PageInfo} {dramBase nrFrames : ℕ} {r : BuddyRun}
    (hlt : nrFrames < 2 ^ 32) (h : (buddySystem pages dramBase nrFrames).Reachable r)
    (hsep : r.given.Pairwise Separated) (p k : ℕ) :
    r.FreeBlock p k ↔ MaximalBlock (maxOrder - 1) r.allocator.freeFrameSet p k := by
  obtain ⟨m, ht, hn⟩ := noFreeBuddies_of_reachable hlt h
  have hset : {f | FrameMap.FreeAt m f} = (r.allocator.freeFrameSet : Set ℕ) := by
    ext f
    exact ht.refines.mem_freeFrameSet.symm
  rw [ht.freeBlock_iff, (hn hsep).free_iff_maximalBlock ht.refines.wellFormed, hset]

/-- The free blocks are the maximal aligned blocks of free frames.  In particular no two buddies
below the top order are both free, the free blocks depend only on the frames handed over and the
frames that are live, and once nothing is live they are those right after seeding. -/
theorem freeBlocks_canonical {pages : List PageInfo} {dramBase nrFrames : ℕ} {r : BuddyRun}
    (hlt : nrFrames < 2 ^ 32) (h : (buddySystem pages dramBase nrFrames).Reachable r)
    (hsep : r.given.Pairwise Separated) :
    (∀ p k, r.FreeBlock p k ↔ MaximalBlock (maxOrder - 1) r.allocator.freeFrameSet p k) ∧
      (∀ p k, k < maxOrder - 1 → r.FreeBlock p k → ¬ r.FreeBlock (p ^^^ 2 ^ k) k) ∧
      (∀ r', (buddySystem pages dramBase nrFrames).Reachable r' → r'.given.Pairwise Separated →
        framesOf r'.given = framesOf r.given → r'.liveFrameSet = r.liveFrameSet →
        ∀ p k, r'.FreeBlock p k ↔ r.FreeBlock p k) ∧
      ∀ seeded, (buddySystem pages dramBase nrFrames).Reachable seeded → seeded.given = r.given →
        seeded.live = [] → r.live = [] → ∀ p k, r.FreeBlock p k ↔ seeded.FreeBlock p k := by
  have hmax := freeBlock_iff_maximal hlt h hsep
  have hsame (r' : BuddyRun) (h' : (buddySystem pages dramBase nrFrames).Reachable r')
      (hsep' : r'.given.Pairwise Separated) (hgiven : framesOf r'.given = framesOf r.given)
      (hlive : r'.liveFrameSet = r.liveFrameSet) (p k : ℕ) :
      r'.FreeBlock p k ↔ r.FreeBlock p k := by
    obtain ⟨m, ht, -⟩ := noFreeBuddies_of_reachable hlt h
    obtain ⟨m', ht', -⟩ := noFreeBuddies_of_reachable hlt h'
    rw [hmax, freeBlock_iff_maximal hlt h' hsep', ht.freeFrameSet_eq, ht'.freeFrameSet_eq, hgiven,
      hlive]
  refine ⟨hmax, ?_, hsame, ?_⟩
  · intro p k hk hp hb
    obtain ⟨m, ht, hn⟩ := noFreeBuddies_of_reachable hlt h
    rw [ht.freeBlock_iff] at hp hb
    exact hn hsep p k (by omega) hp hb
  · intro seeded hs hgiven hlive hlive' p k
    refine (hsame seeded hs (by rw [hgiven]; exact hsep) (by rw [hgiven]) ?_ p k).symm
    rw [liveFrameSet, liveFrameSet, hlive, hlive']

theorem freeBlocks_canonical_sixFrames :
    MaximalBlock (maxOrder - 1) sixFrames.allocator.freeFrameSet 2 1 :=
  ((freeBlocks_canonical (by decide) sixFrames_reachable (List.pairwise_singleton ..)).1 2 1).mp
    ⟨by decide, rfl, rfl⟩

end BuddyRun

end Preon.Memory
