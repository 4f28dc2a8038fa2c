import Preon.Memory.BootMemHoles

/-!
# Registration at the top of the frame space

A frame number has 32 bits, which leaves room for 2 ^ 32 frames.  The end of a region is a frame
number too, so a region that reaches the last frame has its end wrapped to zero: such a region
counts as empty wherever `end()` is read.  Below the last frame registration is exact.
-/

namespace Preon.Memory

open Framework

namespace Region

/-- The frames from `base` up to `end()` are those that satisfy `P`, and there is one. -/
structure Covers (r : Region) (P : ℕ → Prop) : Prop where
  frames : ∀ f, r.base ≤ f ∧ f < r.endPfn ↔ P f
  nonempty : r.base < r.endPfn

private theorem Proper.covers {q : Region} (h : q.Proper) {P : ℕ → Prop} (hP : ∀ f, q.Has f ↔ P f) :
    Covers q P := by
  have hne := h.nonempty
  refine ⟨fun f => ?_, by rw [h.endPfn_eq]; omega⟩
  rw [h.endPfn_eq]
  exact hP f

private theorem not_covers_of_top {q : Region} (htop : q.base + q.frames = 2 ^ 32) (P : ℕ → Prop) :
    ¬ Covers q P := by
  intro h
  have hwrap : q.endPfn = 0 := by
    rw [Region.endPfn, htop]
    rfl
  have hne := h.nonempty
  omega

end Region

namespace BootMem

variable {b : BootMem}

def frameSpaceEnd : ℕ := 2 ^ 32 * pageSize

/-- On every map with room `reserve_bytes` records one region of exactly the frames that the bytes
touch. -/
def ReservesExactly (basePa endPa : ℕ) : Prop :=
  ∀ b : BootMem, b.reserved.length < nrRegions → ∃ r b', b.reserveBytes basePa endPa = .ok b' ∧
    b'.memory = b.memory ∧ b'.reserved.Perm (r :: b.reserved) ∧
    r.Covers (Touches (basePa, endPa))

/-- On every map with room `add_memory_bytes` records one region of exactly the frames wholly inside
the bytes, or nothing if there are none; and a single recorded region is seen whole. -/
structure AddsExactly (basePa endPa : ℕ) : Prop where
  records : ∀ b : BootMem, b.memory.length < nrRegions →
    ((∀ f, ¬ WhollyInside (basePa, endPa) f) ∧ b.addMemoryBytes basePa endPa = .ok b) ∨
      ∃ r, b.addMemoryBytes basePa endPa = .ok { b with memory := b.memory ++ [r] } ∧
        r.Covers (WhollyInside (basePa, endPa))
  whole : ∀ r, new.addMemoryBytes basePa endPa = .ok ⟨[r], []⟩ →
    ramSpan ⟨[r], []⟩ = .ok (r.base, r.frames) ∧
      ∀ (σ : Type) (f : σ → Region → Outcome σ) (acc : σ), forEachFree ⟨[r], []⟩ f acc = f acc r

/-! ## What is recorded -/

variable {r : ℕ × ℕ}

private theorem reserveBytes_perm (hne : r.1 < r.2) (hend : r.2 ≤ frameSpaceEnd)
    (hcap : b.reserved.length < nrRegions) :
    ∃ b', b.reserveBytes r.1 r.2 = .ok b' ∧ b'.memory = b.memory ∧
      b'.reserved.Perm (reservedRegion r :: b.reserved) := by
  have hlt : r.1 / pageSize < divCeil r.2 pageSize := by
    simp only [divCeil, pageSize]
    omega
  have hbase : r.1 / pageSize < 2 ^ 32 := by
    simp only [frameSpaceEnd, pageSize] at hend ⊢
    omega
  have hframes : 1 ≤ (reservedRegion r).frames := by
    simp only [reservedRegion]
    omega
  rw [reserveBytes_reserve b hlt.le hbase, reserve_eq b hframes hcap rfl]
  exact ⟨_, rfl, rfl, insert_perm ..⟩

private theorem addMemoryBytes_below (hpage : HoldsPage r) (hend : r.2 ≤ frameSpaceEnd)
    (hcap : b.memory.length < nrRegions) :
    b.addMemoryBytes r.1 r.2 = .ok { b with memory := b.memory ++ [ramRegion r] } := by
  have hlt : divCeil r.1 pageSize < r.2 / pageSize := hpage
  apply addMemoryBytes_append hpage _ hcap
  simp only [frameSpaceEnd, pageSize] at hend hlt ⊢
  omega

/-! ## Below the last frame, and at it -/

private theorem reservedRegion_top (hne : r.1 < r.2) (hend : r.2 ≤ frameSpaceEnd)
    (htop : maxEnd < r.2) :
    (reservedRegion r).base + (reservedRegion r).frames = 2 ^ 32 := by
  simp only [reservedRegion, divCeil, maxEnd, frameSpaceEnd, pageSize] at *
  omega

private theorem ramRegion_top (hpage : HoldsPage r) (htop : r.2 = frameSpaceEnd) :
    (ramRegion r).base + (ramRegion r).frames = 2 ^ 32 := by
  simp only [HoldsPage, ramRegion, divCeil, frameSpaceEnd, pageSize] at *
  omega

private theorem reservesExactly_iff (hne : r.1 < r.2) (hend : r.2 ≤ frameSpaceEnd) :
    ReservesExactly r.1 r.2 ↔ r.2 ≤ maxEnd := by
  constructor
  · intro h
    by_contra htop
    obtain ⟨q, b', hok, -, hperm, hcovers⟩ := h new (by decide)
    obtain ⟨b₁, hok₁, -, hperm₁⟩ := reserveBytes_perm (b := new) hne hend (by decide)
    obtain rfl := Except.ok.inj (hok₁.symm.trans hok)
    obtain rfl : q = reservedRegion r :=
      List.singleton_perm_singleton.mp (hperm.symm.trans hperm₁)
    exact Region.not_covers_of_top (reservedRegion_top hne hend (by omega)) _ hcovers
  · intro hle b hcap
    obtain ⟨b', hok, hmem, hperm⟩ := reserveBytes_perm hne hend hcap
    exact ⟨_, b', hok, hmem, hperm,
      (reservedRegion_proper hne hle).covers (reservedRegion_has r)⟩

/-- One region and no reservation: the span is the region and so is the only hole. -/
theorem single_region_whole {q : Region} (h : q.Proper) :
    ramSpan ⟨[q], []⟩ = .ok (q.base, q.frames) ∧
      ∀ (σ : Type) (f : σ → Region → Outcome σ) (acc : σ),
        forEachFree ⟨[q], []⟩ f acc = f acc q := by
  have hend := h.endPfn_eq
  have hlt := h.end_lt
  have hne := h.nonempty
  constructor
  · have hlo : min (2 ^ 32 - 1) q.base = q.base := by omega
    have hhi : max 0 (q.base + q.frames) = q.base + q.frames := by omega
    rw [ramSpan, assertMsg_true (by simp), ok_bind]
    simp only [List.foldl_cons, List.foldl_nil, hend, hlo, hhi]
    rw [checkedSub_ok (Nat.le_add_right ..), ok_bind, Nat.add_sub_cancel_left]
    rfl
  · intro σ f acc
    have hhole : q.base < q.base + q.frames := by omega
    rw [forEachFree_eq]
    simp [holes, holesOf, gaps, hend, hhole, Region.ofInterval]

private theorem addsExactly_iff (hend : r.2 ≤ frameSpaceEnd) :
    AddsExactly r.1 r.2 ↔ r.2 < frameSpaceEnd ∨ ¬ HoldsPage r := by
  constructor
  · intro h
    by_contra hno
    rw [not_or, not_not, Nat.not_lt] at hno
    obtain ⟨htop, hpage⟩ := hno
    rcases h.records new (by decide) with ⟨hnone, -⟩ | ⟨q, hok, hcovers⟩
    · obtain ⟨f, hf⟩ := (holdsPage_iff r).mp hpage
      exact hnone f hf
    · rw [addMemoryBytes_below hpage hend (by decide)] at hok
      have hlist : [ramRegion r] = [q] := congrArg memory (Except.ok.inj hok)
      obtain rfl := List.singleton_injective hlist
      exact Region.not_covers_of_top (ramRegion_top hpage (le_antisymm hend htop)) _ hcovers
  · intro hcase
    by_cases hpage : HoldsPage r
    · have hproper : (ramRegion r).Proper := by
        have hlt := hcase.resolve_right (not_not_intro hpage)
        apply hpage.proper
        simp only [frameSpaceEnd, pageSize] at hlt ⊢
        omega
      constructor
      · intro b hcap
        exact .inr ⟨_, addMemoryBytes_below hpage hend hcap, hproper.covers (ramRegion_has hpage)⟩
      · intro q hok
        rw [addMemoryBytes_below hpage hend (by decide)] at hok
        have hlist : [ramRegion r] = [q] := congrArg memory (Except.ok.inj hok)
        obtain rfl := List.singleton_injective hlist
        exact single_region_whole hproper
    · constructor
      · intro b _
        exact .inl ⟨fun f hf => hpage ((holdsPage_iff r).mpr ⟨f, hf⟩), addMemoryBytes_none hpage⟩
      · intro q hok
        rw [addMemoryBytes_none hpage] at hok
        cases congrArg memory (Except.ok.inj hok)

/-- Up to the end of the frame space a registration is exact unless it reaches the last frame. -/
theorem registration_exact_iff (basePa endPa : ℕ) (hne : basePa < endPa)
    (hend : endPa ≤ frameSpaceEnd) :
    (ReservesExactly basePa endPa ↔ endPa ≤ maxEnd) ∧
      (AddsExactly basePa endPa ↔
        endPa < frameSpaceEnd ∨ ∀ f, ¬ WhollyInside (basePa, endPa) f) := by
  refine ⟨reservesExactly_iff (r := (basePa, endPa)) hne hend, ?_⟩
  rw [addsExactly_iff (r := (basePa, endPa)) hend, holdsPage_iff, not_exists]

/-- The page below the last one, reserved and registered. -/
theorem registration_exact_below_top :
    ReservesExactly (maxEnd - pageSize) maxEnd ∧ AddsExactly (maxEnd - pageSize) maxEnd :=
  have h := registration_exact_iff (maxEnd - pageSize) maxEnd (by decide) (by decide)
  ⟨h.1.mpr le_rfl, h.2.mpr (.inl (by decide))⟩

/-- The last page lies below the documented cap, and its region ends at frame zero: `ram_span` on it
underflows. -/
theorem registration_not_exact_at_top :
    maxEnd < frameSpaceEnd ∧ frameSpaceEnd = 2 ^ 44 ∧
      ¬ ReservesExactly maxEnd frameSpaceEnd ∧ ¬ AddsExactly maxEnd frameSpaceEnd ∧
      new.addMemoryBytes maxEnd frameSpaceEnd = .ok ⟨[⟨2 ^ 32 - 1, 1⟩], []⟩ ∧
      (Region.mk (2 ^ 32 - 1) 1).endPfn = 0 ∧
      ramSpan ⟨[⟨2 ^ 32 - 1, 1⟩], []⟩ = .error .arithmeticOverflow := by
  refine ⟨by decide, by decide, ?_, ?_, by decide, by decide, by decide⟩
  · rw [reservesExactly_iff (r := (maxEnd, frameSpaceEnd)) (by decide) le_rfl]
    decide
  · rw [addsExactly_iff (r := (maxEnd, frameSpaceEnd)) le_rfl]
    decide

end BootMem

end Preon.Memory
