import Mathlib.Order.Interval.Finset.Nat
import Preon.Memory.BootMem

/-!
# The holes of the boot-time memory map

The reservations stay sorted by their bases whatever the order they come in, so one pass over
them finds exactly the frames of a memory region that no reservation covers.
-/

namespace Preon.Memory

open Framework

namespace Region

def Has (r : Region) (f : ℕ) : Prop := r.base ≤ f ∧ f < r.base + r.frames

/-- The region is not empty and its end is a frame number. -/
structure Proper (r : Region) : Prop where
  nonempty : 1 ≤ r.frames
  end_lt : r.base + r.frames < 2 ^ 32

def interval (r : Region) : ℕ × ℕ := (r.base, r.endPfn)

def ofInterval (g : ℕ × ℕ) : Region := ⟨g.1, g.2 - g.1⟩

theorem Proper.endPfn_eq {r : Region} (h : r.Proper) : r.endPfn = r.base + r.frames :=
  truncate_of_lt h.end_lt

private theorem Proper.within_interval {r : Region} (h : r.Proper) (f : ℕ) :
    Within r.interval f ↔ r.Has f := by
  rw [Within, interval, h.endPfn_eq, Has]

end Region

namespace BootMem

/-- The holes of one memory region, in the order the pass meets them. -/
def holesOf (reserved : List Region) (m : Region) : List Region :=
  (gaps m.endPfn (reserved.map Region.interval) m.base).map Region.ofInterval

def holes (b : BootMem) : List Region := b.memory.flatMap (holesOf b.reserved)

/-! ## The pass visits the holes -/

private theorem sweep_bind {σ : Type} (f : σ → Region → Outcome σ) (m : Region) (rs : List Region)
    (cursor : ℕ) (acc : σ) :
    (sweep f m rs cursor acc >>= fun (cursor, acc) =>
      if cursor < m.endPfn then f acc ⟨cursor, m.endPfn - cursor⟩ else return acc) =
      ((gaps m.endPfn (rs.map Region.interval) cursor).map Region.ofInterval).foldlM f acc := by
  induction rs generalizing cursor acc with
  | nil =>
      simp only [sweep, pure_bind, List.map_nil, gaps]
      split
      · simp [Region.ofInterval]
      · rfl
  | cons r rs ih =>
      simp only [sweep, List.map_cons, gaps, Region.interval]
      split
      · exact ih cursor acc
      · split
        · simp only [bind_assoc, ih, List.map_cons, List.foldlM_cons]
          rfl
        · exact ih _ acc

private theorem freeOf_eq {σ : Type} (reserved : List Region) (f : σ → Region → Outcome σ) (acc : σ)
    (m : Region) : freeOf reserved f acc m = (holesOf reserved m).foldlM f acc :=
  sweep_bind f m reserved m.base acc

theorem forEachFree_eq {σ : Type} (b : BootMem) (f : σ → Region → Outcome σ) (acc : σ) :
    b.forEachFree f acc = b.holes.foldlM f acc := by
  rw [forEachFree, holes]
  generalize b.memory = memory
  induction memory generalizing acc with
  | nil => rfl
  | cons m ms ih =>
      simp only [List.foldlM_cons, List.flatMap_cons, List.foldlM_append, freeOf_eq]
      congr 1
      funext acc
      exact ih acc

/-! ## Well-formed maps -/

structure WellFormed (b : BootMem) : Prop where
  memory : ∀ m ∈ b.memory, m.Proper
  reserved : ∀ r ∈ b.reserved, r.Proper
  sorted : b.reserved.Pairwise fun r r' => r.base ≤ r'.base

/-- The frame is RAM and not reserved. -/
def FreeFrame (b : BootMem) (f : ℕ) : Prop :=
  (∃ m ∈ b.memory, m.Has f) ∧ ∀ r ∈ b.reserved, ¬ r.Has f

variable {b : BootMem}

private theorem WellFormed.intervals_sorted (h : b.WellFormed) :
    (b.reserved.map Region.interval).Pairwise fun r r' => r.1 ≤ r'.1 :=
  List.pairwise_map.mpr h.sorted

private theorem mem_holesOf {reserved : List Region} {m hole : Region}
    (h : hole ∈ holesOf reserved m) :
    ∃ g ∈ gaps m.endPfn (reserved.map Region.interval) m.base, Region.ofInterval g = hole :=
  List.mem_map.mp h

private theorem ofInterval_has {g : ℕ × ℕ} (hg : g.1 < g.2) (f : ℕ) :
    (Region.ofInterval g).Has f ↔ Within g f := by
  simp only [Region.Has, Region.ofInterval, Within]
  omega

theorem WellFormed.holesOf_has (h : b.WellFormed) {m : Region} (hm : m ∈ b.memory) (f : ℕ) :
    (∃ hole ∈ holesOf b.reserved m, hole.Has f) ↔ m.Has f ∧ ∀ r ∈ b.reserved, ¬ r.Has f := by
  have hgaps := mem_gaps m.endPfn h.intervals_sorted m.base f
  have hwin : m.base ≤ f ∧ f < m.endPfn ↔ m.Has f := (h.memory m hm).within_interval f
  have hres : (∀ r ∈ b.reserved.map Region.interval, ¬ Within r f) ↔
      ∀ r ∈ b.reserved, ¬ r.Has f := by
    simp only [List.forall_mem_map]
    exact forall₂_congr fun r hr => not_congr ((h.reserved r hr).within_interval f)
  rw [hwin, hres] at hgaps
  rw [← hgaps]
  constructor
  · rintro ⟨hole, hmem, hf⟩
    obtain ⟨g, hg, rfl⟩ := mem_holesOf hmem
    exact ⟨g, hg, (ofInterval_has (gap_bounds hg).2.1 f).mp hf⟩
  · rintro ⟨g, hg, hf⟩
    exact ⟨_, List.mem_map_of_mem hg, (ofInterval_has (gap_bounds hg).2.1 f).mpr hf⟩

theorem WellFormed.holes_has (h : b.WellFormed) (f : ℕ) :
    (∃ hole ∈ b.holes, hole.Has f) ↔ b.FreeFrame f := by
  simp only [holes, List.mem_flatMap]
  constructor
  · rintro ⟨hole, ⟨m, hm, hmem⟩, hf⟩
    obtain ⟨hin, hout⟩ := (h.holesOf_has hm f).mp ⟨hole, hmem, hf⟩
    exact ⟨⟨m, hm, hin⟩, hout⟩
  · rintro ⟨⟨m, hm, hin⟩, hout⟩
    obtain ⟨hole, hmem, hf⟩ := (h.holesOf_has hm f).mpr ⟨hin, hout⟩
    exact ⟨hole, ⟨m, hm, hmem⟩, hf⟩

theorem WellFormed.hole_inside (h : b.WellFormed) {m hole : Region} (hm : m ∈ b.memory)
    (hh : hole ∈ holesOf b.reserved m) :
    hole.Proper ∧ m.base ≤ hole.base ∧ hole.base + hole.frames ≤ m.base + m.frames := by
  obtain ⟨g, hg, rfl⟩ := mem_holesOf hh
  have hb := gap_bounds hg
  have hend := (h.memory m hm).endPfn_eq
  have hlt := (h.memory m hm).end_lt
  simp only [Region.ofInterval]
  have hnonempty : 1 ≤ g.2 - g.1 := by omega
  have hbelow : g.1 + (g.2 - g.1) < 2 ^ 32 := by omega
  exact ⟨⟨hnonempty, hbelow⟩, by omega, by omega⟩

def Apart (r r' : Region) : Prop := r.base + r.frames ≤ r'.base ∨ r'.base + r'.frames ≤ r.base

theorem WellFormed.holesOf_increasing (h : b.WellFormed) (m : Region) :
    (holesOf b.reserved m).Pairwise fun hole hole' => hole.base + hole.frames < hole'.base := by
  rw [holesOf, List.pairwise_map]
  apply (gaps_increasing _ m.base).imp_of_mem
  · intro g g' hg hg' hlt
    have := gap_bounds hg
    simp only [Region.ofInterval]
    omega
  · rw [List.forall_mem_map]
    intro r hr
    have := (h.reserved r hr).nonempty
    simp only [Region.interval, (h.reserved r hr).endPfn_eq]
    omega

theorem WellFormed.holes_apart (h : b.WellFormed) (hmem : b.memory.Pairwise Apart) :
    b.holes.Pairwise Apart := by
  rw [holes, List.pairwise_flatMap]
  constructor
  · intro m hm
    exact (h.holesOf_increasing m).imp fun hlt => .inl hlt.le
  · apply hmem.imp_of_mem
    intro m m' hm hm' hap hole hh hole' hh'
    have h₁ := h.hole_inside hm hh
    have h₂ := h.hole_inside hm' hh'
    simp only [Apart] at hap ⊢
    omega

/-! ## Registration -/

private theorem insertPoint_le (reserved : List Region) (base i : ℕ) :
    insertPoint reserved base i ≤ i := by
  induction i with
  | zero => simp [insertPoint]
  | succ i ih =>
      rw [insertPoint]
      split
      · omega
      · simp

private theorem insertPoint_spec {reserved : List Region}
    (hsorted : reserved.Pairwise fun r r' => r.base ≤ r'.base) (base : ℕ) {i : ℕ}
    (hi : i ≤ reserved.length) :
    (∀ r ∈ reserved.take (insertPoint reserved base i), r.base ≤ base) ∧
      ∀ r ∈ (reserved.take i).drop (insertPoint reserved base i), base ≤ r.base := by
  induction i with
  | zero => simp [insertPoint]
  | succ i ih =>
      have hlt : i < reserved.length := hi
      have hlast : reserved.getD i ⟨0, 0⟩ = reserved[i] := List.getD_eq_getElem _ _ hlt
      rw [insertPoint, hlast]
      split
      · next hbase =>
          obtain ⟨hlow, hhigh⟩ := ih hlt.le
          refine ⟨hlow, ?_⟩
          rw [List.take_succ_eq_append_getElem hlt,
            List.drop_append_of_le_length
              (by rw [List.length_take]; have := insertPoint_le reserved base i; omega)]
          intro r hr
          rcases List.mem_append.mp hr with hr | hr
          · exact hhigh r hr
          · rw [List.mem_singleton.mp hr]
            exact hbase.le
      · next hbase =>
          refine ⟨?_, by simp⟩
          intro r hr
          obtain ⟨j, hj, rfl⟩ := List.mem_take_iff_getElem.mp hr
          rcases Nat.lt_or_ge j i with hji | hji
          · have := List.pairwise_iff_getElem.mp hsorted j i (by omega) hlt hji
            omega
          · obtain rfl : j = i := by omega
            omega

private theorem insert_sorted {reserved : List Region}
    (hsorted : reserved.Pairwise fun r r' => r.base ≤ r'.base) (r : Region) {i : ℕ}
    (hi : i = insertPoint reserved r.base reserved.length) :
    (reserved.take i ++ r :: reserved.drop i).Pairwise fun r r' => r.base ≤ r'.base := by
  obtain ⟨hlow, hhigh⟩ := insertPoint_spec hsorted r.base (Nat.le_refl _)
  rw [List.take_length, ← hi] at hhigh
  rw [← hi] at hlow
  rw [← List.take_append_drop i reserved, List.pairwise_append] at hsorted
  obtain ⟨htake, hdrop, hcross⟩ := hsorted
  rw [List.pairwise_append, List.pairwise_cons]
  refine ⟨htake, ⟨hhigh, hdrop⟩, fun q hq q' hq' => ?_⟩
  rcases List.mem_cons.mp hq' with rfl | hq'
  · exact hlow q hq
  · exact hcross q hq q' hq'

theorem insert_perm (rs : List Region) (i : ℕ) (r : Region) :
    (rs.take i ++ r :: rs.drop i).Perm (r :: rs) := by
  refine List.perm_middle.trans ?_
  rw [List.take_append_drop]

theorem reserve_eq (b : BootMem) {base frames i : ℕ} (hframes : 1 ≤ frames)
    (hcap : b.reserved.length < nrRegions)
    (hi : insertPoint b.reserved base b.reserved.length = i) :
    b.reserve base frames =
      .ok ⟨b.memory, b.reserved.take i ++ ⟨base, frames⟩ :: b.reserved.drop i⟩ := by
  rw [reserve, debugAssert_true hframes, ok_bind, assertMsg_true hcap, ok_bind, hi]
  rfl

theorem reserve_ok (h : b.WellFormed) (base frames : ℕ) (hr : (Region.mk base frames).Proper)
    (hcap : b.reserved.length < nrRegions) :
    ∃ b', b.reserve base frames = .ok b' ∧ b'.WellFormed ∧ b'.memory = b.memory ∧
      b'.reserved.Perm (⟨base, frames⟩ :: b.reserved) := by
  generalize hi : insertPoint b.reserved base b.reserved.length = i
  have hperm := insert_perm b.reserved i ⟨base, frames⟩
  refine ⟨_, reserve_eq b hr.nonempty hcap hi, ⟨h.memory, ?_, ?_⟩, rfl, hperm⟩
  · intro r hmem
    rcases List.mem_cons.mp (hperm.mem_iff.mp hmem) with rfl | hmem
    · exact hr
    · exact h.reserved r hmem
  · exact insert_sorted h.sorted ⟨base, frames⟩ hi.symm

/-- All the bytes of the frame lie in the byte range. -/
def WhollyInside (r : ℕ × ℕ) (f : ℕ) : Prop := r.1 ≤ f * pageSize ∧ (f + 1) * pageSize ≤ r.2

/-- Some byte of the frame lies in the byte range. -/
def Touches (r : ℕ × ℕ) (f : ℕ) : Prop := r.1 < (f + 1) * pageSize ∧ f * pageSize < r.2

/-- The largest end that the hand-off accepts. -/
def maxEnd : ℕ := (2 ^ 32 - 1) * pageSize

/-- The range has a whole page. -/
def HoldsPage (r : ℕ × ℕ) : Prop := divCeil r.1 pageSize < r.2 / pageSize

instance (r : ℕ × ℕ) : Decidable (HoldsPage r) := inferInstanceAs (Decidable (_ < _))

/-- RAM bytes round inward. -/
def ramRegion (r : ℕ × ℕ) : Region :=
  ⟨divCeil r.1 pageSize, r.2 / pageSize - divCeil r.1 pageSize⟩

/-- Reserved bytes round outward. -/
def reservedRegion (r : ℕ × ℕ) : Region :=
  ⟨r.1 / pageSize, divCeil r.2 pageSize - r.1 / pageSize⟩

theorem ramRegion_has {r : ℕ × ℕ} (h : HoldsPage r) (f : ℕ) :
    (ramRegion r).Has f ↔ WhollyInside r f := by
  simp only [HoldsPage, ramRegion, Region.Has, WhollyInside, divCeil, pageSize] at h ⊢
  omega

theorem holdsPage_iff (r : ℕ × ℕ) : HoldsPage r ↔ ∃ f, WhollyInside r f := by
  simp only [HoldsPage, WhollyInside, divCeil, pageSize]
  constructor
  · intro h
    exact ⟨(r.1 + 4096 - 1) / 4096, by omega, by omega⟩
  · rintro ⟨f, h₁, h₂⟩
    omega

theorem reservedRegion_has (r : ℕ × ℕ) (f : ℕ) :
    (reservedRegion r).Has f ↔ Touches r f := by
  simp only [reservedRegion, Region.Has, Touches, divCeil, pageSize]
  omega

theorem HoldsPage.proper {r : ℕ × ℕ} (h : HoldsPage r) (hend : r.2 / pageSize < 2 ^ 32) :
    (ramRegion r).Proper := by
  simp only [HoldsPage] at h
  constructor
  · simp only [ramRegion]
    omega
  · simp only [ramRegion]
    omega

theorem ramRegion_proper {r : ℕ × ℕ} (h : HoldsPage r) (hend : r.2 ≤ maxEnd) :
    (ramRegion r).Proper := by
  apply h.proper
  simp only [maxEnd, pageSize] at hend ⊢
  omega

theorem proper_of_nonempty {r : ℕ × ℕ} (h : r.1 < r.2) (hend : divCeil r.2 pageSize < 2 ^ 32) :
    (reservedRegion r).Proper := by
  have hlt : r.1 / pageSize < divCeil r.2 pageSize := by
    simp only [divCeil, pageSize]
    omega
  constructor
  · simp only [reservedRegion]
    omega
  · simp only [reservedRegion]
    omega

theorem reservedRegion_proper {r : ℕ × ℕ} (h : r.1 < r.2) (hend : r.2 ≤ maxEnd) :
    (reservedRegion r).Proper := by
  apply proper_of_nonempty h
  simp only [maxEnd, divCeil, pageSize] at hend ⊢
  omega

theorem addMemoryBytes_append {r : ℕ × ℕ} (h : HoldsPage r) (hbase : divCeil r.1 pageSize < 2 ^ 32)
    (hcap : b.memory.length < nrRegions) :
    b.addMemoryBytes r.1 r.2 = .ok { b with memory := b.memory ++ [ramRegion r] } := by
  have hlt : divCeil r.1 pageSize < r.2 / pageSize := h
  simp only [addMemoryBytes]
  rw [if_pos hlt, addMemory, debugAssert_true (by omega), ok_bind, assertMsg_true hcap, ok_bind,
    truncate_of_lt hbase]
  rfl

theorem addMemoryBytes_ok {r : ℕ × ℕ} (hp : (ramRegion r).Proper)
    (hcap : b.memory.length < nrRegions) :
    b.addMemoryBytes r.1 r.2 = .ok { b with memory := b.memory ++ [ramRegion r] } := by
  obtain ⟨hframes, hend⟩ := hp
  simp only [ramRegion] at hframes hend
  exact addMemoryBytes_append (by rw [HoldsPage]; omega) (by omega) hcap

theorem addMemoryBytes_capacity {b b' : BootMem} {r : ℕ × ℕ} (h : HoldsPage r)
    (hok : b.addMemoryBytes r.1 r.2 = .ok b') : b.memory.length < nrRegions := by
  have hlt : divCeil r.1 pageSize < r.2 / pageSize := h
  simp only [addMemoryBytes] at hok
  rw [if_pos hlt, addMemory] at hok
  obtain ⟨_, -, hok⟩ := bind_eq_ok.mp hok
  obtain ⟨_, hassert, -⟩ := bind_eq_ok.mp hok
  by_contra hcap
  rw [assertMsg, if_neg hcap] at hassert
  cases hassert

theorem addMemoryBytes_none {r : ℕ × ℕ} (h : ¬ HoldsPage r) : b.addMemoryBytes r.1 r.2 = .ok b := by
  have hge : ¬ divCeil r.1 pageSize < r.2 / pageSize := h
  simp only [addMemoryBytes]
  rw [if_neg hge]
  rfl

theorem reserveBytes_reserve (b : BootMem) {r : ℕ × ℕ} (hle : r.1 / pageSize ≤ divCeil r.2 pageSize)
    (hbase : r.1 / pageSize < 2 ^ 32) :
    b.reserveBytes r.1 r.2 = b.reserve (reservedRegion r).base (reservedRegion r).frames := by
  simp only [reserveBytes]
  rw [checkedSub_ok hle, ok_bind, truncate_of_lt hbase]
  rfl

theorem reserveBytes_eq {r : ℕ × ℕ} (hp : (reservedRegion r).Proper) :
    b.reserveBytes r.1 r.2 = b.reserve (reservedRegion r).base (reservedRegion r).frames := by
  obtain ⟨hframes, hend⟩ := hp
  simp only [reservedRegion] at hframes hend
  exact reserveBytes_reserve b (by omega) (by omega)

private theorem reserveBytes_ok (hb : b.WellFormed) {r : ℕ × ℕ} (hp : (reservedRegion r).Proper)
    (hcap : b.reserved.length < nrRegions) :
    ∃ b', b.reserveBytes r.1 r.2 = .ok b' ∧ b'.WellFormed ∧ b'.memory = b.memory ∧
      b'.reserved.Perm (reservedRegion r :: b.reserved) := by
  rw [reserveBytes_eq hp]
  exact reserve_ok hb _ _ hp hcap

/-! ## A whole registration -/

/-- What the device tree and the boot code promise about the byte ranges. -/
structure Input (ram reservations : List (ℕ × ℕ)) : Prop where
  disjoint : ram.Pairwise fun a b => Disjoint (Finset.Ico a.1 a.2) (Finset.Ico b.1 b.2)
  page : ∃ r ∈ ram, ∃ f, WhollyInside r f
  ram_end : ∀ r ∈ ram, r.2 ≤ maxEnd
  reserved_nonempty : ∀ r ∈ reservations, r.1 < r.2
  reserved_end : ∀ r ∈ reservations, r.2 ≤ maxEnd
  ram_capacity : (ram.filter fun r => decide (HoldsPage r)).length ≤ nrRegions
  reserved_capacity : reservations.length < nrRegions

private theorem addMemory_fold {ram : List (ℕ × ℕ)} (hend : ∀ r ∈ ram, r.2 ≤ maxEnd)
    (hcap : b.memory.length + (ram.filter fun r => decide (HoldsPage r)).length ≤ nrRegions) :
    ram.foldlM (fun b r => b.addMemoryBytes r.1 r.2) b =
      .ok { b with memory := b.memory ++
        (ram.filter fun r => decide (HoldsPage r)).map ramRegion } := by
  induction ram generalizing b with
  | nil => simp [pure, Except.pure]
  | cons r rs ih =>
      obtain ⟨hr, hrs⟩ := List.forall_mem_cons.mp hend
      rw [List.foldlM_cons]
      by_cases hp : HoldsPage r
      · rw [List.filter_cons_of_pos (by simpa using hp)] at hcap ⊢
        rw [List.length_cons] at hcap
        rw [addMemoryBytes_ok (ramRegion_proper hp hr) (by omega), ok_bind, ih hrs]
        · simp
        · simp only [List.length_append, List.length_singleton]
          omega
      · rw [List.filter_cons_of_neg (by simpa using hp)] at hcap ⊢
        rw [addMemoryBytes_none hp, ok_bind, ih hrs hcap]

private theorem reserve_fold {rs : List (ℕ × ℕ)} (hb : b.WellFormed) (hne : ∀ r ∈ rs, r.1 < r.2)
    (hend : ∀ r ∈ rs, r.2 ≤ maxEnd) (hcap : b.reserved.length + rs.length ≤ nrRegions) :
    ∃ b', rs.foldlM (fun b r => b.reserveBytes r.1 r.2) b = .ok b' ∧ b'.WellFormed ∧
      b'.memory = b.memory ∧ b'.reserved.Perm (rs.map reservedRegion ++ b.reserved) := by
  induction rs generalizing b with
  | nil => exact ⟨b, rfl, hb, rfl, List.Perm.refl _⟩
  | cons r rs ih =>
      obtain ⟨hr, hrs⟩ := List.forall_mem_cons.mp hne
      obtain ⟨he, hes⟩ := List.forall_mem_cons.mp hend
      rw [List.length_cons] at hcap
      obtain ⟨b₁, hb₁, hwf₁, hmem₁, hperm₁⟩ :=
        reserveBytes_ok hb (reservedRegion_proper hr he) (by omega)
      have hlen := hperm₁.length_eq
      rw [List.length_cons] at hlen
      obtain ⟨b', hb', hwf', hmem', hperm'⟩ := ih hwf₁ hrs hes (by omega)
      refine ⟨b', ?_, hwf', hmem'.trans hmem₁, ?_⟩
      · rw [List.foldlM_cons, hb₁, ok_bind, hb']
      · refine hperm'.trans ((hperm₁.append_left _).trans ?_)
        simp

/-- The map after a registration holds the rounded ranges. -/
structure Fed (ram reservations : List (ℕ × ℕ)) (b : BootMem) : Prop where
  wellFormed : b.WellFormed
  memory : b.memory = (ram.filter fun r => decide (HoldsPage r)).map ramRegion
  reserved : b.reserved.Perm (reservations.map reservedRegion)

theorem feed_ok {ram reservations : List (ℕ × ℕ)} (h : Input ram reservations) :
    ∃ b, feed ram reservations = .ok b ∧ Fed ram reservations b := by
  have hram := addMemory_fold (b := new) h.ram_end (by simpa [new] using h.ram_capacity)
  have hwf : BootMem.WellFormed
      ⟨(ram.filter fun r => decide (HoldsPage r)).map ramRegion, []⟩ := by
    refine ⟨?_, nofun, .nil⟩
    rw [List.forall_mem_map]
    intro r hr
    obtain ⟨hr, hp⟩ := List.mem_filter.mp hr
    exact ramRegion_proper (by simpa using hp) (h.ram_end r hr)
  have hcap := h.reserved_capacity
  obtain ⟨b, hb, hwf', hmem, hperm⟩ := reserve_fold hwf h.reserved_nonempty h.reserved_end
    (by simpa using hcap.le)
  refine ⟨b, ?_, hwf', hmem, by simpa using hperm⟩
  rw [feed, hram, ok_bind]
  simpa [new] using hb

theorem Fed.memory_has {ram reservations : List (ℕ × ℕ)} (h : Fed ram reservations b) (f : ℕ) :
    (∃ m ∈ b.memory, m.Has f) ↔ ∃ r ∈ ram, WhollyInside r f := by
  rw [h.memory]
  constructor
  · rintro ⟨m, hm, hf⟩
    obtain ⟨r, hr, rfl⟩ := List.mem_map.mp hm
    obtain ⟨hr, hp⟩ := List.mem_filter.mp hr
    exact ⟨r, hr, (ramRegion_has (by simpa using hp) f).mp hf⟩
  · rintro ⟨r, hr, hf⟩
    have hp := (holdsPage_iff r).mpr ⟨f, hf⟩
    exact ⟨ramRegion r, List.mem_map_of_mem (List.mem_filter.mpr ⟨hr, by simpa using hp⟩),
      (ramRegion_has hp f).mpr hf⟩

theorem Fed.reserved_has {ram reservations : List (ℕ × ℕ)} (h : Fed ram reservations b) (f : ℕ) :
    (∀ r ∈ b.reserved, ¬ r.Has f) ↔ ∀ r ∈ reservations, ¬ Touches r f := by
  simp only [h.reserved.mem_iff, List.forall_mem_map]
  exact forall₂_congr fun r _ => not_congr (reservedRegion_has r f)

theorem Fed.memory_apart {ram reservations : List (ℕ × ℕ)} (h : Fed ram reservations b)
    (hin : Input ram reservations) : b.memory.Pairwise Apart := by
  rw [h.memory, List.pairwise_map]
  have hpages : ∀ r ∈ ram.filter fun r => decide (HoldsPage r), HoldsPage r := by
    intro r hr
    simpa using (List.mem_filter.mp hr).2
  apply (hin.disjoint.filter _).imp_of_mem
  intro r r' hr hr' hdisj
  have h₁ := hpages r hr
  have h₂ := hpages r' hr'
  by_contra hmeet
  -- a frame in both regions would have its bytes in both ranges
  simp only [Apart, ramRegion, HoldsPage] at hmeet h₁ h₂
  have hf : (ramRegion r).Has (max (divCeil r.1 pageSize) (divCeil r'.1 pageSize)) ∧
      (ramRegion r').Has (max (divCeil r.1 pageSize) (divCeil r'.1 pageSize)) := by
    simp only [Region.Has, ramRegion]
    omega
  have hb := (ramRegion_has h₁ _).mp hf.1
  have hb' := (ramRegion_has h₂ _).mp hf.2
  generalize max (divCeil r.1 pageSize) (divCeil r'.1 pageSize) = f at hb hb'
  have hin {q : ℕ × ℕ} (hq : WhollyInside q f) : f * pageSize ∈ Finset.Ico q.1 q.2 := by
    simp only [WhollyInside, pageSize] at hq
    simp only [Finset.mem_Ico, pageSize]
    omega
  exact Finset.disjoint_left.mp hdisj (hin hb) (hin hb')

/-! ## Placement -/

private theorem candidate_ok (frames align : ℕ) (best : Option ℕ) {hole : Region}
    (hh : hole.Proper) :
    ∃ best', candidate frames align best hole = .ok best' ∧
      (best' = best ∨ ∃ base, best' = some base ∧ hole.base ≤ base ∧
        base + frames ≤ hole.base + hole.frames) := by
  rw [candidate]
  split
  · next hfit =>
      have hend := hh.endPfn_eq
      have hlt := hh.end_lt
      have hmod := Nat.mod_le (hole.endPfn - frames) align
      rw [checkedSub_ok (by omega), ok_bind, truncate_of_lt (by omega)]
      simp only
      rw [checkedSub_ok hmod, ok_bind]
      split
      · next hgood =>
          exact ⟨_, rfl, .inr ⟨_, rfl, hgood.1, by omega⟩⟩
      · exact ⟨_, rfl, .inl rfl⟩
  · exact ⟨best, rfl, .inl rfl⟩

theorem candidates_ok (frames align : ℕ) {hs : List Region} (hprop : ∀ hole ∈ hs, hole.Proper)
    (best : Option ℕ) :
    ∃ best', hs.foldlM (candidate frames align) best = .ok best' ∧
      (best' = best ∨ ∃ base, best' = some base ∧ ∃ hole ∈ hs, hole.base ≤ base ∧
        base + frames ≤ hole.base + hole.frames) := by
  induction hs generalizing best with
  | nil => exact ⟨best, rfl, .inl rfl⟩
  | cons hole hs ih =>
      obtain ⟨hhead, htail⟩ := List.forall_mem_cons.mp hprop
      obtain ⟨best₁, h₁, hcase₁⟩ := candidate_ok frames align best hhead
      obtain ⟨best', h', hcase'⟩ := ih htail best₁
      refine ⟨best', by rw [List.foldlM_cons, h₁, ok_bind, h'], ?_⟩
      rcases hcase' with rfl | ⟨base, hb, q, hq, hin⟩
      · rcases hcase₁ with rfl | ⟨base, hb, hin⟩
        · exact .inl rfl
        · exact .inr ⟨base, hb, hole, List.mem_cons_self, hin⟩
      · exact .inr ⟨base, hb, q, List.mem_cons_of_mem _ hq, hin⟩

theorem WellFormed.holes_proper (h : b.WellFormed) : ∀ hole ∈ b.holes, hole.Proper := by
  intro hole hh
  obtain ⟨m, hm, hmem⟩ := List.mem_flatMap.mp hh
  exact (h.hole_inside hm hmem).1

theorem alloc_ok (h : b.WellFormed) {frames align : ℕ} (hframes : 1 ≤ frames) (halign : 1 ≤ align)
    (hcap : b.reserved.length < nrRegions) :
    b.alloc frames align = .ok (none, b) ∨
      ∃ base b', b.alloc frames align = .ok (some base, b') ∧ b'.WellFormed ∧
        b'.memory = b.memory ∧ b'.reserved.Perm (⟨base, frames⟩ :: b.reserved) ∧
        ∃ hole ∈ b.holes, hole.base ≤ base ∧ base + frames ≤ hole.base + hole.frames := by
  obtain ⟨best, hbest, hcase⟩ := candidates_ok frames align h.holes_proper none
  rcases hcase with rfl | ⟨base, rfl, hole, hh, hin⟩
  · left
    rw [alloc, debugAssert_true ⟨hframes, halign⟩, ok_bind, forEachFree_eq, hbest]
    rfl
  · right
    have hlt := (h.holes_proper hole hh).end_lt
    obtain ⟨b', hb', hwf', hmem, hperm⟩ := reserve_ok h base frames
      ⟨hframes, by change base + frames < _; omega⟩ hcap
    refine ⟨base, b', ?_, hwf', hmem, hperm, hole, hh, hin⟩
    rw [alloc, debugAssert_true ⟨hframes, halign⟩, ok_bind, forEachFree_eq, hbest, ok_bind]
    change b.reserve base frames >>= _ = _
    rw [hb']
    rfl

end BootMem

end Preon.Memory
