import Preon.Framework.Transition
import Preon.Memory.BootMemHoles

/-!
# Any sequence of calls on the boot-time memory map

Memory ranges, reservations and allocations may come in any order, and reservations may overlap,
nest, repeat or lie outside RAM.  Every map that such calls lead to keeps all the reservations,
sorted by base, and a pass over it yields RAM minus the reservations.
-/

namespace Preon.Memory

open Framework

namespace BootMem

inductive MapCall
  | addMemoryBytes (r : ℕ × ℕ)
  | reserveBytes (r : ℕ × ℕ)
  | alloc (frames align : ℕ)

/-- A map with the regions that were inserted as reserved, in the order of their insertion, and
those among them that `alloc` returned. -/
structure Logged where
  map : BootMem
  inserted : List Region
  blocks : List Region

/-- A call that returns.  The ends of the regions are frame numbers of 32 bits, and the ranges to
reserve are not empty. -/
def CallStep (s : Logged) : MapCall → Logged → Prop
  | .addMemoryBytes r, s' => (HoldsPage r → r.2 / pageSize < 2 ^ 32) ∧
      s.map.addMemoryBytes r.1 r.2 = .ok s'.map ∧ s'.inserted = s.inserted ∧ s'.blocks = s.blocks
  | .reserveBytes r, s' => r.1 < r.2 ∧ divCeil r.2 pageSize < 2 ^ 32 ∧
      s.map.reserveBytes r.1 r.2 = .ok s'.map ∧ s'.inserted = s.inserted ++ [reservedRegion r] ∧
      s'.blocks = s.blocks
  | .alloc frames align, s' => ∃ base, s.map.alloc frames align = .ok (base, s'.map) ∧
      s'.inserted = s.inserted ++ (base.toList.map fun base => ⟨base, frames⟩) ∧
      s'.blocks = s.blocks ++ base.toList.map fun base => ⟨base, frames⟩

def mapSystem : System Logged MapCall where
  init s := s = ⟨new, [], []⟩
  step := CallStep

variable {b b' : BootMem} {s : Logged}

theorem room_of_reserve {base frames : ℕ} (h : b.reserve base frames = .ok b') :
    1 ≤ frames ∧ b.reserved.length < nrRegions := by
  obtain ⟨_, hassert, h⟩ := bind_eq_ok.mp h
  obtain ⟨_, hroom, -⟩ := bind_eq_ok.mp h
  constructor
  · by_contra hne
    rw [debugAssert, if_neg hne] at hassert
    cases hassert
  · by_contra hne
    rw [assertMsg, if_neg hne] at hroom
    cases hroom

private theorem WellFormed.of_reserve {base frames : ℕ} (h : b.WellFormed)
    (hend : base + frames < 2 ^ 32)
    (hok : b.reserve base frames = .ok b') :
    b'.WellFormed ∧ b'.reserved.Perm (⟨base, frames⟩ :: b.reserved) := by
  obtain ⟨hframes, hcap⟩ := room_of_reserve hok
  obtain ⟨b₁, hb₁, hwf, -, hperm⟩ := reserve_ok h base frames ⟨hframes, hend⟩ hcap
  obtain rfl := Except.ok.inj (hb₁.symm.trans hok)
  exact ⟨hwf, hperm⟩

theorem WellFormed.of_addMemoryBytes {r : ℕ × ℕ} (h : b.WellFormed)
    (hend : HoldsPage r → r.2 / pageSize < 2 ^ 32) (hok : b.addMemoryBytes r.1 r.2 = .ok b') :
    b'.WellFormed ∧ b'.reserved = b.reserved := by
  by_cases hpage : HoldsPage r
  · have hproper := hpage.proper (hend hpage)
    have hcap := addMemoryBytes_capacity hpage hok
    obtain rfl := Except.ok.inj ((addMemoryBytes_ok hproper hcap).symm.trans hok)
    refine ⟨⟨?_, h.reserved, h.sorted⟩, rfl⟩
    intro m hm
    rcases List.mem_append.mp hm with hm | hm
    · exact h.memory m hm
    · rw [List.mem_singleton.mp hm]
      exact hproper
  · obtain rfl := Except.ok.inj ((addMemoryBytes_none hpage).symm.trans hok)
    exact ⟨h, rfl⟩

theorem WellFormed.of_reserveBytes {r : ℕ × ℕ} (h : b.WellFormed) (hne : r.1 < r.2)
    (hend : divCeil r.2 pageSize < 2 ^ 32) (hok : b.reserveBytes r.1 r.2 = .ok b') :
    b'.WellFormed ∧ b'.reserved.Perm (reservedRegion r :: b.reserved) := by
  have hproper := proper_of_nonempty hne hend
  rw [reserveBytes_eq hproper] at hok
  exact h.of_reserve hproper.end_lt hok

theorem WellFormed.of_alloc {frames align : ℕ} {base : Option ℕ} (h : b.WellFormed)
    (hok : b.alloc frames align = .ok (base, b')) :
    b'.WellFormed ∧
      b'.reserved.Perm ((base.toList.map fun base => ⟨base, frames⟩) ++ b.reserved) := by
  obtain ⟨best, hbest, hcase⟩ := candidates_ok frames align h.holes_proper none
  obtain ⟨_, -, hok⟩ := bind_eq_ok.mp hok
  rw [forEachFree_eq, hbest, ok_bind] at hok
  rcases hcase with rfl | ⟨start, rfl, hole, hh, hin⟩
  · obtain ⟨rfl, rfl⟩ := Prod.mk.inj (Except.ok.inj hok)
    exact ⟨h, .refl _⟩
  · have hlt := (h.holes_proper hole hh).end_lt
    obtain ⟨b₁, hb₁, hok⟩ := bind_eq_ok.mp hok
    obtain ⟨rfl, rfl⟩ := Prod.mk.inj (Except.ok.inj hok)
    exact h.of_reserve (by omega) hb₁

private theorem wellFormed_of_reachable (h : mapSystem.Reachable s) :
    s.map.WellFormed ∧ s.map.reserved.Perm s.inserted := by
  revert h
  apply System.Reachable.invariant
  · rintro s rfl
    exact ⟨⟨nofun, nofun, .nil⟩, .refl _⟩
  · rintro ⟨b, inserted, blocks⟩ call ⟨b', inserted', blocks'⟩ ⟨hwf, hperm⟩ hstep
    cases call with
    | addMemoryBytes r =>
        obtain ⟨hend, hok, rfl, -⟩ := hstep
        obtain ⟨hwf', hsame⟩ := hwf.of_addMemoryBytes hend hok
        exact ⟨hwf', hsame ▸ hperm⟩
    | reserveBytes r =>
        obtain ⟨hne, hend, hok, rfl, -⟩ := hstep
        obtain ⟨hwf', hperm'⟩ := hwf.of_reserveBytes hne hend hok
        exact ⟨hwf', (hperm'.trans (hperm.cons _)).trans (List.perm_append_singleton ..).symm⟩
    | alloc frames align =>
        obtain ⟨base, hok, rfl, -⟩ := hstep
        obtain ⟨hwf', hperm'⟩ := hwf.of_alloc hok
        exact ⟨hwf', (hperm'.trans (hperm.append_left _)).trans List.perm_append_comm⟩

/-- What a pass over a map yields for each memory region, and what the map has kept. -/
structure HolesExact (b : BootMem) (inserted : List Region) : Prop where
  in_turn : ∀ (σ : Type) (f : σ → Region → Outcome σ) (acc : σ),
    b.forEachFree f acc = (b.memory.flatMap (holesOf b.reserved)).foldlM f acc
  nonempty : ∀ m ∈ b.memory, ∀ hole ∈ holesOf b.reserved m, 1 ≤ hole.frames
  increasing : ∀ m ∈ b.memory,
    (holesOf b.reserved m).Pairwise fun hole hole' => hole.base + hole.frames < hole'.base
  free : ∀ m ∈ b.memory, ∀ f, (∃ hole ∈ holesOf b.reserved m, hole.Has f) ↔
    m.Has f ∧ ∀ r ∈ inserted, ¬ r.Has f
  sorted : b.reserved.Pairwise fun r r' => r.base ≤ r'.base
  rearranged : b.reserved.Perm inserted

theorem holesExact_of_reachable (h : mapSystem.Reachable s) : HolesExact s.map s.inserted := by
  obtain ⟨hwf, hperm⟩ := wellFormed_of_reachable h
  refine ⟨fun _ => s.map.forEachFree_eq, fun m hm hole hh => (hwf.hole_inside hm hh).1.nonempty,
    fun m _ => hwf.holesOf_increasing m, ?_, hwf.sorted, hperm⟩
  intro m hm f
  rw [hwf.holesOf_has hm f]
  simp only [hperm.mem_iff]

private theorem sixteenPages_reachable : mapSystem.Reachable
    ⟨⟨[⟨0, 16⟩], [⟨3, 2⟩, ⟨15, 1⟩, ⟨20, 1⟩]⟩, [⟨20, 1⟩, ⟨3, 2⟩, ⟨15, 1⟩], [⟨15, 1⟩]⟩ := by
  have hnew : mapSystem.Reachable ⟨⟨[], []⟩, [], []⟩ := .init rfl
  have hram : mapSystem.Reachable ⟨⟨[⟨0, 16⟩], []⟩, [], []⟩ :=
    hnew.step (e := .addMemoryBytes (0, 0x10000)) ⟨by decide, rfl, rfl, rfl⟩
  have hout : mapSystem.Reachable ⟨⟨[⟨0, 16⟩], [⟨20, 1⟩]⟩, [⟨20, 1⟩], []⟩ :=
    hram.step (e := .reserveBytes (0x14000, 0x14001)) ⟨by decide, by decide, rfl, rfl, rfl⟩
  have hin : mapSystem.Reachable ⟨⟨[⟨0, 16⟩], [⟨3, 2⟩, ⟨20, 1⟩]⟩, [⟨20, 1⟩, ⟨3, 2⟩], []⟩ :=
    hout.step (e := .reserveBytes (0x3fff, 0x4001)) ⟨by decide, by decide, rfl, rfl, rfl⟩
  exact hin.step (e := .alloc 1 1) ⟨some 15, rfl, rfl, rfl⟩

theorem holesExact_sixteenPages :
    HolesExact ⟨[⟨0, 16⟩], [⟨3, 2⟩, ⟨15, 1⟩, ⟨20, 1⟩]⟩ [⟨20, 1⟩, ⟨3, 2⟩, ⟨15, 1⟩] :=
  holesExact_of_reachable sixteenPages_reachable

end BootMem

end Preon.Memory
