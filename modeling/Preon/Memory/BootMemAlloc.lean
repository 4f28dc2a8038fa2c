import Mathlib.Order.Bounds.Basic
import Preon.Memory.BootMemRuns

/-!
# Top-down placement

`alloc` looks at every hole, rounds the highest base that fits down to the alignment and keeps the
largest candidate.  Over all the holes of all memory regions this is the greatest base at which
the block can lie, whatever the alignment and however the reservations overlap.
-/

namespace Preon.Memory

open Framework

namespace BootMem

/-! ## A running maximum -/

/-- The greatest element of a set, or nothing if the set is empty. -/
def Highest (S : Set ℕ) : Option ℕ → Prop
  | none => ∀ c, c ∉ S
  | some b => IsGreatest S b

private theorem Highest.none_iff {S : Set ℕ} {best : Option ℕ} (h : Highest S best) :
    best = none ↔ ∀ c, c ∉ S := by
  cases best with
  | none => exact ⟨fun _ => h, fun _ => rfl⟩
  | some b => exact ⟨by simp, fun hS => absurd h.1 (hS b)⟩

private theorem Highest.some_iff {S : Set ℕ} {best : Option ℕ} (h : Highest S best) (b : ℕ) :
    best = some b ↔ IsGreatest S b := by
  constructor
  · rintro rfl
    exact h
  · intro hb
    cases best with
    | none => exact absurd hb.1 (h b)
    | some b' => exact congrArg some (h.unique hb)

private theorem Highest.keep {S T : Set ℕ} {best : Option ℕ} (h : Highest S best)
    (hT : ∀ c, c ∉ T) :
    Highest (S ∪ T) best := by
  rwa [Set.eq_empty_of_forall_notMem hT, Set.union_empty]

/-- Adding a set with a greatest element: the code compares it with the best so far. -/
theorem Highest.raise {S T : Set ℕ} {best : Option ℕ} {cand : ℕ} (h : Highest S best)
    (hT : IsGreatest T cand) :
    Highest (S ∪ T) (if best.all (· < cand) then some cand else best) := by
  cases best with
  | none =>
      rw [if_pos (by rfl), Set.eq_empty_of_forall_notMem h, Set.empty_union]
      exact hT
  | some b =>
      simp only [Option.all_some, decide_eq_true_eq]
      have hmax := h.union hT
      split
      · next hlt => rwa [max_eq_right hlt.le] at hmax
      · next hge => rwa [max_eq_left (Nat.le_of_not_lt hge)] at hmax

/-! ## The candidate of a hole -/

def basesIn (frames align : ℕ) (hole : Region) : Set ℕ :=
  {c | align ∣ c ∧ hole.base ≤ c ∧ c + frames ≤ hole.base + hole.frames}

variable {b b' : BootMem} {frames align : ℕ} {hole : Region} {best : Option ℕ}

private theorem dvd_le_roundDown {c top : ℕ} (hdvd : align ∣ c) (hle : c ≤ top) :
    c ≤ top - top % align := by
  obtain ⟨q, rfl⟩ := hdvd
  have hmono : align * q / align ≤ top / align := Nat.div_le_div_right hle
  have htop := Nat.div_add_mod top align
  rcases Nat.eq_zero_or_pos align with rfl | hpos
  · omega
  · rw [Nat.mul_div_cancel_left q hpos] at hmono
    have hmul : align * q ≤ align * (top / align) := Nat.mul_le_mul_left align hmono
    omega

private theorem basesIn_highest (hfit : frames ≤ hole.frames)
    (hbase : hole.base ≤ hole.base + hole.frames - frames -
      (hole.base + hole.frames - frames) % align) :
    IsGreatest (basesIn frames align hole) (hole.base + hole.frames - frames -
      (hole.base + hole.frames - frames) % align) := by
  constructor
  · exact ⟨Nat.dvd_sub_mod _, hbase, by omega⟩
  · rintro c ⟨hdvd, -, hend⟩
    exact dvd_le_roundDown hdvd (by omega)

private theorem basesIn_empty (hbase : hole.base + hole.frames - frames -
      (hole.base + hole.frames - frames) % align < hole.base) (c : ℕ) :
    c ∉ basesIn frames align hole := by
  rintro ⟨hdvd, hlo, hend⟩
  have hle := dvd_le_roundDown hdvd (show c ≤ hole.base + hole.frames - frames by omega)
  omega

private theorem candidate_highest {S : Set ℕ} (hh : hole.Proper) (hbest : Highest S best) :
    ∃ best', candidate frames align best hole = .ok best' ∧
      Highest (S ∪ basesIn frames align hole) best' := by
  rw [candidate]
  split
  · next hfit =>
      have hlt := hh.end_lt
      have hmod := Nat.mod_le (hole.base + hole.frames - frames) align
      rw [hh.endPfn_eq, checkedSub_ok (by omega), ok_bind, truncate_of_lt (by omega)]
      simp only
      rw [checkedSub_ok hmod, ok_bind]
      refine ⟨_, rfl, ?_⟩
      by_cases hbase : hole.base ≤ hole.base + hole.frames - frames -
          (hole.base + hole.frames - frames) % align
      · simp only [hbase, true_and]
        exact hbest.raise (basesIn_highest hfit hbase)
      · rw [if_neg fun hc => hbase hc.1]
        exact hbest.keep (basesIn_empty (by omega))
  · next hfit =>
      refine ⟨best, rfl, hbest.keep ?_⟩
      rintro c ⟨-, hlo, hend⟩
      omega

private theorem candidates_highest {S : Set ℕ} {hs : List Region} (hprop : ∀ hole ∈ hs, hole.Proper)
    (hbest : Highest S best) :
    ∃ best', hs.foldlM (candidate frames align) best = .ok best' ∧
      Highest (S ∪ {c | ∃ hole ∈ hs, c ∈ basesIn frames align hole}) best' := by
  induction hs generalizing S best with
  | nil =>
      refine ⟨best, rfl, hbest.keep ?_⟩
      rintro c ⟨hole, hmem, -⟩
      cases hmem
  | cons hole hs ih =>
      obtain ⟨hhead, htail⟩ := List.forall_mem_cons.mp hprop
      obtain ⟨best₁, h₁, hhigh₁⟩ := candidate_highest hhead hbest
      obtain ⟨best', h', hhigh⟩ := ih htail hhigh₁
      refine ⟨best', by rw [List.foldlM_cons, h₁, ok_bind, h'], ?_⟩
      have hset : S ∪ basesIn frames align hole ∪ {c | ∃ hole ∈ hs, c ∈ basesIn frames align hole} =
          S ∪ {c | ∃ q ∈ hole :: hs, c ∈ basesIn frames align q} := by
        ext c
        simp only [Set.mem_union, Set.mem_ofPred_eq, List.mem_cons, exists_eq_or_imp, or_assoc]
      rwa [hset] at hhigh

/-! ## Every free place lies in one hole -/

/-- The block at `base` is aligned, lies inside one memory region and meets no reservation. -/
def Fits (b : BootMem) (frames align base : ℕ) : Prop :=
  align ∣ base ∧ ∃ m ∈ b.memory, m.base ≤ base ∧ base + frames ≤ m.base + m.frames ∧
    ∀ r ∈ b.reserved, Apart ⟨base, frames⟩ r

private theorem apart_iff_no_frame {r r' : Region} (h : 1 ≤ r.frames) (h' : 1 ≤ r'.frames) :
    Apart r r' ↔ ∀ f, r.Has f → ¬ r'.Has f := by
  simp only [Apart, Region.Has]
  constructor
  · intro hap f hf hf'
    omega
  · intro hno
    by_contra hmeet
    exact hno (max r.base r'.base) (by omega) (by omega)

/-- The holes of a region do not touch, so a run of free frames cannot cross from one into
another. -/
theorem WellFormed.run_in_hole (h : b.WellFormed) {m : Region} {base : ℕ} (hframes : 1 ≤ frames)
    (hfree : ∀ f, base ≤ f → f < base + frames → ∃ q ∈ holesOf b.reserved m, q.Has f) :
    ∃ q ∈ holesOf b.reserved m, q.base ≤ base ∧ base + frames ≤ q.base + q.frames := by
  obtain ⟨q, hq, hlo, hhi⟩ := hfree base le_rfl (by omega)
  refine ⟨q, hq, hlo, ?_⟩
  by_contra hcross
  -- the frame just behind the hole would lie in another hole
  obtain ⟨q', hq', hlo', hhi'⟩ := hfree (q.base + q.frames) (by omega) (by omega)
  have hne : q ≠ q' := by
    rintro rfl
    omega
  have hgap : (holesOf b.reserved m).Pairwise fun q q' =>
      q.base + q.frames < q'.base ∨ q'.base + q'.frames < q.base :=
    (h.holesOf_increasing m).imp fun hlt => .inl hlt
  have hsymm : Std.Symm fun q q' : Region =>
      q.base + q.frames < q'.base ∨ q'.base + q'.frames < q.base := ⟨fun _ _ hor => hor.symm⟩
  have hout := hgap.forall hq hq' hne
  omega

private theorem WellFormed.fits_iff (h : b.WellFormed) (hframes : 1 ≤ frames) (base : ℕ) :
    b.Fits frames align base ↔ ∃ hole ∈ b.holes, base ∈ basesIn frames align hole := by
  simp only [holes, List.mem_flatMap]
  constructor
  · rintro ⟨hdvd, m, hm, hlo, hhi, hclear⟩
    obtain ⟨q, hq, hin⟩ := h.run_in_hole hframes fun f hf hf' =>
      (h.holesOf_has hm f).mpr ⟨⟨hlo.trans hf, hf'.trans_le hhi⟩, fun r hr =>
        (apart_iff_no_frame hframes (h.reserved r hr).nonempty).mp (hclear r hr) f ⟨hf, hf'⟩⟩
    exact ⟨q, ⟨m, hm, hq⟩, hdvd, hin⟩
  · rintro ⟨q, ⟨m, hm, hq⟩, hdvd, hlo, hhi⟩
    obtain ⟨-, hmlo, hmhi⟩ := h.hole_inside hm hq
    refine ⟨hdvd, m, hm, by omega, by omega, fun r hr => ?_⟩
    rw [apart_iff_no_frame hframes (h.reserved r hr).nonempty]
    intro f hf
    exact ((h.holesOf_has hm f).mp ⟨q, hq, hlo.trans hf.1, hf.2.trans_le hhi⟩).2 r hr

/-- What a call of `alloc` returns and leaves behind. -/
structure TopDown (b : BootMem) (frames align : ℕ) (result : Option ℕ) (b' : BootMem) : Prop where
  some_iff : ∀ base, result = some base ↔ IsGreatest {c | b.Fits frames align c} base
  none_iff : result = none ↔ ∀ base, ¬ b.Fits frames align base
  unchanged : result = none → b' = b
  reserved : ∀ base, result = some base →
    b'.memory = b.memory ∧ b'.reserved.Perm (⟨base, frames⟩ :: b.reserved)

private theorem WellFormed.alloc_topDown (h : b.WellFormed) (hframes : 1 ≤ frames)
    (halign : 1 ≤ align)
    (hcap : b.reserved.length < nrRegions) :
    ∃ result b', b.alloc frames align = .ok (result, b') ∧ TopDown b frames align result b' := by
  have hnone : Highest ∅ none := fun _ hc => hc
  obtain ⟨result, hfold, hhigh⟩ := @candidates_highest frames align none ∅ _ h.holes_proper hnone
  have hset : ∅ ∪ {c | ∃ hole ∈ b.holes, c ∈ basesIn frames align hole} =
      {c | b.Fits frames align c} := by
    ext c
    rw [Set.empty_union, Set.mem_ofPred_eq, Set.mem_ofPred_eq, h.fits_iff hframes]
  rw [hset] at hhigh
  cases result with
  | none =>
      refine ⟨none, b, ?_, hhigh.some_iff, hhigh.none_iff, fun _ => rfl, by simp⟩
      rw [alloc, debugAssert_true ⟨hframes, halign⟩, ok_bind, forEachFree_eq, hfold]
      rfl
  | some base =>
      obtain ⟨hole, hh, -, hlo, hhi⟩ := (h.fits_iff hframes base).mp hhigh.1
      have hend := (h.holes_proper hole hh).end_lt
      have hproper : (Region.mk base frames).Proper := ⟨hframes, hhi.trans_lt hend⟩
      obtain ⟨b', hb', -, hmem, hperm⟩ := reserve_ok h base frames hproper hcap
      refine ⟨some base, b', ?_, hhigh.some_iff, hhigh.none_iff, by simp, ?_⟩
      · rw [alloc, debugAssert_true ⟨hframes, halign⟩, ok_bind, forEachFree_eq, hfold, ok_bind]
        change b.reserve base frames >>= _ = _
        rw [hb']
        rfl
      · intro base' hbase
        obtain rfl := Option.some.inj hbase
        exact ⟨hmem, hperm⟩

/-! ## Successive allocations -/

/-- The blocks stay reserved, so no two of them meet. -/
structure Logged.Inv (s : Logged) : Prop where
  wellFormed : s.map.WellFormed
  kept : ∀ block ∈ s.blocks, block ∈ s.map.reserved
  apart : s.blocks.Pairwise Apart

variable {s s' : Logged}

private theorem arguments_of_alloc {result : Option ℕ}
    (h : b.alloc frames align = .ok (result, b')) :
    1 ≤ frames ∧ 1 ≤ align := by
  obtain ⟨_, hassert, -⟩ := bind_eq_ok.mp h
  by_contra hne
  rw [debugAssert, if_neg hne] at hassert
  cases hassert

private theorem room_of_alloc {base : ℕ} (h : b.alloc frames align = .ok (some base, b')) :
    b.reserved.length < nrRegions := by
  obtain ⟨_, -, h⟩ := bind_eq_ok.mp h
  obtain ⟨best, -, h⟩ := bind_eq_ok.mp h
  cases best with
  | none => cases h
  | some base' =>
      obtain ⟨b₁, hb₁, -⟩ := bind_eq_ok.mp h
      exact (room_of_reserve hb₁).2

private theorem WellFormed.alloc_apart (h : b.WellFormed) {base : ℕ}
    (hok : b.alloc frames align = .ok (some base, b')) :
      ∀ r ∈ b.reserved, Apart ⟨base, frames⟩ r := by
  obtain ⟨hframes, halign⟩ := arguments_of_alloc hok
  obtain ⟨result, b₁, hcall, htop⟩ := h.alloc_topDown hframes halign (room_of_alloc hok)
  obtain ⟨hresult, -⟩ := Prod.mk.inj (Except.ok.inj (hcall.symm.trans hok))
  obtain ⟨-, m, -, -, -, hclear⟩ := ((htop.some_iff base).mp hresult).1
  exact hclear

private theorem Logged.Inv.step (h : s.Inv) {call : MapCall} (hstep : CallStep s call s') :
    s'.Inv := by
  obtain ⟨b', inserted', blocks'⟩ := s'
  cases call with
  | addMemoryBytes r =>
      obtain ⟨hend, hok, -, rfl⟩ := hstep
      obtain ⟨hwf, hsame⟩ := h.wellFormed.of_addMemoryBytes hend hok
      exact ⟨hwf, fun block hb => by rw [hsame]; exact h.kept block hb, h.apart⟩
  | reserveBytes r =>
      obtain ⟨hne, hend, hok, -, rfl⟩ := hstep
      obtain ⟨hwf, hperm⟩ := h.wellFormed.of_reserveBytes hne hend hok
      exact ⟨hwf,
        fun block hb => hperm.mem_iff.mpr (List.mem_cons_of_mem _ (h.kept block hb)), h.apart⟩
  | alloc frames align =>
      obtain ⟨base, hok, -, rfl⟩ := hstep
      obtain ⟨hwf, hperm⟩ := h.wellFormed.of_alloc hok
      refine ⟨hwf, ?_, ?_⟩
      · intro block hb
        rw [hperm.mem_iff, List.mem_append]
        rcases List.mem_append.mp hb with hold | hnew
        · exact .inr (h.kept block hold)
        · exact .inl hnew
      · cases base with
        | none => simpa using h.apart
        | some base =>
            have hclear := h.wellFormed.alloc_apart hok
            rw [List.pairwise_append]
            refine ⟨h.apart, List.pairwise_singleton .., fun block hb block' hb' => ?_⟩
            rw [List.mem_singleton.mp hb']
            exact (hclear block (h.kept block hb)).symm

private theorem inv_of_reachable (h : mapSystem.Reachable s) : s.Inv := by
  revert h
  apply System.Reachable.invariant
  · rintro s rfl
    exact ⟨⟨List.forall_mem_nil _, List.forall_mem_nil _, .nil⟩, List.forall_mem_nil _, .nil⟩
  · exact fun s call s' hinv hstep => hinv.step hstep

/-- In every map that calls can lead to: the blocks that `alloc` returned so far are pairwise apart,
and the next call returns the greatest base that fits. -/
theorem alloc_topDown_of_reachable (h : mapSystem.Reachable s) :
    s.blocks.Pairwise Apart ∧
      (s.map.reserved.length < nrRegions → ∀ frames align, 1 ≤ frames → 1 ≤ align →
        ∃ result b', s.map.alloc frames align = .ok (result, b') ∧
          TopDown s.map frames align result b') := by
  have hinv := inv_of_reachable h
  exact ⟨hinv.apart, fun hcap frames align hframes halign =>
    hinv.wellFormed.alloc_topDown hframes halign hcap⟩

/-- Two RAM ranges, the higher one registered first, a reservation inside it, and two pages
allocated at a multiple of three. -/
theorem alloc_topDown_two : ∃ b' inserted, mapSystem.Reachable ⟨b', inserted, [⟨24, 2⟩]⟩ ∧
    ∃ result b₁, b'.alloc 2 3 = .ok (result, b₁) ∧ TopDown b' 2 3 result b₁ := by
  have hnew : mapSystem.Reachable ⟨⟨[], []⟩, [], []⟩ := .init rfl
  have hhigh : mapSystem.Reachable ⟨⟨[⟨20, 10⟩], []⟩, [], []⟩ :=
    hnew.step (e := .addMemoryBytes (0x14000, 0x1e000)) ⟨by decide, rfl, rfl, rfl⟩
  have hlow : mapSystem.Reachable ⟨⟨[⟨20, 10⟩, ⟨0, 16⟩], []⟩, [], []⟩ :=
    hhigh.step (e := .addMemoryBytes (0, 0x10000)) ⟨by decide, rfl, rfl, rfl⟩
  have hres : mapSystem.Reachable ⟨⟨[⟨20, 10⟩, ⟨0, 16⟩], [⟨26, 3⟩]⟩, [⟨26, 3⟩], []⟩ :=
    hlow.step (e := .reserveBytes (0x1a000, 0x1cfff)) ⟨by decide, by decide, rfl, rfl, rfl⟩
  have hone : mapSystem.Reachable
      ⟨⟨[⟨20, 10⟩, ⟨0, 16⟩], [⟨24, 2⟩, ⟨26, 3⟩]⟩, [⟨26, 3⟩, ⟨24, 2⟩], [⟨24, 2⟩]⟩ :=
    hres.step (e := .alloc 2 3) ⟨some 24, rfl, rfl, rfl⟩
  exact ⟨_, _, hone, (alloc_topDown_of_reachable hone).2 (by decide) 2 3 (by decide) (by decide)⟩

end BootMem

end Preon.Memory
