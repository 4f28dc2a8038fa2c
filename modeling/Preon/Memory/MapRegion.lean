import Preon.Framework.Tiling
import Preon.Memory.KernelMap
import Preon.Memory.MapCalls

/-!
# The blocks of a region

The loop of `map_region` over tables with any history of calls of `map`: which regions it accepts,
and how the blocks that it installs tile a region that it accepts.
-/

namespace Preon.Memory

open Framework TableMemory

/-! ## The choice of a block -/

private theorem blockFor_cases {pa remaining size : ℕ} {level : Level}
    (h : blockFor pa remaining = .ok (size, level)) :
    (level = .l1 ∧ size = block1GB ∧ block1GB ∣ pa ∧ block1GB ≤ remaining) ∨
      (level = .l2 ∧ size = block2MB ∧ block2MB ∣ pa ∧ block2MB ≤ remaining ∧
        ¬ (block1GB ∣ pa ∧ block1GB ≤ remaining)) := by
  rw [blockFor] at h
  rw [Nat.dvd_iff_mod_eq_zero, Nat.dvd_iff_mod_eq_zero]
  split_ifs at h with h1 h2
  · obtain ⟨rfl, rfl⟩ := Prod.mk.inj (Except.ok.inj h)
    exact .inl ⟨rfl, rfl, h1⟩
  · obtain ⟨rfl, rfl⟩ := Prod.mk.inj (Except.ok.inj h)
    exact .inr ⟨rfl, rfl, h2.1, h2.2, h1⟩

private theorem blockFor_ok {pa remaining : ℕ} (hpa : block2MB ∣ pa)
    (hfits : block2MB ≤ remaining) :
    ∃ size level, blockFor pa remaining = .ok (size, level) := by
  rw [blockFor, if_pos (⟨Nat.mod_eq_zero_of_dvd hpa, hfits⟩ : pa % block2MB = 0 ∧ _)]
  split
  · exact ⟨_, _, rfl⟩
  · exact ⟨_, _, rfl⟩

private theorem block2MB_dvd_size {pa remaining size : ℕ} {level : Level}
    (h : blockFor pa remaining = .ok (size, level)) : block2MB ∣ size ∧ block2MB ∣ pa := by
  have hdvd : block2MB ∣ block1GB := by decide
  rcases blockFor_cases h with ⟨-, rfl, hpa, -⟩ | ⟨-, rfl, hpa, -⟩
  · exact ⟨hdvd, hdvd.trans hpa⟩
  · exact ⟨dvd_refl _, hpa⟩

variable {tables : ℕ → ℕ → ℕ} {st st' : TableMemory} {root : ℕ} {place : ℕ → Option (ℕ × ℕ)}
  {frames : List ℕ} {attrs : LeafAttrs}

/-- The loop gets to the end of whole blocks only. -/
theorem aligned_of_mapBlocks {stop pa : ℕ} (hlt : pa < stop)
    (hok : mapBlocks root stop attrs pa st = .ok st') : block2MB ∣ pa ∧ block2MB ∣ stop - pa := by
  induction hrem : stop - pa using Nat.strong_induction_on generalizing pa st with
  | _ rem ih =>
      subst hrem
      obtain ⟨size, level, va, st₁, hblock, -, -, hrest⟩ := mapBlocks_ok hok hlt
      obtain ⟨hsize, hpa⟩ := block2MB_dvd_size hblock
      obtain ⟨-, -, -, hfits, hpos⟩ := blockFor_spec hblock
      refine ⟨hpa, ?_⟩
      have hsplit : stop - pa = size + (stop - (pa + size)) := by omega
      rw [hsplit]
      by_cases hnext : pa + size < stop
      · exact Nat.dvd_add hsize (ih _ (by omega) hnext hrest rfl).2
      · rwa [Nat.sub_eq_zero_of_le (by omega)]

/-! ## Returning -/

/-- Tables that `map` can follow, and frames that it can use. -/
structure Ready (st : TableMemory) (root : ℕ) (place : ℕ → Option (ℕ × ℕ)) : Prop where
  built : st.Built root place
  linear : ∀ t, place t ≠ none → t = root ∨ Linear t
  blocks : BlockLevels st.tables place
  frames : ∀ f ∈ st.supply, Linear f

private theorem Ready.map {va pa : ℕ} {target : Level} (h : Ready st root place)
    (hok : st.map root va pa target attrs = .ok st') : ∃ place', Ready st' root place' := by
  obtain ⟨-, ⟨place', hbuilt, hsupply, -, hjoined, hblocks⟩, -⟩ := h.built.map hok
  refine ⟨place', hbuilt, ?_, hblocks h.blocks, fun f hf => h.frames f (hsupply.subset hf)⟩
  intro t ht
  by_cases hold : place t = none
  · exact .inr (hjoined t hold ht)
  · exact h.linear t hold

private theorem Ready.not_meetsBlock {va m : ℕ} (h : Ready st root place)
    (hnone : leafAt st.tables root va = none) : ¬ MeetsBlock st.tables root va m := by
  rintro ⟨n, t, -, hpath, hblock⟩
  have hplace := hpath.place_eq (by decide) h.built.tree (key_lt va)
  have hn := h.blocks t n _ _ hplace hblock
  have hleaf := decode_of_isBlock hblock hn
  obtain ⟨k, rfl⟩ : ∃ k, n = k + 1 := ⟨n - 1, by omega⟩
  rw [leafAt, hpath.lookup, Radix.lookup, hleaf] at hnone
  cases hnone

private theorem Ready.map_ok {va pa : ℕ} {target : Level} (h : Ready st root place)
    (htarget : target ≠ .l0)
    (hnone : leafAt st.tables root va = none)
    (hreturns : st.map root va pa target attrs ≠ .error exhausted) :
    ∃ st', st.map root va pa target attrs = .ok st' := by
  rw [TableM.map_eq_after] at hreturns ⊢
  have hafter : (TableM.after (TableM.map root va pa target attrs) st).1 ≠ .error exhausted := by
    intro herror
    generalize TableM.after (TableM.map root va pa target attrs) st = run at hreturns herror
    obtain ⟨result, st'⟩ := run
    obtain rfl : result = .error exhausted := herror
    exact hreturns rfl
  have hclean := TableM.panicsCleanly h.built h.linear h.frames hafter
  have hno : ¬ ∃ e, (TableM.after (TableM.map root va pa target attrs) st).1 = .error e := by
    rw [hclean.panics_iff]
    rintro (hl0 | hmeets)
    · exact htarget hl0
    · exact h.not_meetsBlock hnone hmeets
  generalize TableM.after (TableM.map root va pa target attrs) st = run at hno
  obtain ⟨result, st'⟩ := run
  cases result with
  | ok => exact ⟨st', rfl⟩
  | error e => exact absurd ⟨e, rfl⟩ hno

private theorem leafAt_of_translate {va : ℕ} (hva : UpperHalf va)
    (h : translate tables root va = none) : leafAt tables root va = none := by
  rwa [translate, if_pos hva, walk, Option.map_eq_none_iff] at h

private theorem Ready.mapBlocks {stop pa : ℕ} (h : Ready st root place) (hstop : stop ≤ 2 ^ 46)
    (hpa : block2MB ∣ pa) (hsize : block2MB ∣ stop - pa)
    (hnone : ∀ x, pa ≤ x → x < stop → translate st.tables root (x + kernelLinearBase) = none)
    (hreturns : mapBlocks root stop attrs pa st ≠ .error exhausted) :
    ∃ st', mapBlocks root stop attrs pa st = .ok st' := by
  induction hrem : stop - pa using Nat.strong_induction_on generalizing pa st place with
  | _ rem ih =>
      subst hrem
      by_cases hlt : pa < stop
      · obtain ⟨size, level, hblock⟩ := blockFor_ok hpa (Nat.le_of_dvd (by omega) hsize)
        obtain ⟨hlevel, hsz, hdvd, hfits, hpos⟩ := blockFor_spec hblock
        have hlow : pa < 2 ^ 47 := by omega
        have hupper := linear_upperHalf hlow
        have hstep : mapBlocks root stop attrs pa st = _ := mapBlocks_step hblock hlow st
        rw [hstep] at hreturns ⊢
        have hmap : st.map root (pa + kernelLinearBase) pa level attrs ≠ .error exhausted := by
          intro herror
          rw [herror] at hreturns
          exact hreturns rfl
        obtain ⟨st₁, hst₁⟩ := h.map_ok (by rintro rfl; exact absurd hlevel (by decide))
          (leafAt_of_translate hupper (hnone pa (le_refl _) hlt)) hmap
        rw [hst₁, ok_bind] at hreturns ⊢
        obtain ⟨place₁, h₁⟩ := h.map hst₁
        have hwindow := (TableMemory.Translates.map ⟨⟨place, h.built⟩, rfl⟩ hupper
          (leafSize_dvd_linear hlevel (hsz ▸ hdvd)) (hsz ▸ hdvd) (by omega) hst₁).2
        refine ih (stop - (pa + size))
          (by omega) h₁ (Nat.dvd_add hpa (block2MB_dvd_size hblock).1) ?_ ?_
          hreturns rfl
        · rw [Nat.sub_add_eq]
          exact Nat.dvd_sub hsize (block2MB_dvd_size hblock).1
        · intro x hx hxlt
          rw [hwindow, window, if_neg (by omega)]
          exact hnone x (by omega) hxlt
      · rw [Preon.Memory.mapBlocks, if_neg hlt]
        exact ⟨st, rfl⟩

/-! ## The blocks -/

def blockBytes (block : ℕ × Level) : ℕ := leafSize block.2.below

def InBlock (block : ℕ × Level) (pa : ℕ) : Prop := InPiece Prod.fst blockBytes block pa

/-- The walk of every linear address of a block ends in one leaf at the block's level. -/
def Installed (tables : ℕ → ℕ → ℕ) (root : ℕ) (attrs : LeafAttrs) (block : ℕ × Level) : Prop :=
  ∃ e, Entry.outputAddr e = block.1 ∧ Entry.attrs e = attrs.bits ∧ ∀ pa, InBlock block pa →
    leafAt tables root (pa + kernelLinearBase) = some (block.2.below, e)

private theorem TableMemory.Built.mapBlocks {stop pa : ℕ} (h : st.Built root place)
    (hstop : stop ≤ 2 ^ 46)
    (hle : pa ≤ stop) (hok : mapBlocks root stop attrs pa st = .ok st') :
    ∃ blocks, Tiles Prod.fst blockBytes pa blocks stop ∧
      (∀ b ∈ blocks, blockFor b.1 (stop - b.1) = .ok (blockBytes b, b.2)) ∧
      (∀ b ∈ blocks, Installed st'.tables root attrs b) ∧
      ∀ va, UpperHalf va → ¬ (pa + kernelLinearBase ≤ va ∧ va < stop + kernelLinearBase) →
        leafAt st'.tables root va = leafAt st.tables root va := by
  induction hrem : stop - pa using Nat.strong_induction_on generalizing pa st place with
  | _ rem ih =>
      by_cases hlt : pa < stop
      · obtain ⟨level, st₁, hblock, hmap, hrest⟩ := mapBlocks_linear hok hlt hstop
        obtain ⟨hlevel, -, hdvd, hfits, hpos⟩ := blockFor_spec hblock
        obtain ⟨-, ⟨place₁, hbuilt₁, -⟩, -⟩ := h.map hmap
        obtain ⟨e, hout, hattrs, hleafAt⟩ := h.map_window (linear_upperHalf (by omega))
          (leafSize_dvd_linear hlevel hdvd) hdvd (by omega) hmap
        obtain ⟨blocks, htiles, hchosen, hinstalled, hsame⟩ :=
          ih (stop - (pa + leafSize level.below)) (by omega) hbuilt₁ (by omega) hrest rfl
        refine ⟨(pa, level) :: blocks, .cons rfl hpos htiles, ?_, ?_, ?_⟩
        · rw [List.forall_mem_cons]
          exact ⟨hblock, hchosen⟩
        · rw [List.forall_mem_cons]
          refine ⟨⟨e, hout, hattrs, ?_⟩, hinstalled⟩
          rintro x ⟨hlo, hhi⟩
          simp only [blockBytes] at hlo hhi
          have hx := linear_upperHalf (show x < 2 ^ 47 by omega)
          -- the later blocks leave this one as it is
          rw [hsame _ hx (by omega), hleafAt _ hx, if_pos (by omega)]
        · intro va hva hout
          rw [hsame va hva (by omega), hleafAt va hva, if_neg (by omega)]
      · rw [Preon.Memory.mapBlocks, if_neg hlt] at hok
        obtain rfl := Except.ok.inj hok
        obtain rfl : pa = stop := by omega
        exact ⟨[], .nil, by simp, by simp, fun _ _ _ => rfl⟩

private theorem gigabyte_iff {base stop : ℕ} {blocks : List (ℕ × Level)}
    (htiles : Tiles Prod.fst blockBytes base blocks stop)
    (hchosen : ∀ b ∈ blocks, blockFor b.1 (stop - b.1) = .ok (blockBytes b, b.2)) (pa : ℕ) :
    (pa, Level.l1) ∈ blocks ↔ block1GB ∣ pa ∧ base ≤ pa ∧ pa + block1GB ≤ stop := by
  constructor
  · intro hmem
    obtain ⟨hlo, hhi⟩ := htiles.bounds hmem
    rcases blockFor_cases (hchosen _ hmem) with ⟨-, -, hdvd, -⟩ | ⟨hl2, -⟩
    · exact ⟨hdvd, hlo, hhi⟩
    · cases hl2
  · rintro ⟨hdvd, hlo, hhi⟩
    have hpos : 0 < block1GB := by decide
    obtain ⟨⟨start, level⟩, hmem, hin⟩ := (htiles.covers pa).mpr ⟨hlo, by omega⟩
    have hdiv {size : ℕ} (hsize : 0 < size) (hstart : size ∣ start) (hpa : size ∣ pa)
        (hbytes : blockBytes (start, level) = size) : start = pa := by
      have hwindow := (div_eq_iff_window hsize hstart pa).mpr (hbytes ▸ hin)
      rw [← Nat.div_mul_cancel hstart, ← Nat.div_mul_cancel hpa, hwindow]
    rcases blockFor_cases (hchosen _ hmem) with ⟨hl1, hsize, hstart, -⟩ |
      ⟨hl2, hsize, hstart, -, hno⟩
    · obtain rfl := hdiv hpos hstart hdvd hsize
      simp only at hl1
      rwa [hl1] at hmem
    · -- a block of 2 MiB here would start the gigabyte, and then a larger one was chosen
      obtain rfl := hdiv (by decide) hstart (Dvd.dvd.trans (by decide) hdvd) hsize
      exact absurd ⟨hdvd, by simp only; omega⟩ hno

/-- A region as `map_region` leaves it. -/
structure RegionTiled (tables tables' : ℕ → ℕ → ℕ) (root base size : ℕ) (attrs : LeafAttrs)
    (blocks : List (ℕ × Level)) : Prop where
  installed : ∀ b ∈ blocks, Installed tables' root attrs b
  disjoint : blocks.Pairwise fun a b => ∀ pa, InBlock a pa → ¬ InBlock b pa
  covers : ∀ pa, (∃ b ∈ blocks, InBlock b pa) ↔ base ≤ pa ∧ pa < base + size
  levels : ∀ b ∈ blocks, b.2 = .l1 ∨ b.2 = .l2
  gigabytes : ∀ pa, (pa, Level.l1) ∈ blocks ↔
    block1GB ∣ pa ∧ base ≤ pa ∧ pa + block1GB ≤ base + size
  inside : ∀ pa, base ≤ pa → pa < base + size →
    ∃ va, paToLinearVa pa = .ok va ∧ translate tables' root va = some ⟨pa, attrs.bits⟩
  outside : ∀ va, (∀ pa, base ≤ pa → pa < base + size → paToLinearVa pa ≠ .ok va) →
    translate tables' root va = translate tables root va

private theorem TableMemory.Built.mapRegion {base size : ℕ} (h : st.Built root place)
    (hend : base + size ≤ 2 ^ 46) (hok : mapRegion root attrs st (base, size) = .ok st') :
    ∃ blocks, RegionTiled st.tables st'.tables root base size attrs blocks := by
  have htranslates := TableMemory.Translates.mapRegion ⟨⟨place, h⟩, rfl⟩ hend hok
  obtain ⟨stop, hstop, hok⟩ := bind_eq_ok.mp hok
  obtain rfl := checkedAdd_eq hstop
  obtain ⟨blocks, htiles, hchosen, hinstalled, -⟩ := h.mapBlocks hend (Nat.le_add_right ..) hok
  refine ⟨blocks, hinstalled, htiles.pairwise, htiles.covers, ?_,
    gigabyte_iff htiles hchosen, ?_, ?_⟩
  · intro b hb
    rcases blockFor_cases (hchosen b hb) with ⟨hl1, -⟩ | ⟨hl2, -⟩
    · exact .inl hl1
    · exact .inr hl2
  · intro pa hlo hhi
    refine ⟨pa + kernelLinearBase, paToLinearVa_ok (by omega), ?_⟩
    rw [htranslates.2, window, if_pos (by simp only; omega)]
    simp only [Option.some.injEq, Mapping.mk.injEq, and_true]
    omega
  · intro va hva
    rw [htranslates.2, window, if_neg]
    rintro ⟨hlo, hhi⟩
    simp only at hlo hhi
    apply hva (va - kernelLinearBase) (by omega) (by omega)
    rw [paToLinearVa_ok (by omega), Nat.sub_add_cancel (by omega)]

private theorem Formed.ready (h : Formed tables root place)
    (hfresh : FreshFrames tables root frames)
    (hlinear : ∀ f ∈ frames, f < 2 ^ 47) : Ready ⟨tables, frames⟩ root place :=
  ⟨h.built hfresh, h.linear, h.blocks, hlinear⟩

/-- After any history of calls `map_region` panics at unaligned regions only, and tiles the
others. -/
theorem mapRegion_tiles {base size : ℕ} (h : (tableSystem root).Reachable tables)
    (hfresh : FreshFrames tables root frames) (hlinear : ∀ f ∈ frames, f < 2 ^ 47)
    (hend : base + size ≤ 2 ^ 46)
    (hunmapped : ∀ pa va, base ≤ pa → pa < base + size → paToLinearVa pa = .ok va →
      translate tables root va = none)
    (hreturns : mapRegion root attrs ⟨tables, frames⟩ (base, size) ≠ .error exhausted) :
    ((∃ e, mapRegion root attrs ⟨tables, frames⟩ (base, size) = .error e) ↔
        0 < size ∧ ¬ (block2MB ∣ base ∧ block2MB ∣ size)) ∧
      ∀ st', mapRegion root attrs ⟨tables, frames⟩ (base, size) = .ok st' →
        ∃ blocks, RegionTiled tables st'.tables root base size attrs blocks := by
  obtain ⟨place, hformed⟩ := formed_of_reachable h
  have hready := hformed.ready hfresh hlinear
  have hblocks : mapRegion root attrs ⟨tables, frames⟩ (base, size) =
      mapBlocks root (base + size) attrs base ⟨tables, frames⟩ := by
    rw [mapRegion, checkedAdd_ok (by omega), ok_bind]
  refine ⟨⟨?_, ?_⟩, fun st' hok => hready.built.mapRegion hend hok⟩
  · rintro ⟨e, herror⟩
    have hno : ¬ ∃ st', mapBlocks root (base + size) attrs base ⟨tables, frames⟩ = .ok st' := by
      rintro ⟨st', hok⟩
      rw [hblocks, hok] at herror
      cases herror
    have haligned : ¬ (block2MB ∣ base ∧ block2MB ∣ size) := by
      rintro ⟨hbase, hsize⟩
      refine hno (hready.mapBlocks hend hbase ?_ ?_ (hblocks ▸ hreturns))
      · rwa [Nat.add_sub_cancel_left]
      · exact fun pa hlo hhi => hunmapped pa _ hlo hhi (paToLinearVa_ok (by omega))
    refine ⟨Nat.pos_of_ne_zero ?_, haligned⟩
    rintro rfl
    rw [mapBlocks, if_neg (by omega)] at hno
    exact hno ⟨_, rfl⟩
  · rintro ⟨hpos, hunaligned⟩
    rw [hblocks]
    cases hrun : mapBlocks root (base + size) attrs base ⟨tables, frames⟩ with
    | error e => exact ⟨e, rfl⟩
    | ok st' =>
        obtain ⟨hbase, hsize⟩ := aligned_of_mapBlocks (by omega) hrun
        rw [Nat.add_sub_cancel_left] at hsize
        exact absurd ⟨hbase, hsize⟩ hunaligned

private theorem firstFrames_unmapped (va : ℕ) : translate (fun _ _ => 0) 0 va = none := by
  rw [translate, walk, leafAt, Radix.lookup_blank fun k _ => decode_zero k]
  split <;> rfl

private theorem mapRegion_gigabyte (st : TableMemory) :
    mapRegion 0 linearRam st (0x7FE00000, block2MB + block1GB) = (do
      let st ← st.map 0 (0x7FE00000 + kernelLinearBase) 0x7FE00000 .l2 linearRam
      st.map 0 (0x80000000 + kernelLinearBase) 0x80000000 .l1 linearRam) := by
  have hsmall : blockFor 0x7FE00000 (0xC0000000 - 0x7FE00000) = .ok (block2MB, .l2) := rfl
  have hlarge : blockFor 0x80000000 (0xC0000000 - 0x80000000) = .ok (block1GB, .l1) := rfl
  rw [mapRegion, checkedAdd_ok (by decide), ok_bind]
  refine (mapBlocks_step hsmall (by decide) st).trans (congrArg _ (funext fun st₁ => ?_))
  refine (mapBlocks_step hlarge (by decide) st₁).trans ?_
  refine Eq.trans (congrArg _ (funext fun st₂ => ?_)) (bind_pure _)
  rw [mapBlocks, if_neg (by decide)]
  rfl

theorem mapRegion_tiles_gigabyte : ∃ tables frames st' blocks,
    (tableSystem 0).Reachable tables ∧
      translate tables 0 (0x40001234 + kernelLinearBase) = some ⟨0x40001234, linearRam.bits⟩ ∧
      mapRegion 0 linearRam ⟨tables, frames⟩ (0x7FE00000, block2MB + block1GB) = .ok st' ∧
      RegionTiled tables st'.tables 0 0x7FE00000 (block2MB + block1GB) linearRam blocks ∧
      (0x80000000, Level.l1) ∈ blocks := by
  have hrun : ∃ st st', TableMemory.map ⟨fun _ _ => 0, [0x1000, 0x2000, 0x3000]⟩ 0
        (0x40000000 + kernelLinearBase) 0x40000000 .l2 linearRam = .ok st ∧ st.supply = [0x3000] ∧
      translate st.tables 0 (0x40001234 + kernelLinearBase) = some ⟨0x40001234, linearRam.bits⟩ ∧
      (do
        let st ← st.map 0 (0x7FE00000 + kernelLinearBase) 0x7FE00000 .l2 linearRam
        st.map 0 (0x80000000 + kernelLinearBase) 0x80000000 .l1 linearRam) = .ok st' :=
    ⟨_, _, rfl, rfl, rfl, rfl⟩
  obtain ⟨st, st', hfirst, hsupply, hwalk, hok⟩ := hrun
  rw [← mapRegion_gigabyte] at hok
  have hblank : (tableSystem 0).Reachable fun _ _ => 0 := .init fun _ => rfl
  obtain ⟨hreach, hfresh⟩ := reachable_of_first hfirst
  have hunmapped (pa va : ℕ) (hlo : 0x7FE00000 ≤ pa) (hhi : pa < 0x7FE00000 + (block2MB + block1GB))
      (hva : paToLinearVa pa = .ok va) : translate st.tables 0 va = none := by
    have hexact := mapsExactly_of_reachable hblank firstFrames_fresh (by decide) (by decide) hfirst
    simp only [block2MB, block1GB] at hhi
    rw [paToLinearVa_ok (by omega)] at hva
    obtain rfl := Except.ok.inj hva
    rw [translate, if_pos (linear_upperHalf (by omega)), hexact.outside]
    · rw [walk, leafAt, Radix.lookup_blank fun k _ => decode_zero k]
      rfl
    · simp only [Level.indexShift, kernelLinearBase]
      omega
  obtain ⟨blocks, htiled⟩ := (mapRegion_tiles hreach hfresh
    (by rw [hsupply]; decide) (by decide) hunmapped (by simp [hok])).2 st' hok
  exact ⟨st.tables, st.supply, st', blocks, hreach, hwalk, hok, htiled,
    (htiled.gigabytes _).mpr (by decide)⟩

/-- A frame without a linear address makes an aligned region panic. -/
theorem mapRegion_panics_highFrame :
    FreshFrames (fun _ _ => 0) 0 [2 ^ 47] ∧ (∀ va, translate (fun _ _ => 0) 0 va = none) ∧
      block2MB ∣ 0x40000000 ∧ block2MB ∣ 1 * block2MB ∧
      mapRegion 0 linearRam ⟨fun _ _ => 0, [2 ^ 47]⟩ (0x40000000, 1 * block2MB) =
        .error .arithmeticOverflow := by
  refine ⟨highFrame_fresh, firstFrames_unmapped, by decide, by decide, ?_⟩
  rw [mapRegion_blocks (by decide) (by decide) (by decide)]
  rfl

end Preon.Memory
