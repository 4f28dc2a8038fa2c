import Mathlib.Data.Nat.Bitwise
import Mathlib.Order.Interval.Finset.Nat
import Mathlib.Tactic.Ring

/-!
# Aligned dyadic blocks

A block of order `k` is an interval of `2 ^ k` naturals.  Aligned blocks are nested or
disjoint, so the maximal aligned blocks inside a set are determined by the set alone.
-/

namespace Preon.Framework

/-- The interval of `2 ^ k` naturals starting at `p`. -/
def block (p k : ℕ) : Finset ℕ := Finset.Ico p (p + 2 ^ k)

/-- The block of order `k` at `p` starts at a multiple of its own size. -/
def Aligned (p k : ℕ) : Prop := 2 ^ k ∣ p

instance (p k : ℕ) : Decidable (Aligned p k) := inferInstanceAs (Decidable (2 ^ k ∣ p))

/-- The start of the aligned block of order `k + 1` around the block of order `k` at `p`. -/
def parentStart (p k : ℕ) : ℕ := p / 2 ^ (k + 1) * 2 ^ (k + 1)

@[simp] theorem mem_block {f p k : ℕ} : f ∈ block p k ↔ p ≤ f ∧ f < p + 2 ^ k := Finset.mem_Ico

theorem card_block (p k : ℕ) : (block p k).card = 2 ^ k := by
  simp [block]

theorem order_le_of_block_subset {p q j k : ℕ} (h : block p j ⊆ block q k) : j ≤ k := by
  have hcard := Finset.card_le_card h
  rw [card_block, card_block] at hcard
  exact (Nat.pow_le_pow_iff_right (by decide)).mp hcard

theorem start_mem_block (p k : ℕ) : p ∈ block p k := by
  have := Nat.two_pow_pos k
  simp only [mem_block]
  omega

theorem aligned_iff_mod {p k : ℕ} : Aligned p k ↔ p % 2 ^ k = 0 := Nat.dvd_iff_mod_eq_zero

theorem Aligned.mono {p j k : ℕ} (h : Aligned p k) (hjk : j ≤ k) : Aligned p j :=
  (Nat.pow_dvd_pow 2 hjk).trans h

theorem Aligned.add {p k : ℕ} (h : Aligned p (k + 1)) : Aligned (p + 2 ^ k) k :=
  Nat.dvd_add (h.mono (Nat.le_succ k)) (Nat.dvd_refl _)

theorem Aligned.mem_block_iff {f p k : ℕ} (h : Aligned p k) :
    f ∈ block p k ↔ f / 2 ^ k = p / 2 ^ k := by
  have hpos := Nat.two_pow_pos k
  obtain ⟨a, rfl⟩ := h
  rw [mem_block, Nat.mul_div_cancel_left a hpos, Nat.div_eq_iff hpos, Nat.mul_comm a]
  omega

theorem Aligned.eq_div_mul {p k : ℕ} (h : Aligned p k) : p / 2 ^ k * 2 ^ k = p :=
  Nat.div_mul_cancel h

private theorem div_pow_of_le (f : ℕ) {j k : ℕ} (hjk : j ≤ k) :
    f / 2 ^ k = f / 2 ^ j / 2 ^ (k - j) := by
  rw [Nat.div_div_eq_div_mul, ← Nat.pow_add, Nat.add_sub_cancel' hjk]

/-- Two aligned blocks that meet are nested: the smaller lies inside the larger. -/
theorem Aligned.subset_of_mem {f p q j k : ℕ} (hp : Aligned p j) (hq : Aligned q k)
    (hjk : j ≤ k) (hfp : f ∈ block p j) (hfq : f ∈ block q k) : block p j ⊆ block q k := by
  intro g hg
  rw [hp.mem_block_iff] at hfp hg
  rw [hq.mem_block_iff] at hfq ⊢
  rw [div_pow_of_le g hjk, hg, ← hfp, ← div_pow_of_le f hjk, hfq]

theorem Aligned.eq_of_mem {f p q k : ℕ} (hp : Aligned p k) (hq : Aligned q k)
    (hfp : f ∈ block p k) (hfq : f ∈ block q k) : p = q := by
  rw [hp.mem_block_iff] at hfp
  rw [hq.mem_block_iff] at hfq
  rw [← hp.eq_div_mul, ← hq.eq_div_mul, ← hfp, ← hfq]

theorem aligned_parentStart (p k : ℕ) : Aligned (parentStart p k) (k + 1) :=
  Nat.dvd_mul_left _ _

theorem block_subset_parent {p k : ℕ} (hp : Aligned p k) :
    block p k ⊆ block (parentStart p k) (k + 1) := by
  apply hp.subset_of_mem (aligned_parentStart p k) (Nat.le_succ k) (start_mem_block p k)
  rw [(aligned_parentStart p k).mem_block_iff, parentStart,
    Nat.mul_div_cancel _ (Nat.two_pow_pos _)]

theorem mem_block_succ {f p k : ℕ} :
    f ∈ block p (k + 1) ↔ f ∈ block p k ∨ f ∈ block (p + 2 ^ k) k := by
  have := Nat.pow_succ 2 k
  simp only [mem_block]
  omega

/-! ## Buddies -/

/-- Either `p` is the lower half of its parent and the xor adds `2 ^ k`, or it is the upper
half and the xor removes it. -/
theorem Aligned.xor_cases {p k : ℕ} (h : Aligned p k) :
    (Aligned p (k + 1) ∧ p ^^^ 2 ^ k = p + 2 ^ k) ∨
      (2 ^ k ≤ p ∧ Aligned (p - 2 ^ k) (k + 1) ∧ p ^^^ 2 ^ k = p - 2 ^ k) := by
  obtain ⟨a, rfl⟩ := h
  have hx : (2 ^ k * a) ^^^ 2 ^ k = 2 ^ k * (a ^^^ 1) := by
    have hs := @Nat.shiftLeft_xor_distrib k a 1
    simp only [Nat.shiftLeft_eq, Nat.one_mul] at hs
    rw [Nat.mul_comm, ← hs, Nat.mul_comm]
  rcases Nat.even_or_odd a with ha | ha
  · left
    rw [hx, Nat.xor_one_of_even ha, Nat.mul_add, Nat.mul_one]
    refine ⟨?_, rfl⟩
    obtain ⟨b, rfl⟩ := ha
    exact ⟨b, by rw [Nat.pow_succ]; ring⟩
  · right
    rw [hx, Nat.xor_one_of_odd ha, Nat.mul_sub, Nat.mul_one]
    obtain ⟨b, rfl⟩ := ha
    have hle : 2 ^ k ≤ 2 ^ k * (2 * b + 1) := Nat.le_mul_of_pos_right _ (by omega)
    refine ⟨hle, ⟨b, ?_⟩, rfl⟩
    rw [Nat.pow_succ, Nat.mul_add, Nat.mul_one, Nat.add_sub_cancel]
    ring

theorem Aligned.xor_ne {p k : ℕ} (h : Aligned p k) : p ^^^ 2 ^ k ≠ p := by
  have := Nat.two_pow_pos k
  rcases h.xor_cases with ⟨_, hx⟩ | ⟨hle, _, hx⟩ <;> omega

theorem Aligned.min_xor {p k : ℕ} (h : Aligned p k) :
    Aligned (min p (p ^^^ 2 ^ k)) (k + 1) ∧
      max p (p ^^^ 2 ^ k) = min p (p ^^^ 2 ^ k) + 2 ^ k := by
  have := Nat.two_pow_pos k
  rcases h.xor_cases with ⟨hp, hx⟩ | ⟨hle, hp, hx⟩
  · rw [hx, Nat.min_eq_left (by omega), Nat.max_eq_right (by omega)]
    exact ⟨hp, rfl⟩
  · rw [hx, Nat.min_eq_right (by omega), Nat.max_eq_left (by omega)]
    exact ⟨hp, by omega⟩

theorem Aligned.parentStart_eq_min {p k : ℕ} (h : Aligned p k) :
    parentStart p k = min p (p ^^^ 2 ^ k) := by
  obtain ⟨hm, hmax⟩ := h.min_xor
  apply (aligned_parentStart p k).eq_of_mem hm
  · exact block_subset_parent h (start_mem_block p k)
  · have := Nat.pow_succ 2 k
    have := Nat.two_pow_pos k
    rw [mem_block]
    omega

/-! ## Maximal blocks inside a set -/

/-- An aligned block inside `S` of order at most `cap` whose parent does not fit inside `S`. -/
structure MaximalBlock (cap : ℕ) (S : Set ℕ) (p k : ℕ) : Prop where
  aligned : Aligned p k
  order_le : k ≤ cap
  inside : ∀ f ∈ block p k, f ∈ S
  maximal : k < cap → ∃ f ∈ block (parentStart p k) (k + 1), f ∉ S

theorem MaximalBlock.eq_of_mem {cap : ℕ} {S : Set ℕ} {f p q j k : ℕ}
    (hp : MaximalBlock cap S p j) (hq : MaximalBlock cap S q k)
    (hfp : f ∈ block p j) (hfq : f ∈ block q k) : p = q ∧ j = k := by
  have strict {p q j k : ℕ} (hp : MaximalBlock cap S p j) (hq : MaximalBlock cap S q k)
      (hfp : f ∈ block p j) (hfq : f ∈ block q k) : ¬ j < k := by
    intro hjk
    obtain ⟨g, hg, hgS⟩ := hp.maximal (hjk.trans_le hq.order_le)
    have hsub := (aligned_parentStart p j).subset_of_mem hq.aligned hjk
      (block_subset_parent hp.aligned hfp) hfq
    exact hgS (hq.inside g (hsub hg))
  have hjk : j = k := by
    have h₁ := strict hp hq hfp hfq
    have h₂ := strict hq hp hfq hfp
    omega
  subst hjk
  exact ⟨hp.aligned.eq_of_mem hq.aligned hfp hfq, rfl⟩

theorem maximalBlock_iff_of_cover {cap : ℕ} {S : Set ℕ} {B : ℕ → ℕ → Prop}
    (hmax : ∀ p k, B p k → MaximalBlock cap S p k)
    (hcover : ∀ f ∈ S, ∃ p k, B p k ∧ f ∈ block p k) (p k : ℕ) :
    B p k ↔ MaximalBlock cap S p k := by
  refine ⟨hmax p k, fun h => ?_⟩
  obtain ⟨q, j, hB, hmem⟩ := hcover p (h.inside p (start_mem_block p k))
  obtain ⟨rfl, rfl⟩ := (hmax q j hB).eq_of_mem h hmem (start_mem_block p k)
  exact hB

section NoBuddies

/- A family of disjoint aligned blocks in which no block has its buddy. -/
variable {cap : ℕ} {B : ℕ → ℕ → Prop} (hal : ∀ p k, B p k → Aligned p k ∧ k ≤ cap)
  (huniq : ∀ p j q k f, B p j → B q k → f ∈ block p j → f ∈ block q k → p = q ∧ j = k)
  (hbuddy : ∀ p k, k < cap → B p k → ¬ B (p ^^^ 2 ^ k) k)

include hal hbuddy in
theorem subset_block_of_covered {q j : ℕ} (hq : Aligned q j) (hj : j ≤ cap)
    (hcov : ∀ f ∈ block q j, ∃ p k, B p k ∧ f ∈ block p k) :
    ∃ p k, B p k ∧ block q j ⊆ block p k := by
  induction j generalizing q with
  | zero =>
      obtain ⟨p, k, hB, hm⟩ := hcov q (start_mem_block q 0)
      refine ⟨p, k, hB, fun f hf => ?_⟩
      rw [mem_block] at hf
      obtain rfl : f = q := by omega
      exact hm
  | succ j ih =>
      have hlow : Aligned q j := hq.mono (Nat.le_succ j)
      obtain ⟨p, k, hB, hsub⟩ := ih hlow (by omega)
        (fun f hf => hcov f (mem_block_succ.mpr (.inl hf)))
      obtain ⟨p', k', hB', hsub'⟩ := ih hq.add (by omega)
        (fun f hf => hcov f (mem_block_succ.mpr (.inr hf)))
      have hwhole {y i : ℕ} (hy : B y i) (hji : j < i) {f : ℕ} (hf : f ∈ block q (j + 1))
          (hfy : f ∈ block y i) : ∃ p k, B p k ∧ block q (j + 1) ⊆ block p k :=
        ⟨y, i, hy, hq.subset_of_mem (hal y i hy).1 hji hf hfy⟩
      have hmid : q + 2 ^ j ∈ block (q + 2 ^ j) j := start_mem_block _ j
      rcases Nat.lt_or_ge j k with hjk | hkj
      · exact hwhole hB hjk (start_mem_block q _) (hsub (start_mem_block q j))
      · rcases Nat.lt_or_ge j k' with hjk' | hkj'
        · exact hwhole hB' hjk' (mem_block_succ.mpr (.inr hmid)) (hsub' hmid)
        · -- both halves are blocks of the family, and they are buddies
          obtain rfl : k = j := le_antisymm hkj (order_le_of_block_subset hsub)
          obtain rfl : k' = k := le_antisymm hkj' (order_le_of_block_subset hsub')
          have hp := hlow.eq_of_mem (hal p _ hB).1 (start_mem_block q _)
            (hsub (start_mem_block q _))
          have hp' := hq.add.eq_of_mem (hal p' _ hB').1 hmid (hsub' hmid)
          have hx : q ^^^ 2 ^ k' = q + 2 ^ k' := by
            rcases hlow.xor_cases with ⟨-, hx⟩ | ⟨hle', hx, -⟩
            · exact hx
            · have hpos := Nat.two_pow_pos k'
              have hpow := Nat.pow_succ 2 k'
              have := hq.eq_of_mem hx (start_mem_block q _) (by rw [mem_block]; omega)
              omega
          rw [← hp'] at hB'
          rw [← hp] at hB
          exact absurd (hx ▸ hB') (hbuddy q k' (by omega) hB)

include hal huniq hbuddy in
theorem maximalBlock_iff_of_no_buddies (p k : ℕ) :
    B p k ↔ MaximalBlock cap {f | ∃ p k, B p k ∧ f ∈ block p k} p k := by
  apply maximalBlock_iff_of_cover
  · intro p k hB
    obtain ⟨halp, hk⟩ := hal p k hB
    refine ⟨halp, hk, fun f hf => ⟨p, k, hB, hf⟩, fun hcap => ?_⟩
    by_contra hall
    push Not at hall
    obtain ⟨q, j, hq, hsub⟩ :=
      subset_block_of_covered hal hbuddy (aligned_parentStart p k) hcap hall
    have hm := hsub (block_subset_parent halp (start_mem_block p k))
    obtain ⟨rfl, rfl⟩ := huniq p k q j p hB hq (start_mem_block p k) hm
    have hle := order_le_of_block_subset hsub
    omega
  · exact fun f hf => hf

end NoBuddies

/-! ## Greedy carving of an interval -/

/-- No aligned block of order at most `cap` inside `[lo, hi)` has `x` strictly inside. -/
def Cut (cap lo hi x : ℕ) : Prop :=
  ∀ q j, Aligned q j → j ≤ cap → lo ≤ q → q + 2 ^ j ≤ hi → ¬ (q < x ∧ x < q + 2 ^ j)

/-- `k` is the largest order, up to `cap`, of an aligned block at `x` that ends by `hi`. -/
structure GreedyOrder (cap hi x k : ℕ) : Prop where
  aligned : Aligned x k
  order_le : k ≤ cap
  fits : x + 2 ^ k ≤ hi
  largest : ∀ j, Aligned x j → j ≤ cap → x + 2 ^ j ≤ hi → j ≤ k

theorem cut_start (cap lo hi : ℕ) : Cut cap lo hi lo := by
  intro q j _ _ hlo _ h
  omega

theorem Cut.step {cap lo hi x k : ℕ} (h : Cut cap lo hi x) (hx : lo ≤ x)
    (hk : GreedyOrder cap hi x k) : Cut cap lo hi (x + 2 ^ k) := by
  intro q j hq hj hlo hhi hin
  have hpos := Nat.two_pow_pos k
  have hmemx : x + 2 ^ k - 1 ∈ block x k := by rw [mem_block]; omega
  have hmemq : x + 2 ^ k - 1 ∈ block q j := by rw [mem_block]; omega
  rcases Nat.lt_or_ge k j with hkj | hjk
  · have hsub := hk.aligned.subset_of_mem hq hkj.le hmemx hmemq (start_mem_block x k)
    rw [mem_block] at hsub
    rcases Nat.lt_or_ge q x with hqx | hxq
    · exact h q j hq hj hlo hhi ⟨hqx, hsub.2⟩
    · have hqx : q = x := by omega
      subst hqx
      have := hk.largest j hq hj hhi
      omega
  · have hsub := hq.subset_of_mem hk.aligned hjk hmemq hmemx
    have : x + 2 ^ k ∈ block x k := hsub (by rw [mem_block]; omega)
    rw [mem_block] at this
    omega

theorem Cut.maximalBlock {cap lo hi x k : ℕ} {S : Set ℕ} (h : Cut cap lo hi x) (hx : lo ≤ x)
    (hk : GreedyOrder cap hi x k) (hrun : ∀ f, lo ≤ f → f < hi → f ∈ S)
    (hlo : ∀ f, f + 1 = lo → f ∉ S) (hhi : hi ∉ S) : MaximalBlock cap S x k := by
  have hpos := Nat.two_pow_pos k
  refine ⟨hk.aligned, hk.order_le, ?_, ?_⟩
  · intro f hf
    rw [mem_block] at hf
    exact hrun f (by omega) (by have := hk.fits; omega)
  · intro hcap
    by_contra hall
    push Not at hall
    set q := parentStart x k with hq
    have hal : Aligned q (k + 1) := aligned_parentStart x k
    have hxq : x ∈ block q (k + 1) := block_subset_parent hk.aligned (start_mem_block x k)
    rw [mem_block] at hxq
    have hfit := hk.fits
    -- the parent is an interval of `S` through `x`, so it cannot leave the run
    have hloq : lo ≤ q := by
      by_contra hlt
      exact hlo (lo - 1) (by omega) (hall _ (by rw [mem_block]; omega))
    have hhiq : q + 2 ^ (k + 1) ≤ hi := by
      by_contra hlt
      exact hhi (hall _ (by rw [mem_block]; omega))
    rcases Nat.lt_or_ge q x with hqx | hge
    · exact h q (k + 1) hal hcap hloq hhiq ⟨hqx, hxq.2⟩
    · have hqx : q = x := by omega
      rw [hqx] at hal hhiq
      have := hk.largest (k + 1) hal hcap hhiq
      omega

end Preon.Framework
