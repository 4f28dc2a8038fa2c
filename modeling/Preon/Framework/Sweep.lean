import Mathlib.Data.List.Basic
import Mathlib.Order.Basic

/-!
# Gaps between intervals

A cursor moves through a window past a list of half-open intervals sorted by their starts, which
may overlap, nest or lie outside the window.  What it passes over between them are the gaps.
-/

namespace Preon.Framework

/-- The half-open interval `[r.1, r.2)`. -/
def Within (r : ℕ × ℕ) (f : ℕ) : Prop := r.1 ≤ f ∧ f < r.2

/-- The gaps that the intervals leave in `[cursor, hi)`. -/
def gaps (hi : ℕ) : List (ℕ × ℕ) → (cursor : ℕ) → List (ℕ × ℕ)
  | [], cursor => if cursor < hi then [(cursor, hi)] else []
  | r :: rs, cursor =>
      if r.2 ≤ cursor ∨ hi ≤ r.1 then gaps hi rs cursor
      else if cursor < r.1 then (cursor, r.1) :: gaps hi rs (max cursor r.2)
      else gaps hi rs (max cursor r.2)

theorem mem_gaps (hi : ℕ) {rs : List (ℕ × ℕ)} (hsorted : rs.Pairwise fun a b => a.1 ≤ b.1)
    (cursor f : ℕ) :
    (∃ g ∈ gaps hi rs cursor, Within g f) ↔
      (cursor ≤ f ∧ f < hi) ∧ ∀ r ∈ rs, ¬ Within r f := by
  induction rs generalizing cursor with
  | nil =>
      rw [gaps]
      split
      · simp [Within]
      · simp
        omega
  | cons r rs ih =>
      obtain ⟨hfirst, hrest⟩ := List.pairwise_cons.mp hsorted
      rw [gaps, List.forall_mem_cons]
      split
      · next hskip =>
          rw [ih hrest]
          simp only [Within]
          constructor
          · rintro ⟨hwin, hout⟩
            exact ⟨hwin, by omega, hout⟩
          · rintro ⟨hwin, -, hout⟩
            exact ⟨hwin, hout⟩
      · next hmeet =>
          have hjump : (∃ g ∈ gaps hi rs (max cursor r.2), Within g f) ↔
              (r.2 ≤ f ∧ f < hi) ∧ ∀ r ∈ rs, ¬ Within r f := by
            rw [ih hrest, Nat.max_eq_right (by omega)]
          split
          · next hgap =>
              rw [List.exists_mem_cons_iff, hjump]
              constructor
              · rintro (hin | ⟨hwin, hout⟩)
                · simp only [Within] at hin ⊢
                  refine ⟨by omega, by omega, fun q hq => ?_⟩
                  have := hfirst q hq
                  omega
                · simp only [Within]
                  exact ⟨by omega, by omega, hout⟩
              · rintro ⟨hwin, hr, hout⟩
                simp only [Within] at hr ⊢
                rcases Nat.lt_or_ge f r.1 with hlt | hge
                · exact .inl ⟨hwin.1, hlt⟩
                · exact .inr ⟨by omega, hout⟩
          · next hgap =>
              rw [hjump]
              simp only [Within]
              constructor
              · rintro ⟨hwin, hout⟩
                exact ⟨by omega, by omega, hout⟩
              · rintro ⟨hwin, hr, hout⟩
                exact ⟨by omega, hout⟩

theorem gap_bounds {hi : ℕ} {rs : List (ℕ × ℕ)} {cursor : ℕ} {g : ℕ × ℕ}
    (hg : g ∈ gaps hi rs cursor) : cursor ≤ g.1 ∧ g.1 < g.2 ∧ g.2 ≤ hi := by
  induction rs generalizing cursor with
  | nil =>
      rw [gaps] at hg
      split at hg
      · next hlt =>
          obtain rfl := List.mem_singleton.mp hg
          exact ⟨Nat.le_refl _, hlt, Nat.le_refl _⟩
      · cases hg
  | cons r rs ih =>
      rw [gaps] at hg
      split at hg
      · exact ih hg
      · next hmeet =>
          have hjump (hg : g ∈ gaps hi rs (max cursor r.2)) :
              cursor ≤ g.1 ∧ g.1 < g.2 ∧ g.2 ≤ hi := by
            have := ih hg
            omega
          split at hg
          · next hgap =>
              rcases List.mem_cons.mp hg with rfl | hg
              · exact ⟨Nat.le_refl _, hgap, by omega⟩
              · exact hjump hg
          · exact hjump hg

theorem gaps_increasing {hi : ℕ} {rs : List (ℕ × ℕ)} (hne : ∀ r ∈ rs, r.1 < r.2) (cursor : ℕ) :
    (gaps hi rs cursor).Pairwise fun a b => a.2 < b.1 := by
  induction rs generalizing cursor with
  | nil =>
      rw [gaps]
      split
      · exact List.pairwise_singleton ..
      · exact .nil
  | cons r rs ih =>
      obtain ⟨hr, hrest⟩ := List.forall_mem_cons.mp hne
      rw [gaps]
      split
      · exact ih hrest _
      · split
        · rw [List.pairwise_cons]
          refine ⟨fun g hg => ?_, ih hrest _⟩
          have := gap_bounds hg
          omega
        · exact ih hrest _

end Preon.Framework
