import Mathlib.Data.List.Pairwise

/-!
# Tilings

Pieces of positive size that follow each other without a gap from one bound to another.  Each piece
has a start and a size; the pieces themselves may carry more.
-/

namespace Preon.Framework

section

variable {Piece : Type*} (start size : Piece → ℕ)

def InPiece (p : Piece) (x : ℕ) : Prop := start p ≤ x ∧ x < start p + size p

/-- The pieces lead from `lo` to `hi`. -/
inductive Tiles : ℕ → List Piece → ℕ → Prop
  | nil {lo : ℕ} : Tiles lo [] lo
  | cons {lo hi : ℕ} {p : Piece} {ps : List Piece} : start p = lo → 0 < size p →
      Tiles (lo + size p) ps hi → Tiles lo (p :: ps) hi

end

variable {Piece : Type*} {start size : Piece → ℕ} {lo hi : ℕ} {ps : List Piece}

namespace Tiles

theorem le (h : Tiles start size lo ps hi) : lo ≤ hi := by
  induction h with
  | nil => exact Nat.le_refl _
  | cons _ _ _ ih => omega

theorem bounds (h : Tiles start size lo ps hi) {p : Piece} (hp : p ∈ ps) :
    lo ≤ start p ∧ start p + size p ≤ hi := by
  induction h with
  | nil => cases hp
  | cons hstart hpos htail ih =>
      cases hp with
      | head =>
          have hle := htail.le
          omega
      | tail _ hp =>
          have hbounds := ih hp
          omega

theorem pairwise (h : Tiles start size lo ps hi) :
    ps.Pairwise fun p q => ∀ x, InPiece start size p x → ¬ InPiece start size q x := by
  induction h with
  | nil => exact .nil
  | cons hstart hpos htail ih =>
      refine .cons ?_ ih
      intro q hq x hx hx'
      have hbounds := htail.bounds hq
      simp only [InPiece] at hx hx'
      omega

theorem covers (h : Tiles start size lo ps hi) (x : ℕ) :
    (∃ p ∈ ps, InPiece start size p x) ↔ lo ≤ x ∧ x < hi := by
  induction h with
  | nil => simp
  | @cons lo hi p ps hstart hpos htail ih =>
      have hle := htail.le
      simp only [List.mem_cons, exists_eq_or_imp]
      rw [ih, InPiece]
      omega

end Tiles

end Preon.Framework
