import Mathlib.Data.Nat.Bitwise

/-!
# Words packed from bit fields

A field has a position, a width and a value that fits.  The disjunction of fields at disjoint
positions gives every field back, and has no other bit.
-/

namespace Preon.Framework

/-- The `width` bits of `w` from bit `lo` on. -/
def bitField (w lo width : ℕ) : ℕ := (w >>> lo) % 2 ^ width

structure Field where
  lo : ℕ
  width : ℕ
  value : ℕ
  value_lt : value < 2 ^ width

namespace Field

def Covers (f : Field) (i : ℕ) : Prop := f.lo ≤ i ∧ i < f.lo + f.width

def Disjoint (f g : Field) : Prop := f.lo + f.width ≤ g.lo ∨ g.lo + g.width ≤ f.lo

instance (f g : Field) : Decidable (f.Disjoint g) :=
  inferInstanceAs (Decidable (f.lo + f.width ≤ g.lo ∨ g.lo + g.width ≤ f.lo))

def word (f : Field) : ℕ := f.value <<< f.lo

theorem testBit_word (f : Field) (i : ℕ) :
    f.word.testBit i = (decide (f.lo ≤ i) && f.value.testBit (i - f.lo)) := by
  rw [word, Nat.testBit_shiftLeft]

theorem testBit_word_of_not_covers {f : Field} {i : ℕ} (h : ¬ f.Covers i) :
    f.word.testBit i = false := by
  rw [testBit_word, Bool.and_eq_false_iff]
  by_cases hle : f.lo ≤ i
  · right
    apply Nat.testBit_lt_two_pow
    have hwidth : f.width ≤ i - f.lo := by
      simp only [Covers] at h
      omega
    exact lt_of_lt_of_le f.value_lt (Nat.pow_le_pow_right (by decide) hwidth)
  · exact .inl (decide_eq_false hle)

end Field

theorem testBit_bitField (w lo width i : ℕ) :
    (bitField w lo width).testBit i = (decide (i < width) && w.testBit (lo + i)) := by
  rw [bitField, Nat.testBit_mod_two_pow, Nat.testBit_shiftRight]

def pack : List Field → ℕ
  | [] => 0
  | f :: fs => f.word ||| pack fs

theorem pack_append (fs gs : List Field) : pack (fs ++ gs) = pack fs ||| pack gs := by
  induction fs with
  | nil => exact (Nat.zero_or _).symm
  | cons f fs ih => rw [List.cons_append, pack, pack, ih, Nat.or_assoc]

variable {fs : List Field}

theorem testBit_pack_of_not_covers {i : ℕ} (h : ∀ f ∈ fs, ¬ f.Covers i) :
    (pack fs).testBit i = false := by
  induction fs with
  | nil => exact Nat.zero_testBit i
  | cons f fs ih =>
      rw [pack, Nat.testBit_or, Field.testBit_word_of_not_covers (h f (by simp)),
        ih fun g hg => h g (by simp [hg])]
      rfl

/-- Inside a field only that field has a say. -/
theorem testBit_pack {f : Field} {i : ℕ} (hdisj : fs.Pairwise Field.Disjoint) (hf : f ∈ fs)
    (hi : f.Covers i) : (pack fs).testBit i = f.word.testBit i := by
  have apart {g h : Field} (hgh : g.Disjoint h) (hg : g.Covers i) : ¬ h.Covers i := by
    simp only [Field.Disjoint, Field.Covers] at hgh hg ⊢
    omega
  have apart' {g h : Field} (hgh : g.Disjoint h) (hh : h.Covers i) : ¬ g.Covers i :=
    fun hg => apart hgh hg hh
  induction fs with
  | nil => simp at hf
  | cons g gs ih =>
      obtain ⟨hhead, htail⟩ := List.pairwise_cons.mp hdisj
      rw [pack, Nat.testBit_or]
      rcases List.mem_cons.mp hf with rfl | hmem
      · rw [testBit_pack_of_not_covers fun h hh => apart (hhead h hh) hi, Bool.or_false]
      · rw [Field.testBit_word_of_not_covers (apart' (hhead f hmem) hi), ih htail hmem,
          Bool.false_or]

theorem bitField_pack {f : Field} (hdisj : fs.Pairwise Field.Disjoint) (hf : f ∈ fs) :
    bitField (pack fs) f.lo f.width = f.value := by
  apply Nat.eq_of_testBit_eq
  intro i
  rw [testBit_bitField]
  by_cases hi : i < f.width
  · rw [testBit_pack hdisj hf ⟨Nat.le_add_right .., by omega⟩, Field.testBit_word,
      Nat.add_sub_cancel_left]
    simp [hi]
  · have hvalue : f.value.testBit i = false :=
      Nat.testBit_lt_two_pow
        (lt_of_lt_of_le f.value_lt (Nat.pow_le_pow_right (by decide) (by omega)))
    simp [hi, hvalue]

end Preon.Framework
