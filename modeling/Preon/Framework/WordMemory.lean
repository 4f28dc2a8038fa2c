import Mathlib.Algebra.Group.Nat.Defs
import Mathlib.Logic.Function.Basic

/-!
# 64-bit words in a 64-bit address space

Addresses wrap around, so a run of bytes is given by its first address and the distance from it.
A frame is a run of eight-byte cells; storing to one cell updates the frame at that cell.
-/

namespace Preon.Framework

abbrev Word := BitVec 64

/-- Memory that 64-bit addresses reach, by byte. -/
abbrev WordMemory := Word → BitVec 8

namespace WordMemory

/-- The byte is one of the `n` bytes from `a` on. -/
def InRun (a : Word) (n : ℕ) (x : Word) : Prop := (x - a).toNat < n

instance (a : Word) (n : ℕ) (x : Word) : Decidable (InRun a n x) :=
  inferInstanceAs (Decidable ((x - a).toNat < n))

/-- The little-endian word at an address. -/
def load (mem : WordMemory) (a : Word) : Word :=
  mem (a + 7#64) ++ mem (a + 6#64) ++ mem (a + 5#64) ++ mem (a + 4#64) ++ mem (a + 3#64) ++
    mem (a + 2#64) ++ mem (a + 1#64) ++ mem a

def store (mem : WordMemory) (a v : Word) : WordMemory :=
  fun x => if InRun a 8 x then v.extractLsb' (8 * (x - a).toNat) 8 else mem x

variable {mem mem' : WordMemory} {a b v x : Word}

theorem load_congr (h : ∀ x, InRun a 8 x → mem x = mem' x) : load mem a = load mem' a := by
  have hoff (k : ℕ) (hk : k < 8) : mem (a + BitVec.ofNat 64 k) = mem' (a + BitVec.ofNat 64 k) := by
    apply h
    simp only [InRun]
    bv_omega
  have hzero := hoff 0 (by decide)
  rw [BitVec.add_zero] at hzero
  simp only [load, hzero]
  rw [hoff 1 (by decide), hoff 2 (by decide), hoff 3 (by decide), hoff 4 (by decide),
    hoff 5 (by decide), hoff 6 (by decide), hoff 7 (by decide)]

theorem store_apply_of_not_inRun (h : ¬ InRun a 8 x) : store mem a v x = mem x := if_neg h

theorem store_apply_add {k : ℕ} (hk : k < 8) :
    store mem a v (a + BitVec.ofNat 64 k) = v.extractLsb' (8 * k) 8 := by
  have hdist : (a + BitVec.ofNat 64 k - a).toNat = k := by bv_omega
  rw [store, if_pos (by rw [InRun, hdist]; exact hk), hdist]

theorem bytes_append (v : Word) :
    v.extractLsb' 56 8 ++ v.extractLsb' 48 8 ++ v.extractLsb' 40 8 ++ v.extractLsb' 32 8 ++
      v.extractLsb' 24 8 ++ v.extractLsb' 16 8 ++ v.extractLsb' 8 8 ++ v.extractLsb' 0 8 = v := by
  have hjoin {start len next width : ℕ} (h : next = start + len) :
      v.extractLsb' next width ++ v.extractLsb' start len = v.extractLsb' start (width + len) :=
    BitVec.extractLsb'_append_extractLsb'_eq_extractLsb' h
  rw [hjoin (by rfl : 56 = 48 + 8), hjoin (by rfl : 48 = 40 + 8), hjoin (by rfl : 40 = 32 + 8),
    hjoin (by rfl : 32 = 24 + 8), hjoin (by rfl : 24 = 16 + 8), hjoin (by rfl : 16 = 8 + 8),
    hjoin (by rfl : 8 = 0 + 8)]
  exact BitVec.extractLsb'_eq_self

theorem load_store_self (mem : WordMemory) (a v : Word) : load (store mem a v) a = v := by
  have hoff {k : ℕ} (hk : k < 8) := @store_apply_add mem a v k hk
  have hzero := hoff (k := 0) (by decide)
  rw [BitVec.add_zero] at hzero
  rw [load, hzero, hoff (k := 1) (by decide), hoff (k := 2) (by decide), hoff (k := 3) (by decide),
    hoff (k := 4) (by decide), hoff (k := 5) (by decide), hoff (k := 6) (by decide),
    hoff (k := 7) (by decide)]
  exact bytes_append v

theorem load_store_of_disjoint (h : ∀ x, InRun b 8 x → ¬ InRun a 8 x) :
    load (store mem a v) b = load mem b :=
  load_congr fun x hx => store_apply_of_not_inRun (h x hx)

/-! ## Memory given by its words -/

def ofWords (words : ℕ → Word) : WordMemory :=
  fun x => (words (x.toNat / 8)).extractLsb' (8 * (x.toNat % 8)) 8

theorem load_ofWords {words : ℕ → Word} {k : ℕ} (h : a.toNat = 8 * k) :
    load (ofWords words) a = words k := by
  have hbyte {j : ℕ} (hj : j < 8) :
      ofWords words (a + BitVec.ofNat 64 j) = (words k).extractLsb' (8 * j) 8 := by
    have hval : (a + BitVec.ofNat 64 j).toNat = 8 * k + j := by bv_omega
    rw [ofWords, hval, show (8 * k + j) / 8 = k by omega, show (8 * k + j) % 8 = j by omega]
  have hzero := hbyte (j := 0) (by decide)
  rw [BitVec.add_zero] at hzero
  rw [load, hzero, hbyte (j := 1) (by decide), hbyte (j := 2) (by decide),
    hbyte (j := 3) (by decide),
    hbyte (j := 4) (by decide), hbyte (j := 5) (by decide), hbyte (j := 6) (by decide),
    hbyte (j := 7) (by decide)]
  exact bytes_append (words k)

/-! ## Clearing a run -/

/-- Memory with zeros in the `n` bytes from `a` on. -/
def clear (mem : WordMemory) (a : Word) (n : ℕ) : WordMemory :=
  fun x => if InRun a n x then 0 else mem x

theorem clear_apply_of_inRun {n : ℕ} (h : InRun a n x) : clear mem a n x = 0 := if_pos h

theorem clear_apply_of_not_inRun {n : ℕ} (h : ¬ InRun a n x) : clear mem a n x = mem x := if_neg h

theorem clear_zero (mem : WordMemory) (a : Word) : clear mem a 0 = mem := by
  funext x
  exact clear_apply_of_not_inRun (Nat.not_lt_zero _)

theorem clear_store_zero {n : ℕ} (h : a.toNat + 8 + n < 2 ^ 64) :
    clear (store mem a 0) (a + 8) n = clear mem a (n + 8) := by
  funext x
  by_cases hnext : InRun (a + 8) n x
  · have hrun : InRun a (n + 8) x := by
      simp only [InRun] at hnext ⊢
      bv_omega
    rw [clear_apply_of_inRun hnext, clear_apply_of_inRun hrun]
  · rw [clear_apply_of_not_inRun hnext]
    by_cases hword : InRun a 8 x
    · have hrun : InRun a (n + 8) x := by
        simp only [InRun] at hword ⊢
        omega
      rw [clear_apply_of_inRun hrun, store, if_pos hword]
      simp
    · have hrun : ¬ InRun a (n + 8) x := by
        simp only [InRun] at hnext hword ⊢
        bv_omega
      rw [clear_apply_of_not_inRun hrun, store_apply_of_not_inRun hword]

/-! ## Frames of cells -/

/-- The address of a cell of the frame at `base`. -/
def cellAddr (base : Word) (k : ℕ) : Word := base + BitVec.ofNat 64 (8 * k)

/-- The contents of a frame of `n` cells. -/
def cells (n : ℕ) (mem : WordMemory) (base : Word) : Fin n → Word :=
  fun k => load mem (cellAddr base k)

variable {n : ℕ} {base : Word}

theorem inRun_frame {k : ℕ} (hn : 8 * n ≤ 2 ^ 64) (hk : k < n) (h : InRun (cellAddr base k) 8 x) :
    InRun base (8 * n) x := by
  simp only [InRun, cellAddr] at h ⊢
  bv_omega

theorem cells_disjoint {i k : ℕ} (hn : 8 * n ≤ 2 ^ 64) (hi : i < n) (hk : k < n) (hne : i ≠ k)
    (h : InRun (cellAddr base i) 8 x) : ¬ InRun (cellAddr base k) 8 x := by
  simp only [InRun, cellAddr] at h ⊢
  bv_omega

theorem cells_store (hn : 8 * n ≤ 2 ^ 64) (mem : WordMemory) (base v : Word) (k : Fin n) :
    cells n (store mem (cellAddr base k) v) base = Function.update (cells n mem base) k v := by
  funext i
  by_cases hi : i = k
  · rw [hi, Function.update_self]
    exact load_store_self _ _ _
  · rw [Function.update_of_ne hi]
    apply load_store_of_disjoint
    intro x hx
    exact cells_disjoint hn i.isLt k.isLt (fun he => hi (Fin.ext he)) hx

end WordMemory

end Preon.Framework
