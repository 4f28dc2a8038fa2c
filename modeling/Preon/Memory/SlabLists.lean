import Preon.Memory.Slab

/-!
# The free lists of the size classes

Pushing, popping and carving a page, on lists threaded through memory.
-/

namespace Preon.Memory

open Framework

namespace Slab

def nrClasses : ℕ := classes.length

def classSize (idx : ℕ) : ℕ := classes.getD idx 0

theorem classSize_eq : ∀ idx < nrClasses, classSize idx = 2 ^ (idx + 3) := by decide

theorem classSize_bounds : ∀ idx < nrClasses,
    8 ≤ classSize idx ∧ classSize idx * (pageSize / classSize idx) = pageSize ∧
      2 ≤ pageSize / classSize idx := by decide

theorem index_classes {idx : ℕ} (h : idx < nrClasses) : index classes idx = .ok (classSize idx) :=
  index_ok h 0

theorem objectsPerPage_ok {idx : ℕ} (h : idx < nrClasses) :
    objectsPerPage idx = .ok (pageSize / classSize idx) := by
  rw [objectsPerPage, index_classes h, ok_bind]
  rfl

theorem sizeClassIndex_some {size align idx : ℕ} (h : sizeClassIndex size align = some idx) :
    idx < nrClasses ∧ size ≤ classSize idx ∧ align ≤ classSize idx := by
  rw [sizeClassIndex, List.findIdx?_eq_some_iff_getElem] at h
  obtain ⟨hlt, hfit, -⟩ := h
  have hget : classSize idx = classes[idx] := List.getD_eq_getElem _ _ hlt
  have hmax : max size align ≤ classes[idx] := by simpa using hfit
  exact ⟨hlt, by omega, by omega⟩

private theorem trailingZeros_two_pow {bits k : ℕ} (h : k < bits) :
    trailingZeros bits (2 ^ k) = k := by
  have hle : k ≤ trailingZeros bits (2 ^ k) := (le_trailingZeros_iff h.le).mpr (dvd_refl _)
  have hge : ¬ k + 1 ≤ trailingZeros bits (2 ^ k) := by
    rw [le_trailingZeros_iff h, Nat.pow_dvd_pow_iff_le_right (by decide)]
    omega
  omega

theorem pagesOrder_eq {size : ℕ} (h : size ≤ 2 ^ 63) :
    pagesOrder size = Nat.clog 2 (BootMem.divCeil size pageSize) := by
  have hle : Nat.clog 2 (BootMem.divCeil size pageSize) ≤ 51 := by
    apply Nat.clog_le_of_le_pow
    simp only [BootMem.divCeil, pageSize]
    omega
  rw [pagesOrder, nextPowerOfTwo, trailingZeros_two_pow (by omega), truncate_of_lt (by omega)]

theorem le_pagesOrder {size : ℕ} (h : size ≤ 2 ^ 63) : size ≤ 2 ^ pagesOrder size * pageSize := by
  have hpow := Nat.le_pow_clog (by decide : 1 < 2) (BootMem.divCeil size pageSize)
  rw [pagesOrder_eq h]
  simp only [BootMem.divCeil, pageSize] at hpow ⊢
  omega

private theorem readNext_getD (mem : ByteMemory) (node : ℕ) :
    (readNext mem node).getD 0 = read64 mem node := by
  rw [readNext]
  split
  · next hz => rw [hz, Option.getD_none]
  · rw [Option.getD_some]

private theorem readNext_ne (mem : ByteMemory) (node : ℕ) : readNext mem node ≠ some 0 := by
  rw [readNext]
  split
  · nofun
  · next hz => simpa using hz

end Slab

theorem AllocLayout.size_le (l : AllocLayout) : l.size ≤ 2 ^ 63 := by
  obtain ⟨k, hk⟩ := l.align_pow
  have hpos : 0 < l.align := by
    rw [hk]
    exact Nat.two_pow_pos k
  have hfits := l.fits
  have hle : l.size ≤ BootMem.divCeil l.size l.align * l.align := by
    have hdiv := Nat.div_add_mod (l.size + l.align - 1) l.align
    have hmod := Nat.mod_lt (l.size + l.align - 1) hpos
    rw [BootMem.divCeil, Nat.mul_comm]
    omega
  omega

namespace Heap

open Slab

def listHead (h : Heap) (idx : ℕ) : Option ℕ := h.freeLists.getD idx none

/-- Every class has its list of objects. -/
structure Lists (h : Heap) (nodes : ℕ → List ℕ) : Prop where
  length : h.freeLists.length = nrClasses
  threaded : ∀ idx < nrClasses, Threaded h.memory ((h.listHead idx).getD 0) (nodes idx)
  nonnull : ∀ idx, h.listHead idx ≠ some 0
  address : ∀ idx < nrClasses, ∀ x ∈ nodes idx, x < 2 ^ 64

def putList (nodes : ℕ → List ℕ) (idx : ℕ) (xs : List ℕ) : ℕ → List ℕ :=
  fun i => if i = idx then xs else nodes i

@[simp] theorem putList_self (nodes : ℕ → List ℕ) (idx : ℕ) (xs : List ℕ) :
    putList nodes idx xs idx = xs := if_pos rfl

theorem putList_of_ne (nodes : ℕ → List ℕ) {idx i : ℕ} (xs : List ℕ) (h : i ≠ idx) :
    putList nodes idx xs i = nodes i := if_neg h

private theorem putList_putList (nodes : ℕ → List ℕ) (idx : ℕ) (xs ys : List ℕ) :
    putList (putList nodes idx xs) idx ys = putList nodes idx ys := by
  funext i
  by_cases hi : i = idx
  · rw [hi, putList_self, putList_self]
  · rw [putList_of_ne _ _ hi, putList_of_ne _ _ hi, putList_of_ne _ _ hi]

variable {h : Heap} {nodes : ℕ → List ℕ}

theorem Lists.index_ok (hl : h.Lists nodes) {idx : ℕ} (hidx : idx < nrClasses) :
    index h.freeLists idx = .ok (h.listHead idx) :=
  Framework.index_ok (by rw [hl.length]; exact hidx) none

theorem Lists.head_eq (hl : h.Lists nodes) {idx x : ℕ} {xs : List ℕ} (hidx : idx < nrClasses)
    (hx : nodes idx = x :: xs) : h.listHead idx = some x := by
  have ht := hl.threaded idx hidx
  rw [hx] at ht
  cases hh : h.listHead idx with
  | none =>
      rw [hh] at ht
      exact absurd ht.1.symm ht.2.1
  | some y =>
      rw [hh] at ht
      exact congrArg some ht.1

theorem Lists.head_none (hl : h.Lists nodes) {idx : ℕ} (hidx : idx < nrClasses)
    (hx : nodes idx = []) : h.listHead idx = none := by
  have ht := hl.threaded idx hidx
  rw [hx] at ht
  cases hh : h.listHead idx with
  | none => rfl
  | some y =>
      rw [hh] at ht
      exact absurd (hh.trans (congrArg some ht)) (hl.nonnull idx)

private theorem Lists.head_lt (hl : h.Lists nodes) {idx : ℕ} (hidx : idx < nrClasses) :
    (h.listHead idx).getD 0 < 2 ^ 64 := by
  cases hx : nodes idx with
  | nil =>
      rw [hl.head_none hidx hx]
      decide
  | cons x xs =>
      rw [hl.head_eq hidx hx]
      exact hl.address idx hidx x (by rw [hx]; exact List.mem_cons_self)

private theorem Lists.setHead (hl : h.Lists nodes) {h' : Heap} {idx : ℕ}
    {head : Option ℕ} {xs : List ℕ}
    (hidx : idx < nrClasses) (hlists : h'.freeLists = h.freeLists.set idx head)
    (hhead : head ≠ some 0) (hthread : Threaded h'.memory (head.getD 0) xs)
    (haddr : ∀ x ∈ xs, x < 2 ^ 64)
    (hmem : ∀ i < nrClasses, i ≠ idx → ∀ x ∈ nodes i, ∀ j < 8,
      h'.memory (x + j) = h.memory (x + j)) :
    h'.Lists (putList nodes idx xs) := by
  have hlt : idx < h.freeLists.length := by
    rw [hl.length]
    exact hidx
  have hheads (i : ℕ) : h'.listHead i = if i = idx then head else h.listHead i := by
    rw [listHead, hlists]
    exact getD_set h.freeLists hlt head none i
  refine ⟨?_, ?_, ?_, ?_⟩
  · rw [hlists, List.length_set, hl.length]
  · intro i hi
    rw [hheads]
    by_cases he : i = idx
    · rw [if_pos he, he, putList_self]
      exact hthread
    · rw [if_neg he, putList_of_ne _ _ he]
      exact (hl.threaded i hi).congr (hmem i hi he)
  · intro i
    rw [hheads]
    split
    · exact hhead
    · exact hl.nonnull i
  · intro i hi
    by_cases he : i = idx
    · rw [he, putList_self]
      exact haddr
    · rw [putList_of_ne _ _ he]
      exact hl.address i hi

theorem push_ok (hl : h.Lists nodes) {idx ptr : ℕ} (hidx : idx < nrClasses) (hptr : ptr ≠ 0)
    (hlt : ptr < 2 ^ 64) (hfresh : ∀ i < nrClasses, ∀ y ∈ nodes i, Clear ptr 8 y 8) :
    ∃ h', h.push idx ptr = .ok h' ∧ h'.Lists (putList nodes idx (ptr :: nodes idx)) ∧
      h'.buddy = h.buddy := by
  refine ⟨⟨h.freeLists.set idx (some ptr), h.buddy, write64 h.memory ptr ((h.listHead idx).getD 0)⟩,
    ?_, ?_, rfl⟩
  · rw [push, hl.index_ok hidx, ok_bind, setIndex_ok (by rw [hl.length]; exact hidx), ok_bind]
    rfl
  · apply hl.setHead hidx rfl
    · simpa using hptr
    · exact (hl.threaded idx hidx).push hptr (hl.head_lt hidx) (hfresh idx hidx)
    · exact List.forall_mem_cons.mpr ⟨hlt, hl.address idx hidx⟩
    · intro i hi _ x hx j hj
      exact write64_of_clear h.memory (hfresh i hi x hx) hj

theorem pop_ok (hl : h.Lists nodes) {idx x : ℕ} {xs : List ℕ} (hidx : idx < nrClasses)
    (hx : nodes idx = x :: xs) :
    ∃ h', h.pop idx = .ok (some x, h') ∧ h'.Lists (putList nodes idx xs) ∧ h'.buddy = h.buddy ∧
      h'.memory = h.memory := by
  have ht := hl.threaded idx hidx
  rw [hx] at ht
  refine ⟨⟨h.freeLists.set idx (readNext h.memory x), h.buddy, h.memory⟩, ?_, ?_, rfl, rfl⟩
  · rw [pop, hl.index_ok hidx, ok_bind, hl.head_eq hidx hx]
    simp only
    rw [setIndex_ok (by rw [hl.length]; exact hidx), ok_bind]
    rfl
  · apply hl.setHead hidx rfl (readNext_ne _ _)
    · rw [readNext_getD]
      exact ht.2.2
    · intro y hy
      exact hl.address idx hidx y (by rw [hx]; exact List.mem_cons_of_mem _ hy)
    · intros
      rfl

/-- The objects of a run of a page, in address order. -/
def objectsFrom (base size k count : ℕ) : List ℕ :=
  (List.range' k count).map fun j => base + j * size

theorem objectsFrom_succ (base size k count : ℕ) :
    objectsFrom base size k (count + 1) = (base + k * size) :: objectsFrom base size
      (k + 1) count := by
  rw [objectsFrom, List.range'_succ, List.map_cons]
  rfl

theorem mem_objectsFrom {base size k count x : ℕ} :
    x ∈ objectsFrom base size k count ↔ ∃ j, k ≤ j ∧ j < k + count ∧ base + j * size = x := by
  simp only [objectsFrom, List.mem_map, List.mem_range'_1, and_assoc]

theorem objects_clear {base size i j : ℕ} (h : i < j) :
    Clear (base + i * size) size (base + j * size) size := by
  left
  have hmul : (i + 1) * size ≤ j * size := Nat.mul_le_mul_right size h
  rw [Nat.add_mul, Nat.one_mul] at hmul
  omega

theorem carve_ok (hl : h.Lists nodes) {idx base size : ℕ} (hidx : idx < nrClasses)
    (hbase : base ≠ 0) (hsize : 8 ≤ size) (count k : ℕ) (hend : base + (k + count) * size ≤ 2 ^ 64)
    (hfresh : ∀ x ∈ objectsFrom base size k count, ∀ i < nrClasses, ∀ y ∈ nodes i, Clear x 8 y 8) :
    ∃ h', carve idx base size count k h = .ok h' ∧
      h'.Lists (putList nodes idx ((objectsFrom base size k count).reverse ++ nodes idx)) ∧
      h'.buddy = h.buddy := by
  induction count generalizing h nodes k with
  | zero =>
      refine ⟨h, rfl, ?_, rfl⟩
      have hsame :
          putList nodes idx ((objectsFrom base size k 0).reverse ++ nodes idx) = nodes := by
        funext i
        by_cases hi : i = idx
        · rw [hi, putList_self]
          rfl
        · rw [putList_of_ne _ _ hi]
      rw [hsame]
      exact hl
  | succ count ih =>
      rw [objectsFrom_succ] at hfresh ⊢
      obtain ⟨hfirst, hrest⟩ := List.forall_mem_cons.mp hfresh
      have hk : (k + 1) * size ≤ (k + (count + 1)) * size := Nat.mul_le_mul_right size (by omega)
      rw [Nat.add_mul, Nat.one_mul] at hk
      have hne : base + k * size ≠ 0 := by omega
      obtain ⟨h₁, hs₁, hl₁, hb₁⟩ := push_ok hl hidx hne (by omega) hfirst
      obtain ⟨h', hs', hl', hb'⟩ := ih hl₁ (k + 1) (by rwa [Nat.add_right_comm, Nat.add_assoc] )
        (by
          intro x hx i hi y hy
          by_cases he : i = idx
          · rw [he, putList_self] at hy
            rcases List.mem_cons.mp hy with rfl | hy
            · obtain ⟨j, hj, -, rfl⟩ := mem_objectsFrom.mp hx
              exact (objects_clear (by omega)).symm.mono (le_refl _) (by omega)
                (le_refl _) (by omega)
            · exact hrest x hx idx hidx y hy
          · rw [putList_of_ne _ _ he] at hy
            exact hrest x hx i hi y hy)
      refine ⟨h', ?_, ?_, hb'.trans hb₁⟩
      · rw [carve, checkedMul_ok (by omega), ok_bind, checkedAdd_ok (by omega),
          ok_bind, hs₁, ok_bind,
          hs']
      · rw [putList_putList, putList_self] at hl'
        simpa using hl'

end Heap

end Preon.Memory
