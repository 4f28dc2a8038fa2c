import Preon.Framework.Checked

/-!
# Addresses and the kernel address-space layout

The conversions between physical and virtual addresses, with their debug assertions and the
overflow checks on their sums.
-/

namespace Preon.Memory

open Framework

def pageSize : ℕ := 4096

def kernelLinearBase : ℕ := 0xFFFF800000000000
def kernelImageBase : ℕ := 0xFFFFFFFF80000000
def kernelDeviceBase : ℕ := 0xFFFFC00000000000
def physLoadBase : ℕ := 0x40080000
def imagePaBase : ℕ := 0x40000000

def paToLinearVa (pa : ℕ) : Outcome ℕ := do
  debugAssert (pa < kernelLinearBase)
  checkedAdd 64 pa kernelLinearBase

def linearVaToPa (va : ℕ) : Outcome ℕ := do
  debugAssert (kernelLinearBase ≤ va ∧ va < kernelDeviceBase)
  checkedSub va kernelLinearBase

/-- The live image base; the seam where a slide would be added. -/
def imageVaBase : ℕ := kernelImageBase

def imageVaToPa (va : ℕ) : Outcome ℕ := do
  debugAssert (imageVaBase ≤ va)
  let offset ← checkedSub va imageVaBase
  checkedAdd 64 offset imagePaBase

def paToDeviceVa (pa : ℕ) : Outcome ℕ := do
  debugAssert (pa < kernelDeviceBase)
  checkedAdd 64 pa kernelDeviceBase

theorem paToLinearVa_ok {pa : ℕ} (h : pa < 2 ^ 47) :
    paToLinearVa pa = .ok (pa + kernelLinearBase) := by
  rw [paToLinearVa, debugAssert_true (by simp only [kernelLinearBase]; omega), ok_bind,
    checkedAdd_ok (by simp only [kernelLinearBase]; omega)]

theorem paToLinearVa_panics {pa : ℕ} (h : 2 ^ 47 ≤ pa) : ∃ e, paToLinearVa pa = .error e := by
  rw [paToLinearVa]
  by_cases hlt : pa < kernelLinearBase
  · rw [debugAssert_true hlt, ok_bind, checkedAdd, if_neg (by simp only [kernelLinearBase]; omega)]
    exact ⟨_, rfl⟩
  · rw [debugAssert, if_neg hlt]
    exact ⟨_, rfl⟩

theorem linearVaToPa_ok {pa : ℕ} (h : pa < 2 ^ 46) :
    linearVaToPa (pa + kernelLinearBase) = .ok pa := by
  rw [linearVaToPa, debugAssert_true
    (by simp only [kernelLinearBase, kernelDeviceBase]; omega), ok_bind,
    checkedSub_ok (by omega), Nat.add_sub_cancel]

theorem linearVaToPa_panics {pa : ℕ} (h : 2 ^ 46 ≤ pa) :
    ∃ e, linearVaToPa (pa + kernelLinearBase) = .error e := by
  rw [linearVaToPa, debugAssert, if_neg (by simp only [kernelLinearBase, kernelDeviceBase]; omega)]
  exact ⟨_, rfl⟩

theorem imageVaToPa_ok {va : ℕ} (h : kernelImageBase ≤ va) (h' : va < 2 ^ 64) :
    imageVaToPa va = .ok (va - kernelImageBase + imagePaBase) := by
  have hb : imageVaBase = kernelImageBase := rfl
  rw [imageVaToPa, hb, debugAssert_true h, ok_bind, checkedSub_ok h, ok_bind,
    checkedAdd_ok (by simp only [kernelImageBase, imagePaBase] at *; omega)]

end Preon.Memory
