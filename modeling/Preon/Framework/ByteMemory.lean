import Mathlib.Data.List.Basic
import Mathlib.Tactic.NormNum

/-!
# Byte memory and lists threaded through it

Memory is a function from addresses to bytes.  A list is threaded through memory when each node
holds the address of the next one in its first eight bytes and the last one holds zero.
-/

namespace Preon.Framework

abbrev ByteMemory := ℕ → UInt8

/-- The little-endian 64-bit word at an address. -/
def read64 (mem : ByteMemory) (a : ℕ) : ℕ :=
  (mem a).toNat + (mem (a + 1)).toNat * 2 ^ 8 + (mem (a + 2)).toNat * 2 ^ 16 +
    (mem (a + 3)).toNat * 2 ^ 24 + (mem (a + 4)).toNat * 2 ^ 32 + (mem (a + 5)).toNat * 2 ^ 40 +
    (mem (a + 6)).toNat * 2 ^ 48 + (mem (a + 7)).toNat * 2 ^ 56

def write64 (mem : ByteMemory) (a v : ℕ) : ByteMemory :=
  fun x => if a ≤ x ∧ x < a + 8 then UInt8.ofNat (v / 2 ^ (8 * (x - a))) else mem x

/-- Store a run of bytes. -/
def writeBytes (mem : ByteMemory) (a : ℕ) (bytes : List UInt8) : ByteMemory :=
  fun x => if a ≤ x ∧ x < a + bytes.length then bytes.getD (x - a) 0 else mem x

/-- Two runs of bytes with no byte in common. -/
def Clear (a n b k : ℕ) : Prop := a + n ≤ b ∨ b + k ≤ a

theorem Clear.symm {a n b k : ℕ} (h : Clear a n b k) : Clear b k a n := Or.symm h

theorem Clear.mono {a n b k a' n' b' k' : ℕ} (h : Clear a n b k) (ha : a ≤ a')
    (hn : a' + n' ≤ a + n) (hb : b ≤ b') (hk : b' + k' ≤ b + k) : Clear a' n' b' k' := by
  simp only [Clear] at h ⊢
  omega

theorem write64_of_lt {mem : ByteMemory} {a v i : ℕ} (hi : i < 8) :
    write64 mem a v (a + i) = UInt8.ofNat (v / 2 ^ (8 * i)) := by
  rw [write64, if_pos (by omega), Nat.add_sub_cancel_left]

theorem read64_write64 (mem : ByteMemory) (a : ℕ) {v : ℕ} (hv : v < 2 ^ 64) :
    read64 (write64 mem a v) a = v := by
  have hzero : write64 mem a v (a + 0) = UInt8.ofNat (v / 2 ^ (8 * 0)) :=
    write64_of_lt (by decide)
  rw [Nat.add_zero] at hzero
  simp only [read64, hzero, write64_of_lt (by decide : 1 < 8), write64_of_lt (by decide : 2 < 8),
    write64_of_lt (by decide : 3 < 8), write64_of_lt (by decide : 4 < 8),
    write64_of_lt (by decide : 5 < 8), write64_of_lt (by decide : 6 < 8),
    write64_of_lt (by decide : 7 < 8), UInt8.toNat_ofNat']
  norm_num
  omega

theorem read64_congr {mem mem' : ByteMemory} {a : ℕ} (h : ∀ i < 8, mem' (a + i) = mem (a + i)) :
    read64 mem' a = read64 mem a := by
  have hzero := h 0 (by decide)
  rw [Nat.add_zero] at hzero
  simp only [read64, hzero, h 1 (by decide), h 2 (by decide), h 3 (by decide), h 4 (by decide),
    h 5 (by decide), h 6 (by decide), h 7 (by decide)]

theorem write64_of_clear (mem : ByteMemory) {a v b i : ℕ} (h : Clear a 8 b 8) (hi : i < 8) :
    write64 mem a v (b + i) = mem (b + i) := by
  simp only [Clear] at h
  rw [write64, if_neg (by omega)]

theorem writeBytes_of_clear (mem : ByteMemory) {a b i : ℕ} {bytes : List UInt8}
    (h : Clear a bytes.length b 8) (hi : i < 8) : writeBytes mem a bytes (b + i) = mem (b + i) := by
  simp only [Clear] at h
  rw [writeBytes, if_neg (by omega)]

/-- Following the links from `head` visits exactly `nodes` and ends in zero. -/
def Threaded (mem : ByteMemory) : (head : ℕ) → (nodes : List ℕ) → Prop
  | head, [] => head = 0
  | head, x :: xs => head = x ∧ x ≠ 0 ∧ Threaded mem (read64 mem x) xs

variable {mem mem' : ByteMemory} {head : ℕ} {nodes : List ℕ}

theorem Threaded.congr (h : Threaded mem head nodes)
    (hmem : ∀ x ∈ nodes, ∀ i < 8, mem' (x + i) = mem (x + i)) : Threaded mem' head nodes := by
  induction nodes generalizing head with
  | nil => exact h
  | cons x xs ih =>
      obtain ⟨hx, hxs⟩ := List.forall_mem_cons.mp hmem
      obtain ⟨hhead, hne, htail⟩ := h
      refine ⟨hhead, hne, ?_⟩
      rw [read64_congr hx]
      exact ih htail hxs

theorem Threaded.push (h : Threaded mem head nodes) {x : ℕ} (hx : x ≠ 0) (hhead : head < 2 ^ 64)
    (hclear : ∀ y ∈ nodes, Clear x 8 y 8) : Threaded (write64 mem x head) x (x :: nodes) := by
  refine ⟨rfl, hx, ?_⟩
  rw [read64_write64 mem x hhead]
  exact h.congr fun y hy i hi => write64_of_clear mem (hclear y hy) hi

end Preon.Framework
