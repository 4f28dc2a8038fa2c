import Mathlib.Algebra.Group.Nat.Defs
import Mathlib.Data.List.GetD
import Mathlib.Data.Nat.Log
import Mathlib.Data.Nat.Size

/-!
# Fallible computations over machine integers

Machine integers are naturals below a power of two.  Arithmetic is the checked arithmetic of
a build with overflow checks and debug assertions: an operation that would wrap, an index out
of bounds or a failed assertion stops the computation.  A computation that never stops early
therefore gives the same result in a build without the checks.
-/

namespace Preon.Framework

/-- The ways a computation fails to return. -/
inductive Panic
  | arithmeticOverflow
  | indexOutOfBounds
  | unwrapNone
  | debugAssertion
  | message (text : String)
  | outOfFuel
  deriving DecidableEq, Repr

/-- The result of a computation that may panic. -/
abbrev Outcome (α : Type) := Except Panic α

@[simp] theorem ok_bind {α β : Type} (a : α) (f : α → Outcome β) :
    ((Except.ok a : Outcome α) >>= f) = f a := rfl

@[simp] theorem error_bind {α β : Type} (e : Panic) (f : α → Outcome β) :
    ((Except.error e : Outcome α) >>= f) = .error e := rfl

theorem bind_eq_ok {α β : Type} {x : Outcome α} {f : α → Outcome β} {b : β} :
    x >>= f = .ok b ↔ ∃ a, x = .ok a ∧ f a = .ok b := by
  cases x with
  | error e => simp
  | ok a => simp

theorem foldlM_invariant {α β : Type} {f : β → α → Outcome β} {P : β → Prop}
    {xs : List α} {b b' : β}
    (hstep : ∀ x ∈ xs, ∀ b b', P b → f b x = .ok b' → P b') (h : P b)
    (hok : xs.foldlM f b = .ok b') :
    P b' := by
  induction xs generalizing b with
  | nil =>
      obtain rfl := Except.ok.inj hok
      exact h
  | cons x xs ih =>
      rw [List.forall_mem_cons] at hstep
      rw [List.foldlM_cons] at hok
      obtain ⟨b₁, hx, hok⟩ := bind_eq_ok.mp hok
      exact ih hstep.2 (hstep.1 b b₁ h hx) hok

theorem mapM_ok {α β : Type} {f : α → Outcome β} {g : α → β} {xs : List α}
    (h : ∀ x ∈ xs, f x = .ok (g x)) : xs.mapM f = .ok (xs.map g) := by
  induction xs with
  | nil => rfl
  | cons x xs ih =>
      rw [List.forall_mem_cons] at h
      rw [List.mapM_cons, h.1, ok_bind, ih h.2, ok_bind]
      rfl

/-- An assertion that is compiled in with the overflow checks. -/
def debugAssert (p : Prop) [Decidable p] : Outcome Unit :=
  if p then .ok () else .error .debugAssertion

/-- An assertion with a message, present in every build. -/
def assertMsg (p : Prop) [Decidable p] (text : String) : Outcome Unit :=
  if p then .ok () else .error (.message text)

/-- Take the value out of an option or panic with a message. -/
def expect {α : Type} (x : Option α) (text : String) : Outcome α :=
  match x with
  | some a => .ok a
  | none => .error (.message text)

def unwrap {α : Type} (x : Option α) : Outcome α :=
  match x with
  | some a => .ok a
  | none => .error .unwrapNone

@[simp] theorem unwrap_some {α : Type} (a : α) : unwrap (some a) = .ok a := rfl

@[simp] theorem expect_some {α : Type} (a : α) (text : String) : expect (some a) text = .ok a := rfl

theorem debugAssert_true {p : Prop} [Decidable p] (h : p) : debugAssert p = .ok () := if_pos h

theorem assertMsg_true {p : Prop} [Decidable p] (h : p) (text : String) :
    assertMsg p text = .ok () := if_pos h

theorem assertMsg_eq {p : Prop} [Decidable p] {text : String} {u : Unit}
    (h : assertMsg p text = .ok u) : p := by
  rw [assertMsg] at h
  split_ifs at h with hp
  exact hp

def checkedAdd (bits a b : ℕ) : Outcome ℕ :=
  if a + b < 2 ^ bits then .ok (a + b) else .error .arithmeticOverflow

def checkedSub (a b : ℕ) : Outcome ℕ :=
  if b ≤ a then .ok (a - b) else .error .arithmeticOverflow

def checkedMul (bits a b : ℕ) : Outcome ℕ :=
  if a * b < 2 ^ bits then .ok (a * b) else .error .arithmeticOverflow

/-- A shift panics when the distance reaches the width; bits shifted out are lost silently. -/
def checkedShl (bits a distance : ℕ) : Outcome ℕ :=
  if distance < bits then .ok (a * 2 ^ distance % 2 ^ bits) else .error .arithmeticOverflow

/-- A cast to a narrower unsigned type keeps the low bits. -/
def truncate (bits a : ℕ) : ℕ := a % 2 ^ bits

theorem checkedAdd_ok {bits a b : ℕ} (h : a + b < 2 ^ bits) : checkedAdd bits a b = .ok (a + b) :=
  if_pos h

theorem checkedAdd_eq {bits a b c : ℕ} (h : checkedAdd bits a b = .ok c) : c = a + b := by
  rw [checkedAdd] at h
  split_ifs at h
  exact (Except.ok.inj h).symm

theorem checkedSub_eq {a b c : ℕ} (h : checkedSub a b = .ok c) : b ≤ a ∧ c = a - b := by
  rw [checkedSub] at h
  split_ifs at h with hle
  exact ⟨hle, (Except.ok.inj h).symm⟩

theorem checkedSub_ok {a b : ℕ} (h : b ≤ a) : checkedSub a b = .ok (a - b) := if_pos h

theorem checkedMul_ok {bits a b : ℕ} (h : a * b < 2 ^ bits) : checkedMul bits a b = .ok (a * b) :=
  if_pos h

theorem checkedMul_eq {bits a b c : ℕ} (h : checkedMul bits a b = .ok c) : c = a * b := by
  rw [checkedMul] at h
  split_ifs at h
  exact (Except.ok.inj h).symm

theorem checkedShl_one {bits k : ℕ} (h : k < bits) : checkedShl bits 1 k = .ok (2 ^ k) := by
  rw [checkedShl, if_pos h, Nat.one_mul, Nat.mod_eq_of_lt (Nat.pow_lt_pow_right (by decide) h)]

theorem truncate_of_lt {bits a : ℕ} (h : a < 2 ^ bits) : truncate bits a = a := Nat.mod_eq_of_lt h

/-! ## Indexing -/

def index {α : Type} (xs : List α) (i : ℕ) : Outcome α :=
  match xs[i]? with
  | some a => .ok a
  | none => .error .indexOutOfBounds

def setIndex {α : Type} (xs : List α) (i : ℕ) (a : α) : Outcome (List α) :=
  if i < xs.length then .ok (xs.set i a) else .error .indexOutOfBounds

theorem index_ok {α : Type} {xs : List α} {i : ℕ} (h : i < xs.length) (d : α) :
    index xs i = .ok (xs.getD i d) := by
  rw [index, List.getElem?_eq_getElem h, List.getD_eq_getElem _ _ h]

theorem setIndex_ok {α : Type} {xs : List α} {i : ℕ} (h : i < xs.length) (a : α) :
    setIndex xs i a = .ok (xs.set i a) := if_pos h

theorem getD_set {α : Type} (xs : List α) {i : ℕ} (h : i < xs.length) (a d : α) (j : ℕ) :
    (xs.set i a).getD j d = if j = i then a else xs.getD j d := by
  simp only [List.getD_eq_getElem?_getD, List.getElem?_set]
  by_cases hij : i = j
  · subst hij
    simp [h]
  · simp [hij, Ne.symm hij]

/-! ## Counting zeros -/

/-- The number of trailing zero bits of a `bits`-bit integer; `bits` for zero. -/
def trailingZeros : (bits n : ℕ) → ℕ
  | 0, _ => 0
  | bits + 1, n => if n % 2 = 1 then 0 else trailingZeros bits (n / 2) + 1

/-- The number of leading zero bits of a `bits`-bit integer; `bits` for zero. -/
def leadingZeros (bits n : ℕ) : ℕ := bits - n.size

theorem le_trailingZeros_iff {bits n k : ℕ} (hk : k ≤ bits) :
    k ≤ trailingZeros bits n ↔ 2 ^ k ∣ n := by
  induction bits generalizing n k with
  | zero =>
      obtain rfl : k = 0 := by omega
      simp
  | succ bits ih =>
      cases k with
      | zero => simp
      | succ k =>
          have hdvd : 2 ^ (k + 1) ∣ n ↔ n % 2 = 0 ∧ 2 ^ k ∣ n / 2 := by
            rw [Nat.pow_succ]
            constructor
            · rintro ⟨a, rfl⟩
              exact ⟨by rw [Nat.mul_right_comm]; omega, a,
                by rw [Nat.mul_right_comm]; omega⟩
            · rintro ⟨h₀, a, ha⟩
              exact ⟨a, by rw [Nat.mul_right_comm, ← ha]; omega⟩
          rw [hdvd, trailingZeros, ← ih (by omega)]
          split <;> omega

theorem sub_leadingZeros {bits n : ℕ} (hpos : 0 < n) (hn : n < 2 ^ bits) :
    bits - 1 - leadingZeros bits n = Nat.log 2 n ∧ leadingZeros bits n ≤ bits - 1 := by
  have hsize : n.size ≤ bits := Nat.size_le.mpr hn
  have hlog : n.size = Nat.log 2 n + 1 := by
    apply Nat.le_antisymm
    · exact Nat.size_le.mpr (Nat.lt_pow_succ_log_self (by decide) n)
    · exact Nat.lt_size.mpr (Nat.pow_log_le_self 2 (by omega))
  rw [leadingZeros]
  omega

end Preon.Framework
