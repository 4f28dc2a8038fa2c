import Mathlib.Data.Nat.Bitwise
import Preon.Framework.Checked

/-!
# The word of online CPUs

`CPU_ONLINE` of `kernel/cpu/smp.rs` is one 64-bit word indexed by a shift, while CPU ids go up to
`MAX_CPUS`.  The shift is masked in a release build and checked in the development one, so the
functions take the build profile.
-/

namespace Preon.Cpu

open Framework

def maxCpus : ℕ := 128

inductive Profile
  | release
  | releaseDev
deriving DecidableEq

/-- The value of `1u64 << cpu`. -/
def onlineBit : Profile → (cpu : ℕ) → Outcome ℕ
  | .release, cpu => .ok (2 ^ (cpu % 64))
  | .releaseDev, cpu => checkedShl 64 1 cpu

def markOnline (profile : Profile) (online cpu : ℕ) : Outcome ℕ := do
  let bit ← onlineBit profile cpu
  return online ||| bit

def isOnline (profile : Profile) (online cpu : ℕ) : Outcome Bool := do
  let bit ← onlineBit profile cpu
  return online &&& bit ≠ 0

variable {profile : Profile} {online cpu : ℕ}

private theorem onlineBit_ok (h : profile = .release ∨ cpu < 64) :
    onlineBit profile cpu = .ok (2 ^ (cpu % 64)) := by
  cases profile with
  | release => rfl
  | releaseDev =>
      have hlt : cpu < 64 := by simpa using h
      rw [onlineBit, checkedShl_one hlt, Nat.mod_eq_of_lt hlt]

private theorem onlineBit_panics (h : 64 ≤ cpu) : ∃ e, onlineBit .releaseDev cpu = .error e := by
  rw [onlineBit, checkedShl, if_neg (by omega)]
  exact ⟨_, rfl⟩

private theorem and_two_pow_ne_zero (w i : ℕ) : w &&& 2 ^ i ≠ 0 ↔ w.testBit i = true := by
  rw [Nat.and_two_pow]
  cases w.testBit i <;> simp

theorem isOnline_ok (h : profile = .release ∨ cpu < 64) :
    isOnline profile online cpu = .ok (online.testBit (cpu % 64)) := by
  rw [isOnline, onlineBit_ok h, ok_bind]
  refine congrArg Except.ok (Bool.eq_iff_iff.mpr ?_)
  rw [decide_eq_true_iff]
  exact and_two_pow_ne_zero online (cpu % 64)

theorem markOnline_ok (h : profile = .release ∨ cpu < 64) :
    markOnline profile online cpu = .ok (online ||| 2 ^ (cpu % 64)) := by
  rw [markOnline, onlineBit_ok h, ok_bind]
  rfl

theorem isOnline_panics (h : 64 ≤ cpu) : ∃ e, isOnline .releaseDev online cpu = .error e := by
  obtain ⟨e, he⟩ := onlineBit_panics h
  exact ⟨e, by rw [isOnline, he, error_bind]⟩

private theorem markOnline_panics (h : 64 ≤ cpu) :
    ∃ e, markOnline .releaseDev online cpu = .error e := by
  obtain ⟨e, he⟩ := onlineBit_panics h
  exact ⟨e, by rw [markOnline, he, error_bind]⟩

/-- Only the development build panics on an id, and only on one that has no bit. -/
theorem onlineBit_error {e : Panic} (h : onlineBit profile cpu = .error e) :
    profile = .releaseDev ∧ 64 ≤ cpu := by
  by_cases hfit : profile = .release ∨ cpu < 64
  · rw [onlineBit_ok hfit] at h
    cases h
  · rw [not_or, Nat.not_lt] at hfit
    cases profile with
    | release => exact absurd rfl hfit.1
    | releaseDev => exact ⟨rfl, hfit.2⟩

theorem isOnline_error {e : Panic} (h : isOnline profile online cpu = .error e) :
    profile = .releaseDev ∧ 64 ≤ cpu := by
  cases hbit : onlineBit profile cpu with
  | error e' => exact onlineBit_error hbit
  | ok bit =>
      rw [isOnline, hbit, ok_bind] at h
      cases h

theorem markOnline_error {e : Panic} (h : markOnline profile online cpu = .error e) :
    profile = .releaseDev ∧ 64 ≤ cpu := by
  cases hbit : onlineBit profile cpu with
  | error e' => exact onlineBit_error hbit
  | ok bit =>
      rw [markOnline, hbit, ok_bind] at h
      cases h

theorem markOnline_eq {w : ℕ} (h : markOnline profile online cpu = .ok w) :
    w = online ||| 2 ^ (cpu % 64) := by
  by_cases hfit : profile = .release ∨ cpu < 64
  · rw [markOnline_ok hfit] at h
    exact (Except.ok.inj h).symm
  · rw [not_or, Nat.not_lt] at hfit
    cases profile with
    | release => exact absurd rfl hfit.1
    | releaseDev =>
        obtain ⟨e, he⟩ := @markOnline_panics online cpu hfit.2
        rw [he] at h
        cases h

/-- Which ids a word stands for: a bit is set exactly for the ids that fall on it. -/
def Marks (online : ℕ) (ids : List ℕ) : Prop :=
  ∀ b < 64, online.testBit b = true ↔ ∃ c ∈ ids, c % 64 = b

theorem marks_zero : Marks 0 [] := by
  intro b _
  simp

theorem Marks.mark {ids : List ℕ} (h : Marks online ids) (cpu : ℕ) :
    Marks (online ||| 2 ^ (cpu % 64)) (cpu :: ids) := by
  intro b hb
  rw [Nat.testBit_or, Bool.or_eq_true, h b hb, Nat.testBit_two_pow, decide_eq_true_iff]
  simp only [List.mem_cons, exists_eq_or_imp]
  exact or_comm

theorem Marks.testBit {ids : List ℕ} (h : Marks online ids) (hids : ∀ c ∈ ids, c < 64) {c : ℕ}
    (hc : c < 64) : online.testBit c = true ↔ c ∈ ids := by
  rw [h c hc]
  constructor
  · rintro ⟨d, hd, hdc⟩
    have hlt := hids d hd
    rw [Nat.mod_eq_of_lt hlt] at hdc
    rwa [← hdc]
  · intro hmem
    exact ⟨c, hmem, Nat.mod_eq_of_lt hc⟩

/-- The word after a sequence of `mark_online` calls. -/
def markAll (profile : Profile) (ids : List ℕ) : Outcome ℕ := ids.foldlM (markOnline profile) 0

private theorem foldlM_markOnline {ids : List ℕ} (hids : ∀ c ∈ ids, profile = .release ∨ c < 64)
    {before : List ℕ} (h : Marks online before) :
    ∃ w, ids.foldlM (markOnline profile) online = .ok w ∧ Marks w (ids.reverse ++ before) := by
  induction ids generalizing online before with
  | nil => exact ⟨online, rfl, h⟩
  | cons c ids ih =>
      obtain ⟨hc, hids⟩ := List.forall_mem_cons.mp hids
      obtain ⟨w, hw, hmarks⟩ := ih hids (h.mark c)
      refine ⟨w, ?_, by simpa using hmarks⟩
      rw [List.foldlM_cons, markOnline_ok hc, ok_bind, hw]

/-- Every sequence of calls with ids up to `n` reports exactly the ids marked. -/
def ReportsExactly (profile : Profile) (n : ℕ) : Prop :=
  ∀ ids : List ℕ, (∀ c ∈ ids, c ≤ n) → ∃ w, markAll profile ids = .ok w ∧
    ∀ c ≤ n, isOnline profile w c = .ok (decide (c ∈ ids))

theorem reportsExactly_iff (profile : Profile) (n : ℕ) : ReportsExactly profile n ↔ n ≤ 63 := by
  constructor
  · intro h
    by_contra hn
    have hids : ∀ c ∈ [0], c ≤ n := by simp
    obtain ⟨w, hw, hexact⟩ := h [0] hids
    have hfar := hexact 64 (by omega)
    cases profile with
    | release =>
        have hzero := hexact 0 (Nat.zero_le n)
        rw [isOnline_ok (.inl rfl)] at hzero hfar
        rw [show 64 % 64 = 0 % 64 from rfl, hzero] at hfar
        simp at hfar
    | releaseDev =>
        obtain ⟨e, he⟩ : ∃ e, isOnline .releaseDev w 64 = .error e :=
          isOnline_panics (Nat.le_refl 64)
        rw [he] at hfar
        cases hfar
  · intro hn ids hids
    have hlt : ∀ c ≤ n, c < 64 := fun c hc => by omega
    obtain ⟨w, hw, hmarks⟩ := foldlM_markOnline (fun c hc => .inr (hlt c (hids c hc))) marks_zero
    refine ⟨w, hw, fun c hc => ?_⟩
    rw [List.append_nil] at hmarks
    have hbit := hmarks.testBit (fun d hd => hlt d (hids d (List.mem_reverse.mp hd))) (hlt c hc)
    rw [isOnline_ok (.inr (hlt c hc)), Nat.mod_eq_of_lt (hlt c hc)]
    refine congrArg Except.ok (Bool.eq_iff_iff.mpr ?_)
    rw [hbit, List.mem_reverse, decide_eq_true_iff]

end Preon.Cpu
