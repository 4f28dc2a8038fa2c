import Mathlib.Data.Set.Finite.Lemmas
import Mathlib.Logic.Function.Basic
import Preon.Framework.Transition

/-!
# Programs that take spin locks

A block is a program reduced to the locks that it takes, each for the extent of a scope.  Any number
of CPUs run blocks, one block after the other, in any interleaving of their steps.  If every block
takes its locks in the order of a rank, no set of CPUs can wait for each other.
-/

namespace Preon.Framework

/-- `guarded l body` holds `l` while `body` runs. -/
inductive LockBlock (Lock : Type*)
  | skip
  | seq (first second : LockBlock Lock)
  | either (left right : LockBlock Lock)
  | guarded (l : Lock) (body : LockBlock Lock)

inductive LockTask (Lock : Type*)
  | run (b : LockBlock Lock)
  | release (l : Lock)

/-- The flags of the locks, and what each CPU still has to do, the next task first. -/
structure LockState (Cpu Lock : Type*) where
  locked : Lock → Bool
  tasks : Cpu → List (LockTask Lock)

inductive LockMove (Cpu Lock : Type*)
  | call (c : Cpu) (b : LockBlock Lock)
  | work (c : Cpu)

variable {Cpu Lock : Type*}

section Semantics

variable [DecidableEq Lock] [DecidableEq Cpu]

/-- One step of a CPU.  A lock that is taken makes it spin. -/
inductive Advance :
    (Lock → Bool) → List (LockTask Lock) → (Lock → Bool) → List (LockTask Lock) → Prop
  | skip {locked : Lock → Bool} {rest : List (LockTask Lock)} :
      Advance locked (.run .skip :: rest) locked rest
  | seq {locked : Lock → Bool} {rest : List (LockTask Lock)} {a b : LockBlock Lock} :
      Advance locked (.run (.seq a b) :: rest) locked (.run a :: .run b :: rest)
  | left {locked : Lock → Bool} {rest : List (LockTask Lock)} {a b : LockBlock Lock} :
      Advance locked (.run (.either a b) :: rest) locked (.run a :: rest)
  | right {locked : Lock → Bool} {rest : List (LockTask Lock)} {a b : LockBlock Lock} :
      Advance locked (.run (.either a b) :: rest) locked (.run b :: rest)
  | acquire {locked : Lock → Bool} {rest : List (LockTask Lock)} {l : Lock}
    {body : LockBlock Lock} :
      locked l = false → Advance locked (.run (.guarded l body) :: rest)
        (Function.update locked l true) (.run body :: .release l :: rest)
  | spin {locked : Lock → Bool} {rest : List (LockTask Lock)} {l : Lock} {body : LockBlock Lock} :
      locked l = true → Advance locked (.run (.guarded l body) :: rest) locked
        (.run (.guarded l body) :: rest)
  | release {locked : Lock → Bool} {rest : List (LockTask Lock)} {l : Lock} :
      Advance locked (.release l :: rest) (Function.update locked l false) rest

def LockState.Step (blocks : Set (LockBlock Lock)) (s : LockState Cpu Lock) :
    LockMove Cpu Lock → LockState Cpu Lock → Prop
  | .call c b, s' => s.tasks c = [] ∧ b ∈ blocks ∧
      s' = { s with tasks := Function.update s.tasks c [.run b] }
  | .work c, s' => ∃ locked rest, Advance s.locked (s.tasks c) locked rest ∧
      s' = ⟨locked, Function.update s.tasks c rest⟩

variable (Cpu) in
/-- All locks are free and no CPU has anything to do. -/
def lockPrograms (blocks : Set (LockBlock Lock)) :
    System (LockState Cpu Lock) (LockMove Cpu Lock) where
  init s := (∀ l, s.locked l = false) ∧ ∀ c, s.tasks c = []
  step := LockState.Step blocks

end Semantics

namespace LockState

def Holds (s : LockState Cpu Lock) (c : Cpu) (l : Lock) : Prop := .release l ∈ s.tasks c

def SpinsOn (s : LockState Cpu Lock) (c : Cpu) (l : Lock) : Prop :=
  s.locked l = true ∧ ∃ body rest, s.tasks c = .run (.guarded l body) :: rest

/-- Every one of the CPUs spins on a lock that one of them holds. -/
def Deadlocked (s : LockState Cpu Lock) (cpus : Set Cpu) : Prop :=
  cpus.Nonempty ∧ ∀ c ∈ cpus, ∃ l, s.SpinsOn c l ∧ ∃ c' ∈ cpus, s.Holds c' l

end LockState

/-! ## The discipline -/

variable (rank : Lock → ℕ)

/-- The block takes locks of at least the given rank, and inside each of them only higher ones. -/
def LockBlock.Above : LockBlock Lock → ℕ → Prop
  | skip, _ => True
  | seq a b, n => a.Above n ∧ b.Above n
  | either a b, n => a.Above n ∧ b.Above n
  | guarded l body, n => n ≤ rank l ∧ body.Above (rank l + 1)

/-- Each block that is still to run stays above the locks that are held around it. -/
def Disciplined : List (LockTask Lock) → Prop
  | [] => True
  | .release _ :: rest => Disciplined rest
  | .run b :: rest => (b.Above rank 0 ∧ ∀ l, .release l ∈ rest → b.Above rank (rank l + 1)) ∧
      Disciplined rest

variable {rank}

theorem LockBlock.Above.mono {b : LockBlock Lock} {n m : ℕ} (h : b.Above rank n) (hle : m ≤ n) :
    b.Above rank m := by
  induction b with
  | skip => trivial
  | seq a b iha ihb => exact ⟨iha h.1, ihb h.2⟩
  | either a b iha ihb => exact ⟨iha h.1, ihb h.2⟩
  | guarded l body _ => exact ⟨hle.trans h.1, h.2⟩

theorem Disciplined.advance [DecidableEq Lock] {locked locked' : Lock → Bool}
    {tasks tasks' : List (LockTask Lock)} (h : Disciplined rank tasks)
    (hstep : Advance locked tasks locked' tasks') : Disciplined rank tasks' := by
  cases hstep with
  | skip => exact h.2
  | seq =>
      obtain ⟨⟨hzero, habove⟩, hrest⟩ := h
      refine ⟨⟨hzero.1, fun l hl => ?_⟩, ⟨hzero.2, fun l hl => (habove l hl).2⟩, hrest⟩
      rcases List.mem_cons.mp hl with heq | hl
      · cases heq
      · exact (habove l hl).1
  | left =>
      obtain ⟨⟨hzero, habove⟩, hrest⟩ := h
      exact ⟨⟨hzero.1, fun l hl => (habove l hl).1⟩, hrest⟩
  | right =>
      obtain ⟨⟨hzero, habove⟩, hrest⟩ := h
      exact ⟨⟨hzero.2, fun l hl => (habove l hl).2⟩, hrest⟩
  | acquire =>
      obtain ⟨⟨hzero, habove⟩, hrest⟩ := h
      refine ⟨⟨hzero.2.mono (Nat.zero_le _), fun l' hl' => ?_⟩, hrest⟩
      rcases List.mem_cons.mp hl' with heq | hl'
      · cases heq
        exact hzero.2
      · -- a lock that was held already has a lower rank than the new one
        have hlower := (habove l' hl').1
        exact hzero.2.mono (by omega)
  | spin => exact h
  | release => exact h

variable {s : LockState Cpu Lock}

/-- A CPU spins only on locks above those that it holds. -/
theorem Disciplined.rank_lt {c : Cpu} {l l' : Lock} (h : Disciplined rank (s.tasks c))
    (hspins : s.SpinsOn c l') (hholds : s.Holds c l) : rank l < rank l' := by
  obtain ⟨-, body, rest, htasks⟩ := hspins
  rw [LockState.Holds, htasks] at hholds
  rw [htasks] at h
  rcases List.mem_cons.mp hholds with heq | hmem
  · cases heq
  · exact (h.1.2 l hmem).1

variable {blocks : Set (LockBlock Lock)} [DecidableEq Lock] [DecidableEq Cpu]

theorem disciplined_of_reachable (hblocks : ∀ b ∈ blocks, b.Above rank 0)
    (h : (lockPrograms Cpu blocks).Reachable s) (c : Cpu) : Disciplined rank (s.tasks c) := by
  revert c
  revert h
  apply System.Reachable.invariant
  · intro s hinit c
    rw [hinit.2 c]
    trivial
  · intro s e s' hs hstep c
    have hupdate {c' : Cpu} {tasks : List (LockTask Lock)} (h : Disciplined rank tasks) :
        Disciplined rank (Function.update s.tasks c' tasks c) := by
      by_cases hc : c = c'
      · rwa [hc, Function.update_self]
      · rw [Function.update_of_ne hc]
        exact hs c
    cases e with
    | call c' b =>
        obtain ⟨-, hb, rfl⟩ := hstep
        exact hupdate ⟨⟨hblocks b hb, nofun⟩, trivial⟩
    | work c' =>
        obtain ⟨locked, rest, hadvance, rfl⟩ := hstep
        exact hupdate ((hs c').advance hadvance)

/-- CPUs that follow the order never wait for each other in a circle. -/
theorem not_deadlocked [Finite Lock] (hblocks : ∀ b ∈ blocks, b.Above rank 0)
    (h : (lockPrograms Cpu blocks).Reachable s) (cpus : Set Cpu) : ¬ s.Deadlocked cpus := by
  rintro ⟨⟨c₀, hc₀⟩, hall⟩
  obtain ⟨l₀, hspins₀, hheld₀⟩ := hall c₀ hc₀
  -- of the locks in the circle take one of the highest rank: its holder waits for a higher one
  obtain ⟨l, ⟨c, -, -, c', hc', hholds⟩, hmax⟩ := Set.exists_max_image
    {l | ∃ c ∈ cpus, s.SpinsOn c l ∧ ∃ c' ∈ cpus, s.Holds c' l} rank (Set.toFinite _)
    ⟨l₀, c₀, hc₀, hspins₀, hheld₀⟩
  obtain ⟨l', hspins', hheld'⟩ := hall c' hc'
  have hlt := (disciplined_of_reachable hblocks h c').rank_lt hspins' hholds
  exact absurd (hmax l' ⟨c', hc', hspins', hheld'⟩) (Nat.not_le.mpr hlt)

end Preon.Framework
