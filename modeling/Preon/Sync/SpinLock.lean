import Mathlib.Data.List.Basic
import Mathlib.Logic.Function.Basic
import Preon.Framework.Transition

/-!
# The spin lock

A translation of `SpinLock` and its guard in `kernel/builtin/sync.rs`, one step for each swap, each
access to the data and each store.  Any number of CPUs lock, use the data through the guard and drop
the guard, again and again.
-/

namespace Preon.Sync

open Framework

/-- Where a CPU is: outside, in the loop of `lock`, or with a guard. -/
inductive LockPc
  | outside
  | spinning
  | holding
deriving DecidableEq

structure SpinLock (Cpu α : Type*) where
  locked : Bool
  data : α
  pc : Cpu → LockPc

inductive LockEvent (Cpu α : Type*)
  | lock (c : Cpu)
  /-- The swap returns the old value of the flag. -/
  | swap (c : Cpu) (old : Bool)
  | read (c : Cpu) (v : α)
  | write (c : Cpu) (v : α)
  /-- The store of `drop`. -/
  | unlock (c : Cpu)

variable {Cpu α : Type*}

inductive Access (α : Type*)
  | read (v : α)
  | write (v : α)

/-- Run alone from `d`, the accesses see what they saw and leave `d'`. -/
def Replays : α → List (Access α) → α → Prop
  | d, [], d' => d' = d
  | d, .read v :: rest, d' => v = d ∧ Replays d rest d'
  | _, .write v :: rest, d' => Replays v rest d'

private theorem replays_append {d d' : α} {xs ys : List (Access α)} :
    Replays d (xs ++ ys) d' ↔ ∃ mid, Replays d xs mid ∧ Replays mid ys d' := by
  induction xs generalizing d with
  | nil => simp [Replays]
  | cons x xs ih =>
      cases x with
      | read v => simp [Replays, ih, and_assoc]
      | write v => exact ih

/-- What a CPU did to the data with one guard. -/
structure CriticalSection (Cpu α : Type*) where
  cpu : Cpu
  accesses : List (Access α)
  completed : Bool

variable [DecidableEq Cpu]

namespace CriticalSection

def extend (c : Cpu) (a : Access α) (cs : CriticalSection Cpu α) : CriticalSection Cpu α :=
  if cs.cpu = c ∧ cs.completed = false then { cs with accesses := cs.accesses ++ [a] } else cs

def close (c : Cpu) (cs : CriticalSection Cpu α) : CriticalSection Cpu α :=
  if cs.cpu = c then { cs with completed := true } else cs

end CriticalSection

/-- A swap that returns `false` opens a critical section, the store of `drop` completes it. -/
def record (sections : List (CriticalSection Cpu α)) :
    LockEvent Cpu α → List (CriticalSection Cpu α)
  | .lock _ => sections
  | .swap c old => if old then sections else sections ++ [⟨c, [], false⟩]
  | .read c v => sections.map (.extend c (.read v))
  | .write c v => sections.map (.extend c (.write v))
  | .unlock c => sections.map (.close c)

/-- The critical sections of a run, in the order in which their locks were acquired. -/
def sectionsOf (history : List (LockEvent Cpu α)) : List (CriticalSection Cpu α) :=
  history.foldl record []

private theorem sectionsOf_append (history : List (LockEvent Cpu α)) (e : LockEvent Cpu α) :
    sectionsOf (history ++ [e]) = record (sectionsOf history) e := by
  rw [sectionsOf, List.foldl_append]
  rfl

namespace SpinLock

def goto (s : SpinLock Cpu α) (c : Cpu) (pc : LockPc) : SpinLock Cpu α :=
  { s with pc := Function.update s.pc c pc }

def Step (s : SpinLock Cpu α) : LockEvent Cpu α → SpinLock Cpu α → Prop
  | .lock c, s' => s.pc c = .outside ∧ s' = s.goto c .spinning
  | .swap c old, s' => s.pc c = .spinning ∧ old = s.locked ∧
      s' = { s.goto c (if old then .spinning else .holding) with locked := true }
  | .read c v, s' => s.pc c = .holding ∧ v = s.data ∧ s' = s
  | .write c v, s' => s.pc c = .holding ∧ s' = { s with data := v }
  | .unlock c, s' => s.pc c = .holding ∧ s' = { s.goto c .outside with locked := false }

def new (data : α) : SpinLock Cpu α := ⟨false, data, fun _ => .outside⟩

def Holds (s : SpinLock Cpu α) (c : Cpu) : Prop := s.pc c = .holding

end SpinLock

variable (Cpu) in
def lockSystem (data : α) : System (SpinLock Cpu α) (LockEvent Cpu α) where
  init s := s = .new data
  step := SpinLock.Step

/-! ## The invariant -/

variable {history : List (LockEvent Cpu α)} {s s' : SpinLock Cpu α} {e : LockEvent Cpu α} {d : α}

private theorem map_extend_completed {sections : List (CriticalSection Cpu α)} (c : Cpu)
    (a : Access α)
    (h : ∀ cs ∈ sections, cs.completed = true) : sections.map (.extend c a) = sections := by
  refine (List.map_congr_left fun cs hcs => ?_).trans (List.map_id _)
  rw [CriticalSection.extend, if_neg fun hopen => by rw [h cs hcs] at hopen; cases hopen.2]
  rfl

private theorem map_close_completed {sections : List (CriticalSection Cpu α)} (c : Cpu)
    (h : ∀ cs ∈ sections, cs.completed = true) : sections.map (.close c) = sections := by
  refine (List.map_congr_left fun cs hcs => ?_).trans (List.map_id _)
  obtain ⟨cpu, accesses, completed⟩ := cs
  obtain rfl : completed = true := h _ hcs
  rw [CriticalSection.close]
  split <;> rfl

/-- No guard exists, and the critical sections account for the data. -/
structure Unheld (d : α) (history : List (LockEvent Cpu α)) (s : SpinLock Cpu α) : Prop where
  locked : s.locked = false
  guards : ∀ c, ¬ s.Holds c
  completed : ∀ cs ∈ sectionsOf history, cs.completed = true
  data : Replays d ((sectionsOf history).flatMap CriticalSection.accesses) s.data

/-- The last critical section is open, and the CPU that opened it has the only guard. -/
structure Held (d : α) (history : List (LockEvent Cpu α)) (s : SpinLock Cpu α) (c : Cpu)
    (earlier : List (CriticalSection Cpu α)) (accesses : List (Access α)) : Prop where
  locked : s.locked = true
  guards : ∀ c', s.Holds c' ↔ c' = c
  sections : sectionsOf history = earlier ++ [⟨c, accesses, false⟩]
  completed : ∀ cs ∈ earlier, cs.completed = true
  data : ∃ before, Replays d (earlier.flatMap CriticalSection.accesses) before ∧
    Replays before accesses s.data

/-- A run either has no guard at its end or exactly one. -/
def Exclusive (d : α) (history : List (LockEvent Cpu α)) (s : SpinLock Cpu α) : Prop :=
  Unheld d history s ∨ ∃ c earlier accesses, Held d history s c earlier accesses

private theorem Exclusive.held_of_holds {c : Cpu} (h : Exclusive d history s) (hc : s.Holds c) :
    ∃ earlier accesses, Held d history s c earlier accesses := by
  rcases h with hfree | ⟨c', earlier, accesses, hheld⟩
  · exact absurd hc (hfree.guards c)
  · obtain rfl := (hheld.guards c).mp hc
    exact ⟨earlier, accesses, hheld⟩

private theorem holds_goto_self (s : SpinLock Cpu α) (c : Cpu) (pc : LockPc) (locked : Bool) :
    SpinLock.Holds { s.goto c pc with locked := locked } c ↔ pc = .holding := by
  simp only [SpinLock.Holds, SpinLock.goto, Function.update_self]

private theorem holds_goto_of_ne {c c' : Cpu} (s : SpinLock Cpu α) (pc : LockPc) (locked : Bool)
    (hc : c' ≠ c) : SpinLock.Holds { s.goto c pc with locked := locked } c' ↔ s.Holds c' := by
  simp only [SpinLock.Holds, SpinLock.goto, Function.update_of_ne hc]

/-- Entering `lock`, or spinning on in it, changes nothing. -/
theorem Exclusive.idle {c : Cpu} {pc : LockPc} {locked : Bool} (h : Exclusive d history s)
    (hfrom : ¬ s.Holds c) (hto : pc ≠ .holding) (hlocked : locked = s.locked)
    (hrecord : record (sectionsOf history) e = sectionsOf history) :
    Exclusive d (history ++ [e]) { s.goto c pc with locked := locked } := by
  have hholds (c' : Cpu) : SpinLock.Holds { s.goto c pc with locked := locked } c' ↔
      s.Holds c' := by
    by_cases hc : c' = c
    · rw [hc, holds_goto_self]
      exact ⟨fun h => absurd h hto, fun h => absurd h hfrom⟩
    · exact holds_goto_of_ne s pc locked hc
  have hsections : sectionsOf (history ++ [e]) = sectionsOf history := by
    rw [sectionsOf_append, hrecord]
  rcases h with hfree | ⟨c', earlier, accesses, hheld⟩
  · refine .inl ⟨hlocked.trans hfree.locked, fun c' => ?_, ?_, ?_⟩
    · rw [hholds]
      exact hfree.guards c'
    · rw [hsections]
      exact hfree.completed
    · rw [hsections]
      exact hfree.data
  · refine .inr ⟨c', earlier, accesses, hlocked.trans hheld.locked, fun c'' => ?_, ?_,
      hheld.completed, hheld.data⟩
    · rw [hholds]
      exact hheld.guards c''
    · rw [hsections]
      exact hheld.sections

private theorem Unheld.acquire {c : Cpu} (h : Unheld d history s) :
    Exclusive d (history ++ [.swap c false]) { s.goto c .holding with locked := true } := by
  refine .inr ⟨c, sectionsOf history, [], rfl, fun c' => ?_, ?_, h.completed, s.data, h.data, rfl⟩
  · by_cases hc : c' = c
    · rw [hc, holds_goto_self]
      simp
    · rw [holds_goto_of_ne _ _ _ hc]
      exact ⟨fun hheld => absurd hheld (h.guards c'), fun heq => absurd heq hc⟩
  · rw [sectionsOf_append]
    rfl

private theorem Held.access {c : Cpu} {earlier : List (CriticalSection Cpu α)}
    {accesses : List (Access α)}
    {a : Access α} {data : α} (h : Held d history s c earlier accesses)
    (hrecord : record (sectionsOf history) e = (sectionsOf history).map (.extend c a))
    (hdata : Replays s.data [a] data) : Exclusive d (history ++ [e]) { s with data := data } := by
  obtain ⟨before, hbefore, hinside⟩ := h.data
  refine .inr ⟨c, earlier, accesses ++ [a], h.locked, h.guards, ?_, h.completed, before, hbefore,
    replays_append.mpr ⟨s.data, hinside, hdata⟩⟩
  rw [sectionsOf_append, hrecord, h.sections, List.map_append, map_extend_completed c a h.completed]
  simp [CriticalSection.extend]

private theorem Held.release {c : Cpu} {earlier : List (CriticalSection Cpu α)}
    {accesses : List (Access α)}
    (h : Held d history s c earlier accesses) :
    Exclusive d (history ++ [.unlock c]) { s.goto c .outside with locked := false } := by
  obtain ⟨before, hbefore, hinside⟩ := h.data
  have hsections : sectionsOf (history ++ [.unlock c]) = earlier ++ [⟨c, accesses, true⟩] := by
    rw [sectionsOf_append, record, h.sections, List.map_append, map_close_completed c h.completed]
    simp [CriticalSection.close]
  refine .inl ⟨rfl, fun c' => ?_, ?_, ?_⟩
  · by_cases hc : c' = c
    · rw [hc, holds_goto_self]
      simp
    · rw [holds_goto_of_ne _ _ _ hc, h.guards]
      exact hc
  · rw [hsections]
    intro cs hcs
    rcases List.mem_append.mp hcs with hold | hlast
    · exact h.completed cs hold
    · rw [List.mem_singleton.mp hlast]
  · rw [hsections, List.flatMap_append, replays_append]
    exact ⟨before, hbefore, by simpa [SpinLock.goto] using hinside⟩

private theorem Exclusive.step (h : Exclusive d history s) (hstep : s.Step e s') :
    Exclusive d (history ++ [e]) s' := by
  cases e with
  | lock c =>
      obtain ⟨hpc, rfl⟩ := hstep
      exact h.idle (by rw [SpinLock.Holds, hpc]; nofun) nofun rfl rfl
  | swap c old =>
      obtain ⟨hpc, rfl, rfl⟩ := hstep
      cases hlocked : s.locked with
      | true =>
          exact h.idle (by rw [SpinLock.Holds, hpc]; nofun) nofun hlocked.symm rfl
      | false =>
          rcases h with hfree | ⟨c', earlier, accesses, hheld⟩
          · exact hfree.acquire
          · rw [hheld.locked] at hlocked
            cases hlocked
  | read c v =>
      obtain ⟨hpc, rfl, rfl⟩ := hstep
      obtain ⟨earlier, accesses, hheld⟩ := h.held_of_holds hpc
      exact hheld.access rfl ⟨rfl, rfl⟩
  | write c v =>
      obtain ⟨hpc, rfl⟩ := hstep
      obtain ⟨earlier, accesses, hheld⟩ := h.held_of_holds hpc
      exact hheld.access rfl rfl
  | unlock c =>
      obtain ⟨hpc, rfl⟩ := hstep
      obtain ⟨earlier, accesses, hheld⟩ := h.held_of_holds hpc
      exact hheld.release

private theorem exclusive_of_reaches (h : (lockSystem Cpu d).Reaches history s) :
    Exclusive d history s := by
  induction h with
  | init hinit =>
      obtain rfl := hinit
      exact .inl ⟨rfl, nofun, nofun, rfl⟩
  | step _ hstep ih => exact ih.step hstep

/-! ## Mutual exclusion -/

/-- The CPU is between a swap that returned `false` and the store of the matching `drop`. -/
def Inside (history : List (LockEvent Cpu α)) (c : Cpu) : Prop :=
  ∃ accesses, ⟨c, accesses, false⟩ ∈ sectionsOf history

/-- The CPU that an event lets read or write the data. -/
def LockEvent.accessor : LockEvent Cpu α → Option Cpu
  | read c _ | write c _ => some c
  | _ => none

private theorem Unheld.not_inside (h : Unheld d history s) (c : Cpu) : ¬ Inside history c := by
  rintro ⟨accesses, hmem⟩
  cases h.completed _ hmem

private theorem Held.inside_iff {c : Cpu} {earlier : List (CriticalSection Cpu α)}
    {accesses : List (Access α)} (h : Held d history s c earlier accesses) (c' : Cpu) :
    Inside history c' ↔ c' = c := by
  rw [Inside, h.sections]
  constructor
  · rintro ⟨accesses', hmem⟩
    rcases List.mem_append.mp hmem with hold | hlast
    · cases h.completed _ hold
    · exact congrArg CriticalSection.cpu (List.mem_singleton.mp hlast)
  · rintro rfl
    exact ⟨accesses, by simp⟩

/-- What holds at the end of every run. -/
structure MutualExclusion (d : α) (history : List (LockEvent Cpu α)) (s : SpinLock Cpu α) :
    Prop where
  one_guard : ∀ c c', s.Holds c → s.Holds c' → c = c'
  holds_iff : ∀ c, s.Holds c ↔ Inside history c
  locked_iff : s.locked = true ↔ ∃! c, Inside history c
  guarded : ∀ before e after c, history = before ++ e :: after → e.accessor = some c →
    Inside before c
  unlocked_data : s.locked = false → (∀ cs ∈ sectionsOf history, cs.completed = true) ∧
    Replays d ((sectionsOf history).flatMap CriticalSection.accesses) s.data
  locked_data : s.locked = true → ∃ earlier c accesses before,
    sectionsOf history = earlier ++ [⟨c, accesses, false⟩] ∧
    (∀ cs ∈ earlier, cs.completed = true) ∧
    Replays d (earlier.flatMap CriticalSection.accesses) before ∧ Replays before accesses s.data

private theorem Exclusive.holds_iff_inside (h : Exclusive d history s) (c : Cpu) :
    s.Holds c ↔ Inside history c := by
  rcases h with hfree | ⟨c', earlier, accesses, hheld⟩
  · exact iff_of_false (hfree.guards c) (hfree.not_inside c)
  · rw [hheld.guards, hheld.inside_iff]

/-- Along every interleaving there is at most one guard, and the data is what the critical sections
make of it one after the other. -/
theorem spinLock_exclusive (h : (lockSystem Cpu d).Reaches history s) :
    MutualExclusion d history s := by
  have hex := exclusive_of_reaches h
  refine ⟨?_, hex.holds_iff_inside, ?_, ?_, ?_, ?_⟩
  · intro c c' hc hc'
    obtain ⟨earlier, accesses, hheld⟩ := hex.held_of_holds hc
    exact ((hheld.guards c').mp hc').symm
  · rcases hex with hfree | ⟨c, earlier, accesses, hheld⟩
    · refine iff_of_false (by rw [hfree.locked]; nofun) ?_
      rintro ⟨c, hc, -⟩
      exact hfree.not_inside c hc
    · exact iff_of_true hheld.locked ⟨c, (hheld.inside_iff c).mpr rfl,
        fun c' => (hheld.inside_iff c').mp⟩
  · intro before e after c hsplit haccess
    obtain ⟨s₁, s₂, hbefore, hstep⟩ := h.split hsplit
    rw [← (exclusive_of_reaches hbefore).holds_iff_inside]
    cases e with
    | read c' v =>
        obtain rfl := Option.some.inj haccess
        exact hstep.1
    | write c' v =>
        obtain rfl := Option.some.inj haccess
        exact hstep.1
    | lock c' => cases haccess
    | swap c' old => cases haccess
    | unlock c' => cases haccess
  · intro hunlocked
    rcases hex with hfree | ⟨c, earlier, accesses, hheld⟩
    · exact ⟨hfree.completed, hfree.data⟩
    · rw [hheld.locked] at hunlocked
      cases hunlocked
  · intro hlocked
    rcases hex with hfree | ⟨c, earlier, accesses, hheld⟩
    · rw [hfree.locked] at hlocked
      cases hlocked
    · obtain ⟨before, hbefore, hinside⟩ := hheld.data
      exact ⟨earlier, c, accesses, before, hheld.sections, hheld.completed, hbefore, hinside⟩

/-- Two CPUs increment a counter; the second one finds the lock taken at its first swap. -/
theorem spinLock_exclusive_two : ∃ history s, (lockSystem ℕ 0).Reaches history s ∧
    MutualExclusion 0 history s ∧ s.locked = false ∧ s.data = 2 := by
  have hnew : (lockSystem ℕ 0).Reaches [] (.new 0) := .init rfl
  have hfirst := (hnew.step (e := LockEvent.lock 0) ⟨rfl, rfl⟩).step (e := LockEvent.swap 0 false)
    ⟨rfl, rfl, rfl⟩
  have hspin := (hfirst.step (e := LockEvent.lock 1) ⟨rfl, rfl⟩).step (e := LockEvent.swap 1 true)
    ⟨rfl, rfl, rfl⟩
  have hdone := ((hspin.step (e := LockEvent.read 0 0) ⟨rfl, rfl, rfl⟩).step
    (e := LockEvent.write 0 1) ⟨rfl, rfl⟩).step (e := LockEvent.unlock 0) ⟨rfl, rfl⟩
  have hsecond := (hdone.step (e := LockEvent.swap 1 false) ⟨rfl, rfl, rfl⟩).step
    (e := LockEvent.read 1 1) ⟨rfl, rfl, rfl⟩
  have hlast := (hsecond.step (e := LockEvent.write 1 2) ⟨rfl, rfl⟩).step (e := LockEvent.unlock 1)
    ⟨rfl, rfl⟩
  exact ⟨_, _, hlast, spinLock_exclusive hlast, rfl, rfl⟩

end Preon.Sync
