import Mathlib.Data.List.Basic
import Mathlib.Logic.Function.Basic
import Preon.Framework.Transition

/-!
# The single-initialisation cell

A translation of `Once` in `kernel/builtin/sync.rs`, one step for each access to `state` or `value`.
Any number of CPUs call `call_once`, with initialisers that may differ, and `get`.
-/

namespace Preon.Sync

open Framework

/-- The values of `state`. -/
inductive OnceState
  | uninit
  | running
  | ready
deriving DecidableEq

/-- Where a CPU is in `call_once` or in `get`. -/
inductive OncePc (α : Type*)
  | outside
  /-- Before the `compare_exchange`. -/
  | exchanging
  | initialising
  | writing (v : α)
  | publishing
  | spinning
  /-- Before `call_once` takes the reference. -/
  | returning
  /-- Before the load of `get`. -/
  | loading
  | reading

/-- `value` is `none` until it is written. -/
structure OnceCell (Cpu α : Type*) where
  state : OnceState
  value : Option α
  pc : Cpu → OncePc α

inductive OnceEvent (Cpu α : Type*)
  | callOnce (c : Cpu)
  | exchange (c : Cpu)
  /-- The initialiser returns. -/
  | run (c : Cpu) (v : α)
  | write (c : Cpu) (v : α)
  | publish (c : Cpu)
  | load (c : Cpu)
  /-- `call_once` returns a reference to this content of `value`. -/
  | callReturns (c : Cpu) (content : Option α)
  | get (c : Cpu)
  | getLoad (c : Cpu)
  | getNone (c : Cpu)
  /-- `get` returns a reference to this content of `value`. -/
  | getSome (c : Cpu) (content : Option α)

variable {Cpu α : Type*}

namespace OnceEvent

/-- What an initialiser returned. -/
def ran : OnceEvent Cpu α → Option α
  | run _ v => some v
  | _ => none

def wrote : OnceEvent Cpu α → Option α
  | write _ v => some v
  | _ => none

/-- What the caller gets a reference to. -/
def content : OnceEvent Cpu α → Option (Option α)
  | callReturns _ content => some content
  | getSome _ content => some content
  | _ => none

end OnceEvent

/-- The values that initialisers returned in a run. -/
def runsOf (history : List (OnceEvent Cpu α)) : List α := history.filterMap OnceEvent.ran

/-- The values that were written in a run. -/
def writesOf (history : List (OnceEvent Cpu α)) : List α := history.filterMap OnceEvent.wrote

private theorem runsOf_append (history : List (OnceEvent Cpu α)) (e : OnceEvent Cpu α) :
    runsOf (history ++ [e]) = runsOf history ++ e.ran.toList := by
  rw [runsOf, List.filterMap_append, runsOf]
  cases h : e.ran <;> simp [h]

private theorem writesOf_append (history : List (OnceEvent Cpu α)) (e : OnceEvent Cpu α) :
    writesOf (history ++ [e]) = writesOf history ++ e.wrote.toList := by
  rw [writesOf, List.filterMap_append, writesOf]
  cases h : e.wrote <;> simp [h]

section Model

variable [DecidableEq Cpu]

namespace OnceCell

def goto (s : OnceCell Cpu α) (c : Cpu) (pc : OncePc α) : OnceCell Cpu α :=
  { s with pc := Function.update s.pc c pc }

private theorem goto_pc (s : OnceCell Cpu α) (c : Cpu) (pc : OncePc α) :
    (s.goto c pc).pc = Function.update s.pc c pc := rfl

def Step (s : OnceCell Cpu α) : OnceEvent Cpu α → OnceCell Cpu α → Prop
  | .callOnce c, s' => s.pc c = .outside ∧ s' = s.goto c .exchanging
  | .exchange c, s' => s.pc c = .exchanging ∧
      s' = if s.state = .uninit then { s.goto c .initialising with state := .running }
        else s.goto c .spinning
  | .run c v, s' => s.pc c = .initialising ∧ s' = s.goto c (.writing v)
  | .write c v, s' => s.pc c = .writing v ∧ s' = { s.goto c .publishing with value := some v }
  | .publish c, s' => s.pc c = .publishing ∧ s' = { s.goto c .returning with state := .ready }
  | .load c, s' => s.pc c = .spinning ∧
      s' = if s.state = .ready then s.goto c .returning else s.goto c .spinning
  | .callReturns c content, s' => s.pc c = .returning ∧ content = s.value ∧ s' = s.goto c .outside
  | .get c, s' => s.pc c = .outside ∧ s' = s.goto c .loading
  | .getLoad c, s' => s.pc c = .loading ∧ s.state = .ready ∧ s' = s.goto c .reading
  | .getNone c, s' => s.pc c = .loading ∧ s.state ≠ .ready ∧ s' = s.goto c .outside
  | .getSome c content, s' => s.pc c = .reading ∧ content = s.value ∧ s' = s.goto c .outside

def new : OnceCell Cpu α := ⟨.uninit, none, fun _ => .outside⟩

end OnceCell

variable (Cpu α) in
def onceSystem : System (OnceCell Cpu α) (OnceEvent Cpu α) where
  init s := s = .new
  step := OnceCell.Step

end Model

/-! ## The phases of the protocol -/

/-- How far the initialisation has come, and who does it. -/
inductive Phase (Cpu α : Type*)
  | untouched
  | initialising (c : Cpu)
  | writing (c : Cpu) (v : α)
  | publishing (c : Cpu) (v : α)
  | published (v : α)

namespace Phase

def state : Phase Cpu α → OnceState
  | untouched => .uninit
  | initialising _ | writing _ _ | publishing _ _ => .running
  | published _ => .ready

def value : Phase Cpu α → Option α
  | publishing _ v | published v => some v
  | _ => none

def runs : Phase Cpu α → List α
  | writing _ v | publishing _ v | published v => [v]
  | _ => []

def writes : Phase Cpu α → List α
  | publishing _ v | published v => [v]
  | _ => []

/-- The CPU that won the exchange, until it has published. -/
def winner : Phase Cpu α → Option (Cpu × OncePc α)
  | initialising c => some (c, .initialising)
  | writing c v => some (c, .writing v)
  | publishing c _ => some (c, .publishing)
  | _ => none

end Phase

namespace OncePc

/-- Places that a CPU can be at whatever the others do. -/
def Free : OncePc α → Prop
  | outside | exchanging | spinning | loading => True
  | _ => False

/-- Places that a CPU gets to only after it has seen `READY`. -/
def Sees : OncePc α → Prop
  | returning | reading => True
  | _ => False

private theorem Free.not_sees {p : OncePc α} (h : p.Free) : ¬ p.Sees := by
  cases p <;> first | exact id | exact absurd h id

end OncePc

structure Stage (history : List (OnceEvent Cpu α)) (s : OnceCell Cpu α) (phase : Phase Cpu α) :
    Prop where
  state : s.state = phase.state
  value : s.value = phase.value
  runs : runsOf history = phase.runs
  writes : writesOf history = phase.writes
  returned : ∀ e ∈ history, e.content ≠ none → phase.state = .ready
  winner : ∀ c p, phase.winner = some (c, p) → s.pc c = p
  others : ∀ c, (s.pc c).Free ∨ ((s.pc c).Sees ∧ phase.state = .ready) ∨
    phase.winner = some (c, s.pc c)

variable {history : List (OnceEvent Cpu α)} {s s' : OnceCell Cpu α} {e : OnceEvent Cpu α}
  {phase : Phase Cpu α} {c : Cpu} {p : OncePc α}

namespace Stage

private theorem not_winner (h : Stage history s phase) (hpc : (s.pc c).Free ∨ (s.pc c).Sees)
    (q : OncePc α) :
    phase.winner ≠ some (c, q) := by
  intro hq
  rw [h.winner c q hq] at hpc
  cases phase with
  | untouched => cases hq
  | published v => cases hq
  | initialising c' =>
      obtain ⟨rfl, rfl⟩ := Prod.mk.inj (Option.some.inj hq)
      rcases hpc with hpc | hpc <;> exact hpc
  | writing c' v =>
      obtain ⟨rfl, rfl⟩ := Prod.mk.inj (Option.some.inj hq)
      rcases hpc with hpc | hpc <;> exact hpc
  | publishing c' v =>
      obtain ⟨rfl, rfl⟩ := Prod.mk.inj (Option.some.inj hq)
      rcases hpc with hpc | hpc <;> exact hpc

/-- A CPU that is about to read the value does so after it was published. -/
theorem ready_of_sees (h : Stage history s phase) (hpc : (s.pc c).Sees) : s.state = .ready := by
  rw [h.state]
  rcases h.others c with hfree | ⟨-, hready⟩ | hw
  · exact absurd hpc hfree.not_sees
  · exact hready
  · exact absurd hw (h.not_winner (.inr hpc) _)

private theorem published_of_ready (h : Stage history s phase) (hready : s.state = .ready) :
    ∃ v, phase = .published v := by
  rw [h.state] at hready
  cases phase with
  | published v => exact ⟨v, rfl⟩
  | untouched => cases hready
  | initialising c => cases hready
  | writing c v => cases hready
  | publishing c v => cases hready

/-- Where only the winner can be, the phase is known. -/
theorem winner_eq (h : Stage history s phase) (hpc : s.pc c = p) (hfree : ¬ p.Free)
    (hsees : ¬ p.Sees) :
    phase.winner = some (c, p) := by
  subst hpc
  rcases h.others c with hf | ⟨hs, -⟩ | hw
  · exact absurd hf hfree
  · exact absurd hs hsees
  · exact hw

theorem eq_initialising (h : Stage history s phase) (hpc : s.pc c = .initialising) :
    phase = .initialising c := by
  have hw := h.winner_eq hpc id id
  cases phase <;> cases hw
  rfl

theorem eq_writing {v : α} (h : Stage history s phase) (hpc : s.pc c = .writing v) :
    phase = .writing c v := by
  have hw := h.winner_eq hpc id id
  cases phase <;> cases hw
  rfl

theorem eq_publishing (h : Stage history s phase) (hpc : s.pc c = .publishing) :
    ∃ v, phase = .publishing c v := by
  have hw := h.winner_eq hpc id id
  cases phase <;> cases hw
  exact ⟨_, rfl⟩

variable [DecidableEq Cpu]

private theorem move (h : Stage history s phase) (hfrom : (s.pc c).Free ∨ (s.pc c).Sees)
    (hto : p.Free ∨ (p.Sees ∧ s.state = .ready)) (hran : e.ran = none) (hwrote : e.wrote = none)
    (hcontent : e.content ≠ none → (s.pc c).Sees) : Stage (history ++ [e]) (s.goto c p) phase where
  state := h.state
  value := h.value
  runs := by rw [runsOf_append, hran, h.runs, Option.toList_none, List.append_nil]
  writes := by rw [writesOf_append, hwrote, h.writes, Option.toList_none, List.append_nil]
  returned e' he' hread := by
    rcases List.mem_append.mp he' with hold | hnew
    · exact h.returned e' hold hread
    · rw [List.mem_singleton.mp hnew] at hread
      exact h.state ▸ h.ready_of_sees (hcontent hread)
  winner c' q hq := by
    have hne : c' ≠ c := by
      rintro rfl
      exact h.not_winner hfrom q hq
    rw [OnceCell.goto_pc, Function.update_of_ne hne]
    exact h.winner c' q hq
  others c' := by
    by_cases hc : c' = c
    · subst hc
      rw [OnceCell.goto_pc, Function.update_self]
      rcases hto with hfree | ⟨hsees, hready⟩
      · exact .inl hfree
      · exact .inr (.inl ⟨hsees, h.state ▸ hready⟩)
    · rw [OnceCell.goto_pc, Function.update_of_ne hc]
      exact h.others c'

private theorem advance {phase' : Phase Cpu α} (h : Stage history s phase)
    (hpc : s'.pc = Function.update s.pc c p)
    (hold : ∀ c' q, phase.winner = some (c', q) → c' = c) (hnotReady : phase.state ≠ .ready)
    (hstate : s'.state = phase'.state) (hvalue : s'.value = phase'.value)
    (hruns : phase'.runs = phase.runs ++ e.ran.toList)
    (hwrites : phase'.writes = phase.writes ++ e.wrote.toList) (hcontent : e.content = none)
    (hwinner : ∀ c' q, phase'.winner = some (c', q) → c' = c ∧ q = p)
    (hp : (p.Sees ∧ phase'.state = .ready) ∨ phase'.winner = some (c, p)) :
    Stage (history ++ [e]) s' phase' where
  state := hstate
  value := hvalue
  runs := by rw [runsOf_append, h.runs, hruns]
  writes := by rw [writesOf_append, h.writes, hwrites]
  returned e' he' hread := by
    rcases List.mem_append.mp he' with hin | hnew
    · exact absurd (h.returned e' hin hread) hnotReady
    · rw [List.mem_singleton.mp hnew] at hread
      exact absurd hcontent hread
  winner c' q hq := by
    obtain ⟨rfl, rfl⟩ := hwinner c' q hq
    rw [hpc, Function.update_self]
  others c' := by
    by_cases hc : c' = c
    · subst hc
      rw [hpc, Function.update_self]
      exact .inr hp
    · rw [hpc, Function.update_of_ne hc]
      rcases h.others c' with hfree | ⟨-, hready⟩ | hw
      · exact .inl hfree
      · exact absurd hready hnotReady
      · exact absurd (hold c' _ hw) hc

private theorem step (h : Stage history s phase) (hstep : s.Step e s') :
    ∃ phase', Stage (history ++ [e]) s' phase' := by
  cases e with
  | callOnce c =>
      obtain ⟨hpc, rfl⟩ := hstep
      exact ⟨phase, h.move (.inl (by rw [hpc]; trivial)) (.inl trivial) rfl rfl (absurd rfl)⟩
  | exchange c =>
      obtain ⟨hpc, rfl⟩ := hstep
      split
      · next huninit =>
          obtain rfl : phase = .untouched := by
            rw [h.state] at huninit
            cases phase <;> first | rfl | cases huninit
          exact ⟨.initialising c, h.advance rfl nofun nofun rfl h.value rfl rfl rfl
            (by rintro c' q ⟨⟩; exact ⟨rfl, rfl⟩) (.inr rfl)⟩
      · exact ⟨phase, h.move (.inl (by rw [hpc]; trivial)) (.inl trivial) rfl rfl (absurd rfl)⟩
  | run c v =>
      obtain ⟨hpc, rfl⟩ := hstep
      obtain rfl := h.eq_initialising hpc
      exact ⟨.writing c v, h.advance rfl (by rintro c' q ⟨⟩; rfl) nofun h.state h.value rfl rfl rfl
        (by rintro c' q ⟨⟩; exact ⟨rfl, rfl⟩) (.inr rfl)⟩
  | write c v =>
      obtain ⟨hpc, rfl⟩ := hstep
      obtain rfl := h.eq_writing hpc
      exact ⟨.publishing c v, h.advance rfl (by rintro c' q ⟨⟩; rfl) nofun h.state rfl rfl rfl rfl
        (by rintro c' q ⟨⟩; exact ⟨rfl, rfl⟩) (.inr rfl)⟩
  | publish c =>
      obtain ⟨hpc, rfl⟩ := hstep
      obtain ⟨v, rfl⟩ := h.eq_publishing hpc
      exact ⟨.published v, h.advance rfl (by rintro c' q ⟨⟩; rfl) nofun rfl h.value rfl rfl rfl
        nofun (.inl ⟨trivial, rfl⟩)⟩
  | load c =>
      obtain ⟨hpc, rfl⟩ := hstep
      have hfrom : (s.pc c).Free := by
        rw [hpc]
        trivial
      split
      · next hready =>
          exact ⟨phase, h.move (.inl hfrom) (.inr ⟨trivial, hready⟩) rfl rfl (absurd rfl)⟩
      · exact ⟨phase, h.move (.inl hfrom) (.inl trivial) rfl rfl (absurd rfl)⟩
  | callReturns c content =>
      obtain ⟨hpc, -, rfl⟩ := hstep
      have hsees : (s.pc c).Sees := by
        rw [hpc]
        trivial
      exact ⟨phase, h.move (.inr hsees) (.inl trivial) rfl rfl fun _ => hsees⟩
  | get c =>
      obtain ⟨hpc, rfl⟩ := hstep
      exact ⟨phase, h.move (.inl (by rw [hpc]; trivial)) (.inl trivial) rfl rfl (absurd rfl)⟩
  | getLoad c =>
      obtain ⟨hpc, hready, rfl⟩ := hstep
      exact ⟨phase,
        h.move (.inl (by rw [hpc]; trivial)) (.inr ⟨trivial, hready⟩) rfl rfl (absurd rfl)⟩
  | getNone c =>
      obtain ⟨hpc, -, rfl⟩ := hstep
      exact ⟨phase, h.move (.inl (by rw [hpc]; trivial)) (.inl trivial) rfl rfl (absurd rfl)⟩
  | getSome c content =>
      obtain ⟨hpc, -, rfl⟩ := hstep
      have hsees : (s.pc c).Sees := by
        rw [hpc]
        trivial
      exact ⟨phase, h.move (.inr hsees) (.inl trivial) rfl rfl fun _ => hsees⟩

end Stage

/-! ## Every run -/

variable [DecidableEq Cpu]

private theorem stage_of_reaches (h : (onceSystem Cpu α).Reaches history s) :
    ∃ phase, Stage history s phase := by
  induction h with
  | init hinit =>
      obtain rfl := hinit
      exact ⟨.untouched, rfl, rfl, rfl, rfl, nofun, nofun, fun _ => .inl trivial⟩
  | step _ hstep ih =>
      obtain ⟨phase, hstage⟩ := ih
      exact hstage.step hstep

private theorem Stage.content_eq {r : Option α} (h : Stage history s phase) (hstep : s.Step e s')
    (hcontent : e.content = some r) :
      ∃ v, r = some v ∧ runsOf history = [v] ∧ writesOf history = [v] := by
  have hread : r = s.value ∧ s.state = .ready := by
    cases e with
    | callReturns c content =>
        obtain ⟨hpc, hvalue, -⟩ := hstep
        obtain rfl := Option.some.inj hcontent
        exact ⟨hvalue, h.ready_of_sees (c := c) (by rw [hpc]; trivial)⟩
    | getSome c content =>
        obtain ⟨hpc, hvalue, -⟩ := hstep
        obtain rfl := Option.some.inj hcontent
        exact ⟨hvalue, h.ready_of_sees (c := c) (by rw [hpc]; trivial)⟩
    | _ => cases hcontent
  obtain ⟨hr, hready⟩ := hread
  obtain ⟨v, rfl⟩ := h.published_of_ready hready
  exact ⟨v, hr.trans h.value, h.runs, h.writes⟩

/-- What a run of the cell has done so far. -/
structure InitialisedOnce (history : List (OnceEvent Cpu α)) (s : OnceCell Cpu α) : Prop where
  one_run : (runsOf history).length ≤ 1
  one_write : (writesOf history).length ≤ 1
  value : s.value = (writesOf history).head?
  reads : ∀ before e after r, history = before ++ e :: after → e.content = some r →
    ∃ v, r = some v ∧ runsOf before = [v] ∧ writesOf before = [v]
  lasting : ∀ before e middle c after, history = before ++ e :: (middle ++ .getNone c :: after) →
    e.content = none

/-- Along every interleaving the cell is initialised at most once, and everyone who gets a reference
gets it to that value. -/
theorem once_initialised (h : (onceSystem Cpu α).Reaches history s) :
    InitialisedOnce history s := by
  obtain ⟨phase, hstage⟩ := stage_of_reaches h
  refine ⟨?_, ?_, ?_, ?_, ?_⟩
  · rw [hstage.runs]
    cases phase <;> simp [Phase.runs]
  · rw [hstage.writes]
    cases phase <;> simp [Phase.writes]
  · rw [hstage.value, hstage.writes]
    cases phase <;> rfl
  · intro before e after r hsplit hcontent
    obtain ⟨s₁, s₂, hbefore, hstep⟩ := h.split hsplit
    obtain ⟨phase₁, hstage₁⟩ := stage_of_reaches hbefore
    exact hstage₁.content_eq hstep hcontent
  · intro before e middle c after hsplit
    rw [← List.cons_append, ← List.append_assoc] at hsplit
    obtain ⟨s₁, s₂, hbefore, hstep⟩ := h.split hsplit
    obtain ⟨phase₁, hstage₁⟩ := stage_of_reaches hbefore
    obtain ⟨-, hnotReady, -⟩ := hstep
    by_contra hcontent
    exact hnotReady (hstage₁.state.trans (hstage₁.returned e (by simp) hcontent))

/-- One CPU initialises the cell; another one looks too early, loses the exchange and waits. -/
theorem once_initialised_two : ∃ history s, (onceSystem ℕ ℕ).Reaches history s ∧
    InitialisedOnce history s ∧ .getNone 1 ∈ history ∧ .callReturns 1 (some 7) ∈ history := by
  have hnew : (onceSystem ℕ ℕ).Reaches [] .new := .init rfl
  have hwon :=
    (hnew.step (e := OnceEvent.callOnce 0) ⟨rfl, rfl⟩).step (e := OnceEvent.exchange 0) ⟨rfl, rfl⟩
  have hearly :=
    (hwon.step (e := OnceEvent.get 1) ⟨rfl, rfl⟩).step (e := OnceEvent.getNone 1)
      ⟨rfl, by decide, rfl⟩
  have hlost :=
    (hearly.step (e := OnceEvent.callOnce 1) ⟨rfl, rfl⟩).step (e := OnceEvent.exchange 1) ⟨rfl, rfl⟩
  have hready :=
    ((hlost.step (e := OnceEvent.run 0 7) ⟨rfl, rfl⟩).step (e := OnceEvent.write 0 7)
      ⟨rfl, rfl⟩).step
    (e := OnceEvent.publish 0) ⟨rfl, rfl⟩
  have hread :=
    (hready.step (e := OnceEvent.load 1) ⟨rfl, rfl⟩).step (e := OnceEvent.callReturns 1 (some 7))
    ⟨rfl, rfl, rfl⟩
  exact ⟨_, _, hread, once_initialised hread, by simp, by simp⟩

end Preon.Sync
