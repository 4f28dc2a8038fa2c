import Mathlib.Data.List.Induction

/-!
# Transition systems, runs and forward simulation

A system is given by its initial states and its labelled steps.  A run carries the list of
labels it has taken, oldest first, so that two systems can be compared on the same history.
-/

namespace Preon.Framework

/-- A labelled transition system. -/
structure System (State Event : Type*) where
  init : State → Prop
  step : State → Event → State → Prop

namespace System

variable {State State' Event : Type*}

/-- `Reaches S history s`: some run of `S` takes exactly the steps of `history` and ends in `s`. -/
inductive Reaches (S : System State Event) : List Event → State → Prop
  | init {s : State} : S.init s → Reaches S [] s
  | step {history : List Event} {s t : State} {e : Event} :
      Reaches S history s → S.step s e t → Reaches S (history ++ [e]) t

theorem Reaches.split {S : System State Event} {history before after : List Event} {e : Event}
    {s : State} (h : S.Reaches history s) (hsplit : history = before ++ e :: after) :
    ∃ s₁ s₂, S.Reaches before s₁ ∧ S.step s₁ e s₂ := by
  induction h generalizing after with
  | init => simp at hsplit
  | step hs ht ih =>
      rcases List.eq_nil_or_concat after with rfl | ⟨rest, last, rfl⟩
      · obtain ⟨rfl, heq⟩ := List.append_inj' hsplit rfl
        obtain rfl := List.head_eq_of_cons_eq heq
        exact ⟨_, _, hs, ht⟩
      · rw [List.concat_eq_append, ← List.cons_append, ← List.append_assoc] at hsplit
        exact ih (List.append_inj' hsplit rfl).1

theorem Reaches.earlier {S : System State Event} {R : State → State → Prop} (hrefl : ∀ s, R s s)
    (hstep : ∀ s t e u, R s t → S.step t e u → R s u) {before after : List Event} {s : State}
    (h : S.Reaches (before ++ after) s) : ∃ s₁, S.Reaches before s₁ ∧ R s₁ s := by
  induction after using List.reverseRecOn generalizing s with
  | nil =>
      rw [List.append_nil] at h
      exact ⟨s, h, hrefl s⟩
  | append_singleton after e ih =>
      rw [← List.append_assoc] at h
      generalize hhistory : before ++ after ++ [e] = history at h
      cases h with
      | init => simp at hhistory
      | step hs ht =>
          obtain ⟨rfl, hlast⟩ := List.append_inj' hhistory rfl
          obtain ⟨s₁, hs₁, hR⟩ := ih hs
          exact ⟨s₁, hs₁, hstep _ _ _ _ hR ht⟩

/-- The states that some run ends in. -/
def Reachable (S : System State Event) (s : State) : Prop := ∃ history, S.Reaches history s

theorem Reaches.reachable {S : System State Event} {history : List Event} {s : State}
    (h : S.Reaches history s) : S.Reachable s := ⟨history, h⟩

theorem Reachable.init {S : System State Event} {s : State} (h : S.init s) : S.Reachable s :=
  ⟨[], .init h⟩

theorem Reachable.step {S : System State Event} {s t : State} {e : Event}
    (h : S.Reachable s) (ht : S.step s e t) : S.Reachable t := by
  obtain ⟨history, hs⟩ := h
  exact ⟨history ++ [e], hs.step ht⟩

theorem Reachable.invariant {S : System State Event} {P : State → Prop}
    (hinit : ∀ s, S.init s → P s) (hstep : ∀ s e t, P s → S.step s e t → P t)
    {s : State} (h : S.Reachable s) : P s := by
  obtain ⟨history, hs⟩ := h
  induction hs with
  | init h => exact hinit _ h
  | step _ ht ih => exact hstep _ _ _ ih ht

/-- `R` is a forward simulation of `S` by `A` on the same labels. -/
structure Simulates (S : System State Event) (A : System State' Event)
    (R : State → State' → Prop) : Prop where
  init : ∀ s, S.init s → ∃ a, A.init a ∧ R s a
  step : ∀ s e t a, S.Reachable s → R s a → S.step s e t → ∃ b, A.step a e b ∧ R t b

theorem Simulates.reaches {S : System State Event} {A : System State' Event}
    {R : State → State' → Prop} (h : S.Simulates A R) {history : List Event} {s : State}
    (hs : S.Reaches history s) : ∃ a, A.Reaches history a ∧ R s a := by
  induction hs with
  | init hi =>
      obtain ⟨a, ha, hR⟩ := h.init _ hi
      exact ⟨a, .init ha, hR⟩
  | step hs ht ih =>
      obtain ⟨a, ha, hR⟩ := ih
      obtain ⟨b, hb, hR'⟩ := h.step _ _ _ _ hs.reachable hR ht
      exact ⟨b, ha.step hb, hR'⟩

end System

end Preon.Framework
