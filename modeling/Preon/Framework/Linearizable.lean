import Mathlib.Data.List.Basic
import Mathlib.Data.List.Nodup
import Mathlib.Logic.Function.Basic
import Preon.Framework.Transition

/-!
# Linearizable objects

The steps of a concurrent object are calls, returns, the work in between, and steps of its
environment.  A linearization gives every call one moment between its call and its return at which
it takes effect, such that the effects, in the order of their moments, are a run of a sequential
object.  It is found by a simulation that matches each step with at most one effect.
-/

namespace Preon.Framework

/-- A return names the call and its result, as the sequential object sees them. -/
inductive Action (Cpu Op Event : Type*)
  | call (x : Cpu) (op : Op)
  | work (x : Cpu)
  | ret (x : Cpu) (e : Event)
  | env (e : Event)

variable {Cpu Op Event : Type*}

/-- The log of a history that has become one step longer. -/
def extendLog (log : ℕ → List (Option Cpu × Event)) (n : ℕ) (new : List (Option Cpu × Event)) :
    ℕ → List (Option Cpu × Event) :=
  fun k => if k ≤ n then log k else log n ++ new

theorem extendLog_succ (log : ℕ → List (Option Cpu × Event)) (n : ℕ)
    (new : List (Option Cpu × Event)) : extendLog log n new (n + 1) = log n ++ new :=
  if_neg (Nat.not_succ_le_self n)

theorem extendLog_le (log : ℕ → List (Option Cpu × Event)) {n k : ℕ}
    (new : List (Option Cpu × Event)) (h : k ≤ n) : extendLog log n new k = log k := if_pos h

variable [DecidableEq Cpu]

namespace Action

def returnOf (x : Cpu) : Action Cpu Op Event → Option Event
  | .ret y e => if y = x then some e else none
  | _ => none

def envOf : Action Cpu Op Event → Option Event
  | .env e => some e
  | _ => none

def track (calls : Cpu → Option Op) : Action Cpu Op Event → Cpu → Option Op
  | .call x op => Function.update calls x (some op)
  | .ret x _ => Function.update calls x none
  | _ => calls

end Action

def openCalls (history : List (Action Cpu Op Event)) : Cpu → Option Op :=
  history.foldl Action.track fun _ => none

def returnsOf (x : Cpu) (history : List (Action Cpu Op Event)) : List Event :=
  history.filterMap (Action.returnOf x)

def effectsOf (who : Option Cpu) (log : List (Option Cpu × Event)) : List Event :=
  log.filterMap fun p => if p.1 = who then some p.2 else none

/-- After `n` steps the effects were `log n`.  Each step adds at most one; a CPU has one effect for
each of its returns, with the result that it returns, and perhaps one for the call that it is in. -/
structure Linearization (Answers : Op → Event → Prop) (history : List (Action Cpu Op Event))
    (log : ℕ → List (Option Cpu × Event)) : Prop where
  start : log 0 = []
  grows : ∀ n < history.length, ∃ new, new.length ≤ 1 ∧ log (n + 1) = log n ++ new
  effects : ∀ n ≤ history.length, ∀ x, ∃ taken : Option Event,
    effectsOf (some x) (log n) = returnsOf x (history.take n) ++ taken.toList ∧
      ∀ e ∈ taken, ∃ op ∈ openCalls (history.take n) x, Answers op e
  environment : ∀ n ≤ history.length,
    effectsOf none (log n) = (history.take n).filterMap Action.envOf

section Log

variable {history : List (Action Cpu Op Event)} {log : ℕ → List (Option Cpu × Event)}

theorem openCalls_append (history : List (Action Cpu Op Event)) (a : Action Cpu Op Event) :
    openCalls (history ++ [a]) = a.track (openCalls history) := by
  simp [openCalls]

theorem returnsOf_append (x : Cpu) (history : List (Action Cpu Op Event))
    (a : Action Cpu Op Event) :
    returnsOf x (history ++ [a]) = returnsOf x history ++ (a.returnOf x).toList := by
  cases h : a.returnOf x <;> simp [returnsOf, h]

theorem effectsOf_append (who : Option Cpu) (log new : List (Option Cpu × Event)) :
    effectsOf who (log ++ new) = effectsOf who log ++ effectsOf who new := by
  simp [effectsOf]

@[simp] theorem effectsOf_nil (who : Option Cpu) :
    effectsOf who ([] : List (Option Cpu × Event)) = [] := rfl

theorem effectsOf_single (who who' : Option Cpu) (e : Event) :
    effectsOf who [(who', e)] = if who' = who then [e] else [] := by
  by_cases h : who' = who <;> simp [effectsOf, h]

theorem Linearization.extend {Answers : Op → Event → Prop} (h : Linearization Answers history log)
    {a : Action Cpu Op Event} {new : List (Option Cpu × Event)} (hnew : new.length ≤ 1)
    (heffects : ∀ x, ∃ taken : Option Event,
      effectsOf (some x) (log history.length ++ new) =
        returnsOf x (history ++ [a]) ++ taken.toList ∧
        ∀ e ∈ taken, ∃ op ∈ openCalls (history ++ [a]) x, Answers op e)
    (henv : effectsOf none new = a.envOf.toList) :
    Linearization Answers (history ++ [a]) (extendLog log history.length new) := by
  have hlast : (history ++ [a]).length = history.length + 1 := by simp
  have hcases (n : ℕ) (hn : n ≤ (history ++ [a]).length) :
      n ≤ history.length ∨ n = history.length + 1 := by omega
  constructor
  · rw [extendLog_le _ _ (Nat.zero_le _)]
    exact h.start
  · intro n hn
    have hle : n ≤ history.length := by omega
    rw [extendLog_le log new hle]
    by_cases hlt : n < history.length
    · rw [extendLog_le log new hlt]
      exact h.grows n hlt
    · obtain rfl : n = history.length := by omega
      exact ⟨new, hnew, extendLog_succ _ _ _⟩
  · intro n hn x
    rcases hcases n hn with hle | rfl
    · rw [extendLog_le _ _ hle, List.take_append_of_le_length hle]
      exact h.effects n hle x
    · rw [extendLog_succ, ← hlast, List.take_length]
      exact heffects x
  · intro n hn
    rcases hcases n hn with hle | rfl
    · rw [extendLog_le _ _ hle, List.take_append_of_le_length hle]
      exact h.environment n hle
    · have hbefore := h.environment history.length (Nat.le_refl _)
      rw [List.take_length] at hbefore
      rw [extendLog_succ, ← hlast, List.take_length, effectsOf_append, hbefore, henv]
      cases ha : a.envOf <;> simp [ha]

theorem linearization_nil (Answers : Op → Event → Prop) :
    Linearization Answers ([] : List (Action Cpu Op Event)) fun _ => [] where
  start := rfl
  grows n hn := absurd hn (Nat.not_lt_zero n)
  effects n _ x := ⟨none, by simp [returnsOf], by simp⟩
  environment n _ := by simp

end Log

section Simulation

variable {State State' : Type*} {S : System State (Action Cpu Op Event)} {A : System State' Event}
  {Answers : Op → Event → Prop}
  {R : State → (Cpu → Option Op) → (Cpu → Option Event) → State' → Prop}

/-- `R` relates a state of `S` to a state of `A` in which the calls `taken` have had their effect
already.  Only the work of a CPU lets its call take effect. -/
structure Linearizes (S : System State (Action Cpu Op Event)) (A : System State' Event)
    (Answers : Op → Event → Prop)
    (R : State → (Cpu → Option Op) → (Cpu → Option Event) → State' → Prop) : Prop where
  init : ∀ s, S.init s → ∃ a, A.init a ∧ R s (fun _ => none) (fun _ => none) a
  call : ∀ s t calls taken a x op, A.Reachable a → R s calls taken a → S.step s (.call x op) t →
    taken x = none ∧ R t (Function.update calls x (some op)) taken a
  work : ∀ s t calls taken a x, A.Reachable a → R s calls taken a → S.step s (.work x) t →
    R t calls taken a ∨ ∃ op e b, calls x = some op ∧ Answers op e ∧ taken x = none ∧
      A.step a e b ∧ R t calls (Function.update taken x (some e)) b
  ret : ∀ s t calls taken a x e, A.Reachable a → R s calls taken a → S.step s (.ret x e) t →
    taken x = some e ∧ R t (Function.update calls x none) (Function.update taken x none) a
  env : ∀ s t calls taken a e, A.Reachable a → R s calls taken a → S.step s (.env e) t →
    ∃ b, A.step a e b ∧ R t calls taken b

/-- What the induction over a run carries. -/
structure Logged (Answers : Op → Event → Prop) (history : List (Action Cpu Op Event))
    (log : ℕ → List (Option Cpu × Event)) (taken : Cpu → Option Event) : Prop where
  linearization : Linearization Answers history log
  effects : ∀ x, effectsOf (some x) (log history.length) = returnsOf x history ++ (taken x).toList
  answers : ∀ x, ∀ e ∈ taken x, ∃ op ∈ openCalls history x, Answers op e

namespace Logged

variable {history : List (Action Cpu Op Event)} {log : ℕ → List (Option Cpu × Event)}
  {taken taken' : Cpu → Option Event} {x : Cpu} {op : Op} {e : Event}

theorem extend (h : Logged Answers history log taken) {a : Action Cpu Op Event}
    {new : List (Option Cpu × Event)} (hnew : new.length ≤ 1)
    (heffects : ∀ x, (taken x).toList ++ effectsOf (some x) new =
      (a.returnOf x).toList ++ (taken' x).toList)
    (hanswers : ∀ x, ∀ e ∈ taken' x, ∃ op ∈ a.track (openCalls history) x, Answers op e)
    (henv : effectsOf none new = a.envOf.toList) :
    Logged Answers (history ++ [a]) (extendLog log history.length new) taken' := by
  have hall (x : Cpu) : effectsOf (some x) (log history.length ++ new) =
      returnsOf x (history ++ [a]) ++ (taken' x).toList := by
    rw [effectsOf_append, h.effects, returnsOf_append, List.append_assoc, heffects,
      List.append_assoc]
  rw [← openCalls_append] at hanswers
  refine ⟨h.linearization.extend hnew (fun x => ⟨taken' x, hall x, hanswers x⟩) henv, ?_, hanswers⟩
  intro x
  rw [List.length_append, List.length_singleton, extendLog_succ]
  exact hall x

theorem call (h : Logged Answers history log taken) (hnone : taken x = none) :
    Logged Answers (history ++ [.call x op]) (extendLog log history.length []) taken := by
  apply h.extend (Nat.zero_le _) (by simp [Action.returnOf]) _ rfl
  intro y e he
  by_cases hy : y = x
  · rw [hy, hnone] at he
    cases he
  · rw [Action.track, Function.update_of_ne hy]
    exact h.answers y e he

theorem silent (h : Logged Answers history log taken) :
    Logged Answers (history ++ [.work x]) (extendLog log history.length []) taken :=
  h.extend (Nat.zero_le _) (by simp [Action.returnOf]) h.answers rfl

theorem effect (h : Logged Answers history log taken) (hop : openCalls history x = some op)
    (hanswer : Answers op e) (hnone : taken x = none) :
    Logged Answers (history ++ [.work x]) (extendLog log history.length [(some x, e)])
      (Function.update taken x (some e)) := by
  apply h.extend (by simp) _ _ (effectsOf_single _ _ _)
  · intro y
    rw [effectsOf_single]
    by_cases hy : y = x
    · simp [hy, hnone, Action.returnOf]
    · simp [Function.update_of_ne hy, Action.returnOf, Ne.symm hy]
  · intro y e' he'
    by_cases hy : y = x
    · rw [hy, Function.update_self] at he'
      rw [← Option.some.inj he', hy]
      exact ⟨op, hop, hanswer⟩
    · rw [Function.update_of_ne hy] at he'
      exact h.answers y e' he'

theorem ret (h : Logged Answers history log taken) (htaken : taken x = some e) :
    Logged Answers (history ++ [.ret x e]) (extendLog log history.length [])
      (Function.update taken x none) := by
  apply h.extend (Nat.zero_le _) _ _ rfl
  · intro y
    by_cases hy : y = x
    · simp [hy, htaken, Action.returnOf]
    · simp [Function.update_of_ne hy, Action.returnOf, Ne.symm hy]
  · intro y e' he'
    by_cases hy : y = x
    · rw [hy, Function.update_self] at he'
      cases he'
    · rw [Function.update_of_ne hy] at he'
      rw [Action.track, Function.update_of_ne hy]
      exact h.answers y e' he'

theorem env (h : Logged Answers history log taken) :
    Logged Answers (history ++ [.env e]) (extendLog log history.length [(none, e)]) taken := by
  apply h.extend (by simp) _ h.answers (effectsOf_single _ _ _)
  intro y
  simp [effectsOf_single, Action.returnOf]

end Logged

theorem Linearizes.reaches (h : Linearizes S A Answers R) {history : List (Action Cpu Op Event)}
    {s : State} (hs : S.Reaches history s) : ∃ log taken a, Logged Answers history log taken ∧
      A.Reaches ((log history.length).map Prod.snd) a ∧ R s (openCalls history) taken a := by
  induction hs with
  | init hinit =>
      obtain ⟨a, ha, hR⟩ := h.init _ hinit
      exact ⟨_, _, a, ⟨linearization_nil Answers, fun _ => rfl, by simp⟩, .init ha, hR⟩
  | @step history s t action hs hstep ih =>
      obtain ⟨log, taken, a, hlog, ha, hR⟩ := ih
      have hlast (new : List (Option Cpu × Event)) :
          extendLog log history.length new (history ++ [action]).length =
            log history.length ++ new := by
        rw [List.length_append, List.length_singleton, extendLog_succ]
      have hsilent : A.Reaches ((log history.length ++ []).map Prod.snd) a := by
        rwa [List.append_nil]
      have heffect {who : Option Cpu} {e : Event} {b : State'} (hb : A.step a e b) :
          A.Reaches ((log history.length ++ [(who, e)]).map Prod.snd) b := by
        rw [List.map_append]
        exact ha.step hb
      rw [openCalls_append]
      cases action with
      | call x op =>
          obtain ⟨hnone, hR'⟩ := h.call _ _ _ _ _ _ _ ha.reachable hR hstep
          exact ⟨_, _, a, hlog.call hnone, by rwa [hlast], hR'⟩
      | work x =>
          rcases h.work _ _ _ _ _ _ ha.reachable hR hstep with hR' | ⟨op, e, b, hop, hans,
            hnone, hb, hR'⟩
          · exact ⟨_, _, a, hlog.silent, by rwa [hlast], hR'⟩
          · refine ⟨_, _, b, hlog.effect hop hans hnone, ?_, hR'⟩
            rw [hlast]
            exact heffect hb
      | ret x e =>
          obtain ⟨htaken, hR'⟩ := h.ret _ _ _ _ _ _ _ ha.reachable hR hstep
          exact ⟨_, _, a, hlog.ret htaken, by rwa [hlast], hR'⟩
      | env e =>
          obtain ⟨b, hb, hR'⟩ := h.env _ _ _ _ _ _ ha.reachable hR hstep
          refine ⟨_, _, b, hlog.env, ?_, hR'⟩
          rw [hlast]
          exact heffect hb

end Simulation

/-! ## Locks inside an object -/

/-- What a step of a CPU does to the flag of a lock, and whether the CPU holds it. -/
inductive LockStep : (locked held locked' held' : Bool) → Prop
  | stay {locked held : Bool} : LockStep locked held locked held
  | acquire : LockStep false false true true
  | release {locked : Bool} : LockStep locked true false false

namespace LockStep

variable {locked held locked' held' : Bool}

theorem holds (h : LockStep locked held locked' held') (hheld : held' = true) :
    held = true ∨ locked = false := by
  cases h with
  | stay => exact .inl hheld
  | acquire => exact .inr rfl
  | release => cases hheld

theorem frees (h : LockStep locked held locked' held') (hfree : locked' = false) :
    locked = false ∨ held = true ∧ held' = false := by
  cases h with
  | stay => exact .inl hfree
  | acquire => cases hfree
  | release => exact .inr ⟨rfl, rfl⟩

end LockStep

/-- One CPU at a time holds the lock, and only while it is taken. -/
structure Exclusive (locked : Bool) (held : Cpu → Bool) : Prop where
  locked : ∀ x, held x = true → locked = true
  unique : ∀ x y, held x = true → held y = true → x = y

namespace Exclusive

variable {locked locked' held' : Bool} {held : Cpu → Bool} {x y : Cpu}

omit [DecidableEq Cpu] in
theorem not_held (h : Exclusive locked held) (hfree : locked = false) (x : Cpu) :
    held x = false := by
  rw [← Bool.not_eq_true]
  intro hheld
  rw [h.locked x hheld] at hfree
  cases hfree

omit [DecidableEq Cpu] in
theorem ne_held (h : Exclusive locked held) (hx : held x = true) (hy : y ≠ x) : held y = false := by
  rw [← Bool.not_eq_true]
  exact fun hheld => hy (h.unique y x hheld hx)

theorem step (h : Exclusive locked held) (hstep : LockStep locked (held x) locked' held') :
    Exclusive locked' (Function.update held x held') := by
  generalize hx : held x = b at hstep
  cases hstep with
  | stay =>
      rw [← hx, Function.update_eq_self]
      exact h
  | acquire =>
      have hnone (y : Cpu) : held y ≠ true := fun hy => Bool.false_ne_true (h.locked y hy)
      refine ⟨fun _ _ => rfl, ?_⟩
      intro y z hy hz
      simp only [Function.update_apply] at hy hz
      split_ifs at hy hz with hyx hzx hzx
      · rw [hyx, hzx]
      · exact absurd hz (hnone z)
      · exact absurd hy (hnone y)
      · exact absurd hy (hnone y)
  | release =>
      have hnone (y : Cpu) : Function.update held x false y ≠ true := by
        by_cases hy : y = x
        · simp [hy]
        · simp [hy, h.ne_held hx hy]
      exact ⟨fun y hy => absurd hy (hnone y), fun y _ hy _ => absurd hy (hnone y)⟩

end Exclusive

/-! ## What calls carry -/

section Custody

variable {α : Type*} {out out' kept kept' : List α} {carried carried' : Cpu → Option α}
  {x : Cpu} {a : α}

/-- Something is with the users, or on its way in or out with the call of a CPU. -/
def WithPlace (kept : List α) (carried : Cpu → Option α) : Option Cpu → α → Prop
  | none, a => a ∈ kept
  | some x, a => carried x = some a

/-- What the sequential object has handed out is in one place each. -/
structure Custody (out kept : List α) (carried : Cpu → Option α) : Prop where
  nodup : out.Nodup
  kept_nodup : kept.Nodup
  mem : ∀ a, a ∈ out ↔ ∃ p, WithPlace kept carried p a
  unique : ∀ a p q, WithPlace kept carried p a → WithPlace kept carried q a → p = q

namespace Custody

omit [DecidableEq Cpu] in
theorem kept_mem (h : Custody out kept carried) (ha : a ∈ kept) : a ∈ out :=
  (h.mem a).mpr ⟨none, ha⟩

omit [DecidableEq Cpu] in
theorem carried_mem (h : Custody out kept carried) (hx : carried x = some a) : a ∈ out :=
  (h.mem a).mpr ⟨some x, hx⟩

omit [DecidableEq Cpu] in
theorem carried_ne (h : Custody out kept carried) (hx : carried x = some a) {b : α}
    (hb : b ∈ kept) :
    b ≠ a := by
  rintro rfl
  cases h.unique b none (some x) hb hx

omit [DecidableEq Cpu] in
theorem move (h : Custody out kept carried) {q : Option Cpu} (hnodup : out'.Nodup)
    (hkept : kept'.Nodup) (hout : ∀ b, b ∈ out' ↔ b = a ∨ b ∈ out)
    (hplace : ∀ p b, WithPlace kept' carried' p b ↔ b = a ∧ p = q ∨ b ≠ a ∧
      WithPlace kept carried p b) :
    Custody out' kept' carried' := by
  refine ⟨hnodup, hkept, ?_, ?_⟩
  · intro b
    by_cases hb : b = a
    · simp [hout, hplace, hb]
    · simp [hout, hplace, hb, h.mem]
  · intro b p p' hp hp'
    rw [hplace] at hp hp'
    by_cases hb : b = a
    · simp only [hb, true_and, ne_eq, not_true_eq_false, false_and, or_false] at hp hp'
      rw [hp, hp']
    · simp only [hb, false_and, ne_eq, not_false_eq_true, true_and, false_or] at hp hp'
      exact h.unique b p p' hp hp'

omit [DecidableEq Cpu] in
theorem carried_eq (h : Custody out kept carried) {y : Cpu} (hx : carried x = some a)
    (hy : carried y = some a) : y = x :=
  Option.some.inj (h.unique a (some y) (some x) hy hx)

omit [DecidableEq Cpu] in
theorem start (hnone : ∀ x, carried x = none) (hnodup : out.Nodup) : Custody out out carried := by
  refine ⟨hnodup, hnodup, ?_, ?_⟩
  · intro a
    simp [Option.exists, WithPlace, hnone]
  · intro a p q hp hq
    cases p with
    | some x => simp [WithPlace, hnone] at hp
    | none =>
        cases q with
        | some x => simp [WithPlace, hnone] at hq
        | none => rfl

omit [DecidableEq Cpu] in
theorem carried_none (h : Custody [] kept carried) (x : Cpu) : carried x = none := by
  rw [Option.eq_none_iff_forall_ne_some]
  exact fun a hx => List.not_mem_nil (h.carried_mem hx)

theorem same (h : Custody out kept carried) {v : Option α} (hv : carried x = v) :
    Custody out kept (Function.update carried x v) := by
  rw [← hv, Function.update_eq_self x]
  exact h

theorem handOut (h : Custody out kept carried) (ha : a ∉ out) (hx : carried x = none) :
    Custody (a :: out) kept (Function.update carried x (some a)) := by
  apply h.move (q := some x) (h.nodup.cons ha) h.kept_nodup (fun b => List.mem_cons)
  intro p b
  cases p with
  | none =>
      have hkept (hb : b ∈ kept) : b ≠ a := fun heq => ha (heq ▸ h.kept_mem hb)
      simpa [WithPlace] using hkept
  | some y =>
      have hcarried (hb : carried y = some b) : b ≠ a := fun heq => ha (heq ▸ h.carried_mem hb)
      by_cases hy : y = x
      · simp [WithPlace, hy, hx, eq_comm]
      · simpa [WithPlace, hy] using hcarried

theorem carryOut (h : Custody out kept carried) (hx : carried x = some a) :
    Custody out (a :: kept) (Function.update carried x none) := by
  have ha : a ∉ kept := fun hmem => h.carried_ne hx hmem rfl
  apply h.move (q := none) h.nodup (h.kept_nodup.cons ha) (by simpa using h.carried_mem hx)
  intro p b
  cases p with
  | none =>
      by_cases hb : b = a <;> simp [WithPlace, hb]
  | some y =>
      by_cases hy : y = x
      · simp [WithPlace, hy, hx, eq_comm]
      · have hcarried (hb : carried y = some b) : b ≠ a :=
          fun heq => hy (h.carried_eq hx (heq ▸ hb))
        simpa [WithPlace, hy] using hcarried

variable [BEq α] [LawfulBEq α]

theorem carryIn (h : Custody out kept carried) (ha : a ∈ kept) (hx : carried x = none) :
    Custody out (kept.erase a) (Function.update carried x (some a)) := by
  apply h.move (q := some x) h.nodup (h.kept_nodup.erase a) (by simpa using h.kept_mem ha)
  intro p b
  cases p with
  | none => simp [WithPlace, h.kept_nodup.mem_erase_iff]
  | some y =>
      have hcarried (hb : carried y = some b) : b ≠ a := (h.carried_ne hb ha).symm
      by_cases hy : y = x
      · simp [WithPlace, hy, hx, eq_comm]
      · simpa [WithPlace, hy] using hcarried

theorem takeBack (h : Custody out kept carried) (hx : carried x = some a) :
    Custody (out.erase a) kept (Function.update carried x none) := by
  have hplace (p : Option Cpu) (b : α) : WithPlace kept (Function.update carried x none) p b ↔
      b ≠ a ∧ WithPlace kept carried p b := by
    cases p with
    | none => simpa [WithPlace] using h.carried_ne hx
    | some y =>
        by_cases hy : y = x
        · simp [WithPlace, hy, hx, eq_comm]
        · have hcarried (hb : carried y = some b) : b ≠ a :=
            fun heq => hy (h.carried_eq hx (heq ▸ hb))
          simpa [WithPlace, hy] using hcarried
  refine ⟨h.nodup.erase a, h.kept_nodup, ?_, ?_⟩
  · intro b
    simp [hplace, h.nodup.mem_erase_iff, h.mem]
  · intro b p q hp hq
    exact h.unique b p q ((hplace p b).mp hp).2 ((hplace q b).mp hq).2

end Custody

end Custody

end Preon.Framework
