import Mathlib.Algebra.Group.Nat.Defs
import Mathlib.Data.List.Pairwise
import Mathlib.Data.Nat.Basic
import Mathlib.Logic.Function.Basic

/-!
# Radix trees in memory

Tables of words live at addresses.  A word of a table is empty, points to a table one level down,
or ends the lookup with a leaf; which of these it is may depend on the level.  Keys are numbers
whose digits in base `fanout` select the slots from the top down.  Levels count the digits that
are left, so a leaf found at level `n` answers for `fanout ^ n` keys.
-/

namespace Preon.Framework

/-- What a word of a table means. -/
inductive Slot (Leaf : Type*)
  | empty
  | table (next : ℕ)
  | leaf (value : Leaf)

namespace Radix

variable {Word Leaf : Type*} (fanout : ℕ) (decode : ℕ → Word → Slot Leaf)

/-- The slot of a key at a level. -/
def digit (n x : ℕ) : ℕ := x / fanout ^ n % fanout

/-- Follow a key down from the table at `t`; the answer carries the level of the leaf. -/
def lookup (mem : ℕ → ℕ → Word) : (n t x : ℕ) → Option (ℕ × Leaf)
  | 0, t, x =>
      match decode 0 (mem t (digit fanout 0 x)) with
      | .leaf value => some (0, value)
      | _ => none
  | n + 1, t, x =>
      match decode (n + 1) (mem t (digit fanout (n + 1) x)) with
      | .leaf value => some (n + 1, value)
      | .table next => lookup mem n next x
      | .empty => none

def write (mem : ℕ → ℕ → Word) (t i : ℕ) (w : Word) : ℕ → ℕ → Word :=
  Function.update mem t (Function.update (mem t) i w)

theorem write_self (mem : ℕ → ℕ → Word) (t i : ℕ) (w : Word) : write mem t i w t i = w := by
  simp [write]

theorem write_of_ne (mem : ℕ → ℕ → Word) {t i u j : ℕ} (w : Word) (h : ¬ (u = t ∧ j = i)) :
    write mem t i w u j = mem u j := by
  by_cases hu : u = t
  · have hj : j ≠ i := fun hj => h ⟨hu, hj⟩
    subst hu
    simp [write, Function.update_of_ne hj]
  · simp [write, Function.update_of_ne hu]

section Stores

variable {Store : Type*} (table slot : Store → ℕ) (word : Store → Word) {stores : List Store}

theorem foldl_write_of_not {t i : ℕ} (h : ∀ s ∈ stores, ¬ (t = table s ∧ i = slot s))
    (mem : ℕ → ℕ → Word) :
    stores.foldl (fun mem s => write mem (table s) (slot s) (word s)) mem t i = mem t i := by
  induction stores generalizing mem with
  | nil => rfl
  | cons a stores ih =>
      rw [List.forall_mem_cons] at h
      rw [List.foldl_cons, ih h.2, write_of_ne _ _ h.1]

theorem foldl_write_of_mem
    (hapart : stores.Pairwise fun a b => ¬ (table a = table b ∧ slot a = slot b)) {s : Store}
    (hs : s ∈ stores) (mem : ℕ → ℕ → Word) :
    stores.foldl (fun mem s => write mem (table s) (slot s) (word s)) mem (table s)
      (slot s) = word s := by
  induction stores generalizing mem with
  | nil => cases hs
  | cons a stores ih =>
      rw [List.pairwise_cons] at hapart
      rw [List.foldl_cons]
      cases hs with
      | head => rw [foldl_write_of_not table slot word hapart.1, write_self]
      | tail _ hs => exact ih hapart.2 hs _

end Stores

/-- Each table has one place in the tree: its level and the digits that lead to it. -/
structure Tree (mem : ℕ → ℕ → Word) (top root : ℕ) (place : ℕ → Option (ℕ × ℕ)) : Prop where
  root_place : place root = some (top, 0)
  child : ∀ t n y i next, place t = some (n, y) → i < fanout →
    decode n (mem t i) = .table next → ∃ k, n = k + 1 ∧ place next = some (k, y * fanout + i)

/-- The tables that a key passes. -/
inductive Path (mem : ℕ → ℕ → Word) (top root x : ℕ) : ℕ → ℕ → Prop
  | root : Path mem top root x top root
  | down {n t next : ℕ} : Path mem top root x (n + 1) t →
      decode (n + 1) (mem t (digit fanout (n + 1) x)) = .table next → Path mem top root x n next

variable {fanout decode} {mem : ℕ → ℕ → Word} {top root : ℕ} {place : ℕ → Option (ℕ × ℕ)}

theorem digit_lt (hf : 0 < fanout) (n x : ℕ) : digit fanout n x < fanout := Nat.mod_lt _ hf

theorem div_pow_eq (n x : ℕ) :
    x / fanout ^ n = x / fanout ^ (n + 1) * fanout + digit fanout n x := by
  rw [digit, Nat.pow_succ, ← Nat.div_div_eq_div_mul, Nat.mul_comm, Nat.div_add_mod]

theorem digit_congr {n x z : ℕ} (h : z / fanout ^ n = x / fanout ^ n) :
    digit fanout n z = digit fanout n x := by rw [digit, digit, h]

theorem div_pow_congr {n k x z : ℕ} (hnk : n ≤ k) (h : z / fanout ^ n = x / fanout ^ n) :
    z / fanout ^ k = x / fanout ^ k := by
  obtain ⟨d, rfl⟩ := Nat.exists_eq_add_of_le hnk
  rw [Nat.pow_add, ← Nat.div_div_eq_div_mul, h, Nat.div_div_eq_div_mul]

theorem Path.level_le {x n t : ℕ} (h : Path fanout decode mem top root x n t) : n ≤ top := by
  induction h with
  | root => exact Nat.le_refl _
  | down _ _ ih => omega

theorem Path.place_eq (hf : 0 < fanout) (htree : Tree fanout decode mem top root place) {x n t : ℕ}
    (hx : x / fanout ^ (top + 1) = 0) (h : Path fanout decode mem top root x n t) :
    place t = some (n, x / fanout ^ (n + 1)) := by
  induction h with
  | root => rw [htree.root_place, hx]
  | down _ hdec ih =>
      obtain ⟨k, hk, hplace⟩ := htree.child _ _ _ _ _ ih (digit_lt hf _ _) hdec
      obtain rfl := Nat.succ.inj hk
      rw [hplace, ← div_pow_eq]

theorem Path.unique {x n t u : ℕ} (h : Path fanout decode mem top root x n t)
    (h' : Path fanout decode mem top root x n u) : u = t := by
  induction h generalizing u with
  | root =>
      cases h' with
      | root => rfl
      | down hpath _ =>
          have hle := hpath.level_le
          omega
  | down hpath hdec ih =>
      cases h' with
      | root =>
          have hle := hpath.level_le
          omega
      | down hpath' hdec' =>
          rw [ih hpath', hdec] at hdec'
          exact (Slot.table.inj hdec').symm

theorem Path.lookup {x n t : ℕ} (h : Path fanout decode mem top root x n t) :
    Radix.lookup fanout decode mem top root x = Radix.lookup fanout decode mem n t x := by
  induction h with
  | root => rfl
  | down _ hdec ih =>
      rw [ih, Radix.lookup, hdec]

theorem Path.congr {x z n t : ℕ} (h : Path fanout decode mem top root x n t)
    (hz : z / fanout ^ (n + 1) = x / fanout ^ (n + 1)) :
    Path fanout decode mem top root z n t := by
  induction h with
  | root => exact .root
  | down _ hdec ih =>
      have habove := ih (div_pow_congr (Nat.le_succ _) hz)
      rw [← digit_congr hz] at hdec
      exact .down habove hdec

theorem Path.through {x k n t : ℕ} (h : Path fanout decode mem top root x k t) (hk : k < n)
    (hn : n ≤ top) : ∃ u next, Path fanout decode mem top root x n u ∧
      decode n (mem u (digit fanout n x)) = .table next := by
  induction h with
  | root => omega
  | @down k t next hpath hdec ih =>
      by_cases heq : k + 1 = n
      · subst heq
        exact ⟨t, next, hpath, hdec⟩
      · exact ih (by omega)

variable (fanout decode mem top root) in
/-- The tables that some key passes. -/
def Reached (t : ℕ) : Prop :=
  ∃ x n, x / fanout ^ (top + 1) = 0 ∧ Path fanout decode mem top root x n t

theorem Path.transfer_back {mem' : ℕ → ℕ → Word} {x n t : ℕ}
    (hsame : ∀ n t, Path fanout decode mem top root x n t → mem' t = mem t)
    (h : Path fanout decode mem' top root x n t) : Path fanout decode mem top root x n t := by
  induction h with
  | root => exact .root
  | down hpath hdec ih =>
      rw [hsame _ _ ih] at hdec
      exact .down ih hdec

theorem Tree.reached_child (hf : 0 < fanout) (htree : Tree fanout decode mem top root place)
    {t n y i next : ℕ} (ht : Reached fanout decode mem top root t) (hplace : place t = some (n, y))
    (hi : i < fanout) (hdec : decode n (mem t i) = .table next) :
    Reached fanout decode mem top root next := by
  obtain ⟨x, n', hx, hpath⟩ := ht
  obtain ⟨rfl, rfl⟩ : n' = n ∧ x / fanout ^ (n' + 1) = y :=
    Prod.mk.inj (Option.some.inj ((hpath.place_eq hf htree hx).symm.trans hplace))
  obtain ⟨k, rfl, -⟩ := htree.child _ _ _ _ _ hplace hi hdec
  obtain ⟨z, hz⟩ : ∃ z, z = (x / fanout ^ (k + 1 + 1) * fanout + i) * fanout ^ (k + 1) := ⟨_, rfl⟩
  have hpos : 0 < fanout ^ (k + 1) := Nat.pow_pos hf
  have hlow : z / fanout ^ (k + 1) = x / fanout ^ (k + 1 + 1) * fanout + i := by
    rw [hz, Nat.mul_div_cancel _ hpos]
  have hhigh : z / fanout ^ (k + 1 + 1) = x / fanout ^ (k + 1 + 1) := by
    rw [Nat.pow_succ fanout (k + 1), ← Nat.div_div_eq_div_mul z, hlow, Nat.mul_comm,
      Nat.mul_add_div hf, Nat.div_eq_of_lt hi, Nat.add_zero, Nat.pow_succ]
  have hdigit : digit fanout (k + 1) z = i := by
    rw [digit, hlow, Nat.mul_comm, Nat.mul_add_mod, Nat.mod_eq_of_lt hi]
  refine ⟨z, k, ?_, .down (hpath.congr hhigh) (by rw [hdigit]; exact hdec)⟩
  rw [div_pow_congr (Nat.succ_le_succ hpath.level_le) hhigh, hx]

theorem Tree.restrict (hf : 0 < fanout) (htree : Tree fanout decode mem top root place) :
    ∃ place', Tree fanout decode mem top root place' ∧
      (∀ t, ¬ Reached fanout decode mem top root t → place' t = none) ∧
      ∀ t p, place' t = some p → place t = some p := by
  classical
  refine ⟨fun t => if Reached fanout decode mem top root t then place t else none, ⟨?_, ?_⟩, ?_, ?_⟩
  · rw [if_pos ⟨0, top, Nat.zero_div _, .root⟩]
    exact htree.root_place
  · intro t n y i next ht hi hdec
    split at ht
    · next hreached =>
        obtain ⟨k, rfl, hnext⟩ := htree.child _ _ _ _ _ ht hi hdec
        refine ⟨k, rfl, ?_⟩
        rw [if_pos (htree.reached_child hf hreached ht hi hdec)]
        exact hnext
    · cases ht
  · intro t ht
    exact if_neg ht
  · intro t p ht
    by_cases hreached : Reached fanout decode mem top root t
    · exact (if_pos hreached).symm.trans ht
    · cases (if_neg hreached).symm.trans ht

theorem Tree.one_parent (hf : 0 < fanout) (htree : Tree fanout decode mem top root place)
    {x x' n n' t t' i i' next : ℕ} (hx : x / fanout ^ (top + 1) = 0)
    (hx' : x' / fanout ^ (top + 1) = 0)
    (ht : Path fanout decode mem top root x n t) (ht' : Path fanout decode mem top root x' n' t')
    (hi : i < fanout) (hi' : i' < fanout) (hdec : decode n (mem t i) = .table next)
    (hdec' : decode n' (mem t' i') = .table next) : n = n' ∧ t = t' ∧ i = i' := by
  obtain ⟨k, rfl, hnext⟩ := htree.child _ _ _ _ _ (ht.place_eq hf htree hx) hi hdec
  obtain ⟨k', rfl, hnext'⟩ := htree.child _ _ _ _ _ (ht'.place_eq hf htree hx') hi' hdec'
  obtain ⟨rfl, hslot⟩ := Prod.mk.inj (Option.some.inj (hnext.symm.trans hnext'))
  have hdigit : i = i' := by
    have hmod := congrArg (· % fanout) hslot
    simp only [Nat.mul_comm _ fanout, Nat.mul_add_mod] at hmod
    rwa [Nat.mod_eq_of_lt hi, Nat.mod_eq_of_lt hi'] at hmod
  subst hdigit
  have hprefix : x' / fanout ^ (k + 1 + 1) = x / fanout ^ (k + 1 + 1) :=
    (Nat.eq_of_mul_eq_mul_right hf (Nat.add_right_cancel hslot)).symm
  exact ⟨rfl, ht'.unique (ht.congr hprefix), rfl⟩

theorem Path.write (hf : 0 < fanout) (htree : Tree fanout decode mem top root place) {x n t : ℕ}
    (hx : x / fanout ^ (top + 1) = 0) (h : Path fanout decode mem top root x n t) {u k y : ℕ}
    (hu : place u = some (k, y)) (hk : k ≤ n) (i : ℕ) (w : Word) :
    Path fanout decode (Radix.write mem u i w) top root x n t := by
  induction h with
  | root => exact .root
  | @down n t next hpath hdec ih =>
      refine .down (ih (by omega)) ?_
      rw [write_of_ne]
      · exact hdec
      · rintro ⟨rfl, -⟩
        have hplace := hpath.place_eq hf htree hx
        rw [hu] at hplace
        have hlevel : k = n + 1 := congrArg Prod.fst (Option.some.inj hplace)
        omega

theorem lookup_write_of_ne (hf : 0 < fanout) (htree : Tree fanout decode mem top root place)
    {t n y i : ℕ} (ht : place t = some (n, y)) (w : Word) {x : ℕ}
    (hne : x / fanout ^ n ≠ y * fanout + i) (k u : ℕ)
    (hu : place u = some (k, x / fanout ^ (k + 1))) :
    lookup fanout decode (write mem t i w) k u x = lookup fanout decode mem k u x := by
  have hsame (k u : ℕ) (hu : place u = some (k, x / fanout ^ (k + 1))) :
      write mem t i w u (digit fanout k x) = mem u (digit fanout k x) := by
    apply write_of_ne
    rintro ⟨rfl, hi⟩
    rw [hu] at ht
    obtain ⟨rfl, rfl⟩ := Prod.mk.inj (Option.some.inj ht)
    rw [← hi, ← div_pow_eq] at hne
    exact hne rfl
  induction k generalizing u with
  | zero => rw [lookup, lookup, hsame 0 u hu]
  | succ k ih =>
      rw [lookup, lookup, hsame (k + 1) u hu]
      cases hdec : decode (k + 1) (mem u (digit fanout (k + 1) x)) with
      | empty => rfl
      | leaf value => rfl
      | table next =>
          obtain ⟨j, hj, hnext⟩ := htree.child _ _ _ _ _ hu (digit_lt hf _ _) hdec
          obtain rfl := Nat.succ.inj hj
          rw [← div_pow_eq] at hnext
          exact ih next hnext

theorem Tree.writeLeaf (hf : 0 < fanout) (htree : Tree fanout decode mem top root place) {x n t : ℕ}
    (hx : x / fanout ^ (top + 1) = 0) (hpath : Path fanout decode mem top root x n t) {w : Word}
    {value : Leaf} (hw : decode n w = .leaf value) :
    Tree fanout decode (write mem t (digit fanout n x) w) top root place ∧
      ∀ z, z / fanout ^ (top + 1) = 0 →
        lookup fanout decode (write mem t (digit fanout n x) w) top root z =
          if z / fanout ^ n = x / fanout ^ n then some (n, value)
          else lookup fanout decode mem top root z := by
  have hplace := hpath.place_eq hf htree hx
  refine ⟨⟨htree.root_place, ?_⟩, ?_⟩
  · intro u k y i next hu hi hdec
    by_cases hslot : u = t ∧ i = digit fanout n x
    · obtain ⟨rfl, rfl⟩ := hslot
      obtain ⟨rfl, rfl⟩ := Prod.mk.inj (Option.some.inj (hplace.symm.trans hu))
      rw [write_self, hw] at hdec
      cases hdec
    · rw [write_of_ne _ _ hslot] at hdec
      exact htree.child u k y i next hu hi hdec
  · intro z hz
    split
    · next hsame =>
        have hpath' := (hpath.congr (div_pow_congr (Nat.le_succ n) hsame)).write hf htree hz hplace
          (Nat.le_refl n) (digit fanout n x) w
        rw [hpath'.lookup]
        cases n <;> rw [lookup, digit_congr hsame, write_self, hw]
    · next hdiff =>
        apply lookup_write_of_ne hf htree hplace w _ top root
        · rw [htree.root_place, hz]
        · rwa [← div_pow_eq]

theorem lookup_blank {f : ℕ} (hblank : ∀ k i, decode k (mem f i) = .empty) (n x : ℕ) :
    lookup fanout decode mem n f x = none := by
  cases n <;> rw [lookup, hblank]

theorem Tree.writeTable (hf : 0 < fanout) (htree : Tree fanout decode mem top root place)
    {x n t : ℕ} (hx : x / fanout ^ (top + 1) = 0)
    (hpath : Path fanout decode mem top root x (n + 1) t)
    (hempty : decode (n + 1) (mem t (digit fanout (n + 1) x)) = .empty) {f : ℕ}
    (hfree : place f = none) (hblank : ∀ k i, decode k (mem f i) = .empty) {w : Word}
    (hw : decode (n + 1) w = .table f) :
    Tree fanout decode (write mem t (digit fanout (n + 1) x) w) top root
        (Function.update place f (some (n, x / fanout ^ (n + 1)))) ∧
      Path fanout decode (write mem t (digit fanout (n + 1) x) w) top root x n f ∧
      ∀ z, z / fanout ^ (top + 1) = 0 →
        lookup fanout decode (write mem t (digit fanout (n + 1) x) w) top root z =
          lookup fanout decode mem top root z := by
  have hplace := hpath.place_eq hf htree hx
  have hft : f ≠ t := by
    rintro rfl
    rw [hfree] at hplace
    cases hplace
  have hblank' : ∀ k i, decode k (write mem t (digit fanout (n + 1) x) w f i) = .empty := by
    intro k i
    rw [write_of_ne _ _ fun h => hft h.1]
    exact hblank k i
  have hpath' : Path fanout decode (write mem t (digit fanout (n + 1) x) w) top root x n f := by
    refine .down (hpath.write hf htree hx hplace (Nat.le_refl _) _ w) ?_
    rw [write_self, hw]
  refine ⟨⟨?_, ?_⟩, hpath', ?_⟩
  · rw [Function.update_of_ne]
    · exact htree.root_place
    · rintro rfl
      rw [htree.root_place] at hfree
      cases hfree
  · intro u k y i next hu hi hdec
    by_cases huf : u = f
    · subst huf
      rw [hblank' k i] at hdec
      cases hdec
    · rw [Function.update_of_ne huf] at hu
      by_cases hslot : u = t ∧ i = digit fanout (n + 1) x
      · obtain ⟨rfl, rfl⟩ := hslot
        obtain ⟨rfl, rfl⟩ := Prod.mk.inj (Option.some.inj (hplace.symm.trans hu))
        rw [write_self, hw] at hdec
        cases hdec
        exact ⟨n, rfl, by rw [Function.update_self, ← div_pow_eq]⟩
      · rw [write_of_ne _ _ hslot] at hdec
        obtain ⟨j, hj, hnext⟩ := htree.child u k y i next hu hi hdec
        refine ⟨j, hj, ?_⟩
        rw [Function.update_of_ne]
        · exact hnext
        · rintro rfl
          rw [hfree] at hnext
          cases hnext
  · intro z hz
    by_cases hsame : z / fanout ^ (n + 1) = x / fanout ^ (n + 1)
    · have hbefore := hpath.congr (div_pow_congr (Nat.le_succ _) hsame)
      have hafter := hpath'.congr hsame
      rw [hafter.lookup, lookup_blank hblank', hbefore.lookup, lookup, digit_congr hsame, hempty]
    · apply lookup_write_of_ne hf htree hplace w _ top root
      · rw [htree.root_place, hz]
      · rwa [← div_pow_eq]

end Radix

end Preon.Framework
