import Preon.Framework.Transition
import Preon.Memory.Translation

/-!
# Any history of calls of `map`

The tables below a root that starts out invalid, after any sequence of calls of `map` that
returned, each with frames of its own from an allocator.  The next call changes the walks that end
in its leaf and no others, and it panics before it has changed anything.
-/

namespace Preon.Memory

open Framework TableMemory

/-! ## Histories -/

/-- The tables that a walk from the root can pass. -/
def InUse (tables : ℕ → ℕ → ℕ) (root t : ℕ) : Prop := Radix.Reached 512 decode tables 3 root t

/-- What an allocator returns: zeroed frames of the 48-bit physical space, none of them in use. -/
structure FreshFrames (tables : ℕ → ℕ → ℕ) (root : ℕ) (frames : List ℕ) : Prop where
  nodup : frames.Nodup
  aligned : ∀ f ∈ frames, f % pageSize = 0
  physical : ∀ f ∈ frames, f < 2 ^ 48
  zeroed : ∀ f ∈ frames, ∀ i, tables f i = 0
  unused : ∀ f ∈ frames, ¬ InUse tables root f

/-- A call of `map` with the frames that its allocator would return, or any change of memory that
is not a table in use. -/
inductive TableEvent
  | map (va pa : ℕ) (target : Level) (attrs : LeafAttrs) (frames : List ℕ)
  | elsewhere

def TableStep (root : ℕ) (tables : ℕ → ℕ → ℕ) : TableEvent → (ℕ → ℕ → ℕ) → Prop
  | .map va pa target attrs frames, tables' => FreshFrames tables root frames ∧
      ∃ supply, TableMemory.map ⟨tables, frames⟩ root va pa target attrs = .ok ⟨tables', supply⟩
  | .elsewhere, tables' => ∀ t, InUse tables root t → tables' t = tables t

def tableSystem (root : ℕ) : System (ℕ → ℕ → ℕ) TableEvent where
  init tables := ∀ i, Entry.isValid (tables root i) = false
  step := TableStep root

/-- The tables form a tree, all but the root have a linear address, and blocks are where they may
be. -/
structure Formed (tables : ℕ → ℕ → ℕ) (root : ℕ) (place : ℕ → Option (ℕ × ℕ)) : Prop where
  tree : Radix.Tree 512 decode tables 3 root place
  unused : ∀ t, ¬ InUse tables root t → place t = none
  linear : ∀ t, place t ≠ none → t = root ∨ Linear t
  blocks : BlockLevels tables place

variable {tables tables' : ℕ → ℕ → ℕ} {root : ℕ} {place : ℕ → Option (ℕ × ℕ)} {frames : List ℕ}

private theorem decode_of_invalid {e : ℕ} (h : Entry.isValid e = false) (n : ℕ) :
    decode n e = .empty := by
  rw [decode, h]
  rfl

theorem eq_root_of_inUse (h : (tableSystem root).init tables) {t : ℕ} (ht : InUse tables root t) :
    t = root := by
  obtain ⟨x, n, -, hpath⟩ := ht
  induction hpath with
  | root => rfl
  | down _ hdec ih =>
      rw [ih, decode_of_invalid (h _)] at hdec
      cases hdec

private theorem formed_of_init (h : (tableSystem root).init tables) :
    ∃ place, Formed tables root place := by
  refine ⟨fun t => if t = root then some (3, 0) else none, ⟨if_pos rfl, ?_⟩, ?_, ?_, ?_⟩
  · intro t n y i next ht hi hdec
    split_ifs at ht with hroot
    subst hroot
    rw [decode_of_invalid (h i)] at hdec
    cases hdec
  · intro t ht
    refine if_neg ?_
    rintro rfl
    exact ht ⟨0, 3, Nat.zero_div _, .root⟩
  · intro t ht
    by_contra hne
    exact ht (if_neg fun hroot => hne (.inl hroot))
  · intro t n y i ht hblock
    obtain rfl : t = root := by
      by_contra hne
      cases (if_neg hne).symm.trans ht
    rw [Entry.isBlock_eq, h i] at hblock
    cases hblock

private theorem formed_of_tree (htree : Radix.Tree 512 decode tables 3 root place)
    (hblocks : BlockLevels tables place)
    (hlinear : ∀ t, InUse tables root t → t = root ∨ Linear t) :
    ∃ place', Formed tables root place' := by
  obtain ⟨place', htree', hunused, hsub⟩ := htree.restrict (by decide)
  refine ⟨place', htree', hunused, ?_, fun t n y i ht => hblocks t n y i (hsub t _ ht)⟩
  intro t ht
  by_contra hne
  exact ht (hunused t fun huse => hne (hlinear t huse))

private theorem Formed.place_ne_none (h : Formed tables root place) {t : ℕ}
    (ht : InUse tables root t) :
    place t ≠ none := by
  obtain ⟨x, n, hx, hpath⟩ := ht
  rw [hpath.place_eq (by decide) h.tree hx]
  nofun

theorem Formed.built (h : Formed tables root place) (hfresh : FreshFrames tables root frames) :
    TableMemory.Built ⟨tables, frames⟩ root place :=
  ⟨h.tree, fun f hf => h.unused f (hfresh.unused f hf), hfresh.zeroed,
    fun f hf => Entry.holds_of_aligned (hfresh.aligned f hf) (hfresh.physical f hf), hfresh.nodup⟩

private theorem Formed.map (h : Formed tables root place) (hfresh : FreshFrames tables root frames)
    {va pa : ℕ} {target : Level} {attrs : LeafAttrs} {st' : TableMemory}
    (hok : TableMemory.map ⟨tables, frames⟩ root va pa target attrs = .ok st') :
    ∃ place', Formed st'.tables root place' := by
  obtain ⟨-, ⟨place', hbuilt, -, -, hjoined, hblocks⟩, -⟩ := (h.built hfresh).map hok
  apply formed_of_tree hbuilt.tree (hblocks h.blocks)
  rintro t ⟨x, n, hx, hpath⟩
  have hplace := hpath.place_eq (by decide) hbuilt.tree hx
  by_cases ht : place t = none
  · exact .inr (hjoined t ht (by rw [hplace]; nofun))
  · exact h.linear t ht

private theorem Formed.elsewhere (h : Formed tables root place)
    (hsame : ∀ t, InUse tables root t → tables' t = tables t) :
    ∃ place', Formed tables' root place' := by
  have hplaced {t : ℕ} {p : ℕ × ℕ} (ht : place t = some p) : tables' t = tables t := by
    apply hsame
    by_contra hnot
    rw [h.unused t hnot] at ht
    cases ht
  have htree : Radix.Tree 512 decode tables' 3 root place := by
    refine ⟨h.tree.root_place, ?_⟩
    intro t n y i next ht hi hdec
    rw [hplaced ht] at hdec
    exact h.tree.child t n y i next ht hi hdec
  have hblocks : BlockLevels tables' place := by
    intro t n y i ht hblock
    rw [hplaced ht] at hblock
    exact h.blocks t n y i ht hblock
  apply formed_of_tree htree hblocks
  rintro t ⟨x, n, hx, hpath⟩
  have hback := hpath.transfer_back fun n t ht => hsame t ⟨x, n, hx, ht⟩
  exact h.linear t (h.place_ne_none ⟨x, n, hx, hback⟩)

theorem formed_of_reachable (h : (tableSystem root).Reachable tables) :
    ∃ place, Formed tables root place := by
  revert h
  apply System.Reachable.invariant
  · exact fun tables h => formed_of_init h
  · rintro tables e tables' ⟨place, hformed⟩ hstep
    cases e with
    | map va pa target attrs frames =>
        obtain ⟨hfresh, supply, hok⟩ := hstep
        exact hformed.map hfresh hok
    | elsewhere => exact hformed.elsewhere hstep

/-! ## The effect of one more call -/

/-- Each table is reached in one way, and hangs in one slot of one table. -/
structure IsTree (tables : ℕ → ℕ → ℕ) (root : ℕ) : Prop where
  one_place : ∀ x x' n n' t, x < 512 ^ 4 → x' < 512 ^ 4 →
    Radix.Path 512 decode tables 3 root x n t → Radix.Path 512 decode tables 3 root x' n' t →
    n = n' ∧ x / 512 ^ (n + 1) = x' / 512 ^ (n' + 1)
  one_parent : ∀ x x' n n' t t' i i' next, x < 512 ^ 4 → x' < 512 ^ 4 →
    Radix.Path 512 decode tables 3 root x n t → Radix.Path 512 decode tables 3 root x' n' t' →
    i < 512 → i' < 512 → decode n (tables t i) = .table next →
      decode n' (tables t' i') = .table next →
    n = n' ∧ t = t' ∧ i = i'

private theorem isTree_of_tree (h : Radix.Tree 512 decode tables 3 root place) :
    IsTree tables root := by
  constructor
  · intro x x' n n' t hx hx' hpath hpath'
    have hplace := hpath.place_eq (by decide) h (Nat.div_eq_of_lt hx)
    have hplace' := hpath'.place_eq (by decide) h (Nat.div_eq_of_lt hx')
    exact Prod.mk.inj (Option.some.inj (hplace.symm.trans hplace'))
  · intro x x' n n' t t' i i' next hx hx' hpath hpath' hi hi' hdec hdec'
    exact h.one_parent (by decide) (Nat.div_eq_of_lt hx) (Nat.div_eq_of_lt hx') hpath hpath' hi hi'
      hdec hdec'

private theorem leafSize_below (target : Level) :
    leafSize target.below = 2 ^ target.indexShift := by
  cases target <;> rfl

private theorem key_div_below (target : Level) (va : ℕ) :
    key va / 512 ^ target.below = va % 2 ^ 48 / 2 ^ target.indexShift := by
  have hsize : 2 ^ target.indexShift = pageSize * 512 ^ target.below := by cases target <;> rfl
  rw [key, Nat.div_div_eq_div_mul, hsize]

/-- What a call that returned has done. -/
structure MapsExactly (tables tables' : ℕ → ℕ → ℕ) (root va pa : ℕ) (target : Level)
    (attrs : LeafAttrs) : Prop where
  inside : ∀ va', va' % 2 ^ 48 / 2 ^ target.indexShift = va % 2 ^ 48 / 2 ^ target.indexShift →
    walk tables' root va' = some ⟨pa + va' % 2 ^ target.indexShift, attrs.bits⟩
  outside : ∀ va', va' % 2 ^ 48 / 2 ^ target.indexShift ≠ va % 2 ^ 48 / 2 ^ target.indexShift →
    walk tables' root va' = walk tables root va'
  tree : IsTree tables' root

theorem mapsExactly_of_reachable {va pa : ℕ} {target : Level} {attrs : LeafAttrs}
    {st' : TableMemory}
    (h : (tableSystem root).Reachable tables) (hfresh : FreshFrames tables root frames)
    (hpa : pa < 2 ^ 48) (haligned : pa % 2 ^ target.indexShift = 0)
    (hok : TableMemory.map ⟨tables, frames⟩ root va pa target attrs = .ok st') :
    MapsExactly tables st'.tables root va pa target attrs := by
  obtain ⟨place, hformed⟩ := formed_of_reachable h
  obtain ⟨-, ⟨place', hbuilt, -⟩, e, hout, hattrs, hleafAt⟩ := (hformed.built hfresh).map hok
  have hdvd : leafSize target.below ∣ pa := by
    rw [leafSize_below]
    exact Nat.dvd_of_mod_eq_zero haligned
  have hpage : pageSize ∣ pa := Dvd.dvd.trans (by cases target <;> decide) hdvd
  rw [Entry.holds_of_aligned (Nat.mod_eq_zero_of_dvd hpage) hpa] at hout
  refine ⟨?_, ?_, isTree_of_tree hbuilt.tree⟩
  · intro va' hsame
    rw [walk_of_leafAt (hleafAt va'), key_div_below, key_div_below, if_pos hsame,
      leafMapping_of_dvd va' hout hdvd, hattrs, leafSize_below]
  · intro va' hdiff
    rw [walk_of_leafAt (hleafAt va'), key_div_below, key_div_below, if_neg hdiff]

theorem FreshFrames.after {va pa : ℕ} {target : Level} {attrs : LeafAttrs} {st' : TableMemory}
    (h : (tableSystem root).Reachable tables) (hfresh : FreshFrames tables root frames)
    (hok : TableMemory.map ⟨tables, frames⟩ root va pa target attrs = .ok st') :
    FreshFrames st'.tables root st'.supply := by
  obtain ⟨place, hformed⟩ := formed_of_reachable h
  obtain ⟨-, ⟨place', hbuilt, hsupply, -⟩, -⟩ := (hformed.built hfresh).map hok
  refine ⟨hbuilt.nodup, fun f hf => hfresh.aligned f (hsupply.subset hf),
    fun f hf => hfresh.physical f (hsupply.subset hf), hbuilt.blank, ?_⟩
  intro f hf huse
  obtain ⟨x, n, hx, hpath⟩ := huse
  have hplace := hpath.place_eq (by decide) hbuilt.tree hx
  rw [hbuilt.unused f hf] at hplace
  cases hplace

theorem freshFrames_blank (hnodup : frames.Nodup)
    (hframes : ∀ f ∈ frames, f % pageSize = 0 ∧ f < 2 ^ 48 ∧ f ≠ 0) :
    FreshFrames (fun _ _ => 0) 0 frames where
  nodup := hnodup
  aligned f hf := (hframes f hf).1
  physical f hf := (hframes f hf).2.1
  zeroed _ _ _ := rfl
  unused f hf huse := (hframes f hf).2.2 (eq_root_of_inUse (fun _ => rfl) huse)

def sampleAttrs : LeafAttrs := ⟨.normal, .kernelReadWrite, .innerShareable, .none⟩

theorem firstFrames_fresh : FreshFrames (fun _ _ => 0) 0 [0x1000, 0x2000, 0x3000] :=
  freshFrames_blank (by decide) (by decide)

theorem reachable_of_first {va pa : ℕ} {target : Level} {attrs : LeafAttrs} {st : TableMemory}
    (hok : TableMemory.map ⟨fun _ _ => 0, [0x1000, 0x2000, 0x3000]⟩ 0 va pa target attrs = .ok st) :
    (tableSystem 0).Reachable st.tables ∧ FreshFrames st.tables 0 st.supply := by
  have hblank : (tableSystem 0).Reachable fun _ _ => 0 := .init fun _ => rfl
  exact ⟨hblank.step (e := .map ..) ⟨firstFrames_fresh, st.supply, hok⟩,
    firstFrames_fresh.after hblank hok⟩

theorem highFrame_fresh : FreshFrames (fun _ _ => 0) 0 [2 ^ 47] :=
  freshFrames_blank (by decide) (by decide)

/-! ## Panics -/

/-- A computation on the tables that keeps the memory as it is at a panic. -/
abbrev TableM := ExceptT Panic (StateM TableMemory)

def exhausted : Panic := .message "bootstrap frame allocator exhausted (32 pages)"

namespace TableM

def allocPage : TableM ℕ := do
  match (← get).supply with
  | [] => throw exhausted
  | frame :: rest =>
      modify fun st => { st with supply := rest }
      return frame

def tableEntry (current slot : ℕ) : TableM ℕ := do
  let entry := (← get).tables current slot
  if Entry.isValid entry then
    assertMsg (Entry.isTableOrPage entry = true) "cannot descend through an existing block entry"
    return entry
  else
    let frame ← allocPage
    modify fun st => st.write current slot (Entry.table frame)
    return Entry.table frame

def stepDown (va current : ℕ) (level : Level) : TableM ℕ := do
  let entry ← tableEntry current (level.indexIn va)
  fromPhys (Entry.outputAddr entry)

/-- `PageTable::map`, one access to memory or to the allocator after the other. -/
def map (root va pa : ℕ) (target : Level) (attrs : LeafAttrs) : TableM Unit := do
  assertMsg (target ≠ .l0) "leaf entries cannot live at L0"
  let leaf ← leafEntry pa target attrs
  let current ← target.above.foldlM (stepDown va) root
  modify fun st => st.write current (target.indexIn va) leaf

/-- The result and the memory after a computation. -/
def after {α : Type} (x : TableM α) (st : TableMemory) : Outcome α × TableMemory := (x.run).run st

private theorem after_bind {α β : Type} (x : TableM α) (f : α → TableM β) (st : TableMemory) :
    after (x >>= f) st = match after x st with
      | (.ok a, st') => after (f a) st'
      | (.error e, st') => (.error e, st') := by
  change (ExceptT.bindCont f (after x st).1).run (after x st).2 = _
  obtain ⟨result, st'⟩ := after x st
  cases result <;> rfl

private theorem after_lift {α : Type} (x : Outcome α) (st : TableMemory) :
    after (liftM x) st = (x, st) := rfl

private theorem after_allocPage (st : TableMemory) : after allocPage st = match st.allocPage with
      | .ok (frame, st') => (.ok frame, st')
      | .error e => (.error e, st) := by
  obtain ⟨tables, supply⟩ := st
  cases supply <;> rfl

private theorem after_tableEntry (st : TableMemory) (current slot : ℕ) :
    after (tableEntry current slot) st = match st.tableEntry current slot with
      | .ok (entry, st') => (.ok entry, st')
      | .error e => (.error e, st) := by
  rw [tableEntry, after_bind]
  change after (if Entry.isValid (st.tables current slot) then _ else _) st = _
  rw [TableMemory.tableEntry]
  split
  · rw [after_bind, after_lift]
    cases assertMsg (Entry.isTableOrPage (st.tables current slot) = true)
      "cannot descend through an existing block entry" <;> rfl
  · rw [after_bind, after_allocPage]
    cases st.allocPage <;> rfl

private theorem after_stepDown (va current : ℕ) (level : Level) (st : TableMemory) :
    after (stepDown va current level) st = match st.tableEntry current (level.indexIn va) with
      | .ok (entry, st') => (fromPhys (Entry.outputAddr entry), st')
      | .error e => (.error e, st) := by
  rw [stepDown, after_bind, after_tableEntry]
  cases st.tableEntry current (level.indexIn va) <;> rfl

/-- Where nothing panics the two models of the descent agree. -/
theorem after_descend (va : ℕ) (levels : List Level) (current : ℕ) (st : TableMemory) :
    levels.foldlM (TableMemory.stepDown va) (current, st) =
      match after (levels.foldlM (stepDown va) current) st with
        | (.ok next, st') => .ok (next, st')
        | (.error e, _) => .error e := by
  induction levels generalizing current st with
  | nil => rfl
  | cons level levels ih =>
      rw [List.foldlM_cons, List.foldlM_cons, after_bind, after_stepDown, TableMemory.stepDown]
      cases st.tableEntry current (level.indexIn va) with
      | error e => rfl
      | ok result =>
          obtain ⟨entry, st'⟩ := result
          simp only [ok_bind]
          cases fromPhys (Entry.outputAddr entry) with
          | error e => rfl
          | ok next => exact ih next st'

theorem map_eq_after (st : TableMemory) (root va pa : ℕ) (target : Level) (attrs : LeafAttrs) :
    st.map root va pa target attrs = match after (map root va pa target attrs) st with
      | (.ok (), st') => .ok st'
      | (.error e, _) => .error e := by
  rw [map, TableMemory.map, after_bind, after_lift]
  cases assertMsg (target ≠ .l0) "leaf entries cannot live at L0" with
  | error e => rfl
  | ok =>
      simp only [ok_bind]
      rw [after_bind, after_lift]
      cases leafEntry pa target attrs with
      | error e => rfl
      | ok leaf =>
          simp only [ok_bind]
          rw [after_bind, after_descend]
          obtain ⟨result, st'⟩ := after (target.above.foldlM (stepDown va) root) st
          cases result <;> rfl

/-- From a fresh table on, only an empty allocator can stop the descent. -/
theorem descend_blank {va t : ℕ} {st : TableMemory} {e : Panic} (levels : List Level)
    (hblank : ∀ i, st.tables t i = 0) (ht : t ∉ st.supply) (hnodup : st.supply.Nodup)
    (hzero : ∀ f ∈ st.supply, ∀ i, st.tables f i = 0)
    (hframes : ∀ f ∈ st.supply, Entry.Holds f ∧ Linear f)
    (herror : (after (levels.foldlM (stepDown va) t) st).1 = .error e) : e = exhausted := by
  induction levels generalizing t st with
  | nil => cases herror
  | cons level levels ih =>
      rw [List.foldlM_cons, after_bind, after_stepDown, TableMemory.tableEntry, hblank,
        if_neg (by decide)] at herror
      cases hsupply : st.supply with
      | nil =>
          rw [TableMemory.allocPage, hsupply] at herror
          exact (Except.error.inj herror).symm
      | cons frame rest =>
          rw [hsupply, List.forall_mem_cons] at hzero hframes
          rw [hsupply, List.nodup_cons] at hnodup
          rw [hsupply, List.mem_cons, not_or] at ht
          have hother {f : ℕ} (hf : f ≠ t) (i : ℕ) :
              Radix.write st.tables t (level.indexIn va) (Entry.table frame) f i = st.tables f i :=
            Radix.write_of_ne _ _ fun h => hf h.1
          rw [TableMemory.allocPage, hsupply] at herror
          simp only [ok_bind, pure, Except.pure, (decode_table (n := 0) hframes.1.1).2,
            fromPhys_of_linear hframes.1.2] at herror
          refine ih ?_ hnodup.1 hnodup.2 ?_ hframes.2 herror
          · intro i
            exact (hother (Ne.symm ht.1) i).trans (hzero.1 i)
          · intro f hf i
            refine (hother ?_ i).trans (hzero.2 f hf i)
            rintro rfl
            exact ht.2 hf

end TableM

/-- The walk of `va` meets a valid block descriptor with more than `m` levels below it. -/
def MeetsBlock (tables : ℕ → ℕ → ℕ) (root va m : ℕ) : Prop :=
  ∃ n t, m < n ∧ Radix.Path 512 decode tables 3 root (key va) n t ∧
    Entry.isBlock (tables t (Radix.digit 512 n (key va))) = true

namespace TableM

variable {st : TableMemory} {va : ℕ}

def MeetsBlockBelow (st : TableMemory) (root va m n : ℕ) : Prop :=
  ∃ k t, m < k ∧ k ≤ n ∧ st.At root va k t ∧
    Entry.isBlock (st.tables t (Radix.digit 512 k (key va))) = true

private theorem descend_le {levels : List Level} {n m : ℕ} (h : Descend levels n m) : m ≤ n := by
  induction levels generalizing n with
  | nil => exact Nat.le_of_eq h.symm
  | cons level levels ih => exact (ih h.2.2).trans (Nat.sub_le n 1)

/-- Below an invalid entry the walk meets nothing. -/
theorem not_meetsBlockBelow {m n t : ℕ} (hn : n ≤ 3) (hat : st.At root va n t)
    (hinvalid : Entry.isValid (st.tables t (Radix.digit 512 n (key va))) = false) :
    ¬ MeetsBlockBelow st root va m n := by
  rintro ⟨k, u, -, hle, hu, hblock⟩
  rcases Nat.lt_or_ge k n with hlt | hge
  · obtain ⟨v, next, hv, hdec⟩ := hu.through hlt hn
    rw [hat.unique hv, decode_of_invalid hinvalid] at hdec
    cases hdec
  · obtain rfl : k = n := Nat.le_antisymm hle hge
    rw [hat.unique hu, Entry.isBlock_eq, hinvalid] at hblock
    cases hblock

/-- The descent along tables that exist either meets a block, and then nothing has changed, or gets
through. -/
theorem descend_cases (hbuilt : st.Built root place)
    (hplaced : ∀ t, place t ≠ none → t = root ∨ Linear t)
    (hframes : ∀ f ∈ st.supply, Linear f) {levels : List Level} {n m t : ℕ} (hn : n ≤ 3)
    (hlevels : Descend levels n m) (hat : st.At root va n t)
    (hreturns : (after (levels.foldlM (stepDown va) t) st).1 ≠ .error exhausted) :
    (∃ e, after (levels.foldlM (stepDown va) t) st = (.error e, st) ∧
        MeetsBlockBelow st root va m n) ∨
      ∃ u st', after (levels.foldlM (stepDown va) t) st = (.ok u, st') ∧
        ¬ MeetsBlockBelow st root va m n := by
  induction levels generalizing n t with
  | nil =>
      obtain rfl : n = m := hlevels
      refine .inr ⟨t, st, rfl, ?_⟩
      rintro ⟨k, u, hlt, hle, -⟩
      omega
  | cons level levels ih =>
      obtain ⟨hlevel, hpos, hlevels⟩ := hlevels
      obtain ⟨k, rfl⟩ := Nat.exists_eq_add_of_le' hpos
      -- whatever is met at this level is met in the table where the descent stands
      have hhere {u : ℕ} (hu : st.At root va (k + 1) u) : u = t := hat.unique hu
      rw [List.foldlM_cons, after_bind, after_stepDown, Level.indexIn_eq, hlevel,
        TableMemory.tableEntry] at hreturns ⊢
      generalize he : st.tables t (Radix.digit 512 (k + 1) (key va)) = e at hreturns ⊢
      by_cases hvalid : Entry.isValid e = true
      · rw [if_pos hvalid] at hreturns ⊢
        by_cases htable : Entry.isTableOrPage e = true
        · have hdown : st.At root va k (Entry.outputAddr e) := by
            refine .down hat ?_
            rw [he]
            simp [decode, hvalid, htable]
          have hlinear : Linear (Entry.outputAddr e) := by
            have hplace := hdown.place_eq (by decide) hbuilt.tree (key_lt va)
            rcases hplaced _ (by rw [hplace]; simp) with hroot | hlinear
            · rw [hroot, hbuilt.tree.root_place] at hplace
              have := congrArg Prod.fst (Option.some.inj hplace)
              simp only at this
              omega
            · exact hlinear
          rw [assertMsg_true htable] at hreturns ⊢
          simp only [ok_bind, pure, Except.pure, fromPhys_of_linear hlinear] at hreturns ⊢
          have hmeets : MeetsBlockBelow st root va m (k + 1) ↔ MeetsBlockBelow st root va m k := by
            constructor
            · rintro ⟨j, u, hlt, hle, hu, hblock⟩
              rcases Nat.lt_or_ge k j with hj | hj
              · obtain rfl : j = k + 1 := by omega
                rw [hhere hu, he, Entry.isBlock_eq, htable] at hblock
                simp at hblock
              · exact ⟨j, u, hlt, hj, hu, hblock⟩
            · rintro ⟨j, u, hlt, hle, hu, hblock⟩
              exact ⟨j, u, hlt, by omega, hu, hblock⟩
          rw [hmeets]
          exact ih (by omega) hlevels hdown hreturns
        · refine .inl ⟨.message "cannot descend through an existing block entry", ?_, k + 1, t, ?_,
            le_refl _, hat, ?_⟩
          · rw [assertMsg, if_neg htable]
            rfl
          · exact Nat.lt_succ_of_le (descend_le hlevels)
          · rw [he, Entry.isBlock_eq, hvalid]
            simpa using htable
      · rw [if_neg hvalid] at hreturns ⊢
        cases hsupply : st.supply with
        | nil =>
            rw [TableMemory.allocPage, hsupply] at hreturns
            exact absurd rfl hreturns
        | cons frame rest =>
            have hinvalid :
                Entry.isValid (st.tables t (Radix.digit 512 (k + 1) (key va))) = false := by
              rw [he]
              exact Bool.not_eq_true _ ▸ hvalid
            have hmem : frame ∈ st.supply := by simp [hsupply]
            have hrest {f : ℕ} (hf : f ∈ rest) : f ∈ st.supply := by simp [hsupply, hf]
            have hnodup := hbuilt.nodup
            rw [hsupply, List.nodup_cons] at hnodup
            have hplace := hat.place_eq (by decide) hbuilt.tree (key_lt va)
            have hother {f : ℕ} (hf : f ∈ st.supply) (i : ℕ) : Radix.write st.tables t
                (Radix.digit 512 (k + 1) (key va)) (Entry.table frame) f i = 0 := by
              rw [Radix.write_of_ne, hbuilt.blank f hf]
              rintro ⟨rfl, -⟩
              rw [hbuilt.unused f hf] at hplace
              cases hplace
            rw [TableMemory.allocPage, hsupply] at hreturns ⊢
            simp only [ok_bind, pure, Except.pure,
              (decode_table (n := 0) (hbuilt.frames frame hmem)).2,
              fromPhys_of_linear (hframes frame hmem)] at hreturns ⊢
            generalize hafter : after (levels.foldlM (stepDown va) frame) _ = run at hreturns ⊢
            obtain ⟨result, st'⟩ := run
            cases result with
            | ok u => exact .inr ⟨u, st', rfl, not_meetsBlockBelow hn hat hinvalid⟩
            | error e' =>
                refine absurd (congrArg Except.error ?_) hreturns
                exact descend_blank levels (hother hmem) hnodup.1 hnodup.2
                  (fun f hf => hother (hrest hf))
                  (fun f hf => ⟨hbuilt.frames f (hrest hf), hframes f (hrest hf)⟩)
                  (congrArg Prod.fst hafter)

private theorem after_map {pa leaf : ℕ} {target : Level} {attrs : LeafAttrs}
    (htarget : target ≠ .l0)
    (hleaf : leafEntry pa target attrs = .ok leaf) (st : TableMemory) :
    after (map root va pa target attrs) st =
      match after (target.above.foldlM (stepDown va) root) st with
        | (.ok current, st') => (.ok (), st'.write current (target.indexIn va) leaf)
        | (.error e, st') => (.error e, st') := by
  rw [map, after_bind, after_lift, assertMsg_true htarget]
  simp only
  rw [after_bind, after_lift, hleaf]
  simp only
  rw [after_bind]
  obtain ⟨result, st'⟩ := after (target.above.foldlM (stepDown va) root) st
  cases result <;> rfl

/-- A call panics exactly at the top level and under a block, and then nothing has changed. -/
structure PanicsCleanly (st : TableMemory) (root va pa : ℕ) (target : Level) (attrs : LeafAttrs) :
    Prop where
  panics_iff : (∃ e, (after (map root va pa target attrs) st).1 = .error e) ↔
    target = .l0 ∨ MeetsBlock st.tables root va target.below
  unchanged : (∃ e, (after (map root va pa target attrs) st).1 = .error e) →
    (after (map root va pa target attrs) st).2 = st

private theorem panicsCleanly_of_run {pa : ℕ} {target : Level} {attrs : LeafAttrs} {e : Panic}
    (hrun : after (map root va pa target attrs) st = (.error e, st))
    (hwhy : target = .l0 ∨ MeetsBlock st.tables root va target.below) :
    PanicsCleanly st root va pa target attrs :=
  ⟨⟨fun _ => hwhy, fun _ => ⟨e, by rw [hrun]⟩⟩, fun _ => by rw [hrun]⟩

theorem panicsCleanly (hbuilt : st.Built root place)
    (hplaced : ∀ t, place t ≠ none → t = root ∨ Linear t) (hframes : ∀ f ∈ st.supply, Linear f)
    {pa : ℕ} {target : Level} {attrs : LeafAttrs}
    (hreturns : (after (map root va pa target attrs) st).1 ≠ .error exhausted) :
    PanicsCleanly st root va pa target attrs := by
  by_cases htarget : target = .l0
  · subst htarget
    exact panicsCleanly_of_run rfl (.inl rfl)
  · obtain ⟨leaf, hleaf, -⟩ := leafEntry_eq htarget pa attrs
    have hrun : after (map root va pa target attrs) st = _ := after_map htarget hleaf st
    have hmeets : MeetsBlockBelow st root va target.below 3 ↔
        MeetsBlock st.tables root va target.below := by
      constructor
      · rintro ⟨k, t, hlt, -, hat, hblock⟩
        exact ⟨k, t, hlt, hat, hblock⟩
      · rintro ⟨k, t, hlt, hat, hblock⟩
        exact ⟨k, t, hlt, hat.level_le, hat, hblock⟩
    have hdescend : (after (target.above.foldlM (stepDown va) root) st).1 ≠ .error exhausted := by
      intro herror
      rw [hrun] at hreturns
      generalize after (target.above.foldlM (stepDown va) root) st = run at hreturns herror
      obtain ⟨result, st'⟩ := run
      obtain rfl : result = .error exhausted := herror
      exact hreturns rfl
    rcases descend_cases hbuilt hplaced hframes (le_refl 3)
      (above_descend target) .root hdescend with
      ⟨e, hafter, hblock⟩ | ⟨u, st', hafter, hclear⟩
    · rw [hafter] at hrun
      exact panicsCleanly_of_run hrun (.inr (hmeets.mp hblock))
    · rw [hafter] at hrun
      have hno : ¬ ∃ e, (after (map root va pa target attrs) st).1 = .error e := by
        rw [hrun]
        rintro ⟨e, he⟩
        cases he
      refine ⟨⟨fun he => absurd he hno, ?_⟩, fun he => absurd he hno⟩
      rintro (hl0 | hblock)
      · exact absurd hl0 htarget
      · exact absurd (hmeets.mpr hblock) hclear

/-- After any history of calls one more call, with frames that `map` can reach, panics cleanly. -/
theorem map_atomic {pa : ℕ} {target : Level} {attrs : LeafAttrs}
    (h : (tableSystem root).Reachable tables) (hfresh : FreshFrames tables root frames)
    (hlinear : ∀ f ∈ frames, f < 2 ^ 47)
    (hreturns : (after (map root va pa target attrs) ⟨tables, frames⟩).1 ≠ .error exhausted) :
    PanicsCleanly ⟨tables, frames⟩ root va pa target attrs := by
  obtain ⟨place, hformed⟩ := formed_of_reachable h
  exact panicsCleanly (hformed.built hfresh) hformed.linear hlinear hreturns

theorem map_atomic_underBlock : ∃ tables frames,
    (tableSystem 0).Reachable tables ∧
      MeetsBlock tables 0 0xFFFF800040001000 Level.l3.below ∧
      after (map 0 0xFFFF800040001000 0x7000 .l3 sampleAttrs) ⟨tables, frames⟩ =
        (.error (.message "cannot descend through an existing block entry"), ⟨tables, frames⟩) ∧
      PanicsCleanly ⟨tables, frames⟩ 0 0xFFFF800040001000 0x7000 .l3 sampleAttrs := by
  have hrun : ∃ st, TableMemory.map ⟨fun _ _ => 0, [0x1000, 0x2000, 0x3000]⟩ 0 0xFFFF800040000000
        0x40000000 .l2 sampleAttrs = .ok st ∧ st.supply = [0x3000] ∧
      after (map 0 0xFFFF800040001000 0x7000 .l3 sampleAttrs) st =
        (.error (.message "cannot descend through an existing block entry"), st) :=
    ⟨_, rfl, rfl, rfl⟩
  obtain ⟨st, hfirst, hsupply, hpanic⟩ := hrun
  obtain ⟨hreach, hfresh⟩ := reachable_of_first hfirst
  have hother : Panic.message "cannot descend through an existing block entry" ≠ exhausted := by
    decide
  have hclean := map_atomic hreach hfresh
    (by rw [hsupply]; decide) (by rw [hpanic]; exact fun h => hother (Except.error.inj h))
  refine ⟨st.tables, st.supply, hreach, ?_, hpanic, hclean⟩
  rcases hclean.panics_iff.mp ⟨_, congrArg Prod.fst hpanic⟩ with htop | hmeets
  · cases htop
  · exact hmeets

/-- A frame without a linear address: the descriptor is installed before `map` panics. -/
theorem map_leaks_highFrame :
    FreshFrames (fun _ _ => 0) 0 [2 ^ 47] ∧
      (after (map 0 0xFFFF800012345678 0x40000000 .l3 sampleAttrs) ⟨fun _ _ => 0, [2 ^ 47]⟩).1 =
          .error .arithmeticOverflow ∧
      ¬ MeetsBlock (fun _ _ => 0) 0 0xFFFF800012345678 Level.l3.below ∧
      (after (map 0 0xFFFF800012345678 0x40000000 .l3 sampleAttrs)
        ⟨fun _ _ => 0, [2 ^ 47]⟩).2.supply = [] ∧
      (after (map 0 0xFFFF800012345678 0x40000000 .l3 sampleAttrs)
        ⟨fun _ _ => 0, [2 ^ 47]⟩).2.tables 0 256 =
          Entry.table (2 ^ 47) := by
  refine ⟨highFrame_fresh, rfl, ?_, rfl, rfl⟩
  rintro ⟨n, t, -, -, hblock⟩
  change Entry.isBlock 0 = true at hblock
  exact absurd hblock (by decide)

end TableM

end Preon.Memory
