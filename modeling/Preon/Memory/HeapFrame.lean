import Preon.Memory.HeapMachine

/-!
# Critical sections of the global allocator side by side with other steps

What a CPU still has to do under the lock of the slab allocator reads and writes list heads and the
link words of objects that nobody else may touch.  So it comes to the same whether another CPU
changes the buddy allocator or an owner writes to its memory before or after it.
-/

namespace Preon.Memory

open Framework

/-- A change of memory that leaves the link word of an object alone. -/
structure Spares (f : ByteMemory → ByteMemory) (o : ℕ) : Prop where
  word : ∀ mem, ∀ i < 8, f mem (o + i) = mem (o + i)
  commutes : ∀ mem v, f (write64 mem o v) = write64 (f mem) o v

theorem spares_id (o : ℕ) : Spares id o := ⟨fun _ _ _ => rfl, fun _ _ => rfl⟩

theorem spares_writeBytes {a o : ℕ} {bytes : List UInt8} (h : Clear a bytes.length o 8) :
    Spares (fun mem => writeBytes mem a bytes) o := by
  constructor
  · intro mem i hi
    exact writeBytes_of_clear mem h hi
  · intro mem v
    funext x
    simp only [Clear] at h
    by_cases ha : a ≤ x ∧ x < a + bytes.length
    · have ho : ¬ (o ≤ x ∧ x < o + 8) := by omega
      simp only [writeBytes, write64, if_pos ha, if_neg ho]
    · simp only [writeBytes, write64, if_neg ha]

private theorem paToLinearVa_eq {pa va : ℕ} (h : paToLinearVa pa = .ok va) :
    va = pa + kernelLinearBase := by
  obtain ⟨-, -, h⟩ := bind_eq_ok.mp h
  exact checkedAdd_eq h

namespace Heap

open Slab

def edit (h : Heap) (buddy : Option BuddyAllocator) (f : ByteMemory → ByteMemory) : Heap :=
  ⟨h.freeLists, buddy, f h.memory⟩

private theorem edit_self (h : Heap) : h.edit h.buddy id = h := rfl

variable {h h' : Heap} {buddy : Option BuddyAllocator} {f : ByteMemory → ByteMemory} {idx : ℕ}
  {layout : AllocLayout} {t : Option HeapEvent}

private theorem push_edit {ptr : ℕ} (hf : Spares f ptr) (hpush : h.push idx ptr = .ok h') :
    (h.edit buddy f).push idx ptr = .ok (h'.edit buddy f) := by
  obtain ⟨head, hhead, hpush⟩ := bind_eq_ok.mp hpush
  obtain ⟨lists, hlists, hpush⟩ := bind_eq_ok.mp hpush
  cases hpush
  rw [push, edit, hhead, ok_bind, hlists, ok_bind, ← hf.commutes]
  rfl

private theorem pop_edit {result : Option ℕ} (hf : ∀ node ∈ result, Spares f node)
    (hpop : h.pop idx = .ok (result, h')) :
    (h.edit buddy f).pop idx = .ok (result, h'.edit buddy f) := by
  obtain ⟨head, hhead, hpop⟩ := bind_eq_ok.mp hpop
  cases head with
  | none =>
      cases hpop
      rw [pop, edit, hhead]
      rfl
  | some node =>
      obtain ⟨lists, hlists, hpop⟩ := bind_eq_ok.mp hpop
      cases hpop
      have hnext : readNext (f h.memory) node = readNext h.memory node := by
        rw [readNext, readNext, read64_congr ((hf node rfl).word h.memory)]
      rw [← hnext] at hlists
      rw [pop, edit, hhead, ok_bind]
      exact bind_eq_ok.mpr ⟨lists, hlists, rfl⟩

private theorem carve_edit {base size count k : ℕ}
    (hf : ∀ o ∈ objectsFrom base size k count, Spares f o)
    (hcarve : carve idx base size count k h = .ok h') :
    carve idx base size count k (h.edit buddy f) = .ok (h'.edit buddy f) := by
  induction count generalizing h k with
  | zero =>
      cases hcarve
      rfl
  | succ count ih =>
      rw [objectsFrom_succ, List.forall_mem_cons] at hf
      obtain ⟨offset, hoffset, hcarve⟩ := bind_eq_ok.mp hcarve
      obtain ⟨ptr, hptr, hcarve⟩ := bind_eq_ok.mp hcarve
      obtain ⟨h₁, hpush, hcarve⟩ := bind_eq_ok.mp hcarve
      have hobject : ptr = base + k * size := by
        rw [checkedAdd_eq hptr, checkedMul_eq hoffset]
      rw [← hobject] at hf
      rw [carve, hoffset, ok_bind, hptr, ok_bind, push_edit hf.1 hpush, ok_bind]
      exact ih hf.2 hcarve

private theorem popFor_edit (hf : ∀ node, t = some (.alloc layout (some node)) → Spares f node)
    (hpop : h.popFor layout idx = .ok (t, h')) :
    (h.edit buddy f).popFor layout idx = .ok (t, h'.edit buddy f) := by
  obtain ⟨⟨result, h₁⟩, hpop, heq⟩ := bind_eq_ok.mp hpop
  cases heq
  rw [popFor, pop_edit _ hpop]
  · rfl
  · intro node hnode
    exact hf node (by rw [hnode])

private theorem carveFor_edit {base k : ℕ} (hidx : idx < nrClasses)
    (hobjects : ∀ o ∈ objectsFrom base (classSize idx) k (pageSize / classSize idx - k), Spares f o)
    (hf : ∀ node, t = some (.alloc layout (some node)) → Spares f node)
    (hcarve : h.carveFor layout idx base k = .ok (t, h')) :
    (h.edit buddy f).carveFor layout idx base k = .ok (t, h'.edit buddy f) := by
  rw [carveFor, index_classes hidx, ok_bind, objectsPerPage_ok hidx, ok_bind] at hcarve ⊢
  obtain ⟨h₁, hcarve, hpop⟩ := bind_eq_ok.mp hcarve
  rw [carve_edit hobjects hcarve, ok_bind]
  exact popFor_edit hf hpop

end Heap

namespace BuddyUse

open HeapRun

/-- Inside `refill`, and so under the lock of the slab allocator. -/
def refills : BuddyUse → Bool
  | .refill _ _ => true
  | _ => false

/-- Not a call of another user. -/
def fromSlab : BuddyUse → Bool
  | .allocPages _ | .freePages _ _ => false
  | _ => true

/-- The layouts go where they belong. -/
def Fits : BuddyUse → Prop
  | .refill layout idx => classOf layout = some idx
  | .largeAlloc layout => classOf layout = none
  | .largeDealloc ptr layout pa => classOf layout = none ∧ linearVaToPa ptr = .ok pa
  | _ => True

/-- A refill starts from an empty list. -/
def Starts (h : Heap) : BuddyUse → Prop
  | .refill _ idx => index h.freeLists idx = .ok none
  | _ => True

end BuddyUse

namespace HeapPc

open Slab HeapRun Heap

def slabHeld : HeapPc → Bool
  | look _ _ | popHead _ _ | popNext _ _ _ | popStore _ _ _ _ | carve _ _ _ _ | carveStore _ _ _ _ _
  | pushNext _ _ _ | pushStore _ _ _ | unlock _ => true
  | getBuddy u | lockBuddy u | readBuddy u | storeBuddy u _ | unlockBuddy u _ => u.refills
  | _ => false

def buddyHeld : HeapPc → Bool
  | readBuddy _ | storeBuddy _ _ | unlockBuddy _ _ => true
  | _ => false

def op : HeapPc → Option HeapOp
  | idle | panicked => none
  | lockAlloc layout _ | look layout _ | popHead layout _ | popNext layout _ _ |
    popStore layout _ _ _
  | carve layout _ _ _ | carveStore layout _ _ _ _ => some (.alloc layout)
  | lockDealloc ptr layout _ | pushNext ptr layout _ | pushStore ptr layout _ =>
    some (.dealloc ptr layout)
  | getBuddy u | lockBuddy u | readBuddy u | storeBuddy u _ | unlockBuddy u _ => some u.op
  | unlock e | ret e => e.op

/-- What a CPU knows at each step. -/
def Knows (h : Heap) : HeapPc → Prop
  | lockAlloc layout idx | look layout idx | popHead layout idx | popNext layout idx _
  | popStore layout idx _ _ | carve layout idx _ _ | carveStore layout idx _ _ _ =>
    classOf layout = some idx
  | lockDealloc ptr layout idx | pushNext ptr layout idx | pushStore ptr layout idx =>
      classOf layout = some idx ∧ ptr ≠ 0
  | getBuddy u => u.Fits ∧ u.Starts h ∧ u.fromSlab = true
  | lockBuddy u | readBuddy u => u.Fits ∧ u.Starts h ∧ h.buddy.isSome = true
  | storeBuddy u s => u.Fits ∧ u.Starts h ∧ h.buddy = some s
  | unlockBuddy u _ => u.Fits ∧ h.buddy.isSome = true
  | _ => True

/-- The objects whose links are still to be written. -/
def footprint : HeapPc → List ℕ
  | carve _ idx base k => objectsFrom base (classSize idx) k (pageSize / classSize idx - k)
  | carveStore _ idx base k _ =>
      objectsFrom base (classSize idx) (k + 1) (pageSize / classSize idx - (k + 1))
  | unlockBuddy (.refill _ idx) (some pa) => pageObjects (idx, pa)
  | _ => []

variable {pc : HeapPc} {h h' h₁ : Heap} {buddy : Option BuddyAllocator}
  {f : ByteMemory → ByteMemory}
  {t : Option HeapEvent}

/-- Outside the lock nothing is left to do to the heap. -/
theorem rest_outside (hheld : pc.slabHeld = false) (hrest : pc.rest h = .ok (t, h₁)) (h' : Heap) :
    pc.rest h' = .ok (t, h') := by
  cases pc with
  | unlockBuddy u result =>
      obtain ⟨pc, hresume, hrest⟩ := bind_eq_ok.mp hrest
      rw [rest, hresume, ok_bind]
      cases u with
      | refill layout idx => cases hheld
      | largeAlloc layout =>
          cases result with
          | none =>
              cases hresume
              cases hrest
              rfl
          | some pa =>
              obtain ⟨va, -, heq⟩ := bind_eq_ok.mp hresume
              cases heq
              cases hrest
              rfl
      | largeDealloc ptr layout pa =>
          cases hresume
          cases hrest
          rfl
      | allocPages order =>
          cases hresume
          cases hrest
          rfl
      | freePages pa order =>
          cases hresume
          cases hrest
          rfl
  | panicked => cases hrest
  | _ => first
    | (cases hrest; rfl)
    | cases hheld

theorem footprint_outside (hheld : pc.slabHeld = false) : pc.footprint = [] := by
  cases pc with
  | unlockBuddy u result =>
      cases u with
      | refill layout idx => cases hheld
      | _ => rfl
  | carve layout idx base k => cases hheld
  | carveStore layout idx base k ptr => cases hheld
  | _ => rfl

private theorem starts_frame {u : BuddyUse} (hstarts : u.Starts h)
    (hlists : u.refills = true → h'.freeLists = h.freeLists) : u.Starts h' := by
  cases u with
  | refill layout idx =>
      rw [BuddyUse.Starts, hlists rfl]
      exact hstarts
  | _ => trivial

theorem Knows.frame (hknows : pc.Knows h) (hlists : pc.slabHeld = true → h'.freeLists = h.freeLists)
    (hbuddy : pc.buddyHeld = true → h'.buddy = h.buddy)
    (hup : h.buddy.isSome = true → h'.buddy.isSome = true) : pc.Knows h' := by
  cases pc with
  | getBuddy u => exact ⟨hknows.1, starts_frame hknows.2.1 hlists, hknows.2.2⟩
  | lockBuddy u => exact ⟨hknows.1, starts_frame hknows.2.1 hlists, hup hknows.2.2⟩
  | readBuddy u => exact ⟨hknows.1, starts_frame hknows.2.1 hlists, hup hknows.2.2⟩
  | storeBuddy u s =>
    exact ⟨hknows.1, starts_frame hknows.2.1 hlists, (hbuddy rfl).trans hknows.2.2⟩
  | unlockBuddy u result => exact ⟨hknows.1, hup hknows.2⟩
  | _ => exact hknows

theorem rest_edit (hknows : pc.Knows h) (hobjects : ∀ o ∈ pc.footprint, Spares f o)
    (hf : ∀ layout node, t = some (.alloc layout (some node)) → classOf layout ≠ none →
      Spares f node)
    (hrest : pc.rest h = .ok (t, h')) (buddy : Option BuddyAllocator) :
    pc.rest (h.edit buddy f) = .ok (t, h'.edit buddy f) := by
  have hclass {layout : AllocLayout} {idx : ℕ} (hc : classOf layout = some idx) (node : ℕ)
      (ht : t = some (.alloc layout (some node))) : Spares f node :=
    hf layout node ht (by rw [hc]; exact Option.some_ne_none idx)
  by_cases hheld : pc.slabHeld = false
  · have hsame := rest_outside hheld hrest h
    rw [hrest] at hsame
    rw [(Prod.mk.inj (Except.ok.inj hsame)).2]
    exact rest_outside hheld hrest _
  cases pc with
  | popHead layout idx => exact popFor_edit (hclass hknows) hrest
  | popNext layout idx node =>
      obtain ⟨lists, hlists, heq⟩ := bind_eq_ok.mp hrest
      cases heq
      have hnext : readNext (f h.memory) node = readNext h.memory node := by
        rw [readNext, readNext, read64_congr ((hclass hknows node rfl).word h.memory)]
      rw [← hnext] at hlists
      exact bind_eq_ok.mpr ⟨lists, hlists, rfl⟩
  | popStore layout idx node next =>
      obtain ⟨lists, hlists, heq⟩ := bind_eq_ok.mp hrest
      cases heq
      exact bind_eq_ok.mpr ⟨lists, hlists, rfl⟩
  | carve layout idx base k =>
      exact carveFor_edit (sizeClassIndex_some hknows).1 hobjects (hclass hknows) hrest
  | carveStore layout idx base k ptr =>
      obtain ⟨lists, hlists, hrest⟩ := bind_eq_ok.mp hrest
      exact bind_eq_ok.mpr ⟨lists, hlists,
        carveFor_edit (sizeClassIndex_some hknows).1 hobjects (hclass hknows) hrest⟩
  | pushStore ptr layout idx =>
      obtain ⟨lists, hlists, heq⟩ := bind_eq_ok.mp hrest
      cases heq
      exact bind_eq_ok.mpr ⟨lists, hlists, rfl⟩
  | unlockBuddy u result =>
      obtain ⟨pc, hresume, hrest⟩ := bind_eq_ok.mp hrest
      refine bind_eq_ok.mpr ⟨pc, hresume, ?_⟩
      cases u with
      | refill layout idx =>
          cases result with
          | none =>
              cases hresume
              cases hrest
              rfl
          | some pa =>
              obtain ⟨base, hbase, heq⟩ := bind_eq_ok.mp hresume
              cases heq
              rw [footprint, pageObjects, ← paToLinearVa_eq hbase] at hobjects
              exact carveFor_edit (sizeClassIndex_some hknows.1).1 hobjects (hclass hknows.1) hrest
      | _ => exact absurd rfl hheld
  | panicked => cases hrest
  | _ =>
      cases hrest
      rfl

theorem Knows.buddy_up (hknows : pc.Knows h) (hheld : pc.buddyHeld = true) :
    h.buddy.isSome = true := by
  cases pc with
  | readBuddy u => exact hknows.2.2
  | storeBuddy u s =>
      rw [hknows.2.2]
      rfl
  | unlockBuddy u result => exact hknows.2
  | _ => cases hheld

theorem rest_buddy (hknows : pc.Knows h) (hrest : pc.rest h = .ok (t, h')) :
    h'.buddy = h.buddy := by
  have hsame := rest_edit hknows (fun o _ => spares_id o) (fun _ o _ _ => spares_id o) hrest h.buddy
  rw [edit_self, hrest] at hsame
  rw [(Prod.mk.inj (Except.ok.inj hsame)).2]
  rfl

/-! ## Steps that are not effects -/

variable {sh sh' : HeapShared} {pc' : HeapPc}

/-- A step at which no call takes effect. -/
structure Quiet (t : Option HeapEvent) (h' : Heap) (sh : HeapShared) (pc : HeapPc)
    (sh' : HeapShared)
    (pc' : HeapPc) : Prop where
  op : pc'.op = pc.op
  knows : pc'.Knows sh'.heap
  buddy : sh'.heap.buddy = sh.heap.buddy
  footprint : ∀ o ∈ pc'.footprint, o ∈ pc.footprint
  outside : pc.slabHeld = false → sh'.heap = sh.heap
  slab : LockStep sh.slabLocked pc.slabHeld sh'.slabLocked pc'.slabHeld
  buddyLock : LockStep sh.buddyLocked pc.buddyHeld sh'.buddyLocked pc'.buddyHeld
  rest : pc'.rest sh'.heap = .ok (t, h')

theorem attempt_ok {α : Type} {o : Outcome α} {a : α} (h : o = .ok a)
    (k : α → HeapShared × HeapPc) :
    sh.attempt o k = some (k a) := by
  rw [h]
  rfl

private theorem quiet_unlockBuddy {u : BuddyUse} {result : Option ℕ} (hknows : u.Fits)
    (hrest : (unlockBuddy u result).rest sh.heap = .ok (t, h'))
    (hadv : (unlockBuddy u result).advance sh = some (sh', pc')) :
    Quiet t h' sh (unlockBuddy u result) sh' pc' := by
  obtain ⟨pc₁, hresume, hrest⟩ := bind_eq_ok.mp hrest
  rw [advance, attempt_ok hresume] at hadv
  cases hadv
  cases u with
  | refill layout idx =>
      cases result with
      | none =>
          cases hresume
          exact ⟨rfl, trivial,
            rfl, by simp [footprint], by simp [slabHeld, BuddyUse.refills], .stay,
            .release, hrest⟩
      | some pa =>
          obtain ⟨base, hbase, heq⟩ := bind_eq_ok.mp hresume
          cases heq
          refine ⟨rfl, hknows, rfl, ?_, by simp [slabHeld, BuddyUse.refills], .stay,
            .release, hrest⟩
          rw [footprint, footprint, pageObjects, ← paToLinearVa_eq hbase, Nat.sub_zero]
          exact fun _ ho => ho
  | largeAlloc layout =>
      cases result with
      | none =>
          cases hresume
          exact ⟨rfl, trivial, rfl, by simp [footprint], fun _ => rfl, .stay, .release, hrest⟩
      | some pa =>
          obtain ⟨va, hva, heq⟩ := bind_eq_ok.mp hresume
          cases heq
          exact ⟨rfl, trivial, rfl, by simp [footprint], fun _ => rfl, .stay, .release, hrest⟩
  | largeDealloc ptr layout pa =>
      cases hresume
      exact ⟨rfl, trivial, rfl, by simp [footprint], fun _ => rfl, .stay, .release, hrest⟩
  | allocPages order =>
      cases hresume
      exact ⟨rfl, trivial, rfl, by simp [footprint], fun _ => rfl, .stay, .release, hrest⟩
  | freePages pa order =>
      cases hresume
      exact ⟨rfl, trivial, rfl, by simp [footprint], fun _ => rfl, .stay, .release, hrest⟩

private theorem quiet_carve {layout : AllocLayout} {idx base k : ℕ}
    (hknows : classOf layout = some idx)
    (hrest : (carve layout idx base k).rest sh.heap = .ok (t, h'))
    (hadv : (carve layout idx base k).advance sh = some (sh', pc')) :
    Quiet t h' sh (carve layout idx base k) sh' pc' := by
  obtain ⟨hidx, -, -⟩ := sizeClassIndex_some hknows
  have hcount := objectsPerPage_ok hidx
  change sh.heap.carveFor layout idx base k = _ at hrest
  rw [carveFor, index_classes hidx, ok_bind, hcount, ok_bind] at hrest
  obtain ⟨h₁, hcarve, hpop⟩ := bind_eq_ok.mp hrest
  rw [advance, hcount] at hadv
  by_cases hk : k < pageSize / classSize idx
  · have hleft : pageSize / classSize idx - k = pageSize / classSize idx - (k + 1) + 1 := by omega
    rw [hleft] at hcarve
    obtain ⟨offset, hoffset, hcarve⟩ := bind_eq_ok.mp hcarve
    obtain ⟨ptr, hptr, hcarve⟩ := bind_eq_ok.mp hcarve
    obtain ⟨h₂, hpush, hcarve⟩ := bind_eq_ok.mp hcarve
    obtain ⟨head, hhead, hpush⟩ := bind_eq_ok.mp hpush
    obtain ⟨lists, hlists, hpush⟩ := bind_eq_ok.mp hpush
    have hnext : carveNext sh.heap idx base k = .ok (ptr, head) := by
      rw [carveNext, index_classes hidx, ok_bind, hoffset, ok_bind, hptr, ok_bind, hhead]
      rfl
    simp only [if_pos hk, attempt_ok hnext] at hadv
    cases hadv
    cases hpush
    refine ⟨rfl, hknows, rfl, ?_, by simp [slabHeld], .stay, .stay, ?_⟩
    · rw [footprint, footprint, hleft, objectsFrom_succ]
      exact fun _ ho => List.mem_cons_of_mem _ ho
    · refine bind_eq_ok.mpr ⟨lists, hlists, ?_⟩
      rw [carveFor, index_classes hidx, ok_bind, hcount, ok_bind]
      exact bind_eq_ok.mpr ⟨h₁, hcarve, hpop⟩
  · have hleft : pageSize / classSize idx - k = 0 := by omega
    rw [hleft] at hcarve
    simp only [if_neg hk] at hadv
    cases hcarve
    cases hadv
    exact ⟨rfl, hknows, rfl, by simp [footprint], by simp [slabHeld], .stay, .stay, hpop⟩

private theorem quiet_popHead {layout : AllocLayout} {idx : ℕ} (hknows : classOf layout = some idx)
    (hrest : (popHead layout idx).rest sh.heap = .ok (t, h'))
    (hadv : (popHead layout idx).advance sh = some (sh', pc')) :
    Quiet t h' sh (popHead layout idx) sh' pc' := by
  obtain ⟨⟨result, h₁⟩, hpop, heq⟩ := bind_eq_ok.mp hrest
  obtain ⟨head, hhead, hpop⟩ := bind_eq_ok.mp hpop
  rw [advance, attempt_ok hhead] at hadv
  cases head with
  | none =>
      cases hpop
      cases hadv
      exact ⟨rfl, trivial, rfl, by simp [footprint], by simp [slabHeld], .stay, .stay, heq⟩
  | some node =>
      obtain ⟨lists, hlists, hpop⟩ := bind_eq_ok.mp hpop
      cases hpop
      cases hadv
      exact ⟨rfl, hknows, rfl, by simp [footprint], by simp [slabHeld], .stay, .stay,
        bind_eq_ok.mpr ⟨lists, hlists, heq⟩⟩

theorem quiet_advance (hknows : pc.Knows sh.heap) (hrest : pc.rest sh.heap = .ok (t, h'))
    (hsilent : pc.commits sh.heap = false) (hadv : pc.advance sh = some (sh', pc')) :
    Quiet t h' sh pc sh' pc' := by
  cases pc with
  | idle => cases hadv
  | ret e => cases hadv
  | panicked => cases hadv
  | storeBuddy u s => cases hsilent
  | pushNext ptr layout idx => cases hsilent
  | popHead layout idx => exact quiet_popHead hknows hrest hadv
  | carve layout idx base k => exact quiet_carve hknows hrest hadv
  | unlockBuddy u result => exact quiet_unlockBuddy hknows.1 hrest hadv
  | lockAlloc layout idx =>
      rw [advance] at hadv
      split at hadv
      · cases hadv
        exact ⟨rfl, hknows, rfl, fun _ ho => ho, fun _ => rfl, .stay, .stay, hrest⟩
      · next hfree =>
          cases hadv
          refine ⟨rfl, hknows, rfl, fun _ ho => ho, fun _ => rfl, ?_, .stay, hrest⟩
          rw [Bool.eq_false_iff.mpr hfree]
          exact .acquire
  | lockDealloc ptr layout idx =>
      rw [advance] at hadv
      split at hadv
      · cases hadv
        exact ⟨rfl, hknows, rfl, fun _ ho => ho, fun _ => rfl, .stay, .stay, hrest⟩
      · next hfree =>
          cases hadv
          refine ⟨rfl, hknows, rfl, fun _ ho => ho, fun _ => rfl, ?_, .stay, hrest⟩
          rw [Bool.eq_false_iff.mpr hfree]
          exact .acquire
  | lockBuddy u =>
      rw [advance] at hadv
      split at hadv
      · cases hadv
        exact ⟨rfl, hknows, rfl, fun _ ho => ho, fun _ => rfl, .stay, .stay, hrest⟩
      · next hfree =>
          cases hadv
          refine ⟨rfl, hknows, rfl, fun _ ho => ho, fun _ => rfl, .stay, ?_, hrest⟩
          rw [Bool.eq_false_iff.mpr hfree]
          exact .acquire
  | unlock e =>
      cases hadv
      exact ⟨rfl, trivial, rfl, by simp [footprint], fun _ => rfl, .release, .stay, hrest⟩
  | popNext layout idx node =>
      cases hadv
      exact ⟨rfl, hknows, rfl, fun _ ho => ho, fun _ => rfl, .stay, .stay, hrest⟩
  | readBuddy u =>
      rw [advance] at hadv
      obtain ⟨s, hs, heq⟩ := Option.map_eq_some_iff.mp hadv
      cases heq
      exact ⟨rfl, ⟨hknows.1, hknows.2.1, hs⟩, rfl, fun _ ho => ho, fun _ => rfl,
        .stay, .stay, hrest⟩
  | getBuddy u =>
      have hsome : sh.heap.buddy.isNone = false := hsilent
      rw [advance, hsome] at hadv
      cases hadv
      refine ⟨rfl, ⟨hknows.1, hknows.2.1, ?_⟩, rfl, fun _ ho => ho, fun _ => rfl,
        .stay, .stay, hrest⟩
      rwa [← Option.not_isNone, Bool.not_eq_eq_eq_not]
  | look layout idx =>
      rw [commits] at hsilent
      split at hsilent
      · next hhead =>
          rw [advance, attempt_ok hhead] at hadv
          cases hadv
          exact ⟨rfl, ⟨hknows, hhead, rfl⟩, rfl, fun _ ho => ho, fun _ => rfl, .stay, .stay, hrest⟩
      · cases hsilent
  | popStore layout idx node next =>
      obtain ⟨lists, hlists, heq⟩ := bind_eq_ok.mp hrest
      rw [advance, attempt_ok hlists] at hadv
      cases hadv
      exact ⟨rfl, trivial, rfl, fun _ ho => ho, by simp [slabHeld], .stay, .stay, heq⟩
  | pushStore ptr layout idx =>
      obtain ⟨lists, hlists, heq⟩ := bind_eq_ok.mp hrest
      rw [advance, attempt_ok hlists] at hadv
      cases hadv
      exact ⟨rfl, trivial, rfl, fun _ ho => ho, by simp [slabHeld], .stay, .stay, heq⟩
  | carveStore layout idx base k ptr =>
      obtain ⟨lists, hlists, heq⟩ := bind_eq_ok.mp hrest
      rw [advance, attempt_ok hlists] at hadv
      cases hadv
      exact ⟨rfl, hknows, rfl, fun _ ho => ho, by simp [slabHeld], .stay, .stay, heq⟩

end HeapPc

end Preon.Memory
