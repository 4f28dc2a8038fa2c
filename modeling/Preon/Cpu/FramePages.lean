import Mathlib.Data.Fintype.Card
import Preon.Cpu.Trampoline

/-!
# `alloc_page` on all CPUs

`kernel/mm/frame.rs`: before `BUDDY` is installed a page is the next one of a pool in `.bss`, and
the CPUs race for its index; afterwards it is a page of the buddy allocator, with what its last
owner left in it, and is zeroed outside the lock.
-/

namespace Preon.Cpu

open Framework Memory BootMem BuddyAllocator

/-! ## The model -/

/-- The linker script: the pool is part of the image, above the trampoline. -/
structure PoolPlaced (info : BootInfo) (poolVa : ℕ) : Prop where
  aligned : pageSize ∣ poolVa
  image : kernelImageBase ≤ poolVa
  above_trampoline : info.bootBssEnd ≤ imagePa poolVa
  below_stack : poolVa + poolPages * pageSize ≤ info.image.stackTop

def poolPage (poolVa idx : ℕ) : ℕ := imagePa poolVa + idx * pageSize

/-- Where a CPU is in `alloc_page`. -/
inductive AllocPc
  | outside
  /-- Before `BUDDY.get()`. -/
  | get
  /-- Before the `fetch_add`. -/
  | bump
  /-- Before the call of the allocator under the lock. -/
  | lock
  /-- `zero_page` has cleared the first `done` bytes. -/
  | zero (pa done : ℕ)
  | ret (pa : ℕ)
  | panicked
deriving DecidableEq

/-- The page that a CPU has taken and not returned yet. -/
def AllocPc.page : AllocPc → Option ℕ
  | .zero pa _ => some pa
  | .ret pa => some pa
  | _ => none

/-- How many of its bytes are known to be zero. -/
def AllocPc.cleared : AllocPc → ℕ
  | .zero _ done => done
  | .ret _ => pageSize
  | _ => 0

/-- The statics `NEXT` and `BUDDY`, the physical memory, and the pages returned so far, newest
first. -/
structure FrameState where
  next : ℕ
  buddy : Option Booted
  mem : ByteMemory
  pc : Fin maxCpus → AllocPc
  returned : List ℕ

namespace FrameState

def goto (s : FrameState) (c : Fin maxCpus) (pc : AllocPc) : FrameState :=
  { s with pc := Function.update s.pc c pc }

/-- One step of a CPU in `alloc_page`.  `zero_page` writes through the linear map. -/
def run (poolVa : ℕ) (s : FrameState) (c : Fin maxCpus) : FrameState :=
  match s.pc c with
  | .outside => s
  | .get => s.goto c (if s.buddy.isSome then .lock else .bump)
  | .bump =>
      match bumpAllocPage poolVa s.next with
      | .ok pa => { s.goto c (.ret pa) with next := (s.next + 1) % 2 ^ 64 }
      | .error _ => { s.goto c .panicked with next := (s.next + 1) % 2 ^ 64 }
  | .lock =>
      match s.buddy with
      | none => s
      | some r =>
          match r.allocator.allocPages 0 with
          | .ok (some pa, allocator) =>
              { s.goto c (.zero pa 0) with
                buddy := some ⟨allocator, (pa, 0) :: r.live, r.reclaimed⟩ }
          | .ok (none, allocator) =>
              { s.goto c .panicked with buddy := some ⟨allocator, r.live, r.reclaimed⟩ }
          | .error _ => s.goto c .panicked
  | .zero pa done =>
      match paToLinearVa pa with
      | .ok va =>
          if done < pageSize then
            { s.goto c (.zero pa (done + 1)) with
              mem := Function.update s.mem (va + done - kernelLinearBase) 0 }
          else s.goto c (.ret pa)
      | .error _ => s.goto c .panicked
  | .ret pa => { s.goto c .outside with returned := pa :: s.returned }
  | .panicked => s

def Out (s : FrameState) (pa : ℕ) : Prop := pa ∈ s.returned ∨ ∃ c, (s.pc c).page = some pa

/-- Nobody frees a page of `alloc_page`. -/
def SparesPages (s : FrameState) (call : PageEvent) : Prop :=
  ∀ pa, s.Out pa → call ≠ .freePages pa 0

/-- Nobody else writes to a page of the pool that is not out yet, or to one that a CPU is about to
return.  All other memory may be written, also while it is free. -/
def MayStore (poolVa : ℕ) (s : FrameState) (a : ℕ) : Prop :=
  (∀ idx < poolPages, ∀ i < pageSize, a = poolPage poolVa idx + i →
    poolPage poolVa idx ∈ s.returned) ∧
  ∀ c pa, (s.pc c).page = some pa → ∀ i < pageSize, a ≠ pa + i

end FrameState

/-- A call of `alloc_page`, a step of it, the installation of the allocator, somebody else's call of
the allocator, `reclaim_trampoline`, and a store. -/
inductive FrameEvent
  | call (c : Fin maxCpus)
  | run (c : Fin maxCpus)
  | install
  | page (call : PageEvent)
  | reclaim
  | store (a : ℕ) (v : UInt8)

namespace FrameState

def Step (k : Kernel) (poolVa : ℕ) (s : FrameState) : FrameEvent → FrameState → Prop
  | .call c, s' => s.pc c = .outside ∧ s' = s.goto c .get
  | .run c, s' => s' = s.run poolVa c
  | .install, s' => s.buddy = none ∧
      ∃ a, k.bootBuddy = .ok a ∧ s' = { s with buddy := some ⟨a, [], false⟩ }
  | .page call, s' => ∃ r r', s.buddy = some r ∧ r.Step k.info (.page call) r' ∧
      s.SparesPages call ∧ s' = { s with buddy := some r' }
  | .reclaim, s' => ∃ r r', s.buddy = some r ∧ r.Step k.info .reclaim r' ∧
      s' = { s with buddy := some r' }
  | .store a v, s' => s.MayStore poolVa a ∧ s' = { s with mem := Function.update s.mem a v }

/-- `boot.s` has cleared `.bss`. -/
structure Initial (poolVa : ℕ) (s : FrameState) : Prop where
  next : s.next = 0
  buddy : s.buddy = none
  pc : ∀ c, s.pc c = .outside
  returned : s.returned = []
  pool : ∀ idx < poolPages, ∀ i < pageSize, s.mem (poolPage poolVa idx + i) = 0

end FrameState

def frameSystem (k : Kernel) (poolVa : ℕ) : System FrameState FrameEvent where
  init := FrameState.Initial poolVa
  step := FrameState.Step k poolVa

/-! ## The pool and the allocator -/

section Pool

variable {k : Kernel} {poolVa : ℕ} {r : Booted}

private theorem PoolPlaced.lt (h : PoolPlaced k.info poolVa) : poolVa < 2 ^ 64 := by
  have hstack := (k.contract.placed.inside
    ⟨k.info.image.stackBottom, k.info.image.stackTop, stackAttrs⟩ (by simp [Image.sections])).2
  have hbelow := h.below_stack
  simp only [poolPages, pageSize] at hbelow hstack
  omega

private theorem PoolPlaced.page_dvd (h : PoolPlaced k.info poolVa) (idx : ℕ) :
    pageSize ∣ poolPage poolVa idx :=
  Nat.dvd_add (Nat.dvd_add (Nat.dvd_sub h.aligned (by decide)) (by decide)) (Nat.dvd_mul_left ..)

private theorem PoolPlaced.not_owned (h : PoolPlaced k.info poolVa) {mm : Region}
    {reclaimed : Bool} {f : ℕ}
    (hlo : imagePa poolVa ≤ f * pageSize)
    (hhi : f * pageSize < imagePa poolVa + poolPages * pageSize) :
    ¬ k.info.Owned mm reclaimed f := by
  obtain ⟨hstart, hlt, -⟩ := k.contract.bootBss_inside
  have habove := h.above_trampoline
  rintro (hover | ⟨-, htrampoline⟩)
  · refine hover.2.1 (physLoadBase, k.info.stackTopPa) (by simp [BootInfo.reservations]) ⟨?_, ?_⟩
    · change physLoadBase < (f + 1) * pageSize
      rw [Nat.succ_mul]
      omega
    · change f * pageSize < imagePa k.info.image.stackTop
      have hbase := h.image
      have hbelow := h.below_stack
      simp only [imagePa] at hhi ⊢
      omega
  · have hend := htrampoline.2
    omega

private theorem Kernel.Boots.clear_pool (h : k.Boots r)
    (hpool : PoolPlaced k.info poolVa) {b : ℕ × ℕ}
    (hb : b ∈ r.live) :
    Clear (imagePa poolVa) (poolPages * pageSize) b.1 (2 ^ b.2 * pageSize) := by
  obtain ⟨mm, lo, nr, given, m, hinv⟩ := h.inv
  obtain ⟨-, -, -, -, haligned, -⟩ := hinv.tracked.block_bytes hb
  obtain ⟨p, hp⟩ := Nat.dvd_of_mod_eq_zero haligned
  obtain ⟨q, hq⟩ := hpool.page_dvd 0
  rw [poolPage, Nat.zero_mul, Nat.add_zero] at hq
  have hblock : 0 < 2 ^ b.2 * pageSize := Nat.mul_pos (Nat.two_pow_pos b.2) (by decide)
  have hpages : 0 < poolPages * pageSize := by decide
  by_contra hmeet
  simp only [Clear, not_or, Nat.not_le] at hmeet
  -- the higher of the two first frames lies in both
  have hlo : max p q * pageSize = max b.1 (imagePa poolVa) := by
    rw [hp, hq, Nat.mul_comm pageSize, Nat.mul_comm pageSize, Nat.mul_max_mul_right]
  obtain ⟨hle, hgiven⟩ := hinv.tracked.frame_given hinv.base hb (f := max p q) (by omega) (by omega)
  have howned := (hinv.given_iff _).mp hgiven
  rw [Nat.add_sub_cancel' hle] at howned
  exact hpool.not_owned (by omega) (by omega) howned

private theorem Kernel.Boots.clear_poolPage (h : k.Boots r)
    (hpool : PoolPlaced k.info poolVa) {b : ℕ × ℕ}
    (hb : b ∈ r.live) {idx : ℕ} (hidx : idx < poolPages) :
    Clear (poolPage poolVa idx) pageSize b.1 (2 ^ b.2 * pageSize) := by
  refine (h.clear_pool hpool hb).mono (Nat.le_add_right _ _) ?_ (Nat.le_refl _) (Nat.le_refl _)
  have hmul : (idx + 1) * pageSize ≤ poolPages * pageSize := Nat.mul_le_mul_right _ hidx
  rw [Nat.succ_mul] at hmul
  rw [poolPage]
  omega

private theorem poolPage_inj {i j : ℕ} (h : poolPage poolVa i = poolPage poolVa j) : i = j := by
  simp only [poolPage, pageSize] at h
  omega

end Pool

/-! ## Distinct pages -/

namespace FrameState

/-- No page is out twice. -/
structure Distinct (pc : Fin maxCpus → AllocPc) (returned : List ℕ) : Prop where
  nodup : returned.Nodup
  taken : ∀ c pa, (pc c).page = some pa → pa ∉ returned
  inj : ∀ c d pa, (pc c).page = some pa → (pc d).page = some pa → c = d

section Distinct

variable {pc : Fin maxCpus → AllocPc} {returned : List ℕ} {c : Fin maxCpus} {pc' : AllocPc} {pa : ℕ}

private theorem Distinct.keep (h : Distinct pc returned)
    (hpage : ∀ pa, pc'.page = some pa → (pc c).page = some pa) :
    Distinct (Function.update pc c pc') returned := by
  have hold (d : Fin maxCpus) (pa : ℕ) (hd : (Function.update pc c pc' d).page = some pa) :
      (pc d).page = some pa := by
    by_cases he : d = c
    · subst he
      rw [Function.update_self] at hd
      exact hpage pa hd
    · rwa [Function.update_of_ne he] at hd
  exact ⟨h.nodup, fun d pa hd => h.taken d pa (hold d pa hd),
    fun d e pa hd he => h.inj d e pa (hold d pa hd) (hold e pa he)⟩

private theorem Distinct.take (h : Distinct pc returned) (hpage : pc'.page = some pa)
    (hnew : pa ∉ returned)
    (hfree : ∀ d, (pc d).page ≠ some pa) : Distinct (Function.update pc c pc') returned := by
  have hold (d : Fin maxCpus) (x : ℕ) (hd : (Function.update pc c pc' d).page = some x) :
      d = c ∧ x = pa ∨ d ≠ c ∧ (pc d).page = some x := by
    by_cases he : d = c
    · subst he
      rw [Function.update_self, hpage] at hd
      exact .inl ⟨rfl, (Option.some.inj hd).symm⟩
    · rw [Function.update_of_ne he] at hd
      exact .inr ⟨he, hd⟩
  refine ⟨h.nodup, fun d x hd => ?_, fun d e x hd he => ?_⟩
  · rcases hold d x hd with ⟨-, rfl⟩ | ⟨-, hd⟩
    · exact hnew
    · exact h.taken d x hd
  · rcases hold d x hd with ⟨rfl, rfl⟩ | ⟨-, hd⟩
    · rcases hold e x he with ⟨rfl, -⟩ | ⟨-, he⟩
      · rfl
      · exact absurd he (hfree e)
    · rcases hold e x he with ⟨-, rfl⟩ | ⟨-, he⟩
      · exact absurd hd (hfree d)
      · exact h.inj d e x hd he

private theorem Distinct.ret (h : Distinct pc returned) (hpage : (pc c).page = some pa) :
    Distinct (Function.update pc c .outside) (pa :: returned) := by
  have hkeep : Distinct (Function.update pc c .outside) returned := h.keep nofun
  refine ⟨List.nodup_cons.mpr ⟨h.taken c pa hpage, h.nodup⟩, fun d x hd => ?_, hkeep.inj⟩
  rw [List.mem_cons, not_or]
  refine ⟨?_, hkeep.taken d x hd⟩
  rintro rfl
  by_cases he : d = c
  · subst he
    rw [Function.update_self] at hd
    cases hd
  · rw [Function.update_of_ne he] at hd
    exact he (h.inj d c x hd hpage)

end Distinct

/-! ## The invariant -/

def panickedCount (pc : Fin maxCpus → AllocPc) : ℕ :=
  (Finset.univ.filter fun c => pc c = .panicked).card

/-- Where a page came from. -/
def Source (poolVa : ℕ) (s : FrameState) (pa : ℕ) : Prop :=
  (∃ idx < poolPages, idx < s.next ∧ pa = poolPage poolVa idx) ∨
    ∃ r, s.buddy = some r ∧ (pa, 0) ∈ r.live

structure Inv (k : Kernel) (poolVa : ℕ) (s : FrameState) : Prop where
  next_le : s.next ≤ poolPages + panickedCount s.pc
  boots : ∀ r, s.buddy = some r → k.Boots r
  source : ∀ pa, s.Out pa → s.Source poolVa pa
  distinct : Distinct s.pc s.returned
  pool_zero : ∀ idx < poolPages, poolPage poolVa idx ∉ s.returned →
    ∀ i < pageSize, s.mem (poolPage poolVa idx + i) = 0
  cleared : ∀ c pa, (s.pc c).page = some pa → ∀ i < pageSize, i < (s.pc c).cleared →
    s.mem (pa + i) = 0

variable {k : Kernel} {poolVa : ℕ} {s s' : FrameState} {c : Fin maxCpus} {pc' : AllocPc}

private theorem inv_of_initial (h : s.Initial poolVa) : s.Inv k poolVa := by
  refine ⟨by rw [h.next]; exact Nat.zero_le _, ?_, ?_, ⟨?_, ?_, ?_⟩,
    fun idx hidx _ => h.pool idx hidx,
    ?_⟩
  · simp [h.buddy]
  · simp [Out, h.returned, h.pc, AllocPc.page]
  · simp [h.returned]
  · simp [h.returned]
  · simp [h.pc, AllocPc.page]
  · simp [h.pc, AllocPc.page]

/-! ## The counter -/

private theorem panickedCount_le (pc : Fin maxCpus → AllocPc) : panickedCount pc ≤ maxCpus :=
  (Finset.card_filter_le _ _).trans (by simp)

private theorem panickedCount_update {pc : Fin maxCpus → AllocPc} (hne : pc c ≠ .panicked) :
    panickedCount pc ≤ panickedCount (Function.update pc c pc') := by
  apply Finset.card_le_card
  intro d hd
  rw [Finset.mem_filter_univ] at hd ⊢
  rwa [Function.update_of_ne]
  rintro rfl
  exact hne hd

private theorem Inv.next_update (h : s.Inv k poolVa) (hne : s.pc c ≠ .panicked) :
    s.next ≤ poolPages + panickedCount (Function.update s.pc c pc') :=
  h.next_le.trans (Nat.add_le_add_left (panickedCount_update hne) _)

private theorem panickedCount_panicked {pc : Fin maxCpus → AllocPc} (hne : pc c ≠ .panicked) :
    panickedCount pc + 1 ≤ panickedCount (Function.update pc c .panicked) := by
  have hc : c ∉ Finset.univ.filter fun d => pc d = .panicked := by simpa using hne
  rw [panickedCount, ← Finset.card_insert_of_notMem hc]
  apply Finset.card_le_card
  intro d hd
  rw [Finset.mem_insert, Finset.mem_filter_univ] at hd
  rw [Finset.mem_filter_univ]
  by_cases hdc : d = c
  · rw [hdc, Function.update_self]
  · rw [Function.update_of_ne hdc]
    exact hd.resolve_left hdc

/-- The counter never wraps. -/
theorem Inv.next_succ (h : s.Inv k poolVa) : (s.next + 1) % 2 ^ 64 = s.next + 1 := by
  have hle := h.next_le
  have hcount := panickedCount_le s.pc
  simp only [poolPages, maxCpus] at hle hcount
  omega

/-! ## Steps of a CPU -/

private theorem Source.mono {pa : ℕ} (h : s.Source poolVa pa) (hnext : s.next ≤ s'.next)
    (hbuddy : ∀ r, s.buddy = some r → (pa, 0) ∈ r.live →
      ∃ r', s'.buddy = some r' ∧ (pa, 0) ∈ r'.live) : s'.Source poolVa pa := by
  rcases h with ⟨idx, hidx, hlt, hpa⟩ | ⟨r, hr, hlive⟩
  · exact .inl ⟨idx, hidx, hlt.trans_le hnext, hpa⟩
  · exact .inr (hbuddy r hr hlive)

private theorem update_zero {mem : ByteMemory} {a x : ℕ} (h : mem x = 0) :
    Function.update mem a 0 x = 0 := by
  by_cases hx : x = a
  · rw [hx, Function.update_self]
  · rwa [Function.update_of_ne hx]

private theorem Inv.keep (h : s.Inv k poolVa) (hpc : s'.pc = Function.update s.pc c pc')
    (hpage : ∀ pa, pc'.page = some pa → (s.pc c).page = some pa)
    (hreturned : s'.returned = s.returned) (hnext : s'.next ≤ poolPages + panickedCount s'.pc)
    (hboots : ∀ r, s'.buddy = some r → k.Boots r)
    (hsource : ∀ pa, s.Source poolVa pa → s'.Source poolVa pa)
    (hmem : ∀ a, s.mem a = 0 → s'.mem a = 0)
    (hcleared : ∀ pa, pc'.page = some pa → ∀ i < pageSize, i < pc'.cleared → s'.mem (pa + i) = 0) :
    s'.Inv k poolVa := by
  refine ⟨hnext, hboots, fun pa hout => hsource pa (h.source pa ?_), ?_, ?_, ?_⟩
  · rw [Out, hreturned, hpc] at hout
    refine hout.imp_right ?_
    rintro ⟨d, hd⟩
    by_cases hdc : d = c
    · subst hdc
      rw [Function.update_self] at hd
      exact ⟨d, hpage pa hd⟩
    · rw [Function.update_of_ne hdc] at hd
      exact ⟨d, hd⟩
  · rw [hreturned, hpc]
    exact h.distinct.keep hpage
  · intro idx hidx hnot i hi
    rw [hreturned] at hnot
    exact hmem _ (h.pool_zero idx hidx hnot i hi)
  · intro d pa hd i hi hlt
    rw [hpc] at hd hlt
    by_cases hdc : d = c
    · subst hdc
      rw [Function.update_self] at hd hlt
      exact hcleared pa hd i hi hlt
    · rw [Function.update_of_ne hdc] at hd hlt
      exact hmem _ (h.cleared d pa hd i hi hlt)

/-- A CPU moves on and nothing else happens. -/
theorem Inv.goto (h : s.Inv k poolVa) (hne : s.pc c ≠ .panicked)
    (hpage : ∀ pa, pc'.page = some pa → (s.pc c).page = some pa)
    (hcleared : ∀ pa, pc'.page = some pa → ∀ i < pageSize, i < pc'.cleared → s.mem (pa + i) = 0) :
    (s.goto c pc').Inv k poolVa :=
  h.keep rfl hpage rfl (h.next_update hne) h.boots (fun _ hsource => hsource) (fun _ hzero => hzero)
    hcleared

private theorem Inv.take {pa : ℕ} (h : s.Inv k poolVa) (hpc : s'.pc = Function.update s.pc c pc')
    (hpage : pc'.page = some pa) (hnew : ¬ s.Out pa) (hreturned : s'.returned = s.returned)
    (hnext : s'.next ≤ poolPages + panickedCount s'.pc)
    (hboots : ∀ r, s'.buddy = some r → k.Boots r)
    (hsource : ∀ x, s.Source poolVa x → s'.Source poolVa x) (hpa : s'.Source poolVa pa)
    (hmem : s'.mem = s.mem) (hcleared : ∀ i < pageSize, i < pc'.cleared → s.mem (pa + i) = 0) :
    s'.Inv k poolVa := by
  refine ⟨hnext, hboots, fun x hout => ?_, ?_, ?_, ?_⟩
  · rw [Out, hreturned, hpc] at hout
    rcases hout with hx | ⟨d, hd⟩
    · exact hsource x (h.source x (.inl hx))
    · by_cases hdc : d = c
      · subst hdc
        rw [Function.update_self, hpage] at hd
        exact Option.some.inj hd ▸ hpa
      · rw [Function.update_of_ne hdc] at hd
        exact hsource x (h.source x (.inr ⟨d, hd⟩))
  · rw [hreturned, hpc]
    exact h.distinct.take hpage (fun hmem => hnew (.inl hmem)) fun d hd => hnew (.inr ⟨d, hd⟩)
  · rw [hreturned, hmem]
    exact h.pool_zero
  · intro d x hd i hi hlt
    rw [hpc] at hd hlt
    rw [hmem]
    by_cases hdc : d = c
    · subst hdc
      rw [Function.update_self] at hd hlt
      obtain rfl := Option.some.inj (hpage.symm.trans hd)
      exact hcleared i hi hlt
    · rw [Function.update_of_ne hdc] at hd hlt
      exact h.cleared d x hd i hi hlt

private theorem Inv.pool_new (h : s.Inv k poolVa) (hpool : PoolPlaced k.info poolVa)
    (hlt : s.next < poolPages) : ¬ s.Out (poolPage poolVa s.next) := by
  intro hout
  rcases h.source _ hout with ⟨idx, -, hidx, heq⟩ | ⟨r, hr, hlive⟩
  · have := poolPage_inj heq
    omega
  · have hclear := (h.boots r hr).clear_poolPage hpool hlive hlt
    simp only [Clear, pageSize] at hclear
    omega

private theorem Inv.bump (h : s.Inv k poolVa) (hpool : PoolPlaced k.info poolVa)
    (hpc : s.pc c = .bump) :
    (s.run poolVa c).Inv k poolVa := by
  have hne : s.pc c ≠ .panicked := by rw [hpc]; nofun
  simp only [run, hpc, h.next_succ]
  by_cases hlt : s.next < poolPages
  · rw [bumpAllocPage_ok hpool.image hpool.lt hlt]
    have hnew := h.pool_new hpool hlt
    refine h.take rfl rfl hnew rfl (Nat.le_add_right_of_le hlt) h.boots (fun x hsource => ?_)
      (.inl ⟨s.next, hlt, Nat.lt_succ_self _, rfl⟩) rfl
      fun i hi _ => h.pool_zero s.next hlt (fun hmem => hnew (.inl hmem)) i hi
    exact hsource.mono (Nat.le_succ _) fun r hr hlive => ⟨r, hr, hlive⟩
  · rw [bumpAllocPage_exhausted (Nat.le_of_not_lt hlt)]
    have hcount := panickedCount_panicked hne
    refine h.keep rfl nofun rfl ?_ h.boots (fun x hsource => ?_) (fun _ hzero => hzero) nofun
    · exact (Nat.succ_le_succ h.next_le).trans (Nat.add_le_add_left hcount _)
    · exact hsource.mono (Nat.le_succ _) fun r hr hlive => ⟨r, hr, hlive⟩

private theorem Inv.buddy_new {r : Booted} {pa : ℕ} {allocator : BuddyAllocator}
    (h : s.Inv k poolVa)
    (hpool : PoolPlaced k.info poolVa) (hr : s.buddy = some r)
    (hboots : k.Boots ⟨allocator, (pa, 0) :: r.live, r.reclaimed⟩) : ¬ s.Out pa := by
  intro hout
  rcases h.source _ hout with ⟨idx, hidx, -, rfl⟩ | ⟨r', hr', hlive⟩
  · have hclear := hboots.clear_poolPage hpool List.mem_cons_self hidx
    simp only [Clear, pageSize] at hclear
    omega
  · obtain rfl := Option.some.inj (hr.symm.trans hr')
    exact hboots.head_fresh rfl hlive

private theorem Inv.lock (h : s.Inv k poolVa) (hpool : PoolPlaced k.info poolVa)
    (hpc : s.pc c = .lock) :
    (s.run poolVa c).Inv k poolVa := by
  have hne : s.pc c ≠ .panicked := by rw [hpc]; nofun
  simp only [run, hpc]
  split
  · exact h
  · next r hr =>
      split
      · next pa allocator halloc =>
          have hboots : k.Boots ⟨allocator, (pa, 0) :: r.live, r.reclaimed⟩ :=
            (h.boots r hr).step (e := .page (.allocPages 0 (some pa))) ⟨⟨halloc, rfl, rfl⟩, rfl⟩
          refine h.take rfl rfl (h.buddy_new hpool hr hboots) rfl (h.next_update hne) ?_
            (fun x hsource => ?_) (.inr ⟨_, rfl, List.mem_cons_self⟩) rfl
            fun i _ hlt => absurd hlt (Nat.not_lt_zero i)
          · exact fun r' hr' => Option.some.inj hr' ▸ hboots
          · refine hsource.mono (Nat.le_refl _) fun r' hr' hlive => ⟨_, rfl, ?_⟩
            obtain rfl := Option.some.inj (hr.symm.trans hr')
            exact List.mem_cons_of_mem _ hlive
      · next allocator halloc =>
          have hboots : k.Boots ⟨allocator, r.live, r.reclaimed⟩ :=
            (h.boots r hr).step (e := .page (.allocPages 0 none)) ⟨⟨halloc, rfl, rfl⟩, rfl⟩
          refine h.keep rfl nofun rfl (h.next_update hne) ?_ (fun x hsource => ?_)
            (fun _ hzero => hzero) nofun
          · exact fun r' hr' => Option.some.inj hr' ▸ hboots
          · refine hsource.mono (Nat.le_refl _) fun r' hr' hlive => ⟨_, rfl, ?_⟩
            obtain rfl := Option.some.inj (hr.symm.trans hr')
            exact hlive
      · exact h.goto hne nofun nofun

private theorem Inv.zero {pa done : ℕ} (h : s.Inv k poolVa) (hpc : s.pc c = .zero pa done) :
    (s.run poolVa c).Inv k poolVa := by
  have hne : s.pc c ≠ .panicked := by rw [hpc]; nofun
  have hpage : (s.pc c).page = some pa := by rw [hpc]; rfl
  have hdone := h.cleared c pa hpage
  rw [hpc] at hdone
  simp only [run, hpc]
  split
  · next va hva =>
      obtain ⟨_, -, hva⟩ := bind_eq_ok.mp hva
      have haddr : va + done - kernelLinearBase = pa + done := by
        rw [checkedAdd_eq hva]
        omega
      rw [haddr]
      split
      · refine h.keep rfl (fun x hx => hx ▸ hpage) rfl (h.next_update hne) h.boots
          (fun _ hsource => hsource) (fun _ => update_zero) fun x hx i hi hlt => ?_
        obtain rfl := Option.some.inj hx
        rcases Nat.lt_succ_iff_lt_or_eq.mp hlt with hlt | rfl
        · exact update_zero (hdone i hi hlt)
        · exact Function.update_self _ _ _
      · next hge =>
          refine h.goto hne (fun x hx => hx ▸ hpage) fun x hx i hi _ => ?_
          obtain rfl := Option.some.inj hx
          exact hdone i hi (hi.trans_le (Nat.le_of_not_lt hge))
  · exact h.goto hne nofun nofun

private theorem Inv.ret {pa : ℕ} (h : s.Inv k poolVa) (hpc : s.pc c = .ret pa) :
    (s.run poolVa c).Inv k poolVa := by
  have hne : s.pc c ≠ .panicked := by rw [hpc]; nofun
  have hpage : (s.pc c).page = some pa := by rw [hpc]; rfl
  have hgone : (s.goto c .outside).Inv k poolVa := h.goto hne nofun nofun
  simp only [run, hpc]
  refine ⟨hgone.next_le, hgone.boots, fun x hout => ?_, h.distinct.ret hpage, ?_, hgone.cleared⟩
  · rcases hout with hx | hheld
    · rcases List.mem_cons.mp hx with rfl | hx
      · exact h.source x (.inr ⟨c, hpage⟩)
      · exact h.source x (.inl hx)
    · exact hgone.source x (.inr hheld)
  · intro idx hidx hnot
    exact h.pool_zero idx hidx fun hmem => hnot (List.mem_cons_of_mem _ hmem)

private theorem Inv.run (h : s.Inv k poolVa) (hpool : PoolPlaced k.info poolVa) (c : Fin maxCpus) :
    (s.run poolVa c).Inv k poolVa := by
  cases hpc : s.pc c with
  | outside | panicked =>
      simp only [FrameState.run, hpc]
      exact h
  | get =>
      simp only [FrameState.run, hpc]
      have hne : s.pc c ≠ .panicked := by rw [hpc]; nofun
      split
      · exact h.goto hne nofun nofun
      · exact h.goto hne nofun nofun
  | bump => exact h.bump hpool hpc
  | lock => exact h.lock hpool hpc
  | zero pa done => exact h.zero hpc
  | ret pa => exact h.ret hpc

/-! ## What happens around them -/

private theorem Inv.install {a : BuddyAllocator} (h : s.Inv k poolVa) (hnone : s.buddy = none)
    (ha : k.bootBuddy = .ok a) : Inv k poolVa { s with buddy := some ⟨a, [], false⟩ } := by
  refine ⟨h.next_le, fun r hr => ?_, fun pa hout => ?_, h.distinct, h.pool_zero, h.cleared⟩
  · obtain rfl := Option.some.inj hr
    exact ⟨a, ha, .init rfl⟩
  · refine (h.source pa hout).mono (Nat.le_refl _) fun r hr _ => ?_
    cases hnone.symm.trans hr

/-- A state of the allocator in which the pages are still out. -/
theorem Inv.setBuddy {r r' : Booted} (h : s.Inv k poolVa) (hr : s.buddy = some r)
    (hboots : k.Boots r') (hlive : ∀ pa, s.Out pa → (pa, 0) ∈ r.live → (pa, 0) ∈ r'.live) :
    Inv k poolVa { s with buddy := some r' } := by
  refine ⟨h.next_le, fun r₁ hr₁ => ?_, fun pa hout => ?_, h.distinct, h.pool_zero, h.cleared⟩
  · exact Option.some.inj hr₁ ▸ hboots
  · refine (h.source pa hout).mono (Nat.le_refl _) fun r₁ hr₁ hmem => ⟨r', rfl, hlive pa hout ?_⟩
    exact Option.some.inj (hr₁.symm.trans hr) ▸ hmem

private theorem Inv.store {a : ℕ} {v : UInt8} (h : s.Inv k poolVa) (hmay : s.MayStore poolVa a) :
    Inv k poolVa { s with mem := Function.update s.mem a v } := by
  refine ⟨h.next_le, h.boots, h.source, h.distinct, fun idx hidx hnot i hi => ?_,
    fun c pa hpage i hi hlt => ?_⟩
  · refine (Function.update_of_ne ?_ _ _).trans (h.pool_zero idx hidx hnot i hi)
    exact fun heq => hnot (hmay.1 idx hidx i hi heq.symm)
  · refine (Function.update_of_ne ?_ _ _).trans (h.cleared c pa hpage i hi hlt)
    exact fun heq => hmay.2 c pa hpage i hi heq.symm

private theorem Inv.step (h : s.Inv k poolVa) (hpool : PoolPlaced k.info poolVa) {e : FrameEvent}
    (hstep : s.Step k poolVa e s') : s'.Inv k poolVa := by
  cases e with
  | call c =>
      obtain ⟨hpc, rfl⟩ := hstep
      exact h.goto (by rw [hpc]; nofun) nofun nofun
  | run c =>
      obtain rfl : s' = s.run poolVa c := hstep
      exact h.run hpool c
  | install =>
      obtain ⟨hnone, a, ha, rfl⟩ := hstep
      exact h.install hnone ha
  | page call =>
      obtain ⟨r, r', hr, hcall, hspares, rfl⟩ := hstep
      refine h.setBuddy hr ((h.boots r hr).step hcall) fun pa hout hlive => ?_
      exact PageRun.Step.keeps_live hcall.1 hlive (hspares pa hout)
  | reclaim =>
      obtain ⟨r, r', hr, hcall, rfl⟩ := hstep
      refine h.setBuddy hr ((h.boots r hr).step hcall) fun pa _ hlive => ?_
      rw [hcall.2.2.1]
      exact hlive
  | store a v =>
      obtain ⟨hmay, rfl⟩ := hstep
      exact h.store hmay

private theorem inv_of_reachable (hpool : PoolPlaced k.info poolVa)
    (h : (frameSystem k poolVa).Reachable s) : s.Inv k poolVa := by
  revert h
  apply System.Reachable.invariant
  · exact fun s hs => inv_of_initial hs
  · exact fun s e s' hinv hstep => hinv.step hpool hstep

/-! ## Fresh pages -/

private theorem Source.page_dvd {pa : ℕ} (h : s.Source poolVa pa) (hinv : s.Inv k poolVa)
    (hpool : PoolPlaced k.info poolVa) : pageSize ∣ pa := by
  rcases h with ⟨idx, -, -, rfl⟩ | ⟨r, hr, hlive⟩
  · exact hpool.page_dvd idx
  · obtain ⟨mm, lo, nr, given, m, hbooted⟩ := (hinv.boots r hr).inv
    obtain ⟨-, -, -, -, haligned, -⟩ := hbooted.tracked.block_bytes hlive
    exact Nat.dvd_of_mod_eq_zero haligned

/-- What the caller of `alloc_page` gets. -/
structure FreshPage (s : FrameState) (pa : ℕ) : Prop where
  aligned : pageSize ∣ pa
  zero : ∀ i < pageSize, s.mem (pa + i) = 0
  new : pa ∉ s.returned
  apart : ∀ r, s.buddy = some r → ∀ b ∈ r.live, b ≠ (pa, 0) →
    Clear pa pageSize b.1 (2 ^ b.2 * pageSize)

private theorem Inv.apart {pa : ℕ} (h : s.Inv k poolVa) (hpool : PoolPlaced k.info poolVa)
    (hout : s.Out pa)
    {r : Booted} (hr : s.buddy = some r) {b : ℕ × ℕ} (hb : b ∈ r.live) (hne : b ≠ (pa, 0)) :
    Clear pa pageSize b.1 (2 ^ b.2 * pageSize) := by
  rcases h.source pa hout with ⟨idx, hidx, -, rfl⟩ | ⟨r', hr', hlive⟩
  · exact (h.boots r hr).clear_poolPage hpool hb hidx
  · obtain rfl := Option.some.inj (hr.symm.trans hr')
    have hclear := (h.boots r hr).clear hlive hb hne.symm
    rwa [Nat.pow_zero, Nat.one_mul] at hclear

private theorem Inv.freshPage {pa : ℕ} (h : s.Inv k poolVa) (hpool : PoolPlaced k.info poolVa)
    (hpc : s.pc c = .ret pa) : s.FreshPage pa := by
  have hpage : (s.pc c).page = some pa := by rw [hpc]; rfl
  have hout : s.Out pa := .inr ⟨c, hpage⟩
  have hcleared := h.cleared c pa hpage
  rw [hpc] at hcleared
  exact ⟨(h.source pa hout).page_dvd h hpool, fun i hi => hcleared i hi hi,
    h.distinct.taken c pa hpage, fun r hr b hb hne => h.apart hpool hout hr hb hne⟩

/-! ## Calls that return -/

private theorem reach_call (h : (frameSystem k poolVa).Reachable s) (hpc : s.pc c = .outside) :
    (frameSystem k poolVa).Reachable (s.goto c .get) := h.step (e := .call c) ⟨hpc, rfl⟩

private theorem reach_run (h : (frameSystem k poolVa).Reachable s) (c : Fin maxCpus) :
    (frameSystem k poolVa).Reachable (s.run poolVa c) := h.step (e := .run c) rfl

private theorem reach_install {a : BuddyAllocator} (h : (frameSystem k poolVa).Reachable s)
    (hnone : s.buddy = none) (ha : k.bootBuddy = .ok a) :
    (frameSystem k poolVa).Reachable { s with buddy := some ⟨a, [], false⟩ } :=
  h.step (e := .install) ⟨hnone, a, ha, rfl⟩

private theorem reach_pool_page (hpool : PoolPlaced k.info poolVa)
    (h : (frameSystem k poolVa).Reachable s)
    (hnone : s.buddy = none) (hpc : s.pc c = .outside) (hnext : s.next < poolPages) :
    ∃ s', (frameSystem k poolVa).Reachable s' ∧ s'.buddy = none ∧ s'.returned = s.returned ∧
      s'.pc c = .ret (poolPage poolVa s.next) := by
  have hbump := bumpAllocPage_ok hpool.image hpool.lt hnext
  refine ⟨_, reach_run (reach_run (reach_call h hpc) c) c, ?_, ?_, ?_⟩ <;>
    simp [goto, run, hnone, hbump, poolPage]

private theorem reach_zeroed {pa va done : ℕ} (left : ℕ) (h : (frameSystem k poolVa).Reachable s)
    (hpc : s.pc c = .zero pa done) (hva : paToLinearVa pa = .ok va)
    (hleft : pageSize ≤ done + left) :
    ∃ mem, (frameSystem k poolVa).Reachable { s.goto c (.ret pa) with mem := mem } := by
  have hrun := reach_run h c
  induction left generalizing s done with
  | zero =>
      simp only [run, hpc, hva, if_neg (show ¬ done < pageSize by omega)] at hrun
      exact ⟨s.mem, hrun⟩
  | succ left ih =>
      by_cases hlt : done < pageSize
      · simp only [run, hpc, hva, if_pos hlt] at hrun
        obtain ⟨mem, hmem⟩ := ih hrun (Function.update_self _ _ _) (by omega) (reach_run hrun c)
        simp only [goto, Function.update_idem] at hmem
        exact ⟨mem, hmem⟩
      · simp only [run, hpc, hva, if_neg hlt] at hrun
        exact ⟨s.mem, hrun⟩

private theorem reach_buddy_page {r : Booted} {pa va : ℕ} {allocator : BuddyAllocator}
    (h : (frameSystem k poolVa).Reachable s) (hr : s.buddy = some r) (hpc : s.pc c = .outside)
    (halloc : r.allocator.allocPages 0 = .ok (some pa, allocator))
    (hva : paToLinearVa pa = .ok va) :
    ∃ s', (frameSystem k poolVa).Reachable s' ∧ s'.returned = s.returned ∧ s'.pc c = .ret pa := by
  have hlock := reach_run (reach_run (reach_call h hpc) c) c
  have htaken : (((s.goto c .get).run poolVa c).run poolVa c).pc c = .zero pa 0 := by
    simp [goto, run, hr, halloc]
  obtain ⟨mem, hmem⟩ := reach_zeroed pageSize hlock htaken hva (Nat.le_add_left _ _)
  refine ⟨_, hmem, ?_, Function.update_self _ _ _⟩
  simp [goto, run, hr, halloc]

/-! ## Across the installation -/

/-- Along every interleaving, whenever a CPU is about to return from `alloc_page` its page is fresh;
what was returned stays apart from everybody else's blocks, and none of these meets the pool. -/
theorem allocPage_fresh (hpool : PoolPlaced k.info poolVa)
    (h : (frameSystem k poolVa).Reachable s) :
    (∀ c pa, s.pc c = .ret pa → s.FreshPage pa) ∧ s.returned.Nodup ∧
      ∀ r, s.buddy = some r → ∀ b ∈ r.live,
        (∀ pa ∈ s.returned, b ≠ (pa, 0) → Clear pa pageSize b.1 (2 ^ b.2 * pageSize)) ∧
        ∀ idx < poolPages, Clear (poolPage poolVa idx) pageSize b.1 (2 ^ b.2 * pageSize) := by
  have hinv := inv_of_reachable hpool h
  exact ⟨fun c pa hpc => hinv.freshPage hpool hpc, hinv.distinct.nodup, fun r hr b hb =>
    ⟨fun pa hpa hne => hinv.apart hpool (.inl hpa) hr hb hne,
      fun idx hidx => (hinv.boots r hr).clear_poolPage hpool hb hidx⟩⟩

private theorem smallInfo_pool : PoolPlaced smallInfo (imagePage 264) :=
  ⟨by decide, by decide, by decide, by decide⟩

/-- A page of the pool was returned before the allocator was installed, and a page of the allocator
is about to be returned. -/
theorem allocPage_fresh_small : ∃ c s, (frameSystem (smallKernel [0]) (imagePage 264)).Reachable s ∧
    s.returned = [0x40108000] ∧ s.pc c = .ret 0x401FC000 ∧ s.FreshPage 0x401FC000 := by
  obtain ⟨a, ha⟩ := smallInfo_boots
  obtain ⟨a', halloc⟩ : ∃ a', a.allocPages 0 = .ok (some 0x401FC000, a') :=
    smallInfo_allocPages ha (by decide +kernel)
  obtain ⟨c⟩ : Nonempty (Fin maxCpus) := ⟨⟨0, by decide⟩⟩
  have hstart : (frameSystem (smallKernel [0]) (imagePage 264)).Reachable
      ⟨0, none, fun _ => 0, fun _ => .outside, []⟩ :=
    .init ⟨rfl, rfl, fun _ => rfl, rfl, fun _ _ _ _ => rfl⟩
  obtain ⟨s₁, h₁, hnone, hreturned, hpc⟩ :=
    reach_pool_page (c := c) smallInfo_pool hstart rfl rfl (by decide)
  have hout : (s₁.run (imagePage 264) c).pc c = .outside ∧
      (s₁.run (imagePage 264) c).returned = [0x40108000] ∧
      (s₁.run (imagePage 264) c).buddy = none := by
    simp [run, goto, hpc, hreturned, hnone, poolPage, imagePa, imagePage, kernelImageBase,
      imagePaBase, pageSize]
  have h₂ := reach_install (reach_run h₁ c) hout.2.2 ((smallKernel_bootBuddy [0]).trans ha)
  obtain ⟨s, h, hreturned', hpc'⟩ := reach_buddy_page h₂ rfl hout.1 halloc rfl
  exact ⟨c, s, h, hreturned'.trans hout.2.1, hpc', (allocPage_fresh smallInfo_pool h).1 c _ hpc'⟩

end FrameState

end Preon.Cpu
