import Preon.Framework.LinkedList
import Preon.Memory.FrameMapOps

/-!
# The mem-map represents a frame map

`Represents s m` says that the descriptors of `s` carry the labels of `m` and that the links
threaded through them are the free sequences of `m`.  Pushing and unlinking a descriptor are
then pushing and taking a block of `m`.
-/

namespace Preon.Memory

open Framework

namespace BuddyAllocator

def info (s : BuddyAllocator) (p : ℕ) : PageInfo := s.pages.getD p default

def area (s : BuddyAllocator) (k : ℕ) : Option ℕ := s.freeArea.getD k none

def linkOf (raw : ℕ) : Option ℕ := if raw = rawNone then none else some raw

def nextOf (s : BuddyAllocator) (p : ℕ) : Option ℕ := linkOf (s.info p).next

def prevOf (s : BuddyAllocator) (p : ℕ) : Option ℕ := linkOf (s.info p).prev

def putPage (s : BuddyAllocator) (p : ℕ) (page : PageInfo) : BuddyAllocator :=
  { s with pages := s.pages.set p page }

def putArea (s : BuddyAllocator) (k : ℕ) (head : Option ℕ) : BuddyAllocator :=
  { s with freeArea := s.freeArea.set k head }

theorem page_ok {s : BuddyAllocator} {p : ℕ} (hp : p < s.pages.length) :
    s.page p = .ok (s.info p) := index_ok hp _

private theorem pageMut_ok {s : BuddyAllocator} {p : ℕ} {f : PageInfo → Outcome PageInfo}
    {page : PageInfo} (hp : p < s.pages.length) (hf : f (s.info p) = .ok page) :
    s.pageMut p f = .ok (s.putPage p page) := by
  rw [pageMut, page_ok hp, ok_bind, hf, ok_bind, setIndex_ok hp, ok_bind]
  rfl

theorem pageMut_map {s : BuddyAllocator} {p : ℕ} (hp : p < s.pages.length)
    (g : PageInfo → PageInfo) :
    s.pageMut p (fun page => .ok (g page)) = .ok (s.putPage p (g (s.info p))) := pageMut_ok hp rfl

private theorem setArea_ok {s : BuddyAllocator} {k : ℕ} (hk : k < s.freeArea.length)
    (head : Option ℕ) :
    s.setArea k head = .ok (s.putArea k head) := by
  rw [setArea, setIndex_ok hk, ok_bind]
  rfl

theorem info_putPage {s : BuddyAllocator} {p : ℕ} (hp : p < s.pages.length) (page : PageInfo)
    (q : ℕ) : (s.putPage p page).info q = if q = p then page else s.info q :=
  getD_set s.pages hp page default q

private theorem area_putArea {s : BuddyAllocator} {k : ℕ} (hk : k < s.freeArea.length)
    (head : Option ℕ)
    (j : ℕ) : (s.putArea k head).area j = if j = k then head else s.area j :=
  getD_set s.freeArea hk head none j

@[simp] theorem pages_length_putPage (s : BuddyAllocator) (p : ℕ) (page : PageInfo) :
    (s.putPage p page).pages.length = s.pages.length := List.length_set

@[simp] theorem freeArea_length_putArea (s : BuddyAllocator) (k : ℕ) (head : Option ℕ) :
    (s.putArea k head).freeArea.length = s.freeArea.length := List.length_set

/-- Two allocators over the same frames with the same count of free frames. -/
structure SameFrames (s s' : BuddyAllocator) : Prop where
  nrFrames : s'.nrFrames = s.nrFrames
  dramBase : s'.dramBase = s.dramBase
  freeFrames : s'.freeFrames = s.freeFrames

theorem SameFrames.refl (s : BuddyAllocator) : SameFrames s s := ⟨rfl, rfl, rfl⟩

theorem SameFrames.trans {s s' s'' : BuddyAllocator} (h : SameFrames s s')
    (h' : SameFrames s' s'') : SameFrames s s'' :=
  ⟨h'.nrFrames.trans h.nrFrames, h'.dramBase.trans h.dramBase, h'.freeFrames.trans h.freeFrames⟩

theorem sameFrames_putPage (s : BuddyAllocator) (p : ℕ) (page : PageInfo) :
    SameFrames s (s.putPage p page) := ⟨rfl, rfl, rfl⟩

/-- `s'` is `s` with new links: states, orders and sizes are as they were. -/
structure Relinked (s s' : BuddyAllocator) (next prev area : ℕ → Option ℕ) : Prop where
  frames : SameFrames s s'
  pages_length : s'.pages.length = s.pages.length
  area_length : s'.freeArea.length = s.freeArea.length
  state : ∀ q, (s'.info q).state = (s.info q).state
  order : ∀ q, (s'.info q).order = (s.info q).order
  next : ∀ q, s'.nextOf q = next q
  prev : ∀ q, s'.prevOf q = prev q
  area : ∀ k, s'.area k = area k

theorem linkOf_of_ne {raw : ℕ} (h : raw ≠ rawNone) : linkOf raw = some raw := if_neg h

private theorem linkOf_rawNone : linkOf rawNone = none := if_pos rfl

private theorem linkOf_injective : Function.Injective linkOf := by
  intro a b h
  by_cases ha : a = rawNone
  · by_cases hb : b = rawNone
    · rw [ha, hb]
    · rw [ha, linkOf_rawNone, linkOf_of_ne hb] at h
      cases h
  · by_cases hb : b = rawNone
    · rw [hb, linkOf_rawNone, linkOf_of_ne ha] at h
      cases h
    · rw [linkOf_of_ne ha, linkOf_of_ne hb] at h
      exact Option.some.inj h

theorem info_eq_of_links {s s' : BuddyAllocator} {q : ℕ}
    (hstate : (s'.info q).state = (s.info q).state) (horder : (s'.info q).order = (s.info q).order)
    (hnext : s'.nextOf q = s.nextOf q) (hprev : s'.prevOf q = s.prevOf q) :
    s'.info q = s.info q := by
  have hn : (s'.info q).next = (s.info q).next := linkOf_injective hnext
  have hp : (s'.info q).prev = (s.info q).prev := linkOf_injective hprev
  cases h₁ : s'.info q
  cases h₂ : s.info q
  simp only [h₁, h₂] at hstate horder hn hp
  simp [hstate, horder, hn, hp]

private theorem setNext_ok (page : PageInfo) {link : Option ℕ} (h : link ≠ some rawNone) :
    ∃ raw, page.setNext link = .ok { page with next := raw } ∧ linkOf raw = link := by
  cases link with
  | none => exact ⟨rawNone, rfl, linkOf_rawNone⟩
  | some p =>
      have hp : p ≠ rawNone := fun he => h (by rw [he])
      refine ⟨p, ?_, linkOf_of_ne hp⟩
      rw [PageInfo.setNext, debugAssert_true hp]
      rfl

private theorem setPrev_ok (page : PageInfo) {link : Option ℕ} (h : link ≠ some rawNone) :
    ∃ raw, page.setPrev link = .ok { page with prev := raw } ∧ linkOf raw = link := by
  cases link with
  | none => exact ⟨rawNone, rfl, linkOf_rawNone⟩
  | some p =>
      have hp : p ≠ rawNone := fun he => h (by rw [he])
      refine ⟨p, ?_, linkOf_of_ne hp⟩
      rw [PageInfo.setPrev, debugAssert_true hp]
      rfl

private theorem setArea_relinked {s : BuddyAllocator} {k : ℕ} (hk : k < s.freeArea.length)
    (head : Option ℕ) :
    ∃ s', s.setArea k head = .ok s' ∧
      Relinked s s' s.nextOf s.prevOf (fun j => if j = k then head else s.area j) :=
  ⟨_, setArea_ok hk head, ⟨rfl, rfl, rfl⟩, rfl, by simp, fun _ => rfl, fun _ => rfl,
    fun _ => rfl, fun _ => rfl, area_putArea hk head⟩

private theorem Relinked.trans {s s' s'' : BuddyAllocator}
    {next prev area next' prev' area' : ℕ → Option ℕ}
    (h : Relinked s s' next prev area) (h' : Relinked s' s'' next' prev' area') :
    Relinked s s'' next' prev' area' :=
  ⟨h.frames.trans h'.frames, h'.pages_length.trans h.pages_length,
    h'.area_length.trans h.area_length, fun q => (h'.state q).trans (h.state q),
    fun q => (h'.order q).trans (h.order q), h'.next, h'.prev, h'.area⟩

private theorem Relinked.congr {s s' : BuddyAllocator}
    {next prev area next' prev' area' : ℕ → Option ℕ}
    (h : Relinked s s' next prev area) (hn : ∀ q, next q = next' q) (hp : ∀ q, prev q = prev' q)
    (ha : ∀ k, area k = area' k) : Relinked s s' next' prev' area' :=
  ⟨h.frames, h.pages_length, h.area_length, h.state, h.order, fun q => (h.next q).trans (hn q),
    fun q => (h.prev q).trans (hp q), fun k => (h.area k).trans (ha k)⟩

private theorem Relinked.info_eq {s s' : BuddyAllocator} {next prev area : ℕ → Option ℕ}
    (h : Relinked s s' next prev area) {q : ℕ} (hn : next q = s.nextOf q)
    (hp : prev q = s.prevOf q) :
    s'.info q = s.info q :=
  info_eq_of_links (h.state q) (h.order q) ((h.next q).trans hn) ((h.prev q).trans hp)

/-- Rewriting one descriptor but for its state and order. -/
theorem relinked_putPage {s : BuddyAllocator} {p : ℕ} (hp : p < s.pages.length) {page : PageInfo}
    (hstate : page.state = (s.info p).state) (horder : page.order = (s.info p).order) :
    Relinked s (s.putPage p page) (fun q => if q = p then linkOf page.next else s.nextOf q)
      (fun q => if q = p then linkOf page.prev else s.prevOf q) s.area := by
  refine ⟨sameFrames_putPage .., by simp, rfl, ?_, ?_, ?_, ?_, fun k => rfl⟩
  all_goals intro q
  · rw [info_putPage hp]
    split
    · next hq => rw [hq, hstate]
    · rfl
  · rw [info_putPage hp]
    split
    · next hq => rw [hq, horder]
    · rfl
  · rw [nextOf, info_putPage hp]
    split <;> rfl
  · rw [prevOf, info_putPage hp]
    split <;> rfl

private theorem ite_eq_apply (f : ℕ → Option ℕ) (p q : ℕ) : (if q = p then f p else f q) = f q :=
  ite_eq_right_iff.mpr fun hq => by rw [hq]

private theorem pageMut_setNext {s : BuddyAllocator} {p : ℕ} (hp : p < s.pages.length)
    (link : Option ℕ)
    (hl : link ≠ some rawNone) :
    ∃ s', s.pageMut p (·.setNext link) = .ok s' ∧
      Relinked s s' (fun q => if q = p then link else s.nextOf q) s.prevOf s.area := by
  obtain ⟨raw, hset, rfl⟩ := setNext_ok (s.info p) hl
  have hput : Relinked s (s.putPage p { s.info p with next := raw }) _ _ _ :=
    relinked_putPage hp rfl rfl
  refine ⟨_, pageMut_ok hp hset, hput.congr ?_ ?_ ?_⟩
  · exact fun q => rfl
  · exact ite_eq_apply s.prevOf p
  · exact fun k => rfl

private theorem pageMut_setPrev {s : BuddyAllocator} {p : ℕ} (hp : p < s.pages.length)
    (link : Option ℕ)
    (hl : link ≠ some rawNone) :
    ∃ s', s.pageMut p (·.setPrev link) = .ok s' ∧
      Relinked s s' s.nextOf (fun q => if q = p then link else s.prevOf q) s.area := by
  obtain ⟨raw, hset, rfl⟩ := setPrev_ok (s.info p) hl
  have hput : Relinked s (s.putPage p { s.info p with prev := raw }) _ _ _ :=
    relinked_putPage hp rfl rfl
  refine ⟨_, pageMut_ok hp hset, hput.congr ?_ ?_ ?_⟩
  · exact ite_eq_apply s.nextOf p
  · exact fun q => rfl
  · exact fun k => rfl

/-! ## The two list edits -/

private theorem setPrevOf_relinked (s : BuddyAllocator) (link prev : Option ℕ)
    (hlink : ∀ q, link = some q → q < s.pages.length) (hprev : prev ≠ some rawNone) :
    ∃ s', s.setPrevOf link prev = .ok s' ∧
      Relinked s s' s.nextOf (fun q => if link = some q then prev else s.prevOf q) s.area := by
  cases link with
  | none =>
      refine ⟨s, rfl, SameFrames.refl s, rfl, rfl, fun _ => rfl, fun _ => rfl, fun _ => rfl, ?_,
        fun _ => rfl⟩
      intro q
      simp
  | some h =>
      obtain ⟨s', hs', hr⟩ := pageMut_setPrev (hlink h rfl) prev hprev
      exact ⟨s', hs', hr.congr (fun _ => rfl) (fun q => by simp only [Option.some.injEq, eq_comm])
        (fun _ => rfl)⟩

private theorem setForward_relinked {s : BuddyAllocator} {k : ℕ} {prev next : Option ℕ}
    (hk : k < s.freeArea.length) (hprev : ∀ q, prev = some q → q < s.pages.length)
    (hnext : next ≠ some rawNone) :
    ∃ s', s.setForward k prev next = .ok s' ∧
      Relinked s s' (fun q => if prev = some q then next else s.nextOf q) s.prevOf
        (fun j => if prev = none ∧ j = k then next else s.area j) := by
  cases prev with
  | none =>
      obtain ⟨s', hs', hr⟩ := setArea_relinked hk next
      exact ⟨s', hs', hr.congr (fun q => by simp) (fun _ => rfl) (fun j => by simp)⟩
  | some p =>
      obtain ⟨s', hs', hr⟩ := pageMut_setNext (hprev p rfl) next hnext
      exact ⟨s', hs', hr.congr (fun q => by simp only [Option.some.injEq, eq_comm])
        (fun _ => rfl) (fun j => by simp)⟩

private theorem pushFront_relinked {s : BuddyAllocator} {k p : ℕ} (hp : p < s.pages.length)
    (hfree : (s.info p).state = .free) (hk : k < s.freeArea.length) (hraw : p ≠ rawNone)
    (hhead : ∀ h, s.area k = some h → h < s.pages.length ∧ h ≠ rawNone) :
    ∃ s', s.pushFront k p = .ok s' ∧
      Relinked s s' (fun q => if q = p then s.area k else s.nextOf q)
        (fun q => if s.area k = some q then some p else if q = p then none else s.prevOf q)
        (fun j => if j = k then some p else s.area j) := by
  have hassert : debugAssert (s.info p).isFree = .ok () :=
    debugAssert_true (by simp [PageInfo.isFree, hfree])
  have hold : index s.freeArea k = .ok (s.area k) := index_ok hk none
  obtain ⟨s₁, hs₁, hr₁⟩ := pageMut_setPrev hp none (by nofun)
  obtain ⟨s₂, hs₂, hr₂⟩ := pageMut_setNext (s := s₁) (p := p)
    (by rw [hr₁.pages_length]; exact hp) (s.area k) (fun he => (hhead _ he).2 rfl)
  have hr₁₂ := hr₁.trans hr₂
  obtain ⟨s₃, hs₃, hr₃⟩ := setPrevOf_relinked s₂ (s.area k) (some p)
    (fun q hq => by rw [hr₁₂.pages_length]; exact (hhead q hq).1) (by simpa using hraw)
  have hr₁₃ := hr₁₂.trans hr₃
  obtain ⟨s₄, hs₄, hr₄⟩ := setArea_relinked (s := s₃) (k := k)
    (by rw [hr₁₃.area_length]; exact hk) (some p)
  refine ⟨s₄, ?_, (hr₁₃.trans hr₄).congr ?_ ?_ ?_⟩
  · rw [pushFront, page_ok hp, ok_bind, hassert, ok_bind, hold, ok_bind, hs₁, ok_bind, hs₂,
      ok_bind, hs₃, ok_bind, hs₄]
  · intro q
    rw [hr₃.next, hr₂.next, hr₁.next]
  · intro q
    rw [hr₃.prev, hr₂.prev, hr₁.prev]
  · intro j
    rw [hr₃.area, hr₂.area, hr₁.area]

private theorem unlink_relinked {s : BuddyAllocator} {k p : ℕ} (hp : p < s.pages.length)
    (hfree : (s.info p).state = .free) (hk : k < s.freeArea.length)
    (hprev : ∀ q, s.prevOf p = some q → q < s.pages.length ∧ q ≠ rawNone)
    (hnext : ∀ q, s.nextOf p = some q → q < s.pages.length ∧ q ≠ rawNone) :
    ∃ s', s.unlink k p = .ok s' ∧
      Relinked s s' (fun q => if s.prevOf p = some q then s.nextOf p else s.nextOf q)
        (fun q => if s.nextOf p = some q then s.prevOf p else s.prevOf q)
        (fun j => if s.prevOf p = none ∧ j = k then s.nextOf p else s.area j) := by
  have hassert : debugAssert (s.info p).isFree = .ok () :=
    debugAssert_true (by simp [PageInfo.isFree, hfree])
  have hpl : (s.info p).prevLink = .ok (s.prevOf p) := by
    rw [PageInfo.prevLink, hassert]
    rfl
  have hnl : (s.info p).nextLink = .ok (s.nextOf p) := by
    rw [PageInfo.nextLink, hassert]
    rfl
  obtain ⟨s₁, hs₁, hr₁⟩ := setForward_relinked hk (fun q hq => (hprev q hq).1)
    (fun he => (hnext _ he).2 rfl)
  obtain ⟨s₂, hs₂, hr₂⟩ := setPrevOf_relinked s₁ (s.nextOf p) (s.prevOf p)
    (fun q hq => by rw [hr₁.pages_length]; exact (hnext q hq).1) (fun he => (hprev _ he).2 rfl)
  refine ⟨s₂, ?_, (hr₁.trans hr₂).congr hr₁.next ?_ hr₁.area⟩
  · rw [unlink, page_ok hp, ok_bind, hpl, ok_bind, hnl, ok_bind, hs₁, ok_bind, hs₂]
  · intro q
    rw [hr₁.prev]

/-! ## Representation -/

/-- What a descriptor says about the label of its frame.  The descriptor of a detached block is
stale. -/
def Describes (page : PageInfo) : Label → Prop
  | .reserved => page.state = .reserved
  | .free k => page.state = .free ∧ page.order = k
  | .allocated k => page.state = .allocated ∧ page.order = k
  | .tail => page.state = .tail
  | .detached _ => True

structure Represents (s : BuddyAllocator) (m : FrameMap) : Prop where
  nr_lt : s.nrFrames < 2 ^ 32
  pages_le : s.nrFrames ≤ s.pages.length
  area_length : s.freeArea.length = maxOrder
  page : ∀ p < s.nrFrames, Describes (s.info p) (m.label p)
  linked : ∀ k < maxOrder, Linked s.nextOf s.prevOf none (s.area k) (m.queue k)

theorem Represents.lt_pages {s : BuddyAllocator} {m : FrameMap} (h : Represents s m) {p : ℕ}
    (hp : p < s.nrFrames) : p < s.pages.length ∧ p ≠ rawNone := by
  have h₁ := h.nr_lt
  have h₂ := h.pages_le
  simp only [rawNone]
  omega

private theorem Relinked.represents {s s' : BuddyAllocator} {m m' : FrameMap}
    {next prev area : ℕ → Option ℕ}
    (h : Relinked s s' next prev area) (hs : Represents s m)
    (hpage : ∀ p < s.nrFrames, Describes (s.info p) (m'.label p))
    (hlinked : ∀ k < maxOrder, Linked next prev none (area k) (m'.queue k)) : Represents s' m' := by
  have hnext : s'.nextOf = next := funext h.next
  have hprev : s'.prevOf = prev := funext h.prev
  refine ⟨by rw [h.frames.nrFrames]; exact hs.nr_lt,
    by rw [h.frames.nrFrames, h.pages_length]; exact hs.pages_le,
    h.area_length.trans hs.area_length, ?_, ?_⟩
  · intro p hp
    rw [h.frames.nrFrames] at hp
    have := hpage p hp
    cases hl : m'.label p <;> rw [hl] at this <;>
      simp only [Describes, h.state p, h.order p] at this ⊢ <;> exact this
  · intro k hk
    rw [hnext, hprev, h.area]
    exact hlinked k hk

/-- The descriptors of the reserved and the allocated frames of `m` are as they were. -/
structure Frozen (m : FrameMap) (s s' : BuddyAllocator) : Prop where
  pages_length : s'.pages.length = s.pages.length
  page : ∀ q, ¬ FrameMap.Pooled (m.label q) → s'.info q = s.info q

theorem Frozen.refl (m : FrameMap) (s : BuddyAllocator) : Frozen m s s := ⟨rfl, fun _ _ => rfl⟩

theorem Frozen.trans {m : FrameMap} {s s' s'' : BuddyAllocator} (h : Frozen m s s')
    (h' : Frozen m s' s'') : Frozen m s s'' :=
  ⟨h'.pages_length.trans h.pages_length, fun q hq => (h'.page q hq).trans (h.page q hq)⟩

theorem Frozen.of_kept {m m' : FrameMap} {s s' : BuddyAllocator} (hk : FrameMap.Kept m m')
    (h : Frozen m' s s') : Frozen m s s' :=
  ⟨h.pages_length, fun q hq => h.page q (fun hp => hq ((hk.pooled_iff q).mp hp))⟩

theorem Frozen.withFreeFrames {m : FrameMap} {s s' : BuddyAllocator}
    (h : Frozen m s s') (count : ℕ) :
    Frozen m s { s' with freeFrames := count } := ⟨h.pages_length, h.page⟩

theorem frozen_putPage {m : FrameMap} {s : BuddyAllocator} {p : ℕ} (hp : p < s.pages.length)
    (hpool : FrameMap.Pooled (m.label p)) (page : PageInfo) : Frozen m s (s.putPage p page) := by
  constructor
  · exact pages_length_putPage ..
  · intro q hq
    have hqp : q ≠ p := by
      intro he
      exact hq (he ▸ hpool)
    rw [info_putPage hp, if_neg hqp]

theorem Represents.putPage {s : BuddyAllocator} {m : FrameMap} (h : Represents s m)
    (hq : FrameMap.Queued s.nrFrames m) {p : ℕ} (hp : p < s.nrFrames)
    (hpf : ∀ j, m.label p ≠ .free j) (page : PageInfo) (l : Label) (hl : Describes page l) :
    Represents (s.putPage p page) (m.relabel p l) := by
  have hlt := (h.lt_pages hp).1
  refine ⟨h.nr_lt, ?_, h.area_length, ?_, ?_⟩
  · rw [pages_length_putPage]
    exact h.pages_le
  · intro q hqn
    rw [info_putPage hlt, FrameMap.relabel_label]
    by_cases hqp : q = p
    · subst hqp
      rw [if_pos rfl, setLabel_self]
      exact hl
    · rw [if_neg hqp, setLabel_of_ne _ _ hqp]
      exact h.page q hqn
  · intro k hk
    apply (h.linked k hk).congr
    all_goals
      intro q hmem
      have hqp : q ≠ p := by
        rintro rfl
        exact hq.not_mem hpf k hmem
    · rw [nextOf, info_putPage hlt, if_neg hqp, nextOf]
    · rw [prevOf, info_putPage hlt, if_neg hqp, prevOf]

private theorem Represents.describes_setLabel {s : BuddyAllocator} {m : FrameMap}
    (h : Represents s m)
    {p : ℕ} {l : Label} (hl : Describes (s.info p) l) :
    ∀ q < s.nrFrames, Describes (s.info q) (setLabel m.label p l q) := by
  intro q hqn
  by_cases hqp : q = p
  · subst hqp
    rw [setLabel_self]
    exact hl
  · rw [setLabel_of_ne _ _ hqp]
    exact h.page q hqn

theorem Represents.relabel {s : BuddyAllocator} {m : FrameMap} (h : Represents s m) {p : ℕ}
    {l : Label} (hl : Describes (s.info p) l) : Represents s (m.relabel p l) :=
  ⟨h.nr_lt, h.pages_le, h.area_length, h.describes_setLabel hl, h.linked⟩

theorem Represents.head_mem {s : BuddyAllocator} {m : FrameMap} (h : Represents s m) {k p : ℕ}
    (hk : k < maxOrder) (hp : s.area k = some p) : p ∈ m.queue k := by
  apply List.mem_of_mem_head?
  rw [← (h.linked k hk).head_eq, hp]
  rfl

theorem pushFront_represents {s : BuddyAllocator} {m : FrameMap} (h : Represents s m)
    (hq : FrameMap.Queued s.nrFrames m) {k p : ℕ} (hpn : p < s.nrFrames) (hk : k < maxOrder)
    (hpf : ∀ j, m.label p ≠ .free j) (hstate : (s.info p).state = .free)
    (horder : (s.info p).order = k) :
    ∃ s', s.pushFront k p = .ok s' ∧ Represents s' (m.push k p) ∧ SameFrames s s' ∧
      Frozen (m.push k p) s s' := by
  have hlist := h.linked k hk
  have hfresh {j q : ℕ} (hm : q ∈ m.queue j) : q ≠ p := by
    rintro rfl
    exact hq.not_mem hpf j hm
  obtain ⟨s', hs', hr⟩ := pushFront_relinked (h.lt_pages hpn).1 hstate
    (by rw [h.area_length]; exact hk) (h.lt_pages hpn).2 (fun x hx =>
      h.lt_pages (hq.lt_of_mem (h.head_mem hk hx)))
  refine ⟨s', hs', hr.represents h ?_ ?_, hr.frames, hr.pages_length, ?_⟩
  · exact h.describes_setLabel ⟨hstate, horder⟩
  · intro j hj
    simp only [FrameMap.push, FrameMap.setQueue_queue, FrameMap.relabel_queue]
    split
    · next hjk =>
        subst hjk
        apply hlist.push (hq.nodup j)
        · simp
        · have : s.area j ≠ some p := fun he => hfresh (h.head_mem hj he) rfl
          simp [this]
        · intro q hm
          simp [hfresh hm]
        · intro q hm hne
          simp [hfresh hm, hne]
        · intro q hm
          simp [hm]
    · next hjk =>
        apply (h.linked j hj).congr
        · intro q hm
          simp [hfresh hm]
        · intro q hm
          have : s.area k ≠ some q := fun he => hjk (hq.order_unique hm (h.head_mem hk he))
          simp [hfresh hm, this]
  · intro q hpool
    change ¬ FrameMap.Pooled (setLabel m.label p (.free k) q) at hpool
    have hqp : q ≠ p := by
      intro he
      rw [he, setLabel_self] at hpool
      exact hpool (FrameMap.pooled_free k)
    rw [setLabel_of_ne _ _ hqp] at hpool
    have hhead : s.area k ≠ some q := by
      intro he
      rw [(hq.mem_queue k q).mp (h.head_mem hk he)] at hpool
      exact hpool (FrameMap.pooled_free k)
    apply hr.info_eq
    · simp [hqp]
    · simp [hqp, hhead]

theorem unlink_represents {s : BuddyAllocator} {m : FrameMap} (h : Represents s m)
    (hq : FrameMap.Queued s.nrFrames m) {k p : ℕ} (hp : m.label p = .free k) :
    ∃ s', s.unlink k p = .ok s' ∧ Represents s' (m.take k p) ∧ SameFrames s s' ∧ Frozen m s s' := by
  obtain ⟨hpn, hk⟩ := hq.in_range p k hp
  have hpq : p ∈ m.queue k := (hq.mem_queue k p).mpr hp
  have hlist := h.linked k hk
  have hrange {j q : ℕ} (hm : q ∈ m.queue j) : q < s.pages.length ∧ q ≠ rawNone :=
    h.lt_pages (hq.lt_of_mem hm)
  have hprevMem {q : ℕ} (he : s.prevOf p = some q) : q ∈ m.queue k := by
    rcases hlist.prev_mem hpq with hn | ⟨y, hy, hs⟩
    · rw [hn] at he
      cases he
    · rw [hs] at he
      exact Option.some.inj he ▸ hy
  have hnextMem {q : ℕ} (he : s.nextOf p = some q) : q ∈ m.queue k := hlist.next_mem hpq he
  have hpage := h.page p hpn
  rw [hp] at hpage
  obtain ⟨s', hs', hr⟩ := unlink_relinked (h.lt_pages hpn).1 hpage.1
    (by rw [h.area_length]; exact hk) (fun q he => hrange (hprevMem he))
    (fun q he => hrange (hnextMem he))
  refine ⟨s', hs', hr.represents h ?_ ?_, hr.frames, hr.pages_length, ?_⟩
  · exact h.describes_setLabel trivial
  · intro j hj
    simp only [FrameMap.take, FrameMap.setQueue_queue, FrameMap.relabel_queue]
    by_cases hjk : j = k
    · subst hjk
      have hu : Linked (fun q => if s.prevOf p = some q then s.nextOf p else s.nextOf q)
          (fun q => if s.nextOf p = some q then s.prevOf p else s.prevOf q) none
          (if s.prevOf p = none then s.nextOf p else s.area j) ((m.queue j).erase p) :=
        hlist.unlink (hq.nodup j) hpq (by simp) (fun q _ hne => if_neg hne)
          (fun q _ he => if_pos he)
          (fun q _ hne => if_neg hne) (fun q _ he => if_pos he)
      simpa only [and_true, if_true] using hu
    · simp only [hjk, and_false, if_false]
      apply (h.linked j hj).congr
      · intro q hm
        exact if_neg fun he => hjk (hq.order_unique hm (hprevMem he))
      · intro q hm
        exact if_neg fun he => hjk (hq.order_unique hm (hnextMem he))
  · intro q hpool
    have hout : q ∉ m.queue k := by
      intro hm
      rw [(hq.mem_queue k q).mp hm] at hpool
      exact hpool (FrameMap.pooled_free k)
    apply hr.info_eq
    · exact if_neg fun he => hout (hprevMem he)
    · exact if_neg fun he => hout (hnextMem he)

end BuddyAllocator

end Preon.Memory
