import Preon.Memory.FrameMap

/-!
# Allocation on labelled frame maps

The operations of the allocator as functions of the labels and the free sequences alone: take a
free block off its list, split a block, join two, put a block on a list.  Allocation and release
are loops of these, and each is described by what it does to the set of free frames.
-/

namespace Preon.Memory

open Framework

namespace FrameMap

/-- The free sequences list exactly the free heads. -/
structure Queued (nr : ℕ) (m : FrameMap) : Prop where
  nodup : ∀ k, (m.queue k).Nodup
  mem_queue : ∀ k p, p ∈ m.queue k ↔ m.label p = .free k
  in_range : ∀ p k, m.label p = .free k → p < nr ∧ k < maxOrder

/-- The labels partition the frames and the free heads are listed. -/
structure WellFormed (nr : ℕ) (m : FrameMap) : Prop where
  shape : Shape nr m.label
  queued : Queued nr m

/-- No block is off its list. -/
def AtRest (m : FrameMap) : Prop := ∀ p k, m.label p ≠ .detached k

def FreeAt (m : FrameMap) (f : ℕ) : Prop := ∃ p k, m.label p = .free k ∧ f ∈ block p k

def relabel (m : FrameMap) (p : ℕ) (l : Label) : FrameMap :=
  { m with label := setLabel m.label p l }

def setQueue (m : FrameMap) (k : ℕ) (xs : List ℕ) : FrameMap :=
  { m with queue := fun j => if j = k then xs else m.queue j }

/-- Take the free block at `p` off the list of order `k`. -/
def take (m : FrameMap) (k p : ℕ) : FrameMap :=
  (m.relabel p (.detached k)).setQueue k ((m.queue k).erase p)

/-- Put the block at `p` in front of the list of order `k`. -/
def push (m : FrameMap) (k p : ℕ) : FrameMap :=
  (m.relabel p (.free k)).setQueue k (p :: m.queue k)

/-- Free the upper half of the detached block of order `k + 1` at `b`. -/
def split (m : FrameMap) (b k : ℕ) : FrameMap := (m.relabel b (.detached k)).push k (b + 2 ^ k)

/-- Join the detached blocks of order `k` at `cur` and `buddy`. -/
def join (m : FrameMap) (cur buddy k : ℕ) : FrameMap :=
  (m.relabel (max cur buddy) .tail).relabel (min cur buddy) (.detached (k + 1))

def splitDown (order b : ℕ) : ℕ → FrameMap → FrameMap
  | 0, m => m
  | k + 1, m => if order < k + 1 then splitDown order b k (m.split b k) else m

def findOrder (m : FrameMap) (order : ℕ) : Option ℕ :=
  (List.range' order (maxOrder - order)).find? fun k => !(m.queue k).isEmpty

def allocate (m : FrameMap) (order : ℕ) : Option (ℕ × FrameMap) :=
  match m.findOrder order with
  | none => none
  | some k =>
      match m.queue k with
      | [] => none
      | b :: _ => some (b, (splitDown order b k (m.take k b)).relabel b (.allocated order))

def coalesce (nr : ℕ) : ℕ → FrameMap → (cur order : ℕ) → FrameMap × ℕ × ℕ
  | 0, m, cur, order => (m, cur, order)
  | rounds + 1, m, cur, order =>
      if cur ^^^ 2 ^ order < nr ∧ m.label (cur ^^^ 2 ^ order) = .free order then
        coalesce nr rounds
          ((m.take order (cur ^^^ 2 ^ order)).join cur (cur ^^^ 2 ^ order) order)
          (min cur (cur ^^^ 2 ^ order)) (order + 1)
      else (m, cur, order)

def release (nr : ℕ) (m : FrameMap) (p order : ℕ) : FrameMap :=
  let r := coalesce nr (maxOrder - 1 - order) (m.relabel p (.detached order)) p order
  r.1.push r.2.2 r.2.1

/-- Make a run of reserved frames one detached block. -/
def claim (m : FrameMap) (b k : ℕ) : FrameMap :=
  { m with label := fun f => if f = b then .detached k else if f ∈ block b k then .tail
    else m.label f }

@[simp] theorem relabel_label (m : FrameMap) (p : ℕ) (l : Label) :
    (m.relabel p l).label = setLabel m.label p l := rfl

@[simp] theorem relabel_queue (m : FrameMap) (p : ℕ) (l : Label) :
    (m.relabel p l).queue = m.queue := rfl

@[simp] theorem setQueue_queue (m : FrameMap) (k : ℕ) (xs : List ℕ) (j : ℕ) :
    (m.setQueue k xs).queue j = if j = k then xs else m.queue j := rfl

theorem eq_of_fields {m m' : FrameMap} (hlabel : ∀ f, m.label f = m'.label f)
    (hqueue : ∀ k, m.queue k = m'.queue k) : m = m' := by
  cases m
  cases m'
  exact congrArg₂ FrameMap.mk (funext hlabel) (funext hqueue)

/-! ## The primitive steps keep frame maps well formed -/

variable {nr : ℕ} {m : FrameMap}

theorem Queued.not_mem (h : Queued nr m) {p : ℕ} (hp : ∀ j, m.label p ≠ .free j) (k : ℕ) :
    p ∉ m.queue k := by
  rw [h.mem_queue]
  exact hp k

theorem Queued.lt_of_mem (h : Queued nr m) {k p : ℕ} (hp : p ∈ m.queue k) : p < nr :=
  (h.in_range p k ((h.mem_queue k p).mp hp)).1

theorem Queued.order_unique (h : Queued nr m) {j k p : ℕ} (hj : p ∈ m.queue j)
    (hk : p ∈ m.queue k) : j = k := by
  have hlabel := (h.mem_queue j p).mp hj
  rw [(h.mem_queue k p).mp hk] at hlabel
  exact (Label.free.inj hlabel).symm

theorem Queued.label_of_cons (h : Queued nr m) {k b : ℕ} {rest : List ℕ}
    (hq : m.queue k = b :: rest) : m.label b = .free k :=
  (h.mem_queue k b).mp (by simp [hq])

theorem take_label_self (m : FrameMap) (k p : ℕ) : (m.take k p).label p = .detached k :=
  setLabel_self ..

private theorem Queued.take (h : Queued nr m) {k p : ℕ} (hp : m.label p = .free k) :
    Queued nr (m.take k p) := by
  have hlabel {q j : ℕ} (hq : q ≠ p) : (m.take k p).label q = .free j ↔ m.label q = .free j := by
    change setLabel _ _ _ q = _ ↔ _
    rw [setLabel_of_ne _ _ hq]
  have hself (j : ℕ) : (m.take k p).label p ≠ .free j := by
    change setLabel _ _ _ p ≠ _
    rw [setLabel_self]
    nofun
  constructor
  · intro j
    simp only [FrameMap.take, setQueue_queue, relabel_queue]
    split
    · exact (h.nodup k).erase p
    · exact h.nodup j
  · intro j q
    by_cases hq : q = p
    · subst hq
      rw [iff_false_right (hself j)]
      simp only [FrameMap.take, setQueue_queue, relabel_queue]
      split
      · exact (h.nodup k).not_mem_erase
      · next hj =>
          rw [h.mem_queue, hp]
          simp [Ne.symm hj]
    · rw [hlabel hq, ← h.mem_queue]
      simp only [FrameMap.take, setQueue_queue, relabel_queue]
      split
      · next hj =>
          subst hj
          exact List.mem_erase_of_ne hq
      · exact Iff.rfl
  · intro q j hq
    have hqp : q ≠ p := by
      rintro rfl
      exact hself j hq
    exact h.in_range q j ((hlabel hqp).mp hq)

private theorem Queued.push (h : Queued nr m) {k p : ℕ} (hp : ∀ j, m.label p ≠ .free j)
    (hpn : p < nr)
    (hk : k < maxOrder) : Queued nr (m.push k p) := by
  have hlabel {q j : ℕ} (hq : q ≠ p) : (m.push k p).label q = .free j ↔ m.label q = .free j := by
    change setLabel _ _ _ q = _ ↔ _
    rw [setLabel_of_ne _ _ hq]
  have hself : (m.push k p).label p = .free k := setLabel_self ..
  constructor
  · intro j
    simp only [FrameMap.push, setQueue_queue, relabel_queue]
    split
    · exact List.nodup_cons.mpr ⟨h.not_mem hp k, h.nodup k⟩
    · exact h.nodup j
  · intro j q
    by_cases hq : q = p
    · subst hq
      rw [hself]
      simp only [FrameMap.push, setQueue_queue, relabel_queue]
      split
      · next hj => simp [hj]
      · next hj => simp [h.not_mem hp j, Ne.symm hj]
    · rw [hlabel hq, ← h.mem_queue]
      simp only [FrameMap.push, setQueue_queue, relabel_queue]
      split
      · next hj => simp [hj, hq]
      · exact Iff.rfl
  · intro q j hq
    by_cases hqp : q = p
    · subst hqp
      rw [hself] at hq
      cases hq
      exact ⟨hpn, hk⟩
    · exact h.in_range q j ((hlabel hqp).mp hq)

private theorem free_relabel {p : ℕ} {l : Label} (hp : ∀ j, m.label p ≠ .free j)
    (hl : ∀ j, l ≠ .free j) (q j : ℕ) :
    (m.relabel p l).label q = .free j ↔ m.label q = .free j := by
  rw [relabel_label]
  by_cases hq : q = p
  · subst hq
    rw [setLabel_self]
    exact ⟨fun h => absurd h (hl j), fun h => absurd h (hp j)⟩
  · rw [setLabel_of_ne _ _ hq]

theorem Queued.relabel (h : Queued nr m) {p : ℕ} {l : Label} (hp : ∀ j, m.label p ≠ .free j)
    (hl : ∀ j, l ≠ .free j) : Queued nr (m.relabel p l) :=
  ⟨h.nodup, fun k q => (h.mem_queue k q).trans (free_relabel hp hl q k).symm,
    fun q k hq => h.in_range q k ((free_relabel hp hl q k).mp hq)⟩

theorem free_claim {b k : ℕ} (hres : ∀ f ∈ block b k, m.label f = .reserved) (q j : ℕ) :
    (m.claim b k).label q = .free j ↔ m.label q = .free j := by
  change (if q = b then Label.detached k else if q ∈ block b k then .tail else m.label q) = _ ↔ _
  split
  · next hq => simp [hres q (hq ▸ start_mem_block b k)]
  · split
    · next hq => simp [hres q hq]
    · exact Iff.rfl

private theorem Queued.claim (h : Queued nr m) {b k : ℕ}
    (hres : ∀ f ∈ block b k, m.label f = .reserved) : Queued nr (m.claim b k) :=
  ⟨h.nodup, fun j q => (h.mem_queue j q).trans (free_claim hres q j).symm,
    fun q j hq => h.in_range q j ((free_claim hres q j).mp hq)⟩

theorem WellFormed.take (h : WellFormed nr m) {k p : ℕ} (hp : m.label p = .free k) :
    WellFormed nr (m.take k p) :=
  ⟨h.shape.relabel (k := k) (by rw [hp]; rfl) rfl, h.queued.take hp⟩

private theorem WellFormed.push (h : WellFormed nr m) {k p : ℕ} (hp : m.label p = .detached k) :
    WellFormed nr (m.push k p) := by
  have hhead : (m.label p).headOrder = some k := by rw [hp]; rfl
  exact ⟨h.shape.relabel hhead rfl,
    h.queued.push (by rw [hp]; nofun) (h.shape.lt_of_head hhead) (h.shape.head p k hhead).1⟩

theorem WellFormed.relabel (h : WellFormed nr m) {p k : ℕ} {l : Label}
    (hp : (m.label p).headOrder = some k) (hl : l.headOrder = some k)
    (hpf : ∀ j, m.label p ≠ .free j) (hlf : ∀ j, l ≠ .free j) : WellFormed nr (m.relabel p l) :=
  ⟨h.shape.relabel hp hl, h.queued.relabel hpf hlf⟩

theorem split_label (m : FrameMap) (b k : ℕ) :
    (m.split b k).label = setLabel (setLabel m.label b (.detached k)) (b + 2 ^ k) (.free k) := rfl

theorem WellFormed.upper_tail (h : WellFormed nr m) {b k : ℕ} (hb : m.label b = .detached (k + 1)) :
    (m.relabel b (.detached k)).label (b + 2 ^ k) = .tail := by
  have hpos := Nat.two_pow_pos k
  have hsucc := Nat.pow_succ 2 k
  rw [relabel_label, setLabel_of_ne _ _ (by omega)]
  exact h.shape.interior b (k + 1) _ (by rw [hb]; rfl) (by omega) (by omega)

private theorem WellFormed.split (h : WellFormed nr m) {b k : ℕ}
    (hb : m.label b = .detached (k + 1)) :
    WellFormed nr (m.split b k) := by
  obtain ⟨hk, -, hfit⟩ := h.shape.head b (k + 1) (by rw [hb]; rfl)
  have hpos := Nat.two_pow_pos k
  have hsucc := Nat.pow_succ 2 k
  refine ⟨h.shape.split (by rw [hb]; rfl) rfl rfl, ?_⟩
  apply (h.queued.relabel (by rw [hb]; nofun) (by nofun)).push
  · rw [h.upper_tail hb]
    nofun
  · omega
  · omega

private theorem WellFormed.join (h : WellFormed nr m) {cur k : ℕ} (hcur : m.label cur = .detached k)
    (hbuddy : m.label (cur ^^^ 2 ^ k) = .detached k) (hk : k + 1 < maxOrder) :
    WellFormed nr (m.join cur (cur ^^^ 2 ^ k) k) := by
  have hal := (h.shape.head cur k (by rw [hcur]; rfl)).2.1
  have hne := hal.xor_ne
  obtain ⟨hmin, hmax⟩ := hal.min_xor
  have hends (x : ℕ) (hx : x = cur ∨ x = cur ^^^ 2 ^ k) : m.label x = .detached k := by
    rcases hx with rfl | rfl
    · exact hcur
    · exact hbuddy
  have hlow := hends (min cur (cur ^^^ 2 ^ k)) (by omega)
  have hhigh := hends (max cur (cur ^^^ 2 ^ k)) (by omega)
  constructor
  · change Shape nr (setLabel (setLabel m.label _ .tail) _ _)
    rw [hmax]
    apply h.shape.merge (k := k) _ _ hmin hk rfl
    · rw [hlow]
      rfl
    · rw [← hmax, hhigh]
      rfl
  · apply (h.queued.relabel (by rw [hhigh]; nofun) (by nofun)).relabel _ (by nofun)
    rw [relabel_label, setLabel_of_ne _ _ (by omega), hlow]
    nofun

private theorem WellFormed.claim (h : WellFormed nr m) {b k : ℕ}
    (hres : ∀ f ∈ block b k, m.label f = .reserved) (hal : Aligned b k) (hk : k < maxOrder)
    (hfit : b + 2 ^ k ≤ nr) : WellFormed nr (m.claim b k) :=
  ⟨h.shape.seed hres hal hk hfit rfl, h.queued.claim hres⟩

/-! ## What the steps do to the free, the allocated and the reserved frames -/

private theorem freeAt_relabel {p : ℕ} {l : Label} (hp : ∀ j, m.label p ≠ .free j)
    (hl : ∀ j, l ≠ .free j)
    (f : ℕ) : FreeAt (m.relabel p l) f ↔ FreeAt m f := by
  simp only [FreeAt, free_relabel hp hl]

private theorem freeAt_push {k p : ℕ} (hp : ∀ j, m.label p ≠ .free j) (f : ℕ) :
    FreeAt (m.push k p) f ↔ FreeAt m f ∨ f ∈ block p k := by
  constructor
  · rintro ⟨q, j, hq, hf⟩
    change setLabel m.label p (.free k) q = .free j at hq
    by_cases hqp : q = p
    · subst hqp
      rw [setLabel_self] at hq
      cases hq
      exact .inr hf
    · rw [setLabel_of_ne _ _ hqp] at hq
      exact .inl ⟨q, j, hq, hf⟩
  · rintro (⟨q, j, hq, hf⟩ | hf)
    · have hqp : q ≠ p := by
        rintro rfl
        exact hp j hq
      exact ⟨q, j, (setLabel_of_ne _ _ hqp).trans hq, hf⟩
    · exact ⟨p, k, setLabel_self .., hf⟩

private theorem WellFormed.freeAt_take (h : WellFormed nr m) {k p : ℕ} (hp : m.label p = .free k)
    (f : ℕ) : FreeAt (m.take k p) f ↔ FreeAt m f ∧ f ∉ block p k := by
  constructor
  · rintro ⟨q, j, hq, hf⟩
    change setLabel m.label p (.detached k) q = .free j at hq
    have hqp : q ≠ p := by
      rintro rfl
      rw [setLabel_self] at hq
      cases hq
    rw [setLabel_of_ne _ _ hqp] at hq
    refine ⟨⟨q, j, hq, hf⟩, fun hfp => hqp ?_⟩
    exact (h.shape.head_unique (by rw [hq]; rfl) (by rw [hp]; rfl) hf hfp).1
  · rintro ⟨⟨q, j, hq, hf⟩, hn⟩
    have hqp : q ≠ p := by
      rintro rfl
      rw [hp] at hq
      cases hq
      exact hn hf
    exact ⟨q, j, (setLabel_of_ne _ _ hqp).trans hq, hf⟩

theorem WellFormed.not_freeAt (h : WellFormed nr m) {p k f : ℕ}
    (hp : (m.label p).headOrder = some k) (hpf : ∀ j, m.label p ≠ .free j)
    (hf : f ∈ block p k) : ¬ FreeAt m f := by
  rintro ⟨q, j, hq, hfq⟩
  obtain ⟨rfl, rfl⟩ := h.shape.head_unique hp (by rw [hq]; rfl) hf hfq
  exact hpf _ hq

/-- The labels that a frame may have while the allocator works on its block. -/
def Pooled (l : Label) : Prop :=
  l ≠ .reserved ∧ ∀ j, l ≠ .allocated j

/-- The allocated heads and the reserved frames of two maps are the same. -/
structure Kept (m m' : FrameMap) : Prop where
  allocated : ∀ q j, m'.label q = .allocated j ↔ m.label q = .allocated j
  reserved : ∀ q, m'.label q = .reserved ↔ m.label q = .reserved

private theorem Kept.refl (m : FrameMap) : Kept m m := ⟨fun _ _ => Iff.rfl, fun _ => Iff.rfl⟩

theorem Kept.trans {m m' m'' : FrameMap} (h : Kept m m') (h' : Kept m' m'') : Kept m m'' :=
  ⟨fun q j => (h'.allocated q j).trans (h.allocated q j),
    fun q => (h'.reserved q).trans (h.reserved q)⟩

theorem Kept.pooled_iff {m m' : FrameMap} (h : Kept m m') (q : ℕ) :
    Pooled (m'.label q) ↔ Pooled (m.label q) := by
  simp only [Pooled, ne_eq, h.reserved, h.allocated]

private theorem Kept.relabel {p : ℕ} {l : Label} (hp : Pooled (m.label p)) (hl : Pooled l) :
    Kept m (m.relabel p l) := by
  constructor
  · intro q j
    rw [relabel_label]
    by_cases hq : q = p
    · subst hq
      rw [setLabel_self]
      exact ⟨fun h => absurd h (hl.2 j), fun h => absurd h (hp.2 j)⟩
    · rw [setLabel_of_ne _ _ hq]
  · intro q
    rw [relabel_label]
    by_cases hq : q = p
    · subst hq
      rw [setLabel_self]
      exact ⟨fun h => absurd h hl.1, fun h => absurd h hp.1⟩
    · rw [setLabel_of_ne _ _ hq]

theorem pooled_free (k : ℕ) : Pooled (.free k) := ⟨nofun, nofun⟩

theorem pooled_detached (k : ℕ) : Pooled (.detached k) := ⟨nofun, nofun⟩

private theorem pooled_tail : Pooled .tail := ⟨nofun, nofun⟩

theorem Kept.take {k p : ℕ} (hp : Pooled (m.label p)) : Kept m (m.take k p) := by
  have h := Kept.relabel hp (pooled_detached k)
  exact ⟨h.allocated, h.reserved⟩

theorem Kept.push {k p : ℕ} (hp : Pooled (m.label p)) : Kept m (m.push k p) := by
  have h := Kept.relabel hp (pooled_free k)
  exact ⟨h.allocated, h.reserved⟩

/-- At most the block at `b` is off its list. -/
def OnlyDetached (m : FrameMap) (b : ℕ) : Prop := ∀ q j, m.label q = .detached j → q = b

theorem AtRest.relabel (h : AtRest m) (p : ℕ) (l : Label) : OnlyDetached (m.relabel p l) p := by
  intro q j hq
  by_contra hne
  rw [relabel_label, setLabel_of_ne _ _ hne] at hq
  exact h q j hq

private theorem OnlyDetached.atRest {b : ℕ} {l : Label} (h : OnlyDetached m b)
    (hl : ∀ j, l ≠ .detached j) :
    AtRest (m.relabel b l) := by
  intro q j hq
  rw [relabel_label] at hq
  by_cases hqb : q = b
  · subst hqb
    rw [setLabel_self] at hq
    exact hl j hq
  · rw [setLabel_of_ne _ _ hqb] at hq
    exact hqb (h q j hq)

/-! ## Splitting -/

/-- The split loop ends with `b` detached at the requested order and every other frame of the
original block free. -/
structure SplitDown (nr order b k : ℕ) (m m' : FrameMap) : Prop where
  wellFormed : WellFormed nr m'
  label : m'.label b = .detached order
  freeAt : ∀ f, FreeAt m' f ↔ FreeAt m f ∨ f ∈ block b k ∧ f ∉ block b order
  kept : Kept m m'
  only : OnlyDetached m b → OnlyDetached m' b

theorem split_spec (h : WellFormed nr m) {b k : ℕ} (hb : m.label b = .detached (k + 1)) :
    SplitDown nr k b (k + 1) m (m.split b k) := by
  have hpos := Nat.two_pow_pos k
  have hsucc := Nat.pow_succ 2 k
  have hu := h.upper_tail hb
  refine ⟨h.split hb, ?_, ?_, ?_, ?_⟩
  · rw [split_label, setLabel_of_ne _ _ (by omega), setLabel_self]
  · intro f
    rw [FrameMap.split, freeAt_push (by rw [hu]; nofun),
      freeAt_relabel (by rw [hb]; nofun) (by nofun)]
    simp only [mem_block]
    exact or_congr_right (by omega)
  · apply (Kept.relabel (by rw [hb]; exact pooled_detached _) (pooled_detached k)).trans
    exact Kept.push (by rw [hu]; exact pooled_tail)
  · intro honly q j hq
    rw [split_label] at hq
    by_contra hqb
    have hqu : q ≠ b + 2 ^ k := by
      rintro rfl
      rw [setLabel_self] at hq
      cases hq
    rw [setLabel_of_ne _ _ hqu, setLabel_of_ne _ _ hqb] at hq
    exact hqb (honly q j hq)

theorem splitDown_spec (h : WellFormed nr m) {order b k : ℕ} (hb : m.label b = .detached k)
    (hk : order ≤ k) : SplitDown nr order b k m (splitDown order b k m) := by
  induction k generalizing m with
  | zero =>
      obtain rfl : order = 0 := by omega
      exact ⟨h, hb, fun f => by simp [splitDown], Kept.refl m, id⟩
  | succ k ih =>
      rw [splitDown]
      split
      · next hlt =>
          have hs := split_spec h hb
          have hr := ih hs.wellFormed hs.label (by omega)
          refine ⟨hr.wellFormed, hr.label, ?_, hs.kept.trans hr.kept,
            fun ho => hr.only (hs.only ho)⟩
          intro f
          have hpos := Nat.pow_le_pow_right (n := 2) (by decide) (show order ≤ k by omega)
          have hsucc := Nat.pow_succ 2 k
          rw [hr.freeAt, hs.freeAt, or_assoc]
          simp only [mem_block]
          exact or_congr_right (by omega)
      · obtain rfl : order = k + 1 := by omega
        exact ⟨h, hb, fun f => by simp, Kept.refl m, id⟩

/-! ## Allocation -/

theorem findOrder_some {order k : ℕ} (h : m.findOrder order = some k) :
    order ≤ k ∧ k < maxOrder ∧ m.queue k ≠ [] ∧ ∀ j, order ≤ j → j < k → m.queue j = [] := by
  rw [findOrder, List.find?_range'_eq_some] at h
  obtain ⟨hk, hmem, hbefore⟩ := h
  rw [List.mem_range'_1] at hmem
  refine ⟨hmem.1, by omega, by simpa using hk, fun j hj hjk => ?_⟩
  simpa using hbefore j hj hjk

theorem findOrder_none {order : ℕ} (h : m.findOrder order = none) {k : ℕ} (hk : order ≤ k)
    (hlt : k < maxOrder) : m.queue k = [] := by
  rw [findOrder, List.find?_eq_none] at h
  simpa using h k (List.mem_range'_1.mpr ⟨hk, by omega⟩)

theorem allocate_zero {nr f : ℕ} (h : WellFormed nr m) (hf : FreeAt m f) : m.allocate 0 ≠ none := by
  obtain ⟨q, j, hq, -⟩ := hf
  have hmem : q ∈ m.queue j := (h.queued.mem_queue j q).mpr hq
  obtain ⟨hj, -⟩ := h.shape.head q j (by rw [hq]; rfl)
  rw [allocate]
  split
  · next hfind =>
      rw [findOrder_none hfind (Nat.zero_le j) hj] at hmem
      cases hmem
  · next k hfind =>
      split
      · next hqueue => exact absurd hqueue (findOrder_some hfind).2.2.1
      · nofun

/-- Allocation cuts an aligned block of the requested order out of the free frames. -/
structure Allocated (nr order b : ℕ) (m m' : FrameMap) : Prop where
  wellFormed : WellFormed nr m'
  atRest : AtRest m'
  order_lt : order < maxOrder
  aligned : Aligned b order
  fits : b + 2 ^ order ≤ nr
  wasFree : ∀ f ∈ block b order, FreeAt m f
  freeAt : ∀ f, FreeAt m' f ↔ FreeAt m f ∧ f ∉ block b order
  allocated : ∀ q j, m'.label q = .allocated j ↔ m.label q = .allocated j ∨ q = b ∧ j = order
  reserved : ∀ q, m'.label q = .reserved ↔ m.label q = .reserved

theorem allocate_eq_some {order b : ℕ} {m' : FrameMap} (ha : m.allocate order = some (b, m')) :
    ∃ k rest, m.findOrder order = some k ∧ m.queue k = b :: rest ∧
      m' = (splitDown order b k (m.take k b)).relabel b (.allocated order) := by
  rw [allocate] at ha
  split at ha
  · cases ha
  · next k hfind =>
      split at ha
      · cases ha
      · next b' rest hq =>
          simp only [Option.some.injEq, Prod.mk.injEq] at ha
          obtain ⟨rfl, rfl⟩ := ha
          exact ⟨k, rest, hfind, hq, rfl⟩

theorem allocate_spec (h : WellFormed nr m) (hrest : AtRest m) {order b : ℕ} {m' : FrameMap}
    (ha : m.allocate order = some (b, m')) : Allocated nr order b m m' := by
  obtain ⟨k, rest, hfind, hq, rfl⟩ := allocate_eq_some ha
  obtain ⟨hk, hkmax, -, -⟩ := findOrder_some hfind
  have hb := h.queued.label_of_cons hq
  have hbt := take_label_self m k b
  have hs := splitDown_spec (h.take hb) hbt hk
  have hpow := Nat.pow_le_pow_right (n := 2) (by decide) hk
  obtain ⟨-, hal, hfit⟩ := h.shape.head b k (by rw [hb]; rfl)
  have hsub (f : ℕ) (hf : f ∈ block b order) : f ∈ block b k := by
    rw [mem_block] at hf ⊢
    omega
  have hkept := (Kept.take (k := k) (by rw [hb]; exact pooled_free k)).trans hs.kept
  have hnb : ∀ j, m.label b ≠ .allocated j := by rw [hb]; nofun
  refine ⟨?_, ?_, by omega, hal.mono hk, by omega, ?_, ?_, ?_, ?_⟩
  · exact hs.wellFormed.relabel (k := order) (by rw [hs.label]; rfl) rfl
      (by rw [hs.label]; nofun) (by nofun)
  · exact (hs.only (hrest.relabel b _)).atRest (by nofun)
  · exact fun f hf => ⟨b, k, hb, hsub f hf⟩
  · intro f
    rw [freeAt_relabel (by rw [hs.label]; nofun) (by nofun), hs.freeAt, h.freeAt_take hb]
    constructor
    · rintro (⟨hf, hn⟩ | ⟨hf, hn⟩)
      · exact ⟨hf, fun hm => hn (hsub f hm)⟩
      · exact ⟨⟨b, k, hb, hf⟩, hn⟩
    · rintro ⟨hf, hn⟩
      by_cases hm : f ∈ block b k
      · exact .inr ⟨hm, hn⟩
      · exact .inl ⟨hf, hm⟩
  · intro q j
    rw [relabel_label]
    by_cases hqb : q = b
    · subst hqb
      simp only [setLabel_self, Label.allocated.injEq, hnb j, true_and, false_or, eq_comm]
    · rw [setLabel_of_ne _ _ hqb, hkept.allocated]
      simp [hqb]
  · intro q
    rw [relabel_label]
    by_cases hqb : q = b
    · subst hqb
      simp [hb]
    · rw [setLabel_of_ne _ _ hqb, hkept.reserved]

/-! ## Merging and release -/

/-- One round of the merge loop: the buddy leaves its list and the two blocks become one. -/
def mergeStep (m : FrameMap) (cur order : ℕ) : FrameMap :=
  (m.take order (cur ^^^ 2 ^ order)).join cur (cur ^^^ 2 ^ order) order

/-- The merge loop keeps the frames that are not free and the ones of the detached block
together; the block it ends with holds the block it started from. -/
structure Coalesced (nr cur order : ℕ) (m m' : FrameMap) (cur' order' : ℕ) : Prop where
  wellFormed : WellFormed nr m'
  label : m'.label cur' = .detached order'
  freeAt : ∀ f, FreeAt m' f ∨ f ∈ block cur' order' ↔ FreeAt m f ∨ f ∈ block cur order
  kept : Kept m m'
  only : OnlyDetached m cur → OnlyDetached m' cur'

theorem mergeStep_spec (h : WellFormed nr m) {cur order : ℕ} (hcur : m.label cur = .detached order)
    (hbuddy : m.label (cur ^^^ 2 ^ order) = .free order) (hk : order + 1 < maxOrder) :
    Coalesced nr cur order m (m.mergeStep cur order) (min cur (cur ^^^ 2 ^ order)) (order + 1) := by
  have hal := (h.shape.head cur order (by rw [hcur]; rfl)).2.1
  have hne := hal.xor_ne
  obtain ⟨hmin, hmax⟩ := hal.min_xor
  have htaken : (m.take order (cur ^^^ 2 ^ order)).label (cur ^^^ 2 ^ order) = .detached order :=
    setLabel_self ..
  have hcur' : (m.take order (cur ^^^ 2 ^ order)).label cur = .detached order :=
    (setLabel_of_ne _ _ (Ne.symm hne)).trans hcur
  have hends (x : ℕ) (hx : x = cur ∨ x = cur ^^^ 2 ^ order) :
      (m.take order (cur ^^^ 2 ^ order)).label x = .detached order := by
    rcases hx with rfl | rfl
    · exact hcur'
    · exact htaken
  have hmaxl := hends (max cur (cur ^^^ 2 ^ order)) (by omega)
  have hminl :
      ((m.take order (cur ^^^ 2 ^ order)).relabel (max cur (cur ^^^ 2 ^ order)) .tail).label
      (min cur (cur ^^^ 2 ^ order)) = .detached order := by
    rw [relabel_label, setLabel_of_ne _ _ (by omega), hends _ (by omega)]
  refine ⟨(h.take hbuddy).join hcur' htaken hk, setLabel_self .., ?_, ?_, ?_⟩
  · intro f
    rw [mergeStep, FrameMap.join, freeAt_relabel (by rw [hminl]; nofun) (by nofun),
      freeAt_relabel (by rw [hmaxl]; nofun) (by nofun), h.freeAt_take hbuddy]
    have hblocks : f ∈ block (min cur (cur ^^^ 2 ^ order)) (order + 1) ↔
        f ∈ block cur order ∨ f ∈ block (cur ^^^ 2 ^ order) order := by
      rw [mem_block_succ, ← hmax]
      rcases Nat.le_total cur (cur ^^^ 2 ^ order) with hle | hle
      · rw [Nat.min_eq_left hle, Nat.max_eq_right hle]
      · rw [Nat.min_eq_right hle, Nat.max_eq_left hle, or_comm]
    have hfree : f ∈ block (cur ^^^ 2 ^ order) order → FreeAt m f := fun hf => ⟨_, _, hbuddy, hf⟩
    rw [hblocks]
    tauto
  · have hb : Pooled (m.label (cur ^^^ 2 ^ order)) := by rw [hbuddy]; exact pooled_free order
    apply (Kept.take (k := order) hb).trans
    apply (Kept.relabel (by rw [hmaxl]; exact pooled_detached order) pooled_tail).trans
    exact Kept.relabel (by rw [hminl]; exact pooled_detached order) (pooled_detached _)
  · intro honly q j hq
    by_contra hqm
    change setLabel (setLabel (setLabel m.label _ _) _ _) _ _ q = _ at hq
    rw [setLabel_of_ne _ _ hqm] at hq
    have hqM : q ≠ max cur (cur ^^^ 2 ^ order) := by
      rintro rfl
      rw [setLabel_self] at hq
      cases hq
    rw [setLabel_of_ne _ _ hqM, setLabel_of_ne _ _ (by omega)] at hq
    have := honly q j hq
    omega

theorem coalesce_spec (h : WellFormed nr m) {rounds cur order : ℕ}
    (hcur : m.label cur = .detached order) (hr : rounds + order < maxOrder) :
    Coalesced nr cur order m (coalesce nr rounds m cur order).1 (coalesce nr rounds m cur order).2.1
      (coalesce nr rounds m cur order).2.2 := by
  induction rounds generalizing m cur order with
  | zero => exact ⟨h, hcur, fun f => Iff.rfl, Kept.refl m, id⟩
  | succ rounds ih =>
      rw [coalesce]
      split
      · next hb =>
          have hs := mergeStep_spec h hcur hb.2 (by omega)
          have hr := ih hs.wellFormed hs.label (by omega)
          rw [mergeStep] at hs hr
          exact ⟨hr.wellFormed, hr.label, fun f => (hr.freeAt f).trans (hs.freeAt f),
            hs.kept.trans hr.kept, fun ho => hr.only (hs.only ho)⟩
      · exact ⟨h, hcur, fun f => Iff.rfl, Kept.refl m, id⟩

/-- Release adds exactly the frames of the block to the free frames. -/
structure Released (nr p order : ℕ) (m m' : FrameMap) : Prop where
  wellFormed : WellFormed nr m'
  atRest : AtRest m'
  wasTaken : ∀ f ∈ block p order, ¬ FreeAt m f
  freeAt : ∀ f, FreeAt m' f ↔ FreeAt m f ∨ f ∈ block p order
  allocated : ∀ q j, m'.label q = .allocated j ↔ m.label q = .allocated j ∧ q ≠ p
  reserved : ∀ q, m'.label q = .reserved ↔ m.label q = .reserved

theorem release_spec (h : WellFormed nr m) (hrest : AtRest m) {p order : ℕ}
    (hp : m.label p = .allocated order) : Released nr p order m (release nr m p order) := by
  have hlt := (h.shape.head p order (by rw [hp]; rfl)).1
  have hd : (m.relabel p (.detached order)).label p = .detached order := setLabel_self ..
  have hwf : WellFormed nr (m.relabel p (.detached order)) :=
    h.relabel (k := order) (by rw [hp]; rfl) rfl (by rw [hp]; nofun) (by nofun)
  have hrounds : maxOrder - 1 - order + order < maxOrder := by omega
  have hc := coalesce_spec hwf hd hrounds
  rw [release]
  set r := coalesce nr (maxOrder - 1 - order) (m.relabel p (.detached order)) p order with hr
  have hfree (f : ℕ) : FreeAt (m.relabel p (.detached order)) f ↔ FreeAt m f :=
    freeAt_relabel (by rw [hp]; nofun) (by nofun) f
  have hpooled : Pooled (r.1.label r.2.1) := by rw [hc.label]; exact pooled_detached _
  have hkept := hc.kept.trans (Kept.push (k := r.2.2) hpooled)
  refine ⟨hc.wellFormed.push hc.label, ?_, ?_, ?_, ?_, ?_⟩
  · exact (hc.only (hrest.relabel p _)).atRest (l := .free r.2.2) (by nofun)
  · intro f hf
    exact h.not_freeAt (by rw [hp]; rfl) (by rw [hp]; nofun) hf
  · intro f
    rw [freeAt_push (by rw [hc.label]; nofun), hc.freeAt, hfree]
  · intro q j
    rw [hkept.allocated, relabel_label]
    by_cases hqp : q = p
    · subst hqp
      simp
    · simp [setLabel_of_ne _ _ hqp, hqp]
  · intro q
    rw [hkept.reserved, relabel_label]
    by_cases hqp : q = p
    · subst hqp
      simp [hp]
    · rw [setLabel_of_ne _ _ hqp]

/-! ## Seeding -/

/-- A run of reserved frames becomes free as one block. -/
structure Seeded (nr b k : ℕ) (m m' : FrameMap) : Prop where
  wellFormed : WellFormed nr m'
  atRest : AtRest m'
  freeAt : ∀ f, FreeAt m' f ↔ FreeAt m f ∨ f ∈ block b k
  allocated : ∀ q j, m'.label q = .allocated j ↔ m.label q = .allocated j
  reserved : ∀ q, m'.label q = .reserved ↔ m.label q = .reserved ∧ q ∉ block b k

theorem seed_spec (h : WellFormed nr m) (hrest : AtRest m) {b k : ℕ}
    (hres : ∀ f ∈ block b k, m.label f = .reserved) (hal : Aligned b k) (hk : k < maxOrder)
    (hfit : b + 2 ^ k ≤ nr) : Seeded nr b k m ((m.claim b k).push k b) := by
  have hb : (m.claim b k).label b = .detached k := if_pos rfl
  have hwf := h.claim hres hal hk hfit
  have hlabel (q : ℕ) (hq : q ∉ block b k) : ((m.claim b k).push k b).label q = m.label q := by
    have hqb : q ≠ b := fun he => hq (he ▸ start_mem_block b k)
    change setLabel _ _ _ q = _
    rw [setLabel_of_ne _ _ hqb]
    simp only [claim, if_neg hqb, if_neg hq]
  have hin (q : ℕ) (hq : q ∈ block b k) : ((m.claim b k).push k b).label q = .free k ∨
      ((m.claim b k).push k b).label q = .tail := by
    change setLabel _ _ _ q = _ ∨ setLabel _ _ _ q = _
    by_cases hqb : q = b
    · subst hqb
      exact .inl (setLabel_self ..)
    · right
      rw [setLabel_of_ne _ _ hqb]
      simp only [claim, if_neg hqb, if_pos hq]
  refine ⟨hwf.push hb, ?_, ?_, ?_, ?_⟩
  · intro q j hq
    by_cases hm : q ∈ block b k
    · rcases hin q hm with he | he <;> rw [he] at hq <;> cases hq
    · rw [hlabel q hm] at hq
      exact hrest q j hq
  · intro f
    rw [freeAt_push (by rw [hb]; nofun)]
    apply or_congr_left
    simp only [FreeAt, free_claim hres]
  · intro q j
    by_cases hm : q ∈ block b k
    · rw [hres q hm]
      rcases hin q hm with he | he <;> rw [he] <;> simp
    · rw [hlabel q hm]
  · intro q
    by_cases hm : q ∈ block b k
    · rcases hin q hm with he | he <;> rw [he] <;> simp [hm]
    · rw [hlabel q hm]
      simp [hm]

end FrameMap

end Preon.Memory
