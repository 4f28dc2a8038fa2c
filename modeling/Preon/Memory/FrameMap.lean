import Preon.Framework.Dyadic
import Preon.Memory.Buddy

/-!
# Labelled frame maps

What the mem-map says, without its links: every frame carries a label, and every order has the
sequence of its free blocks.  A block that an operation has taken off its list and not yet put
back is labelled `detached`, so that the states inside the loops of the allocator are
well-formed frame maps as well.
-/

namespace Preon.Memory

open Framework

inductive Label
  | reserved
  | free (order : ℕ)
  | allocated (order : ℕ)
  | tail
  | detached (order : ℕ)
  deriving DecidableEq

/-- The order of the block that starts at a frame with this label. -/
def Label.headOrder : Label → Option ℕ
  | .free k => some k
  | .allocated k => some k
  | .detached k => some k
  | _ => none

structure FrameMap where
  label : ℕ → Label
  queue : ℕ → List ℕ

/-- The labels describe a partition of the frames that are not reserved into aligned blocks:
the first frame of a block is its head, the others are tails. -/
structure Shape (nr : ℕ) (label : ℕ → Label) : Prop where
  outside : ∀ f, nr ≤ f → label f = .reserved
  head : ∀ p k, (label p).headOrder = some k → k < maxOrder ∧ Aligned p k ∧ p + 2 ^ k ≤ nr
  interior : ∀ p k f, (label p).headOrder = some k → p < f → f < p + 2 ^ k → label f = .tail
  covered : ∀ f, label f = .tail → ∃ p k, (label p).headOrder = some k ∧ f ∈ block p k

def setLabel (label : ℕ → Label) (p : ℕ) (l : Label) : ℕ → Label :=
  fun f => if f = p then l else label f

@[simp] theorem setLabel_self (label : ℕ → Label) (p : ℕ) (l : Label) :
    setLabel label p l p = l := if_pos rfl

theorem setLabel_of_ne (label : ℕ → Label) {p f : ℕ} (l : Label) (h : f ≠ p) :
    setLabel label p l f = label f := if_neg h

private theorem headOrder_setLabel {label : ℕ → Label} {p q j : ℕ} {l : Label}
    (h : (setLabel label p l q).headOrder = some j) :
    q = p ∧ l.headOrder = some j ∨ q ≠ p ∧ (label q).headOrder = some j := by
  by_cases hq : q = p
  · rw [hq, setLabel_self] at h
    exact .inl ⟨hq, h⟩
  · rw [setLabel_of_ne _ _ hq] at h
    exact .inr ⟨hq, h⟩

private theorem ne_of_tail {label : ℕ → Label} {f p k : ℕ} (hf : label f = .tail)
    (hp : (label p).headOrder = some k) : f ≠ p := by
  intro he
  rw [← he, hf] at hp
  cases hp

namespace Shape

variable {nr : ℕ} {label : ℕ → Label}

theorem head_unique (h : Shape nr label) {p q j k f : ℕ} (hp : (label p).headOrder = some j)
    (hq : (label q).headOrder = some k) (hfp : f ∈ block p j) (hfq : f ∈ block q k) :
    p = q ∧ j = k := by
  have order {p q j k : ℕ} (hp : (label p).headOrder = some j)
      (hq : (label q).headOrder = some k) (hfp : f ∈ block p j) (hfq : f ∈ block q k) :
      ¬ p < q := by
    intro hlt
    rw [mem_block] at hfp hfq
    exact ne_of_tail (h.interior p j q hp hlt (by omega)) hq rfl
  have h₁ := order hp hq hfp hfq
  have h₂ := order hq hp hfq hfp
  obtain rfl : p = q := by omega
  exact ⟨rfl, Option.some.inj (hp.symm.trans hq)⟩

theorem lt_of_head (h : Shape nr label) {p k : ℕ} (hp : (label p).headOrder = some k) :
    p < nr := by
  have := (h.head p k hp).2.2
  have := Nat.two_pow_pos k
  omega

theorem label_of_mem (h : Shape nr label) {p k f : ℕ} (hp : (label p).headOrder = some k)
    (hf : f ∈ block p k) : f = p ∨ label f = .tail := by
  rw [mem_block] at hf
  rcases Nat.lt_or_ge p f with hlt | hge
  · exact .inr (h.interior p k f hp hlt hf.2)
  · exact .inl (by omega)

theorem ne_reserved_of_mem (h : Shape nr label) {p k f : ℕ}
    (hp : (label p).headOrder = some k) (hf : f ∈ block p k) : label f ≠ .reserved := by
  rcases h.label_of_mem hp hf with rfl | ht
  · intro he
    rw [he] at hp
    cases hp
  · rw [ht]
    nofun

theorem exists_head_iff (h : Shape nr label) (f : ℕ) :
    (∃ p k, (label p).headOrder = some k ∧ f ∈ block p k) ↔ label f ≠ .reserved := by
  constructor
  · rintro ⟨p, k, hp, hf⟩
    exact h.ne_reserved_of_mem hp hf
  · intro hne
    cases hl : label f with
    | reserved => exact absurd hl hne
    | tail => exact h.covered f hl
    | free k => exact ⟨f, k, by rw [hl]; rfl, start_mem_block f k⟩
    | allocated k => exact ⟨f, k, by rw [hl]; rfl, start_mem_block f k⟩
    | detached k => exact ⟨f, k, by rw [hl]; rfl, start_mem_block f k⟩

theorem relabel (h : Shape nr label) {p k : ℕ} {l : Label}
    (hp : (label p).headOrder = some k) (hl : l.headOrder = some k) :
    Shape nr (setLabel label p l) := by
  have hpn := h.lt_of_head hp
  have order (q : ℕ) : (setLabel label p l q).headOrder = (label q).headOrder := by
    by_cases hq : q = p
    · subst hq
      rw [setLabel_self, hl, hp]
    · rw [setLabel_of_ne _ _ hq]
  constructor
  · intro f hf
    rw [setLabel_of_ne _ _ (by omega), h.outside f hf]
  · intro q j hq
    rw [order] at hq
    exact h.head q j hq
  · intro q j f hq hqf hf
    rw [order] at hq
    have ht := h.interior q j f hq hqf hf
    rw [setLabel_of_ne _ _ (ne_of_tail ht hp), ht]
  · intro f hf
    have hfp : f ≠ p := ne_of_tail hf (by rw [setLabel_self, hl])
    rw [setLabel_of_ne _ _ hfp] at hf
    obtain ⟨q, j, hq, hm⟩ := h.covered f hf
    exact ⟨q, j, by rw [order, hq], hm⟩

theorem split (h : Shape nr label) {b k : ℕ} {l l' : Label}
    (hb : (label b).headOrder = some (k + 1)) (hl : l.headOrder = some k)
    (hl' : l'.headOrder = some k) :
    Shape nr (setLabel (setLabel label b l) (b + 2 ^ k) l') := by
  obtain ⟨hk, hal, hfit⟩ := h.head b (k + 1) hb
  have hpos := Nat.two_pow_pos k
  have hsucc := Nat.pow_succ 2 k
  have lower : (setLabel (setLabel label b l) (b + 2 ^ k) l' b).headOrder = some k := by
    rw [setLabel_of_ne _ _ (by omega), setLabel_self, hl]
  have upper : (setLabel (setLabel label b l) (b + 2 ^ k) l' (b + 2 ^ k)).headOrder = some k := by
    rw [setLabel_self, hl']
  have other {f : ℕ} (h₁ : f ≠ b) (h₂ : f ≠ b + 2 ^ k) :
      setLabel (setLabel label b l) (b + 2 ^ k) l' f = label f := by
    rw [setLabel_of_ne _ _ h₂, setLabel_of_ne _ _ h₁]
  have heads {q j : ℕ} (hq : (setLabel (setLabel label b l) (b + 2 ^ k) l' q).headOrder = some j) :
      (q = b ∨ q = b + 2 ^ k) ∧ j = k ∨ q ≠ b ∧ (label q).headOrder = some j := by
    rcases headOrder_setLabel hq with ⟨h₂, hj⟩ | ⟨-, hq⟩
    · exact .inl ⟨.inr h₂, Option.some.inj (hj.symm.trans hl')⟩
    · rcases headOrder_setLabel hq with ⟨h₁, hj⟩ | hold
      · exact .inl ⟨.inl h₁, Option.some.inj (hj.symm.trans hl)⟩
      · exact .inr hold
  constructor
  · intro f hf
    rw [other (by omega) (by omega), h.outside f hf]
  · intro q j hq
    rcases heads hq with ⟨hqb, rfl⟩ | ⟨-, hold⟩
    · rcases hqb with rfl | rfl
      · exact ⟨by omega, hal.mono (by omega), by omega⟩
      · exact ⟨by omega, hal.add, by omega⟩
    · exact h.head q j hold
  · intro q j f hq hqf hf
    rcases heads hq with ⟨hqb, rfl⟩ | ⟨hne, hold⟩
    · rw [other (by omega) (by omega)]
      exact h.interior b _ f hb (by omega) (by omega)
    · -- another block stays clear of the one being split
      have clear : f ∉ block b (k + 1) := by
        intro hm
        exact hne (h.head_unique hold hb (by rw [mem_block]; omega) hm).1
      rw [mem_block] at clear
      rw [other (by omega) (by omega)]
      exact h.interior q j f hold hqf hf
  · intro f hf
    rw [other (ne_of_tail hf lower) (ne_of_tail hf upper)] at hf
    obtain ⟨q, j, hq, hm⟩ := h.covered f hf
    by_cases hqb : q = b
    · subst hqb
      obtain rfl := Option.some.inj (hq.symm.trans hb)
      rcases mem_block_succ.mp hm with hm | hm
      · exact ⟨q, k, lower, hm⟩
      · exact ⟨q + 2 ^ k, k, upper, hm⟩
    · have hqu : b + 2 ^ k ≠ q := ne_of_tail (h.interior b _ _ hb (by omega) (by omega)) hq
      exact ⟨q, j, by rw [other hqb hqu.symm, hq], hm⟩

theorem merge (h : Shape nr label) {b k : ℕ} {l : Label}
    (hb : (label b).headOrder = some k) (hu : (label (b + 2 ^ k)).headOrder = some k)
    (hal : Aligned b (k + 1)) (hk : k + 1 < maxOrder) (hl : l.headOrder = some (k + 1)) :
    Shape nr (setLabel (setLabel label (b + 2 ^ k) .tail) b l) := by
  have hpos := Nat.two_pow_pos k
  have hsucc := Nat.pow_succ 2 k
  have hfit := (h.head _ _ hu).2.2
  have lower : (setLabel (setLabel label (b + 2 ^ k) .tail) b l b).headOrder = some (k + 1) := by
    rw [setLabel_self, hl]
  have upper : setLabel (setLabel label (b + 2 ^ k) .tail) b l (b + 2 ^ k) = .tail := by
    rw [setLabel_of_ne _ _ (by omega), setLabel_self]
  have other {f : ℕ} (h₁ : f ≠ b) (h₂ : f ≠ b + 2 ^ k) :
      setLabel (setLabel label (b + 2 ^ k) .tail) b l f = label f := by
    rw [setLabel_of_ne _ _ h₁, setLabel_of_ne _ _ h₂]
  have heads {q j : ℕ}
      (hq : (setLabel (setLabel label (b + 2 ^ k) .tail) b l q).headOrder = some j) :
      q = b ∧ j = k + 1 ∨ (label q).headOrder = some j := by
    rcases headOrder_setLabel hq with ⟨h₁, hj⟩ | ⟨-, hq⟩
    · exact .inl ⟨h₁, Option.some.inj (hj.symm.trans hl)⟩
    · rcases headOrder_setLabel hq with ⟨-, hj⟩ | ⟨-, hold⟩
      · cases hj
      · exact .inr hold
  constructor
  · intro f hf
    rw [other (by omega) (by omega), h.outside f hf]
  · intro q j hq
    rcases heads hq with ⟨rfl, rfl⟩ | hold
    · exact ⟨hk, hal, by omega⟩
    · exact h.head q j hold
  · intro q j f hq hqf hf
    rcases heads hq with ⟨rfl, rfl⟩ | hold
    · by_cases h₂ : f = q + 2 ^ k
      · rw [h₂, upper]
      · rw [other (by omega) h₂]
        rcases Nat.lt_or_ge f (q + 2 ^ k) with hlt | hge
        · exact h.interior q k f hb hqf hlt
        · exact h.interior (q + 2 ^ k) k f hu (by omega) (by omega)
    · have ht := h.interior q j f hold hqf hf
      rw [other (ne_of_tail ht hb) (ne_of_tail ht hu), ht]
  · intro f hf
    by_cases h₂ : f = b + 2 ^ k
    · exact ⟨b, k + 1, lower, by rw [mem_block]; omega⟩
    · rw [other (ne_of_tail hf lower) h₂] at hf
      obtain ⟨q, j, hq, hm⟩ := h.covered f hf
      by_cases hqb : q = b
      · subst hqb
        obtain rfl := Option.some.inj (hq.symm.trans hb)
        exact ⟨q, _, lower, mem_block_succ.mpr (.inl hm)⟩
      · by_cases hqu : q = b + 2 ^ k
        · subst hqu
          obtain rfl := Option.some.inj (hq.symm.trans hu)
          exact ⟨b, _, lower, mem_block_succ.mpr (.inr hm)⟩
        · exact ⟨q, j, by rw [other hqb hqu, hq], hm⟩

theorem seed (h : Shape nr label) {b k : ℕ} {l : Label}
    (hres : ∀ f ∈ block b k, label f = .reserved)
    (hal : Aligned b k) (hk : k < maxOrder) (hfit : b + 2 ^ k ≤ nr)
    (hl : l.headOrder = some k) :
    Shape nr (fun f => if f = b then l else if f ∈ block b k then .tail else label f) := by
  have hpos := Nat.two_pow_pos k
  have other {q j : ℕ} (hq : ((fun f => if f = b then l else if f ∈ block b k then .tail
      else label f) q : Label).headOrder = some j) (hqb : q ≠ b) :
      (label q).headOrder = some j ∧ q ∉ block b k := by
    simp only [if_neg hqb] at hq
    split at hq
    · cases hq
    · next hn => exact ⟨hq, hn⟩
  constructor
  · intro f hf
    have hn : f ∉ block b k := by rw [mem_block]; omega
    simp only [if_neg (show f ≠ b by omega), if_neg hn]
    exact h.outside f hf
  · intro q j hq
    by_cases hqb : q = b
    · subst hqb
      simp only [if_true] at hq
      obtain rfl := Option.some.inj (hq.symm.trans hl)
      exact ⟨hk, hal, hfit⟩
    · exact h.head q j (other hq hqb).1
  · intro q j f hq hqf hf
    by_cases hqb : q = b
    · subst hqb
      simp only [if_true] at hq
      obtain rfl := Option.some.inj (hq.symm.trans hl)
      simp only [if_neg (show f ≠ q by omega), if_pos (show f ∈ block q j by rw [mem_block]; omega)]
    · obtain ⟨hq, hn⟩ := other hq hqb
      have ht := h.interior q j f hq hqf hf
      have hnf : f ∉ block b k := by
        intro hm
        rw [hres f hm] at ht
        cases ht
      have hfb : f ≠ b := fun he => hnf (he ▸ start_mem_block b k)
      simp only [if_neg hfb, if_neg hnf, ht]
  · intro f hf
    by_cases hfb : f = b
    · subst hfb
      simp only [if_true] at hf
      rw [hf] at hl
      cases hl
    · simp only [if_neg hfb] at hf
      split at hf
      · next hm => exact ⟨b, k, by simp only [if_true]; exact hl, hm⟩
      · obtain ⟨q, j, hq, hm⟩ := h.covered f hf
        have hn : q ∉ block b k := by
          intro hm'
          rw [hres q hm'] at hq
          cases hq
        have hqb : q ≠ b := fun he => hn (he ▸ start_mem_block b k)
        exact ⟨q, j, by simp only [if_neg hqb, if_neg hn]; exact hq, hm⟩

end Shape

end Preon.Memory
