import Mathlib.Data.List.Basic

/-!
# Intrusive doubly linked lists

The links of a list live in the nodes, so a list is a property of two link functions and a
head.  The edits are pushing a node in front and unlinking a node from anywhere; each is
stated for any new link functions that agree with the old ones away from the edited links.
-/

namespace Preon.Framework

variable {α : Type*}

/-- Following `next` from `head` visits exactly `nodes` and ends in `none`, and `prev` leads
back: the first node's `prev` is `before`, every later node's is the node visited before it. -/
def Linked (next prev : α → Option α) : (before head : Option α) → (nodes : List α) → Prop
  | _, head, [] => head = none
  | before, head, x :: xs =>
      head = some x ∧ prev x = before ∧ Linked next prev (some x) (next x) xs

variable {next prev next' prev' : α → Option α} {before head : Option α} {nodes : List α}

@[simp] theorem linked_nil : Linked next prev before head [] ↔ head = none := Iff.rfl

theorem Linked.head_eq (h : Linked next prev before head nodes) : head = nodes.head? := by
  cases nodes with
  | nil => exact h
  | cons x xs => exact h.1

theorem Linked.congr (h : Linked next prev before head nodes)
    (hnext : ∀ x ∈ nodes, next' x = next x) (hprev : ∀ x ∈ nodes, prev' x = prev x) :
    Linked next' prev' before head nodes := by
  induction nodes generalizing before head with
  | nil => exact h
  | cons x xs ih =>
      obtain ⟨hhead, hbefore, htail⟩ := h
      refine ⟨hhead, (hprev x (by simp)).trans hbefore, ?_⟩
      rw [hnext x (by simp)]
      exact ih htail (fun y hy => hnext y (by simp [hy])) (fun y hy => hprev y (by simp [hy]))

theorem Linked.rebase {before' : Option α} (h : Linked next prev before head nodes)
    (hnodup : nodes.Nodup) (hnext : ∀ x ∈ nodes, next' x = next x)
    (hprev : ∀ x ∈ nodes, head ≠ some x → prev' x = prev x)
    (hfirst : ∀ x, head = some x → prev' x = before') :
    Linked next' prev' before' head nodes := by
  cases nodes with
  | nil => exact h
  | cons x xs =>
      obtain ⟨hhead, _, htail⟩ := h
      refine ⟨hhead, hfirst x hhead, ?_⟩
      rw [hnext x (by simp)]
      apply htail.congr (fun y hy => hnext y (by simp [hy]))
      intro y hy
      apply hprev y (by simp [hy])
      rw [hhead]
      intro he
      exact (List.nodup_cons.mp hnodup).1 (Option.some.inj he ▸ hy)

theorem Linked.push {x : α} (h : Linked next prev none head nodes) (hnodup : nodes.Nodup)
    (hx : next' x = head) (hx' : prev' x = none) (hnext : ∀ y ∈ nodes, next' y = next y)
    (hprev : ∀ y ∈ nodes, head ≠ some y → prev' y = prev y)
    (hfirst : ∀ y, head = some y → prev' y = some x) :
    Linked next' prev' none (some x) (x :: nodes) := by
  refine ⟨rfl, hx', ?_⟩
  rw [hx]
  exact h.rebase hnodup hnext hprev hfirst

theorem Linked.prev_mem {x : α} (h : Linked next prev before head nodes) (hx : x ∈ nodes) :
    prev x = before ∨ ∃ y ∈ nodes, prev x = some y := by
  induction nodes generalizing before head with
  | nil => simp at hx
  | cons z zs ih =>
      obtain ⟨_, hbefore, htail⟩ := h
      rcases List.mem_cons.mp hx with rfl | hx
      · exact .inl hbefore
      · rcases ih htail hx with hz | ⟨y, hy, he⟩
        · exact .inr ⟨z, by simp, hz⟩
        · exact .inr ⟨y, by simp [hy], he⟩

theorem Linked.next_mem {x y : α} (h : Linked next prev before head nodes) (hx : x ∈ nodes)
    (hy : next x = some y) : y ∈ nodes := by
  induction nodes generalizing before head with
  | nil => simp at hx
  | cons z zs ih =>
      obtain ⟨_, _, htail⟩ := h
      rcases List.mem_cons.mp hx with rfl | hx
      · have hhead := htail.head_eq
        rw [hy] at hhead
        exact List.mem_cons_of_mem _ (List.mem_of_mem_head? hhead.symm)
      · exact List.mem_cons_of_mem _ (ih htail hx)

theorem Linked.links_eq {head' : Option α} (h : Linked next prev before head nodes)
    (h' : Linked next' prev' before head' nodes) {x : α} (hx : x ∈ nodes) :
    next x = next' x ∧ prev x = prev' x := by
  induction nodes generalizing before head head' with
  | nil => simp at hx
  | cons z zs ih =>
      obtain ⟨_, hbefore, htail⟩ := h
      obtain ⟨_, hbefore', htail'⟩ := h'
      rcases List.mem_cons.mp hx with rfl | hx
      · exact ⟨htail.head_eq.trans htail'.head_eq.symm, hbefore.trans hbefore'.symm⟩
      · exact ih htail htail' hx

theorem Linked.prev_of_next {x y : α} (h : Linked next prev before head nodes) (hx : x ∈ nodes)
    (hy : next x = some y) : prev y = some x := by
  induction nodes generalizing before head with
  | nil => simp at hx
  | cons z zs ih =>
      obtain ⟨_, _, htail⟩ := h
      rcases List.mem_cons.mp hx with rfl | hx
      · cases zs with
        | nil => rw [linked_nil, hy] at htail; cases htail
        | cons w ws =>
            obtain ⟨hw, hp, _⟩ := htail
            rw [hy] at hw
            obtain rfl := Option.some.inj hw
            exact hp
      · exact ih htail hx

theorem Linked.next_of_prev {x y : α} (h : Linked next prev before head nodes)
    (hnodup : nodes.Nodup) (hbefore : before ≠ some x) (hx : x ∈ nodes) (hy : y ∈ nodes)
    (hp : prev y = some x) : next x = some y := by
  induction nodes generalizing before head with
  | nil => simp at hx
  | cons z zs ih =>
      obtain ⟨_, hb, htail⟩ := h
      obtain ⟨hz, hzs⟩ := List.nodup_cons.mp hnodup
      have hyz : y ≠ z := by
        rintro rfl
        exact hbefore (hb.symm.trans hp)
      have hyzs := (List.mem_cons.mp hy).resolve_left hyz
      rcases List.mem_cons.mp hx with rfl | hx
      · cases zs with
        | nil => simp at hyzs
        | cons w ws =>
            obtain ⟨hw, _, hrest⟩ := htail
            rcases List.mem_cons.mp hyzs with rfl | hyws
            · exact hw
            · -- a later node's `prev` is a node of the tail, and `x` is not one
              rcases hrest.prev_mem hyws with he | ⟨u, hu, he⟩
              · rw [hp] at he
                exact absurd (Option.some.inj he ▸ List.mem_cons_self) hz
              · rw [hp] at he
                exact absurd (Option.some.inj he ▸ List.mem_cons_of_mem w hu) hz
      · exact ih htail hzs (fun he => hz (Option.some.inj he ▸ hx)) hx hyzs

theorem Linked.next_eq_iff {x y : α} (h : Linked next prev none head nodes)
    (hnodup : nodes.Nodup) (hx : x ∈ nodes) (hy : y ∈ nodes) :
    next x = some y ↔ prev y = some x :=
  ⟨h.prev_of_next hx, h.next_of_prev hnodup nofun hx hy⟩

/-- Unlinking `x`: the node before it, or the head if there is none, skips to the node after
it, and that node's `prev` skips back. -/
theorem Linked.unlink [DecidableEq α] {x : α} (h : Linked next prev before head nodes)
    (hnodup : nodes.Nodup) (hx : x ∈ nodes) (hbefore : ∀ y ∈ nodes, before ≠ some y)
    (hnext : ∀ y ∈ nodes, prev x ≠ some y → next' y = next y)
    (hskip : ∀ y ∈ nodes, prev x = some y → next' y = next x)
    (hprev : ∀ y ∈ nodes, next x ≠ some y → prev' y = prev y)
    (hback : ∀ y ∈ nodes, next x = some y → prev' y = prev x) :
    Linked next' prev' before (if prev x = before then next x else head) (nodes.erase x) := by
  induction nodes generalizing before head with
  | nil => simp at hx
  | cons z zs ih =>
      obtain ⟨hhead, hb, htail⟩ := h
      obtain ⟨hz, hzs⟩ := List.nodup_cons.mp hnodup
      by_cases hxz : z = x
      · subst hxz
        rw [if_pos hb, List.erase_cons_head]
        apply htail.rebase hzs
        · intro y hy
          exact hnext y (by simp [hy]) (by rw [hb]; exact hbefore y (by simp [hy]))
        · intro y hy hne
          exact hprev y (by simp [hy]) hne
        · intro y hy
          have hmem : y ∈ zs := List.mem_of_mem_head? (by rw [← htail.head_eq, hy]; rfl)
          rw [hback y (by simp [hmem]) hy, hb]
      · have hxzs : x ∈ zs := (List.mem_cons.mp hx).resolve_left (Ne.symm hxz)
        have hne : prev x ≠ before := by
          rcases htail.prev_mem hxzs with hp | ⟨y, hy, hp⟩
          · rw [hp]
            exact (hbefore z (by simp)).symm
          · rw [hp]
            exact (hbefore y (by simp [hy])).symm
        rw [if_neg hne, List.erase_cons_tail (by simpa using hxz)]
        have hzb : prev' z = before := by
          rw [hprev z (by simp), hb]
          intro he
          exact hz (htail.next_mem hxzs he)
        have hzn : next' z = if prev x = some z then next x else next z := by
          split
          · next he => exact hskip z (by simp) he
          · next he => exact hnext z (by simp) he
        refine ⟨hhead, hzb, ?_⟩
        rw [hzn]
        exact ih htail hzs hxzs (fun y hy he => hz (Option.some.inj he ▸ hy))
          (fun y hy => hnext y (by simp [hy])) (fun y hy => hskip y (by simp [hy]))
          (fun y hy => hprev y (by simp [hy])) (fun y hy => hback y (by simp [hy]))

end Preon.Framework
