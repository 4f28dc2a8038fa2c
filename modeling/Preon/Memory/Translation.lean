import Mathlib.Tactic.NormNum
import Preon.Memory.PageTable

/-!
# What the translation walk makes of the tables

The walk of a 4 KiB granule and 48-bit upper-half addresses, as the architecture defines it, and
the effect of `map` on it: the addresses of one block or page get a new mapping, all others keep
theirs.
-/

namespace Preon.Memory

open Framework

/-! ## Entries -/

namespace Entry

/-- The bits of an entry that are neither its kind nor its address. -/
def attrMask : ℕ := 0xFFFF000000000FFC

def attrs (e : ℕ) : ℕ := e &&& attrMask

def Holds (pa : ℕ) : Prop := pa &&& outputAddrMask = pa

theorem holds_of_aligned {pa : ℕ} (h : pa % pageSize = 0) (hlt : pa < 2 ^ 48) : Holds pa := by
  obtain ⟨q, rfl⟩ := Nat.dvd_of_mod_eq_zero h
  have hq : q < 2 ^ 36 := by
    simp only [pageSize] at hlt
    omega
  have hshift : pageSize * q = q <<< 12 := by
    rw [Nat.shiftLeft_eq, Nat.mul_comm]
    rfl
  have hmask : outputAddrMask = (2 ^ 36 - 1) <<< 12 := by decide
  rw [Holds, hshift, hmask, ← Nat.shiftLeft_and_distrib, Nat.and_two_pow_sub_one_eq_mod,
    Nat.mod_eq_of_lt hq]

private theorem Holds.and_eq_zero {pa bits : ℕ} (h : Holds pa)
    (hbits : outputAddrMask &&& bits = 0) :
    pa &&& bits = 0 := by
  rw [← h, Nat.and_assoc, hbits, Nat.and_zero]

end Entry

private theorem LeafAttrs.bits_and_mask (attrs : LeafAttrs) :
    attrs.bits &&& outputAddrMask = 0 := by
  obtain ⟨memory, access, share, execute⟩ := attrs
  cases memory <;> cases access <;> cases share <;> cases execute <;> rfl

private theorem LeafAttrs.bits_and_type (attrs : LeafAttrs) :
    attrs.bits &&& typeTableOrPage = 0 := by
  obtain ⟨memory, access, share, execute⟩ := attrs
  cases memory <;> cases access <;> cases share <;> cases execute <;> rfl

private theorem LeafAttrs.bits_and_attrMask (attrs : LeafAttrs) :
    attrs.bits &&& Entry.attrMask = attrs.bits := by
  obtain ⟨memory, access, share, execute⟩ := attrs
  cases memory <;> cases access <;> cases share <;> cases execute <;> rfl

namespace Entry

variable {pa kind : ℕ} {attrs : LeafAttrs}

private theorem outputAddr_leaf (h : Holds pa) (hkind : kind &&& outputAddrMask = 0) :
    outputAddr (pa ||| attrs.bits ||| kind) = pa := by
  rw [outputAddr, Nat.and_or_distrib_right, Nat.and_or_distrib_right, h, attrs.bits_and_mask, hkind,
    Nat.or_zero, Nat.or_zero]

private theorem kind_leaf (h : Holds pa) (hkind : kind &&& typeTableOrPage = kind) :
    (pa ||| attrs.bits ||| kind) &&& typeTableOrPage = kind := by
  rw [Nat.and_or_distrib_right, Nat.and_or_distrib_right, h.and_eq_zero (by decide),
    attrs.bits_and_type, hkind, Nat.or_zero, Nat.zero_or]

private theorem attrs_leaf (h : Holds pa) (hkind : kind &&& attrMask = 0) :
    Entry.attrs (pa ||| attrs.bits ||| kind) = attrs.bits := by
  rw [Entry.attrs, Nat.and_or_distrib_right, Nat.and_or_distrib_right, h.and_eq_zero (by decide),
    attrs.bits_and_attrMask, hkind, Nat.or_zero, Nat.zero_or]

theorem isValid_eq (e : ℕ) : isValid e = decide (e &&& typeTableOrPage &&& 1 ≠ 0) := by
  rw [isValid, Nat.and_assoc]
  rfl

/-- A valid entry is a block unless both type bits are set. -/
theorem isBlock_eq (e : ℕ) : isBlock e = (isValid e && !isTableOrPage e) := by
  have hvalid : e &&& 1 = e % 2 := Nat.and_two_pow_sub_one_eq_mod e 1
  have htype : e &&& typeTableOrPage = e % 4 := Nat.and_two_pow_sub_one_eq_mod e 2
  have hbit : e &&& tableBit = e / 2 % 2 * 2 := by
    have h := Nat.and_two_pow e 1
    rw [Nat.testBit_eq_decide_div_mod_eq] at h
    rw [show tableBit = 2 ^ 1 from rfl, h]
    rcases Nat.mod_two_eq_zero_or_one (e / 2) with h0 | h1
    · simp [h0]
    · simp [h1]
  have hcases : e % 4 = 0 ∨ e % 4 = 1 ∨ e % 4 = 2 ∨ e % 4 = 3 := by omega
  rw [isBlock, isValid, isTableOrPage, hvalid, htype, hbit]
  rcases hcases with h | h | h | h
  · rw [h, show e % 2 = 0 by omega]
    rfl
  · rw [h, show e % 2 = 1 by omega, show e / 2 % 2 = 0 by omega]
    rfl
  · rw [h, show e % 2 = 0 by omega]
    rfl
  · rw [h, show e % 2 = 1 by omega, show e / 2 % 2 = 1 by omega]
    rfl

end Entry

/-! ## The walk -/

/-- The meaning of an entry with `n` levels below it.  A block is only valid at the two middle
levels. -/
def decode (n e : ℕ) : Slot ℕ :=
  if ¬ Entry.isValid e then .empty
  else if Entry.isTableOrPage e then if n = 0 then .leaf e else .table (Entry.outputAddr e)
  else if n = 1 ∨ n = 2 then .leaf e
  else .empty

/-- The bits of an address that select slots, as one number. -/
def key (va : ℕ) : ℕ := va % 2 ^ 48 / pageSize

/-- How many bytes a leaf with `n` levels below it maps. -/
def leafSize (n : ℕ) : ℕ := 2 ^ (12 + 9 * n)

private theorem leafSize_pos (n : ℕ) : 0 < leafSize n := Nat.two_pow_pos _

/-- The addresses that `TTBR1_EL1` translates. -/
def UpperHalf (va : ℕ) : Prop := 2 ^ 64 - 2 ^ 48 ≤ va ∧ va < 2 ^ 64

instance (va : ℕ) : Decidable (UpperHalf va) := inferInstanceAs (Decidable (_ ∧ _))

structure Mapping where
  pa : ℕ
  attrs : ℕ
deriving DecidableEq

def leafMapping (va : ℕ) (leaf : ℕ × ℕ) : Mapping :=
  ⟨Entry.outputAddr leaf.2 / leafSize leaf.1 * leafSize leaf.1 + va % leafSize leaf.1,
    Entry.attrs leaf.2⟩

/-- The leaf that the walk of an address ends in, with its level. -/
def leafAt (tables : ℕ → ℕ → ℕ) (root va : ℕ) : Option (ℕ × ℕ) :=
  Radix.lookup 512 decode tables 3 root (key va)

/-- What the walk from a root makes of the low 48 bits of an address. -/
def walk (tables : ℕ → ℕ → ℕ) (root va : ℕ) : Option Mapping :=
  (leafAt tables root va).map (leafMapping va)

def translate (tables : ℕ → ℕ → ℕ) (root va : ℕ) : Option Mapping :=
  if UpperHalf va then walk tables root va else none

theorem walk_of_leafAt {tables tables' : ℕ → ℕ → ℕ} {root va : ℕ} {leaf : ℕ × ℕ}
    {c : Prop} [Decidable c]
    (h : leafAt tables' root va = if c then some leaf else leafAt tables root va) :
    walk tables' root va = if c then some (leafMapping va leaf) else walk tables root va := by
  rw [walk, h]
  split <;> rfl

def Level.below : Level → ℕ
  | l0 => 3
  | l1 => 2
  | l2 => 1
  | l3 => 0

theorem Level.indexIn_eq (level : Level) (va : ℕ) :
    level.indexIn va = Radix.digit 512 level.below (key va) := by
  have hmask (x : ℕ) : x &&& 0x1FF = x % 512 := Nat.and_two_pow_sub_one_eq_mod x 9
  rw [indexIn, hmask, Nat.shiftRight_eq_div_pow]
  cases level <;> simp only [indexShift, below, Radix.digit, key, pageSize] <;> norm_num <;> omega

theorem key_lt (va : ℕ) : key va / 512 ^ (3 + 1) = 0 := by
  simp only [key, pageSize]
  norm_num
  omega

/-- Two upper-half addresses select the same slots down to a level when they lie in one leaf of
that level. -/
theorem key_div_eq_iff {va va' : ℕ} (h : UpperHalf va) (h' : UpperHalf va') {n : ℕ} (hn : n < 3) :
    key va' / 512 ^ n = key va / 512 ^ n ↔ va' / leafSize n = va / leafSize n := by
  simp only [UpperHalf] at h h'
  have hcases : n = 0 ∨ n = 1 ∨ n = 2 := by omega
  rcases hcases with rfl | rfl | rfl <;> simp only [key, pageSize,
    leafSize] <;> norm_num at h h' ⊢ <;>
    omega

private theorem UpperHalf.window {va va' n : ℕ} (h : UpperHalf va) (hn : n < 3)
    (hsize : leafSize n ∣ va)
    (hle : va ≤ va') (hlt : va' < va + leafSize n) : UpperHalf va' := by
  have hcases : n = 0 ∨ n = 1 ∨ n = 2 := by omega
  simp only [UpperHalf] at h ⊢
  rcases hcases with rfl | rfl | rfl <;> simp only [leafSize] at hsize hlt <;>
    norm_num at h hsize hlt ⊢ <;> omega

theorem decode_table {frame n : ℕ} (h : Entry.Holds frame) :
    decode (n + 1) (Entry.table frame) = .table frame ∧
      Entry.outputAddr (Entry.table frame) = frame := by
  have hkind : Entry.table frame &&& typeTableOrPage = typeTableOrPage := by
    rw [Entry.table, h, Nat.and_or_distrib_right, h.and_eq_zero (by decide), Nat.zero_or]
    rfl
  have hout : Entry.outputAddr (Entry.table frame) = frame := by
    rw [Entry.outputAddr, Entry.table, h, Nat.and_or_distrib_right, h,
      show typeTableOrPage &&& outputAddrMask = 0 from rfl, Nat.or_zero]
  refine ⟨?_, hout⟩
  rw [decode, Entry.isValid_eq, Entry.isTableOrPage, hkind, hout]
  rfl

theorem decode_zero (n : ℕ) : decode n 0 = .empty := rfl

private theorem not_isBlock_of_table {n e next : ℕ} (h : decode n e = .table next) :
    Entry.isBlock e = false := by
  rw [Entry.isBlock_eq]
  rw [decode] at h
  split_ifs at h with hvalid htable hn
  rw [htable, Bool.not_true, Bool.and_false]

private theorem level_of_isBlock {n e : ℕ} (h : decode n e = .leaf e)
    (hblock : Entry.isBlock e = true) :
    n = 1 ∨ n = 2 := by
  rw [Entry.isBlock_eq, Bool.and_eq_true, Bool.not_eq_true'] at hblock
  by_contra hn
  simp [decode, hblock.1, hblock.2, hn] at h

theorem decode_of_isBlock {n e : ℕ} (hblock : Entry.isBlock e = true) (hn : n = 1 ∨ n = 2) :
    decode n e = .leaf e := by
  rw [Entry.isBlock_eq, Bool.and_eq_true, Bool.not_eq_true'] at hblock
  simp [decode, hblock.1, hblock.2, hn]

private theorem Entry.holds_mask (pa : ℕ) : Entry.Holds (pa &&& outputAddrMask) := by
  rw [Entry.Holds, Nat.and_assoc, Nat.and_self]

/-- Any address makes a leaf; of the address it keeps what an entry can hold. -/
theorem leafEntry_eq {target : Level} (htarget : target ≠ .l0) (pa : ℕ) (attrs : LeafAttrs) :
    ∃ e, TableMemory.leafEntry pa target attrs = .ok e ∧ decode target.below e = .leaf e ∧
      Entry.outputAddr e = pa &&& outputAddrMask ∧ Entry.attrs e = attrs.bits := by
  have hholds := Entry.holds_mask pa
  have hpage : decode 0 (Entry.page pa attrs) = .leaf (Entry.page pa attrs) := by
    rw [decode, Entry.isValid_eq, Entry.isTableOrPage, Entry.page, Entry.kind_leaf hholds rfl]
    rfl
  have hblock (n : ℕ) (hn : n = 1 ∨ n = 2) :
      decode n (pa &&& outputAddrMask ||| attrs.bits ||| typeBlock) =
        .leaf (pa &&& outputAddrMask ||| attrs.bits ||| typeBlock) := by
    rw [decode, Entry.isValid_eq, Entry.isTableOrPage, Entry.kind_leaf hholds rfl]
    simp [typeBlock, typeTableOrPage, hn]
  cases target with
  | l0 => exact absurd rfl htarget
  | l1 => exact ⟨_, rfl, hblock 2 (.inr rfl), Entry.outputAddr_leaf hholds rfl,
      Entry.attrs_leaf hholds rfl⟩
  | l2 => exact ⟨_, rfl, hblock 1 (.inl rfl), Entry.outputAddr_leaf hholds rfl,
      Entry.attrs_leaf hholds rfl⟩
  | l3 => exact ⟨_, rfl, hpage, Entry.outputAddr_leaf hholds rfl, Entry.attrs_leaf hholds rfl⟩

/-! ## Tables under construction -/

namespace TableMemory

/-- The tables form a tree, and the frames that are still to come are blank and not part of it. -/
structure Built (st : TableMemory) (root : ℕ) (place : ℕ → Option (ℕ × ℕ)) : Prop where
  tree : Radix.Tree 512 decode st.tables 3 root place
  unused : ∀ frame ∈ st.supply, place frame = none
  blank : ∀ frame ∈ st.supply, ∀ i, st.tables frame i = 0
  frames : ∀ frame ∈ st.supply, Entry.Holds frame
  nodup : st.supply.Nodup

variable {st st' : TableMemory} {root : ℕ} {place : ℕ → Option (ℕ × ℕ)}

private theorem write_tables (st : TableMemory) (table slot entry : ℕ) :
    (st.write table slot entry).tables = Radix.write st.tables table slot entry := rfl

/-- The tables that an address passes. -/
abbrev At (st : TableMemory) (root va n t : ℕ) : Prop :=
  Radix.Path 512 decode st.tables 3 root (key va) n t

theorem fromPhys_eq {pa t : ℕ} (h : fromPhys pa = .ok t) : t = pa := by
  obtain ⟨_, -, ht⟩ := bind_eq_ok.mp h
  exact (Except.ok.inj ht).symm

/-- Blocks stand only at the levels that support them. -/
def BlockLevels (tables : ℕ → ℕ → ℕ) (place : ℕ → Option (ℕ × ℕ)) : Prop :=
  ∀ t n y i, place t = some (n, y) → Entry.isBlock (tables t i) = true → n = 1 ∨ n = 2

/-- What a step of `map` leaves alone: every translation, the tables that are neither in the tree
nor about to come, and the order in which frames come.  A table that is `new` may join the tree. -/
structure Grown (new : ℕ → Prop) (root : ℕ) (st st' : TableMemory)
    (place place' : ℕ → Option (ℕ × ℕ)) : Prop where
  lookup : ∀ x, x / 512 ^ (3 + 1) = 0 → Radix.lookup 512 decode st'.tables 3 root x =
    Radix.lookup 512 decode st.tables 3 root x
  supply : st'.supply <:+ st.supply
  outside : ∀ t, place t = none → t ∉ st.supply → place' t = none ∧ st'.tables t = st.tables t
  joined : ∀ t, place t = none → place' t ≠ none → new t
  blocks : BlockLevels st.tables place → BlockLevels st'.tables place'

private theorem Grown.refl (new : ℕ → Prop) (root : ℕ) (st : TableMemory)
    (place : ℕ → Option (ℕ × ℕ)) :
    Grown new root st st place place :=
  ⟨fun _ _ => rfl, List.suffix_rfl, fun _ ht _ => ⟨ht, rfl⟩, fun _ ht hne => absurd ht hne, id⟩

private theorem Grown.trans {new : ℕ → Prop} {st₁ : TableMemory}
    {place₁ place' : ℕ → Option (ℕ × ℕ)}
    (h : Grown new root st st₁ place place₁) (h' : Grown new root st₁ st' place₁ place') :
    Grown new root st st' place place' := by
  refine ⟨fun x hx => (h'.lookup x hx).trans (h.lookup x hx), h'.supply.trans h.supply, ?_, ?_,
    fun hblocks => h'.blocks (h.blocks hblocks)⟩
  · intro t ht hsupply
    obtain ⟨ht₁, hsame₁⟩ := h.outside t ht hsupply
    obtain ⟨ht', hsame'⟩ := h'.outside t ht₁ fun hmem => hsupply (h.supply.subset hmem)
    exact ⟨ht', hsame'.trans hsame₁⟩
  · intro t ht hne
    by_cases ht₁ : place₁ t = none
    · exact h'.joined t ht₁ hne
    · exact h.joined t ht ht₁

/-- A table that `map` can reach through its linear address. -/
def Linear (t : ℕ) : Prop := t < 2 ^ 47

private theorem linear_of_fromPhys {pa t : ℕ} (h : fromPhys pa = .ok t) : Linear pa := by
  by_contra hhigh
  obtain ⟨e, he⟩ := paToLinearVa_panics (Nat.le_of_not_lt hhigh)
  rw [fromPhys, he] at h
  cases h

theorem fromPhys_of_linear {pa : ℕ} (h : Linear pa) : fromPhys pa = .ok pa := by
  rw [fromPhys, paToLinearVa_ok h]
  rfl

private theorem Built.addTable (h : st.Built root place) {va n t frame : ℕ} {rest : List ℕ}
    (hsupply : st.supply = frame :: rest) (hat : st.At root va (n + 1) t)
    (hinvalid : decode (n + 1) (st.tables t (Radix.digit 512 (n + 1) (key va))) = .empty) :
    let st' := (TableMemory.mk st.tables rest).write t (Radix.digit 512 (n + 1) (key va))
      (Entry.table frame)
    (∃ place', st'.Built root place' ∧ Grown (· = frame) root st st' place place') ∧
      st'.At root va n frame := by
  have hmem : frame ∈ st.supply := by simp [hsupply]
  have hrest {f : ℕ} (hf : f ∈ rest) : f ∈ st.supply := by simp [hsupply, hf]
  have hnodup := h.nodup
  rw [hsupply, List.nodup_cons] at hnodup
  have hplace := hat.place_eq (by decide) h.tree (key_lt va)
  have hsame {f : ℕ} (hf : place f = none) (i : ℕ) :
      Radix.write st.tables t (Radix.digit 512 (n + 1) (key va)) (Entry.table frame) f i =
        st.tables f i := by
    rw [Radix.write_of_ne]
    rintro ⟨rfl, -⟩
    rw [hf] at hplace
    cases hplace
  obtain ⟨htree, hpath, hlookup⟩ := h.tree.writeTable (by decide) (key_lt va) hat hinvalid
    (h.unused frame hmem) (fun k i => by rw [h.blank frame hmem i]; rfl)
    (decode_table (h.frames frame hmem)).1
  refine ⟨⟨_, ⟨htree, ?_, ?_, fun f hf => h.frames f (hrest hf), hnodup.2⟩, hlookup,
    ?_, ?_, ?_, ?_⟩,
    hpath⟩
  · intro f hf
    rw [Function.update_of_ne]
    · exact h.unused f (hrest hf)
    · rintro rfl
      exact hnodup.1 hf
  · intro f hf i
    exact (hsame (h.unused f (hrest hf)) i).trans (h.blank f (hrest hf) i)
  · rw [hsupply]
    exact List.suffix_cons frame rest
  · intro u hu hfresh
    refine ⟨?_, funext (hsame hu)⟩
    rwa [Function.update_of_ne]
    rintro rfl
    exact hfresh hmem
  · intro u hu hjoined
    by_contra hne
    rw [Function.update_of_ne hne] at hjoined
    exact hjoined hu
  · intro hblocks u k y i hu hblock
    rw [write_tables] at hblock
    by_cases hframe : u = frame
    · subst hframe
      rw [hsame (h.unused u hmem) i, h.blank u hmem] at hblock
      cases hblock
    · rw [Function.update_of_ne hframe] at hu
      by_cases hslot : u = t ∧ i = Radix.digit 512 (n + 1) (key va)
      · obtain ⟨rfl, rfl⟩ := hslot
        rw [Radix.write_self, not_isBlock_of_table
          (decode_table (n := n) (h.frames frame hmem)).1] at hblock
        cases hblock
      · rw [Radix.write_of_ne _ _ hslot] at hblock
        exact hblocks u k y i hu hblock

theorem Built.tableEntry (h : st.Built root place) {va n t e : ℕ} (hat : st.At root va (n + 1) t)
    (hok : st.tableEntry t (Radix.digit 512 (n + 1) (key va)) = .ok (e, st')) :
    (∃ place', st'.Built root place' ∧ Grown (· = Entry.outputAddr e) root st st' place place') ∧
      st'.At root va n (Entry.outputAddr e) := by
  rw [TableMemory.tableEntry] at hok
  split at hok
  · next hvalid =>
      obtain ⟨_, hassert, hok⟩ := bind_eq_ok.mp hok
      obtain ⟨rfl, rfl⟩ := Prod.mk.inj (Except.ok.inj hok)
      have htable :
          Entry.isTableOrPage (st.tables t (Radix.digit 512 (n + 1) (key va))) = true := by
        by_contra hne
        rw [assertMsg, if_neg hne] at hassert
        cases hassert
      refine ⟨⟨place, h, .refl _ root st place⟩, .down hat ?_⟩
      simp [decode, hvalid, htable]
  · next hinvalid =>
      obtain ⟨⟨frame, st₁⟩, halloc, hok⟩ := bind_eq_ok.mp hok
      obtain ⟨rfl, rfl⟩ := Prod.mk.inj (Except.ok.inj hok)
      rw [allocPage] at halloc
      split at halloc
      · cases halloc
      · next frame' rest hsupply =>
          obtain ⟨rfl, rfl⟩ := Prod.mk.inj (Except.ok.inj halloc)
          have hholds := h.frames frame' (by simp [hsupply])
          have hadd := h.addTable hsupply hat (by simp [decode, hinvalid])
          rw [(decode_table (n := n) hholds).2]
          exact hadd

theorem Built.stepDown (h : st.Built root place) {va n t u : ℕ} {level : Level}
    (hlevel : level.below = n + 1) (hat : st.At root va (n + 1) t)
    (hok : stepDown va (t, st) level = .ok (u, st')) :
    (∃ place', st'.Built root place' ∧ Grown Linear root st st' place place') ∧
      st'.At root va n u := by
  rw [TableMemory.stepDown, Level.indexIn_eq, hlevel] at hok
  obtain ⟨⟨e, st₁⟩, hentry, hok⟩ := bind_eq_ok.mp hok
  obtain ⟨next, hnext, hok⟩ := bind_eq_ok.mp hok
  obtain ⟨rfl, rfl⟩ := Prod.mk.inj (Except.ok.inj hok)
  obtain ⟨⟨place', hbuilt, hgrown⟩, hat'⟩ := h.tableEntry hat hentry
  rw [fromPhys_eq hnext]
  refine ⟨⟨place', hbuilt, hgrown.lookup, hgrown.supply, hgrown.outside, ?_, hgrown.blocks⟩, hat'⟩
  intro t ht hne
  rw [hgrown.joined t ht hne]
  exact linear_of_fromPhys hnext

/-- The levels lead from one depth down to another, one at a time. -/
def Descend : List Level → (n m : ℕ) → Prop
  | [], n, m => n = m
  | level :: levels, n, m => level.below = n ∧ 1 ≤ n ∧ Descend levels (n - 1) m

theorem above_descend (target : Level) : Descend target.above 3 target.below := by
  cases target <;> simp [Descend, Level.above, Level.below]

private theorem Built.descend {levels : List Level} {va n m t u : ℕ} (h : st.Built root place)
    (hlevels : Descend levels n m) (hat : st.At root va n t)
    (hok : levels.foldlM (TableMemory.stepDown va) (t, st) = .ok (u, st')) :
    (∃ place', st'.Built root place' ∧ Grown Linear root st st' place place') ∧
      st'.At root va m u := by
  induction levels generalizing n t st place with
  | nil =>
      obtain ⟨rfl, rfl⟩ := Prod.mk.inj (Except.ok.inj hok)
      obtain rfl : n = m := hlevels
      exact ⟨⟨place, h, .refl _ root st place⟩, hat⟩
  | cons level levels ih =>
      obtain ⟨hlevel, hpos, hlevels⟩ := hlevels
      obtain ⟨k, rfl⟩ := Nat.exists_eq_add_of_le' hpos
      rw [List.foldlM_cons] at hok
      obtain ⟨⟨v, st₁⟩, hstep, hok⟩ := bind_eq_ok.mp hok
      obtain ⟨⟨place₁, h₁, hgrown₁⟩, hat₁⟩ := h.stepDown hlevel hat hstep
      obtain ⟨⟨place', h', hgrown'⟩, hat'⟩ := ih h₁ hlevels hat₁ hok
      exact ⟨⟨place', h', hgrown₁.trans hgrown'⟩, hat'⟩

/-! ## Mapping one block or page -/

/-- The addresses `[lo, hi)` translated to `pa` and the bytes after it, all others as before. -/
def window (lo hi pa attrs : ℕ) (before : ℕ → Option Mapping) (va : ℕ) : Option Mapping :=
  if lo ≤ va ∧ va < hi then some ⟨pa + (va - lo), attrs⟩ else before va

theorem window_append {lo hi pa attrs size : ℕ} (before : ℕ → Option Mapping) (h : lo + size ≤ hi) :
    window (lo + size) hi (pa + size) attrs (window lo (lo + size) pa attrs before) =
      window lo hi pa attrs before := by
  funext va
  simp only [window]
  by_cases hmid : lo + size ≤ va
  · have hoff : pa + size + (va - (lo + size)) = pa + (va - lo) := by omega
    have hlo : lo ≤ va := by omega
    rw [hoff, if_neg (by omega : ¬ (lo ≤ va ∧ va < lo + size))]
    simp only [hmid, hlo, true_and]
  · have hhi : va < hi := by omega
    rw [if_neg (by omega : ¬ (lo + size ≤ va ∧ va < hi))]
    simp only [not_le.mp hmid, hhi, and_true]

theorem window_empty {lo hi pa attrs : ℕ} (before : ℕ → Option Mapping) (h : hi ≤ lo) :
    window lo hi pa attrs before = before := by
  funext va
  rw [window, if_neg (by omega)]

/-- The tables form a tree and translate as described. -/
def Translates (st : TableMemory) (root : ℕ) (meaning : ℕ → Option Mapping) : Prop :=
  (∃ place, st.Built root place) ∧ translate st.tables root = meaning

theorem div_eq_iff_window {size va : ℕ} (hsize : 0 < size) (hva : size ∣ va) (va' : ℕ) :
    va' / size = va / size ↔ va ≤ va' ∧ va' < va + size := by
  obtain ⟨q, rfl⟩ := hva
  rw [Nat.mul_div_cancel_left _ hsize, Nat.div_eq_iff hsize, Nat.mul_comm q]
  omega

private theorem Built.writeLeaf (h : st.Built root place) {va e n t : ℕ} (hat : st.At root va n t)
    (hleaf : decode n e = .leaf e) :
    (st.write t (Radix.digit 512 n (key va)) e).Built root place ∧
      (∀ u, place u = none → (st.write t (Radix.digit 512 n (key va)) e).tables u = st.tables u) ∧
      (BlockLevels st.tables place →
        BlockLevels (st.write t (Radix.digit 512 n (key va)) e).tables place) ∧
      ∀ va', leafAt (st.write t (Radix.digit 512 n (key va)) e).tables root va' =
        if key va' / 512 ^ n = key va / 512 ^ n then some (n, e)
          else leafAt st.tables root va' := by
  obtain ⟨htree, hlookup⟩ := h.tree.writeLeaf (by decide) (key_lt va) hat hleaf
  have hplace := hat.place_eq (by decide) h.tree (key_lt va)
  have hsame (u : ℕ) (hu : place u = none) :
      (st.write t (Radix.digit 512 n (key va)) e).tables u = st.tables u := by
    funext i
    rw [write_tables, Radix.write_of_ne]
    rintro ⟨rfl, -⟩
    rw [hu] at hplace
    cases hplace
  refine ⟨⟨htree, h.unused, ?_, h.frames, h.nodup⟩, hsame, ?_, ?_⟩
  · intro f hf i
    rw [hsame f (h.unused f hf)]
    exact h.blank f hf i
  · intro hblocks u k y i hu hblock
    rw [write_tables] at hblock
    by_cases hslot : u = t ∧ i = Radix.digit 512 n (key va)
    · obtain ⟨rfl, rfl⟩ := hslot
      obtain ⟨rfl, -⟩ := Prod.mk.inj (Option.some.inj (hplace.symm.trans hu))
      rw [Radix.write_self] at hblock
      exact level_of_isBlock hleaf hblock
    · rw [Radix.write_of_ne _ _ hslot] at hblock
      exact hblocks u k y i hu hblock
  · intro va'
    exact hlookup _ (key_lt va')

/-- A call of `map` that returns: the addresses that agree with `va` down to the target's index get
the leaf, every other walk ends as before. -/
theorem Built.map (h : st.Built root place) {va pa : ℕ} {target : Level} {attrs : LeafAttrs}
    (hok : st.map root va pa target attrs = .ok st') :
    target.below < 3 ∧
      (∃ place', st'.Built root place' ∧ st'.supply <:+ st.supply ∧
        (∀ t, place t = none → t ∉ st.supply → place' t = none ∧ st'.tables t = st.tables t) ∧
        (∀ t, place t = none → place' t ≠ none → Linear t) ∧
        (BlockLevels st.tables place → BlockLevels st'.tables place')) ∧
      ∃ e, Entry.outputAddr e = pa &&& outputAddrMask ∧ Entry.attrs e = attrs.bits ∧
        ∀ va', leafAt st'.tables root va' =
          if key va' / 512 ^ target.below = key va / 512 ^ target.below then some (target.below, e)
          else leafAt st.tables root va' := by
  obtain ⟨_, hassert, hok⟩ := bind_eq_ok.mp hok
  have htarget : target ≠ .l0 := by
    by_contra hne
    rw [assertMsg, if_neg (by simpa using hne)] at hassert
    cases hassert
  obtain ⟨e, he, hleaf, hout, hattrs⟩ := leafEntry_eq htarget pa attrs
  rw [he, ok_bind] at hok
  obtain ⟨⟨t, st₁⟩, hdescend, hok⟩ := bind_eq_ok.mp hok
  obtain rfl := Except.ok.inj hok
  obtain ⟨⟨place₁, hbuilt₁, hgrown⟩, hat⟩ := h.descend (above_descend target) .root hdescend
  have hbelow : target.below < 3 := by
    cases target <;> first | exact absurd rfl htarget | decide
  obtain ⟨hbuilt, hsame, hblocks, hleafAt⟩ := hbuilt₁.writeLeaf hat hleaf
  rw [Level.indexIn_eq]
  refine ⟨hbelow, ⟨place₁, hbuilt, hgrown.supply, ?_, hgrown.joined,
    fun h => hblocks (hgrown.blocks h)⟩, e, hout, hattrs, ?_⟩
  · intro u hu hsupply
    obtain ⟨hu₁, htables⟩ := hgrown.outside u hu hsupply
    exact ⟨hu₁, (hsame u hu₁).trans htables⟩
  · intro va'
    have hbefore : leafAt st₁.tables root va' = leafAt st.tables root va' :=
      hgrown.lookup _ (key_lt va')
    rw [hleafAt, hbefore]

theorem leafMapping_of_dvd {e pa n : ℕ} (va' : ℕ) (hout : Entry.outputAddr e = pa)
    (hpa : leafSize n ∣ pa) : leafMapping va' (n, e) = ⟨pa + va' % leafSize n, Entry.attrs e⟩ := by
  rw [leafMapping, hout, Nat.div_mul_cancel hpa]

theorem Built.map_window (h : st.Built root place) {va pa : ℕ} {target : Level} {attrs : LeafAttrs}
    (hva : UpperHalf va) (hsize : leafSize target.below ∣ va) (hpa : leafSize target.below ∣ pa)
    (hlt : pa < 2 ^ 48) (hok : st.map root va pa target attrs = .ok st') :
    ∃ e, Entry.outputAddr e = pa ∧ Entry.attrs e = attrs.bits ∧ ∀ va', UpperHalf va' →
      leafAt st'.tables root va' =
        if va ≤ va' ∧ va' < va + leafSize target.below then some (target.below, e)
        else leafAt st.tables root va' := by
  obtain ⟨hbelow, -, e, hout, hattrs, hleafAt⟩ := h.map hok
  have hpage : pageSize ∣ pa := Dvd.dvd.trans ⟨512 ^ target.below, by
    rw [leafSize, Nat.pow_add, Nat.pow_mul]; rfl⟩ hpa
  rw [Entry.holds_of_aligned (Nat.mod_eq_zero_of_dvd hpage) hlt] at hout
  refine ⟨e, hout, hattrs, fun va' hva' => ?_⟩
  rw [hleafAt]
  refine if_congr ?_ rfl rfl
  rw [key_div_eq_iff hva hva' hbelow, div_eq_iff_window (leafSize_pos _) hsize]

theorem Translates.map {meaning : ℕ → Option Mapping} (h : st.Translates root meaning) {va pa : ℕ}
    {target : Level} {attrs : LeafAttrs} (hva : UpperHalf va) (hsize : leafSize target.below ∣ va)
    (hpa : leafSize target.below ∣ pa) (hlt : pa < 2 ^ 48)
    (hok : st.map root va pa target attrs = .ok st') :
    st'.Translates root (window va (va + leafSize target.below) pa attrs.bits meaning) := by
  obtain ⟨⟨place, hbuilt⟩, rfl⟩ := h
  obtain ⟨hbelow, ⟨place', hbuilt', -⟩, -⟩ := hbuilt.map hok
  obtain ⟨e, hout, hattrs, hleafAt⟩ := hbuilt.map_window hva hsize hpa hlt hok
  refine ⟨⟨place', hbuilt'⟩, funext fun va' => ?_⟩
  rw [window, translate, translate]
  by_cases hva' : UpperHalf va'
  · rw [if_pos hva', if_pos hva', walk_of_leafAt (hleafAt va' hva')]
    by_cases hin : va ≤ va' ∧ va' < va + leafSize target.below
    · have hoff : va' % leafSize target.below = va' - va := by
        rw [Nat.mod_eq_sub_mul_div, (div_eq_iff_window (leafSize_pos _) hsize va').mpr hin,
          Nat.mul_div_cancel' hsize]
      rw [if_pos hin, if_pos hin, leafMapping_of_dvd va' hout hpa, hoff, hattrs]
    · rw [if_neg hin, if_neg hin]
  · rw [if_neg hva', if_neg hva', if_neg fun hin => hva' (hva.window hbelow hsize hin.1 hin.2)]

end TableMemory

end Preon.Memory
