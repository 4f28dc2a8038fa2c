import Preon.Framework.BitField
import Preon.Memory.Translation

/-!
# The descriptor format

`Entry::page`, `Entry::block` and `Entry::table` put a word together from pieces, some of them
shifted already.  Read with the positions and widths of the architecture, the word gives back the
address and every attribute, and it has no other bit.
-/

namespace Preon.Memory

open Framework

/-! ## The fields and what they mean -/

def Access.ap : Access → ℕ
  | kernelReadWrite => 0b00
  | sharedReadWrite => 0b01
  | kernelReadOnly => 0b10
  | sharedReadOnly => 0b11

def Executable.pxnField : Executable → ℕ
  | kernel => 0
  | user => 1
  | none => 1

def Executable.uxnField : Executable → ℕ
  | kernel => 1
  | user => 0
  | none => 1

def MemoryAttr.ofAttrIndx : ℕ → Option MemoryAttr
  | 0 => some normal
  | 1 => some normalNonCacheable
  | 2 => some deviceNGNRNE
  | 3 => some deviceNGNRE
  | _ => none

/-- Bit 0 of AP[2:1] admits EL0, bit 1 takes writing away. -/
def Access.ofAp : ℕ → Option Access
  | 0b00 => some kernelReadWrite
  | 0b01 => some sharedReadWrite
  | 0b10 => some kernelReadOnly
  | 0b11 => some sharedReadOnly
  | _ => none

/-- The encoding 0b01 is reserved. -/
def Shareability.ofSh : ℕ → Option Shareability
  | 0b00 => some nonShareable
  | 0b10 => some outerShareable
  | 0b11 => some innerShareable
  | _ => none

/-- Each bit takes execution away from one exception level; there is no policy for neither. -/
def Executable.ofXn : (pxn uxn : ℕ) → Option Executable
  | 0, 1 => some kernel
  | 1, 0 => some user
  | 1, 1 => some none
  | _, _ => Option.none

private theorem MemoryAttr.index_lt (memory : MemoryAttr) : memory.index < 2 ^ 3 := by
  cases memory <;> decide

private theorem Access.ap_lt (access : Access) : access.ap < 2 ^ 2 := by
  cases access <;> decide

theorem Shareability.bits_lt (share : Shareability) : share.bits < 2 ^ 2 := by
  cases share <;> decide

private theorem Executable.pxnField_lt (execute : Executable) : execute.pxnField < 2 ^ 1 := by
  cases execute <;> decide

private theorem Executable.uxnField_lt (execute : Executable) : execute.uxnField < 2 ^ 1 := by
  cases execute <;> decide

private theorem Access.bits_eq (access : Access) : access.bits = access.ap <<< 6 := by
  cases access <;> rfl

private theorem Executable.bits_eq (execute : Executable) :
    execute.bits = execute.pxnField <<< 53 ||| execute.uxnField <<< 54 := by
  cases execute <;> rfl

@[simp] theorem MemoryAttr.ofAttrIndx_index (memory : MemoryAttr) :
    ofAttrIndx memory.index = some memory := by
  cases memory <;> rfl

@[simp] theorem Access.ofAp_ap (access : Access) : ofAp access.ap = some access := by
  cases access <;> rfl

@[simp] theorem Shareability.ofSh_bits (share : Shareability) : ofSh share.bits = some share := by
  cases share <;> rfl

@[simp] theorem Executable.ofXn_fields (execute : Executable) :
    ofXn execute.pxnField execute.uxnField = some execute := by
  cases execute <;> rfl

namespace Entry

/-- The word read field by field is a leaf of this kind with this address and these attributes. -/
structure LeafWord (e kind pa : ℕ) (attrs : LeafAttrs) : Prop where
  kind : bitField e 0 2 = kind
  memory : MemoryAttr.ofAttrIndx (bitField e 2 3) = some attrs.memory
  access : Access.ofAp (bitField e 6 2) = some attrs.access
  share : Shareability.ofSh (bitField e 8 2) = some attrs.share
  accessFlag : bitField e 10 1 = 1
  address : bitField e 12 36 <<< 12 = pa
  execute : Executable.ofXn (bitField e 53 1) (bitField e 54 1) = some attrs.execute
  rest : ∀ i, ¬ (i ≤ 4 ∨ 6 ≤ i ∧ i ≤ 10 ∨ 12 ≤ i ∧ i ≤ 47 ∨ i = 53 ∨ i = 54) → e.testBit i = false

/-- The word read field by field is a table descriptor with this address. -/
structure TableWord (e pa : ℕ) : Prop where
  kind : bitField e 0 2 = typeTableOrPage
  address : bitField e 12 36 <<< 12 = pa
  rest : ∀ i, ¬ (i ≤ 1 ∨ 12 ≤ i ∧ i ≤ 47) → e.testBit i = false

/-- What the accessors say of a word. -/
structure Classified (e kind pa : ℕ) : Prop where
  valid : isValid e = true
  block : isBlock e = decide (kind = typeBlock)
  tableOrPage : isTableOrPage e = decide (kind = typeTableOrPage)
  outputAddr : outputAddr e = pa

private theorem LeafWord.unique {e kind kind' pa pa' : ℕ} {attrs attrs' : LeafAttrs}
    (h : LeafWord e kind pa attrs) (h' : LeafWord e kind' pa' attrs') :
      pa = pa' ∧ attrs = attrs' := by
  obtain ⟨memory, access, share, execute⟩ := attrs
  obtain ⟨memory', access', share', execute'⟩ := attrs'
  have hmemory := Option.some.inj (h.memory.symm.trans h'.memory)
  have haccess := Option.some.inj (h.access.symm.trans h'.access)
  have hshare := Option.some.inj (h.share.symm.trans h'.share)
  have hexecute := Option.some.inj (h.execute.symm.trans h'.execute)
  simp only at hmemory haccess hshare hexecute
  exact ⟨h.address.symm.trans h'.address, by rw [hmemory, haccess, hshare, hexecute]⟩

/-! ## The accessors read the fields -/

private theorem kind_eq (e : ℕ) : bitField e 0 2 = e &&& typeTableOrPage :=
  (Nat.and_two_pow_sub_one_eq_mod e 2).symm

private theorem outputAddr_eq (e : ℕ) : outputAddr e = bitField e 12 36 <<< 12 := by
  have hmask : outputAddrMask = (2 ^ 36 - 1) <<< 12 := by decide
  apply Nat.eq_of_testBit_eq
  intro i
  rw [outputAddr, hmask, Nat.testBit_and, Nat.testBit_shiftLeft, Nat.testBit_shiftLeft,
    testBit_bitField, Nat.testBit_two_pow_sub_one]
  by_cases hi : 12 ≤ i
  · rw [Nat.add_sub_cancel' hi, Bool.and_comm]
    simp [hi]
  · simp [hi]

private theorem classified {e kind pa : ℕ} (hkind : bitField e 0 2 = kind)
    (hpa : bitField e 12 36 <<< 12 = pa)
    (h : kind = typeBlock ∨ kind = typeTableOrPage) : Classified e kind pa := by
  have htype : e &&& typeTableOrPage = kind := (kind_eq e).symm.trans hkind
  have hvalid : isValid e = true := by
    rw [isValid_eq, htype]
    rcases h with rfl | rfl <;> rfl
  refine ⟨hvalid, ?_, ?_, (outputAddr_eq e).trans hpa⟩
  · rw [isBlock_eq, hvalid, isTableOrPage, htype]
    rcases h with rfl | rfl <;> rfl
  · rw [isTableOrPage, htype]

/-! ## The constructors pack the fields -/

variable {pa kind : ℕ}

def leafFields (kind pa : ℕ) (attrs : LeafAttrs) (hkind : kind < 2 ^ 2)
    (hpa : pa / 2 ^ 12 < 2 ^ 36) :
    List Field :=
  [⟨0, 2, kind, hkind⟩, ⟨2, 3, attrs.memory.index, attrs.memory.index_lt⟩,
    ⟨6, 2, attrs.access.ap, attrs.access.ap_lt⟩, ⟨8, 2, attrs.share.bits, attrs.share.bits_lt⟩,
    ⟨10, 1, 1, by decide⟩, ⟨12, 36, pa / 2 ^ 12, hpa⟩,
    ⟨53, 1, attrs.execute.pxnField, attrs.execute.pxnField_lt⟩,
    ⟨54, 1, attrs.execute.uxnField, attrs.execute.uxnField_lt⟩]

def tableFields (pa : ℕ) (hpa : pa / 2 ^ 12 < 2 ^ 36) : List Field :=
  [⟨0, 2, typeTableOrPage, by decide⟩, ⟨12, 36, pa / 2 ^ 12, hpa⟩]

private theorem shiftLeft_page (hal : pa % pageSize = 0) : (pa / 2 ^ 12) <<< 12 = pa := by
  rw [Nat.shiftLeft_eq]
  exact Nat.div_mul_cancel (Nat.dvd_of_mod_eq_zero hal)

private theorem or_fields (pa memory access share pxn uxn flag kind : ℕ) :
    pa ||| (memory ||| access ||| share ||| (pxn ||| uxn) ||| flag) ||| kind =
      kind ||| (memory ||| (access ||| (share ||| (flag ||| (pa ||| (pxn ||| uxn)))))) := by
  ac_rfl

private theorem leaf_eq_pack (attrs : LeafAttrs) (hkind : kind < 2 ^ 2) (hpa : pa / 2 ^ 12 < 2 ^ 36)
    (hal : pa % pageSize = 0) :
    pa ||| attrs.bits ||| kind = pack (leafFields kind pa attrs hkind hpa) := by
  simp only [leafFields, pack, Field.word, LeafAttrs.bits, Access.bits_eq, Executable.bits_eq,
    accessFlag, shiftLeft_page hal, Nat.shiftLeft_zero, Nat.or_zero]
  apply or_fields

private theorem leafWord_of_pack (attrs : LeafAttrs) (hkind : kind < 2 ^ 2)
    (hpa : pa / 2 ^ 12 < 2 ^ 36)
    (hal : pa % pageSize = 0) :
      LeafWord (pack (leafFields kind pa attrs hkind hpa)) kind pa attrs := by
  have hdisj : (leafFields kind pa attrs hkind hpa).Pairwise Field.Disjoint := by
    simp [leafFields, Field.Disjoint]
  have hread {f : Field} (hf : f ∈ leafFields kind pa attrs hkind hpa) := bitField_pack hdisj hf
  constructor
  · exact hread (f := ⟨0, 2, kind, hkind⟩) (by simp [leafFields])
  · rw [hread (f := ⟨2, 3, _, attrs.memory.index_lt⟩) (by simp [leafFields])]
    simp
  · rw [hread (f := ⟨6, 2, _, attrs.access.ap_lt⟩) (by simp [leafFields])]
    simp
  · rw [hread (f := ⟨8, 2, _, attrs.share.bits_lt⟩) (by simp [leafFields])]
    simp
  · exact hread (f := ⟨10, 1, 1, by decide⟩) (by simp [leafFields])
  · rw [hread (f := ⟨12, 36, _, hpa⟩) (by simp [leafFields])]
    exact shiftLeft_page hal
  · rw [hread (f := ⟨53, 1, _, attrs.execute.pxnField_lt⟩) (by simp [leafFields]),
      hread (f := ⟨54, 1, _, attrs.execute.uxnField_lt⟩) (by simp [leafFields])]
    simp
  · intro i hi
    apply testBit_pack_of_not_covers
    simp only [leafFields, List.forall_mem_cons, List.not_mem_nil, false_implies,
      implies_true, and_true, Field.Covers]
    omega

private theorem tableWord_of_pack (hpa : pa / 2 ^ 12 < 2 ^ 36) (hal : pa % pageSize = 0) :
    TableWord (pack (tableFields pa hpa)) pa := by
  have hdisj : (tableFields pa hpa).Pairwise Field.Disjoint := by
    simp [tableFields, Field.Disjoint]
  have hread {f : Field} (hf : f ∈ tableFields pa hpa) := bitField_pack hdisj hf
  constructor
  · exact hread (f := ⟨0, 2, typeTableOrPage, by decide⟩) (by simp [tableFields])
  · rw [hread (f := ⟨12, 36, _, hpa⟩) (by simp [tableFields])]
    exact shiftLeft_page hal
  · intro i hi
    apply testBit_pack_of_not_covers
    simp only [tableFields, List.forall_mem_cons, List.not_mem_nil, false_implies,
      implies_true, and_true, Field.Covers]
    omega

section Aligned

variable (hal : pa % pageSize = 0) (hlt : pa < 2 ^ 48)

include hlt in
private theorem pageNumber_lt : pa / 2 ^ 12 < 2 ^ 36 := by omega

include hal hlt

private theorem page_leafWord (attrs : LeafAttrs) :
    LeafWord (page pa attrs) typeTableOrPage pa attrs := by
  rw [page, holds_of_aligned hal hlt, leaf_eq_pack attrs (by decide) (pageNumber_lt hlt) hal]
  exact leafWord_of_pack attrs _ _ hal

private theorem block_leafWord {level : Level} (hlevel : level = .l1 ∨ level = .l2)
    (attrs : LeafAttrs) :
    ∃ e, block pa level attrs = .ok e ∧ LeafWord e typeBlock pa attrs := by
  have hsupports : level.supportsBlock = true := by
    rcases hlevel with rfl | rfl <;> rfl
  refine ⟨_, by rw [block, assertMsg_true hsupports, ok_bind]; rfl, ?_⟩
  rw [holds_of_aligned hal hlt, leaf_eq_pack attrs (by decide) (pageNumber_lt hlt) hal]
  exact leafWord_of_pack attrs _ _ hal

private theorem table_tableWord : TableWord (table pa) pa := by
  have hpack : pa ||| typeTableOrPage = pack (tableFields pa (pageNumber_lt hlt)) := by
    simp only [tableFields, pack, Field.word, shiftLeft_page hal, Nat.shiftLeft_zero, Nat.or_zero]
    exact Nat.or_comm ..
  rw [table, holds_of_aligned hal hlt, hpack]
  exact tableWord_of_pack _ hal

end Aligned

/-- Reading a descriptor gives back what it was made from: every field, no other bit, the kind and
the address through the accessors; so two leaves of one kind differ if their addresses or attributes
do. -/
theorem descriptor_lossless {pa : ℕ} (hal : pa % pageSize = 0) (hlt : pa < 2 ^ 48) :
    (∀ attrs, LeafWord (page pa attrs) typeTableOrPage pa attrs ∧
      Classified (page pa attrs) typeTableOrPage pa) ∧
    (∀ level attrs, level = .l1 ∨ level = .l2 → ∃ e, block pa level attrs = .ok e ∧
      LeafWord e typeBlock pa attrs ∧ Classified e typeBlock pa) ∧
    (TableWord (table pa) pa ∧ Classified (table pa) typeTableOrPage pa) ∧
    ∀ pa' attrs attrs', pa' % pageSize = 0 → pa' < 2 ^ 48 →
      (page pa attrs = page pa' attrs' → pa = pa' ∧ attrs = attrs') ∧
      ∀ level level', level = .l1 ∨ level = .l2 → level' = .l1 ∨ level' = .l2 →
        block pa level attrs = block pa' level' attrs' → pa = pa' ∧ attrs = attrs' := by
  refine ⟨?_, ?_, ?_, ?_⟩
  · intro attrs
    have hword := page_leafWord hal hlt attrs
    exact ⟨hword, classified hword.kind hword.address (.inr rfl)⟩
  · intro level attrs hlevel
    obtain ⟨e, he, hword⟩ := block_leafWord hal hlt hlevel attrs
    exact ⟨e, he, hword, classified hword.kind hword.address (.inl rfl)⟩
  · have hword := table_tableWord hal hlt
    exact ⟨hword, classified hword.kind hword.address (.inr rfl)⟩
  · intro pa' attrs attrs' hal' hlt'
    constructor
    · intro heq
      have hword := page_leafWord hal hlt attrs
      rw [heq] at hword
      exact hword.unique (page_leafWord hal' hlt' attrs')
    · intro level level' hlevel hlevel' heq
      obtain ⟨e, he, hword⟩ := block_leafWord hal hlt hlevel attrs
      obtain ⟨e', he', hword'⟩ := block_leafWord hal' hlt' hlevel' attrs'
      obtain rfl : e = e' := Except.ok.inj (he.symm.trans (heq.trans he'))
      exact hword.unique hword'

/-- The page below 2 ^ 48 as kernel text. -/
theorem descriptor_lossless_top :
    LeafWord (page 0xFFFFFFFFF000 ⟨.normal, .kernelReadOnly, .innerShareable, .kernel⟩)
      typeTableOrPage
      0xFFFFFFFFF000 ⟨.normal, .kernelReadOnly, .innerShareable, .kernel⟩ :=
  ((descriptor_lossless (by decide) (by decide)).1 _).1

end Entry

end Preon.Memory
