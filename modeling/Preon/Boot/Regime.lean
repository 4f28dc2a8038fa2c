import Preon.Framework.MappedCode
import Preon.Memory.TableSwitch

/-!
# Stage 1 translation at EL1

Which physical address an access goes to: the address itself while the MMU is off, and what the walk
finds in the tables that `TTBR0_EL1` and `TTBR1_EL1` point to when it is on.  Of `TCR_EL1` only the
configuration that `boot.s` and `secondary.s` write is followed: 48-bit addresses in both halves and
4 KiB pages.  Of `SCTLR_EL1` the bits `M`, `WXN` and `EE` count; where data would be big-endian
nothing is said.  Tagged addresses and the translation of EL2 and EL3 are not modelled.
-/

namespace Preon.Boot

open Framework MappedCode Memory

def word (n : ℕ) : Word := BitVec.ofNat 64 n

theorem word_add (a b : ℕ) : word (a + b) = word a + BitVec.ofNat 64 b := BitVec.ofNat_add _ _

theorem toNat_word {n : ℕ} (h : n < 2 ^ 64) : (word n).toNat = n := by
  rw [word, BitVec.toNat_ofNat, Nat.mod_eq_of_lt h]

@[simp] theorem word_toNat (a : Word) : word a.toNat = a := by
  rw [word, BitVec.ofNat_toNat, BitVec.setWidth_eq]

/-- The word in slot `i` of the table at `t`, as it stands in memory. -/
def tablesOf (mem : WordMemory) (t i : ℕ) : ℕ :=
  (WordMemory.load mem (BitVec.ofNat 64 (t + 8 * i))).toNat

/-- `T0SZ` and `T1SZ` are 16, `TG0` and `TG1` select 4 KiB. -/
def usual (tcr : ℕ) : Bool :=
  tcr % 64 = 16 && tcr / 2 ^ 14 % 4 = 0 && tcr / 2 ^ 16 % 64 = 16 && tcr / 2 ^ 30 % 4 = 2

/-- `EPD0` and `EPD1` disable the walks. -/
def walks0 (tcr : ℕ) : Bool := tcr / 2 ^ 7 % 2 = 0
def walks1 (tcr : ℕ) : Bool := tcr / 2 ^ 23 % 2 = 0

def tableBase (ttbr : ℕ) : ℕ := ttbr % 2 ^ 48 / pageSize * pageSize

theorem tableBase_word {root : ℕ} (hpage : pageSize ∣ root) (hlt : root < 2 ^ 48) :
    tableBase (word root).toNat = root := by
  rw [toNat_word (by omega), tableBase, Nat.mod_eq_of_lt hlt, Nat.div_mul_cancel hpage]

/-- The bits of `SCTLR_ELx`: translation, no execution from writable memory, big-endian data. -/
def mmuOn (sctlr : Word) : Bool := sctlr.getLsbD 0
def writeImpliesXn (sctlr : Word) : Bool := sctlr.getLsbD 19
def bigEndian (sctlr : Word) : Bool := sctlr.getLsbD 25

def writable (attrs : ℕ) : Bool := attrs &&& 1 <<< 7 = 0

/-- What EL1 may do.  A clear access flag forbids everything and `AP[2]` stores; fetches are
forbidden by `PXN`, and from memory that EL0 can write or that `WXN` makes non-executable. -/
def permits (wxn : Bool) (kind : AccessKind) (attrs : ℕ) : Bool :=
  attrs &&& accessFlag ≠ 0 &&
    match kind with
    | .fetch => attrs &&& pxn = 0 && !(writable attrs && (wxn || attrs &&& 1 <<< 6 ≠ 0))
    | .load => true
    | .store => writable attrs

/-- The root of the half that an address is in. -/
def rootOf (s : State) (va : ℕ) : Option ℕ :=
  let tcr := (s.sys .tcrEl1).toNat
  if usual tcr = false then none
  else if va < 2 ^ 48 then if walks0 tcr then some (tableBase (s.sys .ttbr0El1).toNat) else none
  else if UpperHalf va then if walks1 tcr then some (tableBase (s.sys .ttbr1El1).toNat) else none
  else none

/-- The walk reads descriptors as data. -/
def stageOne (s : State) (kind : AccessKind) (va : Word) : Option Word := do
  let root ← rootOf s va.toNat
  let m ← walk (tablesOf s.mem) root va.toNat
  if bigEndian (s.sys .sctlrEl1) then none
  else if permits (writeImpliesXn (s.sys .sctlrEl1)) kind m.attrs then some (BitVec.ofNat 64 m.pa)
  else none

def untranslated (sctlr : Word) (kind : AccessKind) (va : Word) : Option Word :=
  if bigEndian sctlr && kind ≠ .fetch then none else some va

def mmu (s : State) (kind : AccessKind) (va : Word) : Option Word :=
  match s.el with
  | 1 =>
      if mmuOn (s.sys .sctlrEl1) then stageOne s kind va else untranslated (s.sys .sctlrEl1) kind va
  | 2 => if mmuOn (s.sys .sctlrEl2) then none else untranslated (s.sys .sctlrEl2) kind va
  | 3 => if mmuOn (s.sys .sctlrEl3) then none else untranslated (s.sys .sctlrEl3) kind va
  | _ => none

/-! ## States that translate alike -/

section Alike

variable {Label : Type} {s t : State}

/-- No translation and little-endian data. -/
def plain (sctlr : Word) : Bool := !mmuOn sctlr && !bigEndian sctlr

/-- The exception level runs at physical addresses. -/
def mmuOff (s : State) : Bool :=
  match s.el with
  | 1 => plain (s.sys .sctlrEl1)
  | 2 => plain (s.sys .sctlrEl2)
  | 3 => plain (s.sys .sctlrEl3)
  | _ => false

def OffAt (el : ℕ) (s : State) : Prop := s.el = el ∧ mmuOff s = true

theorem plain_iff {sctlr : Word} :
    plain sctlr = true ↔ mmuOn sctlr = false ∧ bigEndian sctlr = false := by
  simp [plain]

private theorem untranslated_of_little {sctlr : Word} (h : bigEndian sctlr = false)
    (kind : AccessKind) (a : Word) :
    untranslated sctlr kind a = some a := by
  rw [untranslated, h]
  rfl

theorem OffAt.mmu_eq {el : ℕ} (h : OffAt el s) (kind : AccessKind) (a : Word) :
    mmu s kind a = some a := by
  have hoff := h.2
  rw [mmuOff] at hoff
  rw [mmu]
  split at hoff
  · obtain ⟨hm, he⟩ := plain_iff.mp hoff
    simp [hm, untranslated_of_little he]
  · obtain ⟨hm, he⟩ := plain_iff.mp hoff
    simp [hm, untranslated_of_little he]
  · obtain ⟨hm, he⟩ := plain_iff.mp hoff
    simp [hm, untranslated_of_little he]
  · cases hoff

theorem OffAt.sctlr (h : OffAt 1 s) : plain (s.sys .sctlrEl1) = true := by
  have hoff := h.2
  rwa [mmuOff, h.1] at hoff

theorem offAt_one (hel : s.el = 1) (h : plain (s.sys .sctlrEl1) = true) : OffAt 1 s := by
  refine ⟨hel, ?_⟩
  rwa [mmuOff, hel]

/-- Instructions of the exception level that leave the MMUs off. -/
def keepsOff (el : ℕ) (op : Op Label) : Bool :=
  op.writes ≠ some .sctlrEl1 && op.writes ≠ some .sctlrEl2 &&
    op.writes ≠ some .sctlrEl3 && op.level ≤ el

theorem stable_off {el : ℕ} {image : MappedCode.Image Label} {ops : List (Op Label)}
    (h : ops.all (keepsOff el) = true) :
    image.Stable (OffAt el) ops := by
  intro op hop s hs
  have hkeeps := List.all_eq_true.mp h op hop
  simp only [keepsOff, Bool.and_eq_true, decide_eq_true_eq] at hkeeps
  refine ⟨?_, ?_⟩
  · rw [Op.flat_el]
    exact hs.1
  · rw [mmuOff, Op.flat_el, Op.flat_sys hkeeps.1.1.1, Op.flat_sys hkeeps.1.1.2,
      Op.flat_sys hkeeps.1.2]
    exact hs.2

theorem runs_flat_off {image : MappedCode.Image Label} (himage : image.mmu = mmu)
    {el : ℕ} {va : Word}
    {code rest : List (Instr Label)} (hex : image.Executes (OffAt el) va code) (k k' : ℕ)
    (ops : List (Op Label)) (hseg : code.drop k = ops.map .op ++ rest) (hend : k + ops.length = k')
    (hops : ops.all (keepsOff el) = true) (hs : OffAt el s)
    (halign : ∀ a ∈ flatAccesses image.label ops s, a.toNat % 8 = 0) :
    image.Runs (s.atInstr va k) ((flatRun image.label ops s).atInstr va k') ∧
      OffAt el (flatRun image.label ops s) := by
  rw [← hend]
  refine ⟨hex.runs_ops hseg (stable_off hops) hs ?_ ?_,
    MappedCode.Image.Executes.stable_run (stable_off hops) hs⟩
  · intro op hop
    have hkeeps := List.all_eq_true.mp hops op hop
    simp only [keepsOff, Bool.and_eq_true, decide_eq_true_eq] at hkeeps
    rw [hs.1]
    exact hkeeps.2
  · intro a ha
    refine ⟨halign a ha, ?_⟩
    intro t ht kind
    rw [himage]
    exact ht.mmu_eq kind a

/-- Accesses go where they go in `s`. -/
def Alike (s t : State) : Prop := t.el = s.el ∧ t.sys = s.sys ∧ t.mem = s.mem

theorem Alike.mmu_eq (h : Alike s t) : mmu t = mmu s := by
  funext kind va
  simp only [mmu, stageOne, rootOf, h.1, h.2.1, h.2.2]

/-- Instructions that write to general registers only. -/
def keepsAlike (op : Op Label) : Bool := op.writes = none && !op.isStore

theorem stable_alike {image : MappedCode.Image Label} {ops : List (Op Label)}
    (h : ops.all keepsAlike = true) :
    image.Stable (Alike s) ops := by
  intro op hop t ht
  have hkeeps := List.all_eq_true.mp h op hop
  simp only [keepsAlike, Bool.and_eq_true, decide_eq_true_eq, Bool.not_eq_true'] at hkeeps
  refine ⟨?_, ?_, ?_⟩
  · rw [Op.flat_el]
    exact ht.1
  · rw [← ht.2.1]
    funext r
    exact Op.flat_sys (by rw [hkeeps.1]; simp)
  · rw [Op.flat_mem hkeeps.2]
    exact ht.2.2

end Alike

/-! ## Words as descriptors -/

section Tables

variable {mem : WordMemory} {t t' i i' : ℕ}

def Place (t i : ℕ) : Prop := pageSize ∣ t ∧ t < 2 ^ 48 ∧ i < 512

private theorem place_apart {x : Word} (h : Place t i) (h' : Place t' i')
    (hne : ¬ (t' = t ∧ i' = i))
    (hx : WordMemory.InRun (BitVec.ofNat 64 (t' + 8 * i')) 8 x) :
    ¬ WordMemory.InRun (BitVec.ofNat 64 (t + 8 * i)) 8 x := by
  obtain ⟨⟨q, rfl⟩, hlt, hi⟩ := h
  obtain ⟨⟨q', rfl⟩, hlt', hi'⟩ := h'
  simp only [WordMemory.InRun, pageSize] at *
  bv_omega

theorem tablesOf_store (h : Place t i) (h' : Place t' i') (v : Word) :
    tablesOf (WordMemory.store mem (BitVec.ofNat 64 (t + 8 * i)) v) t' i' =
      Radix.write (tablesOf mem) t i v.toNat t' i' := by
  by_cases hsame : t' = t ∧ i' = i
  · obtain ⟨rfl, rfl⟩ := hsame
    rw [Radix.write_self, tablesOf, WordMemory.load_store_self]
  · rw [Radix.write_of_ne _ _ hsame, tablesOf,
      WordMemory.load_store_of_disjoint fun x hx => place_apart h h' hsame hx]
    rfl

/-- Memory that holds the slots of all pages. -/
def memoryOf (tables : ℕ → ℕ → ℕ) : WordMemory :=
  .ofWords fun k => word (tables (k / 512 * pageSize) (k % 512))

theorem tablesOf_memoryOf {tables : ℕ → ℕ → ℕ} (h : Place t i) :
    tablesOf (memoryOf tables) t i = tables t i % 2 ^ 64 := by
  obtain ⟨⟨q, rfl⟩, hlt, hi⟩ := h
  have hword : (BitVec.ofNat 64 (pageSize * q + 8 * i)).toNat = 8 * (512 * q + i) := by
    rw [BitVec.toNat_ofNat, Nat.mod_eq_of_lt (by omega)]
    simp only [pageSize]
    omega
  rw [tablesOf, memoryOf, WordMemory.load_ofWords hword, show (512 * q + i) / 512 = q by omega,
    show (512 * q + i) % 512 = i by omega, Nat.mul_comm q, word, BitVec.toNat_ofNat]

private theorem and_of_mod {e mask : ℕ} (h : mask < 2 ^ 64) : e % 2 ^ 64 &&& mask = e &&& mask := by
  rw [← Nat.and_two_pow_sub_one_eq_mod, Nat.and_assoc, Nat.and_comm _ mask,
    Nat.and_two_pow_sub_one_of_lt_two_pow h]

private theorem decode_of_mod (n e : ℕ) : decode n (e % 2 ^ 64) =
    match decode n e with
    | .leaf value => .leaf (value % 2 ^ 64)
    | .table next => .table next
    | .empty => .empty := by
  have hvalid : Entry.isValid (e % 2 ^ 64) = Entry.isValid e := by
    rw [Entry.isValid, Entry.isValid, and_of_mod (by decide)]
  have hkind : Entry.isTableOrPage (e % 2 ^ 64) = Entry.isTableOrPage e := by
    rw [Entry.isTableOrPage, Entry.isTableOrPage, and_of_mod (by decide)]
  have hout : Entry.outputAddr (e % 2 ^ 64) = Entry.outputAddr e := and_of_mod (by decide)
  simp only [decode, hvalid, hkind, hout]
  split_ifs <;> rfl

private theorem decode_table {n e next : ℕ} (h : decode n e = .table next) :
    pageSize ∣ next ∧ next < 2 ^ 48 := by
  have hnext : next = Entry.outputAddr e := by
    rw [decode] at h
    split_ifs at h
    exact (Slot.table.inj h).symm
  rw [hnext]
  constructor
  · apply Nat.dvd_of_mod_eq_zero
    change (e &&& outputAddrMask) % 2 ^ 12 = 0
    rw [Nat.and_mod_two_pow, show outputAddrMask % 2 ^ 12 = 0 by decide, Nat.and_zero]
  · exact Nat.lt_of_le_of_lt Nat.and_le_right (by decide : outputAddrMask < 2 ^ 48)

private theorem lookup_of_slots {tables words : ℕ → ℕ → ℕ}
    (h : ∀ t i, Place t i → words t i = tables t i % 2 ^ 64) (n x : ℕ) :
    ∀ t, pageSize ∣ t → t < 2 ^ 48 → Radix.lookup 512 decode words n t x =
      (Radix.lookup 512 decode tables n t x).map fun leaf => (leaf.1, leaf.2 % 2 ^ 64) := by
  induction n with
  | zero =>
      intro t hpage hlt
      rw [Radix.lookup, Radix.lookup, h t _ ⟨hpage, hlt, Radix.digit_lt (by decide) ..⟩,
        decode_of_mod]
      cases decode 0 (tables t (Radix.digit 512 0 x)) <;> rfl
  | succ n ih =>
      intro t hpage hlt
      rw [Radix.lookup, Radix.lookup, h t _ ⟨hpage, hlt, Radix.digit_lt (by decide) ..⟩,
        decode_of_mod]
      cases hslot : decode (n + 1) (tables t (Radix.digit 512 (n + 1) x)) with
      | leaf value => rfl
      | empty => rfl
      | table next =>
          exact ih next (decode_table hslot).1 (decode_table hslot).2

theorem translate_of_slots {tables words : ℕ → ℕ → ℕ}
    (h : ∀ t i, Place t i → words t i = tables t i % 2 ^ 64) {root : ℕ} (hpage : pageSize ∣ root)
    (hlt : root < 2 ^ 48) (va : ℕ) : translate words root va = translate tables root va := by
  rw [Memory.translate, Memory.translate, walk, walk, leafAt, leafAt,
    lookup_of_slots h 3 (key va) root hpage hlt, Option.map_map]
  have hleaf : (leafMapping va ∘ fun leaf : ℕ × ℕ => (leaf.1, leaf.2 % 2 ^ 64)) =
      leafMapping va := by
    funext leaf
    have hout : Entry.outputAddr (leaf.2 % 2 ^ 64) = Entry.outputAddr leaf.2 :=
      and_of_mod (by decide)
    have hattrs : Entry.attrs (leaf.2 % 2 ^ 64) = Entry.attrs leaf.2 := and_of_mod (by decide)
    simp only [Function.comp_apply, leafMapping, hout, hattrs]
  rw [hleaf]

end Tables

end Preon.Boot
