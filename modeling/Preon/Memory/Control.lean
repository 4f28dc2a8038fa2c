import Preon.Memory.EntryFormat

/-!
# The control registers of the translation

`attrs.rs` and `tcr.rs`: the memory attributes in `MAIR_EL1` and the configuration in `TCR_EL1`.
Read with the positions and widths of the architecture, the word that `TcrConfig::build` makes gives
back the configuration, and it has no other bit.
-/

namespace Preon.Memory

open Framework

/-! ## The model -/

def mairSlot (attr : MemoryAttr) (encoding : ℕ) : ℕ := encoding <<< (attr.index * 8)

def mairValue : ℕ :=
  mairSlot .normal 0xFF ||| mairSlot .normalNonCacheable 0x44 ||| mairSlot .deviceNGNRNE 0x00 |||
    mairSlot .deviceNGNRE 0x04

inductive Cacheability
  | nonCacheable | writeBackReadWriteAlloc | writeThroughReadAlloc | writeBackReadAlloc
deriving DecidableEq

def Cacheability.bits : Cacheability → ℕ
  | nonCacheable => 0b00
  | writeBackReadWriteAlloc => 0b01
  | writeThroughReadAlloc => 0b10
  | writeBackReadAlloc => 0b11

inductive Granule
  | kb4 | kb16 | kb64
deriving DecidableEq

def Granule.toTg0Bits : Granule → ℕ
  | kb4 => 0b00
  | kb16 => 0b10
  | kb64 => 0b01

def Granule.toTg1Bits : Granule → ℕ
  | kb4 => 0b10
  | kb16 => 0b01
  | kb64 => 0b11

inductive PhysAddrSize
  | bit32 | bit36 | bit40 | bit42 | bit44 | bit48 | bit52
deriving DecidableEq

def PhysAddrSize.bits : PhysAddrSize → ℕ
  | bit32 => 0b000
  | bit36 => 0b001
  | bit40 => 0b010
  | bit42 => 0b011
  | bit44 => 0b100
  | bit48 => 0b101
  | bit52 => 0b110

/-- A value of this type has passed the assertion of `from_va_bits`. -/
structure VirtAddrSize where
  vaBits : ℕ
  least : 25 ≤ vaBits
  most : vaBits ≤ 48
deriving DecidableEq

namespace VirtAddrSize

def fromVaBits (vaBits : ℕ) : Outcome VirtAddrSize :=
  if h : 25 ≤ vaBits ∧ vaBits ≤ 48 then .ok ⟨vaBits, h.1, h.2⟩
  else .error (.message "VA size out of supported range")

def tszBits (size : VirtAddrSize) : ℕ := 64 - size.vaBits

end VirtAddrSize

structure TtbrConfig where
  vaSize : VirtAddrSize
  granule : Granule
  innerCache : Cacheability
  outerCache : Cacheability
  shareability : Shareability
  tbi : Bool
deriving DecidableEq

structure TcrConfig where
  ttbr0 : TtbrConfig
  ttbr1 : Option TtbrConfig
  ips : PhysAddrSize
  asidFromTtbr1 : Bool
deriving DecidableEq

namespace TcrConfig

def ttbr0Bits (t : TtbrConfig) : ℕ :=
  (t.vaSize.tszBits <<< 0) ||| (t.innerCache.bits <<< 8) ||| (t.outerCache.bits <<< 10) |||
    (t.shareability.bits <<< 12) ||| (t.granule.toTg0Bits <<< 14) ||| (t.tbi.toNat <<< 37)

def ttbr1Bits (t : TtbrConfig) : ℕ :=
  (t.vaSize.tszBits <<< 16) ||| (t.innerCache.bits <<< 24) ||| (t.outerCache.bits <<< 26) |||
    (t.shareability.bits <<< 28) ||| (t.granule.toTg1Bits <<< 30) ||| (t.tbi.toNat <<< 38)

/-- `EPD1`. -/
def epd1 : ℕ := 1 <<< 23

def commonBits (config : TcrConfig) : ℕ :=
  (config.asidFromTtbr1.toNat <<< 22) ||| (config.ips.bits <<< 32)

def build (config : TcrConfig) : Outcome ℕ := do
  let upper ←
    match config.ttbr1 with
    | some t => pure (ttbr1Bits t)
    | none => do
        assertMsg (config.asidFromTtbr1 = false)
          "A1=1 requires TTBR1 enabled (ASID source can't be a disabled TTBR)"
        pure epd1
  return ttbr0Bits config.ttbr0 ||| upper ||| config.commonBits

end TcrConfig

/-! ## The fields and what they mean -/

def Cacheability.ofRgn : ℕ → Option Cacheability
  | 0b00 => some nonCacheable
  | 0b01 => some writeBackReadWriteAlloc
  | 0b10 => some writeThroughReadAlloc
  | 0b11 => some writeBackReadAlloc
  | _ => none

def Granule.ofTg0 : ℕ → Option Granule
  | 0b00 => some kb4
  | 0b01 => some kb64
  | 0b10 => some kb16
  | _ => none

def Granule.ofTg1 : ℕ → Option Granule
  | 0b01 => some kb16
  | 0b10 => some kb4
  | 0b11 => some kb64
  | _ => none

def PhysAddrSize.ofIps : ℕ → Option PhysAddrSize
  | 0b000 => some bit32
  | 0b001 => some bit36
  | 0b010 => some bit40
  | 0b011 => some bit42
  | 0b100 => some bit44
  | 0b101 => some bit48
  | 0b110 => some bit52
  | _ => none

@[simp] theorem Cacheability.ofRgn_bits (c : Cacheability) : ofRgn c.bits = some c := by
  cases c <;> rfl

@[simp] theorem Granule.ofTg0_bits (g : Granule) : ofTg0 g.toTg0Bits = some g := by
  cases g <;> rfl

@[simp] theorem Granule.ofTg1_bits (g : Granule) : ofTg1 g.toTg1Bits = some g := by
  cases g <;> rfl

@[simp] theorem PhysAddrSize.ofIps_bits (p : PhysAddrSize) : ofIps p.bits = some p := by
  cases p <;> rfl

private theorem Cacheability.bits_lt (c : Cacheability) : c.bits < 2 ^ 2 := by
  cases c <;> decide

private theorem Granule.tg0Bits_lt (g : Granule) : g.toTg0Bits < 2 ^ 2 := by
  cases g <;> decide

private theorem Granule.tg1Bits_lt (g : Granule) : g.toTg1Bits < 2 ^ 2 := by
  cases g <;> decide

private theorem PhysAddrSize.bits_lt (p : PhysAddrSize) : p.bits < 2 ^ 3 := by
  cases p <;> decide

private theorem VirtAddrSize.tszBits_lt (size : VirtAddrSize) : size.tszBits < 2 ^ 6 := by
  have hleast := size.least
  rw [tszBits]
  omega

private theorem VirtAddrSize.tszBits_inj {size size' : VirtAddrSize}
    (h : size.tszBits = size'.tszBits) :
    size = size' := by
  obtain ⟨bits, hleast, hmost⟩ := size
  obtain ⟨bits', hleast', hmost'⟩ := size'
  simp only [tszBits, mk.injEq] at *
  omega

private theorem toNat_inj {a b : Bool} (h : a.toNat = b.toNat) : a = b := by
  cases a <;> cases b <;> first | rfl | cases h

structure HalfLayout where
  tsz : ℕ
  irgn : ℕ
  orgn : ℕ
  sh : ℕ
  tg : ℕ
  tbi : ℕ
  ofTg : ℕ → Option Granule

def lowerHalf : HalfLayout := ⟨0, 8, 10, 12, 14, 37, Granule.ofTg0⟩
def upperHalf : HalfLayout := ⟨16, 24, 26, 28, 30, 38, Granule.ofTg1⟩

/-- The word read field by field configures a half this way. -/
structure HalfWord (w : ℕ) (layout : HalfLayout) (t : TtbrConfig) : Prop where
  tsz : bitField w layout.tsz 6 = t.vaSize.tszBits
  irgn : Cacheability.ofRgn (bitField w layout.irgn 2) = some t.innerCache
  orgn : Cacheability.ofRgn (bitField w layout.orgn 2) = some t.outerCache
  sh : Shareability.ofSh (bitField w layout.sh 2) = some t.shareability
  tg : layout.ofTg (bitField w layout.tg 2) = some t.granule
  tbi : bitField w layout.tbi 1 = t.tbi.toNat

private theorem HalfWord.unique {w : ℕ} {layout : HalfLayout} {t t' : TtbrConfig}
    (h : HalfWord w layout t)
    (h' : HalfWord w layout t') : t = t' := by
  obtain ⟨vaSize, granule, inner, outer, share, tbi⟩ := t
  obtain ⟨vaSize', granule', inner', outer', share', tbi'⟩ := t'
  have hsize := VirtAddrSize.tszBits_inj (h.tsz.symm.trans h'.tsz)
  have hinner := Option.some.inj (h.irgn.symm.trans h'.irgn)
  have houter := Option.some.inj (h.orgn.symm.trans h'.orgn)
  have hshare := Option.some.inj (h.sh.symm.trans h'.sh)
  have hgranule := Option.some.inj (h.tg.symm.trans h'.tg)
  have htbi := toNat_inj (h.tbi.symm.trans h'.tbi)
  simp only at hsize hinner houter hshare hgranule htbi
  rw [hsize, hinner, houter, hshare, hgranule, htbi]

/-- The word read field by field is this configuration. -/
structure TcrWord (w : ℕ) (config : TcrConfig) : Prop where
  lower : HalfWord w lowerHalf config.ttbr0
  epd0 : bitField w 7 1 = 0
  upper : ∀ t, config.ttbr1 = some t → HalfWord w upperHalf t
  epd1 : bitField w 23 1 = config.ttbr1.isNone.toNat
  a1 : bitField w 22 1 = config.asidFromTtbr1.toNat
  ips : PhysAddrSize.ofIps (bitField w 32 3) = some config.ips
  rest : ∀ i, ¬ (i ≤ 5 ∨ 7 ≤ i ∧ i ≤ 15 ∨ i = 22 ∨ i = 23 ∨ 32 ≤ i ∧ i ≤ 34 ∨ i = 37) →
    ¬ (config.ttbr1.isSome ∧ (16 ≤ i ∧ i ≤ 31 ∨ i = 38)) → w.testBit i = false

private theorem TcrWord.unique {w : ℕ} {config config' : TcrConfig} (h : TcrWord w config)
    (h' : TcrWord w config') : config = config' := by
  obtain ⟨ttbr0, ttbr1, ips, asid⟩ := config
  obtain ⟨ttbr0', ttbr1', ips', asid'⟩ := config'
  have hlower := h.lower.unique h'.lower
  have hips := Option.some.inj (h.ips.symm.trans h'.ips)
  have hasid := toNat_inj (h.a1.symm.trans h'.a1)
  have hepd := toNat_inj (h.epd1.symm.trans h'.epd1)
  have hupper : ttbr1 = ttbr1' := by
    cases ttbr1 with
    | none =>
        cases ttbr1' with
        | none => rfl
        | some t' => cases hepd
    | some t =>
        cases ttbr1' with
        | none => cases hepd
        | some t' => rw [(h.upper t rfl).unique (h'.upper t' rfl)]
  simp only at hlower hips hasid
  rw [hlower, hips, hasid, hupper]

/-! ## The configuration packs the fields -/

namespace TcrConfig

private theorem toNat_lt (b : Bool) : b.toNat < 2 ^ 1 := b.toNat_lt

def halfFields (layout : HalfLayout) (t : TtbrConfig) (tg : ℕ) (htg : tg < 2 ^ 2) : List Field :=
  [⟨layout.tsz, 6, t.vaSize.tszBits, t.vaSize.tszBits_lt⟩,
    ⟨layout.irgn, 2, t.innerCache.bits, t.innerCache.bits_lt⟩,
    ⟨layout.orgn, 2, t.outerCache.bits, t.outerCache.bits_lt⟩,
    ⟨layout.sh, 2, t.shareability.bits, t.shareability.bits_lt⟩,
    ⟨layout.tg, 2, tg, htg⟩, ⟨layout.tbi, 1, t.tbi.toNat, toNat_lt t.tbi⟩]

def lowerFields (t : TtbrConfig) : List Field :=
  halfFields lowerHalf t t.granule.toTg0Bits t.granule.tg0Bits_lt

def upperFields (t : TtbrConfig) : List Field :=
  halfFields upperHalf t t.granule.toTg1Bits t.granule.tg1Bits_lt

private theorem halfWord_of_fields {w tg : ℕ} {layout : HalfLayout} {t : TtbrConfig}
    (htg : tg < 2 ^ 2)
    (hread : ∀ f ∈ halfFields layout t tg htg, bitField w f.lo f.width = f.value)
    (hgranule : layout.ofTg tg = some t.granule) : HalfWord w layout t := by
  simp only [halfFields, List.forall_mem_cons, List.not_mem_nil, false_implies, implies_true,
    and_true] at hread
  obtain ⟨htsz, hirgn, horgn, hsh, htg, htbi⟩ := hread
  constructor
  · exact htsz
  · rw [hirgn, Cacheability.ofRgn_bits]
  · rw [horgn, Cacheability.ofRgn_bits]
  · rw [hsh, Shareability.ofSh_bits]
  · rw [htg, hgranule]
  · exact htbi

/-- `EPD0` is never set; it and `EPD1` have fields so that they can be read back. -/
def fields (config : TcrConfig) : List Field :=
  lowerFields config.ttbr0 ++ (config.ttbr1.map upperFields).getD [] ++
    [⟨22, 1, config.asidFromTtbr1.toNat, toNat_lt _⟩, ⟨32, 3, config.ips.bits, config.ips.bits_lt⟩,
      ⟨7, 1, 0, by decide⟩, ⟨23, 1, config.ttbr1.isNone.toNat, toNat_lt _⟩]

private theorem lower_eq_pack (t : TtbrConfig) : ttbr0Bits t = pack (lowerFields t) := by
  simp only [ttbr0Bits, lowerFields, halfFields, lowerHalf, pack, Field.word,
    Nat.or_assoc, Nat.or_zero]

private theorem upper_eq_pack (t : TtbrConfig) : ttbr1Bits t = pack (upperFields t) := by
  simp only [ttbr1Bits, upperFields, halfFields, upperHalf, pack, Field.word,
    Nat.or_assoc, Nat.or_zero]

/-- The word is the disjunction of the fields, unless the assertion fails. -/
theorem build_eq (config : TcrConfig) : config.build =
    if config.ttbr1 = none ∧ config.asidFromTtbr1 = true then
      .error (.message "A1=1 requires TTBR1 enabled (ASID source can't be a disabled TTBR)")
    else .ok (pack config.fields) := by
  obtain ⟨ttbr0, ttbr1, ips, asid⟩ := config
  have hsome (t : TtbrConfig) : (⟨ttbr0, some t, ips, asid⟩ : TcrConfig).build =
      .ok (pack (⟨ttbr0, some t, ips, asid⟩ : TcrConfig).fields) := by
    change Except.ok (ttbr0Bits ttbr0 ||| ttbr1Bits t ||| _) = _
    rw [fields, pack_append, pack_append, ← lower_eq_pack]
    simp [commonBits, pack, Field.word, upper_eq_pack]
  have hnone : (⟨ttbr0, none, ips, false⟩ : TcrConfig).build =
      .ok (pack (⟨ttbr0, none, ips, false⟩ : TcrConfig).fields) := by
    change Except.ok (ttbr0Bits ttbr0 ||| epd1 ||| _) = _
    rw [fields, pack_append, pack_append, ← lower_eq_pack]
    simp only [commonBits, pack, Field.word, epd1, Bool.toNat_false,
      Nat.zero_shiftLeft, Nat.zero_or,
      Nat.or_zero, Option.map_none, Option.getD_none, Option.isNone_none, Bool.toNat_true,
      Nat.or_assoc, Nat.or_comm (1 <<< 23)]
  cases ttbr1 with
  | some t =>
      rw [hsome, if_neg (by simp)]
  | none =>
      cases asid with
      | true => rfl
      | false => rw [hnone, if_neg (by simp)]

private theorem fields_disjoint (config : TcrConfig) : config.fields.Pairwise Field.Disjoint := by
  obtain ⟨ttbr0, ttbr1, ips, asid⟩ := config
  cases ttbr1 <;>
    simp [fields, lowerFields, upperFields, halfFields, lowerHalf, upperHalf, Field.Disjoint]

private theorem tcrWord_of_pack (config : TcrConfig) : TcrWord (pack config.fields) config := by
  have hread (f : Field) (hf : f ∈ config.fields) := bitField_pack config.fields_disjoint hf
  constructor
  · apply halfWord_of_fields config.ttbr0.granule.tg0Bits_lt _ (Granule.ofTg0_bits _)
    intro f hf
    apply hread
    rw [fields, List.append_assoc]
    exact List.mem_append_left _ hf
  · exact hread ⟨7, 1, 0, by decide⟩ (by simp [fields])
  · intro t ht
    have hupper : (config.ttbr1.map upperFields).getD [] = upperFields t := by
      rw [ht]
      rfl
    apply halfWord_of_fields t.granule.tg1Bits_lt _ (Granule.ofTg1_bits _)
    intro f hf
    apply hread
    exact List.mem_append_left _ (List.mem_append_right _ (hupper ▸ hf))
  · exact hread ⟨23, 1, _, toNat_lt config.ttbr1.isNone⟩ (by simp [fields])
  · exact hread ⟨22, 1, _, toNat_lt config.asidFromTtbr1⟩ (by simp [fields])
  · rw [hread ⟨32, 3, _, config.ips.bits_lt⟩ (by simp [fields]), PhysAddrSize.ofIps_bits]
  · intro i hi hupper
    apply testBit_pack_of_not_covers
    obtain ⟨ttbr0, ttbr1, ips, asid⟩ := config
    cases ttbr1 with
    | none =>
        simp only [fields, lowerFields, halfFields, lowerHalf, Option.map_none, Option.getD_none,
          List.cons_append, List.nil_append, List.append_nil, List.forall_mem_cons,
            List.not_mem_nil,
          false_implies, implies_true, and_true, Field.Covers]
        omega
    | some t =>
        simp only [Option.isSome_some, true_and] at hupper
        simp only [fields, lowerFields, upperFields, halfFields, lowerHalf, upperHalf,
          Option.map_some,
          Option.getD_some, List.cons_append, List.nil_append, List.forall_mem_cons,
            List.not_mem_nil,
          false_implies, implies_true, and_true, Field.Covers]
        omega

/-- `build` panics where the address space identifier would come from a disabled half, and otherwise
makes a word that is the configuration, field by field; no two configurations share a word. -/
theorem build_lossless (config : TcrConfig) :
    (config.ttbr1 = none ∧ config.asidFromTtbr1 = true →
      ∃ text, config.build = .error (.message text)) ∧
      (¬ (config.ttbr1 = none ∧ config.asidFromTtbr1 = true) →
        ∃ w, config.build = .ok w ∧ TcrWord w config ∧
          ∀ config' : TcrConfig, config'.build = .ok w → config' = config) := by
  rw [build_eq]
  constructor
  · intro hpanic
    exact ⟨_, if_pos hpanic⟩
  · intro hok
    refine ⟨_, if_neg hok, config.tcrWord_of_pack, ?_⟩
    intro config' hbuild
    rw [build_eq] at hbuild
    split at hbuild
    · cases hbuild
    · have hword := config'.tcrWord_of_pack
      rw [Except.ok.inj hbuild] at hword
      exact hword.unique config.tcrWord_of_pack

/-- The word that `install` writes. -/
def install : Outcome ℕ := do
  let size ← VirtAddrSize.fromVaBits 48
  let half (tbi : Bool) : TtbrConfig :=
    ⟨size, .kb4, .writeBackReadWriteAlloc, .writeBackReadWriteAlloc, .innerShareable, tbi⟩
  build ⟨half true, some (half false), .bit48, true⟩

end TcrConfig

end Preon.Memory
