import BitchKernel.Def
import Mathlib.Tactic.IntervalCases

/-!
# Segment descriptors

`set_segment_descriptor` of `arch/x86/descriptor.c`, and the fields that the processor reads
from a descriptor: the base in three pieces, and the limit in its low two bytes and in the bits
8 to 11 of the attribute word. The function copies these bits from the bits 8 to 11 of the
limit, where the layout wants its bits 16 to 19.
-/

namespace BitchKernel

/-- `_segment_descriptor_t`. -/
structure SegmentDescriptor where
  limit1 : BitVec 16
  baseAddr1 : BitVec 16
  baseAddr2 : BitVec 8
  segmAttribute : BitVec 16
  baseAddr3 : BitVec 8
deriving DecidableEq

def setSegmentDescriptor (baseAttr limit : BitVec 32) (segmAttribute : BitVec 16) :
    SegmentDescriptor where
  baseAddr1 := (baseAttr &&& 0xffff).setWidth 16
  baseAddr2 := ((baseAttr >>> 16) &&& 0xff).setWidth 8
  baseAddr3 := ((baseAttr >>> 24) &&& 0xff).setWidth 8
  limit1 := (limit &&& 0xffff).setWidth 16
  segmAttribute := ((segmAttribute.setWidth 32 &&& 0xf0ff) ||| (limit &&& 0x0f00)).setWidth 16

namespace SegmentDescriptor

/-! ## The layout of the processor -/

def base (d : SegmentDescriptor) : BitVec 32 := d.baseAddr3 ++ d.baseAddr2 ++ d.baseAddr1

def limit (d : SegmentDescriptor) : BitVec 20 := d.segmAttribute.extractLsb' 8 4 ++ d.limit1

/-- The attribute word without the bits of the limit. -/
def attr (d : SegmentDescriptor) : BitVec 16 := d.segmAttribute &&& 0xf0ff

def Encodes (d : SegmentDescriptor) (baseAttr : BitVec 32) (limit : BitVec 20)
    (segmAttribute : BitVec 16) : Prop :=
  d.base = baseAttr ∧ d.limit = limit ∧ d.attr = segmAttribute

end SegmentDescriptor

section Fields

variable (baseAttr : BitVec 32) (segmAttribute : BitVec 16)

theorem setWidth_low (x : BitVec 32) : (x &&& 0xffff).setWidth 16 = x.setWidth 16 := by
  rw [BitVec.setWidth_and]
  exact BitVec.and_allOnes

theorem setWidth_byte (x : BitVec 32) : (x &&& 0xff).setWidth 8 = x.setWidth 8 := by
  rw [BitVec.setWidth_and]
  exact BitVec.and_allOnes

theorem setSegmentDescriptor_base (limit : BitVec 32) :
    (setSegmentDescriptor baseAttr limit segmAttribute).base = baseAttr := by
  unfold setSegmentDescriptor SegmentDescriptor.base
  dsimp only
  rw [setWidth_low, setWidth_byte, setWidth_byte]
  apply BitVec.eq_of_getLsbD_eq
  intro i hi
  rw [BitVec.getLsbD_append, BitVec.getLsbD_append]
  simp only [BitVec.getLsbD_setWidth, BitVec.getLsbD_ushiftRight]
  by_cases h₁ : i < 16
  · simp [h₁]
  by_cases h₂ : i - 16 < 8
  · have heq : 16 + (i - 16) = i := by omega
    simp [h₁, h₂, heq]
  · have heq : 24 + (i - 16 - 8) = i := by omega
    have h₃ : i - 16 - 8 < 8 := by omega
    simp [h₁, h₂, h₃, heq]

theorem setSegmentDescriptor_attr (limit : BitVec 32) :
    (setSegmentDescriptor baseAttr limit segmAttribute).attr = segmAttribute &&& 0xf0ff := by
  unfold setSegmentDescriptor SegmentDescriptor.attr
  ext i hi
  interval_cases i <;> simp

theorem setSegmentDescriptor_limitLow (limit : BitVec 20) :
    (setSegmentDescriptor baseAttr (limit.setWidth 32) segmAttribute).limit1 =
      limit.extractLsb' 0 16 := by
  unfold setSegmentDescriptor
  dsimp only
  rw [setWidth_low]
  ext i hi
  interval_cases i <;> simp

theorem setSegmentDescriptor_limitHigh (limit : BitVec 20) :
    (setSegmentDescriptor baseAttr (limit.setWidth 32) segmAttribute).segmAttribute.extractLsb' 8 4 =
      limit.extractLsb' 8 4 := by
  unfold setSegmentDescriptor
  ext i hi
  interval_cases i <;> simp

theorem setSegmentDescriptor_low (limit : BitVec 20) :
    setSegmentDescriptor baseAttr (limit.setWidth 32) segmAttribute =
      setSegmentDescriptor baseAttr ((limit.extractLsb' 0 16).setWidth 32) segmAttribute := by
  unfold setSegmentDescriptor
  rw [SegmentDescriptor.mk.injEq]
  refine ⟨?_, rfl, rfl, ?_, rfl⟩
  · ext i hi
    interval_cases i <;> simp
  · ext i hi
    interval_cases i <;> simp

theorem setSegmentDescriptor_limit (limit : BitVec 20) :
    (setSegmentDescriptor baseAttr (limit.setWidth 32) segmAttribute).limit =
      limit.extractLsb' 8 4 ++ limit.extractLsb' 0 16 := by
  unfold SegmentDescriptor.limit
  rw [setSegmentDescriptor_limitLow, setSegmentDescriptor_limitHigh]

end Fields

theorem limit_split (limit : BitVec 20) :
    limit.extractLsb' 16 4 ++ limit.extractLsb' 0 16 = limit :=
  @BitVec.extractLsb'_append_extractLsb' 4 16 limit

theorem attr_mask_of_clear {segmAttribute : BitVec 16} (hclear : segmAttribute &&& 0x0f00 = 0) :
    segmAttribute &&& 0xf0ff = segmAttribute := by
  have hsplit : segmAttribute &&& 0xf0ff ||| segmAttribute &&& 0x0f00 = segmAttribute := by
    ext i hi
    interval_cases i <;> simp
  rw [hclear] at hsplit
  simpa using hsplit

/-- With the bits of the limit clear, the descriptor says what it was built from exactly when
the limit repeats. -/
theorem encodes_iff (baseAttr : BitVec 32) (limit : BitVec 20) {segmAttribute : BitVec 16}
    (hclear : segmAttribute &&& 0x0f00 = 0) :
    (setSegmentDescriptor baseAttr (limit.setWidth 32) segmAttribute).Encodes
      baseAttr limit segmAttribute ↔ limit.extractLsb' 16 4 = limit.extractLsb' 8 4 := by
  unfold SegmentDescriptor.Encodes
  rw [setSegmentDescriptor_base, setSegmentDescriptor_attr, setSegmentDescriptor_limit,
    attr_mask_of_clear hclear]
  constructor
  case mp =>
      rintro ⟨-, hlimit, -⟩
      have hsame : limit.extractLsb' 8 4 ++ limit.extractLsb' 0 16 =
          limit.extractLsb' 16 4 ++ limit.extractLsb' 0 16 := by
        rw [hlimit, limit_split]
      exact ((BitVec.append_left_inj _).1 hsame).symm
  case mpr =>
      intro hrepeat
      refine ⟨rfl, ?_, rfl⟩
      rw [← hrepeat, limit_split]

/-- Two descriptors are the same exactly when base, attributes and the low 16 bits of the limit
are. -/
theorem setSegmentDescriptor_inj {baseAttr baseAttr' : BitVec 32} {limit limit' : BitVec 20}
    {segmAttribute segmAttribute' : BitVec 16} (hclear : segmAttribute &&& 0x0f00 = 0)
    (hclear' : segmAttribute' &&& 0x0f00 = 0) :
    setSegmentDescriptor baseAttr (limit.setWidth 32) segmAttribute =
        setSegmentDescriptor baseAttr' (limit'.setWidth 32) segmAttribute' ↔
      baseAttr = baseAttr' ∧ limit.extractLsb' 0 16 = limit'.extractLsb' 0 16 ∧
        segmAttribute = segmAttribute' := by
  constructor
  case mp =>
      intro hsame
      have hbase := congrArg SegmentDescriptor.base hsame
      have hlow := congrArg SegmentDescriptor.limit1 hsame
      have hattr := congrArg SegmentDescriptor.attr hsame
      rw [setSegmentDescriptor_base, setSegmentDescriptor_base] at hbase
      rw [setSegmentDescriptor_limitLow, setSegmentDescriptor_limitLow] at hlow
      rw [setSegmentDescriptor_attr, setSegmentDescriptor_attr, attr_mask_of_clear hclear,
        attr_mask_of_clear hclear'] at hattr
      exact ⟨hbase, hlow, hattr⟩
  case mpr =>
      rintro ⟨rfl, hlow, rfl⟩
      rw [setSegmentDescriptor_low, hlow, ← setSegmentDescriptor_low]

/-! ## The descriptors of the kernel -/

/-- The limit of a segment that starts at `base` and ends with the address space, in pages. -/
def limitFrom (base : BitVec 64) : BitVec 32 := ((0x100000000 - base - 1) >>> 12).setWidth 32

/-- `gdt_list` behind `gdt_init`, with the address of `globl_tss`. -/
def gdtInit (globlTss : BitVec 32) : List SegmentDescriptor :=
  [setSegmentDescriptor 0 0 0,
    setSegmentDescriptor 0xc0000000 (limitFrom 0xc0000000) 0xc09a,
    setSegmentDescriptor 0xc0000000 (limitFrom 0xc0000000) 0xc092,
    setSegmentDescriptor 0 (limitFrom 0) 0xc0fa,
    setSegmentDescriptor 0 (limitFrom 0) 0xc0f2,
    setSegmentDescriptor (globlTss + 0xc0000000) 104 0xe9]

/-- Descriptors give back what they were built from exactly when the limit repeats its bits 8 to
11 in the bits 16 to 19, and two of them are the same exactly when nothing but these bits of the
limits differs. -/
theorem setSegmentDescriptor_round_trip (baseAttr baseAttr' : BitVec 32) (limit limit' : BitVec 20)
    {segmAttribute segmAttribute' : BitVec 16} (hclear : segmAttribute &&& 0x0f00 = 0)
    (hclear' : segmAttribute' &&& 0x0f00 = 0) :
    ((setSegmentDescriptor baseAttr (limit.setWidth 32) segmAttribute).Encodes
        baseAttr limit segmAttribute ↔
      limit.extractLsb' 16 4 = limit.extractLsb' 8 4) ∧
    (setSegmentDescriptor baseAttr (limit.setWidth 32) segmAttribute =
        setSegmentDescriptor baseAttr' (limit'.setWidth 32) segmAttribute' ↔
      baseAttr = baseAttr' ∧ limit.extractLsb' 0 16 = limit'.extractLsb' 0 16 ∧
        segmAttribute = segmAttribute') ∧
    (limit.extractLsb' 16 4 = limit.extractLsb' 8 4 →
      limit'.extractLsb' 16 4 = limit'.extractLsb' 8 4 →
      setSegmentDescriptor baseAttr (limit.setWidth 32) segmAttribute =
        setSegmentDescriptor baseAttr' (limit'.setWidth 32) segmAttribute' →
      baseAttr = baseAttr' ∧ limit = limit' ∧ segmAttribute = segmAttribute') := by
  refine ⟨encodes_iff baseAttr limit hclear, setSegmentDescriptor_inj hclear hclear', ?_⟩
  intro hrep hrep' hsame
  obtain ⟨hbase, -, hattr⟩ := (setSegmentDescriptor_inj hclear hclear').1 hsame
  have hkept := (encodes_iff baseAttr limit hclear).2 hrep
  have hkept' := (encodes_iff baseAttr' limit' hclear').2 hrep'
  refine ⟨hbase, ?_, hattr⟩
  calc limit = _ := hkept.2.1.symm
    _ = _ := by rw [hsame]
    _ = limit' := hkept'.2.1

theorem setSegmentDescriptor_round_trip_user_code :
    (setSegmentDescriptor 0 ((0xfffff : BitVec 20).setWidth 32) 0xc0fa).Encodes 0 0xfffff 0xc0fa :=
  (setSegmentDescriptor_round_trip 0 0 0xfffff 0xfffff (by decide) (by decide : (0xc0fa : BitVec 16) &&& 0x0f00 = 0)).1.2
    (by decide)

/-- The kernel code segment is built with the limit `0x3ffff` and read back with another one. -/
theorem setSegmentDescriptor_kernel_code :
    ¬ ∀ (baseAttr : BitVec 32) (limit : BitVec 20) (segmAttribute : BitVec 16),
      segmAttribute &&& 0x0f00 = 0 →
        (setSegmentDescriptor baseAttr (limit.setWidth 32) segmAttribute).Encodes
          baseAttr limit segmAttribute := by
  intro hall
  have hlimit := (hall 0xc0000000 0x3ffff 0xc09a (by decide)).2.1
  exact absurd hlimit (by decide)

end BitchKernel
