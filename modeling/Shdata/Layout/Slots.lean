/-
Shdata.Layout.Slots — where the slots of a section are, and what can be read
from them.

`SoundDesc` says that a data section fits: it starts after the section
header, its slots do not overlap and the last one ends below 2^64. Then
`shd_data_get_sample_ptr` is the affine map `slot`, slots are disjoint from
each other and from the header, and the views below (`writeIndex`,
`nbWrites`, `metadataOf`, `blobOf`) change with the bytes of their own range
only.
-/
import Shdata.Core.Api
import Shdata.Layout.Index

namespace Shdata.Layout

open Shdata.Bytes Shdata.Core Shdata.Ring

/-! ## Geometry -/

/-- Distance between the starts of two consecutive slots. -/
def stride (d : DataSectionDesc) : Int := sampleGetSize lp64 d.blobSize

/-- Address of a slot. -/
def slot (d : DataSectionDesc) (i : Int) : Int := d.dataSectionStart + i * stride d

/-- A data section that fits in the address space. -/
structure SoundDesc (d : DataSectionDesc) : Prop where
  start : 56 ≤ d.dataSectionStart
  blob : 0 ≤ d.blobSize
  size : RingSize d.nbSamples
  stride_ge : 40 + d.blobSize ≤ stride d
  fits : d.dataSectionStart + d.nbSamples * stride d < 18446744073709551616

/-- A context of the section that `d` describes. -/
structure CtxFor (d : DataSectionDesc) (ctx : ShdCtx) : Prop where
  desc : ctx.desc = d
  sync : ctx.sectMmap.syncTop = 40

section Geometry

variable {d : DataSectionDesc} {i j : Int}

theorem SoundDesc.stride_pos (hd : SoundDesc d) : 40 ≤ stride d := by
  have := hd.stride_ge
  have := hd.blob
  omega

theorem slot_mono (hd : SoundDesc d) (h : i ≤ j) : slot d i ≤ slot d j := by
  have := Int.mul_le_mul_of_nonneg_right h (by have := hd.stride_pos; omega : 0 ≤ stride d)
  unfold slot
  omega

theorem slot_succ (d : DataSectionDesc) (i : Int) : slot d (i + 1) = slot d i + stride d := by
  unfold slot
  ring

/-- A slot lies after the header and inside the address space. -/
theorem slot_bounds (hd : SoundDesc d) (hi : IsSlot d.nbSamples i) :
    56 ≤ slot d i ∧ slot d i + stride d < 18446744073709551616 := by
  have h0 : slot d 0 ≤ slot d i := slot_mono hd hi.nonneg
  have h1 : slot d (i + 1) ≤ slot d d.nbSamples := slot_mono hd (by have := hi.lt; omega)
  have hs : slot d 0 = d.dataSectionStart := by simp [slot]
  have hf := hd.fits
  have := hd.start
  rw [slot_succ] at h1
  rw [show slot d d.nbSamples = d.dataSectionStart + d.nbSamples * stride d from rfl] at h1
  omega

theorem slot_disjoint (hd : SoundDesc d) (h : i ≠ j) :
    slot d i + stride d ≤ slot d j ∨ slot d j + stride d ≤ slot d i := by
  rcases Int.lt_or_gt_of_ne h with hlt | hgt
  · exact Or.inl (by rw [← slot_succ]; exact slot_mono hd hlt)
  · exact Or.inr (by rw [← slot_succ]; exact slot_mono hd hgt)

theorem slot_inj (hd : SoundDesc d) (h : slot d i = slot d j) : i = j := by
  by_contra hne
  have := slot_disjoint hd hne
  have := hd.stride_pos
  omega

/-- `shd_data_get_sample_ptr` of an index of the ring. -/
theorem dataGetSamplePtr_eq (hd : SoundDesc d) (hi : IsSlot d.nbSamples i) :
    dataGetSamplePtr d i = slot d i := by
  have hb := slot_bounds hd hi
  have hsp := hd.stride_pos
  have hi' : toU64 i = i :=
    toU64_of_bounds hi.nonneg (by have := hi.lt; have := hd.size.small; omega)
  rw [dataGetSamplePtr, hi']
  exact toU64_of_bounds (by unfold slot stride at *; omega) (by unfold slot stride at *; omega)

/-- The pointer to the counter of a slot. -/
theorem nbWritesPtr_slot (hd : SoundDesc d) (hi : IsSlot d.nbSamples i) :
    nbWritesPtr (slot d i) = slot d i + 32 := by
  have hb := slot_bounds hd hi
  have hsp := hd.stride_pos
  exact toU64_of_bounds (x := slot d i + 32) (by omega) (by omega)

end Geometry

/-! ## Views -/

def nbCreations (m : Mem) : Int := m.i32 40

def writeIndex (m : Mem) : Int := m.i32 44

def nbOngoing (m : Mem) : Int := m.i32 48

/-- The counter of a slot. -/
def nbWrites (d : DataSectionDesc) (m : Mem) (i : Int) : Int := m.i32 (slot d i + 32)

/-- The metadata bytes of a slot. -/
def metadataOf (d : DataSectionDesc) (m : Mem) (i : Int) : List UInt8 := m.read (slot d i) 32

/-- The blob bytes of a slot. -/
def blobOf (d : DataSectionDesc) (m : Mem) (i : Int) : List UInt8 :=
  m.read (slot d i + 40) d.blobSize.toNat

end Shdata.Layout
