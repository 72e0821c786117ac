/-
Shdata.Layout.Header — the layout that a section header determines.

`FitsHdr` says that the section of a header has slots with `int` indices and
that its exact size, computed without wrap, is below 2^64. Then no `size_t`
computation of `shd_section.c` or `shd_data.c` wraps, and the layout is the
expected one: the blob metadata follows the 56 bytes of `struct shd_hdr`,
the data section follows the blob metadata.
-/
import Shdata.Layout.Slots

namespace Shdata.Layout

open Shdata.Bytes Shdata.Core Shdata.Ring

/-- The next multiple of 4. -/
def up4 (x : Int) : Int := (x + 3) / 4 * 4

/-- Fields of a header as numbers. -/
def hdrBlobSize (h : HdrUserInfo) : Int := h.blobSize.toNat

def hdrNbSamples (h : HdrUserInfo) : Int := h.maxNbSamples.toNat

def hdrMdataSize (h : HdrUserInfo) : Int := h.blobMetadataHdrSize.toNat

/-- The size of a section, as an exact sum. -/
def exactSize (h : HdrUserInfo) : Int :=
  56 + up4 (hdrMdataSize h) + hdrNbSamples h * up4 (40 + hdrBlobSize h)

structure FitsHdr (h : HdrUserInfo) : Prop where
  size : RingSize (hdrNbSamples h)
  fits : exactSize h < 18446744073709551616

/-- A header whose section can be mapped. It may be one without slots. -/
structure SafeHdr (h : HdrUserInfo) : Prop where
  small : hdrNbSamples h ≤ 2147483648
  fits : exactSize h < 18446744073709551616

/-- The data section of a header. -/
def descOf (h : HdrUserInfo) : DataSectionDesc where
  dataSectionStart := 56 + up4 (hdrMdataSize h)
  blobSize := hdrBlobSize h
  nbSamples := hdrNbSamples h

section Fits

variable {h : HdrUserInfo}

theorem le_up4 (x : Int) : x ≤ up4 x := by
  unfold up4; omega

theorem up4_nonneg {x : Int} (hx : 0 ≤ x) : 0 ≤ up4 x := by
  unfold up4; omega

theorem hdrBlobSize_nonneg (h : HdrUserInfo) : 0 ≤ hdrBlobSize h := Int.natCast_nonneg _

theorem hdrMdataSize_nonneg (h : HdrUserInfo) : 0 ≤ hdrMdataSize h := Int.natCast_nonneg _

theorem FitsHdr.safe (hf : FitsHdr h) : SafeHdr h := ⟨hf.size.small, hf.fits⟩

theorem SafeHdr.fitsHdr (hs : SafeHdr h) (hpos : 0 < hdrNbSamples h) : FitsHdr h :=
  ⟨⟨hpos, hs.small⟩, hs.fits⟩

/-- The blob metadata are part of the exact size. -/
theorem SafeHdr.mdata_lt (hs : SafeHdr h) : 56 + up4 (hdrMdataSize h) < 18446744073709551616 := by
  have hblob := up4_nonneg (x := 40 + hdrBlobSize h) (by have := hdrBlobSize_nonneg h; omega)
  have hslots : 0 ≤ hdrNbSamples h * up4 (40 + hdrBlobSize h) :=
    Int.mul_nonneg (Int.natCast_nonneg _) hblob
  have := hs.fits
  unfold exactSize at this
  omega

/-- One slot is part of the exact size. -/
theorem FitsHdr.slot_le (hf : FitsHdr h) :
    56 + up4 (hdrMdataSize h) + up4 (40 + hdrBlobSize h) < 18446744073709551616 := by
  have hs := up4_nonneg (x := 40 + hdrBlobSize h) (by have := hdrBlobSize_nonneg h; omega)
  have hmul : 1 * up4 (40 + hdrBlobSize h) ≤ hdrNbSamples h * up4 (40 + hdrBlobSize h) :=
    Int.mul_le_mul_of_nonneg_right (by have := hf.size.pos; omega) hs
  have := hf.fits
  unfold exactSize at this
  omega

/-- `ALIGN_UP` of a size whose aligned value is representable. -/
theorem alignUp_eq {x : Int} (h0 : 0 ≤ x) (h1 : up4 x < 18446744073709551616) :
    alignUp lp64 x = up4 x := by
  unfold up4 at *
  rw [alignUp, lp64_toSize, toU64_of_bounds (by omega) (by omega)]
  omega

theorem stride_descOf (hf : FitsHdr h) : stride (descOf h) = up4 (40 + hdrBlobSize h) := by
  have h0 := hdrBlobSize_nonneg h
  have hs := hf.slot_le
  have hm := up4_nonneg (hdrMdataSize_nonneg h)
  exact alignUp_eq (x := 40 + hdrBlobSize h) (by omega) (by omega)

/-- A header that fits describes a sound data section. -/
theorem soundDesc_of_fits (hf : FitsHdr h) : SoundDesc (descOf h) where
  start := by
    have := up4_nonneg (hdrMdataSize_nonneg h)
    show 56 ≤ 56 + up4 (hdrMdataSize h)
    omega
  blob := hdrBlobSize_nonneg h
  size := hf.size
  stride_ge := by
    rw [stride_descOf hf]
    exact le_up4 _
  fits := by
    rw [stride_descOf hf]
    exact hf.fits

/-- The total size of the data section does not wrap. -/
theorem dataGetTotalSize_eq (hf : FitsHdr h) :
    dataGetTotalSize lp64 (hdrBlobSize h) (hdrNbSamples h)
      = hdrNbSamples h * stride (descOf h) := by
  have hfits := (soundDesc_of_fits hf).fits
  have hstart := (soundDesc_of_fits hf).start
  have hst := (soundDesc_of_fits hf).stride_pos
  have h0 : 0 ≤ hdrNbSamples h * stride (descOf h) :=
    Int.mul_nonneg (by have := hf.size.pos; omega) (by omega)
  have hlt : hdrNbSamples h * stride (descOf h) < 18446744073709551616 := by
    change (descOf h).dataSectionStart + hdrNbSamples h * stride (descOf h) < _ at hfits
    omega
  calc dataGetTotalSize lp64 (hdrBlobSize h) (hdrNbSamples h)
      = toU64 (hdrNbSamples h * stride (descOf h)) := lp64_toSize _
    _ = hdrNbSamples h * stride (descOf h) := toU64_of_bounds h0 hlt

/-- The mapping that the offsets of a header give. -/
theorem getMmap_eq (hf : FitsHdr h) :
    getMmap (getOffsets lp64 h) =
      { sectionTop := 0
        headerTop := 16
        syncTop := 40
        metadataBlobTop := 56
        dataTop := 56 + up4 (hdrMdataSize h)
        totalSize := exactSize h } := by
  have hm := hdrMdataSize_nonneg h
  have hs := hf.slot_le
  have hb := up4_nonneg (x := 40 + hdrBlobSize h) (by have := hdrBlobSize_nonneg h; omega)
  have h56 : alignUp lp64 lp64.sizeofShdHdr = 56 := by
    rw [alignUp_eq (by decide) (by decide)]
    rfl
  have hle := le_up4 (hdrMdataSize h)
  have hmd : lp64.toSize (56 + hdrMdataSize h) = 56 + hdrMdataSize h := by
    rw [lp64_toSize, toU64_of_bounds (by omega) (by omega)]
  have hup : up4 (56 + hdrMdataSize h) = 56 + up4 (hdrMdataSize h) := by
    unfold up4; omega
  have hdata : alignUp lp64 (56 + hdrMdataSize h) = 56 + up4 (hdrMdataSize h) := by
    rw [alignUp_eq (by omega) (by omega), hup]
  have htot : lp64.toSize (56 + up4 (hdrMdataSize h) +
      hdrNbSamples h * up4 (40 + hdrBlobSize h)) = exactSize h := by
    have hmul : 0 ≤ hdrNbSamples h * up4 (40 + hdrBlobSize h) :=
      Int.mul_nonneg (by have := hf.size.pos; omega) hb
    have := hf.fits
    rw [lp64_toSize]
    exact toU64_of_bounds (by have := up4_nonneg hm; omega) this
  have hsize := dataGetTotalSize_eq hf
  rw [stride_descOf hf] at hsize
  simp only [getMmap, getOffsets, h56]
  rw [show ((h.blobMetadataHdrSize.toNat : Nat) : Int) = hdrMdataSize h from rfl, hmd, hdata,
    show ((h.blobSize.toNat : Nat) : Int) = hdrBlobSize h from rfl,
    show ((h.maxNbSamples.toNat : Nat) : Int) = hdrNbSamples h from rfl, hsize, htot]
  rfl

/-- Where the data section of a header starts. -/
theorem dataTop_eq (hs : SafeHdr h) :
    (getMmap (getOffsets lp64 h)).dataTop = 56 + up4 (hdrMdataSize h) := by
  have hm := hdrMdataSize_nonneg h
  have hlt := hs.mdata_lt
  have hle := le_up4 (hdrMdataSize h)
  have hup : up4 (56 + hdrMdataSize h) = 56 + up4 (hdrMdataSize h) := by
    unfold up4; omega
  have h56 : alignUp lp64 lp64.sizeofShdHdr = 56 := by
    rw [alignUp_eq (by decide) (by decide)]
    rfl
  simp only [getMmap, getOffsets, h56]
  rw [show ((h.blobMetadataHdrSize.toNat : Nat) : Int) = hdrMdataSize h from rfl, lp64_toSize,
    toU64_of_bounds (by omega) (by omega), alignUp_eq (by omega) (by omega), hup]

/-- The description that a creation makes of its own header. -/
theorem desc_of_safe (hs : SafeHdr h) :
    (⟨(getMmap (getOffsets lp64 h)).dataTop, hdrBlobSize h, hdrNbSamples h⟩ : DataSectionDesc)
      = descOf h := by
  rw [dataTop_eq hs]
  rfl

/-- The size that a creation asks for covers the section header. -/
theorem sectionGetTotalSize_ge (hs : SafeHdr h) : 56 ≤ sectionGetTotalSize lp64 h := by
  have hm := hdrMdataSize_nonneg h
  have hlt := hs.mdata_lt
  have hup0 := up4_nonneg hm
  have h56 : alignUp lp64 lp64.sizeofShdHdr = 56 := by
    rw [alignUp_eq (by decide) (by decide)]
    rfl
  have hmd : alignUp lp64 (hdrMdataSize h) = up4 (hdrMdataSize h) := alignUp_eq hm (by omega)
  obtain ⟨n, hn, h0, h1⟩ : ∃ n, dataGetTotalSize lp64 (hdrBlobSize h) (hdrNbSamples h) = n ∧
      0 ≤ n ∧ 56 + up4 (hdrMdataSize h) + n < 18446744073709551616 := by
    by_cases hpos : 0 < hdrNbSamples h
    · have hf := hs.fitsHdr hpos
      have hfits := hs.fits
      have hs0 := (soundDesc_of_fits hf).stride_pos
      refine ⟨_, dataGetTotalSize_eq hf, Int.mul_nonneg (by omega) (by omega), ?_⟩
      rw [stride_descOf hf]
      exact hfits
    · have hzero : hdrNbSamples h = 0 := by
        have : 0 ≤ hdrNbSamples h := Int.natCast_nonneg _
        omega
      refine ⟨0, ?_, le_refl 0, by omega⟩
      rw [hzero, dataGetTotalSize, Int.zero_mul, lp64_toSize]
      exact toU64_of_bounds (le_refl 0) (by omega)
  show 56 ≤ lp64.toSize (alignUp lp64 lp64.sizeofShdHdr + alignUp lp64 (hdrMdataSize h)
    + dataGetTotalSize lp64 (hdrBlobSize h) (hdrNbSamples h))
  rw [h56, hmd, hn, lp64_toSize, toU64_of_bounds (by omega) h1]
  omega

/-- It is a multiple of 4 even if it wraps. -/
theorem sectionGetTotalSize_dvd (h : HdrUserInfo) : 4 ∣ sectionGetTotalSize lp64 h := by
  have hup : ∀ x, 4 ∣ alignUp lp64 x := fun x => by
    unfold alignUp
    omega
  have hto : ∀ x : Int, 4 ∣ x → 4 ∣ lp64.toSize x := fun x hx => by
    rw [lp64_toSize, toU64]
    omega
  have hdata : 4 ∣ dataGetTotalSize lp64 (hdrBlobSize h) (hdrNbSamples h) :=
    hto _ (Int.dvd_mul_of_dvd_right (hup _))
  exact hto _ (Int.dvd_add (Int.dvd_add (hup _) (hup _)) hdata)

end Fits

end Shdata.Layout
