/-
Shdata.Layout.Sound — when the parts of a section keep apart.

A creation asks the backend for `sectionGetTotalSize` bytes and maps the
offsets of its own header. The parts of the section are then the 56 bytes of
`struct shd_hdr`, the blob metadata and the slots, at the addresses that
`shd_data_get_sample_ptr` computes. No size is checked on the way, and every sum
and product is modulo 2^64, so the parts may overlap or stick out.

`soundOf_iff` gives the exact condition: the size of the section, as a sum
of integers, is below 2^64, and slot indices are `int` values. There is one
exception to the second part. An index from 2^31 on becomes negative, which
moves the slot by 2^32 strides, and that is no move at all if the stride is
2^32.
-/
import Shdata.Layout.Header
import Shdata.Conc.Trace
import Shdata.Solo.Create

namespace Shdata.Layout

open Shdata.Conc Shdata.Bytes Shdata.Core Shdata.Ring Shdata.Solo

/-! ## Regions -/

/-- A range of bytes of a section. -/
structure Region where
  start : Int
  size : Int

/-- The region lies in the first `total` bytes. -/
def Region.Inside (total : Int) (r : Region) : Prop := 0 ≤ r.start ∧ r.start + r.size ≤ total

/-- Two regions share no byte. -/
def Region.Apart (r s : Region) : Prop :=
  r.size ≤ 0 ∨ s.size ≤ 0 ∨ r.start + r.size ≤ s.start ∨ s.start + s.size ≤ r.start

def headerRegion (map : SectionMap) : Region := ⟨map.sectionTop, lp64.sizeofShdHdr⟩

def mdataRegion (map : SectionMap) (h : HdrUserInfo) : Region := ⟨map.metadataBlobTop, hdrMdataSize h⟩

/-- The slot of an index, which converts to `int` for `shd_data_get_sample_ptr`. -/
def slotRegion (desc : DataSectionDesc) (i : Int) : Region :=
  ⟨dataGetSamplePtr desc (toI32 i), lp64.offsetofBlob + desc.blobSize⟩

/-- A layout whose parts lie in the section and share no byte. -/
structure SoundLayout (total : Int) (h : HdrUserInfo) (map : SectionMap) (desc : DataSectionDesc) :
    Prop where
  headerInside : (headerRegion map).Inside total
  mdataInside : (mdataRegion map h).Inside total
  slotInside : ∀ i, 0 ≤ i → i < desc.nbSamples → (slotRegion desc i).Inside total
  headerMdata : (headerRegion map).Apart (mdataRegion map h)
  headerSlot : ∀ i, 0 ≤ i → i < desc.nbSamples → (headerRegion map).Apart (slotRegion desc i)
  mdataSlot : ∀ i, 0 ≤ i → i < desc.nbSamples → (mdataRegion map h).Apart (slotRegion desc i)
  slots : ∀ i j, 0 ≤ i → i < desc.nbSamples → 0 ≤ j → j < desc.nbSamples → i ≠ j →
    (slotRegion desc i).Apart (slotRegion desc j)
  aligned : ∀ i, 0 ≤ i → i < desc.nbSamples → 4 ∣ (slotRegion desc i).start

/-! ## Arithmetic -/

theorem alignUp_dvd (x : Int) : 4 ∣ alignUp lp64 x := by
  unfold alignUp
  omega

/-- `ALIGN_UP` is the next multiple of 4, modulo 2^64. -/
theorem alignUp_toU64 (x : Int) : alignUp lp64 x = toU64 (up4 x) := by
  unfold alignUp up4
  rw [lp64_toSize, toU64, toU64]
  omega

theorem toU64_lt (x : Int) : toU64 x < 18446744073709551616 := by
  unfold toU64
  omega

theorem toU64_dvd {x : Int} (h : 4 ∣ x) : 4 ∣ toU64 x := by
  unfold toU64
  omega

theorem toU64_add_toU64 (x y : Int) : toU64 (x + toU64 y) = toU64 (x + y) := by
  unfold toU64
  omega

theorem toU64_toU64_mul (x y : Int) : toU64 (toU64 x * y) = toU64 (x * y) := by
  unfold toU64
  rw [Int.mul_emod, Int.emod_emod_of_dvd _ (dvd_refl _), ← Int.mul_emod]

/-- A multiple of 4 in an interval up to one. -/
theorem up4_le {x y : Int} (h : x ≤ y) (hy : 4 ∣ y) : up4 x ≤ y := by
  unfold up4
  omega

/-- The data section that a header maps. -/
def mappedDesc (h : HdrUserInfo) : DataSectionDesc :=
  ⟨(getMmap (getOffsets lp64 h)).dataTop, hdrBlobSize h, hdrNbSamples h⟩

section Layout

variable {h : HdrUserInfo}

/-- The stride of the slots, as the code computes it. -/
def mappedStride (h : HdrUserInfo) : Int := sampleGetSize lp64 (hdrBlobSize h)

theorem mappedStride_eq (h : HdrUserInfo) : mappedStride h = toU64 (up4 (40 + hdrBlobSize h)) :=
  alignUp_toU64 _

theorem mappedStride_dvd (h : HdrUserInfo) : 4 ∣ mappedStride h := alignUp_dvd _

/-- The data section starts after the metadata, modulo 2^64. -/
theorem dataTop_toU64 (h : HdrUserInfo) :
    (mappedDesc h).dataSectionStart = toU64 (56 + up4 (hdrMdataSize h)) := by
  have h56 : alignUp lp64 lp64.sizeofShdHdr = 56 := by
    rw [alignUp_eq (by decide) (by decide)]
    rfl
  have hup : up4 (toU64 (56 + hdrMdataSize h)) = up4 (56 + hdrMdataSize h) -
      (56 + hdrMdataSize h) / 18446744073709551616 * 18446744073709551616 := by
    unfold up4 toU64
    omega
  simp only [mappedDesc, getMmap, getOffsets, h56]
  rw [show ((h.blobMetadataHdrSize.toNat : Nat) : Int) = hdrMdataSize h from rfl, alignUp_toU64,
    lp64_toSize, hup]
  unfold toU64 up4
  omega

/-- The requested size is the exact one, modulo 2^64. -/
theorem sectionGetTotalSize_toU64 (h : HdrUserInfo) :
    sectionGetTotalSize lp64 h
      = toU64 (56 + up4 (hdrMdataSize h) + hdrNbSamples h * mappedStride h) := by
  have h56 : alignUp lp64 lp64.sizeofShdHdr = 56 := by
    rw [alignUp_eq (by decide) (by decide)]
    rfl
  have hdata : dataGetTotalSize lp64 (hdrBlobSize h) (hdrNbSamples h)
      = toU64 (hdrNbSamples h * mappedStride h) := lp64_toSize _
  change lp64.toSize (alignUp lp64 lp64.sizeofShdHdr + alignUp lp64 (hdrMdataSize h)
    + dataGetTotalSize lp64 (hdrBlobSize h) (hdrNbSamples h)) = _
  rw [h56, alignUp_toU64, hdata, lp64_toSize, toU64_add_toU64, Int.add_right_comm, toU64_add_toU64]
  congr 1
  omega

/-- Where slot `i` is. -/
theorem slotRegion_start (h : HdrUserInfo) (i : Int) :
    (slotRegion (mappedDesc h) i).start
      = toU64 (56 + up4 (hdrMdataSize h) + toI32 i * mappedStride h) := by
  change toU64 ((mappedDesc h).dataSectionStart + toU64 (toI32 i) * mappedStride h) = _
  rw [dataTop_toU64, Int.add_comm, toU64_add_toU64, Int.add_comm, ← toU64_add_toU64, toU64_toU64_mul,
    toU64_add_toU64]

theorem slotRegion_dvd (h : HdrUserInfo) (i : Int) : 4 ∣ (slotRegion (mappedDesc h) i).start := by
  rw [slotRegion_start]
  have hmul : 4 ∣ toI32 i * mappedStride h := Int.dvd_mul_of_dvd_right (mappedStride_dvd h)
  refine toU64_dvd (Int.dvd_add ?_ hmul)
  unfold up4
  omega

/-- The size of the section, as a sum of integers. -/
theorem exactSize_eq (h : HdrUserInfo) :
    exactSize h = 56 + up4 (hdrMdataSize h) + hdrNbSamples h * up4 (40 + hdrBlobSize h) := rfl

theorem mdataEnd_dvd (h : HdrUserInfo) : 4 ∣ 56 + up4 (hdrMdataSize h) := by
  unfold up4
  omega

/-! ## What a sound layout implies -/

section Necessary

/-- The layout of the header `h`, in a section of the size that was asked for. -/
abbrev SoundOf (h : HdrUserInfo) : Prop :=
  SoundLayout (sectionGetTotalSize lp64 h) h (getMmap (getOffsets lp64 h)) (mappedDesc h)

variable (hs : SoundOf h)

include hs

/-- The blob metadata end before 2^64. -/
theorem SoundOf.mdataEnd_lt (hN : 0 < hdrNbSamples h) :
    56 + up4 (hdrMdataSize h) < 18446744073709551616 := by
  have hblob := hdrBlobSize_nonneg h
  have hlt : sectionGetTotalSize lp64 h < 18446744073709551616 := by
    rw [sectionGetTotalSize_toU64]
    exact toU64_lt _
  have hmd : 56 + hdrMdataSize h ≤ sectionGetTotalSize lp64 h := hs.mdataInside.2
  have hin : 0 ≤ (slotRegion (mappedDesc h) 0).start := (hs.slotInside 0 (le_refl 0) hN).1
  have happart : (56 : Int) ≤ 0 ∨ 40 + hdrBlobSize h ≤ 0 ∨
      0 + 56 ≤ (slotRegion (mappedDesc h) 0).start ∨
      (slotRegion (mappedDesc h) 0).start + (40 + hdrBlobSize h) ≤ 0 := hs.headerSlot 0 (le_refl 0) hN
  have hstart := slotRegion_start h 0
  rw [toI32_of_bounds (le_refl 0) (by omega), Int.zero_mul, Int.add_zero] at hstart
  have hdvd := mdataEnd_dvd h
  by_contra hge
  -- rounding reached 2^64, and slot 0 is on the header
  have hzero : 56 + up4 (hdrMdataSize h) = 18446744073709551616 := by
    unfold up4 at hdvd hge ⊢
    omega
  rw [hzero, toU64, Int.emod_self] at hstart
  omega

theorem SoundOf.slot_le {n : Nat} (hn : (n : Int) < hdrNbSamples h) (hn31 : (n : Int) < 2147483648)
    (hlt : 56 + up4 (hdrMdataSize h) + n * mappedStride h < 18446744073709551616) :
    56 + up4 (hdrMdataSize h) + n * mappedStride h + up4 (40 + hdrBlobSize h)
      ≤ sectionGetTotalSize lp64 h := by
  have h0 := up4_nonneg (hdrMdataSize_nonneg h)
  have hS : 0 ≤ n * mappedStride h :=
    Int.mul_nonneg (Int.natCast_nonneg n) (by rw [mappedStride_eq]; exact toU64_nonneg _)
  have hin : (slotRegion (mappedDesc h) n).start + (40 + hdrBlobSize h) ≤ sectionGetTotalSize lp64 h :=
    (hs.slotInside n (Int.natCast_nonneg n) hn).2
  rw [slotRegion_start, toI32_of_bounds (Int.natCast_nonneg n) hn31,
    toU64_of_bounds (by omega) hlt] at hin
  have hdvd : 4 ∣ sectionGetTotalSize lp64 h - (56 + up4 (hdrMdataSize h) + n * mappedStride h) :=
    Int.dvd_sub (sectionGetTotalSize_dvd h)
      (Int.dvd_add (mdataEnd_dvd h) (Int.dvd_mul_of_dvd_right (mappedStride_dvd h)))
  have := up4_le (x := 40 + hdrBlobSize h) (by omega) hdvd
  omega

/-- The stride did not wrap. -/
theorem SoundOf.stride_eq (hN : 0 < hdrNbSamples h) :
    mappedStride h = up4 (40 + hdrBlobSize h) := by
  have hlt := hs.mdataEnd_lt hN
  have h0 := up4_nonneg (hdrMdataSize_nonneg h)
  have hb := up4_nonneg (x := 40 + hdrBlobSize h) (by have := hdrBlobSize_nonneg h; omega)
  have htot : sectionGetTotalSize lp64 h < 18446744073709551616 := by
    rw [sectionGetTotalSize_toU64]
    exact toU64_lt _
  have hslot := hs.slot_le (n := 0) hN (by omega) (by simpa using hlt)
  rw [Nat.cast_zero, Int.zero_mul, Int.add_zero] at hslot
  rw [mappedStride_eq, toU64_of_bounds hb (by omega)]

/-- The slots whose index is an `int` follow each other. -/
theorem SoundOf.tiles (n : Nat) (hn : (n : Int) < hdrNbSamples h) (hn31 : (n : Int) < 2147483648) :
    56 + up4 (hdrMdataSize h) + (n + 1) * mappedStride h ≤ sectionGetTotalSize lp64 h := by
  have hN : 0 < hdrNbSamples h := by omega
  have htot : sectionGetTotalSize lp64 h < 18446744073709551616 := by
    rw [sectionGetTotalSize_toU64]
    exact toU64_lt _
  have hstride := hs.stride_eq hN
  have hsucc : ((n : Int) + 1) * mappedStride h = n * mappedStride h + mappedStride h := by ring
  rw [hsucc]
  induction n with
  | zero =>
    have hslot := hs.slot_le (n := 0) hN (by omega) (by simpa using hs.mdataEnd_lt hN)
    rw [← hstride] at hslot
    omega
  | succ n ih =>
    have hprev := ih (by omega) (by omega) (by ring)
    have hcast : ((n + 1 : Nat) : Int) * mappedStride h = n * mappedStride h + mappedStride h := by
      push_cast
      ring
    have hslot := hs.slot_le (n := n + 1) hn hn31 (by rw [hcast]; omega)
    rw [← hstride] at hslot
    omega

/-- With more than 2^31 slots the size does not wrap either. -/
theorem SoundOf.size_lt (hN : 2147483648 < hdrNbSamples h) :
    56 + up4 (hdrMdataSize h) + hdrNbSamples h * mappedStride h < 18446744073709551616 := by
  have htiles := hs.tiles 2147483647 (by omega) (by omega)
  have htot := sectionGetTotalSize_toU64 h
  have hlt : sectionGetTotalSize lp64 h < 18446744073709551616 := by
    rw [htot]
    exact toU64_lt _
  have h0 := up4_nonneg (hdrMdataSize_nonneg h)
  have hS : 0 ≤ mappedStride h := by rw [mappedStride_eq]; exact toU64_nonneg _
  have hN32 : hdrNbSamples h < 4294967296 := by
    have := h.maxNbSamples.toNat_lt
    unfold hdrNbSamples
    omega
  have hsplit : hdrNbSamples h * mappedStride h
      = 2147483648 * mappedStride h + (hdrNbSamples h - 2147483648) * mappedStride h := by ring
  have hrest : (hdrNbSamples h - 2147483648) * mappedStride h ≤ 2147483648 * mappedStride h :=
    Int.mul_le_mul_of_nonneg_right (by omega) hS
  have hrest0 : 0 ≤ (hdrNbSamples h - 2147483648) * mappedStride h :=
    Int.mul_nonneg (by omega) hS
  have hcast : (((2147483647 : Nat) : Int) + 1) * mappedStride h = 2147483648 * mappedStride h := by
    norm_num
  rw [hcast] at htiles
  by_contra hge
  -- the slots of the first half are inside a size that lost 2^64
  have hwrap : sectionGetTotalSize lp64 h
      = 56 + up4 (hdrMdataSize h) + hdrNbSamples h * mappedStride h - 18446744073709551616 := by
    rw [htot]
    unfold toU64
    omega
  omega

/-- The last slot is 2^32 strides before its place: that is outside the section or on
its header, unless the stride is at least 2^32. -/
theorem SoundOf.stride_ge (hN : 2147483648 < hdrNbSamples h) : 4294967296 ≤ mappedStride h := by
  have hsize := hs.size_lt hN
  have hstride := hs.stride_eq (by omega)
  have hblob := hdrBlobSize_nonneg h
  have hmd := hdrMdataSize_nonneg h
  have hle40 := le_up4 (40 + hdrBlobSize h)
  have h0 := up4_nonneg hmd
  have hN32 : hdrNbSamples h < 4294967296 := by
    have := h.maxNbSamples.toNat_lt
    unfold hdrNbSamples
    omega
  have hS : 40 ≤ mappedStride h := by rw [hstride]; omega
  have hslots : 0 ≤ hdrNbSamples h * mappedStride h := Int.mul_nonneg (by omega) (by omega)
  have htot : sectionGetTotalSize lp64 h
      = 56 + up4 (hdrMdataSize h) + hdrNbSamples h * mappedStride h := by
    rw [sectionGetTotalSize_toU64]
    exact toU64_of_bounds (by omega) hsize
  -- `c` strides lead from the last slot back to the data section
  obtain ⟨c, hc⟩ : ∃ c, c = 4294967297 - hdrNbSamples h := ⟨_, rfl⟩
  have hsum : c * mappedStride h + hdrNbSamples h * mappedStride h = 4294967297 * mappedStride h := by
    rw [hc]
    ring
  have hc2 : 2 * mappedStride h ≤ c * mappedStride h :=
    Int.mul_le_mul_of_nonneg_right (by omega) (by omega)
  have hcN : c * mappedStride h ≤ hdrNbSamples h * mappedStride h :=
    Int.mul_le_mul_of_nonneg_right (by omega) (by omega)
  have hidx : toI32 (hdrNbSamples h - 1) = -c := by
    unfold toI32
    omega
  have hstart := slotRegion_start h (hdrNbSamples h - 1)
  rw [hidx, Int.neg_mul] at hstart
  have hN0 : 0 ≤ hdrNbSamples h - 1 := by omega
  have hN1 : hdrNbSamples h - 1 < (mappedDesc h).nbSamples := Int.sub_one_lt_of_le (le_refl _)
  have hin : (slotRegion (mappedDesc h) (hdrNbSamples h - 1)).start + (40 + hdrBlobSize h)
      ≤ sectionGetTotalSize lp64 h := (hs.slotInside _ hN0 hN1).2
  have hhdr : (56 : Int) ≤ 0 ∨ 40 + hdrBlobSize h ≤ 0 ∨
      0 + 56 ≤ (slotRegion (mappedDesc h) (hdrNbSamples h - 1)).start ∨
      (slotRegion (mappedDesc h) (hdrNbSamples h - 1)).start + (40 + hdrBlobSize h) ≤ 0 :=
    hs.headerSlot _ hN0 hN1
  have hmds : hdrMdataSize h ≤ 0 ∨ 40 + hdrBlobSize h ≤ 0 ∨
      56 + hdrMdataSize h ≤ (slotRegion (mappedDesc h) (hdrNbSamples h - 1)).start ∨
      (slotRegion (mappedDesc h) (hdrNbSamples h - 1)).start + (40 + hdrBlobSize h) ≤ 56 :=
    hs.mdataSlot _ hN0 hN1
  have hin0 : 0 ≤ (slotRegion (mappedDesc h) (hdrNbSamples h - 1)).start := (hs.slotInside _ hN0 hN1).1
  have hupper : up4 (hdrMdataSize h) ≤ hdrMdataSize h + 3 := by
    unfold up4
    omega
  by_cases hback : c * mappedStride h ≤ 56 + up4 (hdrMdataSize h)
  · rw [toU64_of_bounds (by omega) (by omega)] at hstart
    omega
  · have hwrap : (slotRegion (mappedDesc h) (hdrNbSamples h - 1)).start
        = 56 + up4 (hdrMdataSize h) - c * mappedStride h + 18446744073709551616 := by
      rw [hstart]
      unfold toU64
      omega
    omega

/-- A stride of more than 2^32 puts slot 2^31 on another one. -/
theorem SoundOf.stride_le (hN : 2147483648 < hdrNbSamples h) : mappedStride h ≤ 4294967296 := by
  have hsize := hs.size_lt hN
  have hstride := hs.stride_eq (by omega)
  have h0 := up4_nonneg (hdrMdataSize_nonneg h)
  have hhalf : 2147483648 * mappedStride h ≤ hdrNbSamples h * mappedStride h :=
    Int.mul_le_mul_of_nonneg_right (by omega) (by rw [mappedStride_eq]; exact toU64_nonneg _)
  by_contra hgt
  have hidx : toI32 2147483648 = -2147483648 := by
    unfold toI32
    omega
  have hstart := slotRegion_start h 2147483648
  rw [hidx] at hstart
  -- the slot is `x` bytes after the start of the data section, in slot `j`
  obtain ⟨x, hx⟩ : ∃ x, x = 18446744073709551616 - 2147483648 * mappedStride h := ⟨_, rfl⟩
  have hplace : (slotRegion (mappedDesc h) 2147483648).start = 56 + up4 (hdrMdataSize h) + x := by
    rw [hstart]
    unfold toU64
    omega
  obtain ⟨j, hj⟩ : ∃ j, j = x / mappedStride h := ⟨_, rfl⟩
  have hdiv := Int.emod_add_mul_ediv x (mappedStride h)
  have hmod0 := Int.emod_nonneg x (show mappedStride h ≠ 0 by omega)
  have hmod1 := Int.emod_lt_of_pos x (show 0 < mappedStride h by omega)
  have hj0 : 0 ≤ j := hj ▸ Int.ediv_nonneg (by omega) (by omega)
  have hj1 : j < 2147483648 := hj ▸ Int.ediv_lt_of_lt_mul (by omega) (by omega)
  rw [← hj, Int.mul_comm] at hdiv
  have hjstart := slotRegion_start h j
  rw [toI32_of_bounds hj0 hj1, toU64_of_bounds
    (by have := Int.mul_nonneg hj0 (show 0 ≤ mappedStride h by omega); omega) (by omega)] at hjstart
  have happart : 40 + hdrBlobSize h ≤ 0 ∨ 40 + hdrBlobSize h ≤ 0 ∨
      (slotRegion (mappedDesc h) 2147483648).start + (40 + hdrBlobSize h)
        ≤ (slotRegion (mappedDesc h) j).start ∨
      (slotRegion (mappedDesc h) j).start + (40 + hdrBlobSize h)
        ≤ (slotRegion (mappedDesc h) 2147483648).start :=
    hs.slots 2147483648 j (by omega) hN hj0 (show j < hdrNbSamples h by omega) (by omega)
  have hblob := hdrBlobSize_nonneg h
  have hdvd : 4 ∣ x - j * mappedStride h :=
    Int.dvd_sub (by omega) (Int.dvd_mul_of_dvd_right (mappedStride_dvd h))
  have hup := fun hle : 40 + hdrBlobSize h ≤ x - j * mappedStride h => up4_le hle hdvd
  rw [hplace, hjstart] at happart
  omega

end Necessary

/-! ## What makes a layout sound -/

/-- The condition on a header. -/
structure Exact (h : HdrUserInfo) : Prop where
  fits : exactSize h < 18446744073709551616
  indices : hdrNbSamples h ≤ 2147483648 ∨ up4 (40 + hdrBlobSize h) = 4294967296

section Sufficient

variable (he : Exact h) (hN : 0 < hdrNbSamples h)

include he hN

theorem Exact.stride_eq : mappedStride h = up4 (40 + hdrBlobSize h) := by
  have hb := up4_nonneg (x := 40 + hdrBlobSize h) (by have := hdrBlobSize_nonneg h; omega)
  have h0 := up4_nonneg (hdrMdataSize_nonneg h)
  have hmul : 1 * up4 (40 + hdrBlobSize h) ≤ hdrNbSamples h * up4 (40 + hdrBlobSize h) :=
    Int.mul_le_mul_of_nonneg_right (by omega) hb
  have hfits := he.fits
  rw [exactSize_eq] at hfits
  rw [mappedStride_eq, toU64_of_bounds hb (by omega)]

/-- Each slot is where the exact sum says. -/
theorem Exact.slot_start {i : Int} (h0 : 0 ≤ i) (h1 : i < hdrNbSamples h) :
    (slotRegion (mappedDesc h) i).start
        = 56 + up4 (hdrMdataSize h) + i * up4 (40 + hdrBlobSize h) ∧
      i * up4 (40 + hdrBlobSize h) + up4 (40 + hdrBlobSize h)
        ≤ hdrNbSamples h * up4 (40 + hdrBlobSize h) := by
  have hb := up4_nonneg (x := 40 + hdrBlobSize h) (by have := hdrBlobSize_nonneg h; omega)
  have hmd := up4_nonneg (hdrMdataSize_nonneg h)
  have hsucc : (i + 1) * up4 (40 + hdrBlobSize h) ≤ hdrNbSamples h * up4 (40 + hdrBlobSize h) :=
    Int.mul_le_mul_of_nonneg_right (by omega) hb
  have hi : 0 ≤ i * up4 (40 + hdrBlobSize h) := Int.mul_nonneg h0 hb
  have hfits := he.fits
  rw [exactSize_eq] at hfits
  rw [Int.add_mul, Int.one_mul] at hsucc
  refine ⟨?_, hsucc⟩
  rw [slotRegion_start, he.stride_eq hN]
  rcases he.indices with hsmall | hstride
  · rw [toI32_of_bounds h0 (by omega)]
    exact toU64_of_bounds (by omega) (by omega)
  · -- a move of 2^32 strides is one of 2^64 bytes
    rw [hstride] at hsucc hfits ⊢
    unfold toI32 toU64
    omega

theorem Exact.total_eq : sectionGetTotalSize lp64 h = exactSize h := by
  have hb := up4_nonneg (x := 40 + hdrBlobSize h) (by have := hdrBlobSize_nonneg h; omega)
  have hmd := up4_nonneg (hdrMdataSize_nonneg h)
  have hmul : 0 ≤ hdrNbSamples h * up4 (40 + hdrBlobSize h) := Int.mul_nonneg hN.le hb
  have hfits := he.fits
  rw [sectionGetTotalSize_toU64, he.stride_eq hN, ← exactSize_eq]
  exact toU64_of_bounds (by rw [exactSize_eq]; omega) hfits

/-- The parts of an exact layout keep apart. -/
theorem Exact.sound : SoundOf h := by
  have htot := he.total_eq hN
  have hblob := hdrBlobSize_nonneg h
  have hmd := hdrMdataSize_nonneg h
  have hle := le_up4 (hdrMdataSize h)
  have hle40 := le_up4 (40 + hdrBlobSize h)
  have hmul : 0 ≤ hdrNbSamples h * up4 (40 + hdrBlobSize h) := Int.mul_nonneg hN.le (by omega)
  rw [exactSize_eq] at htot
  have hplace := fun i (h0 : 0 ≤ i) (h1 : i < hdrNbSamples h) => he.slot_start hN h0 h1
  have hnn := fun i (h0 : 0 ≤ i) => Int.mul_nonneg h0 (show 0 ≤ up4 (40 + hdrBlobSize h) by omega)
  refine ⟨⟨le_refl 0, ?_⟩, ⟨?_, ?_⟩, fun i h0 h1 => ?_, ?_, fun i h0 h1 => ?_, fun i h0 h1 => ?_,
    fun i j h0 h1 h0' h1' hne => ?_, fun i _ _ => slotRegion_dvd h i⟩
  · show 0 + 56 ≤ _
    omega
  · show (0 : Int) ≤ 56
    omega
  · show 56 + hdrMdataSize h ≤ _
    omega
  · obtain ⟨hstart, hlast⟩ := hplace i h0 h1
    have := hnn i h0
    unfold Region.Inside
    rw [hstart]
    show _ ∧ _ + (40 + hdrBlobSize h) ≤ _
    omega
  · exact Or.inr (Or.inr (Or.inl (le_refl (56 : Int))))
  · obtain ⟨hstart, -⟩ := hplace i h0 h1
    have := hnn i h0
    refine Or.inr (Or.inr (Or.inl ?_))
    rw [hstart]
    show 0 + 56 ≤ _
    omega
  · obtain ⟨hstart, -⟩ := hplace i h0 h1
    have := hnn i h0
    refine Or.inr (Or.inr (Or.inl ?_))
    rw [hstart]
    show 56 + hdrMdataSize h ≤ _
    omega
  · obtain ⟨hi, -⟩ := hplace i h0 h1
    obtain ⟨hj, -⟩ := hplace j h0' h1'
    unfold Region.Apart
    rw [hi, hj]
    refine Or.inr (Or.inr ?_)
    show _ + (40 + hdrBlobSize h) ≤ _ ∨ _ + (40 + hdrBlobSize h) ≤ _
    rcases Int.lt_or_gt_of_ne hne with hlt | hgt
    · have hstep : (i + 1) * up4 (40 + hdrBlobSize h) ≤ j * up4 (40 + hdrBlobSize h) :=
        Int.mul_le_mul_of_nonneg_right (by omega) (by omega)
      rw [Int.add_mul, Int.one_mul] at hstep
      omega
    · have hstep : (j + 1) * up4 (40 + hdrBlobSize h) ≤ i * up4 (40 + hdrBlobSize h) :=
        Int.mul_le_mul_of_nonneg_right (by omega) (by omega)
      rw [Int.add_mul, Int.one_mul] at hstep
      omega

end Sufficient

/-- The layout of a header with at least one slot is sound exactly if its size does
not reach 2^64 and its indices are harmless. -/
theorem soundOf_iff (hN : 0 < hdrNbSamples h) : SoundOf h ↔ Exact h := by
  constructor
  · intro hs
    have hstride := hs.stride_eq hN
    have htot : sectionGetTotalSize lp64 h < 18446744073709551616 := by
      rw [sectionGetTotalSize_toU64]
      exact toU64_lt _
    by_cases hsmall : hdrNbSamples h ≤ 2147483648
    · have htiles := hs.tiles (hdrNbSamples h - 1).toNat (by omega) (by omega)
      rw [Int.toNat_of_nonneg (by omega), Int.sub_add_cancel, hstride] at htiles
      exact ⟨by rw [exactSize_eq]; omega, Or.inl hsmall⟩
    · have hsize := hs.size_lt (by omega)
      have hge := hs.stride_ge (by omega)
      have hle := hs.stride_le (by omega)
      rw [hstride] at hsize hge hle
      exact ⟨by rw [exactSize_eq]; exact hsize, Or.inr (by omega)⟩
  · exact fun he => he.sound hN

/-! ## Sections that are mapped -/

/-- **When the layout of a section is sound.** A creation with at least one slot went
on to map the section, in the size that it asked for. The header, the blob
metadata and the slots lie in that size, share no byte, and the slots start
at multiples of 4, if and only if the exact size is below 2^64 and there are
at most 2^31 slots or the stride is 2^32. -/
theorem mapped_sound_iff {inst : Nat} {ctx : Option CtxAllocs} {tr : List (Event Op.Resp)}
    {m : CtxMmap} {map : SectionMap} {desc : DataSectionDesc} (hN : 0 < hdrNbSamples h)
    (hy : (ctxMmap inst ctx (some h)).Yields tr m) (hparts : m.parts = some (map, desc)) :
    SoundLayout (sectionGetTotalSize lp64 h) h map desc ↔
      exactSize h < 18446744073709551616 ∧
        (hdrNbSamples h ≤ 2147483648 ∨ up4 (40 + hdrBlobSize h) = 4294967296) := by
  have hlayout := ctxMmap_parts (A := fun _ _ => True) inst ctx h
  obtain ⟨rfl, rfl⟩ := (hlayout.yields hy fun _ _ => trivial).1 map desc hparts
  have hiff := soundOf_iff hN
  exact hiff.trans ⟨fun he => ⟨he.fits, he.indices⟩, fun he => ⟨he.1, he.2⟩⟩

end Layout

/-- The mapping of a section of 4 slots of 4 bytes. -/
def mapsFour : Option (SectionMap × DataSectionDesc) :=
  (exec (machine shm) 0 (ctxMmap 0 (some default) (some ⟨4, 4, 1, 0⟩)) Shm.world).1.parts

theorem mapped_sound_iff_four :
    mapsFour = some (⟨0, 16, 40, 56, 56, 232⟩, ⟨56, 4, 4⟩) ∧
      SoundLayout 232 ⟨4, 4, 1, 0⟩ ⟨0, 16, 40, 56, 56, 232⟩ ⟨56, 4, 4⟩ := by
  have hparts : mapsFour = some (⟨0, 16, 40, 56, 56, 232⟩, ⟨56, 4, 4⟩) := by decide +kernel
  have hsize : sectionGetTotalSize lp64 ⟨4, 4, 1, 0⟩ = 232 := by decide +kernel
  refine ⟨hparts, hsize ▸ ?_⟩
  exact (mapped_sound_iff (by decide) (yields_exec _ _ _ _) hparts).mpr
    ⟨by decide, Or.inl (by decide)⟩

/-- The header of a slot whose size wraps to a stride of 0. -/
def hugeBlob : HdrUserInfo := ⟨18446744073709551576, 1, 1, 0⟩

/-- The creation succeeds in a section of 56 bytes, that has no room for the slot. -/
theorem mapped_unsound :
    (exec (machine shm) 0 (create "section" hugeBlob [] none) Shm.world).1.isSome = true ∧
      sectionGetTotalSize lp64 hugeBlob = 56 ∧ ¬ SoundOf hugeBlob := by
  refine ⟨by decide +kernel, by decide +kernel, fun hs => ?_⟩
  have hin := (hs.slotInside 0 (by decide) (by decide)).2
  exact absurd hin (by decide +kernel)

end Shdata.Layout
