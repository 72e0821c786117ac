/-
Shdata.Producer.Frame — the bytes that a write of a quantity, or of a whole
blob, may change.

`shd_data_write_quantity` copies to the blob of the slot in progress plus the
offset of the quantity. Neither the offset nor the size is compared with the
size of the blob: that is left to the caller. `writes_inside_iff` says for
which quantities, and for which sizes of a whole blob, no source buffer can
reach a byte outside the blob.

The offset converts to `size_t` when it is added to the address of the slot,
so `Inside` is stated on the converted offset. For the sizes of real objects
it is `InBounds` (`inside_iff_inBounds`).
-/
import Shdata.Producer.Failed

namespace Shdata.Producer

open Shdata.Conc Shdata.Bytes Shdata.Core Shdata.Ring Shdata.Layout Shdata.Trace Shdata.Solo

variable {Ω : Type} {B : Backend Ω} {d : DataSectionDesc} {t : Nat} {ctx : ShdCtx} {w : World Ω}

/-- A quantity without bytes, or whose bytes lie inside the blob. -/
def Inside (d : DataSectionDesc) (q : Quantity) : Prop :=
  q.quantitySize = 0 ∨ toU64 q.quantityOffset + q.quantitySize ≤ d.blobSize

instance (d : DataSectionDesc) (q : Quantity) : Decidable (Inside d q) :=
  inferInstanceAs (Decidable (_ ∨ _))

/-- An offset is a `ptrdiff_t`, and no object is larger than its range. -/
theorem inside_iff_inBounds {q : Quantity} (hblob : d.blobSize ≤ 9223372036854775808)
    (hlo : -9223372036854775808 ≤ q.quantityOffset) (hhi : q.quantityOffset < 9223372036854775808)
    (hsize : 0 < q.quantitySize) : Inside d q ↔ InBounds d q := by
  unfold Inside InBounds toU64
  omega

/-! ## A quantity -/

/-- The section after the copy of a quantity to the slot `i`. -/
def copied (d : DataSectionDesc) (i : Int) (q : Quantity) (src : List UInt8) (w : World Ω) :
    World Ω :=
  { w with
    mem := w.mem.write (toU64 (slot d i + (40 + q.quantityOffset))) (src.take q.quantitySize) }

theorem exec_writeQuantity (hd : SoundDesc d) (hctx : CtxFor d ctx)
    (hi : IsSlot d.nbSamples ctx.syncCtx.index) (q : Quantity) (src : List UInt8) :
    exec (machine B) t (writeQuantity ctx q src) w = (0, copied d ctx.syncCtx.index q src w) := by
  obtain rfl := hctx.desc
  have hne : ctx.syncCtx.index ≠ -1 := by
    have := hi.nonneg
    omega
  rw [writeQuantity, dataWriteQuantity, syncGetLocalWriteIndex, if_neg hne, exec_bind,
    exec_getSamplePtr, dataGetSamplePtr_eq hd hi]
  rfl

/-- The bytes of a quantity lie in the blob of the slot exactly if the quantity is
inside. -/
theorem copy_inside_iff (hd : SoundDesc d) {i : Int} (hi : IsSlot d.nbSamples i) (q : Quantity) :
    (q.quantitySize = 0 ∨ slot d i + 40 ≤ toU64 (slot d i + (40 + q.quantityOffset)) ∧
        toU64 (slot d i + (40 + q.quantityOffset)) + q.quantitySize
          ≤ slot d i + 40 + d.blobSize) ↔ Inside d q := by
  have hb := slot_bounds hd hi
  have hs := hd.stride_ge
  unfold Inside toU64
  omega

/-! ## A whole blob -/

/-- The section after the metadata of a new sample. -/
def titled (d : DataSectionDesc) (i : Int) (metadata : SampleMetadata) (w : World Ω) : World Ω :=
  { w with mem := w.mem.write (slot d i) (encMetadata metadata) }

/-- The section after a commit. -/
def published (i : Int) (w : World Ω) : World Ω :=
  { w with mem := (w.mem.write 44 (encI32 i)).write 48 (encI32 0) }

/-- The slot that the next new sample of a section takes. -/
def nextSlot (d : DataSectionDesc) (m : Mem) : Int := indexNext (writeIndex m) d.nbSamples

/-- The section after a whole blob. -/
def blobWritten (d : DataSectionDesc) (src : List UInt8) (size : Nat) (metadata : SampleMetadata)
    (w : World Ω) : World Ω :=
  published (nextSlot d w.mem) (copied d (nextSlot d w.mem) ⟨0, size⟩ src
    (titled d (nextSlot d w.mem) metadata (bumped d (nextSlot d w.mem) (raised w))))

theorem exec_newSample_titled (hd : SoundDesc d) (hctx : CtxFor d ctx) {i : Int}
    (hi : IsSlot d.nbSamples i) {w₁ : World Ω}
    (h : exec (machine B) t (dataReserveWrite ctx) w = ((0, holding ctx i), w₁))
    (metadata : SampleMetadata) :
    exec (machine B) t (newSample ctx metadata) w = ((0, holding ctx i), titled d i metadata w₁) := by
  obtain rfl := hctx.desc
  have hb := slot_bounds hd hi
  have hsp := hd.stride_pos
  have hne : (holding ctx i).syncCtx.index ≠ -1 := by
    have := hi.nonneg
    show i ≠ -1
    omega
  have haddr : toU64 (slot ctx.desc i + 0) = slot ctx.desc i := by
    rw [Int.add_zero]
    exact toU64_of_bounds (by omega) (by omega)
  have hptr : dataGetSamplePtr (holding ctx i).desc (holding ctx i).syncCtx.index
      = slot ctx.desc i := dataGetSamplePtr_eq hd hi
  rw [newSample, exec_bind, h]
  dsimp only
  rw [if_neg (show ¬ (0 : Int) < 0 by decide), exec_bind, dataWriteMetadata, syncGetLocalWriteIndex,
    if_neg hne, exec_bind, exec_getSamplePtr, hptr, sampleWrite, haddr]
  rfl

/-- A whole blob is written if nobody has a sample in progress and nobody else
published the last one. -/
theorem exec_writeNewBlob_bytes (hd : SoundDesc d) (hctx : CtxFor d ctx) (h0 : nbOngoing w.mem = 0)
    (hno : ctx.syncCtx.index = -1) (hf : Follows d ctx w.mem) (src : List UInt8) (size : Nat)
    (metadata : SampleMetadata) :
    (exec (machine B) t (writeNewBlob ctx src size metadata) w).2
      = blobWritten d src size metadata w := by
  have hi : IsSlot d.nbSamples (nextSlot d w.mem) := isSlot_indexNext hd.size _
  have hres := exec_reserveWrite (B := B) (t := t) hd hctx h0 rfl
  rw [if_neg (by simp [hno]), (startCode_eq_zero_iff _ _ _).mpr hf] at hres
  have hnew := exec_newSample_titled hd hctx hi hres metadata
  have hctx' : CtxFor d (holding ctx (nextSlot d w.mem)) := ⟨hctx.desc, hctx.sync⟩
  have hne : nextSlot d w.mem ≠ -1 := by
    have := hi.nonneg
    omega
  rw [writeNewBlob, exec_bind, hnew]
  dsimp only
  rw [if_neg (show ¬ (0 : Int) < 0 by decide), exec_bind, exec_writeQuantity hd hctx' hi]
  dsimp only
  rw [if_neg (show ¬ (0 : Int) < 0 by decide), commitSample, dataEndWrite, syncGetLocalWriteIndex,
    if_neg (show (holding ctx (nextSlot d w.mem)).syncCtx.index ≠ -1 from hne), hctx'.sync]
  rfl

/-- It is refused otherwise. -/
theorem writeNewBlob_ret (hd : SoundDesc d) (hctx : CtxFor d ctx) {src : List UInt8} {size : Nat}
    {metadata : SampleMetadata}
    (hret : (exec (machine B) t (writeNewBlob ctx src size metadata) w).1.1 = 0) :
    nbOngoing w.mem = 0 ∧ ctx.syncCtx.index = -1 ∧ Follows d ctx w.mem := by
  have hfail : ∀ {r : Int × ShdCtx} {w' : World Ω},
      exec (machine B) t (dataReserveWrite ctx) w = (r, w') → r.1 < 0 → False := by
    intro r w' h hneg
    have hex := exec_start_failed (c := .writeNewBlob src size metadata) trivial h hneg
    rw [show exec (machine B) t (writeNewBlob ctx src size metadata) w = (r, w') from hex] at hret
    exact absurd hret (ne_of_lt hneg)
  by_cases h0 : nbOngoing w.mem = 0
  · have hres := exec_reserveWrite (B := B) (t := t) hd hctx h0 rfl
    by_cases hno : ctx.syncCtx.index = -1
    · refine ⟨h0, hno, ?_⟩
      by_contra hf
      have hcode := (startCode_cases d.nbSamples ctx.syncCtx.prevIndex
        (indexNext (writeIndex w.mem) d.nbSamples)).resolve_left
          fun he => hf ((startCode_eq_zero_iff _ _ _).mp he)
      rw [if_neg (by simp [hno]), hcode] at hres
      exact hfail hres (show -EFAULT < 0 by decide)
    · rw [if_pos hno] at hres
      exact absurd (hfail hres (show -EALREADY < 0 by decide)) id
  · refine absurd (hfail (exec_reserveWrite_refused hctx h0) ?_) id
    dsimp only
    split <;> decide

/-- Nothing changed but the two counters of the section header, the metadata and
the counter of slot `i`, and its blob. -/
def OnlySample (d : DataSectionDesc) (i : Int) (m m' : Mem) : Prop :=
  ∀ x, x < 44 ∨ (52 ≤ x ∧ x < slot d i) ∨ (slot d i + 36 ≤ x ∧ x < slot d i + 40) ∨
    slot d i + 40 + d.blobSize ≤ x → m' x = m x

/-- What a whole blob does to a byte that only the copy of its data can reach. -/
theorem blobWritten_byte (hd : SoundDesc d) (src : List UInt8) (size : Nat)
    (metadata : SampleMetadata) (w : World Ω) {x : Int}
    (hx : x < 44 ∨ (52 ≤ x ∧ x < slot d (nextSlot d w.mem)) ∨
      slot d (nextSlot d w.mem) + 36 ≤ x) :
    (blobWritten d src size metadata w).mem x
      = w.mem.write (slot d (nextSlot d w.mem) + 40) (src.take size) x := by
  have hi : IsSlot d.nbSamples (nextSlot d w.mem) := isSlot_indexNext hd.size _
  have hb := slot_bounds hd hi
  have hsp := hd.stride_pos
  have haddr : toU64 (slot d (nextSlot d w.mem) + (40 + 0)) = slot d (nextSlot d w.mem) + 40 :=
    toU64_of_bounds (by omega) (by omega)
  have hlen := length_encMetadata metadata
  -- the commit, then the metadata, the bump and the raise leave the byte alone
  show (((Mem.write _ _ (src.take size)).write 44 _).write 48 (encI32 0)) x = _
  rw [Mem.write_of_not_mem (by rw [length_encI32]; omega),
    Mem.write_of_not_mem (by rw [length_encI32]; omega), haddr]
  apply Mem.write_congr
  show (((w.mem.write 48 _).write _ _).write _ (encMetadata metadata)) x = w.mem x
  rw [Mem.write_of_not_mem (by rw [hlen]; omega), Mem.write_of_not_mem (by rw [length_encI32]; omega),
    Mem.write_of_not_mem (by rw [length_encI32]; omega)]

/-! ## Which writes stay inside -/

/-- A quantity stays in the blob of the slot in progress exactly if it is inside. -/
theorem writeQuantity_iff (hd : SoundDesc d) (hctx : CtxFor d ctx)
    (hi : IsSlot d.nbSamples ctx.syncCtx.index) (q : Quantity) :
    (∀ src : List UInt8, q.quantitySize ≤ src.length →
        (exec (machine B) t (writeQuantity ctx q src) w).1 = 0 →
        Mem.SameOutside w.mem (exec (machine B) t (writeQuantity ctx q src) w).2.mem
          (slot d ctx.syncCtx.index + 40) (slot d ctx.syncCtx.index + 40 + d.blobSize)) ↔
      Inside d q := by
  have hbytes := Mem.write_avoids_iff w.mem
    (toU64 (slot d ctx.syncCtx.index + (40 + q.quantityOffset))) q.quantitySize
    fun x => x < slot d ctx.syncCtx.index + 40 ∨ slot d ctx.syncCtx.index + 40 + d.blobSize ≤ x
  have hrun := fun src => exec_writeQuantity (B := B) (t := t) (w := w) hd hctx hi q src
  rw [← copy_inside_iff hd hi]
  constructor
  · intro h
    have hall := hbytes.mp fun src hlen x hx => by
      have hsame := h src hlen (by rw [hrun])
      rw [hrun] at hsame
      exact hsame x hx
    by_contra hout
    have h0 := hall (toU64 (slot d ctx.syncCtx.index + (40 + q.quantityOffset)))
    have h1 := hall (toU64 (slot d ctx.syncCtx.index + (40 + q.quantityOffset)) + q.quantitySize - 1)
    omega
  · intro hin src hlen _
    rw [hrun]
    exact hbytes.mpr (fun x h0 h1 => by omega) src hlen

/-- A whole blob that is accepted touches its sample only exactly if its size is at
most that of a blob. -/
theorem writeNewBlob_iff (hd : SoundDesc d) (hctx : CtxFor d ctx) {src₀ : List UInt8} {size : Nat}
    {metadata : SampleMetadata}
    (hret : (exec (machine B) t (writeNewBlob ctx src₀ size metadata) w).1.1 = 0) :
    (∀ src : List UInt8, size ≤ src.length →
        (exec (machine B) t (writeNewBlob ctx src size metadata) w).1.1 = 0 →
        OnlySample d (nextSlot d w.mem) w.mem
          (exec (machine B) t (writeNewBlob ctx src size metadata) w).2.mem) ↔
      (size : Int) ≤ d.blobSize := by
  obtain ⟨h0, hno, hf⟩ := writeNewBlob_ret hd hctx hret
  have hi : IsSlot d.nbSamples (nextSlot d w.mem) := isSlot_indexNext hd.size _
  have hb := slot_bounds hd hi
  have hrun := fun src => exec_writeNewBlob_bytes (B := B) (t := t) hd hctx h0 hno hf src size metadata
  have hzero : ∀ src, (exec (machine B) t (writeNewBlob ctx src size metadata) w).1.1 = 0 := by
    intro src
    have hres := exec_reserveWrite (B := B) (t := t) hd hctx h0 rfl
    rw [if_neg (by simp [hno]), (startCode_eq_zero_iff _ _ _).mpr hf] at hres
    have hne : nextSlot d w.mem ≠ -1 := by
      have := hi.nonneg
      omega
    exact exec_start_succeeds (c := .writeNewBlob src size metadata) trivial hres hne
  -- the bytes that only the copy of the data can reach
  have hbytes := Mem.write_avoids_iff w.mem (slot d (nextSlot d w.mem) + 40) size fun x =>
    x < 44 ∨ (52 ≤ x ∧ x < slot d (nextSlot d w.mem)) ∨
      (slot d (nextSlot d w.mem) + 36 ≤ x ∧ x < slot d (nextSlot d w.mem) + 40) ∨
        slot d (nextSlot d w.mem) + 40 + d.blobSize ≤ x
  have hframe : ∀ src, OnlySample d (nextSlot d w.mem) w.mem
      (exec (machine B) t (writeNewBlob ctx src size metadata) w).2.mem ↔
      ∀ x, (x < 44 ∨ (52 ≤ x ∧ x < slot d (nextSlot d w.mem)) ∨
        (slot d (nextSlot d w.mem) + 36 ≤ x ∧ x < slot d (nextSlot d w.mem) + 40) ∨
          slot d (nextSlot d w.mem) + 40 + d.blobSize ≤ x) →
        w.mem.write (slot d (nextSlot d w.mem) + 40) (src.take size) x = w.mem x := by
    intro src
    have hblob := hd.blob
    rw [hrun]
    refine forall_congr' fun x => imp_congr_right fun hx => ?_
    rw [blobWritten_byte hd src size metadata w (by omega)]
  constructor
  · intro h
    have hall := hbytes.mp fun src hlen => (hframe src).mp (h src hlen (hzero src))
    have hlast := hall (slot d (nextSlot d w.mem) + 40 + size - 1)
    have hblob := hd.blob
    by_contra hgt
    omega
  · intro hle src hlen _
    exact (hframe src).mpr (hbytes.mpr (fun x _ _ => by omega) src hlen)

/-- **When writes stay inside the blob.** While a sample is in progress a quantity
can change nothing but the blob of its slot exactly if it is inside; a whole
blob can change nothing but its sample and the two counters of the section
exactly if it is not larger than a blob. -/
theorem writes_inside_iff (B : Backend Ω) (t : Nat) (w : World Ω) (hd : SoundDesc d)
    (hctx : CtxFor d ctx) :
    (IsSlot d.nbSamples ctx.syncCtx.index → ∀ q : Quantity,
      ((∀ src : List UInt8, q.quantitySize ≤ src.length →
          (exec (machine B) t (writeQuantity ctx q src) w).1 = 0 →
          Mem.SameOutside w.mem (exec (machine B) t (writeQuantity ctx q src) w).2.mem
            (slot d ctx.syncCtx.index + 40) (slot d ctx.syncCtx.index + 40 + d.blobSize)) ↔
        Inside d q)) ∧
    ∀ (src₀ : List UInt8) (size : Nat) (metadata : SampleMetadata),
      (exec (machine B) t (writeNewBlob ctx src₀ size metadata) w).1.1 = 0 →
        ((∀ src : List UInt8, size ≤ src.length →
            (exec (machine B) t (writeNewBlob ctx src size metadata) w).1.1 = 0 →
            OnlySample d (nextSlot d w.mem) w.mem
              (exec (machine B) t (writeNewBlob ctx src size metadata) w).2.mem) ↔
          (size : Int) ≤ d.blobSize) :=
  ⟨fun hi q => writeQuantity_iff hd hctx hi q,
    fun _ _ _ hret => writeNewBlob_iff hd hctx hret⟩

/-- A section of 4 slots of 4 bytes whose producer started its first sample. -/
def sampleStarted : (Int × ShdCtx) × World Shm :=
  exec (machine shm) 0 (newSample ((created 4).1.getD default) ⟨⟨1, 0⟩, ⟨1, 0⟩⟩) (created 4).2

theorem sampleStarted_ctx : CtxFor ⟨56, 4, 4⟩ sampleStarted.1.2 :=
  ⟨by decide +kernel, by decide +kernel⟩

/-- The last two bytes of the blob, and a whole blob by the producer of the empty
section. -/
theorem writes_inside_four :
    Mem.SameOutside sampleStarted.2.mem
        (exec (machine shm) 0 (writeQuantity sampleStarted.1.2 ⟨2, 2⟩ [7, 8])
          sampleStarted.2).2.mem 96 100 ∧
      OnlySample ⟨56, 4, 4⟩ 0 (created 4).2.mem
        (exec (machine shm) 0 (writeNewBlob ((created 4).1.getD default) [1, 2, 3, 4] 4
          ⟨⟨1, 0⟩, ⟨1, 0⟩⟩) (created 4).2).2.mem := by
  have hf : FitsHdr ⟨4, 4, 1, 0⟩ := ⟨⟨by decide, by decide⟩, by decide⟩
  have hd : SoundDesc ⟨56, 4, 4⟩ := soundDesc_of_fits hf
  have hctx := (created_ctx hf (by decide +kernel)).1
  have hslot : sampleStarted.1.2.syncCtx.index = 0 := by decide +kernel
  have hnext : nextSlot ⟨56, 4, 4⟩ (created 4).2.mem = 0 := by decide +kernel
  have hquantity := ((writes_inside_iff shm 0 sampleStarted.2 hd sampleStarted_ctx).1
    (by rw [hslot]; decide) ⟨2, 2⟩).mpr (by decide +kernel) [7, 8] (by decide) (by decide +kernel)
  have hblob := ((writes_inside_iff shm 0 (created 4).2 hd hctx).2 [1, 2, 3, 4] 4
    ⟨⟨1, 0⟩, ⟨1, 0⟩⟩ (by decide +kernel)).mpr (by decide) [1, 2, 3, 4] (by decide)
    (by decide +kernel)
  rw [hslot] at hquantity
  rw [hnext] at hblob
  exact ⟨hquantity, hblob⟩

/-- A quantity 8 bytes before the blob is the counter of the slot: the call returns 0
and the counter is overwritten. -/
theorem write_outside :
    (exec (machine shm) 0 (writeQuantity sampleStarted.1.2 ⟨-8, 4⟩ [1, 2, 3, 4])
        sampleStarted.2).1 = 0 ∧
      nbWrites ⟨56, 4, 4⟩ sampleStarted.2.mem 0 = 0 ∧
      nbWrites ⟨56, 4, 4⟩ (exec (machine shm) 0 (writeQuantity sampleStarted.1.2 ⟨-8, 4⟩
        [1, 2, 3, 4]) sampleStarted.2).2.mem 0 = 67305985 := by
  exact ⟨by decide +kernel, by decide +kernel, by decide +kernel⟩

end Shdata.Producer
