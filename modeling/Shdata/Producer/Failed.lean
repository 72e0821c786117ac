/-
Shdata.Producer.Failed — what a failed start of a sample leaves behind.

`shd_data_reserve_write` raises the counter of ongoing writes, bumps the
counter of a slot and takes an index, in this order, and undoes none of
it. A call that fails on the first step leaves the section as it was. A call
that fails after it leaves the section in a session that nobody ends:
`failed_undone_iff` says when.
-/
import Shdata.Producer.OneWriter

namespace Shdata.Producer

open Shdata.Conc Shdata.Bytes Shdata.Core Shdata.Ring Shdata.Layout Shdata.Trace Shdata.Solo

variable {Ω : Type} {B : Backend Ω} {d : DataSectionDesc} {t : Nat} {ctx : ShdCtx} {w : World Ω}

/-- The calls that start a sample. -/
def ProdCall.Starts : ProdCall → Prop
  | .newSample _ | .writeNewBlob _ _ _ => True
  | _ => False

/-! ## One attempt, step by step -/

/-- The section after an attempt to start a session. -/
def raised (w : World Ω) : World Ω :=
  { w with mem := w.mem.write 48 (encI32 (nbOngoing w.mem + 1)) }

/-- The section after the bump of the counter of a slot. -/
def bumped (d : DataSectionDesc) (i : Int) (w : World Ω) : World Ω :=
  { w with mem := w.mem.write (slot d i + 32) (encI32 (nbWrites d w.mem i + 1)) }

theorem attempt_iff (m : Mem) : toI32 (nbOngoing m + 1) = 1 ↔ nbOngoing m = 0 := by
  have h : IsI32 (nbOngoing m) := Mem.isI32_i32 m 48
  constructor
  · intro he
    have h1 : toI32 (nbOngoing m + 1) = toI32 1 := by
      rw [he, toI32_of_isI32 ⟨by omega, by omega⟩]
    rw [toI32_eq_iff] at h1
    unfold IsI32 at h
    omega
  · intro he
    rw [he]
    exact toI32_of_isI32 ⟨by omega, by omega⟩

theorem exec_startWriteSession (sync : SyncCtx) :
    exec (machine B) t (syncStartWriteSession sync 40) w =
      (if nbOngoing w.mem = 0 then 0 else if sync.index ≠ -1 then -EALREADY else -EPERM,
        raised w) := by
  rw [syncStartWriteSession, exec_bind, exec_addAndFetch]
  change exec (machine B) t (if toI32 (nbOngoing w.mem + 1) ≠ 1 then _ else _) (raised w) = _
  by_cases h0 : nbOngoing w.mem = 0
  · rw [if_neg (fun h => h ((attempt_iff _).mpr h0)), if_pos h0, exec_pure]
  · rw [if_pos (fun h => h0 ((attempt_iff _).mp h)), if_neg h0]
    split <;> rfl

/-- `shd_data_reserve_write` while the counter of ongoing writes is not zero. -/
theorem exec_reserveWrite_refused (hctx : CtxFor d ctx) (h : nbOngoing w.mem ≠ 0) :
    exec (machine B) t (dataReserveWrite ctx) w
      = ((if ctx.syncCtx.index ≠ -1 then -EALREADY else -EPERM, ctx), raised w) := by
  have hneg : (if ctx.syncCtx.index ≠ -1 then -EALREADY else -EPERM) < 0 := by
    split <;> decide
  rw [dataReserveWrite, hctx.sync, exec_bind, exec_startWriteSession, if_neg h]
  dsimp only
  rw [if_pos hneg, exec_pure]

theorem exec_getNextWriteIndex :
    exec (machine B) t (syncGetNextWriteIndex 40 d) w
      = (indexNext (writeIndex w.mem) d.nbSamples, w) := rfl

theorem exec_startSampleWrite (hd : SoundDesc d) (sync : SyncCtx) (hsync : sync.index = -1)
    {i : Int} (hidx : i = indexNext (writeIndex w.mem) d.nbSamples) :
    exec (machine B) t (syncStartSampleWrite sync 40 (slot d i) d) w
      = ((startCode d.nbSamples sync.prevIndex i, { sync with index := i }), bumped d i w) := by
  have hi : IsSlot d.nbSamples i := hidx ▸ isSlot_indexNext hd.size _
  have hb := slot_bounds hd hi
  have hkeep : (bumped d i w).mem.i32 (40 + offsetofWriteIndex) = writeIndex w.mem :=
    Mem.i32_write_disjoint (by
      rw [length_encI32, show (40 : Int) + offsetofWriteIndex = 44 from rfl]
      omega)
  have hbump : exec (machine B) t (addAndFetch .startSampleWrite (nbWritesPtr (slot d i)) 1) w
      = (toI32 (nbWrites d w.mem i + 1), bumped d i w) := by
    rw [nbWritesPtr_slot hd hi]
    rfl
  rw [syncStartSampleWrite, if_neg (by simp [hsync]), exec_bind, hbump, exec_bind, exec_load32,
    hkeep, ← hidx, startCode]
  dsimp only
  by_cases hfault : 0 < toU32 (intervalBetween sync.prevIndex i d.nbSamples - 1) ∧
    sync.prevIndex ≠ -1
  · rw [if_pos hfault, if_pos hfault, exec_pure]
  · rw [if_neg hfault, if_neg hfault, exec_pure]

theorem exec_startSampleWrite_already {sync : SyncCtx} (hsync : sync.index ≠ -1) (samp : Int) :
    exec (machine B) t (syncStartSampleWrite sync 40 samp d) w = ((-EALREADY, sync), w) := by
  rw [syncStartSampleWrite, if_pos hsync, exec_pure]

/-- `shd_data_reserve_write` while the counter of ongoing writes is zero. -/
theorem exec_reserveWrite (hd : SoundDesc d) (hctx : CtxFor d ctx) (h : nbOngoing w.mem = 0)
    {i : Int} (hidx : i = indexNext (writeIndex w.mem) d.nbSamples) :
    exec (machine B) t (dataReserveWrite ctx) w =
      if ctx.syncCtx.index ≠ -1 then ((-EALREADY, ctx), raised w)
      else ((startCode d.nbSamples ctx.syncCtx.prevIndex i, holding ctx i), bumped d i (raised w)) := by
  obtain rfl := hctx.desc
  have hi : IsSlot ctx.desc.nbSamples i := hidx ▸ isSlot_indexNext hd.size _
  have hnext : writeIndex (raised w).mem = writeIndex w.mem :=
    Mem.i32_write_disjoint (by rw [length_encI32]; omega)
  rw [← hnext] at hidx
  rw [dataReserveWrite, hctx.sync, exec_bind, exec_startWriteSession, if_pos h]
  dsimp only
  rw [if_neg (show ¬ (0 : Int) < 0 by decide), exec_bind, exec_getNextWriteIndex, ← hidx, exec_bind,
    exec_getSamplePtr, dataGetSamplePtr_eq hd hi, exec_bind]
  by_cases hno : ctx.syncCtx.index = -1
  · rw [exec_startSampleWrite hd ctx.syncCtx hno hidx, if_neg (by simp [hno]), exec_pure]
    rfl
  · rw [exec_startSampleWrite_already hno, if_pos hno, exec_pure]

/-- A new sample that is refused. -/
theorem exec_newSample_failed {σ : Type} {M : Machine Op.Resp Nat σ} {s s' : σ}
    {r : Int × ShdCtx} (h : exec M t (dataReserveWrite ctx) s = (r, s')) (hneg : r.1 < 0)
    (metadata : SampleMetadata) : exec M t (newSample ctx metadata) s = (r, s') := by
  rw [newSample, exec_bind, h]
  dsimp only
  rw [if_pos hneg, exec_pure]

/-- A new sample that reserved its slot. -/
theorem exec_newSample_succeeds {ctx' : ShdCtx} {w' : World Ω}
    (h : exec (machine B) t (dataReserveWrite ctx) w = ((0, ctx'), w'))
    (hidx : ctx'.syncCtx.index ≠ -1) (metadata : SampleMetadata) :
    (exec (machine B) t (newSample ctx metadata) w).1 = (0, ctx') := by
  rw [newSample, exec_bind, h]
  dsimp only
  rw [if_neg (show ¬ (0 : Int) < 0 by decide), dataWriteMetadata, syncGetLocalWriteIndex,
    if_neg hidx]
  rfl

/-- A whole blob whose new sample succeeds. -/
theorem exec_writeNewBlob_succeeds {ctx' : ShdCtx} (src : List UInt8) (size : Nat)
    (metadata : SampleMetadata)
    (h : (exec (machine B) t (newSample ctx metadata) w).1 = (0, ctx'))
    (hidx : ctx'.syncCtx.index ≠ -1) :
    (exec (machine B) t (writeNewBlob ctx src size metadata) w).1.1 = 0 := by
  rw [writeNewBlob, exec_bind, h]
  dsimp only
  rw [if_neg (show ¬ (0 : Int) < 0 by decide), exec_bind, writeQuantity, dataWriteQuantity,
    syncGetLocalWriteIndex, if_neg hidx, exec_bind]
  show (exec (machine B) t (if (0 : Int) < 0 then _ else commitSample ctx') _).1.1 = 0
  rw [if_neg (show ¬ (0 : Int) < 0 by decide), commitSample, dataEndWrite, syncGetLocalWriteIndex,
    if_neg hidx]
  rfl

/-- A whole blob is refused as its new sample is. -/
theorem exec_writeNewBlob_refused {σ : Type} {M : Machine Op.Resp Nat σ} {s : σ} (src : List UInt8)
    (size : Nat) (metadata : SampleMetadata)
    (h : (exec M t (newSample ctx metadata) s).1.1 < 0) :
    exec M t (writeNewBlob ctx src size metadata) s = exec M t (newSample ctx metadata) s := by
  rw [writeNewBlob, exec_bind, if_pos h, exec_pure]

theorem exec_start_failed {c : ProdCall} (hc : c.Starts) {r : Int × ShdCtx} {w' : World Ω}
    (h : exec (machine B) t (dataReserveWrite ctx) w = (r, w')) (hneg : r.1 < 0) :
    exec (machine B) t (prodCall ctx c) w = (r, w') := by
  cases c with
  | newSample metadata => exact exec_newSample_failed h hneg metadata
  | writeNewBlob src size metadata =>
    have hnew := exec_newSample_failed h hneg metadata
    exact (exec_writeNewBlob_refused src size metadata (by rw [hnew]; exact hneg)).trans hnew
  | writeQuantity q src => exact absurd hc id
  | commitSample => exact absurd hc id

theorem exec_start_succeeds {c : ProdCall} (hc : c.Starts) {ctx' : ShdCtx} {w' : World Ω}
    (h : exec (machine B) t (dataReserveWrite ctx) w = ((0, ctx'), w'))
    (hidx : ctx'.syncCtx.index ≠ -1) : (exec (machine B) t (prodCall ctx c) w).1.1 = 0 := by
  cases c with
  | newSample metadata => exact (Prod.ext_iff.mp (exec_newSample_succeeds h hidx metadata)).1
  | writeNewBlob src size metadata =>
    exact exec_writeNewBlob_succeeds src size metadata (exec_newSample_succeeds h hidx metadata) hidx
  | writeQuantity q src => exact absurd hc id
  | commitSample => exact absurd hc id

/-! ## What a failed call leaves -/

/-- The section is as it was, and so is the session of the caller. -/
structure Undone (B : Backend Ω) (d : DataSectionDesc) (t : Nat) (ctx ctx' : ShdCtx)
    (w w' : World Ω) : Prop where
  index : writeIndex w'.mem = writeIndex w.mem
  slots : ∀ i, IsSlot d.nbSamples i → nbWrites d w'.mem i = nbWrites d w.mem i ∧
    metadataOf d w'.mem i = metadataOf d w.mem i ∧ blobOf d w'.mem i = blobOf d w.mem i
  progress : ctx'.syncCtx.index ≠ -1 → ctx.syncCtx.index ≠ -1
  /-- Any other producer that could have started a sample still can. -/
  others : ∀ u other metadata, u ≠ t → CtxFor d other →
    (exec (machine B) u (newSample other metadata) w).1.1 = 0 →
    (exec (machine B) u (newSample other metadata) w').1.1 = 0

/-- The published slot is the last one of the context, as far as the ring can
tell. -/
def Follows (d : DataSectionDesc) (ctx : ShdCtx) (m : Mem) : Prop :=
  ctx.syncCtx.prevIndex = -1 ∨
    intervalBetween ctx.syncCtx.prevIndex (indexNext (writeIndex m) d.nbSamples) d.nbSamples = 1

theorem startCode_eq_zero_iff (N prev index : Int) :
    startCode N prev index = 0 ↔ prev = -1 ∨ intervalBetween prev index N = 1 := by
  have hbounds : 0 ≤ intervalBetween prev index N ∧ intervalBetween prev index N < 4294967296 := by
    unfold intervalBetween
    split <;> exact toU32_bounds _
  have hone : 0 < toU32 (intervalBetween prev index N - 1) ↔ intervalBetween prev index N ≠ 1 := by
    unfold toU32
    omega
  unfold startCode
  split
  · rename_i h
    exact iff_of_false (by decide) fun he => he.elim h.2 (hone.mp h.1)
  · rename_i h
    refine iff_of_true rfl ?_
    by_cases hprev : prev = -1
    · exact Or.inl hprev
    · refine Or.inr ?_
      by_contra hne
      exact h ⟨hone.mpr hne, hprev⟩

/-- The counter of ongoing writes is not part of what must be left alone. -/
theorem raised_slots (hd : SoundDesc d) (w : World Ω) :
    writeIndex (raised w).mem = writeIndex w.mem ∧
      ∀ i, IsSlot d.nbSamples i → nbWrites d (raised w).mem i = nbWrites d w.mem i ∧
        metadataOf d (raised w).mem i = metadataOf d w.mem i ∧
        blobOf d (raised w).mem i = blobOf d w.mem i := by
  have hout := Mem.sameOutside_write w.mem 48 (encI32 (nbOngoing w.mem + 1))
  rw [length_encI32] at hout
  refine ⟨hout.i32 (by omega), fun i hi => ?_⟩
  have hb := slot_bounds hd hi
  exact ⟨nbWrites_congr fun x h0 _ => hout x (by omega),
    metadataOf_congr fun x h0 _ => hout x (by omega),
    blobOf_congr hd fun x h0 _ => hout x (by omega)⟩

/-- A producer that made no commit yet. -/
def newcomer (ctx : ShdCtx) : ShdCtx := { ctx with syncCtx := syncCtxInit }

theorem newcomer_ctxFor (hctx : CtxFor d ctx) : CtxFor d (newcomer ctx) := ⟨hctx.desc, hctx.sync⟩

/-- While the counter of ongoing writes is zero a newcomer can start a sample. -/
theorem exec_newcomer (hd : SoundDesc d) (hctx : CtxFor d ctx) (h : nbOngoing w.mem = 0)
    (metadata : SampleMetadata) :
    (exec (machine B) t (newSample (newcomer ctx) metadata) w).1.1 = 0 := by
  have hi := isSlot_indexNext hd.size (writeIndex w.mem)
  have hres := exec_reserveWrite (B := B) (t := t) hd (newcomer_ctxFor hctx) h rfl
  have hcode : startCode d.nbSamples (newcomer ctx).syncCtx.prevIndex
      (indexNext (writeIndex w.mem) d.nbSamples) = 0 :=
    (startCode_eq_zero_iff _ _ _).mpr (Or.inl rfl)
  rw [if_neg (by simp [newcomer, syncCtxInit]), hcode] at hres
  have hne : (holding (newcomer ctx) (indexNext (writeIndex w.mem) d.nbSamples)).syncCtx.index ≠ -1 := by
    have := hi.nonneg
    show indexNext (writeIndex w.mem) d.nbSamples ≠ -1
    omega
  exact (Prod.ext_iff.mp (exec_newSample_succeeds hres hne metadata)).1

/-- Nobody starts a sample while the counter of ongoing writes is not zero. -/
theorem exec_newSample_busy (hctx : CtxFor d ctx) (h : nbOngoing w.mem ≠ 0)
    (metadata : SampleMetadata) : (exec (machine B) t (newSample ctx metadata) w).1.1 ≠ 0 := by
  have hneg : (if ctx.syncCtx.index ≠ -1 then -EALREADY else -EPERM) < 0 := by
    split <;> decide
  rw [exec_newSample_failed (exec_reserveWrite_refused hctx h) hneg]
  exact ne_of_lt hneg

/-- A counter that was bumped is not what it was. -/
theorem bump_ne (x : Int) : toI32 (x + 1) ≠ x := by
  unfold toI32
  omega

/-- **When a failed write leaves the section as it was.** A call that fails undoes
what it did exactly if, should the counter of ongoing writes be zero, the caller
has no sample in progress and nobody else published the last one. -/
theorem failed_undone_iff (B : Backend Ω) (hd : SoundDesc d) (hctx : CtxFor d ctx) {c : ProdCall}
    (hc : c.Starts) {ret : Int} {ctx' : ShdCtx} {w' : World Ω}
    (hex : exec (machine B) t (prodCall ctx c) w = ((ret, ctx'), w')) :
    (ret < 0 → Undone B d t ctx ctx' w w') ↔
      (nbOngoing w.mem = 0 → ctx.syncCtx.index = -1 ∧ Follows d ctx w.mem) := by
  have hi := isSlot_indexNext hd.size (writeIndex w.mem)
  obtain ⟨hwi, hslots⟩ := raised_slots hd w
  have hrefused : (if ctx.syncCtx.index ≠ -1 then -EALREADY else -EPERM) < 0 := by
    split <;> decide
  by_cases h0 : nbOngoing w.mem = 0
  · have hres := exec_reserveWrite (B := B) (t := t) hd hctx h0 rfl
    by_cases hno : ctx.syncCtx.index = -1
    · rw [if_neg (by simp [hno])] at hres
      by_cases hf : Follows d ctx w.mem
      · -- the call succeeds
        rw [(startCode_eq_zero_iff _ _ _).mpr hf] at hres
        have hret := exec_start_succeeds hc hres
          (show indexNext (writeIndex w.mem) d.nbSamples ≠ -1 by have := hi.nonneg; omega)
        rw [hex] at hret
        exact iff_of_true (fun hneg => absurd hret (show ret ≠ 0 by omega)) fun _ => ⟨hno, hf⟩
      · -- `-EFAULT`: the counter of the slot was bumped already
        have hcode := (startCode_cases d.nbSamples ctx.syncCtx.prevIndex
          (indexNext (writeIndex w.mem) d.nbSamples)).resolve_left
            fun he => hf ((startCode_eq_zero_iff _ _ _).mp he)
        rw [hcode] at hres
        rw [exec_start_failed hc hres (show -EFAULT < 0 by decide)] at hex
        obtain ⟨hr, rfl⟩ := Prod.mk.inj hex
        obtain ⟨rfl, rfl⟩ := Prod.mk.inj hr
        refine iff_of_false (fun h => ?_) fun h => hf (h h0).2
        have hcount := ((h (by decide)).slots _ hi).1
        rw [← (hslots _ hi).1] at hcount
        exact bump_ne _ ((Mem.i32_write_same _ _ _).symm.trans hcount)
    · -- the caller has a sample in progress, yet its attempt raised the counter to 1
      rw [if_pos hno] at hres
      rw [exec_start_failed hc hres (show -EALREADY < 0 by decide)] at hex
      obtain ⟨hr, rfl⟩ := Prod.mk.inj hex
      obtain ⟨rfl, rfl⟩ := Prod.mk.inj hr
      refine iff_of_false (fun h => ?_) fun h => hno (h h0).1
      have hstill := (h (by decide)).others (t + 1) (newcomer ctx) ⟨⟨0, 0⟩, ⟨0, 0⟩⟩ (by omega)
        (newcomer_ctxFor hctx) (exec_newcomer hd hctx h0 _)
      have hone : nbOngoing (raised w).mem ≠ 0 := by
        rw [nbOngoing, raised, Mem.i32_write_same, h0, toI32_of_isI32 ⟨by omega, by omega⟩]
        decide
      exact absurd hstill (exec_newSample_busy (newcomer_ctxFor hctx) hone _)
  · -- the first step fails: nobody could start a sample
    rw [exec_start_failed hc (exec_reserveWrite_refused hctx h0) hrefused] at hex
    obtain ⟨hr, rfl⟩ := Prod.mk.inj hex
    obtain ⟨rfl, rfl⟩ := Prod.mk.inj hr
    refine iff_of_true (fun _ => ⟨hwi, hslots, id, ?_⟩) fun h => absurd h h0
    intro u other metadata _ hother hstart
    exact absurd hstart (exec_newSample_busy hother h0 metadata)

/-- Two producers of a section of 4 slots: each writes a blob. -/
def contested (ts : List Nat) : Config Op.Resp Nat (World Shm × History) (List Int × ShdCtx) :=
  (producers (created 4).2 (fun _ => (created 4).1.getD default) fun t =>
    if t < 2 then [.writeNewBlob [1, 2, 3, 4] 4 ⟨⟨1, 0⟩, ⟨1, 0⟩⟩] else []).run
      (tracked shm ⟨56, 4, 4⟩) ts

/-- The context of a producer that is done. -/
def contestedCtx (ts : List Nat) (t : Nat) : ShdCtx :=
  (((contested ts).pool t).returned.map Prod.snd).getD default

/-- The next sample of a producer that is done. -/
def contestedCall (ts : List Nat) (t : Nat) : (Int × ShdCtx) × World Shm :=
  exec (machine shm) t (prodCall (contestedCtx ts t) (.newSample ⟨⟨2, 0⟩, ⟨2, 0⟩⟩))
    (contested ts).st.1

/-- Producer 0 asks for a sample while producer 1 is writing. -/
theorem failed_undone_busy :
    (contestedCall (List.replicate 11 0 ++ [1]) 0).1.1 = -EPERM ∧
      Undone shm (descOf ⟨4, 4, 1, 0⟩) 0 (contestedCtx (List.replicate 11 0 ++ [1]) 0)
        (contestedCall (List.replicate 11 0 ++ [1]) 0).1.2
        (contested (List.replicate 11 0 ++ [1])).st.1
        (contestedCall (List.replicate 11 0 ++ [1]) 0).2 := by
  have hf : FitsHdr ⟨4, 4, 1, 0⟩ := ⟨⟨by decide, by decide⟩, by decide⟩
  have hctx : CtxFor (descOf ⟨4, 4, 1, 0⟩) (contestedCtx (List.replicate 11 0 ++ [1]) 0) :=
    ⟨by decide +kernel, by decide +kernel⟩
  have hret : (contestedCall (List.replicate 11 0 ++ [1]) 0).1.1 = -EPERM := by decide +kernel
  have hbusy : nbOngoing (contested (List.replicate 11 0 ++ [1])).st.1.mem ≠ 0 := by
    decide +kernel
  refine ⟨hret, (failed_undone_iff shm (soundDesc_of_fits hf) hctx
    (show ProdCall.Starts (.newSample ⟨⟨2, 0⟩, ⟨2, 0⟩⟩) from trivial) rfl).mpr
      (fun h => absurd h hbusy) ?_⟩
  show (contestedCall (List.replicate 11 0 ++ [1]) 0).1.1 < 0
  rw [hret]
  decide

/-- Producer 0 asks for a sample after producer 1 wrote one: the call fails, a slot
counter moved, and producer 1 can start no sample any more. -/
theorem failed_not_undone :
    (contestedCall (List.replicate 11 0 ++ List.replicate 11 1) 0).1.1 = -EFAULT ∧
      (contestedCall (List.replicate 11 0 ++ List.replicate 11 1) 1).1.1 = 0 ∧
      (exec (machine shm) 1 (newSample
        (contestedCtx (List.replicate 11 0 ++ List.replicate 11 1) 1) ⟨⟨2, 0⟩, ⟨2, 0⟩⟩)
        (contestedCall (List.replicate 11 0 ++ List.replicate 11 1) 0).2).1.1 = -EPERM ∧
      ¬ Undone shm ⟨56, 4, 4⟩ 0 (contestedCtx (List.replicate 11 0 ++ List.replicate 11 1) 0)
        (contestedCall (List.replicate 11 0 ++ List.replicate 11 1) 0).1.2
        (contested (List.replicate 11 0 ++ List.replicate 11 1)).st.1
        (contestedCall (List.replicate 11 0 ++ List.replicate 11 1) 0).2 := by
  refine ⟨by decide +kernel, by decide +kernel, by decide +kernel, fun h => ?_⟩
  exact absurd (h.slots 2 ⟨by decide, by decide⟩).1 (by decide +kernel)

end Shdata.Producer
