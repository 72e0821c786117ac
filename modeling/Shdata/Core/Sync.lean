/-
Shdata.Core.Sync — `shd_sync.c`.

A function that updates its `struct shd_sync_ctx` returns the updated value
beside its result. `hdr` is the address of the section's `struct
shd_sync_hdr`, `samp` the address of a `struct shd_sample`.
-/
import Shdata.Core.Machine

namespace Shdata.Core

open Shdata.Conc Shdata.Bytes

def syncHdrInit (syncHdr : Int) : ShdProg Int := do
  store32 .hdrInit (syncHdr + offsetofWriteIndex) (-1)
  store32 .hdrInit (syncHdr + offsetofNbOngoing) 0
  return 0

/-- The value of a new synchronization context (`calloc`, then two fields). -/
def syncCtxInit : SyncCtx where
  revision := 0
  index := -1
  prevIndex := -1
  nbWrites := 0

/-- `&samp->sync.nb_writes`. -/
def nbWritesPtr (samp : Int) : Int := toU64 (samp + offsetofNbWrites)

/-! ## Write sessions -/

/-- The counter is raised by every attempt, also by a refused one. -/
def syncStartWriteSession (ctx : SyncCtx) (hdr : Int) : ShdProg Int := do
  let n ← addAndFetch .startWriteSession (hdr + offsetofNbOngoing) 1
  if n ≠ 1 then
    if ctx.index ≠ -1 then return -EALREADY else return -EPERM
  else
    return 0

def syncGetNextWriteIndex (hdr : Int) (desc : DataSectionDesc) : ShdProg Int := do
  let writeIndex ← load32 .getNextWriteIndex (hdr + offsetofWriteIndex)
  return indexNext writeIndex desc.nbSamples

def syncStartSampleWrite (ctx : SyncCtx) (hdr samp : Int) (desc : DataSectionDesc) :
    ShdProg (Int × SyncCtx) := do
  if ctx.index ≠ -1 then
    return (-EALREADY, ctx)
  else
    -- Invalidate sample
    let _ ← addAndFetch .startSampleWrite (nbWritesPtr samp) 1
    -- Update local index
    let writeIndex ← load32 .startSampleWrite (hdr + offsetofWriteIndex)
    let index := indexNext writeIndex desc.nbSamples
    let unexpected := toU32 (intervalBetween ctx.prevIndex index desc.nbSamples - 1)
    if 0 < unexpected ∧ ctx.prevIndex ≠ -1 then
      return (-EFAULT, { ctx with index := index })
    else
      return (0, { ctx with index := index })

def syncEndWriteSession (ctx : SyncCtx) (hdr : Int) : ShdProg (Int × SyncCtx) := do
  store32 .endWriteSession (hdr + offsetofWriteIndex) ctx.index
  store32 .endWriteSession (hdr + offsetofNbOngoing) 0
  return (0, { ctx with prevIndex := ctx.index, index := -1 })

/-! ## Read sessions -/

/-- The snapshot of the counter of the window's first slot. -/
def syncStartReadSession (window : Window) (ctx : SyncCtx) (samp : Int) : ShdProg SyncCtx := do
  let n ← load32 (.startReadSession window) (nbWritesPtr samp)
  return { ctx with nbWrites := n }

def syncEndReadSession (ctx : SyncCtx) (samp : Int) : ShdProg (Int × SyncCtx) := do
  let n ← load32 .endReadSession (nbWritesPtr samp)
  if ctx.nbWrites ≠ n then
    return (-EFAULT, { ctx with nbWrites := -1 })
  else
    return (0, { ctx with nbWrites := -1 })

/-! ## Samples -/

def syncGetNbWrites (samp : Int) : ShdProg Int :=
  load32 .getNbWrites (nbWritesPtr samp)

def syncInvalidateSample (samp : Int) : ShdProg Unit :=
  store32 .invalidateSample (nbWritesPtr samp) (-1)

def syncIsSampleValid (samp : Int) : ShdProg Bool := do
  let n ← load32 .isSampleValid (nbWritesPtr samp)
  return n ≠ -1

/-! ## Revision of the section -/

def syncInvalidateSection (hdr : Int) (creation : Bool) : ShdProg Unit :=
  if creation then
    store32 .invalidateSection hdr 1
  else do
    let _ ← addAndFetch .invalidateSection hdr 1
    return ()

/-- C's `%` truncates: an odd value leaves `1` or `-1`. On success the value is
read once more from the section. -/
def syncUpdateGlobalRevisionNb (hdr : Int) : ShdProg Int := do
  let n ← addAndFetch .updateGlobalRevisionNb hdr 1
  if Int.tmod n 2 ≠ 0 then
    return -EFAULT
  else
    load32 .updateGlobalRevisionNb hdr

/-- The parity test compares the truncated remainder with `1`, so a negative
odd value passes it. The number is read again for the context. -/
def syncUpdateLocalRevisionNb (ctx : SyncCtx) (hdr : Int) : ShdProg (Int × SyncCtx) := do
  let n ← load32 .updateLocalRevisionNb hdr
  if Int.tmod n 2 = 1 then
    return (-EAGAIN, ctx)
  else
    let rev ← load32 .updateLocalRevisionNb hdr
    return (rev, { ctx with revision := rev })

def syncCheckRevisionNb (rev hdr : Int) : ShdProg Int := do
  let n ← load32 .checkRevisionNb hdr
  if rev = n then return 0 else return -ENODEV

/-! ## Indices -/

def syncGetLocalWriteIndex (ctx : SyncCtx) : Int := ctx.index

def syncGetLastWriteIndex (caller : Site) (hdr : Int) : ShdProg Int :=
  load32 caller (hdr + offsetofWriteIndex)

end Shdata.Core
