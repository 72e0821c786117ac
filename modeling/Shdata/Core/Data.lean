/-
Shdata.Core.Data — `shd_data.c`.

A destination buffer is the list of the rows copied to it. The arguments
`src` and `dst_size` are the source bytes and the size of the destination.
-/
import Shdata.Core.Section

namespace Shdata.Core

open Shdata.Conc Shdata.Bytes

/-! ## Clearing -/

/-- The loop of `shd_data_clear_section`, from slot `i` on for `n` more slots.
The unsigned counter converts to an `int` index. -/
def dataClearLoop (desc : DataSectionDesc) : Nat → Int → ShdProg Unit
  | 0, _ => return ()
  | n + 1, i => do
    let samp ← getSamplePtr desc (toI32 i)
    syncInvalidateSample samp
    dataClearLoop desc n (i + 1)

def dataClearSection (desc : DataSectionDesc) : ShdProg Unit := do
  memcpyIn .dataClearSection desc.dataSectionStart
    (List.replicate (dataGetTotalSize lp64 desc.blobSize desc.nbSamples).toNat 0)
  dataClearLoop desc desc.nbSamples.toNat 0

/-! ## Writing -/

def dataReserveWrite (ctx : ShdCtx) : ShdProg (Int × ShdCtx) := do
  let ret ← syncStartWriteSession ctx.syncCtx ctx.sectMmap.syncTop
  if ret < 0 then
    return (ret, ctx)
  else
    let index ← syncGetNextWriteIndex ctx.sectMmap.syncTop ctx.desc
    let currSample ← getSamplePtr ctx.desc index
    let r ← syncStartSampleWrite ctx.syncCtx ctx.sectMmap.syncTop currSample ctx.desc
    return (r.1, { ctx with syncCtx := r.2 })

def dataWriteMetadata (ctx : ShdCtx) (metadata : SampleMetadata) : ShdProg Int := do
  let index := syncGetLocalWriteIndex ctx.syncCtx
  if index = -1 then
    return -EPERM
  else
    let currSample ← getSamplePtr ctx.desc index
    sampleWrite .dataWriteMetadata currSample 0 (encMetadata metadata)

/-- `src` points to at least `quantity_size` bytes. -/
def dataWriteQuantity (ctx : ShdCtx) (quantity : Quantity) (src : List UInt8) : ShdProg Int := do
  let index := syncGetLocalWriteIndex ctx.syncCtx
  if index = -1 then
    return -EPERM
  else
    let currSample ← getSamplePtr ctx.desc index
    sampleWrite .dataWriteQuantity currSample (lp64.offsetofBlob + quantity.quantityOffset)
      (src.take quantity.quantitySize)

def dataEndWrite (ctx : ShdCtx) : ShdProg (Int × ShdCtx) := do
  let index := syncGetLocalWriteIndex ctx.syncCtx
  if index = -1 then
    return (-EPERM, ctx)
  else
    let r ← syncEndWriteSession ctx.syncCtx ctx.sectMmap.syncTop
    return (r.1, { ctx with syncCtx := r.2 })

/-! ## Searching -/

/-- The bound on the request is checked in `uint32_t`. -/
def dataFind (F : Futils) (ctx : ShdCtx) (search : SampleSearch) : ShdProg (Int × ShdCtx) := do
  let tIndex ← syncGetLastWriteIndex .dataFind ctx.sectMmap.syncTop
  if tIndex = -1 then
    return (-EAGAIN, ctx)
  else if ctx.desc.nbSamples <
      toU32 ((search.nbValuesAfterDate.toNat : Int) + search.nbValuesBeforeDate.toNat + 1) then
    return (-EINVAL, ctx)
  else
    let r ← windowSet F ctx.window ctx.sectMmap.syncTop search ctx.desc ctx.hint
    let ctx := { ctx with window := r.2 }
    if r.1 < 0 then
      return (r.1, ctx)
    else
      let wstart ← getSamplePtr ctx.desc ctx.window.startIdx
      let sync ← syncStartReadSession ctx.window ctx.syncCtx wstart
      return (ctx.window.nbMatches, { ctx with syncCtx := sync })

/-! ## Reading -/

/-- On success: the index of the reference row and the metadata rows. -/
def dataReadMetadata (ctx : ShdCtx) : ShdProg (Int × List SampleMetadata × ShdCtx) := do
  let p ← calloc .metadata
  match p with
  | none => return (-ENOMEM, [], ctx)
  | some p =>
    let rows ← windowRead ctx.window ctx.desc sizeofMetadata 0
    return (toI32 (intervalBetween ctx.window.startIdx ctx.window.refIdx ctx.desc.nbSamples),
      rows.map decMetadata, { ctx with metadata := some p })

/-- The code and the rows of a copy of `dataSize` bytes at `sOffset` of every
sample of the window. The required size is a `size_t` product. -/
def dataReadRows (ctx : ShdCtx) (dataSize : Nat) (sOffset : Int) (dstSize : Nat) :
    ShdProg (Int × List (List UInt8)) :=
  if ctx.window.nbMatches < 0 then return (-EPERM, [])
  else if (dstSize : Int) < toU64 (dataSize * toU64 ctx.window.nbMatches) then
    return (-EINVAL, [])
  else do
    let rows ← windowRead ctx.window ctx.desc dataSize sOffset
    return (rows.length, rows)

def dataReadBlob (ctx : ShdCtx) (dstSize : Nat) : ShdProg (Int × List (List UInt8)) :=
  dataReadRows ctx ctx.desc.blobSize.toNat lp64.offsetofBlob dstSize

def dataReadQuantity (ctx : ShdCtx) (quantity : Quantity) (dstSize : Nat) :
    ShdProg (Int × List (List UInt8)) :=
  dataReadRows ctx quantity.quantitySize (lp64.offsetofBlob + quantity.quantityOffset) dstSize

/-- What a quantity read leaves in one `struct shd_quantity_sample`: the bytes
copied to its buffer and its metadata, if it was read. -/
abbrev QuantityRow := Option (List UInt8 × SampleMetadata)

/-- The loop over the quantities; each comes with the size of its buffer. The
copy takes as many bytes as the buffer has. -/
def dataReadQuantitySampleLoop (curr : Int) :
    List (Quantity × Nat) → ShdProg (Int × List QuantityRow)
  | [] => return (0, [])
  | (q, size) :: rest =>
    if q.quantitySize ≤ size then do
      let bs ← sampleRead (.dataReadQuantitySample 0) curr
        (q.quantityOffset + lp64.offsetofBlob) size
      let md ← sampleRead (.dataReadQuantitySample 0) curr 0 sizeofMetadata
      let r ← dataReadQuantitySampleLoop curr rest
      return (r.1 + 1, some (bs, decMetadata md) :: r.2)
    else do
      let r ← dataReadQuantitySampleLoop curr rest
      return (r.1, none :: r.2)

def dataReadQuantitySample (ctx : ShdCtx) (quantities : List (Quantity × Nat)) :
    ShdProg (Int × List QuantityRow) :=
  if ctx.window.nbMatches < 0 then return (-EPERM, [])
  else if ctx.window.nbMatches ≠ 1 then return (-EINVAL, [])
  else do
    let curr ← getSamplePtr ctx.desc ctx.window.refIdx
    dataReadQuantitySampleLoop curr quantities

def dataCheckValidity (ctx : ShdCtx) (rev : Int) : ShdProg (Int × ShdCtx) := do
  if ctx.window.startIdx ≥ 0 then
    let wStart ← getSamplePtr ctx.desc ctx.window.startIdx
    let r ← syncEndReadSession ctx.syncCtx wStart
    let ctx := { ctx with syncCtx := r.2 }
    if r.1 < 0 then
      return (r.1, ctx)
    else
      let ret ← syncCheckRevisionNb rev ctx.sectMmap.syncTop
      return (ret, ctx)
  else
    return (-EPERM, ctx)

/-- The pointer keeps its value after the `free`. -/
def dataEndRead (ctx : ShdCtx) : ShdProg (Int × ShdCtx) := do
  let ctx := { ctx with window := (windowReset ctx.window).2 }
  free .metadata ctx.metadata
  return (0, ctx)

end Shdata.Core
