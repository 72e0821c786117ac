/-
Shdata.Core.Api — `shd.c`, the functions of `libshdata.h`.
-/
import Shdata.Core.Data

namespace Shdata.Core

open Shdata.Conc Shdata.Bytes

/-! ## Creation and opening -/

/-- The error exit of `shd_create`: a context that exists is destroyed, and
the section is closed when the last return code was not negative. -/
def createError (inst : Nat) (ret : Int) (ctx : Option CtxAllocs) :
    ShdProg (Option ShdCtx) := do
  ctxDestroy inst ctx
  if ret ≥ 0 then
    let _ ← sectionFree inst
    return none
  else
    return none

/-- The part of `shd_create` between the mapping and the unlock: invalidate
the section, write its headers, clear its data, publish the revision. -/
def createPublish (map : SectionMap) (desc : DataSectionDesc) (hdrInfo : HdrUserInfo)
    (blobMetadataHdr : List UInt8) (firstCreation : Bool) : ShdProg Int := do
  syncInvalidateSection map.syncTop firstCreation
  -- Write section and metadata headers
  let _ ← hdrWrite map.sectionTop hdrInfo
  let _ ← mdataHdrWrite map.metadataBlobTop blobMetadataHdr hdrInfo.blobMetadataHdrSize.toNat
  dataClearSection desc
  syncUpdateGlobalRevisionNb map.syncTop

/-- `shd_create`; `env` is the environment variable that `shd_ctx_new`
reads. `blob_metadata_hdr` points to `blob_metadata_hdr_size` bytes. -/
def create (blobName : String) (hdrInfo : HdrUserInfo) (blobMetadataHdr : List UInt8)
    (env : Option String) : ShdProg (Option ShdCtx) := do
  let sectionSize := sectionGetTotalSize lp64 hdrInfo
  let c ← sectionCreate blobName sectionSize
  if c.ret < 0 then
    createError c.inst c.ret none
  else
    let ret ← sectionLock c.inst
    if ret < 0 then
      createError c.inst ret none
    else
      let resized ← sectionResize c.inst
      if resized < 0 then
        createError c.inst ret none
      else
        let ctx ← ctxNew c.inst
        let m ← ctxMmap c.inst ctx (some hdrInfo)
        match m.allocs, m.parts with
        | some a, some (map, desc) =>
          let revNb ← createPublish map desc hdrInfo blobMetadataHdr c.firstCreation
          if revNb < 0 then
            createError c.inst m.ret (some a)
          else
            let ret ← sectionUnlock c.inst
            if ret < 0 then
              createError c.inst ret (some a)
            else
              return some (ctxInit c.inst a map desc env)
        | allocs, _ => createError c.inst m.ret allocs

/-- The error exit of `shd_open`. -/
def openError (inst : Nat) (rev : Option Nat) (ctx : Option CtxAllocs) :
    ShdProg (Option (ShdCtx × Int)) := do
  free .rev rev
  ctxDestroy inst ctx
  return none

/-- `shd_open`: on success the context and the revision stored in `*rev`. -/
def openCtx (blobName : String) (env : Option String) : ShdProg (Option (ShdCtx × Int)) := do
  let o ← sectionOpen blobName
  if o.ret < 0 then
    openError o.inst none none
  else
    let ctx ← ctxNew o.inst
    let rev ← calloc .rev
    if rev = none then
      openError o.inst none ctx
    else
      let m ← ctxMmap o.inst ctx none
      match m.allocs, m.parts with
      | some a, some (map, desc) =>
        let r ← syncUpdateLocalRevisionNb syncCtxInit map.syncTop
        if r.1 = -EAGAIN then
          openError o.inst rev (some a)
        else
          return some ({ ctxInit o.inst a map desc env with syncCtx := r.2 }, r.1)
      | allocs, _ => openError o.inst rev allocs

/-- `shd_close`; `rev` is the block of the revision that `shd_open` allocated, NULL for a
producer. -/
def closeCtx (ctx : ShdCtx) (rev : Option Nat) : ShdProg Int := do
  free .rev rev
  ctxDestroy ctx.instId (some ctx.allocs)
  return 0

/-! ## Writing -/

def newSample (ctx : ShdCtx) (metadata : SampleMetadata) : ShdProg (Int × ShdCtx) := do
  let r ← dataReserveWrite ctx
  if r.1 < 0 then
    return r
  else
    let ret ← dataWriteMetadata r.2 metadata
    return (ret, r.2)

def writeQuantity (ctx : ShdCtx) (quantity : Quantity) (src : List UInt8) : ShdProg Int :=
  dataWriteQuantity ctx quantity src

def commitSample (ctx : ShdCtx) : ShdProg (Int × ShdCtx) := dataEndWrite ctx

def writeNewBlob (ctx : ShdCtx) (src : List UInt8) (size : Nat) (metadata : SampleMetadata) :
    ShdProg (Int × ShdCtx) := do
  -- Setup a fake quantity which covers the whole blob
  let fakeQuantity : Quantity := { quantityOffset := 0, quantitySize := size }
  let r ← newSample ctx metadata
  if r.1 < 0 then
    return r
  else
    let ret ← writeQuantity r.2 fakeQuantity src
    if ret < 0 then return (ret, r.2) else commitSample r.2

/-! ## Reading -/

/-- What `shd_select_samples` returns and stores. -/
structure Selection where
  ret : Int
  metadata : List SampleMetadata
  result : SearchResult
  ctx : ShdCtx

/-- `result` is the caller's structure before the call. -/
def selectSamples (F : Futils) (ctx : ShdCtx) (search : SampleSearch) (result : SearchResult) :
    ShdProg Selection := do
  let r ← dataFind F ctx search
  if r.1 < 0 then
    return ⟨r.1, [], result, r.2⟩
  else
    let m ← dataReadMetadata r.2
    if m.1 < 0 then
      return ⟨m.1, [], { result with nbMatches := r.1 }, m.2.2⟩
    else
      return ⟨0, m.2.1, { nbMatches := r.1, rSampleIdx := m.1 }, m.2.2⟩

/-- `shd_read_quantity`; without a quantity the whole blob is read. -/
def readQuantity (ctx : ShdCtx) (quantity : Option Quantity) (dstSize : Nat) :
    ShdProg (Int × List (List UInt8)) :=
  match quantity with
  | none => dataReadBlob ctx dstSize
  | some q => dataReadQuantity ctx q dstSize

/-- What `shd_read_from_sample` returns and stores. -/
structure SampleRead where
  ret : Int
  rows : List QuantityRow
  ctx : ShdCtx

/-- `shd_read_from_sample`. `quantity` has `n_quantities` entries; without any,
the whole blob is read to the first buffer. -/
def readFromSample (F : Futils) (ctx : ShdCtx) (search : SampleSearch)
    (quantity : List Quantity) (sizes : List Nat) : ShdProg SampleRead := do
  if 0 < search.nbValuesAfterDate.toNat ∨ 0 < search.nbValuesBeforeDate.toNat then
    return ⟨-EINVAL, [], ctx⟩
  else
    let r ← dataFind F ctx search
    if r.1 < 0 then
      return ⟨r.1, [], r.2⟩
    else
      let qs := if quantity.length > 0 then quantity
        else [{ quantityOffset := 0, quantitySize := r.2.desc.blobSize.toNat }]
      let q ← dataReadQuantitySample r.2 (qs.zip sizes)
      return ⟨q.1, q.2, r.2⟩

def endRead (ctx : ShdCtx) (rev : Int) : ShdProg (Int × ShdCtx) := do
  let r ← dataCheckValidity ctx rev
  if r.1 < 0 then
    -- a changed revision ends the read, but the code is still returned
    if r.1 = -ENODEV then
      let e ← dataEndRead r.2
      return (r.1, e.2)
    else
      return r
  else
    dataEndRead r.2

/-- `shd_read_section_hdr`: on success the header info. -/
def readSectionHdr (ctx : ShdCtx) (rev : Int) : ShdProg (Int × Option HdrUserInfo) := do
  let ret ← syncCheckRevisionNb rev ctx.sectMmap.syncTop
  if ret < 0 then
    return (ret, none)
  else
    let r ← hdrReadMapped ctx.sectMmap.sectionTop
    return (r.1, some r.2)

/-- `shd_read_blob_metadata_hdr`: on success the bytes copied. -/
def readBlobMetadataHdr (ctx : ShdCtx) (size : Nat) (rev : Int) :
    ShdProg (Int × Option (List UInt8)) := do
  let mdataSize ← hdrGetMdataSize ctx.sectMmap.headerTop
  if size ≠ mdataSize then
    return (-ENOMEM, none)
  else
    let ret ← syncCheckRevisionNb rev ctx.sectMmap.syncTop
    if ret < 0 then
      return (ret, none)
    else
      let r ← mdataHdrRead ctx.sectMmap.metadataBlobTop size
      return (r.1, some r.2)

end Shdata.Core
