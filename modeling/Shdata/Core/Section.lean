/-
Shdata.Core.Section — `shd_hdr.c`, `shd_mdata_hdr.c`, `shd_section.c` and
`shd_ctx.c`.

The sizes and offsets of a section are `size_t` expressions over the header,
stated for any `Abi`. The `ptrdiff_t` fields of `struct shd_section_mapping`
are only ever added to a pointer, so they are kept as the `size_t` values
they convert back to.

A mapping starts at address 0: every address of the model is an offset from
the top of the section.
-/
import Shdata.Core.Search

namespace Shdata.Core

open Shdata.Conc Shdata.Bytes

def SHD_MAGIC_NUMBER : Nat := 0x65756821
def SHD_VERSION_MAJOR : Nat := 6
def SHD_VERSION_MINOR : Nat := 0

/-! ## Layout -/

/-- `shd_data_get_total_size`. -/
def dataGetTotalSize (A : Abi) (blobSize maxNbSamples : Int) : Int :=
  A.toSize (maxNbSamples * sampleGetSize A blobSize)

/-- `struct shd_section_mapping`. -/
structure SectionMapping where
  metadataOffset : Int
  metadataSize : Int
  dataOffset : Int
  dataSize : Int
  totalSize : Int
  hdrOffset : Int
  syncOffset : Int
  deriving DecidableEq, Repr

def getOffsets (A : Abi) (hdrInfo : HdrUserInfo) : SectionMapping :=
  let metadataOffset := alignUp A A.sizeofShdHdr
  let metadataSize : Int := hdrInfo.blobMetadataHdrSize.toNat
  let dataOffset := alignUp A (A.toSize (metadataOffset + metadataSize))
  let dataSize := dataGetTotalSize A hdrInfo.blobSize.toNat hdrInfo.maxNbSamples.toNat
  { metadataOffset := metadataOffset
    metadataSize := metadataSize
    dataOffset := dataOffset
    dataSize := dataSize
    totalSize := A.toSize (dataOffset + dataSize)
    hdrOffset := A.offsetofUserInfo
    syncOffset := A.offsetofSyncInfo }

/-- `get_mmap`, for a mapping at address 0. -/
def getMmap (offsets : SectionMapping) : SectionMap where
  sectionTop := 0
  headerTop := offsets.hdrOffset
  syncTop := offsets.syncOffset
  metadataBlobTop := offsets.metadataOffset
  dataTop := offsets.dataOffset
  totalSize := offsets.totalSize

/-- The size that a creation requests from the backend. -/
def sectionGetTotalSize (A : Abi) (hdrInfo : HdrUserInfo) : Int :=
  A.toSize (alignUp A A.sizeofShdHdr + alignUp A hdrInfo.blobMetadataHdrSize.toNat
    + dataGetTotalSize A hdrInfo.blobSize.toNat hdrInfo.maxNbSamples.toNat)

/-! ## Section header -/

/-- The header is rewritten only if it differs from the one in place; the
synchronization part always is. -/
def hdrWrite (hdrStart : Int) (userHdr : HdrUserInfo) : ShdProg Int := do
  let old ← memcpyOut (.hdrWrite userHdr) (hdrStart + lp64.offsetofUserInfo) sizeofUserInfo
  let ret ← (if old ≠ encHdrUserInfo userHdr then do
      memcpyIn (.hdrWrite userHdr) (hdrStart + lp64.offsetofUserInfo) (encHdrUserInfo userHdr)
      return -1
    else
      return 0 : ShdProg Int)
  let _ ← syncHdrInit (hdrStart + lp64.offsetofSyncInfo)
  memcpyIn (.hdrWrite userHdr) hdrStart (leBytes 8 SHD_MAGIC_NUMBER)
  memcpyIn (.hdrWrite userHdr) (hdrStart + 8) (leBytes 4 SHD_VERSION_MAJOR)
  memcpyIn (.hdrWrite userHdr) (hdrStart + 12) (leBytes 4 SHD_VERSION_MINOR)
  return ret

/-- `shd_hdr_read` of a mapped section (`hdr_start` not NULL). -/
def hdrReadMapped (hdrStart : Int) : ShdProg (Int × HdrUserInfo) := do
  let bs ← memcpyOut .hdrRead (hdrStart + lp64.offsetofUserInfo) sizeofUserInfo
  return (0, decHdrUserInfo bs)

/-- `shd_hdr_read` through the backend (`hdr_start` NULL). The callback's own
return code is not looked at. -/
def hdrReadBackend (inst : Nat) : ShdProg (Int × HdrUserInfo) := do
  let r ← callBackend (.hdrRead inst)
  let user := decHdrUserInfo (r.hdr.drop 16)
  if leNat (r.hdr.take 8) ≠ SHD_MAGIC_NUMBER then
    return (-EFAULT, user)
  else if leNat ((r.hdr.drop 8).take 4) ≠ SHD_VERSION_MAJOR then
    return (-EFAULT, user)
  else
    return (0, user)

/-- `hdr_start` is the address of the user info. -/
def hdrGetMdataSize (hdrStart : Int) : ShdProg Nat := do
  let bs ← memcpyOut .hdrGetMdataSize (hdrStart + 16) 8
  return leNat bs

/-! ## Blob metadata header -/

def mdataHdrWrite (mdataHdrStart : Int) (src : List UInt8) (mdataSize : Nat) : ShdProg Int := do
  let old ← memcpyOut .mdataHdrWrite mdataHdrStart mdataSize
  if old ≠ src.take mdataSize then
    memcpyIn .mdataHdrWrite mdataHdrStart (src.take mdataSize)
    return -1
  else
    return 0

def mdataHdrRead (mdataHdrStart : Int) (dstSize : Nat) : ShdProg (Int × List UInt8) := do
  let bs ← memcpyOut .mdataHdrRead mdataHdrStart dstSize
  return (0, bs)

/-! ## Sections -/

/-- `init_section_infos`. -/
def initSectionInfos (blobName : String) : ShdProg Int := do
  if '/' ∈ blobName.toList then
    return -EINVAL
  else
    let ret ← callBackend (.lookup blobName)
    if ret < 0 then return -ENOENT else return 0

def sectionCreate (blobName : String) (size : Int) : ShdProg CreateResult := do
  let ret ← initSectionInfos blobName
  if ret < 0 then
    return ⟨ret, 0, false⟩
  else
    callBackend (.create blobName size)

def sectionOpen (blobName : String) : ShdProg OpenResult := do
  let ret ← initSectionInfos blobName
  if ret < 0 then return ⟨ret, 0⟩ else callBackend (.openSection blobName)

def sectionLock (inst : Nat) : ShdProg Int := callBackend (.lock inst)

def sectionUnlock (inst : Nat) : ShdProg Int := callBackend (.unlock inst)

def sectionResize (inst : Nat) : ShdProg Int := callBackend (.resize inst)

def sectionFree (inst : Nat) : ShdProg Int := callBackend (.close inst)

/-- The end of `shd_section_mapping_new`: map the section and allocate its
`struct shd_section`. The result is the block and the mapping. -/
def sectionMap (inst : Nat) (hdrUser : HdrUserInfo) : ShdProg (Option (Nat × SectionMap)) := do
  let offsets := getOffsets lp64 hdrUser
  let ret ← callBackend (.getSectionStart offsets.totalSize inst)
  if ret < 0 then
    return none
  else
    let p ← calloc .map
    return p.map fun p => (p, getMmap offsets)

/-- `shd_section_mapping_new`. -/
def sectionMappingNew (inst : Nat) :
    Option HdrUserInfo → ShdProg (Option (Nat × SectionMap))
  | some hdrInfo => sectionMap inst hdrInfo
  | none => do
    let r ← hdrReadBackend inst
    if r.1 < 0 then return none else sectionMap inst r.2

/-- `shd_data_section_desc_new`: the second reading of the header, one load
for each field. -/
def dataSectionDescNew (map : SectionMap) (hdrInfo : Option HdrUserInfo) :
    ShdProg (Option (Nat × DataSectionDesc)) := do
  let p ← calloc .desc
  match p with
  | none => return none
  | some p =>
    match hdrInfo with
    | some h =>
      return some (p, { dataSectionStart := map.dataTop
                        blobSize := h.blobSize.toNat
                        nbSamples := h.maxNbSamples.toNat })
    | none => do
      let blobSize ← memcpyOut .dataSectionDescNew map.headerTop 8
      let nbSamples ← memcpyOut .dataSectionDescNew (map.headerTop + 8) 4
      return some (p, { dataSectionStart := map.dataTop
                        blobSize := leNat blobSize
                        nbSamples := leNat nbSamples })

/-! ## Contexts -/

/-- `shd_ctx_destroy`: the context may be NULL, and so may some of its
blocks. -/
def ctxDestroy (inst : Nat) : Option CtxAllocs → ShdProg Unit
  | none => return ()
  | some a => do
    let _ ← sectionFree inst
    free .syncCtx a.syncCtx
    free .map a.map
    free .blobName a.blobName
    free .desc a.desc
    free .window a.window
    free .ctx a.ctx

/-- The hint that the environment variable
`LIBSHDATA_CONFIG_INTERNAL_SEARCH_METHOD` selects. -/
def searchHint : Option String → RefSearchHint
  | some "NAIVE" => .naive
  | some "BINARY" => .binary
  | some "DATE" => .date
  | _ => .naive

/-- The error exit of `shd_ctx_new`. -/
def ctxNewError (inst : Nat) (a : CtxAllocs) : ShdProg (Option CtxAllocs) := do
  free .syncCtx a.syncCtx
  free .window a.window
  ctxDestroy inst (some a)
  return none

/-- The allocations of `shd_ctx_new`; `none` if it returned NULL. -/
def ctxNew (inst : Nat) : ShdProg (Option CtxAllocs) := do
  let ctx ← calloc .ctx
  match ctx with
  | none => return none
  | some c => do
    let name ← calloc .blobName
    let sync ← calloc .syncCtx
    let a : CtxAllocs :=
      { ctx := some c, blobName := name, syncCtx := sync, window := none, map := none,
        desc := none }
    if sync = none then
      ctxNewError inst a
    else
      let window ← calloc .window
      if window = none then ctxNewError inst a else return some { a with window := window }

/-- What `shd_ctx_mmap` returns: the code, the blocks of the context, and the
mapping with the description on success. -/
structure CtxMmap where
  ret : Int
  allocs : Option CtxAllocs
  parts : Option (SectionMap × DataSectionDesc)

/-- `shd_ctx_mmap`; the context may be NULL. -/
def ctxMmap (inst : Nat) (ctx : Option CtxAllocs) (hdrInfo : Option HdrUserInfo) :
    ShdProg CtxMmap :=
  match ctx with
  | none => return ⟨-EINVAL, none, none⟩
  | some a => do
    let map ← sectionMappingNew inst hdrInfo
    match map with
    | none => return ⟨-EFAULT, some a, none⟩
    | some (pm, map) => do
      let desc ← dataSectionDescNew map hdrInfo
      match desc with
      | none => return ⟨-EFAULT, some { a with map := some pm }, none⟩
      | some (pd, desc) =>
        return ⟨0, some { a with map := some pm, desc := some pd }, some (map, desc)⟩

/-- The context that a successful `shd_ctx_new` and `shd_ctx_mmap` leave. -/
def ctxInit (inst : Nat) (a : CtxAllocs) (map : SectionMap) (desc : DataSectionDesc)
    (env : Option String) : ShdCtx where
  instId := inst
  syncCtx := syncCtxInit
  desc := desc
  sectMmap := map
  window := windowIdle
  hint := searchHint env
  metadata := none
  allocs := a

end Shdata.Core
