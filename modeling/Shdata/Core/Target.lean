/-
Shdata.Core.Target — the layout of a section for any data model.

The memory of `Core` is the one of a 64-bit target. What a producer writes
and what a consumer derives from it depend on the data model too: the width
of `size_t`, the place of the header fields and of the slot counters. The
functions of `Core` that they involve are stated here for any `Target`, under
the same names.
-/
import Shdata.Core.Api

namespace Shdata.Core

open Shdata.Conc Shdata.Bytes

/-! ## Data models -/

/-- An `Abi` with `offsetof(struct shd_sample, sync.nb_writes)`. -/
structure Target extends Abi where
  offsetofNbWrites : Int

def lp64Target : Target := { lp64 with offsetofNbWrites := offsetofNbWrites }

/-- 32-bit targets: 4-byte `size_t`, `time_t` and pointers. -/
def ilp32Target : Target where
  word := 32
  sizeofShdHdr := 44
  offsetofUserInfo := 16
  offsetofSyncInfo := 32
  offsetofBlob := 20
  offsetofNbWrites := 16

namespace Target

variable (T : Target)

/-- `sizeof(size_t)`. -/
def wordBytes : Nat := T.word / 8

/-- What every target has: in `struct shd_hdr` the magic number and the version, then
the user info (two `size_t` around two `uint32_t`), the synchronization part
and perhaps some padding; in `struct shd_sample` an aligned counter before the
blob. -/
structure Ok : Prop where
  word : T.word = 32 ∨ T.word = 64
  user : T.offsetofUserInfo = 16
  sync : T.offsetofSyncInfo = 24 + 2 * T.wordBytes
  hdr_ge : T.offsetofSyncInfo + 12 ≤ T.sizeofShdHdr
  hdr_le : T.sizeofShdHdr ≤ 64
  blob : 0 ≤ T.offsetofBlob
  nbWrites : 0 ≤ T.offsetofNbWrites
  nbWrites_le : T.offsetofNbWrites + 4 ≤ T.offsetofBlob
  nbWrites_dvd : 4 ∣ T.offsetofNbWrites

/-- `sizeof(struct shd_hdr_user_info)`. -/
def sizeofUserInfo : Nat := 8 + 2 * T.wordBytes

def encHdrUserInfo (h : HdrUserInfo) : List UInt8 :=
  leBytes T.wordBytes h.blobSize.toNat ++ (leBytes 4 h.maxNbSamples.toNat ++
    (leBytes 4 h.rate.toNat ++ leBytes T.wordBytes h.blobMetadataHdrSize.toNat))

def decHdrUserInfo (bs : List UInt8) : HdrUserInfo where
  blobSize := UInt64.ofNat (leNat (bs.take T.wordBytes))
  maxNbSamples := UInt32.ofNat (leNat ((bs.drop T.wordBytes).take 4))
  rate := UInt32.ofNat (leNat ((bs.drop (T.wordBytes + 4)).take 4))
  blobMetadataHdrSize := UInt64.ofNat (leNat ((bs.drop (T.wordBytes + 8)).take T.wordBytes))

/-! ## Writing -/

def hdrWrite (hdrStart : Int) (userHdr : HdrUserInfo) : ShdProg Int := do
  let old ← memcpyOut (.hdrWrite userHdr) (hdrStart + T.offsetofUserInfo) T.sizeofUserInfo
  let ret ← (if old ≠ T.encHdrUserInfo userHdr then do
      memcpyIn (.hdrWrite userHdr) (hdrStart + T.offsetofUserInfo) (T.encHdrUserInfo userHdr)
      return -1
    else
      return 0 : ShdProg Int)
  let _ ← syncHdrInit (hdrStart + T.offsetofSyncInfo)
  memcpyIn (.hdrWrite userHdr) hdrStart (leBytes 8 SHD_MAGIC_NUMBER)
  memcpyIn (.hdrWrite userHdr) (hdrStart + 8) (leBytes 4 SHD_VERSION_MAJOR)
  memcpyIn (.hdrWrite userHdr) (hdrStart + 12) (leBytes 4 SHD_VERSION_MINOR)
  return ret

def dataGetSamplePtr (desc : DataSectionDesc) (index : Int) : Int :=
  T.toSize (desc.dataSectionStart + T.toSize index * sampleGetSize T.toAbi desc.blobSize)

def dataClearLoop (desc : DataSectionDesc) : Nat → Int → ShdProg Unit
  | 0, _ => return ()
  | n + 1, i => do
    let samp := T.dataGetSamplePtr desc (toI32 i)
    store32 .invalidateSample (T.toSize (samp + T.offsetofNbWrites)) (-1)
    dataClearLoop desc n (i + 1)

def dataClearSection (desc : DataSectionDesc) : ShdProg Unit := do
  memcpyIn .dataClearSection desc.dataSectionStart
    (List.replicate (dataGetTotalSize T.toAbi desc.blobSize desc.nbSamples).toNat 0)
  T.dataClearLoop desc desc.nbSamples.toNat 0

/-- The part of `shd_create` that writes to the section. -/
def createPublish (map : SectionMap) (desc : DataSectionDesc) (hdrInfo : HdrUserInfo)
    (blobMetadataHdr : List UInt8) (firstCreation : Bool) : ShdProg Int := do
  syncInvalidateSection map.syncTop firstCreation
  let _ ← T.hdrWrite map.sectionTop hdrInfo
  let _ ← mdataHdrWrite map.metadataBlobTop blobMetadataHdr hdrInfo.blobMetadataHdrSize.toNat
  T.dataClearSection desc
  syncUpdateGlobalRevisionNb map.syncTop

/-! ## Layouts -/

/-- What `shd_ctx_mmap` computes: the offsets and the section description. -/
structure Layout where
  offsets : SectionMapping
  desc : DataSectionDesc
  deriving DecidableEq, Repr

/-- The layout of a producer, from its `hdr_info` argument. -/
def producerLayout (hdrInfo : HdrUserInfo) : Layout where
  offsets := getOffsets T.toAbi hdrInfo
  desc :=
    { dataSectionStart := (getMmap (getOffsets T.toAbi hdrInfo)).dataTop
      blobSize := hdrInfo.blobSize.toNat
      nbSamples := hdrInfo.maxNbSamples.toNat }

/-- The layout of a consumer, from the header found in memory: the offsets come
from the copy that the backend makes of it, the description from two loads
through the mapping. -/
def consumerLayout (m : Mem) : Layout :=
  let srcHdrUser := T.decHdrUserInfo (m.read T.offsetofUserInfo T.sizeofUserInfo)
  let map := getMmap (getOffsets T.toAbi srcHdrUser)
  { offsets := getOffsets T.toAbi srcHdrUser
    desc :=
      { dataSectionStart := map.dataTop
        blobSize := leNat (m.read map.headerTop T.wordBytes)
        nbSamples := leNat (m.read (map.headerTop + T.wordBytes) 4) } }

end Target

end Shdata.Core
