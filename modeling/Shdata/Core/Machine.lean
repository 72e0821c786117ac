/-
Shdata.Core.Machine — the structures of the library, the operations its code
performs on what it shares, and their effect.

A context is private to its owner, so it is a plain value that the functions
take and return. What is shared is touched through `Op` only:

* the bytes of the section, addressed from its top (`read`, `write`,
  `addAndFetch`). A `memcpy` is one operation, and so is a load or a store of
  an `int`;
* the process heap (`calloc`, `free`) and the backend callbacks.

`samplePtr` records a call of `shd_data_get_sample_ptr`: it has no effect on
anything, and lets a run be asked which slot indices it addressed.

Each memory operation carries a `Site`, the function of the source that
performs it. A site has no effect either. It names the step, which is how a
condition on a run says "when the snapshot is taken".

Log messages are left out, and pointer arguments are values: the guards that
answer `-EINVAL` for a NULL pointer have nothing to test.
-/
import Shdata.Conc.Prog
import Shdata.Bytes.Memory
import Shdata.Core.Utils

namespace Shdata.Core

open Shdata.Conc Shdata.Bytes

/-! ## Structures -/

/-- `struct timespec`: two signed 64-bit values. -/
structure Timespec where
  tvSec : BitVec 64
  tvNsec : BitVec 64
  deriving DecidableEq, Repr

/-- `struct shd_sample_metadata`. -/
structure SampleMetadata where
  ts : Timespec
  exp : Timespec
  deriving DecidableEq, Repr

/-- `struct shd_hdr_user_info`. -/
structure HdrUserInfo where
  blobSize : UInt64
  maxNbSamples : UInt32
  rate : UInt32
  blobMetadataHdrSize : UInt64
  deriving DecidableEq, Repr

/-- `enum shd_search_method_t`. -/
inductive SearchMethod where
  | latest | closest | firstAfter | firstBefore | oldest
  deriving DecidableEq, Repr

/-- `enum shd_ref_sample_search_hint`. -/
inductive RefSearchHint where
  | naive | binary | date
  deriving DecidableEq, Repr, Inhabited

/-- `struct shd_sample_search`. -/
structure SampleSearch where
  date : Timespec
  method : SearchMethod
  nbValuesBeforeDate : UInt32
  nbValuesAfterDate : UInt32
  deriving DecidableEq, Repr

/-- `struct shd_search_result`. -/
structure SearchResult where
  nbMatches : Int
  rSampleIdx : Int
  deriving DecidableEq, Repr

/-- `struct shd_quantity`: a signed offset in the blob and a size. -/
structure Quantity where
  quantityOffset : Int
  quantitySize : Nat
  deriving DecidableEq, Repr

/-- `struct shd_data_section_desc`; the start is an offset from the section
top. -/
structure DataSectionDesc where
  dataSectionStart : Int
  blobSize : Int
  nbSamples : Int
  deriving DecidableEq, Repr, Inhabited

/-- `struct shd_window`. -/
structure Window where
  startIdx : Int
  refIdx : Int
  endIdx : Int
  nbMatches : Int
  deriving DecidableEq, Repr, Inhabited

/-- `struct shd_sync_ctx`, less the primitives: `add_and_fetch` is atomic. -/
structure SyncCtx where
  revision : Int
  index : Int
  prevIndex : Int
  nbWrites : Int
  deriving DecidableEq, Repr, Inhabited

/-- `struct shd_section`: the addresses of a mapping, as offsets. -/
structure SectionMap where
  sectionTop : Int
  headerTop : Int
  syncTop : Int
  metadataBlobTop : Int
  dataTop : Int
  totalSize : Int
  deriving DecidableEq, Repr, Inhabited

/-- `struct search_ctx`. -/
structure SearchCtx where
  tIndex : Int
  nbWritesTop : Int
  deriving DecidableEq, Repr

/-- The heap blocks that a context owns; `none` is NULL. -/
structure CtxAllocs where
  ctx : Option Nat
  blobName : Option Nat
  syncCtx : Option Nat
  window : Option Nat
  map : Option Nat
  desc : Option Nat
  deriving DecidableEq, Repr, Inhabited

/-- `struct shd_ctx`. The backend instance stands for `id`, and `metadata` is
the identity of the library-allocated array. -/
structure ShdCtx where
  instId : Nat
  syncCtx : SyncCtx
  desc : DataSectionDesc
  sectMmap : SectionMap
  window : Window
  hint : RefSearchHint
  metadata : Option Nat
  allocs : CtxAllocs
  deriving DecidableEq, Repr, Inhabited

/-! ## Bytes of the structures -/

def encTimespec (t : Timespec) : List UInt8 := leBytes 8 t.tvSec.toNat ++ leBytes 8 t.tvNsec.toNat

def decTimespec (bs : List UInt8) : Timespec where
  tvSec := BitVec.ofNat 64 (leNat (bs.take 8))
  tvNsec := BitVec.ofNat 64 (leNat ((bs.drop 8).take 8))

def encMetadata (md : SampleMetadata) : List UInt8 := encTimespec md.ts ++ encTimespec md.exp

theorem length_encMetadata (md : SampleMetadata) : (encMetadata md).length = 32 := by
  simp [encMetadata, encTimespec]

def decMetadata (bs : List UInt8) : SampleMetadata where
  ts := decTimespec (bs.take 16)
  exp := decTimespec (bs.drop 16)

def encHdrUserInfo (h : HdrUserInfo) : List UInt8 :=
  leBytes 8 h.blobSize.toNat ++ (leBytes 4 h.maxNbSamples.toNat ++
    (leBytes 4 h.rate.toNat ++ leBytes 8 h.blobMetadataHdrSize.toNat))

def decHdrUserInfo (bs : List UInt8) : HdrUserInfo where
  blobSize := UInt64.ofNat (leNat (bs.take 8))
  maxNbSamples := UInt32.ofNat (leNat ((bs.drop 8).take 4))
  rate := UInt32.ofNat (leNat ((bs.drop 12).take 4))
  blobMetadataHdrSize := UInt64.ofNat (leNat ((bs.drop 16).take 8))

/-- `sizeof(struct shd_sample_metadata)`. -/
def sizeofMetadata : Nat := 32

/-- `sizeof(struct shd_hdr_user_info)`. -/
def sizeofUserInfo : Nat := 24

/-- `offsetof(struct shd_sample, sync.nb_writes)`. -/
def offsetofNbWrites : Int := 32

/-- `offsetof(struct shd_sync_hdr, write_index)`; `revision.nb_creations` comes
first. -/
def offsetofWriteIndex : Int := 4

/-- `offsetof(struct shd_sync_hdr, nb_ongoing_writes)`. -/
def offsetofNbOngoing : Int := 8

/-! ## Operations -/

/-- The function of the source that performs a memory operation. The snapshot
and the row copies say what they are taken for, a load of the last write
index which function asked for it, and a write of the section header which
header it is. -/
inductive Site where
  | hdrInit
  | startWriteSession
  | getNextWriteIndex
  | startSampleWrite
  | endWriteSession
  | startReadSession (window : Window)
  | endReadSession
  | getNbWrites
  | invalidateSample
  | isSampleValid
  | invalidateSection
  | updateGlobalRevisionNb
  | updateLocalRevisionNb
  | checkRevisionNb
  | dataFind
  | searchStart
  | searchEnd
  | dataClearSection
  | dataWriteMetadata
  | dataWriteQuantity
  | dataReadQuantitySample (row : Nat)
  | dataSectionDescNew
  | windowRead (row : Nat)
  | sampleTimestampCmp
  | sampleClosestTimestamp
  | hdrWrite (user : HdrUserInfo)
  | hdrRead
  | hdrGetMdataSize
  | mdataHdrWrite
  | mdataHdrRead
  deriving DecidableEq, Repr

/-- What a heap block is allocated for. -/
inductive Alloc where
  | ctx | blobName | syncCtx | window | map | desc | rev | metadata
  deriving DecidableEq, Repr

/-- The platform's section lookup and the callbacks of
`struct shd_section_backend`. -/
inductive BackendCall where
  | lookup (blobName : String)
  | create (blobName : String) (size : Int)
  | openSection (blobName : String)
  | close (inst : Nat)
  | hdrRead (inst : Nat)
  | getSectionStart (size : Int) (inst : Nat)
  | resize (inst : Nat)
  | lock (inst : Nat)
  | unlock (inst : Nat)
  deriving DecidableEq, Repr

/-- A return code, and what the callback stores through its output
parameters. -/
structure CreateResult where
  ret : Int
  inst : Nat
  firstCreation : Bool
  deriving DecidableEq, Repr

structure OpenResult where
  ret : Int
  inst : Nat
  deriving DecidableEq, Repr

structure HdrReadResult where
  ret : Int
  hdr : List UInt8
  deriving DecidableEq, Repr

@[reducible] def BackendCall.Resp : BackendCall → Type
  | .create _ _ => CreateResult
  | .openSection _ => OpenResult
  | .hdrRead _ => HdrReadResult
  | _ => Int

inductive Op where
  | read (site : Site) (a : Int) (len : Nat)
  | write (site : Site) (a : Int) (src : List UInt8)
  | addAndFetch (site : Site) (a : Int) (v : Int)
  | samplePtr (desc : DataSectionDesc) (index : Int)
  | calloc (what : Alloc)
  | free (what : Alloc) (p : Option Nat)
  | backend (call : BackendCall)
  deriving DecidableEq, Repr

@[reducible] def Op.Resp : Op → Type
  | .read _ _ _ => List UInt8
  | .write _ _ _ => Unit
  | .addAndFetch _ _ _ => Int
  | .samplePtr _ _ => Int
  | .calloc _ => Option Nat
  | .free _ _ => Unit
  | .backend call => call.Resp

/-- A program of the library. -/
abbrev ShdProg (α : Type) := Prog Op.Resp α

/-! ## The machine -/

/-- The process heap: the next fresh block, the allocations that fail, and
the blocks freed so far. -/
structure Heap where
  next : Nat
  oom : Nat → Bool
  freed : List (Alloc × Nat)

/-- What the contexts of one section share: its bytes, the heap and the state
of the backend. -/
structure World (Ω : Type) where
  mem : Mem
  heap : Heap
  os : Ω

/-- The effect of the callbacks, for each caller, on the section and on the
backend's own state. -/
structure Backend (Ω : Type) where
  call : Nat → (c : BackendCall) → Mem × Ω → (Mem × Ω) × c.Resp

/-- `shd_sample_get_size`. -/
def sampleGetSize (A : Abi) (blobSize : Int) : Int := alignUp A (A.offsetofBlob + blobSize)

/-- `shd_data_get_sample_ptr`: the index converts to `size_t` for the
product. -/
def dataGetSamplePtr (desc : DataSectionDesc) (index : Int) : Int :=
  toU64 (desc.dataSectionStart + toU64 index * sampleGetSize lp64 desc.blobSize)

def Heap.calloc (h : Heap) : Heap × Option Nat :=
  ({ h with next := h.next + 1 }, if h.oom h.next then none else some h.next)

def Heap.free (h : Heap) (what : Alloc) : Option Nat → Heap
  | none => h
  | some p => { h with freed := h.freed ++ [(what, p)] }

variable {Ω : Type}

/-- The machine of the library over a backend. Threads are numbered. -/
def machine (B : Backend Ω) : Machine Op.Resp Nat (World Ω) where
  step t o w := match o with
    | .read _ a len => (w, w.mem.read a len)
    | .write _ a src => ({ w with mem := w.mem.write a src }, ())
    | .addAndFetch _ a v =>
        ({ w with mem := w.mem.write a (encI32 (w.mem.i32 a + v)) }, toI32 (w.mem.i32 a + v))
    | .samplePtr desc index => (w, dataGetSamplePtr desc index)
    | .calloc _ => ({ w with heap := w.heap.calloc.1 }, w.heap.calloc.2)
    | .free what p => ({ w with heap := w.heap.free what p }, ())
    | .backend c =>
        ({ w with mem := (B.call t c (w.mem, w.os)).1.1, os := (B.call t c (w.mem, w.os)).1.2 },
          (B.call t c (w.mem, w.os)).2)

/-! ## Primitive programs -/

def perform (o : Op) : ShdProg o.Resp := Prog.perform o

def load32 (site : Site) (a : Int) : ShdProg Int := do
  let bs ← perform (.read site a 4)
  return decI32 bs

theorem ensures_load32 {α : Type} {A : (o : Op) → o.Resp → Prop} {P : Op → Prop} {Q : α → Prop}
    {site : Site} {a : Int} {f : Int → ShdProg α} (ho : P (.read site a 4))
    (h : ∀ bs, A (.read site a 4) bs → (f (decI32 bs)).Ensures A P Q) :
    (load32 site a >>= f).Ensures A P Q := ⟨ho, h⟩

def store32 (site : Site) (a v : Int) : ShdProg Unit := perform (.write site a (encI32 v))

def addAndFetch (site : Site) (a v : Int) : ShdProg Int := perform (.addAndFetch site a v)

def memcpyOut (site : Site) (a : Int) (len : Nat) : ShdProg (List UInt8) :=
  perform (.read site a len)

def memcpyIn (site : Site) (a : Int) (src : List UInt8) : ShdProg Unit :=
  perform (.write site a src)

def getSamplePtr (desc : DataSectionDesc) (index : Int) : ShdProg Int :=
  perform (.samplePtr desc index)

def calloc (what : Alloc) : ShdProg (Option Nat) := perform (.calloc what)

def free (what : Alloc) (p : Option Nat) : ShdProg Unit := perform (.free what p)

def callBackend (c : BackendCall) : ShdProg c.Resp := perform (.backend c)

end Shdata.Core
