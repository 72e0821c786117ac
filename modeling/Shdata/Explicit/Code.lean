/-
Shdata.Explicit.Code — the library with the remainders of the ring helpers as
operations.

`index_n_after` and `index_n_before` of `shd_utils.h` end in a `% size`. In
`Shdata.Core` they are functions on the integers, so a run does not show
their remainders. Here a remainder is an operation of a second kind, and a
program is a `RingProg`. The functions that reach a helper are written again
in the order in which the source evaluates them; everything else they call
is a program of `Shdata.Core`.

A theorem `f_answer` beside each function says that with the remainders put
in it is the function of `Shdata.Core`.
-/
import Shdata.Conc.Effects
import Shdata.Producer.Runs
import Shdata.Consumer.Addressed

namespace Shdata.Explicit

open Shdata.Conc Shdata.Bytes Shdata.Core

/-! ## Remainders -/

/-- `dividend % size` of two `uint32_t` values. -/
structure Modulo where
  dividend : Int
  size : Int
  deriving DecidableEq, Repr

/-- A remainder answers with a number. -/
@[reducible] def Modulo.Resp (_ : Modulo) : Type := Int

/-- A program of the library that shows its remainders. -/
abbrev RingProg (α : Type) := Prog (Sum.elim Op.Resp Modulo.Resp) α

/-- The value of a remainder, where C gives it one. -/
def remainder (m : Modulo) : m.Resp := m.dividend % m.size

/-- The remainder as an operation. What answers it may be anything, also for `size = 0`. -/
def modulo (dividend size : Int) : RingProg Int := Prog.perform (Sum.inr ⟨dividend, size⟩)

/-! ## `shd_utils.h` -/

/-- `index_n_after`: the sum of two `int` values converts before the remainder. -/
def indexNAfter (idx n size : Int) : RingProg Int := do
  let r ← modulo (toU32 (idx + n)) size
  return toI32 r

/-- `index_n_before`: `size` makes the sum unsigned. -/
def indexNBefore (idx n size : Int) : RingProg Int := do
  let r ← modulo (toU32 (idx + size - n)) size
  return toI32 r

def indexNext (idx size : Int) : RingProg Int := indexNAfter idx 1 size

def indexPrevious (idx size : Int) : RingProg Int := indexNBefore idx 1 size

/-- With `remainder` put in, the helpers are those of `Shdata.Core.Utils`. -/
@[simp] theorem indexNAfter_answer (idx n size : Int) :
    (indexNAfter idx n size).answer remainder = .ret (Core.indexNAfter idx n size) := rfl

@[simp] theorem indexNBefore_answer (idx n size : Int) :
    (indexNBefore idx n size).answer remainder = .ret (Core.indexNBefore idx n size) := rfl

@[simp] theorem indexNext_answer (idx size : Int) :
    (indexNext idx size).answer remainder = .ret (Core.indexNext idx size) := rfl

@[simp] theorem indexPrevious_answer (idx size : Int) :
    (indexPrevious idx size).answer remainder = .ret (Core.indexPrevious idx size) := rfl

/-! ## `shd_sync.c` -/

def syncGetNextWriteIndex (hdr : Int) (desc : DataSectionDesc) : RingProg Int := do
  let writeIndex ← (load32 .getNextWriteIndex (hdr + offsetofWriteIndex)).inl
  indexNext writeIndex desc.nbSamples

@[simp] theorem syncGetNextWriteIndex_answer (hdr : Int) (desc : DataSectionDesc) :
    (syncGetNextWriteIndex hdr desc).answer remainder = Core.syncGetNextWriteIndex hdr desc := by
  simp [syncGetNextWriteIndex, Core.syncGetNextWriteIndex, Prog.pure_eq]

/-- `shd_sync_start_sample_write` counts the foreign samples with `interval_between`, which
subtracts and does not divide: its one remainder is that of `index_next`. -/
def syncStartSampleWrite (ctx : SyncCtx) (hdr samp : Int) (desc : DataSectionDesc) :
    RingProg (Int × SyncCtx) := do
  if ctx.index ≠ -1 then
    return (-EALREADY, ctx)
  else
    let _ ← (addAndFetch .startSampleWrite (nbWritesPtr samp) 1).inl
    let writeIndex ← (load32 .startSampleWrite (hdr + offsetofWriteIndex)).inl
    let index ← indexNext writeIndex desc.nbSamples
    -- with one slot the interval is 0 and the difference wraps
    let unexpected := toU32 (intervalBetween ctx.prevIndex index desc.nbSamples - 1)
    if 0 < unexpected ∧ ctx.prevIndex ≠ -1 then
      return (-EFAULT, { ctx with index := index })
    else
      return (0, { ctx with index := index })

@[simp] theorem syncStartSampleWrite_answer (ctx : SyncCtx) (hdr samp : Int)
    (desc : DataSectionDesc) : (syncStartSampleWrite ctx hdr samp desc).answer remainder
      = Core.syncStartSampleWrite ctx hdr samp desc := by
  simp [syncStartSampleWrite, Core.syncStartSampleWrite, Prog.pure_eq]

/-! ## `shd_search.c` -/

/-- The loop of `shd_search_get_max_depth`: one remainder a round, before the slot is tested. -/
def searchDepthLoop (desc : DataSectionDesc) (ctx : SearchCtx) : Nat → Int → RingProg Int
  | 0, depth => return depth
  | n + 1, depth => do
    let idx ← indexNBefore ctx.tIndex (toI32 depth) desc.nbSamples
    let curr ← (getSamplePtr desc idx).inl
    let valid ← (syncIsSampleValid curr).inl
    if valid then searchDepthLoop desc ctx n (depth + 1) else return depth

/-- By induction on the rounds, with the depth free. -/
@[simp] theorem searchDepthLoop_answer (desc : DataSectionDesc) (ctx : SearchCtx) (n : Nat)
    (depth : Int) : (searchDepthLoop desc ctx n depth).answer remainder
      = Core.searchDepthLoop desc ctx n depth := by
  induction n generalizing depth with
  | zero => rfl
  | succ n ih => simp [searchDepthLoop, Core.searchDepthLoop, Prog.pure_eq, ih]

/-- A full ring takes the first branch, without a remainder. -/
def searchGetMaxDepth (desc : DataSectionDesc) (ctx : SearchCtx) : RingProg Int :=
  if ctx.nbWritesTop > 0 then return desc.nbSamples
  else searchDepthLoop desc ctx desc.nbSamples.toNat 0

@[simp] theorem searchGetMaxDepth_answer (desc : DataSectionDesc) (ctx : SearchCtx) :
    (searchGetMaxDepth desc ctx).answer remainder = Core.searchGetMaxDepth desc ctx := by
  simp [searchGetMaxDepth, Core.searchGetMaxDepth, Prog.pure_eq]

/-- The loop of `search_reference_sample_naive`: the slot before is asked for only after a
comparison that failed. -/
def searchNaiveLoop (F : Futils) (desc : DataSectionDesc) (date : Timespec) :
    Nat → Int → Int → RingProg RefSearch
  | 0, mIndex, searched => return ⟨false, mIndex, searched⟩
  | n + 1, mIndex, searched => do
    let curr ← (getSamplePtr desc mIndex).inl
    let cmp ← (sampleTimestampCmp F curr date).inl
    if cmp < 0 then
      return ⟨true, mIndex, searched + 1⟩
    else
      let previous ← indexPrevious mIndex desc.nbSamples
      searchNaiveLoop F desc date n previous (searched + 1)

@[simp] theorem searchNaiveLoop_answer (F : Futils) (desc : DataSectionDesc) (date : Timespec)
    (n : Nat) (mIndex searched : Int) :
    (searchNaiveLoop F desc date n mIndex searched).answer remainder
      = Core.searchNaiveLoop F desc date n mIndex searched := by
  induction n generalizing mIndex searched with
  | zero => rfl
  | succ n ih => simp [searchNaiveLoop, Core.searchNaiveLoop, Prog.pure_eq, ih]

def searchReferenceSampleNaive (F : Futils) (desc : DataSectionDesc) (date : Timespec)
    (ctx : SearchCtx) : RingProg RefSearch := do
  let maxDepth ← searchGetMaxDepth desc ctx
  searchNaiveLoop F desc date (toI32 maxDepth).toNat ctx.tIndex 0

/-- The loop of `search_reference_sample_binary`, with the `int` arithmetic of
`Core.searchBinaryLoop`. -/
def searchBinaryLoop (F : Futils) (desc : DataSectionDesc) (date : Timespec) (ctx : SearchCtx)
    (maxDepth : Int) : Nat → BinarySearch → RingProg BinarySearch
  | 0, s => return s
  | n + 1, s =>
    if s.imin < s.imax then do
      let imid := (toI32 (s.imin + s.imax)).tdiv 2
      let mIndex ← indexNBefore ctx.tIndex (toI32 (maxDepth - 1 - imid)) desc.nbSamples
      let curr ← (getSamplePtr desc mIndex).inl
      let res ← (sampleTimestampCmp F curr date).inl
      let s' : BinarySearch :=
        { s with imid := imid, res := res, mIndex := mIndex, searched := toU32 (s.searched + 1) }
      if res < 0 then
        searchBinaryLoop F desc date ctx maxDepth n { s' with imin := toI32 (imid + 1) }
      else
        searchBinaryLoop F desc date ctx maxDepth n { s' with imax := imid }
    else
      return s

/-- By induction on the rounds, whatever the bounds have become. -/
@[simp] theorem searchBinaryLoop_answer (F : Futils) (desc : DataSectionDesc) (date : Timespec)
    (ctx : SearchCtx) (maxDepth : Int) (n : Nat) (s : BinarySearch) :
    (searchBinaryLoop F desc date ctx maxDepth n s).answer remainder
      = Core.searchBinaryLoop F desc date ctx maxDepth n s := by
  induction n generalizing s with
  | zero => rfl
  | succ n ih => simp [searchBinaryLoop, Core.searchBinaryLoop, Prog.pure_eq, ih]

/-- One remainder more after the loop if `imin` was not compared last, and one for the sample
before it. -/
def searchReferenceSampleBinary (F : Futils) (desc : DataSectionDesc) (date : Timespec)
    (ctx : SearchCtx) : RingProg RefSearch := do
  let depth ← searchGetMaxDepth desc ctx
  let maxDepth := toI32 depth
  let s ← searchBinaryLoop F desc date ctx maxDepth (depth.toNat + F.rounds)
    { imin := 0, imax := toI32 (maxDepth - 1), imid := 0, res := 0, mIndex := -1, searched := 0 }
  let last ← (if s.imin ≠ s.imid then do
      let mIndex ← indexNBefore ctx.tIndex (toI32 (maxDepth - 1 - s.imin)) desc.nbSamples
      let curr ← (getSamplePtr desc mIndex).inl
      let res ← (sampleTimestampCmp F curr date).inl
      return (mIndex, res)
    else
      return (s.mIndex, s.res) : RingProg (Int × Int))
  if last.2 ≥ 0 then
    if s.imin > 0 then
      let previous ← indexPrevious last.1 desc.nbSamples
      return ⟨true, previous, s.searched⟩
    else
      return ⟨false, last.1, s.searched⟩
  else
    return ⟨true, last.1, s.searched⟩

def searchReferenceSample (F : Futils) (desc : DataSectionDesc) (date : Timespec)
    (ctx : SearchCtx) : RefSearchHint → RingProg RefSearch
  | .naive => searchReferenceSampleNaive F desc date ctx
  | .binary => searchReferenceSampleBinary F desc date ctx
  | .date => searchReferenceSampleNaive F desc date ctx

/-- Only `SHD_WINDOW_REF_SEARCH_BINARY` bisects, the `default` of the source scans. -/
@[simp] theorem searchReferenceSample_answer (F : Futils) (desc : DataSectionDesc)
    (date : Timespec) (ctx : SearchCtx) (hint : RefSearchHint) :
    (searchReferenceSample F desc date ctx hint).answer remainder
      = Core.searchReferenceSample F desc date ctx hint := by
  cases hint with
  | binary =>
    simp [searchReferenceSample, Core.searchReferenceSample, searchReferenceSampleBinary,
      Core.searchReferenceSampleBinary, Prog.pure_eq]
  | naive | date =>
    simp [searchReferenceSample, Core.searchReferenceSample, searchReferenceSampleNaive,
      Core.searchReferenceSampleNaive]

/-- A full ring adds, any other ring subtracts. -/
def searchOldest (desc : DataSectionDesc) (ctx : SearchCtx) : RingProg Int := do
  let maxDepth ← searchGetMaxDepth desc ctx
  if maxDepth = desc.nbSamples then
    indexNAfter ctx.tIndex 2 desc.nbSamples
  else
    indexNBefore ctx.tIndex (toI32 (maxDepth - 1)) desc.nbSamples

def searchFirstMatchAfter (F : Futils) (desc : DataSectionDesc) (date : Timespec)
    (ctx : SearchCtx) (hint : RefSearchHint) : RingProg Int := do
  let r ← searchReferenceSample F desc date ctx hint
  if r.found then
    if r.mIndex ≠ ctx.tIndex then indexNext r.mIndex desc.nbSamples else return -1
  else
    indexNext ctx.tIndex desc.nbSamples

def searchFirstMatchBefore (F : Futils) (desc : DataSectionDesc) (date : Timespec)
    (ctx : SearchCtx) (hint : RefSearchHint) : RingProg Int := do
  let r ← searchReferenceSample F desc date ctx hint
  if r.found then return r.mIndex else return -1

def searchClosestMatch (F : Futils) (desc : DataSectionDesc) (date : Timespec)
    (ctx : SearchCtx) (hint : RefSearchHint) : RingProg Int := do
  let r ← searchReferenceSample F desc date ctx hint
  if ¬ r.found then
    indexNext ctx.tIndex desc.nbSamples
  else if r.mIndex = ctx.tIndex then
    return ctx.tIndex
  else
    let aIndex ← indexNext r.mIndex desc.nbSamples
    let before ← (getSamplePtr desc r.mIndex).inl
    let after ← (getSamplePtr desc aIndex).inl
    let ret ← (sampleClosestTimestamp F before after date).inl
    if ret < 0 then return aIndex else return r.mIndex

/-- The oldest slot takes the only remainder; the intervals subtract. -/
def searchEnd (hdr : Int) (ctx : SearchCtx) (wStartIdx : Int) (desc : DataSectionDesc) :
    RingProg Bool := do
  let tIndexNew ← (syncGetLastWriteIndex .searchEnd hdr).inl
  let oldest ← indexNext ctx.tIndex desc.nbSamples
  let margin := toI32 (intervalBetween oldest wStartIdx desc.nbSamples)
  let nbNewSamples := toI32 (intervalBetween ctx.tIndex tIndexNew desc.nbSamples)
  let wStart ← (getSamplePtr desc wStartIdx).inl
  let nbWritesStart ← (syncGetNbWrites wStart).inl
  return 0 < nbNewSamples && margin < nbNewSamples && ctx.nbWritesTop ≤ nbWritesStart

@[simp] theorem searchEnd_answer (hdr : Int) (ctx : SearchCtx) (wStartIdx : Int)
    (desc : DataSectionDesc) : (searchEnd hdr ctx wStartIdx desc).answer remainder
      = Core.searchEnd hdr ctx wStartIdx desc := by
  simp [searchEnd, Core.searchEnd, Prog.pure_eq]

/-! ## `shd_window.c` -/

def windowRefIdx (F : Futils) (search : SampleSearch) (desc : DataSectionDesc)
    (ctx : SearchCtx) (hint : RefSearchHint) : RingProg Int :=
  match search.method with
  | .latest => return ctx.tIndex
  | .oldest => searchOldest desc ctx
  | .closest => searchClosestMatch F desc search.date ctx hint
  | .firstAfter => searchFirstMatchAfter F desc search.date ctx hint
  | .firstBefore => searchFirstMatchBefore F desc search.date ctx hint

/-- One case for each search method. -/
@[simp] theorem windowRefIdx_answer (F : Futils) (search : SampleSearch) (desc : DataSectionDesc)
    (ctx : SearchCtx) (hint : RefSearchHint) :
    (windowRefIdx F search desc ctx hint).answer remainder
      = Core.windowRefIdx F search desc ctx hint := by
  rw [windowRefIdx, Core.windowRefIdx]
  cases search.method with
  | latest => rfl
  | oldest => simp [searchOldest, Core.searchOldest, Prog.pure_eq]
  | closest => simp [searchClosestMatch, Core.searchClosestMatch, Prog.pure_eq]
  | firstAfter => simp [searchFirstMatchAfter, Core.searchFirstMatchAfter, Prog.pure_eq]
  | firstBefore => simp [searchFirstMatchBefore, Core.searchFirstMatchBefore, Prog.pure_eq]

/-- The index of the oldest sample and that of the window's start are computed before
`shd_search_end`, the bounds of the window after it. -/
def windowSet (F : Futils) (window : Window) (hdr : Int) (search : SampleSearch)
    (desc : DataSectionDesc) (hint : RefSearchHint) : RingProg (Int × Window) := do
  let ctx ← (searchStart hdr desc).inl
  let idle := (windowReset window).2
  let refIdx ← windowRefIdx F search desc ctx hint
  if refIdx < 0 then
    return (-ENOENT, idle)
  else
    let nbMoreRecent := toI32 (intervalBetween refIdx ctx.tIndex desc.nbSamples)
    let oldest ← indexNext ctx.tIndex desc.nbSamples
    let nbOlder := toI32 (intervalBetween oldest refIdx desc.nbSamples)
    let nbBefore := min nbOlder (toI32 search.nbValuesBeforeDate.toNat)
    -- the start is computed here for the test, and once more below
    let wStartIdx ← indexNBefore refIdx nbBefore desc.nbSamples
    let overwritten ← searchEnd hdr ctx wStartIdx desc
    if overwritten then
      return (-EFAULT, idle)
    else
      let nbAfter := min nbMoreRecent (toI32 search.nbValuesAfterDate.toNat)
      let endIdx ← indexNAfter refIdx nbAfter desc.nbSamples
      let startIdx ← indexNBefore refIdx nbBefore desc.nbSamples
      let nbMatches := toI32 (1 + intervalBetween startIdx endIdx desc.nbSamples)
      -- only the log message uses the sample
      let _ ← (getSamplePtr desc refIdx).inl
      return (nbMatches, ⟨startIdx, refIdx, endIdx, nbMatches⟩)

/-- `windowSet` writes out what `Core.windowAround` computes at once: the same values, each at
its own place between the operations. -/
@[simp] theorem windowSet_answer (F : Futils) (window : Window) (hdr : Int) (search : SampleSearch)
    (desc : DataSectionDesc) (hint : RefSearchHint) :
    (windowSet F window hdr search desc hint).answer remainder
      = Core.windowSet F window hdr search desc hint := by
  simp [windowSet, Core.windowSet, windowAround, nbMoreRecentSamples, nbOlderSamples,
    Prog.pure_eq]

/-- The rows are copied first, and the index moves after each copy, the last one included. -/
def windowReadLoop (desc : DataSectionDesc) (dataSize : Nat) (sOffset : Int) :
    Nat → Int → Nat → RingProg (List (List UInt8))
  | 0, _, _ => return []
  | n + 1, sIndex, dIndex => do
    let curr ← (getSamplePtr desc sIndex).inl
    let row ← (sampleRead (.windowRead dIndex) curr sOffset dataSize).inl
    let next ← indexNext sIndex desc.nbSamples
    let rows ← windowReadLoop desc dataSize sOffset n next (dIndex + 1)
    return row :: rows

def windowRead (window : Window) (desc : DataSectionDesc) (dataSize : Nat) (sOffset : Int) :
    RingProg (List (List UInt8)) :=
  windowReadLoop desc dataSize sOffset window.nbMatches.toNat window.startIdx 0

/-- By induction on the rows that are left, with the slot and the row free. -/
@[simp] theorem windowRead_answer (window : Window) (desc : DataSectionDesc) (dataSize : Nat)
    (sOffset : Int) : (windowRead window desc dataSize sOffset).answer remainder
      = Core.windowRead window desc dataSize sOffset := by
  rw [windowRead, Core.windowRead]
  generalize window.startIdx = sIndex
  generalize 0 = dIndex
  induction window.nbMatches.toNat generalizing sIndex dIndex with
  | zero => rfl
  | succ n ih => simp [windowReadLoop, Core.windowReadLoop, Prog.pure_eq, ih]

/-! ## `shd_data.c` -/

/-- `shd_data_reserve_write` computes the next index twice, here and when the write starts. -/
def dataReserveWrite (ctx : ShdCtx) : RingProg (Int × ShdCtx) := do
  let ret ← (syncStartWriteSession ctx.syncCtx ctx.sectMmap.syncTop).inl
  if ret < 0 then
    return (ret, ctx)
  else
    let index ← syncGetNextWriteIndex ctx.sectMmap.syncTop ctx.desc
    let currSample ← (getSamplePtr ctx.desc index).inl
    let r ← syncStartSampleWrite ctx.syncCtx ctx.sectMmap.syncTop currSample ctx.desc
    return (r.1, { ctx with syncCtx := r.2 })

@[simp] theorem dataReserveWrite_answer (ctx : ShdCtx) :
    (dataReserveWrite ctx).answer remainder = Core.dataReserveWrite ctx := by
  simp [dataReserveWrite, Core.dataReserveWrite, Prog.pure_eq]

/-- The checks of the request come before the first remainder. -/
def dataFind (F : Futils) (ctx : ShdCtx) (search : SampleSearch) : RingProg (Int × ShdCtx) := do
  let tIndex ← (syncGetLastWriteIndex .dataFind ctx.sectMmap.syncTop).inl
  if tIndex = -1 then
    return (-EAGAIN, ctx)
  else if ctx.desc.nbSamples <
      toU32 ((search.nbValuesAfterDate.toNat : Int) + search.nbValuesBeforeDate.toNat + 1) then
    return (-EINVAL, ctx)
  else
    let r ← windowSet F ctx.window ctx.sectMmap.syncTop search ctx.desc ctx.hint
    let ctx := { ctx with window := r.2 }
    if r.1 < 0 then
      return (r.1, ctx)
    else
      let wstart ← (getSamplePtr ctx.desc ctx.window.startIdx).inl
      let sync ← (syncStartReadSession ctx.window ctx.syncCtx wstart).inl
      return (ctx.window.nbMatches, { ctx with syncCtx := sync })

@[simp] theorem dataFind_answer (F : Futils) (ctx : ShdCtx) (search : SampleSearch) :
    (dataFind F ctx search).answer remainder = Core.dataFind F ctx search := by
  simp [dataFind, Core.dataFind, Prog.pure_eq]

def dataReadMetadata (ctx : ShdCtx) : RingProg (Int × List SampleMetadata × ShdCtx) := do
  let p ← (calloc .metadata).inl
  match p with
  | none => return (-ENOMEM, [], ctx)
  | some p =>
    let rows ← windowRead ctx.window ctx.desc sizeofMetadata 0
    return (toI32 (intervalBetween ctx.window.startIdx ctx.window.refIdx ctx.desc.nbSamples),
      rows.map decMetadata, { ctx with metadata := some p })

/-- Without memory there is no window to read. -/
@[simp] theorem dataReadMetadata_answer (ctx : ShdCtx) :
    (dataReadMetadata ctx).answer remainder = Core.dataReadMetadata ctx := by
  rw [dataReadMetadata, Core.dataReadMetadata, Prog.answer_bind, Prog.answer_inl]
  refine congrArg _ (funext fun p => ?_)
  cases p with
  | none => rfl
  | some p => simp [Prog.pure_eq]

/-- What `shd_data_read_blob` and `shd_data_read_quantity` share. -/
def dataReadRows (ctx : ShdCtx) (dataSize : Nat) (sOffset : Int) (dstSize : Nat) :
    RingProg (Int × List (List UInt8)) :=
  if ctx.window.nbMatches < 0 then return (-EPERM, [])
  else if (dstSize : Int) < toU64 (dataSize * toU64 ctx.window.nbMatches) then
    return (-EINVAL, [])
  else do
    let rows ← windowRead ctx.window ctx.desc dataSize sOffset
    return (rows.length, rows)

@[simp] theorem dataReadRows_answer (ctx : ShdCtx) (dataSize : Nat) (sOffset : Int)
    (dstSize : Nat) : (dataReadRows ctx dataSize sOffset dstSize).answer remainder
      = Core.dataReadRows ctx dataSize sOffset dstSize := by
  simp [dataReadRows, Core.dataReadRows, Prog.pure_eq]

def dataReadBlob (ctx : ShdCtx) (dstSize : Nat) : RingProg (Int × List (List UInt8)) :=
  dataReadRows ctx ctx.desc.blobSize.toNat lp64.offsetofBlob dstSize

def dataReadQuantity (ctx : ShdCtx) (quantity : Quantity) (dstSize : Nat) :
    RingProg (Int × List (List UInt8)) :=
  dataReadRows ctx quantity.quantitySize (lp64.offsetofBlob + quantity.quantityOffset) dstSize

/-! ## `shd.c` -/

def newSample (ctx : ShdCtx) (metadata : SampleMetadata) : RingProg (Int × ShdCtx) := do
  let r ← dataReserveWrite ctx
  if r.1 < 0 then
    return r
  else
    let ret ← (dataWriteMetadata r.2 metadata).inl
    return (ret, r.2)

@[simp] theorem newSample_answer (ctx : ShdCtx) (metadata : SampleMetadata) :
    (newSample ctx metadata).answer remainder = Core.newSample ctx metadata := by
  simp [newSample, Core.newSample, Prog.pure_eq]

def writeNewBlob (ctx : ShdCtx) (src : List UInt8) (size : Nat) (metadata : SampleMetadata) :
    RingProg (Int × ShdCtx) := do
  let fakeQuantity : Quantity := { quantityOffset := 0, quantitySize := size }
  let r ← newSample ctx metadata
  if r.1 < 0 then
    return r
  else
    let ret ← (writeQuantity r.2 fakeQuantity src).inl
    if ret < 0 then return (ret, r.2) else (commitSample r.2).inl

@[simp] theorem writeNewBlob_answer (ctx : ShdCtx) (src : List UInt8) (size : Nat)
    (metadata : SampleMetadata) : (writeNewBlob ctx src size metadata).answer remainder
      = Core.writeNewBlob ctx src size metadata := by
  simp [writeNewBlob, Core.writeNewBlob, Prog.pure_eq]

def selectSamples (F : Futils) (ctx : ShdCtx) (search : SampleSearch) (result : SearchResult) :
    RingProg Selection := do
  let r ← dataFind F ctx search
  if r.1 < 0 then
    return ⟨r.1, [], result, r.2⟩
  else
    let m ← dataReadMetadata r.2
    if m.1 < 0 then
      return ⟨m.1, [], { result with nbMatches := r.1 }, m.2.2⟩
    else
      return ⟨0, m.2.1, { nbMatches := r.1, rSampleIdx := m.1 }, m.2.2⟩

@[simp] theorem selectSamples_answer (F : Futils) (ctx : ShdCtx) (search : SampleSearch)
    (result : SearchResult) : (selectSamples F ctx search result).answer remainder
      = Core.selectSamples F ctx search result := by
  simp [selectSamples, Core.selectSamples, Prog.pure_eq]

def readQuantity (ctx : ShdCtx) (quantity : Option Quantity) (dstSize : Nat) :
    RingProg (Int × List (List UInt8)) :=
  match quantity with
  | none => dataReadBlob ctx dstSize
  | some q => dataReadQuantity ctx q dstSize

@[simp] theorem readQuantity_answer (ctx : ShdCtx) (quantity : Option Quantity) (dstSize : Nat) :
    (readQuantity ctx quantity dstSize).answer remainder
      = Core.readQuantity ctx quantity dstSize := by
  cases quantity with
  | none => exact dataReadRows_answer _ _ _ _
  | some q => exact dataReadRows_answer _ _ _ _

def readFromSample (F : Futils) (ctx : ShdCtx) (search : SampleSearch)
    (quantity : List Quantity) (sizes : List Nat) : RingProg SampleRead := do
  if 0 < search.nbValuesAfterDate.toNat ∨ 0 < search.nbValuesBeforeDate.toNat then
    return ⟨-EINVAL, [], ctx⟩
  else
    let r ← dataFind F ctx search
    if r.1 < 0 then
      return ⟨r.1, [], r.2⟩
    else
      let qs := if quantity.length > 0 then quantity
        else [{ quantityOffset := 0, quantitySize := r.2.desc.blobSize.toNat }]
      let q ← (dataReadQuantitySample r.2 (qs.zip sizes)).inl
      return ⟨q.1, q.2, r.2⟩

@[simp] theorem readFromSample_answer (F : Futils) (ctx : ShdCtx) (search : SampleSearch)
    (quantity : List Quantity) (sizes : List Nat) :
    (readFromSample F ctx search quantity sizes).answer remainder
      = Core.readFromSample F ctx search quantity sizes := by
  simp [readFromSample, Core.readFromSample, Prog.pure_eq]

/-! ## Calls -/

/-- A call on a context, of a producer or of a consumer. -/
inductive ApiCall where
  | prod (call : Producer.ProdCall)
  | cons (call : Consumer.ConsCall)
  | readSectionHdr (rev : Int)
  | readBlobMetadataHdr (size : Nat) (rev : Int)

/-- One call; the result is its return code and the context it leaves. -/
def apiCall (F : Futils) (ctx : ShdCtx) : ApiCall → RingProg (Int × ShdCtx)
  | .prod (.newSample metadata) => newSample ctx metadata
  | .prod (.writeNewBlob src size metadata) => writeNewBlob ctx src size metadata
  | .prod call => (Producer.prodCall ctx call).inl
  | .cons (.select search) => do
    let s ← selectSamples F ctx search ⟨0, 0⟩
    return (s.ret, s.ctx)
  | .cons (.readFrom search quantity sizes) => do
    let s ← readFromSample F ctx search quantity sizes
    return (s.ret, s.ctx)
  | .cons (.read quantity dstSize) => do
    let r ← readQuantity ctx quantity dstSize
    return (r.1, ctx)
  | .cons (.endRead rev) => (endRead ctx rev).inl
  | .readSectionHdr rev => do
    let r ← (readSectionHdr ctx rev).inl
    return (r.1, ctx)
  | .readBlobMetadataHdr size rev => do
    let r ← (readBlobMetadataHdr ctx size rev).inl
    return (r.1, ctx)

/-- The return codes of the calls, each on the context that the one before left. -/
def apiCalls (F : Futils) : List ApiCall → ShdCtx → RingProg (List Int)
  | [], _ => return []
  | c :: cs, ctx => do
    let r ← apiCall F ctx c
    let rs ← apiCalls F cs r.2
    return r.1 :: rs

/-- The same call in `Shdata.Core`. -/
def coreCall (F : Futils) (ctx : ShdCtx) : ApiCall → ShdProg (Int × ShdCtx)
  | .prod call => Producer.prodCall ctx call
  | .cons call => Consumer.consCall F ctx call
  | .readSectionHdr rev => do
    let r ← readSectionHdr ctx rev
    return (r.1, ctx)
  | .readBlobMetadataHdr size rev => do
    let r ← readBlobMetadataHdr ctx size rev
    return (r.1, ctx)

def coreCalls (F : Futils) : List ApiCall → ShdCtx → ShdProg (List Int)
  | [], _ => return []
  | c :: cs, ctx => do
    let r ← coreCall F ctx c
    let rs ← coreCalls F cs r.2
    return r.1 :: rs

/-- With the remainders put in, a call is that of `Shdata.Core`. -/
@[simp] theorem apiCall_answer (F : Futils) (ctx : ShdCtx) (call : ApiCall) :
    (apiCall F ctx call).answer remainder = coreCall F ctx call := by
  cases call with
  | prod call =>
    cases call with
    | newSample metadata => exact newSample_answer ctx metadata
    | writeNewBlob src size metadata => exact writeNewBlob_answer ctx src size metadata
    | writeQuantity q src => exact Prog.answer_inl _ _
    | commitSample => exact Prog.answer_inl _ _
  | cons call => cases call <;> simp [apiCall, coreCall, Consumer.consCall, Prog.pure_eq]
  | readSectionHdr rev => simp [apiCall, coreCall, Prog.pure_eq]
  | readBlobMetadataHdr size rev => simp [apiCall, coreCall, Prog.pure_eq]

/-- So is a list of calls, by induction on it: a call leaves the same context in both. -/
@[simp] theorem apiCalls_answer (F : Futils) (calls : List ApiCall) (ctx : ShdCtx) :
    (apiCalls F calls ctx).answer remainder = coreCalls F calls ctx := by
  induction calls generalizing ctx with
  | nil => rfl
  | cons c cs ih => simp [apiCalls, coreCalls, Prog.pure_eq, ih]

end Shdata.Explicit
