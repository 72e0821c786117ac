/-
Shdata.Core.Search — `shd_sample.c`, `shd_search.c` and `shd_window.c`.

The two comparison helpers of libfutils are not in the repository. They are
fields of `Futils`; nothing here assumes anything about them.

Loops are recursions on the number of rounds that remain. The scan of
`shd_search_get_max_depth`, the naive search and the copy loop of
`shd_window_read` count rounds in the source.

The binary search goes on while `imin < imax`, and nothing in the source
bounds its rounds: from a depth of 2^30 + 2 on `imin + imax` leaves the range of
`int` and the loop need not end. A run of the model follows it for `depth`
rounds and `Futils.rounds` more. Up to 2^30 + 1 samples the loop ends by itself
within `depth` rounds (`Progress.searchBinaryLoop_ends`), so that the limit cuts
nothing off; above, a result for every `Futils` is one for every number of
rounds.
-/
import Shdata.Core.Sync

namespace Shdata.Core

open Shdata.Conc Shdata.Bytes

/-- `time_timespec_cmp` and `time_timespec_diff` of libfutils, and the number of
rounds for which a run follows a binary search beyond the depth. -/
structure Futils where
  timespecCmp : Timespec → Timespec → Int
  timespecDiff : Timespec → Timespec → Int × Timespec
  rounds : Nat

/-- The two helpers on normalized dates, for runs on concrete inputs. -/
def libfutils : Futils where
  rounds := 0
  timespecCmp a b :=
    if a.tvSec.toInt < b.tvSec.toInt then -1
    else if b.tvSec.toInt < a.tvSec.toInt then 1
    else if a.tvNsec.toInt < b.tvNsec.toInt then -1
    else if b.tvNsec.toInt < a.tvNsec.toInt then 1 else 0
  timespecDiff start fin :=
    if fin.tvNsec.toInt < start.tvNsec.toInt then
      (0, ⟨fin.tvSec - start.tvSec - 1, fin.tvNsec - start.tvNsec + 1000000000⟩)
    else
      (0, ⟨fin.tvSec - start.tvSec, fin.tvNsec - start.tvNsec⟩)

/-! ## Samples -/

def sampleRead (site : Site) (sample offset : Int) (length : Nat) : ShdProg (List UInt8) :=
  memcpyOut site (toU64 (sample + offset)) length

def sampleWrite (site : Site) (sample offset : Int) (src : List UInt8) : ShdProg Int := do
  memcpyIn site (toU64 (sample + offset)) src
  return 0

def sampleTimestampCmp (F : Futils) (sample : Int) (date : Timespec) : ShdProg Int := do
  let ts ← memcpyOut .sampleTimestampCmp sample 16
  return F.timespecCmp (decTimespec ts) date

def sampleClosestTimestamp (F : Futils) (before after : Int) (date : Timespec) :
    ShdProg Int := do
  let tsBefore ← memcpyOut .sampleClosestTimestamp before 16
  let d₁ := F.timespecDiff (decTimespec tsBefore) date
  if d₁.1 < 0 then
    return d₁.1
  else
    let tsAfter ← memcpyOut .sampleClosestTimestamp after 16
    let d₂ := F.timespecDiff date (decTimespec tsAfter)
    if d₂.1 < 0 then return d₂.1 else return F.timespecCmp d₂.2 d₁.2

/-! ## Search of the reference sample -/

/-- The loop of `shd_search_get_max_depth`: count valid samples backwards from
the latest one, for at most `n` more rounds. -/
def searchDepthLoop (desc : DataSectionDesc) (ctx : SearchCtx) : Nat → Int → ShdProg Int
  | 0, depth => return depth
  | n + 1, depth => do
    let curr ← getSamplePtr desc (indexNBefore ctx.tIndex (toI32 depth) desc.nbSamples)
    let valid ← syncIsSampleValid curr
    if valid then searchDepthLoop desc ctx n (depth + 1) else return depth

def searchGetMaxDepth (desc : DataSectionDesc) (ctx : SearchCtx) : ShdProg Int :=
  if ctx.nbWritesTop > 0 then return desc.nbSamples
  else searchDepthLoop desc ctx desc.nbSamples.toNat 0

/-- What a search of the reference sample returns and stores: whether it was
found, its index, and the number of samples looked at. -/
structure RefSearch where
  found : Bool
  mIndex : Int
  searched : Int
  deriving DecidableEq, Repr

/-- The `while` loop of the naive search. -/
def searchNaiveLoop (F : Futils) (desc : DataSectionDesc) (date : Timespec) :
    Nat → Int → Int → ShdProg RefSearch
  | 0, mIndex, searched => return ⟨false, mIndex, searched⟩
  | n + 1, mIndex, searched => do
    let curr ← getSamplePtr desc mIndex
    let cmp ← sampleTimestampCmp F curr date
    if cmp < 0 then
      return ⟨true, mIndex, searched + 1⟩
    else
      searchNaiveLoop F desc date n (indexPrevious mIndex desc.nbSamples) (searched + 1)

def searchReferenceSampleNaive (F : Futils) (desc : DataSectionDesc) (date : Timespec)
    (ctx : SearchCtx) : ShdProg RefSearch := do
  let maxDepth ← searchGetMaxDepth desc ctx
  searchNaiveLoop F desc date (toI32 maxDepth).toNat ctx.tIndex 0

/-- The variables of the binary search. -/
structure BinarySearch where
  imin : Int
  imax : Int
  imid : Int
  res : Int
  mIndex : Int
  searched : Int
  deriving DecidableEq, Repr

/-- The `while (imin < imax)` loop, followed for `n` more rounds. Sums and
differences are `int`, and the division is C's, towards zero. -/
def searchBinaryLoop (F : Futils) (desc : DataSectionDesc) (date : Timespec) (ctx : SearchCtx)
    (maxDepth : Int) : Nat → BinarySearch → ShdProg BinarySearch
  | 0, s => return s
  | n + 1, s =>
    if s.imin < s.imax then do
      let imid := (toI32 (s.imin + s.imax)).tdiv 2
      let mIndex := indexNBefore ctx.tIndex (toI32 (maxDepth - 1 - imid)) desc.nbSamples
      let curr ← getSamplePtr desc mIndex
      let res ← sampleTimestampCmp F curr date
      let s' : BinarySearch :=
        { s with imid := imid, res := res, mIndex := mIndex, searched := toU32 (s.searched + 1) }
      if res < 0 then
        searchBinaryLoop F desc date ctx maxDepth n { s' with imin := toI32 (imid + 1) }
      else
        searchBinaryLoop F desc date ctx maxDepth n { s' with imax := imid }
    else
      return s

/-- The caller's `m_index` is `-1` on entry, as its callers set it. -/
def searchReferenceSampleBinary (F : Futils) (desc : DataSectionDesc) (date : Timespec)
    (ctx : SearchCtx) : ShdProg RefSearch := do
  let depth ← searchGetMaxDepth desc ctx
  let maxDepth := toI32 depth
  let s ← searchBinaryLoop F desc date ctx maxDepth (depth.toNat + F.rounds)
    { imin := 0, imax := toI32 (maxDepth - 1), imid := 0, res := 0, mIndex := -1, searched := 0 }
  -- imin is the closest value, recompute only if we don't have it
  let last ← (if s.imin ≠ s.imid then do
      let mIndex := indexNBefore ctx.tIndex (toI32 (maxDepth - 1 - s.imin)) desc.nbSamples
      let curr ← getSamplePtr desc mIndex
      let res ← sampleTimestampCmp F curr date
      return (mIndex, res)
    else
      return (s.mIndex, s.res) : ShdProg (Int × Int))
  if last.2 ≥ 0 then
    if s.imin > 0 then
      return ⟨true, indexPrevious last.1 desc.nbSamples, s.searched⟩
    else
      return ⟨false, last.1, s.searched⟩
  else
    return ⟨true, last.1, s.searched⟩

def searchReferenceSample (F : Futils) (desc : DataSectionDesc) (date : Timespec)
    (ctx : SearchCtx) : RefSearchHint → ShdProg RefSearch
  | .naive => searchReferenceSampleNaive F desc date ctx
  | .binary => searchReferenceSampleBinary F desc date ctx
  | .date => searchReferenceSampleNaive F desc date ctx

/-! ## Search methods -/

/-- `max_depth` and `nb_samples` are unsigned; `max_depth - 1` wraps in
`uint32_t` and converts to `int`. -/
def searchOldest (desc : DataSectionDesc) (ctx : SearchCtx) : ShdProg Int := do
  let maxDepth ← searchGetMaxDepth desc ctx
  if maxDepth = desc.nbSamples then
    return indexNAfter ctx.tIndex 2 desc.nbSamples
  else
    return indexNBefore ctx.tIndex (toI32 (maxDepth - 1)) desc.nbSamples

def searchFirstMatchAfter (F : Futils) (desc : DataSectionDesc) (date : Timespec)
    (ctx : SearchCtx) (hint : RefSearchHint) : ShdProg Int := do
  let r ← searchReferenceSample F desc date ctx hint
  if r.found then
    if r.mIndex ≠ ctx.tIndex then return indexNext r.mIndex desc.nbSamples else return -1
  else
    return indexNext ctx.tIndex desc.nbSamples

def searchFirstMatchBefore (F : Futils) (desc : DataSectionDesc) (date : Timespec)
    (ctx : SearchCtx) (hint : RefSearchHint) : ShdProg Int := do
  let r ← searchReferenceSample F desc date ctx hint
  if r.found then return r.mIndex else return -1

def searchClosestMatch (F : Futils) (desc : DataSectionDesc) (date : Timespec)
    (ctx : SearchCtx) (hint : RefSearchHint) : ShdProg Int := do
  let r ← searchReferenceSample F desc date ctx hint
  if ¬ r.found then
    return indexNext ctx.tIndex desc.nbSamples
  else if r.mIndex = ctx.tIndex then
    return ctx.tIndex
  else
    let aIndex := indexNext r.mIndex desc.nbSamples
    let before ← getSamplePtr desc r.mIndex
    let after ← getSamplePtr desc aIndex
    let ret ← sampleClosestTimestamp F before after date
    if ret < 0 then return aIndex else return r.mIndex

/-! ## Start and end of a search -/

def searchStart (hdr : Int) (desc : DataSectionDesc) : ShdProg SearchCtx := do
  let tIndex ← syncGetLastWriteIndex .searchStart hdr
  let top ← getSamplePtr desc tIndex
  let nbWritesTop ← syncGetNbWrites top
  return { tIndex := tIndex, nbWritesTop := nbWritesTop }

/-- Whether the window was overwritten during the search. -/
def searchEnd (hdr : Int) (ctx : SearchCtx) (wStartIdx : Int) (desc : DataSectionDesc) :
    ShdProg Bool := do
  let tIndexNew ← syncGetLastWriteIndex .searchEnd hdr
  let margin := toI32 (intervalBetween (indexNext ctx.tIndex desc.nbSamples) wStartIdx
    desc.nbSamples)
  let nbNewSamples := toI32 (intervalBetween ctx.tIndex tIndexNew desc.nbSamples)
  let wStart ← getSamplePtr desc wStartIdx
  let nbWritesStart ← syncGetNbWrites wStart
  return 0 < nbNewSamples && margin < nbNewSamples && ctx.nbWritesTop ≤ nbWritesStart

/-! ## Windows -/

/-- The idle window. -/
def windowIdle : Window := ⟨-1, -1, -1, -1⟩

def windowReset (window : Window) : Int × Window :=
  if window.nbMatches < 0 then (-EPERM, window) else (0, windowIdle)

/-- The `switch` of `shd_window_set`: the index of the reference sample, `-1`
if there is none. -/
def windowRefIdx (F : Futils) (search : SampleSearch) (desc : DataSectionDesc)
    (ctx : SearchCtx) (hint : RefSearchHint) : ShdProg Int :=
  match search.method with
  | .latest => return ctx.tIndex
  | .oldest => searchOldest desc ctx
  | .closest => searchClosestMatch F desc search.date ctx hint
  | .firstAfter => searchFirstMatchAfter F desc search.date ctx hint
  | .firstBefore => searchFirstMatchBefore F desc search.date ctx hint

/-- Number of samples produced after the reference sample, as an `int`. -/
def nbMoreRecentSamples (desc : DataSectionDesc) (ctx : SearchCtx) (refIdx : Int) : Int :=
  toI32 (intervalBetween refIdx ctx.tIndex desc.nbSamples)

/-- Number of slots from the one after the latest sample to the reference
sample, as an `int`. -/
def nbOlderSamples (desc : DataSectionDesc) (ctx : SearchCtx) (refIdx : Int) : Int :=
  toI32 (intervalBetween (indexNext ctx.tIndex desc.nbSamples) refIdx desc.nbSamples)

/-- The window around a reference sample. `min` takes `int` arguments. -/
def windowAround (search : SampleSearch) (desc : DataSectionDesc) (ctx : SearchCtx)
    (refIdx : Int) : Window :=
  let startIdx := indexNBefore refIdx
    (min (nbOlderSamples desc ctx refIdx) (toI32 search.nbValuesBeforeDate.toNat)) desc.nbSamples
  let endIdx := indexNAfter refIdx
    (min (nbMoreRecentSamples desc ctx refIdx) (toI32 search.nbValuesAfterDate.toNat))
    desc.nbSamples
  { startIdx := startIdx
    refIdx := refIdx
    endIdx := endIdx
    nbMatches := toI32 (1 + intervalBetween startIdx endIdx desc.nbSamples) }

def windowSet (F : Futils) (window : Window) (hdr : Int) (search : SampleSearch)
    (desc : DataSectionDesc) (hint : RefSearchHint) : ShdProg (Int × Window) := do
  let ctx ← searchStart hdr desc
  let idle := (windowReset window).2
  let refIdx ← windowRefIdx F search desc ctx hint
  if refIdx < 0 then
    return (-ENOENT, idle)
  else
    let w := windowAround search desc ctx refIdx
    let overwritten ← searchEnd hdr ctx w.startIdx desc
    if overwritten then
      return (-EFAULT, idle)
    else
      let _ ← getSamplePtr desc w.refIdx
      return (w.nbMatches, w)

/-- The loop of `shd_window_read`, for `n` more rows. -/
def windowReadLoop (desc : DataSectionDesc) (dataSize : Nat) (sOffset : Int) :
    Nat → Int → Nat → ShdProg (List (List UInt8))
  | 0, _, _ => return []
  | n + 1, sIndex, dIndex => do
    let curr ← getSamplePtr desc sIndex
    let row ← sampleRead (.windowRead dIndex) curr sOffset dataSize
    let rows ← windowReadLoop desc dataSize sOffset n (indexNext sIndex desc.nbSamples)
      (dIndex + 1)
    return row :: rows

/-- Row `d` is what the source copies to `dst + data_size * d`. -/
def windowRead (window : Window) (desc : DataSectionDesc) (dataSize : Nat) (sOffset : Int) :
    ShdProg (List (List UInt8)) :=
  windowReadLoop desc dataSize sOffset window.nbMatches.toNat window.startIdx 0

end Shdata.Core
