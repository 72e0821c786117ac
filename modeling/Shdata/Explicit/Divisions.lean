/-
Shdata.Explicit.Divisions — the sizes that the ring helpers divide by.

The size is the number of slots in the description of a context. Every
function passes it on as it is (`apiCalls_ensures`), whatever the memory
answers and however often the calls are made. So a remainder by zero comes
from a context whose description says zero slots. `shd_create` takes the
number from its caller and tests nothing (`create_ensures`); `shd_open`
loads it from the header of the section (`openCtx_ensures`).

`divisors_iff` is the statement about the runs that follow a creation.
-/
import Shdata.Consumer.Ownership
import Shdata.Explicit.Code
import Shdata.Solo.Open

namespace Shdata.Explicit

open Shdata.Conc Shdata.Bytes Shdata.Core Shdata.Layout Shdata.Solo

/-! ## One context -/

/-- If the operation is a remainder, it is one by `N`. -/
def Divides (N : Int) : Op ⊕ Modulo → Prop
  | .inl _ => True
  | .inr m => m.size = N

section Ensures

variable {A : (o : Op ⊕ Modulo) → Sum.elim Op.Resp Modulo.Resp o → Prop} {N : Int} {α : Type}

/-- A program of `Shdata.Core` has no remainder. -/
theorem inl_ensures {p : ShdProg α} {Q : α → Prop}
    (hp : p.Ensures (fun _ _ => True) (fun _ => True) Q) :
    (p.inl : RingProg α).Ensures A (Divides N) Q :=
  Prog.Ensures.inl (fun _ _ _ => trivial) (fun _ _ => trivial) hp

/-- The same when nothing is asked of the result. -/
theorem plain_ensures (p : ShdProg α) : (p.inl : RingProg α).Ensures A (Divides N) fun _ => True :=
  inl_ensures p.ensures_true

/-- The two remainders of the library, each by the size that the helper got. -/
theorem indexNAfter_ensures (idx n : Int) :
    (indexNAfter idx n N).Ensures A (Divides N) fun _ => True :=
  ⟨rfl, fun _ _ => trivial⟩

theorem indexNBefore_ensures (idx n : Int) :
    (indexNBefore idx n N).Ensures A (Divides N) fun _ => True :=
  ⟨rfl, fun _ _ => trivial⟩

theorem indexNext_ensures (idx : Int) : (indexNext idx N).Ensures A (Divides N) fun _ => True :=
  indexNAfter_ensures idx 1

theorem indexPrevious_ensures (idx : Int) :
    (indexPrevious idx N).Ensures A (Divides N) fun _ => True :=
  indexNBefore_ensures idx 1

variable {F : Futils} {d : DataSectionDesc} {date : Timespec} {sctx : SearchCtx}

/-- By induction on the rounds: a round divides once, and the answer decides only whether
there is another one. -/
theorem searchDepthLoop_ensures (n : Nat) (depth : Int) :
    (searchDepthLoop d sctx n depth).Ensures A (Divides d.nbSamples) fun _ => True := by
  induction n generalizing depth with
  | zero => trivial
  | succ n ih =>
    refine (indexNBefore_ensures _ _).bind fun idx _ => ?_
    refine (plain_ensures _).bind fun curr _ => (plain_ensures _).bind fun valid _ => ?_
    split
    · exact ih _
    · trivial

theorem searchGetMaxDepth_ensures :
    (searchGetMaxDepth d sctx).Ensures A (Divides d.nbSamples) fun _ => True := by
  unfold searchGetMaxDepth
  split
  · trivial
  · exact searchDepthLoop_ensures _ _

/-- By induction on the rounds, whatever index the memory led to. -/
theorem searchNaiveLoop_ensures (n : Nat) (mIndex searched : Int) :
    (searchNaiveLoop F d date n mIndex searched).Ensures A (Divides d.nbSamples)
      fun _ => True := by
  induction n generalizing mIndex searched with
  | zero => trivial
  | succ n ih =>
    refine (plain_ensures _).bind fun curr _ => (plain_ensures _).bind fun cmp _ => ?_
    split
    · trivial
    · exact (indexPrevious_ensures _).bind fun previous _ => ih _ _

/-- The bounds do not matter, so `imin` and `imax` are free in the induction. -/
theorem searchBinaryLoop_ensures (maxDepth : Int) (n : Nat) (s : BinarySearch) :
    (searchBinaryLoop F d date sctx maxDepth n s).Ensures A (Divides d.nbSamples)
      fun _ => True := by
  induction n generalizing s with
  | zero => trivial
  | succ n ih =>
    unfold searchBinaryLoop
    split
    · refine (indexNBefore_ensures _ _).bind fun mIndex _ => ?_
      refine (plain_ensures _).bind fun curr _ => (plain_ensures _).bind fun res _ => ?_
      dsimp only
      split
      · exact ih _
      · exact ih _
    · trivial

theorem searchReferenceSampleNaive_ensures :
    (searchReferenceSampleNaive F d date sctx).Ensures A (Divides d.nbSamples) fun _ => True :=
  searchGetMaxDepth_ensures.bind fun _ _ => searchNaiveLoop_ensures _ _ _

/-- The depth, the loop, the last comparison and the step back all use the size of `d`. -/
theorem searchReferenceSampleBinary_ensures :
    (searchReferenceSampleBinary F d date sctx).Ensures A (Divides d.nbSamples)
      fun _ => True := by
  refine searchGetMaxDepth_ensures.bind fun depth _ => ?_
  refine (searchBinaryLoop_ensures _ _ _).bind fun s _ => ?_
  refine Prog.Ensures.bind (Q := fun _ => True) ?_ fun last _ => ?_
  · split
    · refine (indexNBefore_ensures _ _).bind fun mIndex _ => ?_
      exact (plain_ensures _).bind fun curr _ => (plain_ensures _).bind fun res _ => trivial
    · trivial
  · split
    · split
      · exact (indexPrevious_ensures _).bind fun previous _ => trivial
      · trivial
    · trivial

theorem searchReferenceSample_ensures (hint : RefSearchHint) :
    (searchReferenceSample F d date sctx hint).Ensures A (Divides d.nbSamples)
      fun _ => True := by
  cases hint with
  | binary => exact searchReferenceSampleBinary_ensures
  | naive | date => exact searchReferenceSampleNaive_ensures

/-- All five search methods. -/
theorem windowRefIdx_ensures (search : SampleSearch) (hint : RefSearchHint) :
    (windowRefIdx F search d sctx hint).Ensures A (Divides d.nbSamples) fun _ => True := by
  unfold windowRefIdx
  cases search.method with
  | latest => trivial
  | oldest =>
    refine searchGetMaxDepth_ensures.bind fun maxDepth _ => ?_
    split
    · exact indexNAfter_ensures _ _
    · exact indexNBefore_ensures _ _
  | closest =>
    refine (searchReferenceSample_ensures hint).bind fun r _ => ?_
    split
    · exact indexNext_ensures _
    split
    · trivial
    · refine (indexNext_ensures _).bind fun aIndex _ => ?_
      refine (plain_ensures _).bind fun before _ => (plain_ensures _).bind fun after _ => ?_
      refine (plain_ensures _).bind fun ret _ => ?_
      split <;> trivial
  | firstAfter =>
    refine (searchReferenceSample_ensures hint).bind fun r _ => ?_
    split
    · split
      · exact indexNext_ensures _
      · trivial
    · exact indexNext_ensures _
  | firstBefore =>
    refine (searchReferenceSample_ensures hint).bind fun r _ => ?_
    split <;> trivial

theorem searchEnd_ensures (hdr wStartIdx : Int) :
    (searchEnd hdr sctx wStartIdx d).Ensures A (Divides d.nbSamples) fun _ => True := by
  refine (plain_ensures _).bind fun tIndexNew _ => (indexNext_ensures _).bind fun oldest _ => ?_
  exact (plain_ensures _).bind fun wStart _ => (plain_ensures _).bind fun n _ => trivial

/-- The search, the test that ends it, and the bounds of the window. -/
theorem windowSet_ensures (window : Window) (hdr : Int) (search : SampleSearch)
    (hint : RefSearchHint) :
    (windowSet F window hdr search d hint).Ensures A (Divides d.nbSamples) fun _ => True := by
  refine (plain_ensures _).bind fun sctx _ => ?_
  refine (windowRefIdx_ensures search hint).bind fun refIdx _ => ?_
  split
  · trivial
  refine (indexNext_ensures _).bind fun oldest _ => ?_
  refine (indexNBefore_ensures _ _).bind fun wStartIdx _ => ?_
  refine (searchEnd_ensures hdr wStartIdx).bind fun overwritten _ => ?_
  split
  · trivial
  refine (indexNAfter_ensures _ _).bind fun endIdx _ => ?_
  refine (indexNBefore_ensures _ _).bind fun startIdx _ => ?_
  exact (plain_ensures _).bind fun _ _ => trivial

/-- By induction on the rows; the index moves by a remainder after every row. -/
theorem windowRead_ensures (window : Window) (dataSize : Nat) (sOffset : Int) :
    (windowRead window d dataSize sOffset).Ensures A (Divides d.nbSamples) fun _ => True := by
  unfold windowRead
  generalize window.startIdx = sIndex
  generalize 0 = dIndex
  induction window.nbMatches.toNat generalizing sIndex dIndex with
  | zero => trivial
  | succ n ih =>
    refine (plain_ensures _).bind fun curr _ => (plain_ensures _).bind fun row _ => ?_
    exact (indexNext_ensures _).bind fun next _ => (ih _ _).bind fun rows _ => trivial

variable {ctx : ShdCtx}

/-- The two remainders of a reservation are by the slots of the context, which the session
counters do not change. -/
theorem dataReserveWrite_ensures : (dataReserveWrite ctx).Ensures A (Divides ctx.desc.nbSamples)
    fun r => r.2.desc = ctx.desc := by
  refine (plain_ensures _).bind fun ret _ => ?_
  split
  · rfl
  refine Prog.Ensures.bind (Q := fun _ => True) ?_ fun index _ => ?_
  · exact (plain_ensures _).bind fun writeIndex _ => indexNext_ensures _
  refine (plain_ensures _).bind fun currSample _ => ?_
  refine Prog.Ensures.bind (Q := fun _ => True) ?_ fun r _ => rfl
  unfold syncStartSampleWrite
  split
  · trivial
  · refine (plain_ensures _).bind fun _ _ => (plain_ensures _).bind fun writeIndex _ => ?_
    refine (indexNext_ensures _).bind fun index _ => ?_
    dsimp only
    split <;> trivial

theorem newSample_ensures (metadata : SampleMetadata) :
    (newSample ctx metadata).Ensures A (Divides ctx.desc.nbSamples)
      fun r => r.2.desc = ctx.desc := by
  refine dataReserveWrite_ensures.bind fun r hr => ?_
  split
  · exact hr
  · exact (plain_ensures _).bind fun ret _ => hr

/-- A commit and the end of a read leave the description as it is. -/
theorem commitSample_desc : (commitSample ctx).Ensures (fun _ _ => True) (fun _ => True)
    fun r => r.2.desc = ctx.desc := by
  unfold commitSample dataEndWrite
  dsimp only
  split
  · rfl
  · exact ⟨trivial, fun _ _ => ⟨trivial, fun _ _ => rfl⟩⟩

/-- A validity check keeps the description, and so does the end of the read after it. -/
theorem endRead_desc (rev : Int) : (endRead ctx rev).Ensures (fun _ _ => True) (fun _ => True)
    fun r => r.2.desc = ctx.desc := by
  refine ((Consumer.dataCheckValidity_quiet rev).mono (fun _ _ => trivial) fun r hr => hr.2.1).bind
    fun r hr => ?_
  split
  · split
    · exact ⟨trivial, fun _ _ => hr⟩
    · exact hr
  · exact ⟨trivial, fun _ _ => hr⟩

/-- The quantity that the call makes up has no part in a remainder. -/
theorem writeNewBlob_ensures (src : List UInt8) (size : Nat) (metadata : SampleMetadata) :
    (writeNewBlob ctx src size metadata).Ensures A (Divides ctx.desc.nbSamples)
      fun r => r.2.desc = ctx.desc := by
  refine (newSample_ensures metadata).bind fun r hr => ?_
  split
  · exact hr
  refine (plain_ensures _).bind fun ret _ => ?_
  split
  · exact hr
  · exact inl_ensures (commitSample_desc.mono (fun _ => id) fun _ h => h.trans hr)

/-- A request that is refused does not divide at all. -/
theorem dataFind_ensures (search : SampleSearch) :
    (dataFind F ctx search).Ensures A (Divides ctx.desc.nbSamples)
      fun r => r.2.desc = ctx.desc := by
  refine (plain_ensures _).bind fun tIndex _ => ?_
  split
  · rfl
  split
  · rfl
  refine (windowSet_ensures _ _ search _).bind fun r _ => ?_
  dsimp only
  split
  · rfl
  · exact (plain_ensures _).bind fun wstart _ => (plain_ensures _).bind fun sync _ => rfl

theorem dataReadMetadata_ensures :
    (dataReadMetadata ctx).Ensures A (Divides ctx.desc.nbSamples)
      fun r => r.2.2.desc = ctx.desc := by
  refine (plain_ensures _).bind fun p _ => ?_
  cases p with
  | none => rfl
  | some p => exact (windowRead_ensures _ _ _).bind fun rows _ => rfl

/-- The copies of the metadata divide by the slots of the context that the search left: it is
the same description. -/
theorem selectSamples_ensures (search : SampleSearch) (result : SearchResult) :
    (selectSamples F ctx search result).Ensures A (Divides ctx.desc.nbSamples)
      fun s => s.ctx.desc = ctx.desc := by
  refine (dataFind_ensures search).bind fun r hr => ?_
  split
  · exact hr
  rw [← hr]
  refine dataReadMetadata_ensures.bind fun m hm => ?_
  split
  · exact hm
  · exact hm

theorem readFromSample_ensures (search : SampleSearch) (quantity : List Quantity)
    (sizes : List Nat) :
    (readFromSample F ctx search quantity sizes).Ensures A (Divides ctx.desc.nbSamples)
      fun s => s.ctx.desc = ctx.desc := by
  unfold readFromSample
  split
  · rfl
  refine (dataFind_ensures search).bind fun r hr => ?_
  split
  · exact hr
  · exact (plain_ensures _).bind fun q _ => hr

theorem dataReadRows_ensures (dataSize : Nat) (sOffset : Int) (dstSize : Nat) :
    (dataReadRows ctx dataSize sOffset dstSize).Ensures A (Divides ctx.desc.nbSamples)
      fun _ => True := by
  unfold dataReadRows
  split
  · trivial
  split
  · trivial
  · exact (windowRead_ensures _ _ _).bind fun rows _ => trivial

/-- A call divides by the number of slots of its context, and leaves it as it is. -/
theorem apiCall_ensures (call : ApiCall) :
    (apiCall F ctx call).Ensures A (Divides ctx.desc.nbSamples)
      fun r => r.2.desc = ctx.desc := by
  cases call with
  | prod call =>
    cases call with
    | newSample metadata => exact newSample_ensures metadata
    | writeQuantity q src =>
      exact inl_ensures ((Prog.ensures_true _).bind fun ret _ => rfl)
    | commitSample => exact inl_ensures commitSample_desc
    | writeNewBlob src size metadata => exact writeNewBlob_ensures src size metadata
  | cons call =>
    cases call with
    | select search => exact (selectSamples_ensures search _).bind fun s hs => hs
    | readFrom search quantity sizes =>
      exact (readFromSample_ensures search quantity sizes).bind fun s hs => hs
    | read quantity dstSize =>
      refine Prog.Ensures.bind (Q := fun _ => True) ?_ fun r _ => rfl
      cases quantity with
      | none => exact dataReadRows_ensures _ _ _
      | some q => exact dataReadRows_ensures _ _ _
    | endRead rev => exact inl_ensures (endRead_desc rev)
  | readSectionHdr rev => exact (plain_ensures _).bind fun r _ => rfl
  | readBlobMetadataHdr size rev => exact (plain_ensures _).bind fun r _ => rfl

/-- So does every list of calls. -/
theorem apiCalls_ensures (calls : List ApiCall) :
    (apiCalls F calls ctx).Ensures A (Divides ctx.desc.nbSamples) fun _ => True := by
  induction calls generalizing ctx with
  | nil => trivial
  | cons c cs ih =>
    refine (apiCall_ensures c).bind fun r hr => ?_
    rw [← hr]
    exact ih.bind fun rs _ => trivial

end Ensures

/-! ## The description of a new context -/

/-- A creation takes the number of slots from its caller, whatever it is. -/
theorem create_ensures {A : (o : Op) → o.Resp → Prop} (name : String) (h : HdrUserInfo)
    (mdata : List UInt8) (env : Option String) :
    (create name h mdata env).Ensures A (fun _ => True)
      fun r => ∀ ctx, r = some ctx → ctx.desc.nbSamples = hdrNbSamples h := by
  -- the error path returns no context
  have herr : ∀ inst ret ctx, (createError inst ret ctx).Ensures A (fun _ => True)
      fun r => ∀ ctx, r = some ctx → ctx.desc.nbSamples = hdrNbSamples h := by
    refine fun inst ret ctx => (createError_offSection inst ret ctx).mono (fun _ _ => trivial) ?_
    rintro r rfl ctx hctx
    exact absurd hctx (by simp)
  refine (Prog.ensures_true _).bind fun c _ => ?_
  split
  · exact herr _ _ _
  refine (Prog.ensures_true _).bind fun ret _ => ?_
  split
  · exact herr _ _ _
  refine (Prog.ensures_true _).bind fun resized _ => ?_
  split
  · exact herr _ _ _
  refine (Prog.ensures_true _).bind fun ctx _ => ?_
  refine ((ctxMmap_parts c.inst ctx h).mono (fun _ _ => trivial) fun _ => id).bind fun m hm => ?_
  split
  · rename_i a map desc _ hparts
    refine (Prog.ensures_true _).bind fun revNb _ => ?_
    split
    · exact herr _ _ _
    refine (Prog.ensures_true _).bind fun ret _ => ?_
    split
    · exact herr _ _ _
    · rintro ctx hctx
      rw [← Option.some.inj hctx, ctxInit, (hm map desc hparts).2]
  · exact herr _ _ _

/-- An opening takes the number of slots that it loads from the header, and writes nothing. -/
theorem openCtx_ensures {A : (o : Op) → o.Resp → Prop} {R : Int → Prop}
    (hload : ∀ bs, A (.read .dataSectionDescNew 24 4) bs → R (leNat bs)) (name : String)
    (env : Option String) : (openCtx name env).Ensures A KeepsMem
      fun r => ∀ p, r = some p → R p.1.desc.nbSamples := by
  refine (openCtx_parts (Q := fun _ desc => R desc.nbSamples) (R := fun _ => True)
    (fun _ => keepsMem_of_offSection) trivial (fun inst ctx => ?_) (fun map desc _ => ?_)
    name env).mono (fun _ => id) fun r hr p hp => (hr p hp).1
  · -- the mapping puts the header at 16, so the load of the slots is at 24
    refine (ctxMmap_ensures (Q := fun map => map.headerTop = 16)
      (R := fun _ desc => R desc.nbSamples) ?_ (fun map hmap => ?_) ctx).mono (fun _ => id)
      fun r hr map desc hparts => (hr map desc hparts).2
    · have hread : (hdrReadBackend inst).Ensures A KeepsMem fun _ => True := by
        refine Prog.ensures_perform trivial fun r _ => ?_
        dsimp only
        split
        · trivial
        · split <;> trivial
      refine hread.bind fun r _ => ?_
      split
      · exact fun q hq => absurd hq (by simp)
      · refine (sectionMap_ensures inst r.2).mono (fun _ => keepsMem_of_offSection) ?_
        intro r' hr' q hq
        rw [hr' q hq]
        rfl
    · refine Prog.ensures_perform trivial fun p _ => ?_
      cases p with
      | none => exact fun q hq => absurd hq (by simp)
      | some p =>
        refine Prog.ensures_perform trivial fun blobSize _ => ?_
        refine Prog.ensures_perform trivial fun nbSamples hbs => ?_
        rw [hmap] at hbs
        rintro q hq
        rw [← Option.some.inj hq]
        exact hload nbSamples hbs
  · refine ensures_load32 trivial fun bs _ => ?_
    split
    · exact fun _ => trivial
    · exact ensures_load32 trivial fun bs' _ _ => trivial

end Shdata.Explicit
