/-
Shdata.Progress.Calls — every call of the library is wait-free.

A producer's call takes a fixed number of operations, a creation clears the
slots of the ring once, and an opening loops over nothing. With the bounds for
consumers this gives `wait_free`: no call waits for another process.
A thread that was scheduled as often as `ApiCall.steps` says has returned, in
any state of the section and whatever the other threads do.
-/
import Shdata.Progress.Reading
import Shdata.Solo.Create

namespace Shdata.Progress

open Shdata.Conc Shdata.Bytes Shdata.Core Shdata.Layout Shdata.Producer Shdata.Solo

/-- A program of at most `n` operations. -/
abbrev Ends {α : Type} (p : ShdProg α) (n : Nat) (Q : α → Prop) : Prop :=
  p.Within (fun _ => True) n Q

/-! ## Writing -/

/-- An operation on the bytes of the section. -/
def OnSection : Op → Prop
  | .read _ _ _ | .write _ _ _ | .addAndFetch _ _ _ | .samplePtr _ _ => True
  | _ => False

/-- A program of at most `n` operations on the section. -/
abbrev Works {α : Type} (p : ShdProg α) (n : Nat) (Q : α → Prop) : Prop := p.Within OnSection n Q

/-- What a call never changes in a context. -/
structure SameCtx (ctx ctx' : ShdCtx) : Prop where
  desc : ctx'.desc = ctx.desc
  instId : ctx'.instId = ctx.instId
  allocs : ctx'.allocs = ctx.allocs

section Writing

variable {ctx ctx' ctx'' : ShdCtx} {d : DataSectionDesc}

theorem SameCtx.refl (ctx : ShdCtx) : SameCtx ctx ctx := ⟨rfl, rfl, rfl⟩

theorem SameCtx.trans (h : SameCtx ctx ctx') (h' : SameCtx ctx' ctx'') : SameCtx ctx ctx'' :=
  ⟨h'.desc.trans h.desc, h'.instId.trans h.instId, h'.allocs.trans h.allocs⟩

/-- The session counter is added to once; a producer that is refused does not try again. -/
theorem syncStartWriteSession_works (sync : SyncCtx) (hdr : Int) :
    Works (syncStartWriteSession sync hdr) 1 fun _ => True := by
  refine Prog.within_perform trivial fun n => ?_
  split
  · split <;> exact Prog.within_ret trivial
  · exact Prog.within_ret trivial

/-- The counter of the slot, then the write index. -/
theorem syncStartSampleWrite_works (sync : SyncCtx) (hdr samp : Int) :
    Works (syncStartSampleWrite sync hdr samp d) 2 fun _ => True := by
  unfold syncStartSampleWrite
  split
  · exact Prog.within_ret trivial
  · refine Prog.within_perform trivial fun n => Prog.within_perform trivial fun bs => ?_
    dsimp only
    split <;> exact Prog.within_ret trivial

/-- One operation for the session, two to find the slot, two to start the sample. -/
theorem dataReserveWrite_works : Works (dataReserveWrite ctx) 5 fun r => SameCtx ctx r.2 := by
  refine (syncStartWriteSession_works _ _).bind (m := 4) fun ret _ => ?_
  split
  · exact Prog.within_ret (SameCtx.refl ctx)
  · refine Prog.within_perform (n := 3) trivial fun bs => ?_
    refine Prog.within_perform (n := 2) trivial fun p => ?_
    exact (syncStartSampleWrite_works _ _ _).map fun _ _ => ⟨rfl, rfl, rfl⟩

theorem dataWriteMetadata_works (metadata : SampleMetadata) :
    Works (dataWriteMetadata ctx metadata) 2 fun _ => True := by
  unfold dataWriteMetadata
  dsimp only
  split
  · exact Prog.within_ret trivial
  · exact Prog.within_perform trivial fun p => Prog.within_perform trivial fun _ =>
      Prog.within_ret trivial

/-- A reservation and one copy of the metadata. -/
theorem newSample_works (metadata : SampleMetadata) :
    Works (newSample ctx metadata) 7 fun r => SameCtx ctx r.2 := by
  refine dataReserveWrite_works.bind (m := 2) fun r hr => ?_
  split
  · exact Prog.within_ret hr
  · exact (dataWriteMetadata_works metadata).map fun _ _ => hr

/-- One copy, however long it is. -/
theorem writeQuantity_works (quantity : Quantity) (src : List UInt8) :
    Works (writeQuantity ctx quantity src) 2 fun _ => True := by
  unfold writeQuantity dataWriteQuantity
  dsimp only
  split
  · exact Prog.within_ret trivial
  · exact Prog.within_perform trivial fun p => Prog.within_perform trivial fun _ =>
      Prog.within_ret trivial

/-- Two operations, or none without a sample in progress. -/
theorem commitSample_works : Works (commitSample ctx) 2 fun r => SameCtx ctx r.2 := by
  unfold commitSample dataEndWrite
  dsimp only
  split
  · exact Prog.within_ret (SameCtx.refl ctx)
  · exact Prog.within_perform trivial fun _ => Prog.within_perform trivial fun _ =>
      Prog.within_ret ⟨rfl, rfl, rfl⟩

/-- The bounds of its three parts: 7 + 2 + 2. -/
theorem writeNewBlob_works (src : List UInt8) (size : Nat) (metadata : SampleMetadata) :
    Works (writeNewBlob ctx src size metadata) 11 fun r => SameCtx ctx r.2 := by
  refine (newSample_works metadata).bind (m := 4) fun r hr => ?_
  split
  · exact Prog.within_ret hr
  · refine (writeQuantity_works _ src).bind (m := 2) fun ret _ => ?_
    split
    · exact Prog.within_ret hr
    · exact commitSample_works.mono (le_refl _) fun _ h => hr.trans h

/-- The largest bound holds for each of the four calls. -/
theorem prodCall_works (call : ProdCall) :
    Works (prodCall ctx call) 11 fun r => SameCtx ctx r.2 := by
  cases call with
  | newSample metadata => exact (newSample_works metadata).mono (by decide) fun _ h => h
  | writeQuantity q src =>
    exact Prog.Within.mono (n := 2) ((writeQuantity_works q src).map fun _ _ => SameCtx.refl ctx)
      (by decide) fun _ h => h
  | commitSample => exact commitSample_works.mono (by decide) fun _ h => h
  | writeNewBlob src size metadata => exact writeNewBlob_works src size metadata

/-- By induction on the calls; the context changes, and what the bound uses of it does not. -/
theorem prodCalls_works (calls : List ProdCall) :
    Works (prodCalls calls ctx) (11 * calls.length) fun r => SameCtx ctx r.2 := by
  induction calls generalizing ctx with
  | nil => exact Prog.within_ret (SameCtx.refl ctx)
  | cons call calls ih =>
    rw [List.length_cons, Nat.mul_succ, Nat.add_comm]
    exact (prodCall_works call).bind fun r hr => ih.map fun _ h => hr.trans h

end Writing

/-! ## Creation, opening, closing -/

section Lifetime

/-- The instance of the backend, and a `free` of each of the six blocks, null or not. -/
theorem ctxDestroy_ends (inst : Nat) (ctx : Option CtxAllocs) :
    Ends (ctxDestroy inst ctx) 7 fun _ => True := by
  cases ctx with
  | none => exact Prog.within_ret trivial
  | some a =>
    refine Prog.within_perform trivial fun _ => Prog.within_perform trivial fun _ => ?_
    refine Prog.within_perform trivial fun _ => Prog.within_perform trivial fun _ => ?_
    refine Prog.within_perform trivial fun _ => Prog.within_perform trivial fun _ => ?_
    exact Prog.within_perform trivial fun _ => Prog.within_ret trivial

theorem initSectionInfos_ends (name : String) : Ends (initSectionInfos name) 1 fun _ => True := by
  unfold initSectionInfos
  split
  · exact Prog.within_ret trivial
  · refine Prog.within_perform trivial fun ret => ?_
    split <;> exact Prog.within_ret trivial

theorem sectionCreate_ends (name : String) (size : Int) :
    Ends (sectionCreate name size) 2 fun _ => True := by
  refine (initSectionInfos_ends name).bind (m := 1) fun ret _ => ?_
  split
  · exact Prog.within_ret trivial
  · exact Prog.within_perform trivial fun r => Prog.within_ret trivial

theorem sectionOpen_ends (name : String) : Ends (sectionOpen name) 2 fun _ => True := by
  refine (initSectionInfos_ends name).bind (m := 1) fun ret _ => ?_
  split
  · exact Prog.within_ret trivial
  · exact Prog.within_perform trivial fun r => Prog.within_ret trivial

/-- The synchronization context and the window, then the whole context with these two. -/
theorem ctxNewError_ends (inst : Nat) (a : CtxAllocs) :
    Ends (ctxNewError inst a) 9 fun _ => True := by
  refine Prog.within_perform trivial fun _ => Prog.within_perform trivial fun _ => ?_
  exact (ctxDestroy_ends inst (some a)).map fun _ h => h

/-- Up to four allocations; after a failure the error path gives back what there is. -/
theorem ctxNew_ends (inst : Nat) : Ends (ctxNew inst) 13 fun _ => True := by
  refine Prog.within_perform (n := 12) trivial fun ctx => ?_
  cases ctx with
  | none => exact Prog.within_ret trivial
  | some c =>
    refine Prog.within_perform (n := 11) trivial fun name => ?_
    refine Prog.within_perform (n := 10) trivial fun sync => ?_
    dsimp only
    split
    · exact (ctxNewError_ends inst _).mono (by decide) fun _ h => h
    · refine Prog.within_perform (n := 9) trivial fun window => ?_
      split
      · exact ctxNewError_ends inst _
      · exact Prog.within_ret trivial

theorem sectionMap_ends (inst : Nat) (h : HdrUserInfo) :
    Ends (sectionMap inst h) 2 fun _ => True := by
  refine Prog.within_perform (n := 1) trivial fun ret => ?_
  split
  · exact Prog.within_ret trivial
  · exact Prog.within_perform trivial fun p => Prog.within_ret trivial

theorem hdrReadBackend_ends (inst : Nat) : Ends (hdrReadBackend inst) 1 fun _ => True := by
  refine Prog.within_perform trivial fun r => ?_
  dsimp only
  split
  · exact Prog.within_ret trivial
  · split <;> exact Prog.within_ret trivial

/-- An opening asks the backend for the header first, a creation has it. -/
theorem sectionMappingNew_ends (inst : Nat) (h : Option HdrUserInfo) :
    Ends (sectionMappingNew inst h) 3 fun _ => True := by
  cases h with
  | some h => exact (sectionMap_ends inst h).mono (by decide) fun _ h => h
  | none =>
    refine (hdrReadBackend_ends inst).bind (m := 2) fun r _ => ?_
    split
    · exact Prog.within_ret trivial
    · exact sectionMap_ends inst r.2

/-- The description of a section that is being created has the slots of its header. -/
def DescOf (h : Option HdrUserInfo) (d : DataSectionDesc) : Prop :=
  ∀ u ∈ h, d.nbSamples = u.maxNbSamples.toNat

/-- A creation takes the number of slots from its caller: the loop that clears the ring runs
for it, and the bound of the call names it. -/
theorem dataSectionDescNew_ends (map : SectionMap) (h : Option HdrUserInfo) :
    Ends (dataSectionDescNew map h) 3 fun r => ∀ p ∈ r, DescOf h p.2 := by
  refine Prog.within_perform (n := 2) trivial fun p => ?_
  cases p with
  | none => exact Prog.within_ret fun p hp => absurd hp (by simp)
  | some p =>
    cases h with
    | some u =>
      refine Prog.within_ret fun q hq v hv => ?_
      obtain rfl := Option.some.inj hq
      obtain rfl := Option.some.inj hv
      rfl
    | none =>
      refine Prog.within_perform (n := 1) trivial fun bs => ?_
      exact Prog.within_perform trivial fun bs' =>
        Prog.within_ret fun _ _ u hu => absurd hu (by simp)

/-- The mapping and the description. -/
theorem ctxMmap_ends (inst : Nat) (ctx : Option CtxAllocs) (h : Option HdrUserInfo) :
    Ends (ctxMmap inst ctx h) 6 fun m => ∀ p ∈ m.parts, DescOf h p.2 := by
  have hnone : ∀ ret allocs, ∀ p ∈ (⟨ret, allocs, none⟩ : CtxMmap).parts, DescOf h p.2 :=
    fun ret allocs p hp => absurd hp (by simp)
  cases ctx with
  | none => exact Prog.within_ret (hnone _ _)
  | some a =>
    refine (sectionMappingNew_ends inst h).bind (m := 3) fun map _ => ?_
    cases map with
    | none => exact Prog.within_ret (hnone _ _)
    | some m =>
      refine Prog.Within.bind (m := 0) (dataSectionDescNew_ends m.2 h) fun r hr => ?_
      cases r with
      | none => exact Prog.within_ret (hnone _ _)
      | some p =>
        refine Prog.within_ret fun q hq => ?_
        obtain rfl := Option.some.inj hq
        exact hr p rfl

/-! ## Publication -/

theorem syncInvalidateSection_works (hdr : Int) (creation : Bool) :
    Works (syncInvalidateSection hdr creation) 1 fun _ => True := by
  unfold syncInvalidateSection
  split
  · exact Prog.within_perform trivial fun _ => Prog.within_ret trivial
  · exact Prog.within_perform trivial fun _ => Prog.within_ret trivial

/-- The description of the caller is compared with the old one, and copied only if it differs. -/
theorem hdrWrite_works (hdr : Int) (h : HdrUserInfo) : Works (hdrWrite hdr h) 7 fun _ => True := by
  refine Prog.within_perform (n := 6) trivial fun old => ?_
  refine Prog.Within.bind (Q := fun _ => True) (n := 1) (m := 5) ?_ fun ret _ => ?_
  · split
    · exact Prog.within_perform trivial fun _ => Prog.within_ret trivial
    · exact Prog.within_ret trivial
  · refine Prog.within_perform (n := 4) trivial fun _ => ?_
    refine Prog.within_perform (n := 3) trivial fun _ => ?_
    refine Prog.within_perform (n := 2) trivial fun _ => ?_
    refine Prog.within_perform (n := 1) trivial fun _ => ?_
    exact Prog.within_perform trivial fun _ => Prog.within_ret trivial

theorem mdataHdrWrite_works (a : Int) (src : List UInt8) (size : Nat) :
    Works (mdataHdrWrite a src size) 2 fun _ => True := by
  refine Prog.within_perform (n := 1) trivial fun old => ?_
  split
  · exact Prog.within_perform trivial fun _ => Prog.within_ret trivial
  · exact Prog.within_ret trivial

/-- The only loop of a creation: a pointer and a store for each slot. -/
theorem dataClearLoop_works (d : DataSectionDesc) (n : Nat) (i : Int) :
    Works (dataClearLoop d n i) (2 * n) fun _ => True := by
  induction n generalizing i with
  | zero => exact Prog.within_ret trivial
  | succ n ih =>
    refine Prog.within_perform (n := 2 * n + 1) trivial fun p => ?_
    exact Prog.within_perform (n := 2 * n) trivial fun _ => ih _

/-- One addition, and a load of the revision if it came out even. -/
theorem syncUpdateGlobalRevisionNb_works (hdr : Int) :
    Works (syncUpdateGlobalRevisionNb hdr) 2 fun _ => True := by
  refine Prog.within_perform (n := 1) trivial fun n => ?_
  split
  · exact Prog.within_ret trivial
  · exact Prog.within_perform trivial fun bs => Prog.within_ret trivial

/-- All that a creation does to the bytes of the section. -/
theorem createPublish_works (map : SectionMap) (d : DataSectionDesc) (h : HdrUserInfo)
    (mdata : List UInt8) (first : Bool) :
    Works (createPublish map d h mdata first) (2 * d.nbSamples.toNat + 13) fun _ => True := by
  refine Prog.Within.mono (n := 1 + (7 + (2 + (1 + 2 * d.nbSamples.toNat + 2))))
    ((syncInvalidateSection_works _ _).bind fun _ _ => ?_) (by omega) fun _ h => h
  refine (hdrWrite_works _ h).bind fun _ _ => ?_
  refine (mdataHdrWrite_works _ _ _).bind fun _ _ => ?_
  refine Prog.Within.bind (Q := fun _ => True) ?_ fun _ _ => syncUpdateGlobalRevisionNb_works _
  rw [Nat.add_comm]
  exact Prog.within_perform trivial fun _ => dataClearLoop_works d _ _

/-! ## The calls -/

/-- A bound alone. -/
theorem ends_of_within {α : Type} {p : ShdProg α} {P : Op → Prop} {n : Nat} {Q : α → Prop}
    (h : p.Within P n Q) : Ends p n fun _ => True :=
  (Prog.Within.weaken h fun _ _ => trivial).mono (le_refl _) fun _ _ => trivial

/-- The error path of `shd_create`, from any of its exits. -/
theorem createError_ends (inst : Nat) (ret : Int) (ctx : Option CtxAllocs) :
    Ends (createError inst ret ctx) 8 fun _ => True := by
  refine (ctxDestroy_ends inst ctx).bind (m := 1) fun _ _ => ?_
  split
  · exact Prog.within_perform trivial fun _ => Prog.within_ret trivial
  · exact Prog.within_ret trivial

/-- The bounds of the parts add up; an exit takes the error path in place of what is left. -/
theorem create_ends (name : String) (h : HdrUserInfo) (mdata : List UInt8) (env : Option String) :
    Ends (create name h mdata env) (2 * h.maxNbSamples.toNat + 45) fun _ => True := by
  have herr : ∀ {n : Nat}, 8 ≤ n → ∀ inst ret ctx,
      Ends (createError inst ret ctx) n fun _ => True :=
    fun hn inst ret ctx => (createError_ends inst ret ctx).mono hn fun _ h => h
  refine Prog.Within.mono (n := 2 + (1 + (1 + (13 + (6 + (2 * h.maxNbSamples.toNat + 13
    + (1 + 8))))))) ((sectionCreate_ends _ _).bind fun c _ => ?_) (by omega) fun _ h => h
  split
  · exact herr (by omega) _ _ _
  rw [Nat.add_comm 1]
  refine Prog.within_perform trivial fun ret => ?_
  split
  · exact herr (by omega) _ _ _
  rw [Nat.add_comm 1]
  refine Prog.within_perform trivial fun resized => ?_
  split
  · exact herr (by omega) _ _ _
  refine (ctxNew_ends _).bind fun ctx _ => ?_
  refine (ctxMmap_ends _ ctx (some h)).bind fun m hm => ?_
  split
  · rename_i a map desc hallocs hparts
    have hdesc : desc.nbSamples = h.maxNbSamples.toNat := hm (map, desc) hparts h rfl
    have hpublish := ends_of_within (createPublish_works map desc h mdata c.firstCreation)
    rw [hdesc, Int.toNat_natCast] at hpublish
    refine hpublish.bind fun rev _ => ?_
    split
    · exact herr (by omega) _ _ _
    · rw [Nat.add_comm 1]
      refine Prog.within_perform trivial fun ret => ?_
      split
      · exact herr (le_refl _) _ _ _
      · exact Prog.within_ret trivial
  · exact herr (by omega) _ _ _

/-- The error path of `shd_open`. -/
theorem openError_ends (inst : Nat) (rev : Option Nat) (ctx : Option CtxAllocs) :
    Ends (openError inst rev ctx) 8 fun _ => True := by
  refine Prog.within_perform trivial fun _ => ?_
  exact (ctxDestroy_ends inst ctx).map fun _ h => h

/-- No loop: an opening does not look at the samples. -/
theorem openCtx_ends (name : String) (env : Option String) :
    Ends (openCtx name env) 32 fun _ => True := by
  have herr : ∀ {n : Nat}, 8 ≤ n → ∀ inst rev ctx, Ends (openError inst rev ctx) n fun _ => True :=
    fun hn inst rev ctx => (openError_ends inst rev ctx).mono hn fun _ h => h
  refine (sectionOpen_ends name).bind (m := 30) fun o _ => ?_
  split
  · exact herr (by decide) _ _ _
  refine (ctxNew_ends _).bind (m := 17) fun ctx _ => ?_
  refine Prog.within_perform (n := 16) trivial fun rev => ?_
  dsimp only
  split
  · exact herr (by decide) _ _ _
  refine (ctxMmap_ends _ ctx none).bind (m := 10) fun m _ => ?_
  split
  · refine Prog.Within.bind (Q := fun _ => True) (n := 2) (m := 8) ?_ fun r _ => ?_
    · refine Prog.within_perform (n := 1) trivial fun bs => ?_
      dsimp only
      split
      · exact Prog.within_ret trivial
      · exact Prog.within_perform trivial fun bs' => Prog.within_ret trivial
    · split
      · exact herr (le_refl _) _ _ _
      · exact Prog.within_ret trivial
  · exact herr (by decide) _ _ _

/-- `shd_close` frees the revision and destroys the context. -/
theorem closeCtx_ends (ctx : ShdCtx) (rev : Option Nat) :
    Ends (closeCtx ctx rev) 8 fun _ => True := by
  refine Prog.within_perform trivial fun _ => ?_
  exact (ctxDestroy_ends _ _).map fun _ _ => trivial

end Lifetime

/-! ## All calls -/

/-- A call of a function of `libshdata.h`. -/
inductive ApiCall where
  | create (blobName : String) (hdrInfo : HdrUserInfo) (blobMetadataHdr : List UInt8)
      (env : Option String)
  | openCtx (blobName : String) (env : Option String)
  | close (ctx : ShdCtx) (rev : Option Nat)
  | newSample (ctx : ShdCtx) (metadata : SampleMetadata)
  | writeQuantity (ctx : ShdCtx) (quantity : Quantity) (src : List UInt8)
  | commitSample (ctx : ShdCtx)
  | writeNewBlob (ctx : ShdCtx) (src : List UInt8) (size : Nat) (metadata : SampleMetadata)
  | selectSamples (ctx : ShdCtx) (search : SampleSearch) (result : SearchResult)
  | readQuantity (ctx : ShdCtx) (quantity : Option Quantity) (dstSize : Nat)
  | readFromSample (ctx : ShdCtx) (search : SampleSearch) (quantity : List Quantity)
      (sizes : List Nat)
  | endRead (ctx : ShdCtx) (rev : Int)
  | readSectionHdr (ctx : ShdCtx) (rev : Int)
  | readBlobMetadataHdr (ctx : ShdCtx) (size : Nat) (rev : Int)

namespace ApiCall

/-- The program of a call, less what it returns. -/
def prog (F : Futils) (call : ApiCall) : ShdProg Unit := do
  match call with
  | .create blobName hdrInfo blobMetadataHdr env =>
    let _ ← Core.create blobName hdrInfo blobMetadataHdr env
  | .openCtx blobName env => let _ ← Core.openCtx blobName env
  | .close ctx rev => let _ ← Core.closeCtx ctx rev
  | .newSample ctx metadata => let _ ← Core.newSample ctx metadata
  | .writeQuantity ctx quantity src => let _ ← Core.writeQuantity ctx quantity src
  | .commitSample ctx => let _ ← Core.commitSample ctx
  | .writeNewBlob ctx src size metadata => let _ ← Core.writeNewBlob ctx src size metadata
  | .selectSamples ctx search result => let _ ← Core.selectSamples F ctx search result
  | .readQuantity ctx quantity dstSize => let _ ← Core.readQuantity ctx quantity dstSize
  | .readFromSample ctx search quantity sizes =>
    let _ ← Core.readFromSample F ctx search quantity sizes
  | .endRead ctx rev => let _ ← Core.endRead ctx rev
  | .readSectionHdr ctx rev => let _ ← Core.readSectionHdr ctx rev
  | .readBlobMetadataHdr ctx size rev => let _ ← Core.readBlobMetadataHdr ctx size rev

/-- A bound on the operations of a call. -/
def steps : ApiCall → Nat
  | .create _ hdrInfo _ _ => 2 * hdrInfo.maxNbSamples.toNat + 45
  | .openCtx _ _ => 32
  | .close _ _ => 8
  | .newSample _ _ => 7
  | .writeQuantity _ _ _ => 2
  | .commitSample _ => 2
  | .writeNewBlob _ _ _ _ => 11
  | .selectSamples ctx _ _ => 6 * ctx.desc.nbSamples.toNat + 17
  | .readQuantity ctx _ _ => 2 * ctx.window.nbMatches.toNat
  | .readFromSample ctx _ _ sizes => 4 * ctx.desc.nbSamples.toNat + 2 * sizes.length + 17
  | .endRead _ _ => 4
  | .readSectionHdr _ _ => 2
  | .readBlobMetadataHdr _ _ _ => 3

/-- A search is made in a ring whose indices are `int` values. A binary one is made
in a ring where it ends: the sum of two indices is an `int`, too. -/
def InRing : ApiCall → Prop
  | .selectSamples ctx _ _ | .readFromSample ctx _ _ _ =>
    RingSize ctx.desc.nbSamples ∧ (ctx.hint = .binary → ctx.desc.nbSamples ≤ 1073741825)
  | _ => True

end ApiCall

/-- Where a binary search ends by itself no round is spare. -/
theorem spare_eq_zero (F : Futils) {hint : RefSearchHint} {N : Int}
    (h : hint = .binary → N ≤ 1073741825) : spare F hint N = 0 := by
  unfold spare
  rw [if_neg fun hlarge => absurd (h hlarge.1) (not_le.mpr hlarge.2)]

/-- One case for each function of `libshdata.h`. -/
theorem prog_ends (F : Futils) {call : ApiCall} (hcall : call.InRing) :
    Ends (call.prog F) call.steps fun _ => True := by
  cases call with
  | create name h mdata env => exact (create_ends name h mdata env).map fun _ h => h
  | openCtx name env => exact (openCtx_ends name env).map fun _ h => h
  | close ctx rev => exact (closeCtx_ends ctx rev).map fun _ h => h
  | newSample ctx metadata => exact (ends_of_within (newSample_works metadata)).map fun _ h => h
  | writeQuantity ctx quantity src =>
    exact (ends_of_within (writeQuantity_works quantity src)).map fun _ h => h
  | commitSample ctx => exact (ends_of_within commitSample_works).map fun _ h => h
  | writeNewBlob ctx src size metadata =>
    exact (ends_of_within (writeNewBlob_works src size metadata)).map fun _ h => h
  | selectSamples ctx search result =>
    have hspare := spare_eq_zero F hcall.2
    have hbound := selectSamples_within (F := F) hcall.1 search result
    rw [hspare] at hbound
    exact (ends_of_within hbound).map fun _ h => h
  | readQuantity ctx quantity dst =>
    exact (ends_of_within (readQuantity_within quantity dst)).map fun _ h => h
  | readFromSample ctx search quantity sizes =>
    have hspare := spare_eq_zero F hcall.2
    have hbound := readFromSample_within (F := F) hcall.1 search quantity sizes
    rw [hspare] at hbound
    exact (ends_of_within hbound).map fun _ h => h
  | endRead ctx rev => exact (ends_of_within (endRead_within rev)).map fun _ h => h
  | readSectionHdr ctx rev => exact (ends_of_within (readSectionHdr_within rev)).map fun _ h => h
  | readBlobMetadataHdr ctx size rev =>
    exact (ends_of_within (readBlobMetadataHdr_within size rev)).map fun _ h => h

/-- **Every call is wait-free.** A thread makes a call, beside any other threads with any
programs. Once it was scheduled as often as `ApiCall.steps` says, its call has
returned: no state of the section and nothing that the others do makes it wait. The
bound does not depend on how far a run follows a binary search. -/
theorem wait_free {Ω : Type} (B : Backend Ω) (F : Futils) {call : ApiCall} (hcall : call.InRing)
    {c : Config Op.Resp Nat (World Ω) Unit} {t : Nat} (ht : c.pool t = call.prog F) {ts : List Nat}
    (hts : call.steps ≤ ts.count t) : (c.run (machine B) ts).pool t = .ret () := by
  have hends := prog_ends F hcall
  rw [← ht] at hends
  obtain ⟨a, ha, -⟩ := returned_of_count (machine B) hends hts
  exact ha

/-- A producer of a section of two slots starts a sample, and a consumer searches. -/
def stalled : Config Op.Resp Nat (World Shm) Unit where
  st := (created 2).2
  pool := fun
    | 0 => (ApiCall.newSample ((created 2).1.getD default) ⟨⟨1, 0⟩, ⟨1, 0⟩⟩).prog libfutils
    | 1 => (ApiCall.selectSamples ((created 2).1.getD default) ⟨⟨0, 0⟩, .closest, 0, 0⟩
        ⟨0, 0⟩).prog libfutils
    | _ => .ret ()

/-- The producer stops inside its session. -/
theorem wait_free_stalled :
    (stalled.run (machine shm) (List.replicate 3 0 ++ List.replicate 29 1)).pool 1 = .ret () := by
  have ht : stalled.pool 1 = (ApiCall.selectSamples ((created 2).1.getD default)
    ⟨⟨0, 0⟩, .closest, 0, 0⟩ ⟨0, 0⟩).prog libfutils := rfl
  refine wait_free shm libfutils ?_ ht ?_
  · exact ⟨⟨by decide +kernel, by decide +kernel⟩, fun _ => by decide +kernel⟩
  · decide +kernel

end Shdata.Progress
