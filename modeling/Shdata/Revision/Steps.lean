/-
Shdata.Revision.Steps — what `shd_create` writes, as far as the revision of
the section is concerned.

Everything that `shd_create` does between the two updates of the revision
leaves the revision alone, whatever the header is, as long as the section of
the header can be mapped (`createWrites_keepsRevision`). `createPublish_eq`
takes that part apart from the two updates.
-/
import Shdata.Solo.Create

namespace Shdata.Revision

open Shdata.Conc Shdata.Bytes Shdata.Core Shdata.Ring Shdata.Layout Shdata.Solo

variable {Ω : Type} {B : Backend Ω} {t : Nat} {w : World Ω} {h : HdrUserInfo}

/-! ## Operations that leave the revision alone -/

/-- An operation that writes no byte of the revision. -/
def KeepsRevision : Op → Prop
  | .write _ a src => a + src.length ≤ 40 ∨ 44 ≤ a
  | .addAndFetch _ a _ => 44 ≤ a
  | .backend (.create _ _) | .backend (.resize _) => False
  | _ => True

/-- A step of a creation behind the section header. -/
def DataOp : Op → Prop
  | .write .mdataHdrWrite a _ | .write .dataClearSection a _ | .write .invalidateSample a _ =>
    56 ≤ a
  | .read .mdataHdrWrite _ _ | .samplePtr _ _ => True
  | _ => False

theorem keepsRevision_of_dataOp {o : Op} (ho : DataOp o) : KeepsRevision o := by
  cases o with
  | write site a src =>
    have ha : 56 ≤ a := by
      cases site <;> first | exact ho | exact absurd ho id
    exact Or.inr (by omega)
  | addAndFetch site a v => exact absurd ho id
  | backend c => exact absurd ho id
  | _ => trivial

/-- What the code computes itself. -/
def Computes : (o : Op) → o.Resp → Prop
  | .samplePtr desc index, p => p = dataGetSamplePtr desc index
  | _, _ => True

theorem step_computes (o : Op) (w : World Ω) : Computes o ((machine B).step t o w).2 := by
  cases o with
  | samplePtr desc index => rfl
  | _ => trivial

/-- A write that a creation makes between the two updates, or the second one. -/
def Updates : Op → Prop
  | .write (.hdrWrite _) _ _ | .write .hdrInit _ _ | .write .mdataHdrWrite _ _
  | .write .dataClearSection _ _ | .write .invalidateSample _ _
  | .addAndFetch .updateGlobalRevisionNb _ _ => True
  | _ => False

theorem step_keepsRevision (hB : B.Faithful) {o : Op} (ho : KeepsRevision o) (w : World Ω) :
    nbCreations ((machine B).step t o w).1.mem = nbCreations w.mem := by
  cases o with
  | write site a src => exact (Mem.sameOutside_write w.mem a src).i32 (by
      simp only [KeepsRevision] at ho
      omega)
  | addAndFetch site a v =>
    have hout := Mem.sameOutside_write w.mem a (encI32 (w.mem.i32 a + v))
    refine hout.i32 ?_
    rw [length_encI32]
    exact Or.inl ho
  | backend c =>
    refine congrArg nbCreations (hB.mem t c (w.mem, w.os) ?_ ?_)
    · rintro name size rfl
      exact ho
    · rintro inst rfl
      exact ho
  | _ => rfl

/-! ## The part of a creation that writes -/

theorem hdrWrite_keepsRevision (h : HdrUserInfo) : (hdrWrite 0 h).AllOps KeepsRevision := by
  have hlen := length_encHdrUserInfo h
  have huser : KeepsRevision (.write (.hdrWrite h) (0 + lp64.offsetofUserInfo) (encHdrUserInfo h)) :=
    Or.inl (by rw [hlen]; decide)
  have hrest : ∀ ret : Int, (syncHdrInit (0 + lp64.offsetofSyncInfo) >>= fun _ => do
      memcpyIn (.hdrWrite h) 0 (leBytes 8 SHD_MAGIC_NUMBER)
      memcpyIn (.hdrWrite h) (0 + 8) (leBytes 4 SHD_VERSION_MAJOR)
      memcpyIn (.hdrWrite h) (0 + 12) (leBytes 4 SHD_VERSION_MINOR)
      return ret : ShdProg Int).AllOps KeepsRevision := by
    intro ret
    refine ⟨Or.inr (by decide), fun _ _ => ⟨Or.inr (by decide), fun _ _ => ⟨Or.inl ?_, fun _ _ =>
      ⟨Or.inl ?_, fun _ _ => ⟨Or.inl ?_, fun _ _ => trivial⟩⟩⟩⟩⟩
    · simp
    · simp
    · simp
  refine Prog.ensures_perform trivial fun old _ => ?_
  split
  · exact ⟨huser, fun _ _ => hrest _⟩
  · exact hrest _

theorem mdataHdrWrite_dataOp (src : List UInt8) (size : Nat) :
    (mdataHdrWrite 56 src size).AllOps DataOp := by
  refine Prog.ensures_perform trivial fun old _ => ?_
  split
  · exact ⟨le_refl (56 : Int), fun _ _ => trivial⟩
  · exact trivial

/-- A step of the clearing of a data section that starts at `b`. -/
def ClearOp (b : Int) : Op → Prop
  | .write .dataClearSection a _ | .write .invalidateSample a _ => b ≤ a
  | .samplePtr _ _ => True
  | _ => False

theorem dataOp_of_clearOp {b : Int} (hb : 56 ≤ b) {o : Op} (ho : ClearOp b o) : DataOp o := by
  cases o with
  | write site a src =>
    cases site <;> first | exact le_trans hb ho | exact absurd ho id
  | samplePtr desc i => trivial
  | _ => exact absurd ho id

/-- The counters that are cleared lie in the data section. -/
theorem dataClearLoop_clearOp {d : DataSectionDesc} (hd : SoundDesc d) (n : Nat) (i : Int)
    (hi : 0 ≤ i) (hn : i + n ≤ d.nbSamples) :
    (dataClearLoop d n i).Ensures Computes (ClearOp d.dataSectionStart) fun _ => True := by
  induction n generalizing i with
  | zero => exact trivial
  | succ n ih =>
    have hslot : IsSlot d.nbSamples i := ⟨hi, by push_cast at hn; omega⟩
    have hfirst : slot d 0 ≤ slot d i := slot_mono hd hi
    have hstart : slot d 0 = d.dataSectionStart := by simp [slot]
    refine Prog.ensures_perform trivial fun p hp => ?_
    have hptr : p = slot d i := by
      rw [show p = _ from hp, hslot.isI32 hd.size, dataGetSamplePtr_eq hd hslot]
    refine ⟨?_, fun _ _ => ih (i + 1) (by omega) (by push_cast at hn; omega)⟩
    show d.dataSectionStart ≤ nbWritesPtr p
    rw [hptr, nbWritesPtr_slot hd hslot]
    omega

theorem dataClearSection_clearOp (hs : SafeHdr h) :
    (dataClearSection (descOf h)).Ensures Computes (ClearOp (descOf h).dataSectionStart)
      fun _ => True := by
  refine ⟨le_refl (descOf h).dataSectionStart, fun _ _ => ?_⟩
  by_cases hpos : 0 < hdrNbSamples h
  · refine dataClearLoop_clearOp (soundDesc_of_fits (hs.fitsHdr hpos)) _ _ (le_refl 0) ?_
    show 0 + (((hdrNbSamples h).toNat : Nat) : Int) ≤ hdrNbSamples h
    omega
  · have hzero : (descOf h).nbSamples.toNat = 0 := by
      show (hdrNbSamples h).toNat = 0
      omega
    rw [hzero]
    exact trivial

theorem dataClearSection_dataOp (hs : SafeHdr h) :
    (dataClearSection (descOf h)).Ensures Computes DataOp fun _ => True := by
  have hup := up4_nonneg (hdrMdataSize_nonneg h)
  have hstart : 56 ≤ (descOf h).dataSectionStart := by
    show 56 ≤ 56 + up4 (hdrMdataSize h)
    omega
  exact (dataClearSection_clearOp hs).mono (fun _ => dataOp_of_clearOp hstart) fun _ => id

/-- The writes of a creation behind the section header. -/
def createData (h : HdrUserInfo) (mdata : List UInt8) : ShdProg Unit := do
  let _ ← mdataHdrWrite 56 mdata h.blobMetadataHdrSize.toNat
  dataClearSection (descOf h)

theorem createData_dataOp (hs : SafeHdr h) (mdata : List UInt8) :
    (createData h mdata).Ensures Computes DataOp fun _ => True :=
  ((mdataHdrWrite_dataOp mdata _).assume fun _ _ _ => trivial).bind fun _ _ =>
    dataClearSection_dataOp hs

/-- The writes of a creation between the two updates of the revision. -/
def createWrites (h : HdrUserInfo) (mdata : List UInt8) : ShdProg Unit := do
  let _ ← hdrWrite 0 h
  createData h mdata

theorem createPublish_eq (mdata : List UInt8) (first : Bool) :
    createPublish (getMmap (getOffsets lp64 h)) (descOf h) h mdata first = (do
      syncInvalidateSection 40 first
      createWrites h mdata
      syncUpdateGlobalRevisionNb 40) := by
  simp only [createWrites, createData, Prog.bind_assoc]
  rfl

theorem createWrites_keepsRevision (hs : SafeHdr h) (mdata : List UInt8) :
    (createWrites h mdata).Ensures Computes KeepsRevision fun _ => True := by
  refine ((hdrWrite_keepsRevision h).assume fun _ _ _ => trivial).bind fun _ _ => ?_
  exact (createData_dataOp hs mdata).mono (fun _ => keepsRevision_of_dataOp) fun _ => id

/-! ## The whole of `shd_create` -/

/-- The end of `shd_create`, from the mapping on. -/
def createWith (hdrInfo : HdrUserInfo) (blobMetadataHdr : List UInt8) (env : Option String)
    (c : CreateResult) (m : CtxMmap) : ShdProg (Option ShdCtx) :=
  match m.allocs, m.parts with
  | some a, some (map, desc) => do
    let revNb ← createPublish map desc hdrInfo blobMetadataHdr c.firstCreation
    if revNb < 0 then
      createError c.inst m.ret (some a)
    else
      let ret ← sectionUnlock c.inst
      if ret < 0 then
        createError c.inst ret (some a)
      else
        return some (ctxInit c.inst a map desc env)
  | allocs, _ => createError c.inst m.ret allocs

/-- What follows the resize. -/
def createRest (hdrInfo : HdrUserInfo) (blobMetadataHdr : List UInt8) (env : Option String)
    (c : CreateResult) : ShdProg (Option ShdCtx) := do
  let ctx ← ctxNew c.inst
  let m ← ctxMmap c.inst ctx (some hdrInfo)
  createWith hdrInfo blobMetadataHdr env c m

/-- `shd_create` up to the resize. -/
theorem create_eq (name : String) (mdata : List UInt8) (env : Option String) :
    create name h mdata env = (do
      let c ← sectionCreate name (sectionGetTotalSize lp64 h)
      if c.ret < 0 then
        createError c.inst c.ret none
      else
        let ret ← sectionLock c.inst
        if ret < 0 then
          createError c.inst ret none
        else
          let resized ← sectionResize c.inst
          if resized < 0 then createError c.inst ret none else createRest h mdata env c) := rfl

end Shdata.Revision
